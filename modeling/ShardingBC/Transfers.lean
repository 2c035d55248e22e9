import ShardingBC.Account

/-!
# Transfers move money and make none

A transfer with a spender takes its amount from one balance and then adds it to another, in the
arithmetic of 64-bit integers. A database has finitely many keys, and the total is the sum of all
balances; an unset account counts zero.
-/
namespace ShardingBC

/-- A transaction that the parser takes as a transfer with a spender. -/
def IsTransfer (tx : Bytes) : Prop :=
  ∃ a, parseTx tx = some a ∧ a.txType = lit "tx" ∧ a.fromAccount ≠ []

/-- Every key is unset or holds a decimal 64-bit integer. -/
def Decimal (db : DB) : Prop := ∀ k v, db k = some v → (atoi v).2 = true

noncomputable def totalBalance (db : DB) : Int64 := ∑ᶠ account, balance db account

lemma txOps_of_isTransfer {tx : Bytes} (h : IsTransfer tx) :
    ∃ k k' v, txOps tx = [.add k (-v), .add k' v] := by
  obtain ⟨a, ha, hty, hfrom⟩ := h
  refine ⟨a.fromAccount, a.toAccount, a.amount, ?_⟩
  rw [txOps, ha, Option.elim_some, a.ops_transfer hty, if_pos hfrom]

/-- The operations of transfers only add, and cancel. -/
lemma blockOps_of_isTransfer {txs : List Bytes} (h : ∀ tx ∈ txs, IsTransfer tx) :
    (∀ o ∈ blockOps txs, o = .add o.key o.amount) ∧
      ((blockOps txs).map Ledger.Op.amount).sum = 0 := by
  induction txs with
  | nil => simp [blockOps]
  | cons tx txs ih =>
    obtain ⟨htx, htxs⟩ := List.forall_mem_cons.mp h
    obtain ⟨k, k', v, hops⟩ := txOps_of_isTransfer htx
    obtain ⟨hadd, hsum⟩ := ih htxs
    have hblock : blockOps (tx :: txs) = [.add k (-v), .add k' v] ++ blockOps txs := by
      rw [blockOps, List.flatMap_cons, hops, blockOps]
    rw [hblock]
    constructor
    · intro o ho
      rcases List.mem_append.mp ho with ho | ho
      · simp only [List.mem_cons, List.not_mem_nil, or_false] at ho
        rcases ho with rfl | rfl <;> rfl
      · exact hadd o ho
    · simp [Ledger.Op.amount, hsum]

lemma Decimal.set {db : DB} (h : Decimal db) (account : Bytes) {v : Bytes}
    (hv : (atoi v).2 = true) : Decimal (db.set account v) := by
  intro k w hw
  by_cases hk : k = account
  · subst hk
    rw [DB.set_same] at hw
    cases hw
    exact hv
  · rw [DB.set_other db _ hk] at hw
    exact h k w hw

lemma Decimal.applyOp {db : DB} (h : Decimal db) (o : Ledger.Op Bytes Int64) :
    Decimal (applyOp db o) := by
  cases o with
  | add account n => exact h.set account (by rw [digit2byte, atoi_formatInt])
  | put account n => exact h.set account (by rw [digit2byte, atoi_formatInt])

lemma Decimal.applyOps {db : DB} (h : Decimal db) (ops : List (Ledger.Op Bytes Int64)) :
    Decimal (applyOps db ops) := by
  induction ops generalizing db with
  | nil => exact h
  | cons o ops ih => exact ih (h.applyOp o)

/-- Transfers keep the total and the decimal balances, and each leaves every account but its two
alone. -/
theorem transfers_keep_total (db : DB) (hdb : {k | db k ≠ none}.Finite) (hdec : Decimal db)
    (txs : List Bytes) (htxs : ∀ tx ∈ txs, IsTransfer tx) :
    totalBalance (execTxs db txs) = totalBalance db ∧ Decimal (execTxs db txs) ∧
      ∀ before tx after a, txs = before ++ tx :: after → parseTx tx = some a →
        ∀ k, k ≠ a.fromAccount → k ≠ a.toAccount →
          execTxs db (before ++ [tx]) k = execTxs db before k := by
  obtain ⟨hadd, hsum⟩ := blockOps_of_isTransfer htxs
  refine ⟨?_, ?_, ?_⟩
  · have hfinite : (balance db).support.Finite :=
      hdb.subset fun k hk hnone => hk (by rw [balance, hnone]; rfl)
    rw [totalBalance, totalBalance, balance_execTxs, Ledger.finsum_run hadd hfinite, hsum, add_zero]
  · rw [execTxs_eq_applyOps]
    exact hdec.applyOps _
  · intro before tx after a _ ha k hfrom hto
    have hone : execTxs db (before ++ [tx]) = a.save (execTxs db before) := by
      rw [execTxs, List.foldl_concat, execTx, ha]
      rfl
    rw [hone]
    exact a.save_other _ hfrom hto

/-- The text of a transfer. -/
def transferText (content : String) : Bytes :=
  (Json.obj [(lit "TxType", .str (lit "tx")), (lit "Content", .str (lit content))]).print

/-- A payment beyond the balance and one to the spender. -/
def twoTransfers : List Bytes :=
  [transferText "alice_bob_7_0", transferText "alice_alice_3_1"]

def aliceOwnsFive : DB := DB.set (fun _ => none) (lit "alice") (lit "5")

theorem twoTransfers_keep_total :
    balance aliceOwnsFive (lit "alice") = 5 ∧
      balance (execTxs aliceOwnsFive twoTransfers) (lit "alice") = -2 ∧
      totalBalance (execTxs aliceOwnsFive twoTransfers) = totalBalance aliceOwnsFive := by
  refine ⟨by decide +kernel, by decide +kernel, ?_⟩
  refine (transfers_keep_total aliceOwnsFive ?_ ?_ twoTransfers ?_).1
  · refine (Set.finite_singleton (lit "alice")).subset ?_
    intro k hk
    by_contra hne
    exact hk (DB.set_other _ _ hne)
  · have hempty : Decimal fun _ => none := by
      intro k v hv
      cases hv
    exact hempty.set _ (by decide +kernel)
  · intro tx htx
    simp only [twoTransfers, List.mem_cons, List.not_mem_nil, or_false] at htx
    rcases htx with rfl | rfl
    · exact ⟨⟨Digest.zero, lit "tx", lit "alice", lit "bob", lit "0", 7, 0⟩, by decide +kernel,
        rfl, by decide⟩
    · exact ⟨⟨Digest.zero, lit "tx", lit "alice", lit "alice", lit "1", 3, 0⟩, by decide +kernel,
        rfl, by decide⟩

end ShardingBC
