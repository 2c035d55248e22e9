import Mathlib.Data.List.DropRight
import ShardingBC.Account

/-!
# Who can be made poorer

`TX.VerifySig` checks a transfer against the public key in the first field of its content, the
account that pays. A signed transfer therefore has a spender, and an account that does not pay is
only ever added to. Whether that makes it richer depends on the amounts, of which the parser accepts
every integer.
-/
namespace ShardingBC

open List Option

structure EcdsaCoordinate where
  x : Int
  y : Int
deriving DecidableEq

/-- A length in long form; leading zeros and lengths that fit the short form are errors. -/
def asn1LongLength : ℕ → ℕ → Bytes → Option (ℕ × Bytes)
  | 0, len, rest => if len < 128 then none else some (len, rest)
  | _ + 1, _, [] => none
  | n + 1, len, b :: rest =>
    if 2 ^ 23 ≤ len ∨ len * 256 + b.toNat = 0 then none
    else asn1LongLength n (len * 256 + b.toNat) rest

def asn1Length : Bytes → Option (ℕ × Bytes)
  | [] => none
  | b :: rest =>
    if b.toNat < 128 then some (b.toNat, rest) else asn1LongLength (b.toNat - 128) 0 rest

/-- The contents of the first element, which has the tag, and what follows it. -/
def asn1Element (tag : UInt8) : Bytes → Option (Bytes × Bytes)
  | [] => none
  | b :: rest => do
      let (len, rest) ← asn1Length rest
      if b = tag ∧ len ≤ rest.length then some (rest.take len, rest.drop len) else none

/-- A minimal two's complement integer. -/
def asn1Integer (bz : Bytes) : Option Int :=
  match bz with
  | [] => none
  | b :: rest =>
    let c := (rest.headD 0).toNat
    if rest ≠ [] ∧ (b = 0 ∧ c < 128 ∨ b = 255 ∧ 128 ≤ c) then none
    else some (Int.bmod (bz.foldl (fun n (d : UInt8) => n * 256 + d.toNat) 0) (256 ^ bz.length))

/-- `asn1.Unmarshal` into the pair of integers; the rest is ignored. -/
def asn1Unmarshal (bz : Bytes) : Option EcdsaCoordinate := do
  let (inner, _) ← asn1Element 0x30 bz
  let (x, rest) ← asn1Element 0x02 inner
  let (y, _) ← asn1Element 0x02 rest
  return ⟨← asn1Integer x, ← asn1Integer y⟩

def string2Pubkey (pub : Bytes) : Option EcdsaCoordinate := (hexDecode pub).bind asn1Unmarshal

def content2PubKey (content : Bytes) : Option EcdsaCoordinate :=
  string2Pubkey ((split content 95).headD [])

def sig2bigInt (sig : Bytes) : Option EcdsaCoordinate := (hexDecode sig).bind asn1Unmarshal

/-- `TX.VerifySig`; `verify` is `ecdsa.Verify` on the md5 digest of the content. -/
def TX.verifySig (verify : EcdsaCoordinate → Bytes → EcdsaCoordinate → Bool) (t : TX) : Bool :=
  if t.txtype ≠ lit "tx" ∧ t.txtype ≠ lit "relaytx" then true
  else
    match content2PubKey t.content, sig2bigInt t.txSignature with
    | some pub, some coor => verify pub t.content coor
    | _, _ => false

/-- The account log of a transaction of type `tx`. -/
def transferLog (tx : Bytes) : Option AccountLog :=
  (parseTx tx).filter fun log => log.txType = lit "tx"

/-- Every transaction of type `tx` passes `VerifySig`. -/
def Signed (verify : EcdsaCoordinate → Bytes → EcdsaCoordinate → Bool) (txs : List Bytes) : Prop :=
  ∀ tx ∈ txs, (transferLog tx).isSome → (newTX tx).any (TX.verifySig verify) = true

instance (verify : EcdsaCoordinate → Bytes → EcdsaCoordinate → Bool) (txs : List Bytes) :
    Decidable (Signed verify txs) :=
  inferInstanceAs (Decidable (∀ tx ∈ txs, _ → _))

/-- The account is the `From` of a transfer of the block. -/
def Spends (txs : List Bytes) (account : Bytes) : Prop :=
  ∃ tx ∈ txs, ∃ log ∈ transferLog tx, log.fromAccount = account

instance (txs : List Bytes) (account : Bytes) : Decidable (Spends txs account) :=
  inferInstanceAs (Decidable (∃ tx ∈ txs, ∃ log ∈ transferLog tx, _))

/-- What the transaction sends to the account. -/
def sentTo (account tx : Bytes) : Int :=
  (transferLog tx).elim 0 fun log => if log.toAccount = account then log.amount.toInt else 0

/-- What the block sends to the account, as an integer. -/
def received (account : Bytes) (txs : List Bytes) : Int := (txs.map (sentTo account)).sum

/-- A type that `Save` does not know: it sets the empty account to zero. -/
def resets (tx : Bytes) : Bool :=
  (parseTx tx).any fun log =>
    log.txType ∉ [lit "tx", lit "checkpoint", lit "addtx", lit "relaytx"]

/-- The amounts sent to the account, modulo `2 ^ 64`, are at most what it can still hold. After a
reset the empty account must have got its balance back. -/
def AmountsFit (db : DB) (txs : List Bytes) (account : Bytes) : Prop :=
  if account = [] ∧ txs.any resets then
    (balance db account).toInt ≤
      (received account (txs.rtakeWhile fun tx => !resets tx)).bmod (2 ^ 64)
  else received account txs % 2 ^ 64 ≤ 2 ^ 63 - 1 - (balance db account).toInt

variable {tx : Bytes} {log : AccountLog}

@[simp] lemma transferLog_eq_some :
    transferLog tx = some log ↔ parseTx tx = some log ∧ log.txType = lit "tx" := by
  simp [transferLog]

/-- The spender of a signed transfer is a key. -/
lemma fromAccount_ne_nil {verify : EcdsaCoordinate → Bytes → EcdsaCoordinate → Bool}
    (hlog : transferLog tx = some log)
    (hsig : (newTX tx).any (TX.verifySig verify) = true) : log.fromAccount ≠ [] := by
  obtain ⟨t, ht, hv⟩ : ∃ t, newTX tx = some t ∧ t.verifySig verify = true := by
    cases ht : newTX tx with
    | none => simp [ht] at hsig
    | some t => exact ⟨t, rfl, by simpa [ht] using hsig⟩
  obtain ⟨hparse, hty⟩ := transferLog_eq_some.mp hlog
  rw [parseTx_of_newTX ht] at hparse
  split_ifs at hparse with htx
  · cases hparse
    exact absurd hty htx
  · intro hnil
    have hhead : (split t.content 95).headD [] = [] := by
      unfold parseTransfer at hparse
      split at hparse
      · rename_i heq
        split_ifs at hparse
        cases hparse
        rw [show t.content = (TxArg.ofTX t).content from rfl, heq]
        exact hnil
      · cases hparse
    have hkey : content2PubKey t.content = none := by
      rw [content2PubKey, hhead]
      rfl
    simp [TX.verifySig, htx, hkey] at hv

lemma not_resets_of_transferLog (hlog : transferLog tx = some log) :
    resets tx = false := by
  obtain ⟨hparse, hty⟩ := transferLog_eq_some.mp hlog
  simp [resets, hparse, hty]

lemma txOps_of_transferLog {verify : EcdsaCoordinate → Bytes → EcdsaCoordinate → Bool}
    (hlog : transferLog tx = some log)
    (hsig : (newTX tx).any (TX.verifySig verify) = true) :
    txOps tx = [.add log.fromAccount (-log.amount), .add log.toAccount log.amount] := by
  obtain ⟨hparse, hty⟩ := transferLog_eq_some.mp hlog
  rw [txOps, hparse, elim_some, AccountLog.ops_transfer hty,
    if_pos (fromAccount_ne_nil hlog hsig)]

lemma txOps_of_no_transferLog (hlog : transferLog tx = none) :
    txOps tx = if resets tx then [.put [] 0] else [] := by
  unfold txOps resets
  cases hparse : parseTx tx with
  | none => rfl
  | some log =>
    have hne : log.txType ≠ lit "tx" := by
      intro hty
      rw [transferLog_eq_some.mpr ⟨hparse, hty⟩] at hlog
      cases hlog
    obtain ⟨ty, -, rfl⟩ | hty := parseTx_cases hparse
    · have hne : ty ≠ lit "tx" := hne
      have hany : (some (AccountLog.ofType ty)).any (fun log =>
            log.txType ∉ [lit "tx", lit "checkpoint", lit "addtx", lit "relaytx"]) = true ↔
          ¬ (ty = lit "checkpoint" ∨ ty = lit "addtx" ∨ ty = lit "relaytx") := by
        rw [any_some, decide_eq_true_iff]
        simp only [AccountLog.ofType, mem_cons, not_mem_nil, or_false, hne, false_or]
      rw [elim_some, AccountLog.ops_ofType]
      by_cases hty : ty = lit "checkpoint" ∨ ty = lit "addtx" ∨ ty = lit "relaytx"
      · rw [if_pos hty, if_neg fun h => hany.mp h hty]
      · rw [if_neg hty, if_pos (hany.mpr hty)]
    · exact absurd hty hne

lemma txOps_of_resets (h : resets tx = true) : txOps tx = [.put [] 0] := by
  have hlog : transferLog tx = none := by
    cases hlog : transferLog tx with
    | none => rfl
    | some log =>
      rw [not_resets_of_transferLog hlog] at h
      cases h
  rw [txOps_of_no_transferLog hlog, if_pos h]

section Block

variable {verify : EcdsaCoordinate → Bytes → EcdsaCoordinate → Bool} {account : Bytes}

lemma added_txOps
    (hsig : (transferLog tx).isSome → (newTX tx).any (TX.verifySig verify) = true)
    (hfrom : ∀ log ∈ transferLog tx, log.fromAccount ≠ account) :
    Ledger.added account (txOps tx) = Int64.ofInt (sentTo account tx) := by
  unfold sentTo
  cases hlog : transferLog tx with
  | none =>
    rw [txOps_of_no_transferLog hlog]
    split_ifs <;> rfl
  | some log =>
    rw [txOps_of_transferLog hlog (hsig (by simp [hlog]))]
    simp only [Ledger.added_cons, Ledger.Op.addedTo, if_neg (hfrom log hlog), Ledger.added_nil,
      zero_add, add_zero, elim_some]
    split_ifs
    · exact (Int64.ofInt_toInt _).symm
    · rfl

variable {txs : List Bytes}

lemma added_blockOps (hsigned : Signed verify txs)
    (hfrom : ¬ Spends txs account) :
    Ledger.added account (blockOps txs) = Int64.ofInt (received account txs) := by
  induction txs with
  | nil => rfl
  | cons tx txs ih =>
    have hhead := added_txOps (hsigned tx (by simp)) fun log hlog he =>
      hfrom ⟨tx, by simp, log, hlog, he⟩
    have htail := ih (fun tx' h => hsigned tx' (by simp [h])) fun ⟨tx', h, hlog⟩ =>
      hfrom ⟨tx', by simp [h], hlog⟩
    have hsum : received account (tx :: txs) = sentTo account tx + received account txs := by
      simp [received]
    rw [hsum, Int64.ofInt_add, ← hhead, ← htail, ← Ledger.added_append]
    rfl

lemma overwrites_txOps_iff
    (hsig : (transferLog tx).isSome → (newTX tx).any (TX.verifySig verify) = true) :
    Ledger.Overwrites account (txOps tx) ↔ account = [] ∧ resets tx = true := by
  cases hlog : transferLog tx with
  | none =>
    rw [txOps_of_no_transferLog hlog]
    split_ifs with h <;> simp [Ledger.Overwrites, h]
  | some log =>
    rw [txOps_of_transferLog hlog (hsig (by simp [hlog]))]
    simp [Ledger.Overwrites, not_resets_of_transferLog hlog]

/-- In a signed block only transactions of unknown type overwrite, and only the empty account. -/
lemma overwrites_blockOps_iff (hsigned : Signed verify txs) :
    Ledger.Overwrites account (blockOps txs) ↔ account = [] ∧ txs.any resets = true := by
  have hmem : Ledger.Overwrites account (blockOps txs) ↔
      ∃ tx ∈ txs, Ledger.Overwrites account (txOps tx) := by
    simp only [Ledger.Overwrites, blockOps, mem_flatMap]
    constructor
    · rintro ⟨g, tx, htx, hg⟩
      exact ⟨tx, htx, g, hg⟩
    · rintro ⟨tx, htx, g, hg⟩
      exact ⟨g, tx, htx, hg⟩
  rw [hmem, List.any_eq_true]
  constructor
  · rintro ⟨tx, htx, h⟩
    have h := (overwrites_txOps_iff (hsigned tx htx)).mp h
    exact ⟨h.1, tx, htx, h.2⟩
  · rintro ⟨hnil, tx, htx, h⟩
    exact ⟨tx, htx, (overwrites_txOps_iff (hsigned tx htx)).mpr ⟨hnil, h⟩⟩

/-- Without a reset the balance grows by the amounts, wrapped. -/
lemma balance_of_no_reset (db : DB) (hsigned : Signed verify txs)
    (hfrom : ¬ Spends txs account) (hreset : ¬ (account = [] ∧ txs.any resets = true)) :
    (balance (execTxs db txs) account).toInt =
      ((balance db account).toInt + received account txs).bmod (2 ^ 64) := by
  have hover : ¬ Ledger.Overwrites account (blockOps txs) := by
    rwa [overwrites_blockOps_iff hsigned]
  rw [balance_execTxs, Ledger.run_of_not_overwrites hover, added_blockOps hsigned hfrom,
    Int64.toInt_add, Int64.toInt_ofInt]
  exact Int.add_bmod_bmod

/-- After a reset the empty account has what was sent to it since. -/
lemma balance_of_reset (db : DB) (hsigned : Signed verify txs)
    (hfrom : ¬ Spends txs []) (hreset : txs.any resets = true) :
    (balance (execTxs db txs) []).toInt =
      (received [] (txs.rtakeWhile fun tx => !resets tx)).bmod (2 ^ 64) := by
  -- from the right: a reset leaves zero, and any other transaction adds what it sends
  induction txs using reverseRecOn with
  | nil => simp at hreset
  | append_singleton txs tx ih =>
    have hsigned' : Signed verify [tx] := fun tx' h => hsigned tx' (by simp_all)
    have hfrom' : ¬ Spends [tx] [] := by
      rintro ⟨tx', h, hlog⟩
      exact hfrom ⟨tx', by simp_all, hlog⟩
    have hfirst : ¬ Spends txs [] := by
      rintro ⟨tx', h, hlog⟩
      exact hfrom ⟨tx', by simp [h], hlog⟩
    have hexec : execTxs db (txs ++ [tx]) = execTxs (execTxs db txs) [tx] := by
      simp [execTxs]
    rw [hexec, rtakeWhile_concat]
    by_cases htx : resets tx = true
    · rw [balance_execTxs, blockOps, flatMap_singleton, txOps_of_resets htx]
      simp [htx, Ledger.Op.act, received]
    · have hany : txs.any resets = true := by simpa [htx] using hreset
      have hprev := ih (fun tx' h => hsigned tx' (by simp [h])) hfirst hany
      have hlast := balance_of_no_reset (execTxs db txs) hsigned' hfrom' (by simp [htx])
      rw [hlast, hprev, if_pos (by simp [htx])]
      simp [received]

/-- In a signed block, an account that does not pay keeps its balance or gains just when
the amounts sent to it fit. -/
theorem not_poorer_iff (db : DB) {txs : List Bytes} (hsigned : Signed verify txs)
    (hfrom : ¬ Spends txs account) :
    balance db account ≤ balance (execTxs db txs) account ↔ AmountsFit db txs account := by
  rw [Int64.le_iff_toInt_le, AmountsFit]
  split_ifs with hreset
  · obtain ⟨rfl, hreset⟩ := hreset
    rw [balance_of_reset db hsigned hfrom hreset]
  · rw [balance_of_no_reset db hsigned hfrom hreset]
    rw [Int.bmod_def]
    split_ifs <;> omega

end Block

/-- The key with both coordinates one, as an account. -/
def payer : Bytes := lit "3006020101020101"

/-- A transfer of the amount to `y`. -/
def payment (amount : Bytes) : TX :=
  { TX.zero with
    txtype := lit "tx", content := payer ++ lit "_y_" ++ amount ++ lit "_1", txSignature := payer }

/-- The payer has signed this transaction and nothing else. -/
def signedOnly (t : TX) : EcdsaCoordinate → Bytes → EcdsaCoordinate → Bool :=
  fun pub content _ => pub = ⟨1, 1⟩ ∧ content = t.content

/-- The account `y` owns a hundred coins. -/
def fundedY : DB := DB.set (fun _ => none) (lit "y") (lit "100")

theorem payment_makes_not_poorer :
    Signed (signedOnly (payment (lit "5"))) [(payment (lit "5")).data] ∧
    ¬ Spends [(payment (lit "5")).data] (lit "y") ∧
    balance fundedY (lit "y") ≤ balance (execTxs fundedY [(payment (lit "5")).data]) (lit "y") := by
  have hsigned : Signed (signedOnly (payment (lit "5"))) [(payment (lit "5")).data] := by
    decide +kernel
  have hfrom : ¬ Spends [(payment (lit "5")).data] (lit "y") := by decide +kernel
  have hfit : AmountsFit fundedY [(payment (lit "5")).data] (lit "y") := by
    unfold AmountsFit
    decide +kernel
  exact ⟨hsigned, hfrom, (not_poorer_iff fundedY hsigned hfrom).mpr hfit⟩

/-- A signed payment of minus five coins does. -/
theorem negative_payment_takes :
    Signed (signedOnly (payment (lit "-5"))) [(payment (lit "-5")).data] ∧
    ¬ Spends [(payment (lit "-5")).data] (lit "y") ∧
    balance fundedY (lit "y") = 100 ∧
    balance (execTxs fundedY [(payment (lit "-5")).data]) (lit "y") = 95 := by
  decide +kernel

end ShardingBC
