import ShardingBC.CrossRoot
import ShardingBC.MempoolPanics
import ShardingBC.Routing
import ShardingBC.ShardFilters
import ShardingBC.Signers

/-!
# Which decided blocks can be applied

`finalizeCommit` with the shard filters that `ApplyBlock` updates. Neither `ValidateBlock` nor a
prevote looks at the type and the fields of a transaction, and both parts of a commit index the
fields at fixed positions.
-/
namespace ShardingBC

open List Option

def TX.fieldCount (t : TX) : ℕ := (split t.content 95).length

/-- The shards that the configurations of a block add and remove. -/
def shardChanges : List Bytes → Option (List Bytes × List Bytes)
  | [] => some ([], [])
  | raw :: rest =>
    match newTX raw with
    | none => shardChanges rest
    | some t =>
      if t.txtype ≠ lit "ShardConfigTx" then shardChanges rest
      else do
        let parts := split t.content 95
        let change ← parts[2]?
        let r ← shardChanges rest
        if change = lit "1" then some (parts.getD 0 [] :: r.1, r.2)
        else some (r.1, parts.getD 0 [] :: r.2)

namespace ShardFilters

variable (env : Env) (current : Int64) (created : Bytes → Int64)

/-- `ApplyBlock` on a valid block, with the answers to the recheck. -/
def applyBlock (s : (RecheckPool × DB) × CList ShardFilter) (height : Int64) (txs : List Bytes)
    (inp : CommitInput) (res : ℕ → CheckTxResponse) :
    Option ((RecheckPool × DB) × CList ShardFilter) := do
  let changes ← shardChanges txs
  let filters ← updateShardFliters s.2 current created changes.1 changes.2
  let r ← ShardingBC.applyBlock env (s.1.1.pool.mem, s.1.2) height txs inp
  let p ← s.1.1.updateAnswered env (execTxs s.1.2 txs) height txs inp.preCheck inp.postCheck res
  let m := p.pool.mem
  some ((p.withMem { m with cmDB := (updatecmDB m.cmDB).2 }, r.1.2), filters)

def finalizeCommit (s : (RecheckPool × DB) × CList ShardFilter) (b : Proposal) (height : Int64)
    (inp : CommitInput) (res : ℕ → CheckTxResponse) :
    Option ((RecheckPool × DB) × CList ShardFilter) := do
  let r ← tryAddAggragate2Block env s.1.1.pool.mem b height inp
  applyBlock env current created ((s.1.1.withMem r.1, s.1.2), s.2) height b.txs inp res

end ShardFilters

/-- A commit finds the fields that it reads of the transaction. -/
def TX.Applies (t : TX) : Prop :=
  (t.txtype = lit "relaytx" ∧ t.operate = 0) ∨ t.txtype = lit "DeliverTx" ∨
    (t.txtype = lit "ShardConfigTx" ∧ 3 ≤ t.fieldCount) ∨
    (t.txtype ≠ lit "ShardConfigTx" ∧ 4 ≤ t.fieldCount)

lemma scanTx_isSome_iff (m : Mempool) (raw : Bytes) :
    (scanTx m raw).isSome ↔
      ∃ t, newTX raw = some t ∧ ((t.txtype = lit "relaytx" ∧ t.operate = 0) ∨ parseTxTime t) := by
  unfold scanTx
  cases hnew : newTX raw with
  | none => simp
  | some t =>
    simp only [some.injEq, exists_eq_left']
    split_ifs with hcond
    · simp only [hcond, iff_true]
      unfold setStrikes strikeRate
      -- a strike is neither a relay nor skipped by `ParseTxTime`: it has four fields
      have hfields : ∀ {ty}, t.txtype = ty → ty ≠ lit "relaytx" → ty ≠ lit "DeliverTx" →
          ty ≠ lit "ShardConfigTx" → (split t.content 95)[2]?.isSome := by
        rintro ty rfl hrelay hdeliver hconfig
        rcases hcond with ⟨hf, -⟩ | hparse
        · exact absurd hf hrelay
        · simp only [parseTxTime, hdeliver, hconfig, decide_false, Bool.false_or,
            decide_eq_true_eq] at hparse
          rw [getElem?_eq_getElem (by omega)]
          rfl
      split_ifs with hsend hreceive
      · rw [isSome_map, isSome_map]
        exact hfields hsend (by decide) (by decide) (by decide)
      · rw [isSome_map, isSome_map]
        exact hfields hreceive (by decide) (by decide) (by decide)
      · rfl
    · simp [hcond]

lemma judgeCrossMessage_isSome {txs : List Bytes} (h : ∀ raw ∈ txs, (newTX raw).isSome) :
    (judgeCrossMessage txs).isSome := by
  induction txs with
  | nil => rfl
  | cons raw txs ih =>
    obtain ⟨t, ht⟩ := isSome_iff_exists.mp (h raw (by simp))
    rw [judgeCrossMessage, ht]
    dsimp only
    split_ifs
    · rfl
    · exact ih fun raw hraw => h raw (by simp [hraw])

lemma storeMessage_isSome (env : Env) (packs : Option (List Package)) {cm : CrossMessages}
    (h : ∀ raw ∈ cm.txlist.getD [], (newTX raw).isSome) (cmDB : List CrossMessage) :
    (storeMessage env packs cmDB cm).isSome := by
  obtain ⟨judged, hjudged⟩ := isSome_iff_exists.mp (judgeCrossMessage_isSome h)
  rw [storeMessage, hjudged]
  cases judged <;> rfl

lemma foldlM_storeMessage_isSome (env : Env) (packs : Option (List Package))
    {cms : List CrossMessages} (h : ∀ cm ∈ cms, ∀ raw ∈ cm.txlist.getD [], (newTX raw).isSome)
    (cmDB : List CrossMessage) : (cms.foldlM (storeMessage env packs) cmDB).isSome := by
  induction cms generalizing cmDB with
  | nil => rfl
  | cons cm cms ih =>
    obtain ⟨cmDB', hstore⟩ := isSome_iff_exists.mp
      (storeMessage_isSome env packs (h cm (by simp)) cmDB)
    rw [foldlM_cons, hstore]
    exact ih (fun cm hcm => h cm (by simp [hcm])) cmDB'

section Commit

variable {env : Env} {m : Mempool} {s : RecheckPool} {l : CList ShardFilter} {db : DB}
  {b : Proposal} {height : Int64} {inp : CommitInput} {res : ℕ → CheckTxResponse}

lemma txlist_parses {mts : TxMerkleTree} {signature : Bytes} {cms : List CrossMessages}
    (horder : Traverses inp.order (classifyTxbySingle env.shard b.txs))
    (h : classifyTxFromBlock env.shard env.index mts b.txs signature env.shardPubkey height
      inp.order = some cms) :
    ∀ cm ∈ cms, ∀ raw ∈ cm.txlist.getD [], (newTX raw).isSome := by
  intro cm hcm raw hraw
  obtain ⟨k, -, hmsg⟩ := exists_right_of_forall₂ (messages_of_foreignKeys horder h).flip hcm
  rw [hmsg.txlist] at hraw
  obtain ⟨t, -, rfl, -⟩ := exists_of_mem_get hraw
  rw [TX.newTX_data]
  rfl

lemma tryAddAggragate2Block_isSome_iff
    (horder : Traverses inp.order (classifyTxbySingle env.shard b.txs)) :
    (tryAddAggragate2Block env m b height inp).isSome ↔ ∀ raw ∈ b.txs,
      ∃ t, newTX raw = some t ∧ ((t.txtype = lit "relaytx" ∧ t.operate = 0) ∨ parseTxTime t) := by
  rw [← Runs.isSome_foldlM_iff (s := m) scanTx_isSome_iff]
  simp only [tryAddAggragate2Block]
  by_cases htxs : b.txs = []
  · simp [htxs]
  · rw [if_neg htxs]
    cases hscan : b.txs.foldlM scanTx m with
    | none => simp
    | some m' =>
      obtain ⟨mts, hmts⟩ := isSome_iff_exists.mp
        (generateMerkleTreebySingle_isSome env.shard b.txs)
      simp only [bind_eq_bind, bind_some, hmts]
      split
      · rfl
      · rename_i sig _
        obtain ⟨cms, hcms⟩ := isSome_iff_exists.mp (classifyTxFromBlock_isSome
          env.shard env.index b.txs sig env.shardPubkey height hmts horder)
        obtain ⟨cmDB, hcmDB⟩ := isSome_iff_exists.mp (foldlM_storeMessage_isSome
          env (parsePackages (marshalPackages (searchRelationTable m.rlDB height)))
          (txlist_parses horder hcms) m'.cmDB)
        rw [hcms, bind_some, hcmDB]
        rfl

lemma shardConfigsParse_cons (raw : Bytes) (txs : List Bytes) :
    shardConfigsParse (raw :: txs) ↔
      (∀ t, newTX raw = some t → t.txtype = lit "ShardConfigTx" → 3 ≤ t.fieldCount) ∧
        shardConfigsParse txs := by
  rw [shardConfigsParse, all_cons, Bool.and_eq_true]
  apply and_congr _ Iff.rfl
  cases newTX raw with
  | none => simp
  | some t =>
    simp only [all_some, Bool.or_eq_true, bne_iff_ne, decide_eq_true_eq, some.injEq,
      forall_eq']
    exact Decidable.imp_iff_not_or.symm

lemma shardChanges_isSome_iff (txs : List Bytes) :
    (shardChanges txs).isSome ↔ shardConfigsParse txs := by
  induction txs with
  | nil => simp [shardChanges, shardConfigsParse]
  | cons raw txs ih =>
    rw [shardConfigsParse_cons, ← ih, shardChanges]
    cases hnew : newTX raw with
    | none => simp
    | some t =>
      simp only [some.injEq, forall_eq']
      split_ifs with hty
      · simp [hty]
      · rw [not_not] at hty
        simp only [hty, forall_const, TX.fieldCount]
        by_cases hlen : 3 ≤ (split t.content 95).length
        · rw [getElem?_eq_getElem (by omega)]
          cases shardChanges txs with
          | none => simp
          | some r =>
            simp only [bind_eq_bind, bind_some, hlen, isSome_some,
              and_self, iff_true]
            split_ifs <;> rfl
        · rw [getElem?_eq_none (by omega)]
          simp [hlen]

lemma applies_iff (t : TX) :
    t.Applies ↔ ((t.txtype = lit "relaytx" ∧ t.operate = 0) ∨ parseTxTime t) ∧
      (t.txtype = lit "ShardConfigTx" → 3 ≤ t.fieldCount) := by
  have hrelay : lit "relaytx" ≠ lit "ShardConfigTx" := by decide
  have hdeliver : lit "DeliverTx" ≠ lit "ShardConfigTx" := by decide
  simp only [TX.Applies, parseTxTime, TX.fieldCount, Nat.succ_le_iff]
  by_cases hconfig : t.txtype = lit "ShardConfigTx"
  · simp [hconfig, hrelay.symm, hdeliver.symm]
  · simp [hconfig]

lemma applyBlock_isSome_iff (s : Mempool × DB) (txs : List Bytes) :
    (applyBlock env s height txs inp).isSome ↔ shardConfigsParse txs ∧
      (∀ raw ∈ txs, (newTX raw).isSome) ∧ ∀ x ∈ s.1.txs.elems, (parseData x.tx).isSome := by
  rw [applyBlock]
  split_ifs with hparse
  · rw [isSome_map, update_isSome_iff]
    simp [hparse]
  · simp [hparse]

/-- The fields that both parts of a commit read. -/
lemma all_apply_iff (horder : Traverses inp.order (classifyTxbySingle env.shard b.txs)) :
    (∀ raw ∈ b.txs, ∃ t, newTX raw = some t ∧ t.Applies) ↔
      (tryAddAggragate2Block env m b height inp).isSome ∧ shardConfigsParse b.txs := by
  rw [tryAddAggragate2Block_isSome_iff horder]
  induction b.txs with
  | nil => simp [shardConfigsParse]
  | cons raw txs ih =>
    rw [forall_mem_cons, forall_mem_cons, shardConfigsParse_cons, ih]
    simp only [applies_iff]
    constructor
    · rintro ⟨⟨t, ht, hscan, hconfig⟩, hrest, hparse⟩
      refine ⟨⟨⟨t, ht, hscan⟩, hrest⟩, ?_, hparse⟩
      intro u hu
      rw [ht] at hu
      cases hu
      exact hconfig
    · rintro ⟨⟨⟨t, ht, hscan⟩, hrest⟩, hconfig, hparse⟩
      exact ⟨⟨t, ht, hscan, hconfig t ht⟩, hrest, hparse⟩

lemma configTxsLast_congr {m' : Mempool} {txs : List Bytes} (htxs : m'.txs = m.txs)
    (hkeys : rowKeys m'.rlDB height = rowKeys m.rlDB height) :
    ConfigTxsLast env m' height txs ↔ ConfigTxsLast env m height txs := by
  unfold ConfigTxsLast Stays
  rw [htxs, hkeys]

open RecheckPool ShardFilters

/-- What a commit that does not panic has done. -/
lemma finalizeCommit_some {current : Int64} {created : Bytes → Int64} {s' : RecheckPool} {db' : DB}
    {l' : CList ShardFilter} (h : Built env s)
    (hc : ShardFilters.finalizeCommit env current created ((s, db), l) b height inp res =
      some ((s', db'), l')) : Built env s' ∧ ∃ changes, shardChanges b.txs = some changes ∧
        updateShardFliters l current created changes.1 changes.2 = some l' := by
  obtain ⟨r, htry, hc⟩ := bind_eq_some_iff.mp hc
  obtain ⟨changes, hchanges, hc⟩ := bind_eq_some_iff.mp hc
  obtain ⟨filters, hfilters, hc⟩ := bind_eq_some_iff.mp hc
  obtain ⟨r', -, hc⟩ := bind_eq_some_iff.mp hc
  obtain ⟨p, hp, hc⟩ := bind_eq_some_iff.mp hc
  cases hc
  have htables : Built env (s.withMem r.1) := h.tables (tryAddAggragate2Block_frame htry).1
  exact ⟨(htables.update hp).tables rfl, changes, hchanges, hfilters⟩

/-- A commit panics in one of its parts. -/
lemma finalizeCommit_isSome_iff (h : Built env s)
    (horder : Traverses inp.order (classifyTxbySingle env.shard b.txs)) (current : Int64)
    (created : Bytes → Int64) :
    (ShardFilters.finalizeCommit env current created ((s, db), l) b height inp res).isSome ↔
      (∀ raw ∈ b.txs, ∃ t, newTX raw = some t ∧ t.Applies) ∧
        (∀ changes, shardChanges b.txs = some changes →
          (updateShardFliters l current created changes.1 changes.2).isSome) ∧
        (s.pool.mem.config.recheck = true → ConfigTxsLast env s.pool.mem height b.txs) := by
  have happlies : _ ↔ (tryAddAggragate2Block env s.pool.mem b height inp).isSome ∧ _ :=
    all_apply_iff horder
  have hnew : (∀ raw ∈ b.txs, ∃ t, newTX raw = some t ∧ t.Applies) →
      ∀ raw ∈ b.txs, (newTX raw).isSome := by
    intro hall raw hraw
    obtain ⟨t, ht, -⟩ := hall raw hraw
    simp [ht]
  rw [ShardFilters.finalizeCommit]
  cases htry : tryAddAggragate2Block env s.pool.mem b height inp with
  | none =>
    rw [htry] at happlies
    simp [happlies]
  | some r =>
    obtain ⟨htxs, hconfig, hkeys⟩ := tryAddAggragate2Block_frame htry
    rw [htry, isSome_some] at happlies
    simp only [true_and] at happlies
    simp only [bind_eq_bind, bind_some, ShardFilters.applyBlock]
    cases hchanges : shardChanges b.txs with
    | none =>
      have hparse := (shardChanges_isSome_iff b.txs).not.1 (by simp [hchanges])
      rw [happlies]
      simp [hparse]
    | some changes =>
      have hparse := (shardChanges_isSome_iff b.txs).1 (by simp [hchanges])
      have hall := happlies.2 hparse
      have hsettled := (h.tables (m := r.1) htxs).settled
      have hwell : ∀ x ∈ r.1.txs.elems, (parseData x.tx).isSome :=
        fun x hx => (hsettled.wellParsed x hx).1
      have happly : (ShardingBC.applyBlock env ((s.withMem r.1).pool.mem, db) height b.txs inp).isSome :=
        (applyBlock_isSome_iff (r.1, db) b.txs).2 ⟨hparse, hnew hall, hwell⟩
      obtain ⟨r', hr'⟩ := isSome_iff_exists.mp happly
      have hupdate : ((s.withMem r.1).updateAnswered env (execTxs db b.txs) height b.txs
          inp.preCheck inp.postCheck res).isSome ↔
            (s.pool.mem.config.recheck = true → ConfigTxsLast env s.pool.mem height b.txs) := by
        rw [updateAnswered_isSome_iff hsettled.requests hwell, and_iff_right (hnew hall), ← hconfig,
          ← configTxsLast_congr htxs hkeys]
        rfl
      simp only [bind_some, some.injEq, forall_eq', and_iff_right hall, ← hupdate, hr']
      cases updateShardFliters l current created changes.1 changes.2 with
      | none => simp
      | some filters =>
        cases updateAnswered _ env (execTxs db b.txs) height b.txs inp.preCheck inp.postCheck res with
        | none => simp
        | some p => simp

end Commit

open RecheckPool ShardFilters

def firstInput (order : List (Bytes × Int64)) : CommitInput := ⟨some [1], order, none, none⟩

/-- A commit of the first block; the application accepts everything. -/
def firstCommit (s : RecheckPool) (txs : List Bytes) (order : List (Bytes × Int64)) :
    Option ((RecheckPool × DB) × CList ShardFilter) :=
  ShardFilters.finalizeCommit (plainEnv "A") 0 (fun _ => 0) ((s, fun _ => none), CList.new)
    ⟨txs, marshalPackages []⟩ 1 (firstInput order) fun _ => ⟨true, 1⟩

/-- The honest validators prevote the block, whatever signatures verify, and its commit panics. -/
def PrevotedAndCrashes (s : RecheckPool) (txs : List Bytes) (order : List (Bytes × Int64)) : Prop :=
  ((Consensus.makeBlock Consensus.plainChain Consensus.genesisState 1 txs ⟨.zero, []⟩ []
      Consensus.soleAddress []).any fun b =>
    Consensus.validateBlock Consensus.plainChain Consensus.genesisState b = some none) = true ∧
  (txs.all fun raw => (newTX raw).all (TX.verifySig fun _ _ _ => false)) = true ∧
  Traverses order (classifyTxbySingle (lit "A") txs) ∧ (firstCommit s txs order).isSome = false

instance (s : RecheckPool) (txs : List Bytes) (order : List (Bytes × Int64)) :
    Decidable (PrevotedAndCrashes s txs order) :=
  inferInstanceAs (Decidable (_ ∧ _))

/-- A configuration of the shard B. -/
def configOfB (change : String) : TX where
  txtype := lit "ShardConfigTx"
  sender := []
  receiver := []
  id := Digest.zero
  content := lit "B_0_" ++ lit change
  txSignature := []
  operate := 0
  height := 0

end ShardingBC
