import ShardingBC.Reap

/-!
# Committing a block

`finalizeCommit` after the block is stored: the outgoing messages of the block
become pending, its transactions are executed, and the mempool is updated. `none`
is a panic of the consensus routine.
-/
namespace ShardingBC

open List Option

/-- `JudgeCrossMessage`: none of the transactions is a relay. -/
def judgeCrossMessage : List Bytes → Option Bool
  | [] => some true
  | raw :: rest =>
    match newTX raw with
    | none => none
    | some t => if t.txtype = lit "relaytx" then some false else judgeCrossMessage rest

/-- `ParseTxTime` finds its fourth field. -/
def parseTxTime (t : TX) : Bool :=
  t.txtype = lit "DeliverTx" || t.txtype = lit "ShardConfigTx" ||
    decide (3 < (split t.content 95).length)

/-- The third field of a strike transaction, as `Atoi` returns it. -/
def strikeRate (t : TX) : Option Int64 := (split t.content 95)[2]?.map fun arg => (atoi arg).1

def setStrikes (m : Mempool) (t : TX) : Option Mempool :=
  if t.txtype = lit "CrossSendStrikeTx" then
    (strikeRate t).map fun rate => { m with crossSendStrike := rate }
  else if t.txtype = lit "CrossReceiveStrikeTx" then
    (strikeRate t).map fun rate => { m with crossReceiveStrike := rate }
  else some m

/-- One round of the loop over the committed transactions. -/
def scanTx (m : Mempool) (raw : Bytes) : Option Mempool :=
  match newTX raw with
  | none => none
  | some t =>
    if (t.txtype = lit "relaytx" ∧ t.operate = 0) ∨ parseTxTime t then setStrikes m t else none

/-- A message with a relay becomes pending; any other is only sent. -/
def storeMessage (env : Env) (packs : Option (List Package)) (cmDB : List CrossMessage)
    (cm : CrossMessages) : Option (List CrossMessage) :=
  match judgeCrossMessage (cm.txlist.getD []) with
  | none => none
  | some true => some cmDB
  | some false =>
    some (addCrossMessagesDB (({ cm with packages := packs } : CrossMessages).compress env.gzip) cmDB)

/-- What a commit takes from the votes, the order of a map with its clock readings, and the new
state. -/
structure CommitInput where
  recovered : Option Bytes
  order : List (Bytes × Int64)
  preCheck : Option Int64
  postCheck : Option Int64

/-- `tryAddAggragate2Block` and whether it returns without error. -/
def tryAddAggragate2Block (env : Env) (m : Mempool) (b : Proposal) (height : Int64)
    (inp : CommitInput) : Option (Mempool × Bool) :=
  let packdata := marshalPackages (searchRelationTable m.rlDB height)
  let packs := parsePackages packdata
  let rlDB := modifyRelationTable (some packdata) (some b.cmRelation) height m.rlDB
  if b.txs = [] then
    some (if packs.getD [] = [] then m else { m with rlDB := rlDB }, true)
  else do
    let m ← b.txs.foldlM scanTx m
    match generateMerkleTreebySingle env.shard b.txs with
    | none => some (m, false)
    | some mts =>
      match inp.recovered.or (env.tmpGetSign mts.rootTree.computeRootHash.bytes) with
      | none => some (m, false)
      | some crossMerkleSig =>
        let cms ← classifyTxFromBlock env.shard env.index mts b.txs crossMerkleSig
          env.shardPubkey height inp.order
        let cmDB ← cms.foldlM (storeMessage env packs) m.cmDB
        some ({ m with cmDB := cmDB, rlDB := rlDB }, true)

/-- `ApplyBlock` reads the third field of every shard configuration. -/
def shardConfigsParse (txs : List Bytes) : Bool :=
  txs.all fun raw => (newTX raw).all fun t =>
    t.txtype != lit "ShardConfigTx" || decide (2 < (split t.content 95).length)

/-- `ApplyBlock` on a valid block; also the transactions left to recheck. -/
def applyBlock (env : Env) (s : Mempool × DB) (height : Int64) (txs : List Bytes)
    (inp : CommitInput) : Option ((Mempool × DB) × List Bytes) :=
  if shardConfigsParse txs then
    (update env (s.1, execTxs s.2 txs) height txs inp.preCheck inp.postCheck).map fun r =>
      (({ r.1.1 with cmDB := (updatecmDB r.1.1.cmDB).2 }, r.1.2), r.2)
  else none

/-- `finalizeCommit`, which drops the error of `tryAddAggragate2Block`. -/
def finalizeCommit (env : Env) (s : Mempool × DB) (b : Proposal) (height : Int64)
    (inp : CommitInput) : Option ((Mempool × DB) × List Bytes) :=
  (tryAddAggragate2Block env s.1 b height inp).bind fun r =>
    applyBlock env (r.1, s.2) height b.txs inp

/-- No account of the block is named like the key of a record. -/
def SparesRecords (txs : List Bytes) : Prop :=
  ∀ tx ∈ txs, ∀ a ∈ parseTx tx, ¬ lit "ID:" <+: a.fromAccount ∧ ¬ lit "ID:" <+: a.toAccount

instance (txs : List Bytes) : Decidable (SparesRecords txs) :=
  inferInstanceAs (Decidable (∀ tx ∈ txs, _))

lemma calcAddTxMetaKey_ne {k account : Bytes} (h : ¬ lit "ID:" <+: account) :
    calcAddTxMetaKey k ≠ account := by
  rintro rfl
  exact h (prefix_append _ _)

lemma search_execTxs (db : DB) {txs : List Bytes} (h : SparesRecords txs) (k : Bytes) :
    CheckDB.search (execTxs db txs) k = CheckDB.search db k := by
  induction txs generalizing db with
  | nil => rfl
  | cons tx txs ih =>
    have hrest : SparesRecords txs := fun tx' htx' => h tx' (by simp [htx'])
    have hone : execTx db tx (calcAddTxMetaKey k) = db (calcAddTxMetaKey k) := by
      cases ha : parseTx tx with
      | none => simp [execTx, ha]
      | some a =>
        obtain ⟨hfrom, hto⟩ := h tx (by simp) a ha
        simp [execTx, ha, a.save_other db (calcAddTxMetaKey_ne hfrom) (calcAddTxMetaKey_ne hto)]
    rw [execTxs, foldl_cons, ← execTxs, ih _ hrest, CheckDB.search_congr hone]

/-- A balance is no record. -/
lemma search_set_digit (db : DB) (account : Bytes) (v : Int64) {k : Bytes}
    (h : CheckDB.search db k = none) :
    CheckDB.search (db.set account (digit2byte v)) k = none := by
  by_cases hk : calcAddTxMetaKey k = account
  · subst hk
    have hun : Json.unmarshal (Json.decodeStruct CrossMessages.fields) CrossMessages.zero
        (digit2byte v) = (CrossMessages.zero, false) :=
      Json.unmarshal_print _ _ (Json.encodeInt v) (Json.numsOk_encodeInt v)
    simp [CheckDB.search, hun]
  · rw [CheckDB.search_congr (DB.set_other db _ hk)]
    exact h

lemma search_execTxs_none {db : DB} {txs : List Bytes} {k : Bytes}
    (h : CheckDB.search db k = none) : CheckDB.search (execTxs db txs) k = none := by
  rw [execTxs_eq_applyOps]
  generalize blockOps txs = ops
  induction ops generalizing db with
  | nil => exact h
  | cons o ops ih =>
    refine ih ?_
    cases o with
    | add account v => exact search_set_digit db account _ h
    | put account v => exact search_set_digit db account _ h

lemma scanTx_cases {m m' : Mempool} {raw : Bytes} (h : scanTx m raw = some m') :
    ∃ s r, m' = { m with crossSendStrike := s, crossReceiveStrike := r } := by
  unfold scanTx at h
  split at h
  · exact absurd h (by simp)
  · unfold setStrikes at h
    split_ifs at h
    · obtain ⟨rate, -, rfl⟩ := map_eq_some_iff.mp h
      exact ⟨rate, m.crossReceiveStrike, rfl⟩
    · obtain ⟨rate, -, rfl⟩ := map_eq_some_iff.mp h
      exact ⟨m.crossSendStrike, rate, rfl⟩
    · cases h
      exact ⟨m.crossSendStrike, m.crossReceiveStrike, rfl⟩

lemma foldlM_scanTx {m m' : Mempool} {txs : List Bytes} (h : txs.foldlM scanTx m = some m') :
    ∃ s r, m' = { m with crossSendStrike := s, crossReceiveStrike := r } := by
  induction txs generalizing m with
  | nil => exact ⟨m.crossSendStrike, m.crossReceiveStrike, (some.inj h).symm⟩
  | cons tx txs ih =>
    obtain ⟨m1, h1, h2⟩ := bind_eq_some_iff.mp h
    obtain ⟨s, r, rfl⟩ := scanTx_cases h1
    obtain ⟨s', r', hm'⟩ := ih h2
    exact ⟨s', r', hm'⟩

section Commit

variable {env : Env} {m m' : Mempool} {db db' : DB} {b : Proposal} {height : Int64}
  {inp : CommitInput} {left : List Bytes}

/-- The list, the configuration and the identifiers of the rows stay. -/
lemma tryAddAggragate2Block_frame {ok : Bool}
    (h : tryAddAggragate2Block env m b height inp = some (m', ok)) :
    m'.txs = m.txs ∧ m'.config = m.config ∧ rowKeys m'.rlDB height = rowKeys m.rlDB height := by
  simp only [tryAddAggragate2Block] at h
  split_ifs at h with htxs hpacks
  · cases h
    exact ⟨rfl, rfl, rfl⟩
  · cases h
    exact ⟨rfl, rfl, rowKeys_modify _ _ _ _ _⟩
  · obtain ⟨m1, hscan, h⟩ := bind_eq_some_iff.mp h
    obtain ⟨s, r, rfl⟩ := foldlM_scanTx hscan
    split at h
    · cases h
      exact ⟨rfl, rfl, rfl⟩
    · split at h
      · cases h
        exact ⟨rfl, rfl, rfl⟩
      · obtain ⟨cms, -, h⟩ := bind_eq_some_iff.mp h
        obtain ⟨cmDB, -, h⟩ := bind_eq_some_iff.mp h
        cases h
        exact ⟨rfl, rfl, rowKeys_modify _ _ _ _ _⟩

/-- Just the messages with a relay are stored. -/
lemma foldlM_storeMessage {packs : Option (List Package)} {cms : List CrossMessages}
    {cmDB cmDB' : List CrossMessage} (h : cms.foldlM (storeMessage env packs) cmDB = some cmDB') :
    cmDB' = cmDB ++ ((cms.filter fun cm => judgeCrossMessage (cm.txlist.getD []) == some false).map
      fun cm => ⟨({ cm with packages := packs } : CrossMessages).compress env.gzip, 0⟩) := by
  induction cms generalizing cmDB with
  | nil =>
    cases h
    simp
  | cons c cms ih =>
    obtain ⟨cmDB1, h1, h2⟩ := bind_eq_some_iff.mp h
    unfold storeMessage at h1
    split at h1
    · exact absurd h1 (by simp)
    · rename_i hj
      cases h1
      rw [ih h2, filter_cons_of_neg (by simp [hj])]
    · rename_i hj
      cases h1
      rw [ih h2, filter_cons_of_pos (by simp [hj]), addCrossMessagesDB]
      simp

lemma applyBlock_pending {txs : List Bytes} {s : Mempool × DB}
    (h : applyBlock env s height txs inp = some ((m', db'), left)) :
    getAllCrossMessages m'.cmDB = getAllCrossMessages s.1.cmDB := by
  unfold applyBlock at h
  split_ifs at h
  obtain ⟨⟨⟨m3, db3⟩, left3⟩, hup, he⟩ := map_eq_some_iff.mp h
  cases he
  rw [getAllCrossMessages_updatecmDB, update_cmDB hup]

variable (h : finalizeCommit env (m, db) b height inp = some ((m', db'), left))

include h

/-- A commit removes the packed messages and then the committed transactions. -/
lemma finalizeCommit_cases :
    ∃ m0 m1 m2, m0.txs = m.txs ∧ rowKeys m0.rlDB height = rowKeys m.rlDB height ∧
      removeCm (m0, execTxs db b.txs) height = some (m1, db') ∧
      removeTxs env m1 b.txs = some (m2, left) ∧ m'.txs = m2.txs := by
  obtain ⟨⟨m3, ok⟩, htry, h⟩ := bind_eq_some_iff.mp h
  obtain ⟨htxs, -, hkeys⟩ := tryAddAggragate2Block_frame htry
  unfold applyBlock at h
  split_ifs at h
  obtain ⟨⟨⟨m2, db2⟩, left'⟩, hup, he⟩ := map_eq_some_iff.mp h
  cases he
  obtain ⟨m0, m1, hm0, hrl, -, hcm, hrm⟩ := update_cases hup
  exact ⟨m0, m1, m2, hm0.trans htxs, by rw [hrl, hkeys], hcm, hrm, rfl⟩

/-- What is left in the list has no row of the height. -/
lemma finalizeCommit_left {x : MempoolTx} (hx : x ∈ m'.txs.elems) :
    x ∈ m.txs.elems ∧ packed (rowKeys m.rlDB height) x = false := by
  obtain ⟨m0, m1, m2, hm0, hkeys, hcm, hrm, hm'⟩ := finalizeCommit_cases h
  rw [hm', mem_removeTxs hrm, mem_removeCm hcm, hm0, hkeys] at hx
  exact hx.1

lemma finalizeCommit_search_mono (hspare : SparesRecords b.txs) {k : Bytes}
    (hk : (CheckDB.search db k).isSome) :
    (CheckDB.search db' k).isSome := by
  obtain ⟨m0, m1, m2, -, -, hcm, -, -⟩ := finalizeCommit_cases h
  exact (removeCm_search_iff hcm).mpr (.inl (by rw [search_execTxs db hspare]; exact hk))

/-- A message that the node holds and has a row of is recorded. -/
lemma finalizeCommit_recorded {k : Bytes} (hrow : k ∈ rowKeys m.rlDB height)
    (hheld : ∃ x ∈ m.txs.elems, packed [k] x = true) : (CheckDB.search db' k).isSome := by
  obtain ⟨m0, m1, m2, hm0, hkeys, hcm, -, -⟩ := finalizeCommit_cases h
  rw [← hkeys] at hrow
  obtain ⟨r, hr, -, hid⟩ := mem_rowKeys.mp hrow
  obtain ⟨x, hx, hpacked⟩ := hheld
  obtain ⟨cm, hcm', hk⟩ := (packed_iff [k] x).mp hpacked
  exact (removeCm_search_iff hcm).mpr (.inr ⟨hrow, ⟨r, hr, hid⟩,
    x, by rw [hm0]; exact hx, cm, hcm', mem_singleton.mp hk⟩)

end Commit

end ShardingBC
