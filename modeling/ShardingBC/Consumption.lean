import ShardingBC.Reap
import ShardingBC.SortedBlocks

/-!
# Messages are consumed only when they are executed

At one height a node proposes and prevotes any number of blocks before one is committed. Every
proposal leaves rows in the relation table, and the commit consumes the messages that have one. This
is safe when no proposal of the height executes a message that the committed block does not and no
gas limit cuts a reap at a message.
-/
namespace ShardingBC

open List Option

/-- An own proposal with its limits, or the prevote for the block of a peer. -/
inductive Round where
  | self (maxBytes maxGas : Int64)
  | peer (block : Proposal)

namespace Round

def run (env : Env) (height : Int64) (m : Mempool) : Round → Option (Proposal × Mempool)
  | self maxBytes maxGas => createProposalBlock env m maxBytes maxGas height
  | peer block => some (block, judgeBlockPakcages m block height)

/-- The transactions the round proposes. -/
def txs (env : Env) (height : Int64) (m : Mempool) (r : Round) : Option (List Bytes) :=
  (r.run env height m).map fun p => p.1.txs

end Round

def runRounds (env : Env) (height : Int64) (m : Mempool) (rounds : List Round) : Option Mempool :=
  rounds.foldlM (fun m r => (r.run env height m).map Prod.snd) m

/-- Every relay of the message is in the block, as `UpdateTx` rewrites it. -/
def Executed (env : Env) (committed : List Bytes) (cm : CrossMessages) : Prop :=
  ∀ txlist, cm.transactions env.gzip = some txlist → ∀ raw ∈ txlist, ∀ t, newTX raw = some t →
    t.txtype = lit "relaytx" → (t.updateTx env.shard).data ∈ committed

/-- No message is consumed by the commit without being executed. -/
structure ConsumedOnlyIfExecuted (env : Env) (height : Int64) (m : Mempool) (db : DB)
    (rounds : List Round) (committed : List Bytes) (preCheck postCheck : Option Int64) : Prop where
  removed : ∀ m1 m2 db2 left, runRounds env height m rounds = some m1 →
    update env (m1, db) height committed preCheck postCheck = some ((m2, db2), left) →
    ∀ x ∈ m.txs.elems, ∀ cm, IsMessage x cm → x ∉ m2.txs.elems →
      Executed env committed cm ∨ x.tx ∈ committed.map (committedForm env)
  recorded : ∀ m1 m2 db2 left, runRounds env height m rounds = some m1 →
    update env (m1, db) height committed preCheck postCheck = some ((m2, db2), left) →
    ∀ x ∈ m.txs.elems, ∀ cm, IsMessage x cm → CheckDB.search db (cmID cm) = none →
      CheckDB.search db2 (cmID cm) ≠ none → Executed env committed cm
  acknowledged : ∀ m1, runRounds env height m rounds = some m1 →
    ∀ x ∈ m.txs.elems, ∀ cm, IsMessage x cm →
      (∃ pack ∈ searchRelationTable m1.rlDB height, pack.key = (CrossMessage.mk cm 0).key) →
      Executed env committed cm
  reaped : ∀ maxBytes maxGas txs rows, Round.self maxBytes maxGas ∈ rounds →
    reapLoop env maxBytes maxGas height 0 0 m.txs.elems = some (txs, rows) →
    ∀ x ∈ m.txs.elems, ∀ cm, IsMessage x cm → RelationTable.ofMessage cm height ∈ rows →
      ∀ txlist relays, cm.transactions env.gzip = some txlist → relayTxs txlist = some relays →
        ∀ raw ∈ relays, raw ∈ txs

def gasOf (xs : List MempoolTx) : ℤ := (xs.map fun x => x.gasWanted.toInt).sum

/-- The gas wanted up to and including each message is within the limit. -/
def GasFits (maxGas totalGas : Int64) (xs : List MempoolTx) : Prop :=
  maxGas < 0 ∨
    (∀ x ∈ xs, 0 ≤ x.gasWanted.toInt) ∧
      ∀ before x after, xs = before ++ x :: after → (∃ cm, IsMessage x cm) →
        0 ≤ totalGas.toInt ∧ totalGas.toInt + gasOf (before ++ [x]) ≤ maxGas.toInt

/-- The conditions on the mempool and the schedule of the height. -/
structure SafeHeight (env : Env) (height : Int64) (m : Mempool) (rounds : List Round)
    (committed : List Bytes) : Prop where
  shard_named : env.shard ≠ []
  no_rows : ∀ r ∈ m.rlDB, r.csHeight ≠ height
  gas : ∀ maxBytes maxGas, Round.self maxBytes maxGas ∈ rounds → GasFits maxGas 0 m.txs.elems
  agree : ∀ r ∈ rounds, ∀ txs ∈ r.txs env height m, ∀ x ∈ m.txs.elems, ∀ cm, IsMessage x cm →
    Executed env txs cm → Executed env committed cm
  honest : ∀ block, Round.peer block ∈ rounds → ∀ pack ∈ block.packages,
    ∀ x ∈ m.txs.elems, ∀ cm, IsMessage x cm →
      cmID cm = heightRootID pack.height pack.crossMerkleRoot → Executed env block.txs cm
  keyed : ∀ x ∈ m.txs.elems, ∀ y ∈ m.txs.elems, ∀ cm cm', IsMessage x cm → IsMessage y cm' →
    cmID cm = cmID cm' → cm.transactions env.gzip = cm'.transactions env.gzip

lemma toInt_add_of_lt {a b : Int64} (h0 : 0 ≤ a.toInt + b.toInt)
    (h : a.toInt + b.toInt < 2 ^ 63) : (a + b).toInt = a.toInt + b.toInt := by
  rw [Int64.toInt_add, Int.bmod_eq_of_le (by omega) (by omega)]

lemma overGas_of_neg {maxGas : Int64} (h : maxGas < 0) (g : Int64) : overGas maxGas g = false := by
  have hlt : ¬ maxGas > -1 := by
    rw [gt_iff_lt, Int64.lt_iff_toInt_lt]
    rw [Int64.lt_iff_toInt_lt] at h
    have h0 : (0 : Int64).toInt = 0 := rfl
    have h1 : (-1 : Int64).toInt = -1 := rfl
    omega
  simp [overGas, hlt]

@[simp] lemma gasOf_cons (x : MempoolTx) (xs : List MempoolTx) :
    gasOf (x :: xs) = x.gasWanted.toInt + gasOf xs := rfl

namespace GasFits

variable {maxGas totalGas : Int64} {y : MempoolTx} {ys : List MempoolTx}

lemma skip (h : GasFits maxGas totalGas (y :: ys)) : GasFits maxGas totalGas ys := by
  rcases h with h | ⟨hpos, hfit⟩
  · exact Or.inl h
  · refine Or.inr ⟨fun x hx => hpos x (by simp [hx]), ?_⟩
    intro before x after hys hx
    obtain ⟨h0, hle⟩ := hfit (y :: before) x after (by rw [hys]; rfl) hx
    have hy := hpos y (by simp)
    rw [cons_append, gasOf_cons] at hle
    exact ⟨h0, by omega⟩

lemma count (h : GasFits maxGas totalGas (y :: ys)) :
    GasFits maxGas (totalGas + y.gasWanted) ys := by
  rcases h with h | ⟨hpos, hfit⟩
  · exact Or.inl h
  · refine Or.inr ⟨fun x hx => hpos x (by simp [hx]), ?_⟩
    intro before x after hys hx
    obtain ⟨h0, hle⟩ := hfit (y :: before) x after (by rw [hys]; rfl) hx
    have hy := hpos y (by simp)
    have hrest : 0 ≤ gasOf (before ++ [x]) := by
      refine sum_nonneg fun g hg => ?_
      obtain ⟨z, hz, rfl⟩ := mem_map.mp hg
      refine hpos z ?_
      rw [hys]
      rcases mem_append.mp hz with hz | hz
      · simp [hz]
      · simp [mem_singleton.mp hz]
    have hmax := maxGas.toInt_lt
    rw [cons_append, gasOf_cons] at hle
    rw [toInt_add_of_lt (by omega) (by omega)]
    exact ⟨by omega, by omega⟩

lemma not_overGas (h : GasFits maxGas totalGas (y :: ys)) {cm : CrossMessages}
    (hy : IsMessage y cm) : overGas maxGas (totalGas + y.gasWanted) = false := by
  rcases h with h | ⟨hpos, hfit⟩
  · exact overGas_of_neg h _
  · obtain ⟨h0, hle⟩ := hfit [] y ys rfl ⟨cm, hy⟩
    have hg := hpos y (by simp)
    have hmax := maxGas.toInt_lt
    have hsum : gasOf ([] ++ [y]) = y.gasWanted.toInt := by simp [gasOf]
    have hlt : ¬ totalGas + y.gasWanted > maxGas := by
      rw [gt_iff_lt, Int64.lt_iff_toInt_lt, toInt_add_of_lt (by omega) (by omega)]
      omega
    simp [overGas, hlt]

end GasFits

/-- A row is that of a message of the list whose relays are reaped. -/
def RowReaped (env : Env) (height : Int64) (xs : List MempoolTx) (txs : List Bytes)
    (r : RelationTable) : Prop :=
  ∃ x ∈ xs, ∃ cm txlist relays, IsMessage x cm ∧ cm.transactions env.gzip = some txlist ∧
    relayTxs txlist = some relays ∧ r = RelationTable.ofMessage cm height ∧ ∀ raw ∈ relays, raw ∈ txs

lemma RowReaped.weaken {env : Env} {height : Int64} {y : MempoolTx} {ys : List MempoolTx}
    {txs txs' : List Bytes} {r : RelationTable} (h : RowReaped env height ys txs r)
    (hsub : ∀ raw ∈ txs, raw ∈ txs') : RowReaped env height (y :: ys) txs' r := by
  obtain ⟨x, hx, cm, txlist, relays, h1, h2, h3, h4, h5⟩ := h
  exact ⟨x, by simp [hx], cm, txlist, relays, h1, h2, h3, h4, fun raw hr => hsub raw (h5 raw hr)⟩

/-- Within the gas limit a reap adds rows only for messages it takes. -/
lemma reapLoop_rows {env : Env} {maxBytes maxGas height : Int64} {xs : List MempoolTx}
    {totalBytes totalGas : Int64} {txs : List Bytes} {rows : List RelationTable}
    (hgas : GasFits maxGas totalGas xs)
    (h : reapLoop env maxBytes maxGas height totalBytes totalGas xs = some (txs, rows)) :
    ∀ r ∈ rows, RowReaped env height xs txs r := by
  induction xs generalizing totalBytes totalGas txs rows with
  | nil =>
    cases h
    simp
  | cons y ys ih =>
    simp only [reapLoop] at h
    split at h
    · exact absurd h (by simp)
    · rename_i cm hcm
      split at h
      · intro r hr
        exact (ih hgas.skip h r hr).weaken fun raw hraw => hraw
      · rename_i txlist htl
        split at h
        · exact absurd h (by simp)
        · rename_i relays hrel
          simp only [hgas.not_overGas hcm, Bool.false_eq_true, if_false] at h
          split_ifs at h
          · cases h
            simp
          · obtain ⟨⟨txs', rows'⟩, hrest, he⟩ := map_eq_some_iff.mp h
            cases he
            intro r hr
            rcases mem_cons.mp hr with rfl | hr
            · exact ⟨y, by simp, cm, txlist, relays, hcm, htl, hrel, rfl, by
                intro raw hraw
                simp [hraw]⟩
            · exact (ih hgas.count hrest r hr).weaken fun raw hraw => by simp [hraw]
    · split_ifs at h
      · cases h
        simp
      · cases h
        simp
      · obtain ⟨⟨txs', rows'⟩, hrest, he⟩ := map_eq_some_iff.mp h
        cases he
        intro r hr
        exact (ih hgas.count hrest r hr).weaken fun raw hraw => by simp [hraw]

/-- Whatever message a row stands for is executed. -/
def Justified (env : Env) (m : Mempool) (committed : List Bytes) (r : RelationTable) : Prop :=
  ∀ x ∈ m.txs.elems, ∀ cm, IsMessage x cm → cmID cm = rlID r → Executed env committed cm

lemma mem_relayTxs {raw : Bytes} {txlist relays : List Bytes} (h : relayTxs txlist = some relays)
    (hraw : raw ∈ txlist) {t : TX} (ht : newTX raw = some t) (hty : t.txtype = lit "relaytx") :
    raw ∈ relays := by
  induction txlist generalizing relays with
  | nil => exact absurd hraw (by simp)
  | cons y ys ih =>
    unfold relayTxs at h
    split at h
    · rename_i u r hu hr
      cases h
      rcases mem_cons.mp hraw with rfl | hmem
      · rw [ht] at hu
        cases hu
        simp [hty]
      · have := ih hr hmem
        split_ifs <;> simp [this]
    · exact absurd h (by simp)

lemma executed_of_reaped {env : Env} {txs : List Bytes} {cm : CrossMessages}
    {txlist relays : List Bytes} (hs : env.shard ≠ [])
    (htl : cm.transactions env.gzip = some txlist) (hrel : relayTxs txlist = some relays)
    (hsub : ∀ raw ∈ relays, raw ∈ txs) : Executed env (handleSortTx env.shard txs) cm := by
  intro txlist' htl' raw hraw t ht hty
  rw [htl] at htl'
  cases htl'
  refine (mem_handleSortTx_iff _ _ _).mpr ⟨_, ?_, rfl, fun h => absurd h hs⟩
  simp only [updatedTxs, mem_filterMap]
  exact ⟨raw, hsub raw (mem_relayTxs hrel hraw ht hty), by simp [ht]⟩

section Height

variable {env : Env} {height : Int64} {m : Mempool} {rounds : List Round} {committed : List Bytes}

lemma SafeHeight.run_justified (hsafe : SafeHeight env height m rounds committed) {m1 m2 : Mempool}
    {r : Round} (hr : r ∈ rounds) (htxs : m1.txs = m.txs)
    (hrows : ∀ row ∈ m1.rlDB, row.csHeight = height → Justified env m committed row)
    (h : (r.run env height m1).map Prod.snd = some m2) :
    m2.txs = m.txs ∧ ∀ row ∈ m2.rlDB, row.csHeight = height → Justified env m committed row := by
  cases r with
  | self maxBytes maxGas =>
    simp only [Round.run, createProposalBlock, Mempool.reapMaxBytesMaxGas, Option.map_map,
      map_eq_some_iff, htxs] at h
    obtain ⟨⟨txs, rows⟩, hloop, rfl⟩ := h
    have hproposed : handleSortTx env.shard txs ∈ (Round.self maxBytes maxGas).txs env height m := by
      simp [Round.txs, Round.run, createProposalBlock, Mempool.reapMaxBytesMaxGas, hloop]
    refine ⟨rfl, ?_⟩
    intro row hrow hh
    rcases mem_append.mp hrow with hrow | hrow
    · exact hrows row hrow hh
    · obtain ⟨y, hy, cm', txlist, relays, hcm', htl, hrel, rfl, hsub⟩ :=
        reapLoop_rows (hsafe.gas _ _ hr) hloop row hrow
      have hex := hsafe.agree _ hr _ hproposed y hy cm' hcm'
        (executed_of_reaped hsafe.shard_named htl hrel hsub)
      intro x hx cm hcm hid txlist' htl'
      rw [hsafe.keyed x hx y hy cm cm' hcm hcm' hid] at htl'
      exact hex txlist' htl'
  | peer block =>
    simp only [Round.run, map_some, some.injEq] at h
    subst h
    rw [judgeBlockPakcages_eq]
    refine ⟨htxs, ?_⟩
    intro row hrow hh
    rcases mem_append.mp hrow with hrow | hrow
    · exact hrows row hrow hh
    · obtain ⟨pack, hpack, rfl⟩ := mem_map.mp hrow
      intro x hx cm hcm hid
      exact hsafe.agree _ hr _ rfl x hx cm hcm (hsafe.honest block hr pack hpack x hx cm hcm hid)

lemma SafeHeight.runRounds_justified (hsafe : SafeHeight env height m rounds committed)
    {m1 : Mempool} (h : runRounds env height m rounds = some m1) :
    m1.txs = m.txs ∧ ∀ row ∈ m1.rlDB, row.csHeight = height → Justified env m committed row := by
  have hfold : ∀ (rs : List Round) (m0 : Mempool), (∀ r ∈ rs, r ∈ rounds) → m0.txs = m.txs →
      (∀ row ∈ m0.rlDB, row.csHeight = height → Justified env m committed row) →
      rs.foldlM (fun m r => (r.run env height m).map Prod.snd) m0 = some m1 →
      m1.txs = m.txs ∧
        ∀ row ∈ m1.rlDB, row.csHeight = height → Justified env m committed row := by
    intro rs
    induction rs with
    | nil =>
      intro m0 _ htxs hrows h
      cases h
      exact ⟨htxs, hrows⟩
    | cons r rs ih =>
      intro m0 hsub htxs hrows h
      obtain ⟨m', h1, h2⟩ := bind_eq_some_iff.mp h
      obtain ⟨htxs', hrows'⟩ := hsafe.run_justified (hsub r (by simp)) htxs hrows h1
      exact ih m' (fun r' hr' => hsub r' (by simp [hr'])) htxs' hrows' h2
  exact hfold rounds m (fun r hr => hr) rfl
    (fun row hrow hh => absurd hh (hsafe.no_rows row hrow)) h

lemma SafeHeight.executed_of_rowKey (hsafe : SafeHeight env height m rounds committed)
    {m1 : Mempool} (h : runRounds env height m rounds = some m1) {x : MempoolTx}
    (hx : x ∈ m.txs.elems) {cm : CrossMessages} (hcm : IsMessage x cm)
    (hk : cmID cm ∈ rowKeys m1.rlDB height) : Executed env committed cm := by
  obtain ⟨row, hrow, hh, hid⟩ := mem_rowKeys.mp hk
  exact (hsafe.runRounds_justified h).2 row hrow hh x hx cm hcm hid.symm

end Height

lemma ownTxs_subset {env : Env} {txs own : List Bytes} (h : ownTxs env txs = some own) :
    ∀ tx ∈ own, tx ∈ txs := by
  induction txs generalizing own with
  | nil =>
    cases h
    simp
  | cons y ys ih =>
    unfold ownTxs at h
    split at h
    · rename_i d r hd hr
      cases h
      intro tx htx
      split_ifs at htx
      · exact mem_cons_of_mem _ (ih hr tx htx)
      · rcases mem_cons.mp htx with rfl | htx
        · simp
        · exact mem_cons_of_mem _ (ih hr tx htx)
    · exact absurd h (by simp)

/-- In every height whose rounds execute no message that the committed block does not, stay
within the gas limit at each message and carry honest packages, no message is consumed or
acknowledged without being executed. -/
theorem consumed_only_if_executed (env : Env) (height : Int64) (m : Mempool) (db : DB)
    (rounds : List Round) (committed : List Bytes) (preCheck postCheck : Option Int64)
    (hsafe : SafeHeight env height m rounds committed) :
    ConsumedOnlyIfExecuted env height m db rounds committed preCheck postCheck where
  removed := by
    intro m1 m2 db2 left hrun hup x hx cm hcm hgone
    obtain ⟨m0, m', htxs, hrl, -, hrm, hrt⟩ := update_cases hup
    have hx0 : x ∈ m0.txs.elems := by
      rw [htxs, (hsafe.runRounds_justified hrun).1]
      exact hx
    by_cases hmem : x ∈ m'.txs.elems
    · right
      have hnot := mt (mem_removeTxs hrt x).mpr hgone
      obtain ⟨own, hown, -⟩ := map_eq_some_iff.mp hrt
      have hcom : x.tx ∈ own.map (committedForm env) := by
        by_contra hne
        exact hnot ⟨hmem, own, hown, hne⟩
      obtain ⟨tx, htx, he⟩ := mem_map.mp hcom
      exact mem_map.mpr ⟨tx, ownTxs_subset hown tx htx, he⟩
    · left
      have hpacked : packed (rowKeys m0.rlDB height) x = true := by
        by_contra hne
        exact hmem ((mem_removeCm hrm x).mpr ⟨hx0, by simpa using hne⟩)
      obtain ⟨cm', hcm', hk⟩ := (packed_iff _ _).mp hpacked
      rw [show cm' = cm from some.inj (some.inj (hcm'.symm.trans hcm)), hrl] at hk
      exact hsafe.executed_of_rowKey hrun hx hcm hk
  recorded := by
    intro m1 m2 db2 left hrun hup x hx cm hcm hnone hsome
    obtain ⟨m0, m', -, hrl, -, hrm, -⟩ := update_cases hup
    rcases (removeCm_search_iff hrm).mp (isSome_iff_ne_none.mpr hsome) with h | ⟨hk, -⟩
    · rw [hnone] at h
      exact absurd h (by simp)
    · simp only [hrl] at hk
      exact hsafe.executed_of_rowKey hrun hx hcm hk
  acknowledged := by
    intro m1 hrun x hx cm hcm hpack
    obtain ⟨pack, hp, hkey⟩ := hpack
    obtain ⟨row, hrow, rfl⟩ := mem_map.mp hp
    obtain ⟨hrow, hh⟩ := mem_filter.mp hrow
    refine hsafe.executed_of_rowKey hrun hx hcm
      (mem_rowKeys.mpr ⟨row, hrow, by simpa using hh, ?_⟩)
    simp only [Package.key, CrossMessage.key, RelationTable.toPackage, Prod.mk.injEq] at hkey
    rw [rlID, cmID, heightRootID, heightRootID, hkey.1, hkey.2]
  reaped := by
    intro maxBytes maxGas txs rows hr hloop x hx cm hcm hrow txlist relays htl hrel raw hraw
    obtain ⟨y, hy, cm', txlist', relays', hcm', htl', hrel', he, hsub⟩ :=
      reapLoop_rows (hsafe.gas _ _ hr) hloop _ hrow
    have hid : cmID cm = cmID cm' := by
      have := congrArg RelationTable.rlID he
      exact this
    have hsame := hsafe.keyed x hx y hy cm cm' hcm hcm' hid
    rw [htl, htl'] at hsame
    cases hsame
    rw [hrel] at hrel'
    cases hrel'
    exact hsub raw hraw

lemma parseData_messageToB : parseData messageToB.data = some (some messageToB) :=
  parseData_data messageToB (by decide)

lemma isMessage_poolWithMessage {x : MempoolTx} (hx : x ∈ poolWithMessage.txs.elems)
    {cm : CrossMessages} (hcm : IsMessage x cm) : cm = messageToB := by
  have htx : x.tx = messageToB.data := by
    rw [show x = ⟨0, 1, 1, messageToB.data, [0]⟩ from mem_singleton.mp hx]
  rw [IsMessage, htx, parseData_messageToB] at hcm
  exact (some.inj (some.inj hcm)).symm

/-- Without a gas limit the message is executed by the block that consumes it. -/
theorem message_consumed_by_its_block :
    SafeHeight (plainEnv "B") 1 poolWithMessage [Round.self (-1) (-1)]
      [(relayToB.updateTx (lit "B")).data] ∧
    ConsumedOnlyIfExecuted (plainEnv "B") 1 poolWithMessage (fun _ => none)
      [Round.self (-1) (-1)] [(relayToB.updateTx (lit "B")).data] none none := by
  exact (and_iff_left_of_imp (consumed_only_if_executed _ _ _ _ _ _ _ _)).mpr
    { shard_named := by decide
      no_rows := by simp [poolWithMessage, plainMempool, newMempool, Mempool.addTx]
      gas := by
        intro maxBytes maxGas h
        cases mem_singleton.mp h
        exact Or.inl (by decide)
      agree := by
        intro r hr txs htxs x _ cm _ hex
        rw [mem_singleton.mp hr] at htxs
        have hown : (Round.self (-1) (-1)).txs (plainEnv "B") 1 poolWithMessage =
            some [(relayToB.updateTx (lit "B")).data] := by
          decide +kernel
        rwa [some.inj (hown.symm.trans htxs)]
      honest := by simp
      keyed := by
        intro x hx y hy cm cm' hcm hcm' _
        rw [isMessage_poolWithMessage hx hcm, isMessage_poolWithMessage hy hcm'] }

/-- With the gas limit 0 the node proposes and commits an empty block, which consumes the
message. -/
theorem gas_limit_consumes_unexecuted_message :
    (Round.self (-1) 0).txs (plainEnv "B") 1 poolWithMessage = some [] ∧
    ¬ ConsumedOnlyIfExecuted (plainEnv "B") 1 poolWithMessage (fun _ => none)
      [Round.self (-1) 0] [] none none := by
  refine ⟨by decide +kernel, fun hall => ?_⟩
  have heval : ((runRounds (plainEnv "B") 1 poolWithMessage [Round.self (-1) 0]).bind fun m1 =>
      (update (plainEnv "B") (m1, fun _ => none) 1 [] none none).map fun r => r.1.1.txs.elems) =
        some [] := by decide +kernel
  obtain ⟨m1, hrun, hup⟩ := bind_eq_some_iff.mp heval
  obtain ⟨⟨⟨m2, db2⟩, left⟩, hup, hnil⟩ := map_eq_some_iff.mp hup
  have hmem : (⟨0, 1, 1, messageToB.data, [0]⟩ : MempoolTx) ∈ poolWithMessage.txs.elems :=
    mem_singleton.mpr rfl
  have hgone : (⟨0, 1, 1, messageToB.data, [0]⟩ : MempoolTx) ∉ m2.txs.elems := by
    rw [hnil]
    simp
  rcases hall.removed m1 m2 db2 left hrun hup _ hmem messageToB parseData_messageToB hgone with
    hex | hcom
  · have hin := hex [relayToB.data] rfl relayToB.data (by simp) relayToB
      (TX.newTX_data relayToB) rfl
    exact absurd hin (by simp)
  · exact absurd hcom (by simp)

end ShardingBC
