import ShardingBC.Commit
import ShardingBC.Consumption
import ShardingBC.Runs

/-!
# The identifier of a message

A receiver tells messages apart by a key of the source height and the cross-shard Merkle root. All
messages of one source block share both, so committing one of them makes the receiver take the
others for processed.
-/
namespace ShardingBC
open List Option Runs

/-- A delivery, or a height with its rounds and the committed block. -/
inductive ReceiverEvent where
  | checkTx (tx : Bytes) (res : CheckTxResponse)
  | receive (peer : UInt16) (msgBytes : Bytes) (res : CheckTxResponse)
  | height (height : Int64) (rounds : List Round) (b : Proposal) (inp : CommitInput)

def receiverStep (env : Env) (s : Mempool × DB) : ReceiverEvent → Option (Mempool × DB)
  | .checkTx tx res => some ((checkTx env s.2 s.1 tx res).2, s.2)
  | .receive peer msgBytes res => some ((receive env s.2 s.1 peer msgBytes res).2, s.2)
  | .height height rounds b inp =>
    (runRounds env height s.1 rounds).bind fun m =>
      (finalizeCommit env (m, s.2) b height inp).map Prod.fst

/-- The row is one of the message. -/
def StandsFor (cm : CrossMessages) (r : RelationTable) : Prop :=
  r.cmHeight = cm.height ∧ r.cmHash = cm.crossMerkleRoot ∧ r.cmID = cm.id

instance (cm : CrossMessages) (r : RelationTable) : Decidable (StandsFor cm r) :=
  inferInstanceAs (Decidable (_ ∧ _ ∧ _))

/-- Only the one message is reaped and prevoted. -/
def OnlyReaps (env : Env) (cm : CrossMessages) (s : Mempool × DB) : ReceiverEvent → Prop
  | .height height rounds _ _ => ∀ m ∈ runRounds env height s.1 rounds, ∀ r ∈ m.rlDB, StandsFor cm r
  | _ => True

instance (env : Env) (cm : CrossMessages) (s : Mempool × DB) : ∀ e, Decidable (OnlyReaps env cm s e)
  | .height height rounds _ _ =>
    inferInstanceAs (Decidable (∀ m ∈ runRounds env height s.1 rounds, _))
  | .checkTx .. => isTrue trivial
  | .receive .. => isTrue trivial

/-- The other message, as transmitted, is not taken for processed: `CheckDB` does not find it, and
`RemoveCm` of a height that reaps only the one leaves it in the list. -/
structure NotMistaken (env : Env) (cm : CrossMessages) (other : Bytes) (s : Mempool × DB) : Prop where
  fresh : ∀ reply m, checkDB env s.2 s.1 other ≠ some (.inDatabase reply, m)
  kept : ∀ height rounds m s', runRounds env height s.1 rounds = some m →
    (∀ r ∈ m.rlDB, StandsFor cm r) → removeCm (m, s.2) height = some s' →
    ∀ x ∈ m.txs.elems, x.tx = other → x ∈ s'.1.txs.elems

section Distinct

variable {env : Env} {cm cm' : CrossMessages} {s s' : Mempool × DB}

lemma rlID_of_standsFor {r : RelationTable} (h : StandsFor cm r) : rlID r = cmID cm := by
  rw [rlID, h.1, h.2.1]
  rfl

lemma not_mem_rowKeys (hne : cmID cm ≠ cmID cm') {rlDB : List RelationTable}
    (hrows : ∀ r ∈ rlDB, StandsFor cm r) (height : Int64) : cmID cm' ∉ rowKeys rlDB height := by
  intro hk
  obtain ⟨r, hr, -, hid⟩ := mem_rowKeys.mp hk
  exact hne (by rw [← hid, rlID_of_standsFor (hrows r hr)])

lemma receiverStep_search (hne : cmID cm ≠ cmID cm') {e : ReceiverEvent}
    (honly : OnlyReaps env cm s e) (hstep : receiverStep env s e = some s')
    (h : CheckDB.search s.2 (cmID cm') = none) : CheckDB.search s'.2 (cmID cm') = none := by
  cases e with
  | checkTx tx res =>
    cases hstep
    exact h
  | receive peer msgBytes res =>
    cases hstep
    exact h
  | height height rounds b inp =>
    obtain ⟨m, hrounds, hstep⟩ := bind_eq_some_iff.mp hstep
    obtain ⟨⟨⟨m', db'⟩, left⟩, hcommit, rfl⟩ := map_eq_some_iff.mp hstep
    obtain ⟨m0, m1, m2, -, hkeys, hcm, -, -⟩ := finalizeCommit_cases hcommit
    have hrow := not_mem_rowKeys hne (honly m hrounds) height
    by_contra hsome
    rcases (removeCm_search_iff hcm).mp (isSome_iff_ne_none.mpr hsome) with hold | ⟨hk, -⟩
    · rw [search_execTxs_none h] at hold
      simp at hold
    · rw [hkeys] at hk
      exact hrow hk

lemma notMistaken_of_search {other : Bytes} (hother : parseData other = some (some cm'))
    (hne : cmID cm ≠ cmID cm') (h : CheckDB.search s.2 (cmID cm') = none) :
    NotMistaken env cm other s where
  fresh := by
    intro reply m hdb
    unfold checkDB at hdb
    rw [hother] at hdb
    dsimp only at hdb
    split_ifs at hdb
    · simp at hdb
    · rw [h] at hdb
      simp at hdb
  kept := by
    intro height rounds m s' _ hrows hcm x hx htx
    refine (mem_removeCm hcm x).mpr ⟨hx, ?_⟩
    by_contra hp
    obtain ⟨c, hc, hk⟩ := (packed_iff _ x).mp (by simpa using hp)
    rw [htx, hother] at hc
    cases hc
    exact not_mem_rowKeys hne hrows height hk

end Distinct

@[simp] lemma runRounds_peer (env : Env) (height : Int64) (m : Mempool) (b : Proposal) :
    runRounds env height m [Round.peer b] = some (judgeBlockPakcages m b height) := rfl

/-- A block of height 1 that packs the message. -/
def packing (txs : List Bytes) (cm : CrossMessages) : Proposal :=
  ⟨txs, marshalPackages [(RelationTable.ofMessage cm 1).toPackage]⟩

/-- The row that a prevote for it leaves. -/
def packedRow (cm : CrossMessages) : RelationTable :=
  .ofPackage (RelationTable.ofMessage cm 1).toPackage.repair 1

lemma standsFor_packedRow (cm : CrossMessages) : StandsFor cm (packedRow cm) := ⟨rfl, rfl, rfl⟩

lemma judge_packing (m : Mempool) (txs : List Bytes) (cm : CrossMessages) :
    judgeBlockPakcages m (packing txs cm) 1 = { m with rlDB := m.rlDB ++ [packedRow cm] } := by
  rw [judgeBlockPakcages_eq, packing, packages_marshal, map_singleton, map_singleton,
    packedRow]

lemma removeCm_mistakes {cm cm' : CrossMessages} {other : Bytes} {r : RelationTable}
    (hother : parseData other = some (some cm')) (he : cmID cm = cmID cm') (hr : StandsFor cm r)
    (hcs : r.csHeight = 1) (m : Mempool) (db : DB) (x : MempoolTx) (helems : m.txs.elems = [x])
    (hrl : m.rlDB = [r]) (hx : x.tx = other) :
    ∃ s', removeCm (m, db) 1 = some s' ∧ x ∉ s'.1.txs.elems := by
  have hpacked : packed (rowKeys m.rlDB 1) x = true := by
    refine (packed_iff _ x).mpr ⟨cm', by rw [hx]; exact hother, mem_rowKeys.mpr ⟨r, ?_, hcs, ?_⟩⟩
    · simp [hrl]
    · rw [rlID_of_standsFor hr, he]
  have hsome : (removeCm (m, db) 1).isSome := by
    simp only [removeCm, helems, foldlM_cons, foldlM_nil, removeCmStep, hx, hother]
    split_ifs <;> rfl
  obtain ⟨s', hs'⟩ := isSome_iff_exists.mp hsome
  refine ⟨s', hs', fun hstay => ?_⟩
  rw [mem_removeCm hs', hpacked] at hstay
  exact absurd hstay.2 (by simp)

/-- A receiver that holds the other message and prevotes a block with the one loses the other. -/
lemma exists_mistaken (env : Env) {cm cm' : CrossMessages} {other : Bytes}
    (hother : parseData other = some (some cm')) (he : cmID cm = cmID cm') :
    ¬ NotMistaken env cm other (plainMempool.addTx other 1 0, fun _ => none) := by
  intro h
  obtain ⟨s', hs', hgone⟩ := removeCm_mistakes hother he (standsFor_packedRow cm) rfl
    { plainMempool.addTx other 1 0 with rlDB := [packedRow cm] } (fun _ => none)
    ⟨0, 1, 1, other, [0]⟩ rfl rfl rfl
  refine hgone (h.kept 1 [Round.peer (packing [] cm)] _ s' ?_ ?_ hs' _ (mem_singleton.mpr rfl) rfl)
  · rw [runRounds_peer, judge_packing]
    rfl
  · intro r hr
    rw [mem_singleton.mp hr]
    exact standsFor_packedRow cm

/-- Committing one message never makes a receiver take another for processed if and
only if their heights have different digests or their roots differ. -/
theorem not_mistaken_iff (env : Env) (cm cm' : CrossMessages) (other : Bytes)
    (hother : parseData other = some (some cm')) :
    (∀ s es t, CheckDB.search s.2 (cmID cm') = none →
      Guarded (receiverStep env) (OnlyReaps env cm) s es → run (receiverStep env) s es = some t →
      NotMistaken env cm other t) ↔
    ¬ (sha256 (formatInt cm.height) = sha256 (formatInt cm'.height) ∧
      cm.crossMerkleRoot.getD [] = cm'.crossMerkleRoot.getD []) := by
  rw [← heightRootID_eq_iff]
  constructor
  · intro h he
    exact exists_mistaken env hother he
      (h (plainMempool.addTx other 1 0, fun _ => none) [] _ rfl trivial rfl)
  · intro hne s es t hs hguard hrun
    have hsearch : CheckDB.search t.2 (cmID cm') = none :=
      hguard.invariant (P := fun u => CheckDB.search u.2 (cmID cm') = none)
        (fun s e s' hs he hstep => receiverStep_search hne he hstep hs) hrun hs
    exact notMistaken_of_search hother hne hsearch

/-- The same transactions sent at the next height. -/
def nextMessage : CrossMessages := { messageToB with height := 8 }

theorem next_message_not_mistaken :
    parseData nextMessage.data = some (some nextMessage) ∧
    ∀ s es t, CheckDB.search s.2 (cmID nextMessage) = none →
      Guarded (receiverStep (plainEnv "B")) (OnlyReaps (plainEnv "B") messageToB) s es →
      run (receiverStep (plainEnv "B")) s es = some t →
      NotMistaken (plainEnv "B") messageToB nextMessage.data t := by
  have hparse : parseData nextMessage.data = some (some nextMessage) :=
    parseData_data nextMessage (by decide)
  exact ⟨hparse, (not_mistaken_iff _ _ _ _ hparse).mpr (by decide +kernel)⟩

def firstToB : CrossMessages := (messagesToB.getD []).getD 0 CrossMessages.zero

def secondToB : CrossMessages := (messagesToB.getD []).getD 1 CrossMessages.zero

/-- The block that a peer makes of the first message. -/
def firstBlock : Proposal := packing [(relayToB.updateTx (lit "B")).data] firstToB

/-- A receiver that holds the first message prevotes and commits the block. -/
def commitFirst : List ReceiverEvent :=
  [.height 1 [Round.peer firstBlock] firstBlock
    ⟨some [1], [(singleKey (relayToB.updateTx (lit "B")), 9)], none, none⟩]

def holdsFirst : Mempool × DB := (plainMempool.addTx firstToB.data 1 0, fun _ => none)

lemma onlyReaps_commitFirst (env : Env) :
    Guarded (receiverStep env) (OnlyReaps env firstToB) holdsFirst commitFirst := by
  refine ⟨fun m hm r hr => ?_, fun _ _ => trivial⟩
  rw [runRounds_peer, firstBlock, judge_packing] at hm
  cases hm
  rw [mem_singleton.mp hr]
  exact standsFor_packedRow firstToB

def DBStatus.isInDatabase : DBStatus → Bool
  | .inDatabase _ => true
  | .receipt | .fresh => false

/-- Then it takes the second, with other transactions, for processed. -/
theorem second_message_mistaken :
    firstToB.txlist ≠ secondToB.txlist ∧
    Guarded (receiverStep (plainEnv "B")) (OnlyReaps (plainEnv "B") firstToB) holdsFirst commitFirst ∧
    ∃ t, run (receiverStep (plainEnv "B")) holdsFirst commitFirst = some t ∧
      ¬ NotMistaken (plainEnv "B") firstToB secondToB.data t := by
  refine ⟨by decide +kernel, onlyReaps_commitFirst _, ?_⟩
  have heval : ((run (receiverStep (plainEnv "B")) holdsFirst commitFirst).any fun t =>
      (checkDB (plainEnv "B") t.2 t.1 secondToB.data).any fun r => r.1.isInDatabase) = true := by
    decide +kernel
  obtain ⟨t, hrun, hdb⟩ := (Option.any_eq_true ..).mp heval
  obtain ⟨⟨status, m⟩, hfound, hstatus⟩ := (Option.any_eq_true ..).mp hdb
  refine ⟨t, hrun, fun h => ?_⟩
  cases status with
  | inDatabase reply => exact h.fresh reply m hfound
  | receipt => simp [DBStatus.isInDatabase] at hstatus
  | fresh => simp [DBStatus.isInDatabase] at hstatus

end ShardingBC
