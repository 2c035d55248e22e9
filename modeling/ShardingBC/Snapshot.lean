import ShardingBC.AssocMap
import ShardingBC.JsonDecode
import ShardingBC.ValidatorRecall

/-!
# Snapshots on the blockchain channel

`Receive` of the blockchain reactor with what it can change: the state database, the snapshot of the
accounts, the block store, the pool and the state that fast sync starts with. A snapshot of a peer
is written as it comes.
-/
namespace ShardingBC.Snapshots

open List Option

open Consensus (Amino Block BlockID Commit Header)
open Rotation (State Validator ValidatorSet)
open Runs

/-! ## Messages -/

structure SnapshotResponse where
  version : ℤ
  content : Bytes
  valSet : Bytes
  vals : Bytes
  nextVal : Bytes
  nextPub : Bytes

inductive BlockchainMessage where
  | blockRequest (height : ℤ)
  | noBlockResponse (height : ℤ)
  /-- The block may be nil. -/
  | blockResponse (block : Option Block)
  | statusRequest (height : ℤ)
  | statusResponse (height : ℤ)
  | snapshotRequest
  | snapshotResponse (m : SnapshotResponse)

def BlockchainMessage.validateBasic (A : Amino) : BlockchainMessage → Bool
  | blockRequest height | noBlockResponse height | statusRequest height | statusResponse height =>
    decide (0 ≤ height)
  | blockResponse block => block.any fun b => (b.validateBasic A).isNone
  | snapshotRequest | snapshotResponse _ => true

/-- A validator as JSON gives it, without its key. -/
structure JsonValidator where
  address : Bytes
  votingPower : ℤ
  proposerPriority : ℤ

/-- What is stored in a `ValidatorSet`; pointers may be nil. -/
structure JsonSet where
  validators : List (Option JsonValidator)
  proposer : Option JsonValidator

/-- The keys of the validators and of the proposer. -/
structure Vals where
  validators : List Bytes
  proposer : Bytes

/-- What bytes are read as: with amino a message and a public key, `none` being an error or a
panic; with JSON the accounts, which have no key twice, a validator set, which may be nil, and the
keys of one. -/
structure Readers where
  message : Bytes → Option BlockchainMessage
  pubKey : Bytes → Option Bytes
  content : Bytes → List (Bytes × Bytes)
  content_nodup : ∀ bz, ((content bz).map Prod.fst).Nodup
  valSet : Bytes → Option JsonSet
  vals : Bytes → Vals

/-! ## The state of the reactor -/

structure BlockMeta where
  blockID : BlockID
  header : Header

structure BlockStore where
  height : ℤ
  metas : ℤ → Option BlockMeta
  seenCommits : ℤ → Option Commit

structure Requester where
  peerID : Bytes
  block : Option Block

structure BlockPool where
  height : ℤ
  requesters : ℤ → Option Requester
  peers : AssocMap Bytes ℤ
  maxPeerHeight : ℤ
  numPending : ℤ
  /-- The peers that errors were sent about. -/
  errors : List Bytes

structure Snapshot where
  version : ℤ
  content : List (Bytes × Bytes)
  valSet : Option ValidatorSet
  nextValSet : Option ValidatorSet

structure Reactor where
  db : DB
  snapshot : Snapshot
  isNewPeer : Bool
  store : BlockStore
  pool : BlockPool
  initialState : State
  /-- The peers asked for a snapshot; the reactor keeps no such list. -/
  asked : List Bytes

/-! ## The pool -/

namespace BlockPool

def maxDiffBetweenCurrentAndReceivedBlockHeight : ℤ := 100

def sendError (p : BlockPool) (peerID : Bytes) : BlockPool :=
  { p with errors := peerID :: p.errors }

def addBlock (p : BlockPool) (peerID : Bytes) (block : Block) : BlockPool :=
  match p.requesters block.header.height with
  | none =>
    if maxDiffBetweenCurrentAndReceivedBlockHeight < |p.height - block.header.height| then
      p.sendError peerID
    else p
  | some r =>
    if r.block.isSome ∨ r.peerID ≠ peerID then p.sendError peerID
    else
      { p with
        requesters := fun h => if h = block.header.height then some { r with block := some block }
          else p.requesters h
        numPending := p.numPending - 1 }

def setPeerHeight (p : BlockPool) (peerID : Bytes) (height : ℤ) : BlockPool :=
  { p with
    peers := p.peers.set peerID height
    maxPeerHeight := if p.maxPeerHeight < height then height else p.maxPeerHeight }

end BlockPool

/-! ## Snapshots -/

variable (R : Readers)

/-- The loop of `TogetherParseSet`; `none` is a nil dereference or an index out of range. -/
def assignKeys : List (Option JsonValidator) → List Bytes → Option (List Validator)
  | [], _ => some []
  | some v :: vs, key :: keys =>
    (assignKeys vs keys).map (⟨v.address, key, v.votingPower, v.proposerPriority⟩ :: ·)
  | _ :: _, _ => none

def parsePubSet (vals : Vals) : Option (List Bytes × Bytes) := do
  let validators ← vals.validators.mapM R.pubKey
  let proposer ← R.pubKey vals.proposer
  some (validators, proposer)

def togetherParseSet (set pub : Bytes) : Option ValidatorSet := do
  let (v1, v2) ← parsePubSet R (R.vals pub)
  let myVal ← R.valSet set
  let validators ← assignKeys myVal.validators v1
  let proposer ← myVal.proposer
  some ⟨validators, some ⟨proposer.address, v2, proposer.votingPower, proposer.proposerPriority⟩⟩

/-- `SetState` for every account. -/
def writeAll (db : DB) (content : List (Bytes × Bytes)) : DB :=
  content.foldl (fun db kv => db.set kv.1 kv.2) db

/-- The heights that a snapshot may set. -/
def inRange (version : ℤ) : Prop := 0 < version ∧ version < 0x7fffffff

instance inRange_decidable (version : ℤ) : Decidable (inRange version) :=
  inferInstanceAs (Decidable (_ ∧ _))

namespace Reactor

/-- The heights and the validators of the snapshot are taken over. -/
def takeOver (r : Reactor) (version : ℤ) (myVal nextmyVal : ValidatorSet) : Reactor :=
  { r with
    store := { r.store with height := version }
    pool := { r.pool with height := version + 1 }
    initialState :=
      { r.initialState with
        lastBlockHeight := version
        validators := myVal
        nextValidators := nextmyVal } }

def applySnapshot (r : Reactor) (m : SnapshotResponse) : Option Reactor := do
  let myVal ← togetherParseSet R m.valSet m.vals
  let nextmyVal ← togetherParseSet R m.nextVal m.nextPub
  let written :=
    { r with
      db := writeAll r.db (R.content m.content)
      snapshot := ⟨m.version, R.content m.content, some myVal, some nextmyVal⟩
      isNewPeer := true }
  some (if inRange m.version then written.takeOver m.version myVal nextmyVal else written)

/-- `GeneratePubkey` of a set of the snapshot; `none` is a nil dereference. -/
def generatePubkey (set : Option ValidatorSet) : Option (List Bytes × Bytes) := do
  let set ← set
  let proposer ← set.proposer
  some (set.validators.map Validator.pubKey, proposer.pubKey)

def handle (r : Reactor) (src : Bytes) : BlockchainMessage → Option Reactor
  | .blockResponse block => block.map fun b => { r with pool := r.pool.addBlock src b }
  | .statusResponse height => some { r with pool := r.pool.setPeerHeight src height }
  | .snapshotRequest => do
      let _ ← generatePubkey r.snapshot.valSet
      let _ ← generatePubkey r.snapshot.nextValSet
      some r
  | .snapshotResponse m => r.applySnapshot R m
  -- answered from the store, or not known
  | .blockRequest _ | .statusRequest _ | .noBlockResponse _ => some r

end Reactor

def maxMsgSize : ℕ := 1048576000 + 4 + 1

/-- `decodeMsg` and `ValidateBasic`. -/
def accept (A : Amino) (bz : Bytes) : Option BlockchainMessage :=
  if maxMsgSize < bz.length then none
  else (R.message bz).filter fun m => m.validateBasic A

/-- `Receive`; `none` is a panic, before which nothing is written. The peer of a refused message is
stopped. -/
def Reactor.receive (A : Amino) (r : Reactor) (src : Bytes) (bz : Bytes) : Option Reactor :=
  match accept R A bz with
  | none => some r
  | some m => r.handle R src m

/-! ## What consensus assumes -/

namespace BlockStore

/-- Every height has its block and its commit. -/
def Complete (s : BlockStore) : Prop :=
  ∀ h, 1 ≤ h → h ≤ s.height → (s.metas h).isSome ∧ (s.seenCommits h).isSome

/-- The commit whose round `reconstructLastCommit` takes; `none` is a nil dereference. -/
def lastCommit (s : BlockStore) (lastBlockHeight : ℤ) : Option (Option Commit) :=
  if lastBlockHeight = 0 then some none else (s.seenCommits lastBlockHeight).map some

/-- `none` is a nil dereference. -/
def needProofBlock (s : BlockStore) (appHash : Bytes) (height : ℤ) : Option Bool :=
  if height = 1 then some true
  else (s.metas (height - 1)).map fun m => decide (appHash ≠ m.header.appHash)

/-- `SaveBlock`; `none` is a panic. -/
def saveBlock (s : BlockStore) (blockMeta : BlockMeta) (seenCommit : Commit) : Option BlockStore :=
  if blockMeta.header.height ≠ s.height + 1 then none
  else some
    { height := blockMeta.header.height
      metas := fun h => if h = blockMeta.header.height then some blockMeta else s.metas h
      seenCommits := fun h =>
        if h = blockMeta.header.height then some seenCommit else s.seenCommits h }

lemma Complete.lastCommit {s : BlockStore} (h : s.Complete) {height : ℤ} (h0 : 0 ≤ height)
    (hle : height ≤ s.height) : (s.lastCommit height).isSome := by
  unfold BlockStore.lastCommit
  split_ifs with hz
  · rfl
  · rw [isSome_map]
    exact (h height (by omega) hle).2

lemma Complete.needProofBlock {s : BlockStore} (h : s.Complete) (appHash : Bytes) {height : ℤ}
    (h0 : 0 ≤ height) (hle : height ≤ s.height) :
    (s.needProofBlock appHash (height + 1)).isSome := by
  unfold BlockStore.needProofBlock
  split_ifs with hz
  · rfl
  · rw [isSome_map, add_sub_cancel_right]
    exact (h height (by omega) hle).1

end BlockStore

/-! ## Which messages change what -/

/-- The data that only an authentic snapshot may change. -/
def Reactor.SameData (r r' : Reactor) : Prop :=
  r'.db = r.db ∧ r'.snapshot = r.snapshot ∧
    r'.initialState.validators = r.initialState.validators ∧
    r'.initialState.nextValidators = r.initialState.nextValidators ∧
    r'.store.height = r.store.height

/-- The snapshot has what the reactor has. -/
structure Repeats (r : Reactor) (m : SnapshotResponse) (myVal nextmyVal : ValidatorSet) : Prop where
  db : ∀ kv ∈ R.content m.content, r.db kv.1 = some kv.2
  snapshot : r.snapshot = ⟨m.version, R.content m.content, some myVal, some nextmyVal⟩
  heights : inRange m.version → m.version = r.store.height ∧
    myVal = r.initialState.validators ∧ nextmyVal = r.initialState.nextValidators

/-- The bytes are a snapshot that is written, with these validators. -/
def Writes (A : Amino) (bz : Bytes) (m : SnapshotResponse)
    (myVal nextmyVal : ValidatorSet) : Prop :=
  accept R A bz = some (.snapshotResponse m) ∧
    togetherParseSet R m.valSet m.vals = some myVal ∧
    togetherParseSet R m.nextVal m.nextPub = some nextmyVal

variable {R} {A : Amino} {r r' : Reactor} {src bz : Bytes} {m : SnapshotResponse}
  {myVal nextmyVal : ValidatorSet}

variable {content : List (Bytes × Bytes)}

lemma writeAll_of_notMem {k : Bytes}
    (h : k ∉ content.map Prod.fst) (db : DB) : writeAll db content k = db k := by
  induction content generalizing db with
  | nil => rfl
  | cons kv content ih =>
    rw [map_cons, mem_cons, not_or] at h
    exact (ih h.2 _).trans (DB.set_other db kv.2 h.1)

lemma writeAll_of_mem (hnodup : (content.map Prod.fst).Nodup)
    {kv : Bytes × Bytes} (h : kv ∈ content) (db : DB) : writeAll db content kv.1 = some kv.2 := by
  induction content generalizing db with
  | nil => cases h
  | cons kv' content ih =>
    obtain ⟨hnot, hrest⟩ := nodup_cons.mp hnodup
    rcases mem_cons.mp h with rfl | h
    · exact (writeAll_of_notMem hnot _).trans (if_pos rfl)
    · exact ih hrest h _

lemma writeAll_eq_self_iff
    (hnodup : (content.map Prod.fst).Nodup) (db : DB) :
    writeAll db content = db ↔ ∀ kv ∈ content, db kv.1 = some kv.2 := by
  constructor
  · intro h kv hkv
    have := writeAll_of_mem hnodup hkv db
    rwa [h] at this
  · intro h
    funext k
    by_cases hk : k ∈ content.map Prod.fst
    · obtain ⟨kv, hkv, rfl⟩ := mem_map.mp hk
      rw [writeAll_of_mem hnodup hkv, h kv hkv]
    · exact writeAll_of_notMem hk db

lemma handle_other {msg : BlockchainMessage} (hmsg : ∀ m, msg ≠ .snapshotResponse m)
    (h : r.handle R src msg = some r') : r.SameData r' ∧ r'.store = r.store := by
  cases msg with
  | snapshotResponse m => exact absurd rfl (hmsg m)
  | blockResponse block =>
    obtain ⟨b, -, rfl⟩ := map_eq_some_iff.mp h
    exact ⟨⟨rfl, rfl, rfl, rfl, rfl⟩, rfl⟩
  | statusResponse height =>
    cases h
    exact ⟨⟨rfl, rfl, rfl, rfl, rfl⟩, rfl⟩
  | snapshotRequest =>
    obtain ⟨-, -, h⟩ := bind_eq_some_iff.mp h
    obtain ⟨-, -, h⟩ := bind_eq_some_iff.mp h
    cases h
    exact ⟨⟨rfl, rfl, rfl, rfl, rfl⟩, rfl⟩
  | blockRequest height | statusRequest height | noBlockResponse height =>
    cases h
    exact ⟨⟨rfl, rfl, rfl, rfl, rfl⟩, rfl⟩

lemma receive_other (hwrites : ∀ m myVal nextmyVal, ¬ Writes R A bz m myVal nextmyVal)
    (h : r.receive R A src bz = some r') : r.SameData r' ∧ r'.store = r.store := by
  unfold Reactor.receive at h
  cases haccept : accept R A bz with
  | none =>
    rw [haccept] at h
    cases h
    exact ⟨⟨rfl, rfl, rfl, rfl, rfl⟩, rfl⟩
  | some msg =>
    rw [haccept] at h
    refine handle_other ?_ h
    rintro m rfl
    obtain ⟨myVal, hval, h⟩ := bind_eq_some_iff.mp h
    obtain ⟨nextmyVal, hnext, -⟩ := bind_eq_some_iff.mp h
    exact hwrites m myVal nextmyVal ⟨haccept, hval, hnext⟩

lemma receive_writes (r : Reactor) (src : Bytes) (hw : Writes R A bz m myVal nextmyVal) :
    ∃ r', r.receive R A src bz = some r' ∧
      r'.db = writeAll r.db (R.content m.content) ∧
      r'.snapshot = ⟨m.version, R.content m.content, some myVal, some nextmyVal⟩ ∧
      r'.initialState.validators =
        (if inRange m.version then myVal else r.initialState.validators) ∧
      r'.initialState.nextValidators =
        (if inRange m.version then nextmyVal else r.initialState.nextValidators) ∧
      r'.store = { r.store with
        height := if inRange m.version then m.version else r.store.height } := by
  obtain ⟨haccept, hval, hnext⟩ := hw
  have hreceive : r.receive R A src bz = r.applySnapshot R m := by
    rw [Reactor.receive, haccept]
    rfl
  rw [hreceive, Reactor.applySnapshot, hval, hnext]
  refine ⟨_, rfl, ?_⟩
  split_ifs <;> exact ⟨rfl, rfl, rfl, rfl, rfl⟩

lemma sameData_iff_repeats (hw : Writes R A bz m myVal nextmyVal)
    (h : r.receive R A src bz = some r') : r.SameData r' ↔ Repeats R r m myVal nextmyVal := by
  obtain ⟨r₁, hr₁, hdb, hsnap, hvals, hnext, hstore⟩ := receive_writes r src hw
  obtain rfl := some.inj (hr₁.symm.trans h)
  unfold Reactor.SameData
  rw [hdb, hsnap, hvals, hnext, hstore, writeAll_eq_self_iff (R.content_nodup _)]
  constructor
  · rintro ⟨hcontent, hsame, hv, hn, hheight⟩
    refine ⟨hcontent, hsame.symm, fun hrange => ?_⟩
    rw [if_pos hrange] at hv hn hheight
    exact ⟨hheight, hv, hn⟩
  · rintro ⟨hcontent, hsame, hheights⟩
    refine ⟨hcontent, hsame.symm, ?_⟩
    split_ifs with hrange
    · obtain ⟨hheight, hv, hn⟩ := hheights hrange
      exact ⟨hv, hn, hheight⟩
    · exact ⟨rfl, rfl, rfl⟩

lemma complete_iff_of_writes (hw : Writes R A bz m myVal nextmyVal)
    (h : r.receive R A src bz = some r') (hcomplete : r.store.Complete) :
    r'.store.Complete ↔ (inRange m.version → ∀ h, 1 ≤ h → r.store.height < h → h ≤ m.version →
      (r.store.metas h).isSome ∧ (r.store.seenCommits h).isSome) := by
  obtain ⟨r₁, hr₁, -, -, -, -, hstore⟩ := receive_writes r src hw
  obtain rfl := some.inj (hr₁.symm.trans h)
  rw [hstore]
  by_cases hrange : inRange m.version
  · simp only [hrange, forall_const]
    constructor
    · intro hall h h1 _ hle
      exact hall h h1 hle
    · intro hnew h h1 hle
      by_cases hold : h ≤ r.store.height
      · exact hcomplete h h1 hold
      · exact hnew h h1 (by omega) hle
  · rw [if_neg hrange]
    exact iff_of_true hcomplete fun hin => absurd hin hrange

/-! ## The guarantee -/

/-- Consensus finds the commit and the block of every height of the store. -/
def BlockStore.Usable (s : BlockStore) : Prop :=
  s.Complete ∧ ∀ h, 0 ≤ h → h ≤ s.height →
    (s.lastCommit h).isSome ∧ ∀ appHash, (s.needProofBlock appHash (h + 1)).isSome

lemma BlockStore.usable_iff {s : BlockStore} : s.Usable ↔ s.Complete :=
  ⟨And.left, fun h => ⟨h, fun _ h0 hle =>
    ⟨h.lastCommit h0 hle, fun appHash => h.needProofBlock appHash h0 hle⟩⟩⟩

/-- The data changes only by a snapshot that was asked for and that the known validators
vouch for, and the store stays usable. -/
def Protects (R : Readers) (A : Amino) (vouched : ValidatorSet → SnapshotResponse → Prop)
    (r : Reactor) (src bz : Bytes) : Prop :=
  ∀ r', r.receive R A src bz = some r' →
    (r.SameData r' ∨ ∃ m, accept R A bz = some (.snapshotResponse m) ∧ src ∈ r.asked ∧
      vouched r.initialState.validators m) ∧
    (r.store.Complete → r'.store.Usable)

/-- Whatever it means that validators vouch for a snapshot: the guarantee holds of exactly those
messages that write no snapshot, or one that repeats what is there or is asked for and authentic,
and whose version has all its blocks and commits in the store. -/
theorem snapshot_protects_iff (R : Readers) (A : Amino)
    (vouched : ValidatorSet → SnapshotResponse → Prop) (r : Reactor) (src bz : Bytes) :
    Protects R A vouched r src bz ↔
      ∀ m myVal nextmyVal, Writes R A bz m myVal nextmyVal →
        (Repeats R r m myVal nextmyVal ∨ src ∈ r.asked ∧ vouched r.initialState.validators m) ∧
        (r.store.Complete → inRange m.version →
          ∀ h, 1 ≤ h → r.store.height < h → h ≤ m.version →
            (r.store.metas h).isSome ∧ (r.store.seenCommits h).isSome) := by
  constructor
  · intro hguard m myVal nextmyVal hw
    obtain ⟨r', hr', -⟩ := receive_writes r src hw
    obtain ⟨hdata, hstore⟩ := hguard r' hr'
    constructor
    · rcases hdata with hsame | ⟨m', haccept, hasked⟩
      · exact .inl ((sameData_iff_repeats hw hr').mp hsame)
      · obtain rfl : m = m' := BlockchainMessage.snapshotResponse.inj
          (some.inj (hw.1.symm.trans haccept))
        exact .inr hasked
    · intro hcomplete
      exact (complete_iff_of_writes hw hr' hcomplete).mp (hstore hcomplete).1
  · intro hall r' hr'
    by_cases hwrites : ∃ m myVal nextmyVal, Writes R A bz m myVal nextmyVal
    · obtain ⟨m, myVal, nextmyVal, hw⟩ := hwrites
      obtain ⟨hdata, hheights⟩ := hall m myVal nextmyVal hw
      constructor
      · rcases hdata with hrepeats | hasked
        · exact .inl ((sameData_iff_repeats hw hr').mpr hrepeats)
        · exact .inr ⟨m, hw.1, hasked⟩
      · intro hcomplete
        rw [BlockStore.usable_iff, complete_iff_of_writes hw hr' hcomplete]
        exact hheights hcomplete
    · push Not at hwrites
      obtain ⟨hsame, hstore⟩ := receive_other hwrites hr'
      refine ⟨.inl hsame, fun hcomplete => ?_⟩
      rw [hstore, BlockStore.usable_iff]
      exact hcomplete

/-! ## Runs -/

inductive Event where
  | receive (src bz : Bytes)
  /-- A snapshot is requested from a peer. -/
  | ask (peer : Bytes)
  /-- Fast sync saves a block and applies it. -/
  | save (blockMeta : BlockMeta) (seenCommit : Commit) (db : DB)

def Reactor.step (R : Readers) (A : Amino) (r : Reactor) : Event → Option Reactor
  | .receive src bz => r.receive R A src bz
  | .ask peer => some { r with asked := peer :: r.asked }
  | .save blockMeta seenCommit db =>
    (r.store.saveBlock blockMeta seenCommit).map fun store =>
      { r with store := store, db := db, pool := { r.pool with height := r.pool.height + 1 } }

/-- No snapshot leads beyond the blocks of the store. -/
def WithinStore (R : Readers) (A : Amino) (r : Reactor) : Event → Prop
  | .receive _ bz => ∀ m, accept R A bz = some (.snapshotResponse m) → inRange m.version →
      m.version ≤ r.store.height
  | .ask _ | .save _ _ _ => True

def snapshotVersion : BlockchainMessage → Option ℤ
  | .snapshotResponse m => some m.version
  | _ => none

lemma withinStore_receive_iff : WithinStore R A r (.receive src bz) ↔
    ∀ version ∈ (accept R A bz).bind snapshotVersion, inRange version →
      version ≤ r.store.height := by
  constructor
  · intro h version hversion
    obtain ⟨msg, haccept, hmsg⟩ := bind_eq_some_iff.mp hversion
    cases msg with
    | snapshotResponse m =>
      obtain rfl := some.inj hmsg
      exact h m haccept
    | _ => cases hmsg
  · intro h m haccept
    exact h m.version (bind_eq_some_iff.mpr ⟨_, haccept, rfl⟩)

instance decidableWithinStore (R : Readers) (A : Amino) (r : Reactor) :
    DecidablePred (WithinStore R A r)
  | .receive _ _ => decidable_of_iff' _ withinStore_receive_iff
  | .ask _ | .save _ _ _ => inferInstanceAs (Decidable True)

lemma BlockStore.Complete.saveBlock {s s' : BlockStore} (h : s.Complete) {blockMeta : BlockMeta}
    {seenCommit : Commit} (hsave : s.saveBlock blockMeta seenCommit = some s') : s'.Complete := by
  unfold BlockStore.saveBlock at hsave
  split_ifs at hsave with hheight
  cases hsave
  intro k hk hle
  simp only at hle ⊢
  by_cases hlast : k = blockMeta.header.height
  · rw [if_pos hlast, if_pos hlast]
    exact ⟨rfl, rfl⟩
  · rw [if_neg hlast, if_neg hlast]
    exact h k hk (by omega)

/-- In every run without a snapshot beyond the store, consensus can start from every state. -/
theorem usable_of_withinStore {es : List Event} (h : r.store.Complete)
    (hguard : Guarded (Reactor.step R A) (WithinStore R A) r es)
    (hrun : run (Reactor.step R A) r es = some r') : r'.store.Usable := by
  rw [BlockStore.usable_iff]
  refine hguard.invariant (P := fun r => r.store.Complete) ?_ hrun h
  intro r e r' hcomplete hwithin hstep
  cases e with
  | ask peer =>
    cases hstep
    exact hcomplete
  | save blockMeta seenCommit db =>
    obtain ⟨store, hsave, rfl⟩ := map_eq_some_iff.mp hstep
    exact hcomplete.saveBlock hsave
  | receive src bz =>
    by_cases hwrites : ∃ m myVal nextmyVal, Writes R A bz m myVal nextmyVal
    · obtain ⟨m, myVal, nextmyVal, hw⟩ := hwrites
      refine (complete_iff_of_writes hw hstep hcomplete).mpr ?_
      intro hrange h _ hlt hle
      have := hwithin m hw.1 hrange
      omega
    · push Not at hwrites
      rw [(receive_other hwrites hstep).2]
      exact hcomplete

/-! ## A snapshot of a stranger -/

open Json Wire

/-- A map of strings; a value of another type becomes the empty string. -/
def readContent (bz : Bytes) : AssocMap Bytes Bytes :=
  match parse bz with
  | some (.obj kvs) => kvs.foldl (fun m kv => m.set kv.1 (decodeString [] kv.2).1) []
  | _ => []

lemma nodup_readContent (bz : Bytes) : (readContent bz).keys.Nodup := by
  unfold readContent
  split
  · rename_i kvs _
    refine foldlRecOn kvs _ (motive := fun m : AssocMap Bytes Bytes => m.keys.Nodup)
      nodup_nil ?_
    intro m hm kv _
    exact AssocMap.nodup_keys_set _ _ _ hm
  · exact nodup_nil

def decodeHex : Decoder Bytes
  | old, .str s => ((hexDecode s).getD old, (hexDecode s).isSome)
  | old, _ => (old, false)

def decodePointer {α : Type} (d : Decoder α) (zero : α) : Decoder (Option α)
  | _, .null => (none, true)
  | old, v =>
    let r := d (old.getD zero) v
    (some r.1, r.2)

def decodeNumber : Decoder ℤ := fun old v =>
  let r := decodeInt 0 v
  (if r.2 then r.1.toInt else old, r.2)

def validatorFields : List (FieldDecoder JsonValidator) :=
  [field "address" JsonValidator.address (fun v x => { v with address := x }) decodeHex,
    field "voting_power" JsonValidator.votingPower (fun v x => { v with votingPower := x })
      decodeNumber,
    field "proposer_priority" JsonValidator.proposerPriority
      (fun v x => { v with proposerPriority := x }) decodeNumber]

def decodeValidator : Decoder (Option JsonValidator) :=
  decodePointer (decodeStruct validatorFields) ⟨[], 0, 0⟩

def setFields : List (FieldDecoder JsonSet) :=
  [field "validators" (fun s => some s.validators) (fun s x => { s with validators := x.getD [] })
      (decodeSlice decodeValidator none),
    field "proposer" JsonSet.proposer (fun s x => { s with proposer := x }) decodeValidator]

def readSet (bz : Bytes) : Option JsonSet :=
  (unmarshal (decodePointer (decodeStruct setFields) ⟨[], none⟩) none bz).1

def valsFields : List (FieldDecoder Vals) :=
  [field "Validators" (fun s => some (s.validators.map some))
      (fun s x => { s with validators := (x.getD []).map (·.getD []) })
      (decodeSlice decodeBytes none),
    field "Proposer" (fun s => some s.proposer) (fun s x => { s with proposer := x.getD [] })
      decodeBytes]

def readVals (bz : Bytes) : Vals := (unmarshal (decodeStruct valsFields) ⟨[], []⟩ bz).1

/-- The key of the type and the bytes with their length. -/
def readPubKey (bz : Bytes) : Option Bytes :=
  let r := readUvarint (bz.drop 4)
  if bz.take 4 = [0x1c, 0x2c, 0x57, 0xb1] ∧ r.2.length = r.1 then some r.2 else none

/-- The key of a snapshot response and its fields; other messages are not used here. -/
def readSnapshot (bz : Bytes) : Option BlockchainMessage :=
  let version := readIntField 8 (bz.drop 4)
  let content := readBytesField 18 version.2
  let valSet := readBytesField 26 content.2
  let vals := readBytesField 34 valSet.2
  let nextVal := readBytesField 42 vals.2
  let nextPub := readBytesField 50 nextVal.2
  if bz.take 4 = [0x33, 0xe6, 0x96, 0xa1] then
    some (.snapshotResponse
      ⟨version.1, content.1, valSet.1, vals.1, nextVal.1, nextPub.1⟩)
  else none

def plainReaders : Readers where
  message := readSnapshot
  pubKey := readPubKey
  content := readContent
  content_nodup := nodup_readContent
  valSet := readSet
  vals := readVals

def strangerKey : Bytes := [0x1c, 0x2c, 0x57, 0xb1, 2, 7, 7]

def strangerValidator : Json :=
  .obj [(lit "address", .str (hexUpper (List.replicate 20 7))),
    (lit "voting_power", .num (lit "10")), (lit "proposer_priority", .num (lit "0"))]

def strangerSet : Bytes :=
  (Json.obj [(lit "validators", .arr [strangerValidator]),
    (lit "proposer", strangerValidator)]).print

def strangerVals : Bytes :=
  (Json.obj [(lit "Validators", .arr [.str (Base64.encode strangerKey)]),
    (lit "Proposer", .str (Base64.encode strangerKey))]).print

/-- A snapshot with a balance and validators of the sender's choice. -/
def strangerBytes (version : ℤ) : Bytes :=
  [0x33, 0xe6, 0x96, 0xa1] ++ intField 8 version ++
    bytesField 18 (Json.obj [(lit "mallory", .str (lit "1000000"))]).print ++
    bytesField 26 strangerSet ++ bytesField 34 strangerVals ++ bytesField 42 strangerSet ++
    bytesField 50 strangerVals

/-- A node that has no blocks and has asked nobody. -/
def freshReactor : Reactor where
  db := fun _ => none
  snapshot := ⟨0, [], none, none⟩
  isNewPeer := true
  store := ⟨0, fun _ => none, fun _ => none⟩
  pool := ⟨1, fun _ => none, [], 0, 0, []⟩
  initialState := Rotation.sampleGenesis
  asked := []

/-- The balance, the validators and the height are now the stranger's, and consensus would
dereference a commit that is not there. -/
theorem stranger_takes_over :
    ∃ r', freshReactor.receive plainReaders Consensus.plainAmino (lit "mallory")
        (strangerBytes 5) = some r' ∧
      lit "mallory" ∉ freshReactor.asked ∧ freshReactor.store.Complete ∧
      freshReactor.db (lit "mallory") = none ∧ r'.db (lit "mallory") = some (lit "1000000") ∧
      r'.initialState.validators ≠ freshReactor.initialState.validators ∧
      r'.store.height = 5 ∧ r'.store.lastCommit 5 = none := by
  have hrun : (freshReactor.receive plainReaders Consensus.plainAmino (lit "mallory")
      (strangerBytes 5)).map (fun r => (r.db (lit "mallory"), r.store.height,
        (r.store.lastCommit 5).isSome, r.initialState.validators.validators.map Validator.pubKey)) =
      some (some (lit "1000000"), 5, false, [[7, 7]]) := by
    decide +kernel
  obtain ⟨r', hr', hparts⟩ := map_eq_some_iff.mp hrun
  simp only [Prod.mk.injEq] at hparts
  obtain ⟨hdb, hheight, hcommit, hvals⟩ := hparts
  refine ⟨r', hr', not_mem_nil, ?_, rfl, hdb, ?_, hheight, by simpa using hcommit⟩
  · intro h h1 hle
    exact absurd (h1.trans hle) (by decide)
  · intro hsame
    rw [hsame] at hvals
    revert hvals
    decide +kernel

/-- A block with the precommit of one validator. -/
def savedBlock (e : Rotation.Applied) : Event :=
  .save ⟨e.blockID, e.header⟩ ⟨e.blockID, [some ⟨.precommit, e.header.height, 0, e.blockID, 1,
    List.replicate 20 7, 0, [1], none, none⟩]⟩ fun _ => none

/-- Fast sync saves two blocks, and then a snapshot of the second height is written. -/
def syncedEvents : List Event :=
  [.ask (lit "peer"),
    savedBlock (Rotation.sampleBlock 1 []), savedBlock (Rotation.sampleBlock 2 []),
    .receive (lit "peer") (strangerBytes 2)]

/-- The snapshot is written, and both blocks and commits are still found. -/
theorem asked_reactor_usable :
    ∃ r', run (Reactor.step plainReaders Consensus.plainAmino) freshReactor syncedEvents =
        some r' ∧
      r'.db (lit "mallory") = some (lit "1000000") ∧ r'.store.height = 2 ∧ r'.store.Usable := by
  have hrun : (run (Reactor.step plainReaders Consensus.plainAmino) freshReactor
      syncedEvents).map (fun r => (r.db (lit "mallory"), r.store.height)) =
      some (some (lit "1000000"), 2) := by
    decide +kernel
  obtain ⟨r', hr', hparts⟩ := map_eq_some_iff.mp hrun
  obtain ⟨hdb, hheight⟩ := Prod.mk.inj hparts
  refine ⟨r', hr', hdb, hheight, usable_of_withinStore ?_ (by decide +kernel) hr'⟩
  intro h h1 hle
  exact absurd (h1.trans hle) (by decide)

end ShardingBC.Snapshots
