import Mathlib.Data.Finset.Card
import ShardingBC.GoBytes
import ShardingBC.Runs

/-!
# Identifiers of the peers of a mempool

`mempoolIDs` of the mempool reactor: short identifiers for the connected peers, searched from a
16-bit counter that wraps around. Identifier 0 is that of the reactor itself.
-/
namespace ShardingBC

open Function

structure MempoolIDs where
  peerMap : Bytes → Option UInt16
  nextID : UInt16
  activeIDs : Finset UInt16

namespace MempoolIDs

def maxActiveIDs : ℕ := 65535

def newMempoolIDs : MempoolIDs := ⟨fun _ => none, 1, {0}⟩

/-- The loop of `nextPeerID`, for at most `fuel` identifiers. -/
def search (activeIDs : Finset UInt16) : ℕ → UInt16 → Option UInt16
  | 0, _ => none
  | fuel + 1, id => if id ∈ activeIDs then search activeIDs fuel (id + 1) else some id

/-- `nextPeerID`; `none` is the panic or a loop that has not ended. -/
def nextPeerID (fuel : ℕ) (ids : MempoolIDs) : Option (UInt16 × MempoolIDs) :=
  if ids.activeIDs.card = maxActiveIDs then none
  else (search ids.activeIDs fuel ids.nextID).map fun curID =>
    (curID, { ids with nextID := curID + 1 })

def reserveForPeer (fuel : ℕ) (ids : MempoolIDs) (peer : Bytes) : Option MempoolIDs :=
  (ids.nextPeerID fuel).map fun (curID, ids) =>
    { ids with
      peerMap := update ids.peerMap peer (some curID)
      activeIDs := insert curID ids.activeIDs }

def reclaim (ids : MempoolIDs) (peer : Bytes) : MempoolIDs :=
  match ids.peerMap peer with
  | some removedID =>
    { ids with
      activeIDs := ids.activeIDs.erase removedID
      peerMap := update ids.peerMap peer none }
  | none => ids

end MempoolIDs

inductive IDCall where
  | reserveForPeer (peer : Bytes)
  | reclaim (peer : Bytes)

def IDCall.peer : IDCall → Bytes
  | reserveForPeer peer | reclaim peer => peer

/-- The last call for the peer was a reservation. -/
def Connected (calls : List IDCall) (peer : Bytes) : Prop :=
  (calls.filter fun call => call.peer = peer).getLast? = some (.reserveForPeer peer)

namespace MempoolIDs

def step (fuel : ℕ) (ids : MempoolIDs) : IDCall → Option MempoolIDs
  | .reserveForPeer peer => ids.reserveForPeer fuel peer
  | .reclaim peer => some (ids.reclaim peer)

/-- An identifier is reserved for a peer without one, below the limit. -/
def Allowed (ids : MempoolIDs) : IDCall → Prop
  | .reserveForPeer peer => ids.peerMap peer = none ∧ ids.activeIDs.card < maxActiveIDs
  | .reclaim _ => True

instance (ids : MempoolIDs) : ∀ call, Decidable (ids.Allowed call)
  | .reserveForPeer _ => inferInstanceAs (Decidable (_ ∧ _))
  | .reclaim _ => isTrue trivial

/-- The active identifiers are 0 and those of the peers, which are distinct. -/
structure Unique (ids : MempoolIDs) : Prop where
  injective : ∀ p q i, ids.peerMap p = some i → ids.peerMap q = some i → p = q
  nonzero : ∀ p, ids.peerMap p ≠ some 0
  active : ∀ i, i ∈ ids.activeIDs ↔ i = 0 ∨ ∃ p, ids.peerMap p = some i

variable {activeIDs : Finset UInt16} {fuel : ℕ} {id i : UInt16} {ids : MempoolIDs}
  {peer : Bytes}

lemma notMem_of_search (h : search activeIDs fuel id = some i) : i ∉ activeIDs := by
  induction fuel generalizing id with
  | zero => cases h
  | succ fuel ih =>
    rw [search] at h
    split_ifs at h with hid
    · exact ih h
    · cases h
      exact hid

lemma mem_of_search_eq_none (h : search activeIDs fuel id = none) :
    ∀ k < fuel, id + UInt16.ofNat k ∈ activeIDs := by
  induction fuel generalizing id with
  | zero => simp
  | succ fuel ih =>
    rw [search] at h
    split_ifs at h with hid
    intro k hk
    cases k with
    | zero => simpa using hid
    | succ k =>
      have hnext := ih h k (by omega)
      rwa [UInt16.add_assoc, UInt16.add_comm 1, ← UInt16.ofNat_one, ← UInt16.ofNat_add] at hnext

lemma search_isSome (hfuel : 2 ^ 16 ≤ fuel) (hcard : activeIDs.card < 2 ^ 16) (id : UInt16) :
    (search activeIDs fuel id).isSome := by
  rw [← Option.ne_none_iff_isSome]
  intro hnone
  have hle : (Finset.range (2 ^ 16)).card ≤ activeIDs.card := by
    refine Finset.card_le_card_of_injOn (fun k => id + UInt16.ofNat k) (fun k hk => ?_) ?_
    · exact mem_of_search_eq_none hnone k (by have := Finset.mem_range.mp hk; omega)
    · intro k hk l hl heq
      have hnat := congrArg UInt16.toNat ((UInt16.add_right_inj id).mp heq)
      have := Finset.mem_range.mp hk
      have := Finset.mem_range.mp hl
      rwa [UInt16.toNat_ofNat_of_lt' (by omega), UInt16.toNat_ofNat_of_lt' (by omega)] at hnat
  rw [Finset.card_range] at hle
  omega

lemma Unique.set (h : ids.Unique) {o : Option UInt16}
    (hfree : ∀ i, o = some i → i ≠ 0 ∧ ∀ p, ids.peerMap p ≠ some i)
    (hactive : ∀ i, i ∈ activeIDs ↔
      o = some i ∨ i ∈ ids.activeIDs ∧ ids.peerMap peer ≠ some i) (nextID : UInt16) :
    Unique ⟨update ids.peerMap peer o, nextID, activeIDs⟩ := by
  have hentry : ∀ p j, update ids.peerMap peer o p = some j ↔
      p = peer ∧ o = some j ∨ p ≠ peer ∧ ids.peerMap p = some j := by
    intro p j
    by_cases hp : p = peer <;> simp [hp]
  refine ⟨fun p q j hp hq => ?_, fun p hp => ?_, fun j => ?_⟩
  · rcases (hentry p j).mp hp with ⟨rfl, ho⟩ | ⟨-, hold⟩ <;>
      rcases (hentry q j).mp hq with ⟨rfl, ho'⟩ | ⟨-, hold'⟩
    · rfl
    · exact absurd hold' ((hfree j ho).2 q)
    · exact absurd hold ((hfree j ho').2 p)
    · exact h.injective p q j hold hold'
  · rcases (hentry p 0).mp hp with ⟨-, ho⟩ | ⟨-, hp⟩
    · exact (hfree 0 ho).1 rfl
    · exact h.nonzero p hp
  · simp only [hactive, h.active, hentry]
    constructor
    · rintro (ho | ⟨rfl | ⟨p, hp⟩, hne⟩)
      · exact .inr ⟨peer, .inl ⟨rfl, ho⟩⟩
      · exact .inl rfl
      · exact .inr ⟨p, .inr ⟨by rintro rfl; exact hne hp, hp⟩⟩
    · rintro (rfl | ⟨p, ⟨-, ho⟩ | ⟨hne, hp⟩⟩)
      · exact .inr ⟨.inl rfl, h.nonzero peer⟩
      · exact .inl ho
      · exact .inr ⟨.inr ⟨p, hp⟩, fun hpeer => hne (h.injective p peer j hp hpeer)⟩

lemma Unique.step (h : ids.Unique) (hfuel : 2 ^ 16 ≤ fuel) {call : IDCall}
    (hcall : ids.Allowed call) :
    ∃ ids', ids.step fuel call = some ids' ∧ ids'.Unique := by
  cases call with
  | reserveForPeer peer =>
    obtain ⟨hpeer, hcard⟩ := hcall
    obtain ⟨i, hi⟩ := Option.isSome_iff_exists.mp
      (search_isSome hfuel (hcard.trans (by decide)) ids.nextID)
    have hfree := (h.active i).not.mp (notMem_of_search hi)
    rw [not_or, not_exists] at hfree
    refine ⟨_, by rw [MempoolIDs.step, reserveForPeer, nextPeerID, if_neg hcard.ne, hi]; rfl,
      h.set (fun j hj => Option.some.inj hj ▸ hfree) (fun j => ?_) _⟩
    simp [hpeer, eq_comm]
  | reclaim peer =>
    refine ⟨_, rfl, ?_⟩
    unfold reclaim
    split
    · rename_i removed hremoved
      refine h.set (fun j hj => by cases hj) (fun j => ?_) _
      rw [hremoved]
      simp [and_comm, eq_comm]
    · exact h

/-- A call decides about its own peer and about no other. -/
lemma peerMap_step {ids' : MempoolIDs} {call : IDCall} (h : ids.step fuel call = some ids')
    (p : Bytes) : (∃ i, ids'.peerMap p = some i) ↔
      if call.peer = p then call = .reserveForPeer p else ∃ i, ids.peerMap p = some i := by
  cases call with
  | reserveForPeer peer =>
    obtain ⟨r, hr, rfl⟩ := Option.map_eq_some_iff.mp h
    obtain ⟨i, -, rfl⟩ := Option.map_eq_some_iff.mp (Option.ite_none_left_eq_some.mp hr).2
    by_cases hp : peer = p
    · simp [IDCall.peer, hp]
    · simp [IDCall.peer, hp, update_of_ne (Ne.symm hp)]
  | reclaim peer =>
    cases h
    unfold reclaim
    by_cases hp : peer = p
    · subst hp
      split <;> simp [IDCall.peer, *]
    · split <;> simp [IDCall.peer, hp, update_of_ne (Ne.symm hp)]

lemma connected_iff {calls : List IDCall}
    (h : Runs.run (step fuel) newMempoolIDs calls = some ids) (p : Bytes) :
    (∃ i, ids.peerMap p = some i) ↔ Connected calls p := by
  induction calls using List.reverseRecOn generalizing ids with
  | nil =>
    cases h
    simp [newMempoolIDs, Connected]
  | append_singleton calls call ih =>
    rw [Runs.run_append] at h
    obtain ⟨ids₁, hids₁, h⟩ := Option.bind_eq_some_iff.mp h
    obtain ⟨_, hstep, ⟨⟩⟩ := Runs.run_cons.mp h
    rw [peerMap_step hstep, ih hids₁, Connected, Connected, List.filter_append]
    by_cases hp : call.peer = p <;> simp [hp]

/-- What holds after any calls, however often the counter has wrapped around. -/
theorem peer_ids_unique (fuel : ℕ) (hfuel : 2 ^ 16 ≤ fuel) (calls : List IDCall)
    (hallowed : Runs.Guarded (step fuel) Allowed newMempoolIDs calls) :
    ∃ ids, Runs.run (step fuel) newMempoolIDs calls = some ids ∧
      (∀ p, (∃ i, ids.peerMap p = some i) ↔ Connected calls p) ∧
      (∀ p q i, ids.peerMap p = some i → ids.peerMap q = some i → p = q) ∧
      (∀ p, ids.peerMap p ≠ some 0) ∧
      ∀ i, i ∈ ids.activeIDs ↔ i = 0 ∨ ∃ p, ids.peerMap p = some i := by
  have hnew : newMempoolIDs.Unique :=
    ⟨fun _ _ _ => nofun, fun _ => nofun, fun i => by simp [newMempoolIDs]⟩
  obtain ⟨ids, hrun, h⟩ := hallowed.exists_run (fun _ _ h => h.step hfuel) hnew
  exact ⟨ids, hrun, connected_iff hrun, h.injective, h.nonzero, h.active⟩

def threePeers : List IDCall :=
  [.reserveForPeer [1], .reserveForPeer [2], .reclaim [1], .reserveForPeer [3]]

theorem three_peers_unique :
    ∃ ids, Runs.run (step 65536) newMempoolIDs threePeers = some ids ∧
      ids.peerMap [3] = some 3 ∧ ids.peerMap [2] ≠ some 3 := by
  obtain ⟨ids, hrun, -, hinj, -⟩ := peer_ids_unique 65536 le_rfl threePeers (by decide +kernel)
  have hthird : (Runs.run (step 65536) newMempoolIDs threePeers).bind
      (fun ids => ids.peerMap [3]) = some 3 := by decide +kernel
  rw [hrun] at hthird
  exact ⟨ids, hrun, hthird, fun h => absurd (hinj _ _ _ h hthird) (by decide)⟩

end MempoolIDs

end ShardingBC
