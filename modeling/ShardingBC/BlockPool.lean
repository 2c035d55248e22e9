import ShardingBC.AssocMap
import ShardingBC.GoBytes
import ShardingBC.Runs

/-!
# The block pool

`BlockPool` with the heights of its peers and its requesters. The steps are the sections under the
lock of the pool and those of the requesters' goroutines, also after they left the pool.
-/
namespace ShardingBC.BlockSync

open List Option Runs

/-- A requester may pick a peer that is removed before it is noted. `RedoRequest` and time-outs
remove peers. -/
inductive Event where
  | makeNextRequester
  | pickPeer (height : ℕ) (peerID : Bytes)
  | addBlock (peerID : Bytes) (height : ℕ)
  | setPeerHeight (peerID : Bytes) (height : ℕ)
  | removePeer (peerID : Bytes)
  | receive (height : ℕ)
  | receiveGone (n : ℕ)
  | popRequest
  | snapshot (version : ℕ)

/-- `bpRequester`; `redoCh` is what the channel holds. -/
structure Requester where
  peerID : Bytes
  block : Bool
  redoCh : Option Bytes

/-- The goroutine receives a signal once it has a peer. -/
def Requester.receive (r : Requester) : Option (Requester × Bool) :=
  r.redoCh.bind fun id =>
    if r.peerID = [] then none
    else if id = r.peerID then some (⟨[], false, none⟩, r.block)
    else some ({ r with redoCh := none }, false)

/-- `redo`, for the requesters of the peer. -/
def Requester.redo (peerID : Bytes) (r : Requester) : Requester :=
  if r.peerID = peerID then { r with redoCh := r.redoCh.or (some peerID) } else r

/-- `gone` are the requesters that were popped or overwritten. -/
structure Requests where
  height : ℕ
  requesters : AssocMap ℕ Requester
  gone : List Requester
  numPending : ℤ

namespace Requests

def makeNextRequester (maxPeerHeight : ℕ) (p : Requests) : Requests :=
  let nextHeight := p.height + p.requesters.length
  if nextHeight > maxPeerHeight then p
  else { p with
    requesters := p.requesters.set nextHeight ⟨[], false, none⟩
    gone := p.gone ++ (p.requesters.lookup nextHeight).toList
    numPending := p.numPending + 1 }

def addBlock (peerID : Bytes) (height : ℕ) (p : Requests) : Requests :=
  match (p.requesters.lookup height).filter fun r => !r.block && r.peerID = peerID with
  | none => p
  | some r => { p with
    requesters := p.requesters.set height { r with block := true }
    numPending := p.numPending - 1 }

/-- `PopRequest`; `none` is the panic. -/
def popRequest (p : Requests) : Option Requests :=
  (p.requesters.lookup p.height).map fun r => { p with
    requesters := p.requesters.delete p.height
    gone := p.gone ++ [r]
    height := p.height + 1 }

def step (maxPeerHeight : ℕ) (p : Requests) : Event → Option Requests
  | .makeNextRequester => some (p.makeNextRequester maxPeerHeight)
  | .pickPeer height peerID =>
    ((p.requesters.lookup height).filter (·.peerID = [])).map fun r =>
      { p with requesters := p.requesters.set height { r with peerID := peerID } }
  | .addBlock peerID height => some (p.addBlock peerID height)
  | .setPeerHeight .. => some p
  | .removePeer peerID =>
    some { p with requesters := p.requesters.map fun e => (e.1, e.2.redo peerID) }
  | .receive height =>
    ((p.requesters.lookup height).bind Requester.receive).map fun r => { p with
      requesters := p.requesters.set height r.1
      numPending := p.numPending + r.2.toNat }
  | .receiveGone n =>
    (p.gone[n]?.bind Requester.receive).map fun r => { p with
      gone := p.gone.set n r.1
      numPending := p.numPending + r.2.toNat }
  | .popRequest => p.popRequest
  -- `Receive` sets the height
  | .snapshot version =>
    some (if version > 0 ∧ version < 0x7fffffff then { p with height := version + 1 } else p)

end Requests

structure Peers where
  heights : AssocMap Bytes ℕ
  nodup : heights.keys.Nodup
  maxPeerHeight : ℕ

/-- `updateMaxPeerHeight`. -/
def largest (heights : AssocMap Bytes ℕ) : ℕ := heights.foldl (fun m e => max m e.2) 0

namespace Peers

def setPeerHeight (peerID : Bytes) (height : ℕ) (p : Peers) : Peers where
  heights := p.heights.set peerID height
  nodup := AssocMap.nodup_keys_set _ _ _ p.nodup
  maxPeerHeight := max height p.maxPeerHeight

def removePeer (peerID : Bytes) (p : Peers) : Peers :=
  match p.heights.lookup peerID with
  | none => p
  | some height => {
    heights := p.heights.delete peerID
    nodup := AssocMap.nodup_keys_delete _ _ p.nodup
    maxPeerHeight :=
      if height = p.maxPeerHeight then largest (p.heights.delete peerID) else p.maxPeerHeight }

def step (p : Peers) : Event → Peers
  | .setPeerHeight peerID height => p.setPeerHeight peerID height
  | .removePeer peerID => p.removePeer peerID
  | _ => p

end Peers

structure BlockPool where
  requests : Requests
  peers : Peers

namespace BlockPool

def new (start : ℕ) : BlockPool := ⟨⟨start, [], [], 0⟩, ⟨[], .nil, 0⟩⟩

def step (p : BlockPool) (e : Event) : Option BlockPool :=
  (p.requests.step p.peers.maxPeerHeight e).map fun requests => ⟨requests, p.peers.step e⟩

def isCaughtUp (p : BlockPool) (timedOut : Bool) : Bool :=
  !p.peers.heights.isEmpty && (p.requests.height > 0 || timedOut) &&
    (p.peers.maxPeerHeight = 0 || p.requests.height ≥ p.peers.maxPeerHeight - 1)

end BlockPool

namespace Requests

variable {p p' : Requests}

/-- The counter is that of the requesters without a block, which are for the next heights. -/
structure Counted (p : Requests) : Prop where
  pending : p.numPending = p.requesters.countP (!·.2.block)
  keys : p.requesters.keys = range' p.height p.requesters.length

/-- A popped requester has its block, none that is gone gives up its block, and no snapshot changes
the height under requesters. -/
def Steady (p : Requests) : Event → Prop
  | .popRequest => ∀ r ∈ p.requesters.lookup p.height, r.block
  | .receiveGone n => ∀ r ∈ p.gone[n]?.bind Requester.receive, ¬ r.2
  | .snapshot version => version > 0 ∧ version < 0x7fffffff →
      version + 1 = p.height ∨ p.requesters = []
  | _ => True

lemma Counted.of_keys (h : p.Counted) (hheight : p'.height = p.height)
    (hkeys : p'.requesters.keys = p.requesters.keys)
    (hpending : p'.numPending = p'.requesters.countP (!·.2.block)) : p'.Counted := by
  have hlen : p'.requesters.length = p.requesters.length := by
    simpa [AssocMap.keys] using congrArg length hkeys
  exact ⟨hpending, by rw [hkeys, hheight, hlen, h.keys]⟩

lemma Counted.set (h : p.Counted) {height : ℕ} {r : Requester}
    (hr : p.requesters.lookup height = some r) (r' : Requester) {n : ℤ}
    (hn : n + (!r.block).toNat = p.numPending + (!r'.block).toNat) :
    Counted { p with requesters := p.requesters.set height r', numPending := n } := by
  have hcount := AssocMap.countP_set hr r' fun r => !r.block
  refine h.of_keys rfl (AssocMap.keys_set_of_lookup hr r') ?_
  have := h.pending
  dsimp only
  omega

lemma Counted.removePeer (h : p.Counted) (peerID : Bytes) : Counted { p with
    requesters := p.requesters.map fun e => (e.1, e.2.redo peerID) } := by
  have hsame : ∀ e : ℕ × Requester, (e.2.redo peerID).block = e.2.block := by
    intro e
    unfold Requester.redo
    split_ifs <;> rfl
  refine h.of_keys rfl (by simp [AssocMap.keys]) ?_
  simp only [countP_map, Function.comp_def, hsame, h.pending]

lemma Counted.makeNextRequester (h : p.Counted) (maxPeerHeight : ℕ) :
    (p.makeNextRequester maxPeerHeight).Counted := by
  have hpending := h.pending
  have hkeys := h.keys
  unfold Requests.makeNextRequester
  dsimp only
  split_ifs
  · exact h
  · -- no requester is overwritten
    rw [AssocMap.set_of_notMem (by rw [h.keys]; simp)]
    refine ⟨by simp [hpending], ?_⟩
    unfold AssocMap.keys at hkeys ⊢
    rw [map_append, hkeys, length_append, length_singleton, range'_1_concat, map_singleton]

lemma Counted.popRequest_iff (h : p.Counted) (hstep : p.popRequest = some p') :
    p'.Counted ↔ p.Steady .popRequest := by
  obtain ⟨r, hr, rfl⟩ := map_eq_some_iff.mp hstep
  have hkeys := h.keys
  have hpending := h.pending
  simp only [Steady, hr, mem_some_iff, forall_eq']
  cases hreq : p.requesters with
  | nil =>
    rw [hreq] at hr
    cases hr
  | cons e es =>
    -- the first requester is the one of the height
    rw [hreq] at hkeys
    obtain ⟨hfirst, hrest⟩ := cons.inj hkeys
    have hdelete : AssocMap.delete p.height (e :: es) = es := by
      rw [AssocMap.delete, filter_cons_of_neg (by simpa using hfirst), filter_eq_self]
      intro e' he'
      have hmem : e'.1 ∈ es.map Prod.fst := mem_map_of_mem he'
      rw [hrest, mem_range'_1] at hmem
      simp only [decide_eq_true_eq]
      omega
    rw [hreq, AssocMap.lookup, if_pos (by simpa using hfirst)] at hr
    rw [hreq, countP_cons, some.inj hr] at hpending
    rw [hdelete]
    refine ⟨fun h' => ?_, fun hblock => ⟨by simpa [hblock] using hpending, hrest⟩⟩
    by_contra hblock
    have hcount : p.numPending = es.countP (!·.2.block) := h'.pending
    simp [hblock, hcount] at hpending

lemma Counted.snapshot_iff (h : p.Counted) (version : ℕ) :
    Counted (if version > 0 ∧ version < 0x7fffffff then { p with height := version + 1 } else p) ↔
      p.Steady (.snapshot version) := by
  split_ifs with hv
  · refine ⟨fun h' _ => ?_, fun hsteady => ?_⟩
    · have hkeys := h'.keys.symm.trans h.keys
      cases hreq : p.requesters with
      | nil => exact .inr rfl
      | cons e es =>
        rw [hreq] at hkeys
        exact .inl (cons.inj hkeys).1
    · rcases hsteady hv with heq | hnil
      · exact ⟨h.pending, by rw [heq]; exact h.keys⟩
      · exact ⟨h.pending, by simp [hnil, AssocMap.keys]⟩
  · exact iff_of_true h fun hv' => absurd hv' hv

/-- The counter stays exact in exactly the steps that are steady. -/
lemma Counted.step_iff (h : p.Counted) {maxPeerHeight : ℕ} {e : Event}
    (hstep : p.step maxPeerHeight e = some p') :
    p'.Counted ↔ p.Steady e := by
  cases e with
  | makeNextRequester =>
    cases hstep
    exact iff_of_true (h.makeNextRequester _) trivial
  | pickPeer height peerID =>
    obtain ⟨r, hr, rfl⟩ := map_eq_some_iff.mp hstep
    exact iff_of_true (h.set (filter_eq_some_iff.mp hr).1 _ rfl) trivial
  | addBlock peerID height =>
    cases hstep
    refine iff_of_true ?_ trivial
    unfold Requests.addBlock
    cases hr : (p.requesters.lookup height).filter fun r => !r.block && r.peerID = peerID with
    | none => exact h
    | some r =>
      obtain ⟨hlookup, hopen⟩ := filter_eq_some_iff.mp hr
      simp only [Bool.and_eq_true] at hopen
      exact h.set hlookup _ (by simp [hopen.1])
  | setPeerHeight peerID height =>
    cases hstep
    exact iff_of_true h trivial
  | removePeer peerID =>
    cases hstep
    exact iff_of_true (h.removePeer peerID) trivial
  | receive height =>
    obtain ⟨r', hr', rfl⟩ := map_eq_some_iff.mp hstep
    obtain ⟨r, hlookup, hr⟩ := bind_eq_some_iff.mp hr'
    refine iff_of_true (h.set hlookup r'.1 ?_) trivial
    obtain ⟨id, -, hr⟩ := bind_eq_some_iff.mp hr
    split_ifs at hr
    · cases hr
      cases r.block <;> simp
    · cases hr
      simp
  | receiveGone n =>
    obtain ⟨r, hr, rfl⟩ := map_eq_some_iff.mp hstep
    simp only [Steady, hr, mem_some_iff, forall_eq']
    refine ⟨fun h' hgiven => ?_, fun hkept => ⟨?_, h.keys⟩⟩
    · have hpending : p.numPending + r.2.toNat = _ := h'.pending
      simp [h.pending, hgiven] at hpending
    · simp [h.pending, hkept]
  | popRequest => exact h.popRequest_iff hstep
  | snapshot version =>
    cases hstep
    exact h.snapshot_iff version

end Requests

/-- The counter is exact all along a run just if all steps are steady. -/
theorem pending_counted_iff (start : ℕ) (es : List Event) :
    (∀ n p, run BlockPool.step (.new start) (es.take n) = some p → p.requests.Counted) ↔
      Guarded BlockPool.step (fun p : BlockPool => p.requests.Steady) (.new start) es := by
  have hnew : (BlockPool.new start).requests.Counted := ⟨rfl, rfl⟩
  refine forall_take_iff_guarded (P := fun p : BlockPool => p.requests.Counted) (fun p e hnone => ?_)
    (fun p e p' h hstep => ?_) hnew
  · have hnone := map_eq_none_iff.mp hnone
    cases e with
    | popRequest =>
      intro r hr
      rw [Requests.step, Requests.popRequest, hr] at hnone
      cases hnone
    | receiveGone n =>
      intro r hr
      rw [Requests.step, hr] at hnone
      cases hnone
    | snapshot version => cases hnone
    | _ => trivial
  · obtain ⟨requests, hrequests, rfl⟩ := map_eq_some_iff.mp hstep
    exact h.step_iff hrequests

/-- The peer of the first of two blocks is removed before the block is popped. -/
theorem popped_request_stays_pending :
    (run BlockPool.step (.new 1) [.setPeerHeight [7] 2, .setPeerHeight [8] 2, .makeNextRequester,
      .makeNextRequester, .pickPeer 1 [7], .pickPeer 2 [8], .addBlock [7] 1, .addBlock [8] 2,
      .removePeer [7], .receive 1, .popRequest]).map (fun p => (p.requests.numPending,
        p.requests.requesters.countP (!·.2.block))) = some (1, 0) := by
  decide +kernel

namespace Peers

variable {p p' : Peers}

def Greatest (p : Peers) : Prop :=
  IsLUB {h | ∃ id, p.heights.lookup id = some h} p.maxPeerHeight

/-- No peer reports less than before, unless another has at least its old height. -/
def Reported (p : Peers) : Event → Prop
  | .setPeerHeight peerID height => ∀ old ∈ p.heights.lookup peerID, old ≤ height ∨
      ∃ id h, id ≠ peerID ∧ p.heights.lookup id = some h ∧ old ≤ h
  | _ => True

lemma greatest_iff : p.Greatest ↔
    ∀ b, p.maxPeerHeight ≤ b ↔ ∀ id h, p.heights.lookup id = some h → h ≤ b := by
  refine isLUB_iff_le_iff.trans (forall_congr' fun b => iff_congr .rfl ?_)
  exact ⟨fun h id x hid => h ⟨id, hid⟩, fun h x hx => hx.elim fun id hid => h id x hid⟩

lemma largest_le_iff {heights : AssocMap Bytes ℕ} (hnodup : heights.keys.Nodup) (b : ℕ) :
    largest heights ≤ b ↔ ∀ id h, heights.lookup id = some h → h ≤ b := by
  have hfold : ∀ (l : AssocMap Bytes ℕ) (m : ℕ),
      l.foldl (fun m e => max m e.2) m ≤ b ↔ m ≤ b ∧ ∀ e ∈ l, e.2 ≤ b := by
    intro l
    induction l with
    | nil => simp
    | cons e l ih => simp [ih, and_assoc]
  simp [AssocMap.lookup_eq_some_iff hnodup, largest, hfold]

/-- A report replaces the old height of the peer. -/
lemma Greatest.setPeerHeight_iff (h : p.Greatest) (peerID : Bytes) (height : ℕ) :
    (p.setPeerHeight peerID height).Greatest ↔ p.Reported (.setPeerHeight peerID height) := by
  rw [greatest_iff] at h ⊢
  simp only [setPeerHeight, AssocMap.lookup_set, max_le_iff, h]
  constructor
  · intro h' old hold
    by_contra hnot
    push Not at hnot
    -- all heights would be below the old one
    have hbelow := (h' (old - 1)).mpr fun id x hid => by
      split_ifs at hid with heq
      · have := some.inj hid
        omega
      · have := hnot.2 id x (Ne.symm heq) hid
        omega
    have := hbelow.2 peerID old hold
    omega
  · intro hreported b
    refine ⟨fun hb id x hid => ?_, fun hb => ⟨hb peerID height (if_pos rfl), fun id x hid => ?_⟩⟩
    · split_ifs at hid
      · exact some.inj hid ▸ hb.1
      · exact hb.2 id x hid
    · by_cases heq : peerID = id
      · subst heq
        rcases hreported x hid with hle | ⟨id, x', hne, hid', hle⟩
        · exact hle.trans (hb peerID height (if_pos rfl))
        · exact hle.trans (hb id x' ((if_neg hne.symm).trans hid'))
      · exact hb id x ((if_neg heq).trans hid)

lemma Greatest.removePeer (h : p.Greatest) (peerID : Bytes) : (p.removePeer peerID).Greatest := by
  unfold Peers.removePeer
  cases hold : p.heights.lookup peerID with
  | none => exact h
  | some height =>
    rw [greatest_iff] at h ⊢
    intro b
    dsimp only
    split_ifs with heq
    · exact largest_le_iff (AssocMap.nodup_keys_delete _ _ p.nodup) b
    · refine ⟨fun hb id x hid => ?_, fun hb => ?_⟩
      · rw [AssocMap.lookup_delete] at hid
        split_ifs at hid
        exact (h b).mp hb id x hid
      · by_contra hlarge
        -- all heights would be below the greatest
        have hbelow := (h (p.maxPeerHeight - 1)).mpr fun id x hid => by
          have hle := (h p.maxPeerHeight).mp le_rfl id x hid
          by_cases hpeer : peerID = id
          · have := some.inj (hold.symm.trans (hpeer ▸ hid))
            omega
          · have := hb id x ((AssocMap.lookup_delete ..).trans ((if_neg hpeer).trans hid))
            omega
        omega

lemma Greatest.step_iff (h : p.Greatest) (e : Event) : (p.step e).Greatest ↔ p.Reported e := by
  cases e with
  | setPeerHeight peerID height => exact h.setPeerHeight_iff peerID height
  | removePeer peerID => exact iff_of_true (h.removePeer peerID) trivial
  | _ => exact iff_of_true h trivial

end Peers

/-- There is a peer and none is more than one height ahead. -/
def BlockPool.CaughtUp (p : BlockPool) (timedOut : Bool) : Prop :=
  p.peers.heights ≠ [] ∧ (0 < p.requests.height ∨ timedOut) ∧
    ∀ id h, p.peers.heights.lookup id = some h → h ≤ p.requests.height + 1

lemma BlockPool.isCaughtUp_iff {p : BlockPool} (h : p.peers.Greatest) (timedOut : Bool) :
    p.isCaughtUp timedOut = true ↔ p.CaughtUp timedOut := by
  have hone : (p.peers.maxPeerHeight = 0 ∨ p.requests.height ≥ p.peers.maxPeerHeight - 1) ↔
      p.peers.maxPeerHeight ≤ p.requests.height + 1 := by omega
  simp only [isCaughtUp, CaughtUp, ← Peers.greatest_iff.mp h, Bool.and_eq_true, Bool.or_eq_true,
    decide_eq_true_eq, Bool.not_eq_true', isEmpty_eq_false_iff, and_assoc, hone]

/-- The maximum and the judgement are those of the current peers just if heights are reported so. -/
theorem maxPeerHeight_greatest_iff (start : ℕ) (es : List Event) :
    (∀ n p, run BlockPool.step (.new start) (es.take n) = some p → p.peers.Greatest ∧
      ∀ timedOut, p.isCaughtUp timedOut = true ↔ p.CaughtUp timedOut) ↔
      Guarded BlockPool.step (fun p : BlockPool => p.peers.Reported) (.new start) es := by
  have hnew : (BlockPool.new start).peers.Greatest :=
    Peers.greatest_iff.mpr (by simp [BlockPool.new, AssocMap.lookup])
  rw [← forall_take_iff_guarded (P := fun p : BlockPool => p.peers.Greatest) (fun p e hnone => ?_)
    (fun p e p' h hstep => ?_) hnew]
  · exact ⟨fun h n p hp => (h n p hp).1,
      fun h n p hp => ⟨h n p hp, BlockPool.isCaughtUp_iff (h n p hp)⟩⟩
  · cases e with
    | setPeerHeight peerID height => cases hnone
    | _ => trivial
  · obtain ⟨requests, -, rfl⟩ := map_eq_some_iff.mp hstep
    exact h.step_iff e

/-- The pool waits for what its only peer reported before. -/
theorem lower_report_ignored :
    (run BlockPool.step (.new 3) [.setPeerHeight [7] 9, .setPeerHeight [7] 3]).map (fun p =>
      (p.peers.heights, p.peers.maxPeerHeight, p.isCaughtUp true)) =
        some ([([7], 3)], 9, false) := by
  decide +kernel

end ShardingBC.BlockSync
