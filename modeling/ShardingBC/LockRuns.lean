import ShardingBC.LockRules

/-!
# Runs of a node with a lock

A node never goes back in height, round and step, and calls `signAddVote` once for each vote. Its
locks are justified and given up only for later polkas, as long as no other block is decoded over a
locked or valid one.
-/
namespace ShardingBC.Consensus

open FourValidators List LockedVoting Logged Option Runs

variable {E : Electorate} {β : Type}

namespace Recorded

/-- Height, round and step. -/
def place (m : Recorded E β) : ℤ ×ₗ ℤ ×ₗ ℕ := toLex (m.height, toLex (m.round, m.step.toUint8))

/-- A node at the start of a height, as `updateToState` leaves it. -/
structure Fresh (height : ℤ) (m : Recorded E β) : Prop extends m.toNode.Fresh height where
  validRound : m.validRound = -1
  valid : m.validBlock = none ∧ m.validIsProposal = false ∧ m.validIsLocked = false
  past : ∀ t ∈ m.timeouts, t.height ≤ height

variable {inPlace : Prop} {cfg : Config E β} {m m' m₀ : Recorded E β} {height : ℤ}
  {x : Logged SignCall (Recorded E β)}

/-- Nothing lies in the future, and objects are what they are said to be. -/
structure Sane (m : Recorded E β) : Prop where
  bounded : m.voter.Bounded
  linked : m.Linked

lemma Fresh.sane (h : m.Fresh height) : m.Sane := by
  have hflags := h.apart.1
  obtain ⟨-, hproposal, hlocked⟩ := h.valid
  refine ⟨⟨h.round.ge, ?_, ?_, ?_⟩, ?_⟩
  · show m.lockedRound ≤ m.round
    rw [h.unlocked.1, h.round]
    decide
  · show m.validRound ≤ m.round
    rw [h.validRound, h.round]
    decide
  · intro a ha
    obtain ⟨t, ht, rfl⟩ := mem_map.mp ha
    rcases (h.past t ht).lt_or_eq with hlt | heq
    · exact .inl (hlt.trans_eq h.height_eq.symm)
    · exact .inr ⟨heq.trans h.height_eq.symm, (h.timeouts t ht heq).le.trans h.round.ge⟩
  · constructor <;> simp [hflags, hproposal, hlocked]

lemma Follows.path (h : Follows inPlace cfg m x) (hx : x.result = some m') :
    Logged.Path (Moves inPlace cfg.hash) Calls m x.log (some m') := hx ▸ h

lemma Follows.sane (h : Follows inPlace cfg m x) (hm : m.Sane) (hx : x.result = some m') :
    m'.Sane :=
  (h.path hx).invariant (fun _ _ hs hm => ⟨hs.bounded.move hm.voter, hm.linked hs.linked⟩)
    (fun _ _ _ hs hc => ⟨hs.bounded.casts hc.voter, hc.linked hs.linked⟩) hm

/-- Any run is a path of a voter whose values may change in place. -/
lemma record_follows (hm : m.Sane) (events : List (Event β)) :
    Follows True cfg m (m.record cfg events) :=
  takes_runAll (fun _ e hs _ => handle_follows e hs.bounded hs.linked (.inl trivial))
    (fun _ _ _ hs h hx => Follows.sane h hs hx) hm (Guarded.of_forall (fun _ _ => trivial) events)

lemma Moves.place_le (h : Moves inPlace cfg.hash m m') : m.place ≤ m'.place := h.voter.place_le

lemma Calls.place_lt {c : SignCall} (h : Calls m c m') :
    m.place < c.place ∧ c.place ≤ m'.place := h.voter.place_lt

lemma Follows.place_le (h : Follows inPlace cfg m x) (hx : x.result = some m') :
    m.place ≤ m'.place := by
  refine (h.path hx).invariant (P := fun m' => m.place ≤ m'.place) ?_ ?_ le_rfl
  · exact fun s s' hs hm => hs.trans hm.place_le
  · exact fun s c s' hs hc => hs.trans (hc.place_lt.1.le.trans hc.place_lt.2)

/-- No two calls are for the same height, round and type. -/
lemma Follows.nodup (h : Follows inPlace cfg m x) :
    (x.log.map fun c => (c.height, c.round, c.type)).Nodup := by
  have hpath : Logged.Path (Moves inPlace cfg.hash) Calls m x.log x.result := h
  have hsorted : x.log.Pairwise fun c c' => c.place < c'.place :=
    (hpath.pairwise_log (fun _ _ hm => hm.place_le) fun _ _ _ hc => hc.place_lt).1
  refine pairwise_map.mpr (hsorted.imp ?_)
  intro c c' hlt heq
  refine hlt.ne ?_
  simp only [Prod.mk.injEq] at heq
  rw [SignCall.place, SignCall.place, heq.1, heq.2.1, heq.2.2]

/-- In every run from the start of a height, height, round and step never go back, the rounds of
the locked and the valid block are not in the future, and `signAddVote` is called at most once for
each height, round and type. -/
theorem places_climb_and_calls_differ (cfg : Config E β) (height : ℤ) (m₀ : Recorded E β)
    (hfresh : m₀.Fresh height) (events : List (Event β)) :
    ((m₀.record cfg events).log.map fun c => (c.height, c.round, c.type)).Nodup ∧
      ∀ m, (m₀.record cfg events).result = some m →
        m.lockedRound ≤ m.round ∧ m.validRound ≤ m.round ∧
          ∀ more m', (m.record cfg more).result = some m' → m.place ≤ m'.place := by
  have hsane : m₀.Sane := hfresh.sane
  refine ⟨(record_follows hsane events).nodup, fun m hrun => ?_⟩
  have hm := (record_follows hsane events).sane hsane hrun
  refine ⟨hm.bounded.lockedRound, hm.bounded.validRound, fun more m' hmore => ?_⟩
  exact (record_follows hm more).place_le hmore

/-! A node of four validators, with blocks whose hashes differ. -/

def twoHashes : Config fourValidators (Fin 2) :=
  { twoBlocks 0 with
    hash := fun b => List.replicate tmhashSize (UInt8.ofNat b)
    headerHash := fun b => List.replicate tmhashSize (UInt8.ofNat b) }

def startAt5 : Recorded fourValidators (Fin 2) := ⟨atHeight5, none, false, false⟩

lemma startAt5_fresh : startAt5.Fresh 5 :=
  { atHeight5_fresh with
    validRound := rfl
    valid := ⟨rfl, rfl, rfl⟩
    past := by simp [startAt5, atHeight5] }

/-- The hash of a block with the header of a part set. -/
def mixedID (b parts : Fin 2) : BlockID :=
  ⟨twoHashes.hash b, ⟨1, List.replicate tmhashSize (UInt8.ofNat parts)⟩⟩

/-- Block 0 is proposed, prevoted and locked. -/
def lockZero : List (Event (Fin 2)) :=
  [fires 0 .newHeight, Consensus.proposal 0 (-1) (mixedID 0 0), block 0,
    prevoteBy 0 1 (mixedID 0 0), prevoteBy 0 0 (mixedID 0 0), prevoteBy 0 2 (mixedID 0 0)]

theorem lockZero_climbs :
    ((startAt5.record twoHashes lockZero).log.map fun c => (c.height, c.round, c.type)) =
        [(5, 0, .prevote), (5, 0, .precommit)] ∧
      [((5 : ℤ), (0 : ℤ), SignedMsgType.prevote), (5, 0, .precommit)].Nodup ∧
      ∃ m, (startAt5.record twoHashes lockZero).result = some m ∧ m.lockedRound = 0 ∧
        m.lockedRound ≤ m.round ∧ m.validRound ≤ m.round := by
  refine (and_iff_left_of_imp fun hcalls => ?_).mpr (by decide +kernel)
  obtain ⟨m, hrun, hlocked⟩ : ∃ m, (startAt5.record twoHashes lockZero).result = some m ∧
      m.lockedRound = 0 := Runs.exists_of_any (by decide +kernel)
  have h := places_climb_and_calls_differ twoHashes 5 startAt5 startAt5_fresh lockZero
  rw [hcalls] at h
  exact ⟨h.1, m, hrun, hlocked, (h.2 m hrun).1, (h.2 m hrun).2.1⟩

/-- Locks justified and given up only for later polkas. -/
structure Holds (cfg : Config E β) (m m' : Recorded E β) : Prop where
  sane : m'.Sane
  justified : m'.voter.Justified cfg.hash
  yields : Voter.Yields cfg.hash m.voter m'.voter

lemma Follows.holds (h : Follows False cfg m x) (hsane : m.Sane)
    (hjust : m.voter.Justified cfg.hash) (hx : x.result = some m') : Holds cfg m m' := by
  refine (h.path hx).invariant (P := Holds cfg m) ?_ ?_ ⟨hsane, hjust, .refl _ _⟩
  · intro s s' hs hm
    exact ⟨⟨hs.sane.bounded.move hm.voter, hm.linked hs.sane.linked⟩, hs.justified.move hm.voter,
      hs.yields.trans (hm.voter.yields hs.justified hs.sane.bounded)⟩
  · intro s c s' hs hc
    exact ⟨⟨hs.sane.bounded.casts hc.voter, hc.linked hs.sane.linked⟩, hs.justified.casts hc.voter,
      hs.yields.trans hc.voter.yields⟩

/-- Every vote signed on the way was called for. -/
lemma Follows.signed (h : Follows inPlace cfg m x) (hx : x.result = some m') :
    ∀ v ∈ m'.signed, v ∈ m.signed ∨ ∃ c ∈ x.log, c.Of v := by
  have hpath := h.path hx
  clear hx h
  generalize hend : some m' = r at hpath
  generalize x.log = l at hpath
  induction hpath with
  | fails s => cases hend
  | ends s =>
    cases hend
    exact fun v hv => .inl hv
  | moves hm _ ih =>
    intro v hv
    rw [← hm.signed]
    exact ih hend v hv
  | calls hc _ ih =>
    intro v hv
    rcases ih hend v hv with hv | ⟨c, hc, hof⟩
    · rcases hc.signed with heq | ⟨w, heq, hof⟩
      · exact .inl (heq ▸ hv)
      · rw [heq] at hv
        rcases mem_cons.mp hv with rfl | hv
        · exact .inr ⟨_, mem_cons_self, hof⟩
        · exact .inl hv
    · exact .inr ⟨c, mem_cons_of_mem _ hc, hof⟩

/-- Where no locked or valid block is overwritten by another, a run is a path of a voter whose
values stay. -/
lemma record_follows_of_keepsBlock (hm : m.Sane) {events : List (Event β)}
    (hg : Guarded (fun m e => (handle cfg m e).result) KeepsBlock m events) :
    Follows False cfg m (m.record cfg events) :=
  takes_runAll (fun _ e hs hk => handle_follows e hs.bounded hs.linked (.inr hk))
    (fun _ _ _ hs h hx => Follows.sane h hs hx) hm hg

lemma Fresh.justified (h : m.Fresh height) : m.voter.Justified cfg.hash := by
  constructor
  · intro b hb
    simp [voter, h.unlocked.2.1] at hb
  · intro b hb
    simp [voter, h.valid.1] at hb

variable (cfg) in
def HasPolka (m : Recorded E β) (round : ℤ) (b : β) : Prop :=
  ∃ z, m.polka round = some z ∧ z.hash = cfg.hash b

@[simp] lemma value_eq_some {z : BlockID} {h : Bytes} :
    z.value = some h ↔ z.hash = h ∧ h ≠ [] := by
  unfold BlockID.value
  split_ifs with hnil
  · simp [hnil]
  · refine ⟨fun heq => ?_, fun heq => congrArg some heq.1⟩
    cases heq
    exact ⟨rfl, hnil⟩

lemma hasPolka_of_voter {r : ℤ} {b : β}
    (h : m.voter.polka r = some (some (cfg.hash b))) :
    m.HasPolka cfg r b ∧ cfg.hash b ≠ [] := by
  obtain ⟨z, hz, hvalue⟩ := map_eq_some_iff.mp h
  obtain ⟨hhash, hne⟩ := value_eq_some.mp hvalue
  exact ⟨⟨z, hz, hhash⟩, hne⟩

/-- In every run from the start of a height in which no other block is decoded over a locked or
valid one, the locked and the valid block had a polka in their rounds, precommits follow polkas,
and a locked block is given up only for a later polka for something else. -/
theorem locks_justified_and_kept (cfg : Config E β) (height : ℤ) (m₀ : Recorded E β)
    (hfresh : m₀.Fresh height) (events : List (Event β))
    (hguard : Guarded (fun m e => (handle cfg m e).result) KeepsBlock m₀ events)
    (m : Recorded E β) (hrun : (m₀.record cfg events).result = some m) :
    (∀ b, m.lockedBlock = some b → m.HasPolka cfg m.lockedRound b) ∧
    (∀ b, m.validBlock = some b → m.HasPolka cfg m.validRound b) ∧
    (∀ v ∈ m.signed, v ∈ m₀.signed ∨ ∃ c ∈ (m₀.record cfg events).log, c.Of v) ∧
    (∀ c ∈ (m₀.record cfg events).log, c.type = .precommit → c.blockID.hash ≠ [] →
      c.polka = some c.blockID) ∧
    ∀ e m', KeepsBlock m e → (handle cfg m e).result = some m' → m'.height = m.height →
      ∀ b, m.lockedBlock = some b →
        m'.lockedBlock = some b ∨
          ∃ r z, m.lockedRound < r ∧ r ≤ m'.round ∧ m'.polka r = some z ∧
            z.hash ≠ cfg.hash b := by
  have hfollows := record_follows_of_keepsBlock hfresh.sane hguard
  have hholds := hfollows.holds hfresh.sane hfresh.justified hrun
  have hlocked : ∀ b, m.lockedBlock = some b →
      m.HasPolka cfg m.lockedRound b ∧ cfg.hash b ≠ [] := fun b hb =>
    hasPolka_of_voter (hholds.justified.locked b hb)
  have hvalid : ∀ b, m.validBlock = some b →
      m.HasPolka cfg m.validRound b ∧ cfg.hash b ≠ [] := fun b hb =>
    hasPolka_of_voter (hholds.justified.valid b hb)
  refine ⟨fun b hb => (hlocked b hb).1, fun b hb => (hvalid b hb).1, hfollows.signed hrun,
    Logged.Path.forall_mem_log (fun _ _ _ hc => hc.justified) hfollows, ?_⟩
  intro e m' hkeep hstep hheight b hb
  have hnext := (handle_follows e hholds.sane.bounded hholds.sane.linked (.inr hkeep)).holds
    hholds.sane hholds.justified hstep
  rcases hnext.yields.lock hheight b hb with
    ⟨hsame, -⟩ | ⟨r, x, hlt, hle, hx, hne⟩
  · exact .inl hsame
  · obtain ⟨z, hz, rfl⟩ := map_eq_some_iff.mp hx
    refine .inr ⟨r, z, hlt, hle, hz, fun heq => hne ?_⟩
    exact value_eq_some.mpr ⟨heq, (hlocked b hb).2⟩

theorem lockZero_justified :
    ∃ m, (startAt5.record twoHashes lockZero).result = some m ∧ m.lockedBlock = some 0 ∧
      m.validBlock = some 0 ∧ m.HasPolka twoHashes m.lockedRound 0 ∧
      m.HasPolka twoHashes m.validRound 0 := by
  obtain ⟨m, hrun, hlocked, hvalid⟩ : ∃ m, (startAt5.record twoHashes lockZero).result = some m ∧
      m.lockedBlock = some 0 ∧ m.validBlock = some 0 := Runs.exists_of_any (by decide +kernel)
  have h := locks_justified_and_kept twoHashes 5 startAt5 startAt5_fresh lockZero (by decide +kernel)
    m hrun
  exact ⟨m, hrun, hlocked, hvalid, h.1 0 hlocked, h.2.1 0 hvalid⟩

/-- Two thirds prevote block 0 with the parts of block 1, which come in afterwards. -/
def overwriteLock : List (Event (Fin 2)) :=
  [fires 0 .newHeight, Consensus.proposal 0 (-1) (mixedID 0 0), block 0,
    prevoteBy 0 1 (mixedID 0 0), prevoteBy 0 0 (mixedID 0 1), prevoteBy 0 2 (mixedID 0 1),
    prevoteBy 0 3 (mixedID 0 1), block 1]

/-- The locked block becomes one that nobody prevoted. -/
theorem overwriteLock_unjustified :
    startAt5.Fresh 5 ∧ ∃ m, (startAt5.record twoHashes overwriteLock).result = some m ∧
      m.lockedBlock = some 1 ∧ m.validBlock = some 1 ∧ m.polka m.lockedRound = some (mixedID 0 1) ∧
      m.polka m.validRound = some (mixedID 0 1) ∧ (mixedID 0 1).hash ≠ twoHashes.hash 1 := by
  exact ⟨startAt5_fresh, Runs.exists_of_any (by decide +kernel)⟩

end Recorded

end ShardingBC.Consensus
