import ShardingBC.VoteSet

/-!
# The vote sets of one height

A `HeightVoteSet` has vote sets of prevotes and precommits for every round up to the one after the
current round, and for up to two further rounds of each peer.
-/
namespace ShardingBC.Consensus

open Option

structure HeightVoteSet (E : Electorate) where
  height : ℤ
  round : ℤ
  roundVoteSets : ℤ → Option (VoteSet E × VoteSet E)
  peerCatchupRounds : Bytes → List ℤ

namespace HeightVoteSet

variable {E : Electorate}

/-- `addRound`; `none` is the panic for a round that exists, or of `NewVoteSet` at
height 0. -/
def addRound (hvs : HeightVoteSet E) (round : ℤ) : Option (HeightVoteSet E) :=
  if (hvs.roundVoteSets round).isSome ∨ hvs.height = 0 then none
  else some { hvs with
    roundVoteSets := Function.update hvs.roundVoteSets round
      (some (.new hvs.height round .prevote, .new hvs.height round .precommit)) }

def new (height : ℤ) : Option (HeightVoteSet E) :=
  addRound ⟨height, 0, fun _ => none, fun _ => []⟩ 0

/-- The step of the loop in `SetRound`. -/
def fillRound (hvs : HeightVoteSet E) (r : ℤ) : Option (HeightVoteSet E) :=
  if (hvs.roundVoteSets r).isSome then some hvs else hvs.addRound r

def setRound (hvs : HeightVoteSet E) (round : ℤ) : Option (HeightVoteSet E) :=
  if hvs.round ≠ 0 ∧ round < hvs.round + 1 then none
  else
    ((List.range (round - hvs.round).toNat).foldlM
      (fun (h : HeightVoteSet E) (k : ℕ) => h.fillRound (hvs.round + 1 + k)) hvs).map
        fun h => { h with round := round }

def getVoteSet (hvs : HeightVoteSet E) (round : ℤ) : SignedMsgType → Option (VoteSet E)
  | .prevote => (hvs.roundVoteSets round).map Prod.fst
  | .precommit => (hvs.roundVoteSets round).map Prod.snd
  | _ => none

abbrev prevotes (hvs : HeightVoteSet E) (round : ℤ) : Option (VoteSet E) :=
  hvs.getVoteSet round .prevote

abbrev precommits (hvs : HeightVoteSet E) (round : ℤ) : Option (VoteSet E) :=
  hvs.getVoteSet round .precommit

def setVoteSet (hvs : HeightVoteSet E) (round : ℤ) (type : SignedMsgType) (vs : VoteSet E) :
    HeightVoteSet E :=
  { hvs with
    roundVoteSets := Function.update hvs.roundVoteSets round
      ((hvs.roundVoteSets round).map fun rvs =>
        if type = .prevote then (vs, rvs.2) else (rvs.1, vs)) }

/-- The vote sets with the round of the vote: a peer may add two rounds, then `none` is answered.
The outer `none` is a panic. -/
def ensureRound (hvs : HeightVoteSet E) (vote : Vote) (peerID : Bytes) :
    Option (Option (HeightVoteSet E)) :=
  if (hvs.getVoteSet vote.round vote.type).isSome then some (some hvs)
  else
    let rndz := hvs.peerCatchupRounds peerID
    if rndz.length < 2 then
      (hvs.addRound vote.round).map fun h =>
        some { h with
          peerCatchupRounds := Function.update h.peerCatchupRounds peerID (rndz ++ [vote.round]) }
    else some none

/-- `HeightVoteSet.AddVote`; `none` is a panic. -/
def addVote (hvs : HeightVoteSet E) (vote : Vote) (peerID : Bytes) :
    Option (HeightVoteSet E × Bool × Option VoteError) :=
  if ¬ isVoteTypeValid vote.type then some (hvs, false, none)
  else do
    match ← hvs.ensureRound vote peerID with
    | none => some (hvs, false, some .unwantedRound)
    | some hvs =>
      let vs ← hvs.getVoteSet vote.round vote.type
      let (vs, added, err) ← vs.addVote vote
      some (hvs.setVoteSet vote.round vote.type vs, added, err)

def setPeerMaj23 (hvs : HeightVoteSet E) (round : ℤ) (type : SignedMsgType) (peerID : Bytes)
    (blockID : BlockID) : HeightVoteSet E :=
  match hvs.getVoteSet round type with
  | none => hvs
  | some vs => hvs.setVoteSet round type (vs.setPeerMaj23 peerID blockID).1

/-- `TwoThirdsMajority` of a vote set, which may be nil. -/
def majority (hvs : HeightVoteSet E) (round : ℤ) (type : SignedMsgType) : Option BlockID :=
  (hvs.getVoteSet round type).bind VoteSet.maj23

/-- `HasTwoThirdsAny` of a vote set of the height. -/
def hasTwoThirdsAny (hvs : HeightVoteSet E) (round : ℤ) (type : SignedMsgType) : Bool :=
  (hvs.getVoteSet round type).any VoteSet.hasTwoThirdsAny

variable {hvs hvs' : HeightVoteSet E}

/-- Every vote set is for its height, round and type, and its votes satisfy the predicate. -/
def Sound (P : E.Index → Vote → Prop) (hvs : HeightVoteSet E) : Prop :=
  ∀ r type vs, hvs.getVoteSet r type = some vs →
    (vs.height = hvs.height ∧ vs.round = r ∧ vs.type = type) ∧
      vs.Sound fun i v => (v.height = hvs.height ∧ v.round = r ∧ v.type = type) ∧ P i v

/-- The sets of `hvs'` have the majorities of `hvs`. -/
structure Extends (hvs hvs' : HeightVoteSet E) : Prop where
  height : hvs'.height = hvs.height
  majority : ∀ r type x, hvs.majority r type = some x → hvs'.majority r type = some x

lemma Extends.refl (hvs : HeightVoteSet E) : hvs.Extends hvs := ⟨rfl, fun _ _ _ h => h⟩

variable {type : SignedMsgType}

lemma isVoteTypeValid_cases (h : isVoteTypeValid type = true) :
    type = .prevote ∨ type = .precommit := by
  cases type <;> simp_all [isVoteTypeValid]

section AddRound

variable {round : ℤ}

/-- A new round has two empty vote sets; nothing else changes. -/
lemma addRound_spec (h : hvs.addRound round = some hvs') :
    hvs'.height = hvs.height ∧ hvs'.round = hvs.round ∧
      hvs'.peerCatchupRounds = hvs.peerCatchupRounds ∧
      ∀ r type, hvs'.getVoteSet r type = hvs.getVoteSet r type ∨
        r = round ∧ hvs.getVoteSet r type = none ∧
          hvs'.getVoteSet r type = some (.new hvs.height r type) := by
  unfold addRound at h
  split_ifs at h with hround
  cases h
  refine ⟨rfl, rfl, rfl, fun r type => ?_⟩
  by_cases hr : r = round
  · subst hr
    have hnone : hvs.roundVoteSets r = none := by
      cases hset : hvs.roundVoteSets r with
      | none => rfl
      | some rvs => simp [hset] at hround
    cases type with
    | prevote => exact .inr ⟨rfl, by simp [getVoteSet, hnone], by simp [getVoteSet]⟩
    | precommit => exact .inr ⟨rfl, by simp [getVoteSet, hnone], by simp [getVoteSet]⟩
    | proposal => exact .inl rfl
    | other code => exact .inl rfl
  · refine .inl ?_
    cases type <;> simp [getVoteSet, Function.update_of_ne hr]

lemma addRound_majority (h : hvs.addRound round = some hvs') : hvs'.majority = hvs.majority := by
  obtain ⟨-, -, -, hsets⟩ := addRound_spec h
  funext r type
  rcases hsets r type with heq | ⟨-, hnone, hnew⟩
  · simp only [majority, heq]
  · simp [majority, hnone, hnew, VoteSet.new]

lemma Sound.addRound {P : E.Index → Vote → Prop} (hs : hvs.Sound P)
    (h : hvs.addRound round = some hvs') : hvs'.Sound P := by
  obtain ⟨hheight, -, -, hsets⟩ := addRound_spec h
  intro r type vs hvs
  rw [hheight]
  rcases hsets r type with heq | ⟨-, -, hnew⟩
  · exact hs r type vs (heq ▸ hvs)
  · obtain rfl := some.inj (hnew.symm.trans hvs)
    exact ⟨⟨rfl, rfl, rfl⟩, VoteSet.sound_new ..⟩

lemma new_spec {height : ℤ} (h : (new height : Option (HeightVoteSet E)) = some hvs) :
    hvs.height = height ∧ hvs.round = 0 ∧ (∀ r type, hvs.majority r type = none) ∧
      ∀ P, hvs.Sound P := by
  obtain ⟨hheight, hround, -, -⟩ := addRound_spec h
  have hempty : ∀ r type,
      (⟨height, 0, fun _ => none, fun _ => []⟩ : HeightVoteSet E).getVoteSet r type = none := by
    intro r type
    cases type <;> rfl
  refine ⟨hheight, hround, fun r type => ?_, fun P => Sound.addRound ?_ h⟩
  · rw [addRound_majority h]
    simp [majority, hempty]
  · intro r type vs hvs
    rw [hempty] at hvs
    cases hvs

lemma fillRound_spec (h : hvs.fillRound round = some hvs') :
    hvs'.height = hvs.height ∧ hvs'.majority = hvs.majority ∧
      ∀ P, hvs.Sound P → hvs'.Sound P := by
  unfold fillRound at h
  split_ifs at h
  · cases h
    exact ⟨rfl, rfl, fun _ hs => hs⟩
  · exact ⟨(addRound_spec h).1, addRound_majority h, fun P hs => hs.addRound h⟩

lemma setRound_spec (h : hvs.setRound round = some hvs') :
    hvs'.height = hvs.height ∧ hvs'.round = round ∧ hvs'.majority = hvs.majority ∧
      ∀ P, hvs.Sound P → hvs'.Sound P := by
  unfold setRound at h
  split_ifs at h
  obtain ⟨filled, hfill, rfl⟩ := map_eq_some_iff.mp h
  have hloop : ∀ (ks : List ℕ) (start : HeightVoteSet E) (base : ℤ),
      ks.foldlM (fun (h : HeightVoteSet E) (k : ℕ) => h.fillRound (base + k)) start =
        some filled →
      filled.height = start.height ∧ filled.majority = start.majority ∧
        ∀ P, start.Sound P → filled.Sound P := by
    intro ks
    induction ks with
    | nil =>
      intro start base hrun
      obtain rfl : start = filled := some.inj hrun
      exact ⟨rfl, rfl, fun _ hs => hs⟩
    | cons k ks ih =>
      intro start base hrun
      obtain ⟨next, hstep, hrest⟩ := bind_eq_some_iff.mp hrun
      obtain ⟨h1, h2, h3⟩ := fillRound_spec hstep
      obtain ⟨h1', h2', h3'⟩ := ih next base hrest
      exact ⟨h1'.trans h1, h2'.trans h2, fun P hs => h3' P (h3 P hs)⟩
  obtain ⟨hheight, hmaj, hsound⟩ := hloop _ _ _ hfill
  exact ⟨hheight, rfl, hmaj, hsound⟩

end AddRound

section AddVote

variable {vote : Vote} {peerID : Bytes} {added : Bool} {err : Option VoteError}

lemma getVoteSet_setVoteSet {r : ℤ} {vs old : VoteSet E}
    (hold : hvs.getVoteSet r type = some old) (r' : ℤ) (type' : SignedMsgType) :
    (hvs.setVoteSet r type vs).getVoteSet r' type' =
      if r' = r ∧ type' = type then some vs else hvs.getVoteSet r' type' := by
  have htype : type = .prevote ∨ type = .precommit := by
    cases type <;> simp_all [getVoteSet]
  by_cases hr : r' = r
  · subst hr
    cases hset : hvs.roundVoteSets r' with
    | none => rcases htype with rfl | rfl <;> simp [getVoteSet, hset] at hold
    | some rvs =>
      rcases htype with rfl | rfl <;> cases type' <;> simp [getVoteSet, setVoteSet, hset]
  · rw [if_neg (fun h => hr h.1)]
    cases type' <;> simp [getVoteSet, setVoteSet, Function.update_of_ne hr]

/-- Replacing a vote set by one that extends it. -/
lemma setVoteSet_extends {r : ℤ} {vs old : VoteSet E}
    (hold : hvs.getVoteSet r type = some old) (hext : old.Extends vs) :
    hvs.Extends (hvs.setVoteSet r type vs) := by
  refine ⟨rfl, fun r' type' x hx => ?_⟩
  unfold majority at hx ⊢
  rw [getVoteSet_setVoteSet hold]
  split_ifs with heq
  · obtain ⟨rfl, rfl⟩ := heq
    rw [hold] at hx
    exact hext.maj23 x hx
  · exact hx

lemma Sound.setVoteSet {P : E.Index → Vote → Prop} {r : ℤ}
    {vs old : VoteSet E} (hs : hvs.Sound P) (hold : hvs.getVoteSet r type = some old)
    (hext : old.Extends vs)
    (hnew : vs.Sound fun i v => (v.height = hvs.height ∧ v.round = r ∧ v.type = type) ∧ P i v) :
    (hvs.setVoteSet r type vs).Sound P := by
  intro r' type' vs' hget
  rw [getVoteSet_setVoteSet hold] at hget
  split_ifs at hget with heq
  · obtain ⟨rfl, rfl⟩ := heq
    cases hget
    obtain ⟨⟨h1, h2, h3⟩, -⟩ := hs r' type' old hold
    exact ⟨⟨hext.height.trans h1, hext.round.trans h2, hext.type.trans h3⟩, hnew⟩
  · exact hs r' type' vs' hget

lemma ensureRound_spec (h : hvs.ensureRound vote peerID = some (some hvs')) :
    hvs'.height = hvs.height ∧ hvs'.majority = hvs.majority ∧
      ∀ P, hvs.Sound P → hvs'.Sound P := by
  unfold ensureRound at h
  dsimp only at h
  split_ifs at h with hsome hfew
  · obtain rfl := some.inj (some.inj h)
    exact ⟨rfl, rfl, fun _ hs => hs⟩
  · obtain ⟨added, hadd, heq⟩ := map_eq_some_iff.mp h
    cases heq
    have hmaj : added.majority = hvs.majority := addRound_majority hadd
    refine ⟨(addRound_spec hadd).1, hmaj, fun P hs => ?_⟩
    have hsound : added.Sound P := hs.addRound hadd
    exact hsound
  · cases some.inj h

/-- A vote goes to the vote set of its round and type, if at all. -/
lemma addVote_cases (h : hvs.addVote vote peerID = some (hvs', added, err)) :
    (hvs' = hvs ∧ added = false) ∨
      ∃ hvs₁ vs vs', hvs.ensureRound vote peerID = some (some hvs₁) ∧
        hvs₁.getVoteSet vote.round vote.type = some vs ∧
        vs.addVote vote = some (vs', added, err) ∧
        hvs' = hvs₁.setVoteSet vote.round vote.type vs' := by
  unfold addVote at h
  split_ifs at h with htype
  · obtain ⟨ensured, hensure, hrest⟩ := bind_eq_some_iff.mp h
    cases ensured with
    | none =>
      simp only [some.injEq, Prod.mk.injEq] at hrest
      exact .inl ⟨hrest.1.symm, hrest.2.1.symm⟩
    | some hvs₁ =>
      obtain ⟨vs, hvs, hset⟩ := bind_eq_some_iff.mp hrest
      obtain ⟨⟨vs', added', err'⟩, hadd, hlast⟩ := bind_eq_some_iff.mp hset
      cases hlast
      exact .inr ⟨hvs₁, vs, vs', hensure, hvs, hadd, rfl⟩
  · simp only [some.injEq, Prod.mk.injEq] at h
    exact .inl ⟨h.1.symm, h.2.1.symm⟩

lemma addVote_extends (h : hvs.addVote vote peerID = some (hvs', added, err)) :
    hvs.Extends hvs' := by
  rcases addVote_cases h with ⟨rfl, -⟩ | ⟨hvs₁, vs, vs', hensure, hget, hadd, rfl⟩
  · exact .refl _
  · obtain ⟨hheight, hmaj, -⟩ := ensureRound_spec hensure
    have hset := setVoteSet_extends hget (VoteSet.addVote_extends hadd)
    exact ⟨hset.height.trans hheight, fun r t x hx => hset.majority r t x (by rwa [hmaj])⟩

lemma Sound.addVote {P : E.Index → Vote → Prop} (hs : hvs.Sound P)
    (hP : ∀ i (vs : VoteSet E), vs.Admits i vote → P i vote)
    (h : hvs.addVote vote peerID = some (hvs', added, err)) : hvs'.Sound P := by
  rcases addVote_cases h with ⟨rfl, -⟩ | ⟨hvs₁, vs, vs', hensure, hget, hadd, rfl⟩
  · exact hs
  · have hs₁ := (ensureRound_spec hensure).2.2 P hs
    obtain ⟨⟨h1, h2, h3⟩, hsound⟩ := hs₁ _ _ vs hget
    refine hs₁.setVoteSet hget (VoteSet.addVote_extends hadd)
      (hsound.addVote (fun i hadm => ?_) hadd)
    exact ⟨⟨hadm.height.trans h1, hadm.round.trans h2, hadm.type.trans h3⟩, hP i vs hadm⟩

end AddVote

lemma setPeerMaj23_extends (hvs : HeightVoteSet E) (r : ℤ) (type : SignedMsgType)
    (peerID : Bytes) (blockID : BlockID) : hvs.Extends (hvs.setPeerMaj23 r type peerID blockID) := by
  unfold setPeerMaj23
  split
  · exact .refl _
  · next vs hget => exact setVoteSet_extends hget (vs.setPeerMaj23_extends ..)

lemma Sound.setPeerMaj23 {P : E.Index → Vote → Prop} (hs : hvs.Sound P) (r : ℤ)
    (type : SignedMsgType) (peerID : Bytes) (blockID : BlockID) :
    (hvs.setPeerMaj23 r type peerID blockID).Sound P := by
  unfold HeightVoteSet.setPeerMaj23
  split
  · exact hs
  · rename_i vs hget
    exact hs.setVoteSet hget (vs.setPeerMaj23_extends ..)
      ((hs r type vs hget).2.setPeerMaj23 peerID blockID)

lemma Sound.mono {P Q : E.Index → Vote → Prop} (hs : hvs.Sound P)
    (hPQ : ∀ i v, P i v → Q i v) : hvs.Sound Q := by
  intro r type vs hget
  refine (hs r type vs hget).imp_right fun h => h.mono fun i v hv => ?_
  exact ⟨hv.1, hPQ i v hv.2⟩

end HeightVoteSet

end ShardingBC.Consensus
