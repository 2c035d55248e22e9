import ShardingBC.HeightVoteSet
import ShardingBC.VoteSetKeys

/-!
# Bookkeeping of the rounds of a height

`HeightVoteSet` over the full tables of its vote sets, in runs of votes, claims of peers and calls
of `SetRound`. Nothing is assumed of the votes or of the keys of block IDs.
-/
namespace ShardingBC.Consensus

open Function List

structure HeightVoteTable (E : Electorate) where
  height : ℤ
  round : ℤ
  roundVoteSets : ℤ → Option (VoteTable E × VoteTable E)
  peerCatchupRounds : Bytes → List ℤ

namespace HeightVoteTable

variable {E : Electorate} (key : BlockID → Bytes)

/-- `addRound`; `none` is the panic for a round that exists, or of `NewVoteSet` at
height 0. -/
def addRound (hvs : HeightVoteTable E) (round : ℤ) : Option (HeightVoteTable E) :=
  if (hvs.roundVoteSets round).isSome ∨ hvs.height = 0 then none
  else some { hvs with
    roundVoteSets := Function.update hvs.roundVoteSets round
      (some (.new hvs.height round .prevote, .new hvs.height round .precommit)) }

def new (height : ℤ) : Option (HeightVoteTable E) :=
  addRound ⟨height, 0, fun _ => none, fun _ => []⟩ 0

/-- The step of the loop in `SetRound`. -/
def fillRound (hvs : HeightVoteTable E) (r : ℤ) : Option (HeightVoteTable E) :=
  if (hvs.roundVoteSets r).isSome then some hvs else hvs.addRound r

def setRound (hvs : HeightVoteTable E) (round : ℤ) : Option (HeightVoteTable E) :=
  if hvs.round ≠ 0 ∧ round < hvs.round + 1 then none
  else
    ((List.range (round - hvs.round).toNat).foldlM
      (fun (h : HeightVoteTable E) (k : ℕ) => h.fillRound (hvs.round + 1 + k)) hvs).map
        fun h => { h with round := round }

/-- `getVoteSet`; the outer `none` is the panic for an unexpected type, the inner one nil. -/
def getVoteSet (hvs : HeightVoteTable E) (round : ℤ) (type : SignedMsgType) :
    Option (Option (VoteTable E)) :=
  match hvs.roundVoteSets round with
  | none => some none
  | some rvs =>
    match type with
    | .prevote => some (some rvs.1)
    | .precommit => some (some rvs.2)
    | _ => none

/-- Writes to the vote set of a round. -/
def setVoteSet (hvs : HeightVoteTable E) (round : ℤ) (type : SignedMsgType) (vs : VoteTable E) :
    HeightVoteTable E :=
  { hvs with
    roundVoteSets := Function.update hvs.roundVoteSets round
      ((hvs.roundVoteSets round).map fun rvs =>
        if type = .prevote then (vs, rvs.2) else (rvs.1, vs)) }

/-- The end of `AddVote`, once there is a vote set. -/
def addVoteTo (hvs : HeightVoteTable E) (vote : Vote) (vs : VoteTable E) :
    Option (HeightVoteTable E × Bool × Option VoteError) :=
  (vs.addVote key vote).map fun result =>
    (hvs.setVoteSet vote.round vote.type result.1, result.2)

/-- `HeightVoteSet.AddVote`; `none` is a panic. -/
def addVote (hvs : HeightVoteTable E) (vote : Vote) (peerID : Bytes) :
    Option (HeightVoteTable E × Bool × Option VoteError) :=
  if ¬ isVoteTypeValid vote.type then some (hvs, false, none)
  else do
    match ← hvs.getVoteSet vote.round vote.type with
    | some vs => hvs.addVoteTo key vote vs
    | none =>
      let rndz := hvs.peerCatchupRounds peerID
      if rndz.length < 2 then do
        let hvs ← hvs.addRound vote.round
        -- a nil vote set would be the panic of `AddVote` on one
        let vs ← (← hvs.getVoteSet vote.round vote.type)
        let hvs := { hvs with
          peerCatchupRounds :=
            Function.update hvs.peerCatchupRounds peerID (rndz ++ [vote.round]) }
        hvs.addVoteTo key vote vs
      else some (hvs, false, some .unwantedRound)

/-- `SetPeerMaj23`; whether there is no error. `none` is a panic. -/
def setPeerMaj23 (hvs : HeightVoteTable E) (round : ℤ) (type : SignedMsgType) (peerID : Bytes)
    (blockID : BlockID) : Option (HeightVoteTable E × Bool) :=
  if ¬ isVoteTypeValid type then some (hvs, false)
  else do
    match ← hvs.getVoteSet round type with
    | none => some (hvs, true)
    | some vs =>
      let result := vs.setPeerMaj23 key peerID blockID
      some (hvs.setVoteSet round type result.1, result.2)

/-- `TwoThirdsMajority` of the prevotes of a round, which may be nil. -/
def prevoteMajority (hvs : HeightVoteTable E) (round : ℤ) : Option BlockID :=
  (hvs.roundVoteSets round).bind fun rvs => rvs.1.maj23

/-- `POLInfo`: from the current round down to round 0. -/
def polInfo (hvs : HeightVoteTable E) : ℤ × BlockID :=
  (((List.range (hvs.round + 1).toNat).reverse.findSome? fun r : ℕ =>
    (hvs.prevoteMajority r).map fun blockID => ((r : ℤ), blockID))).getD (-1, .zero)

end HeightVoteTable

inductive RoundCall where
  | addVote (vote : Vote) (peerID : Bytes)
  | setPeerMaj23 (round : ℤ) (type : SignedMsgType) (peerID : Bytes) (blockID : BlockID)
  | setRound (round : ℤ)

/-- The argument of `SetRound`. -/
def RoundCall.setsRound : RoundCall → Option ℤ
  | .setRound round => some round
  | _ => none

namespace HeightVoteTable

variable {E : Electorate} (key : BlockID → Bytes)

def step (hvs : HeightVoteTable E) : RoundCall → Option (HeightVoteTable E)
  | .addVote vote peerID => (hvs.addVote key vote peerID).map Prod.fst
  | .setPeerMaj23 round type peerID blockID =>
    (hvs.setPeerMaj23 key round type peerID blockID).map Prod.fst
  | .setRound round => hvs.setRound round

/-- Rounds of votes are not negative, and `SetRound` increments the round. -/
def Allowed (hvs : HeightVoteTable E) : RoundCall → Prop
  | .addVote vote _ => 0 ≤ vote.round
  | .setPeerMaj23 .. => True
  | .setRound round => hvs.round < round

/-- The round that a call of the peer has brought into existence. -/
def causedBy (peerID : Bytes) (hvs hvs' : HeightVoteTable E) : RoundCall → List ℤ
  | .addVote vote sender =>
    if sender = peerID ∧ hvs.roundVoteSets vote.round = none ∧
        (hvs'.roundVoteSets vote.round).isSome then [vote.round]
    else []
  | _ => []

/-- The rounds that the peer has brought into existence in a run. -/
def causedRounds (peerID : Bytes) : HeightVoteTable E → List RoundCall → List ℤ
  | _, [] => []
  | hvs, call :: calls =>
    match hvs.step key call with
    | none => []
    | some hvs' => hvs.causedBy peerID hvs' call ++ causedRounds peerID hvs' calls

/-! ## The tables of a round -/

/-- The vote set of the type. -/
def select (rvs : VoteTable E × VoteTable E) (type : SignedMsgType) : VoteTable E :=
  if type = .prevote then rvs.1 else rvs.2

def replace (rvs : VoteTable E × VoteTable E) (type : SignedMsgType) (vs : VoteTable E) :
    VoteTable E × VoteTable E :=
  if type = .prevote then (vs, rvs.2) else (rvs.1, vs)

/-- The vote sets are for the height, the round and the types, and consistent. -/
structure Fits (key : BlockID → Bytes) (height round : ℤ) (rvs : VoteTable E × VoteTable E) :
    Prop where
  prevotes : rvs.1.height = height ∧ rvs.1.round = round ∧ rvs.1.type = .prevote
  precommits : rvs.2.height = height ∧ rvs.2.round = round ∧ rvs.2.type = .precommit
  prevotes_consistent : rvs.1.Consistent key
  precommits_consistent : rvs.2.Consistent key

/-- What holds after any calls that do not panic. -/
structure Wf (key : BlockID → Bytes) (hvs : HeightVoteTable E) : Prop where
  height : hvs.height ≠ 0
  fits : ∀ r rvs, hvs.roundVoteSets r = some rvs → Fits key hvs.height r rvs

variable {key} {hvs hvs' : HeightVoteTable E} {height round : ℤ} {type : SignedMsgType}
  {rvs : VoteTable E × VoteTable E} {vs : VoteTable E} {vote : Vote} {peerID : Bytes}

lemma fits_new (key : BlockID → Bytes) (height round : ℤ) :
    Fits key height round
      ((.new height round .prevote, .new height round .precommit) : VoteTable E × VoteTable E) :=
  ⟨⟨rfl, rfl, rfl⟩, ⟨rfl, rfl, rfl⟩, VoteTable.consistent_new .., VoteTable.consistent_new ..⟩

lemma select_new (htype : isVoteTypeValid type = true) :
    select ((.new height round .prevote, .new height round .precommit) :
      VoteTable E × VoteTable E) type = .new height round type := by
  rcases HeightVoteSet.isVoteTypeValid_cases htype with rfl | rfl <;> rfl

lemma Fits.select (h : Fits key height round rvs) (htype : isVoteTypeValid type = true) :
    (select rvs type).height = height ∧ (HeightVoteTable.select rvs type).round = round ∧
      (HeightVoteTable.select rvs type).type = type := by
  rcases HeightVoteSet.isVoteTypeValid_cases htype with rfl | rfl
  · exact h.prevotes
  · exact h.precommits

lemma Fits.select_consistent (h : Fits key height round rvs) (type : SignedMsgType) :
    (HeightVoteTable.select rvs type).Consistent key := by
  unfold HeightVoteTable.select
  split_ifs
  · exact h.prevotes_consistent
  · exact h.precommits_consistent

lemma Fits.replace (h : Fits key height round rvs)
    (hstep : (HeightVoteTable.select rvs type).SameStep vs) (hvs : vs.Consistent key) :
    Fits key height round (HeightVoteTable.replace rvs type vs) := by
  unfold HeightVoteTable.select at hstep
  unfold HeightVoteTable.replace
  obtain ⟨h1, h2, h3⟩ := hstep
  split_ifs at h1 h2 h3 ⊢
  · obtain ⟨hh, hr, ht⟩ := h.prevotes
    exact ⟨⟨h1.trans hh, h2.trans hr, h3.trans ht⟩, h.precommits, hvs, h.precommits_consistent⟩
  · obtain ⟨hh, hr, ht⟩ := h.precommits
    exact ⟨h.prevotes, ⟨h1.trans hh, h2.trans hr, h3.trans ht⟩, h.prevotes_consistent, hvs⟩

lemma Wf.update (h : hvs.Wf key) (hheight : hvs'.height = hvs.height)
    (hsets : hvs'.roundVoteSets = Function.update hvs.roundVoteSets round (some rvs))
    (hfits : Fits key hvs.height round rvs) : hvs'.Wf key := by
  refine ⟨hheight ▸ h.height, ?_⟩
  rw [hheight, hsets]
  exact forall_update_some hfits h.fits

/-! ## What the calls do -/

lemma getVoteSet_of_some (hr : hvs.roundVoteSets round = some rvs)
    (htype : isVoteTypeValid type = true) :
    hvs.getVoteSet round type = some (some (select rvs type)) := by
  rcases HeightVoteSet.isVoteTypeValid_cases htype with rfl | rfl
  · simp [getVoteSet, hr, select]
  · simp [getVoteSet, hr, select]

lemma getVoteSet_of_none (hr : hvs.roundVoteSets round = none) (type : SignedMsgType) :
    hvs.getVoteSet round type = some none := by
  rw [getVoteSet, hr]

lemma addRound_of_none (h : hvs.Wf key) (hr : hvs.roundVoteSets round = none) :
    hvs.addRound round = some { hvs with
      roundVoteSets := Function.update hvs.roundVoteSets round
        (some (.new hvs.height round .prevote, .new hvs.height round .precommit)) } := by
  unfold addRound
  simp [hr, h.height]

lemma setVoteSet_of_some (hr : hvs.roundVoteSets round = some rvs) :
    hvs.setVoteSet round type vs = { hvs with
      roundVoteSets := Function.update hvs.roundVoteSets round (some (replace rvs type vs)) } := by
  rw [setVoteSet, hr]
  rfl

lemma addVote_of_invalid (htype : isVoteTypeValid vote.type = false) :
    hvs.addVote key vote peerID = some (hvs, false, none) := by
  simp [addVote, htype]

lemma addVote_of_tracked (htype : isVoteTypeValid vote.type = true)
    (hr : hvs.roundVoteSets vote.round = some rvs) :
    hvs.addVote key vote peerID =
      ((select rvs vote.type).addVote key vote).map fun result => ({ hvs with
        roundVoteSets := Function.update hvs.roundVoteSets vote.round
          (some (replace rvs vote.type result.1)) }, result.2) := by
  simp only [addVote, htype, getVoteSet_of_some hr htype, addVoteTo, setVoteSet_of_some hr,
    not_true_eq_false, if_false, Option.bind_eq_bind, Option.bind_some]

lemma addVote_of_untracked (h : hvs.Wf key) (htype : isVoteTypeValid vote.type = true)
    (hr : hvs.roundVoteSets vote.round = none)
    (hfew : (hvs.peerCatchupRounds peerID).length < 2) :
    hvs.addVote key vote peerID =
      ((VoteTable.new hvs.height vote.round vote.type).addVote key vote).map fun result =>
        ({ hvs with
          roundVoteSets := Function.update hvs.roundVoteSets vote.round
            (some (replace (.new hvs.height vote.round .prevote,
              .new hvs.height vote.round .precommit) vote.type result.1))
          peerCatchupRounds := Function.update hvs.peerCatchupRounds peerID
            (hvs.peerCatchupRounds peerID ++ [vote.round]) }, result.2) := by
  simp only [addVote, htype, getVoteSet_of_none hr, addRound_of_none h hr, if_pos hfew,
    Option.bind_eq_bind, Option.bind_some]
  rw [getVoteSet_of_some (update_self ..) htype, select_new htype]
  refine congrArg (fun f => Option.map f _) (funext fun result => ?_)
  rw [setVoteSet_of_some (update_self ..), update_idem]

lemma addVote_of_exhausted (htype : isVoteTypeValid vote.type = true)
    (hr : hvs.roundVoteSets vote.round = none)
    (hmany : ¬ (hvs.peerCatchupRounds peerID).length < 2) :
    hvs.addVote key vote peerID = some (hvs, false, some .unwantedRound) := by
  simp only [addVote, htype, getVoteSet_of_none hr, if_neg hmany, not_true_eq_false, if_false,
    Option.bind_eq_bind, Option.bind_some]

/-- What a call does to the rounds. -/
structure Advances (key : BlockID → Bytes) (hvs : HeightVoteTable E) (call : RoundCall)
    (hvs' : HeightVoteTable E) : Prop where
  wf : hvs'.Wf key
  keeps : ∀ r, (hvs.roundVoteSets r).isSome → (hvs'.roundVoteSets r).isSome
  adds : ∀ r, (hvs'.roundVoteSets r).isSome → (hvs.roundVoteSets r).isSome ∨
    (∃ p, r ∈ hvs.causedBy p hvs' call) ∨ hvs.round < r ∧ r ≤ hvs'.round
  caused : ∀ p, hvs'.peerCatchupRounds p = hvs.peerCatchupRounds p ++ hvs.causedBy p hvs' call
  budget : ∀ p, (hvs.peerCatchupRounds p).length ≤ 2 → (hvs'.peerCatchupRounds p).length ≤ 2
  round : hvs'.round = call.setsRound.getD hvs.round
  fills : ∀ r, hvs.round < r → r ≤ hvs'.round → (hvs'.roundVoteSets r).isSome

lemma isSome_update_iff {f : ℤ → Option (VoteTable E × VoteTable E)} {r : ℤ} :
    (Function.update f round (some rvs) r).isSome ↔ r = round ∨ (f r).isSome := by
  by_cases he : r = round
  · simp [he]
  · simp [he]

variable {call : RoundCall}

/-- A call that changes at most the votes of a round with vote sets. -/
lemma Wf.advances (h : hvs.Wf key) (hr : hvs.roundVoteSets round = some rvs)
    {rvs' : VoteTable E × VoteTable E} (hfits : Fits key hvs.height round rvs')
    (hround : call.setsRound = none) (hcaused : ∀ p hvs', hvs.causedBy p hvs' call = []) :
    hvs.Advances key call { hvs with
      roundVoteSets := Function.update hvs.roundVoteSets round (some rvs') } where
  wf := h.update rfl rfl hfits
  keeps := fun r hsome => isSome_update_iff.mpr (.inr hsome)
  adds := fun r hsome => .inl <| (isSome_update_iff.mp hsome).elim
    (fun he => by rw [he, hr]; rfl) id
  caused := fun p => by rw [hcaused, append_nil]
  budget := fun _ hp => hp
  round := by rw [hround, Option.getD_none]
  fills := fun _ hlt hle => absurd hlt (not_lt.mpr hle)

lemma Wf.advances_refl (h : hvs.Wf key) (hround : call.setsRound = none)
    (hcaused : ∀ p, hvs.causedBy p hvs call = []) : hvs.Advances key call hvs where
  wf := h
  keeps := fun _ hsome => hsome
  adds := fun _ hsome => .inl hsome
  caused := fun p => by rw [hcaused, append_nil]
  budget := fun _ hp => hp
  round := by rw [hround, Option.getD_none]
  fills := fun _ hlt hle => absurd hlt (not_lt.mpr hle)

lemma Wf.advances_new (h : hvs.Wf key) (hr : hvs.roundVoteSets vote.round = none)
    (hfew : (hvs.peerCatchupRounds peerID).length < 2) (hfits : Fits key hvs.height vote.round rvs) :
    hvs.Advances key (.addVote vote peerID) { hvs with
      roundVoteSets := Function.update hvs.roundVoteSets vote.round (some rvs)
      peerCatchupRounds := Function.update hvs.peerCatchupRounds peerID
        (hvs.peerCatchupRounds peerID ++ [vote.round]) } where
  wf := h.update rfl rfl hfits
  keeps := fun r hsome => isSome_update_iff.mpr (.inr hsome)
  adds := by
    intro r hsome
    rcases isSome_update_iff.mp hsome with rfl | hsome
    · exact .inr (.inl ⟨peerID, by simp [causedBy, hr]⟩)
    · exact .inl hsome
  caused := by
    intro p
    by_cases he : p = peerID
    · subst he
      simp [causedBy, hr]
    · simp [causedBy, Function.update_of_ne he, Ne.symm he]
  budget := by
    intro p hp
    by_cases he : p = peerID
    · subst he
      simp only [update_self, length_append, length_singleton]
      omega
    · simpa only [update_of_ne he] using hp
  round := rfl
  fills := fun _ hlt hle => absurd hlt (not_lt.mpr hle)

lemma Wf.addVote (h : hvs.Wf key) {added : Bool} {err : Option VoteError}
    (hadd : hvs.addVote key vote peerID = some (hvs', added, err)) :
    hvs.Advances key (.addVote vote peerID) hvs' := by
  cases htype : isVoteTypeValid vote.type with
  | false =>
    rw [addVote_of_invalid htype] at hadd
    cases hadd
    exact h.advances_refl rfl fun p => by simp [causedBy]
  | true =>
    cases hr : hvs.roundVoteSets vote.round with
    | some rvs =>
      rw [addVote_of_tracked htype hr] at hadd
      obtain ⟨⟨vs, result⟩, hvs', heq⟩ := Option.map_eq_some_iff.mp hadd
      cases heq
      have hfits := h.fits _ _ hr
      refine h.advances hr (hfits.replace (VoteTable.addVote_sameStep hvs')
        ((hfits.select_consistent _).addVote hvs')) rfl fun p hvs' => ?_
      simp [causedBy, hr]
    | none =>
      by_cases hfew : (hvs.peerCatchupRounds peerID).length < 2
      · rw [addVote_of_untracked h htype hr hfew] at hadd
        obtain ⟨⟨vs, result⟩, hvs', heq⟩ := Option.map_eq_some_iff.mp hadd
        cases heq
        refine h.advances_new hr hfew ((fits_new ..).replace ?_ ?_)
        · rw [select_new htype]
          exact VoteTable.addVote_sameStep hvs'
        · exact (VoteTable.consistent_new ..).addVote hvs'
      · rw [addVote_of_exhausted htype hr hfew] at hadd
        cases hadd
        exact h.advances_refl rfl fun p => by simp [causedBy]

lemma Wf.setPeerMaj23 (h : hvs.Wf key) (round : ℤ) (type : SignedMsgType) (peerID : Bytes)
    (blockID : BlockID) : ∃ hvs' ok, hvs.setPeerMaj23 key round type peerID blockID = some (hvs', ok) ∧
      hvs.Advances key (.setPeerMaj23 round type peerID blockID) hvs' := by
  cases htype : isVoteTypeValid type with
  | false =>
    refine ⟨hvs, false, by simp [HeightVoteTable.setPeerMaj23, htype], ?_⟩
    exact h.advances_refl rfl fun p => rfl
  | true =>
    cases hr : hvs.roundVoteSets round with
    | none =>
      refine ⟨hvs, true, ?_, h.advances_refl rfl fun p => rfl⟩
      simp [HeightVoteTable.setPeerMaj23, htype, getVoteSet_of_none hr]
    | some rvs =>
      have hfits := h.fits _ _ hr
      refine ⟨_, ((HeightVoteTable.select rvs type).setPeerMaj23 key peerID blockID).2, ?_,
        h.advances hr (hfits.replace
          (VoteTable.setPeerMaj23_sameStep (HeightVoteTable.select rvs type) peerID blockID)
          ((hfits.select_consistent type).setPeerMaj23 peerID blockID)) rfl fun p hvs' => rfl⟩
      simp only [HeightVoteTable.setPeerMaj23, htype, getVoteSet_of_some hr htype,
        setVoteSet_of_some hr, not_true_eq_false, if_false, Option.bind_eq_bind,
        Option.bind_some]

/-- The vote sets `hvs'` are those of `hvs` and new ones. -/
structure Filled (key : BlockID → Bytes) (hvs : HeightVoteTable E) (rounds : Set ℤ)
    (hvs' : HeightVoteTable E) : Prop where
  wf : hvs'.Wf key
  frame : hvs'.round = hvs.round ∧ hvs'.peerCatchupRounds = hvs.peerCatchupRounds
  sets : ∀ r, (hvs'.roundVoteSets r).isSome ↔ (hvs.roundVoteSets r).isSome ∨ r ∈ rounds

lemma Wf.fillRound (h : hvs.Wf key) (r : ℤ) :
    ∃ hvs', hvs.fillRound r = some hvs' ∧ hvs.Filled key {r} hvs' := by
  unfold HeightVoteTable.fillRound
  split_ifs with hsome
  · refine ⟨hvs, rfl, h, ⟨rfl, rfl⟩, fun k => ⟨.inl, ?_⟩⟩
    rintro (hk | rfl)
    · exact hk
    · exact hsome
  · rw [addRound_of_none h (Option.not_isSome_iff_eq_none.mp hsome)]
    refine ⟨_, rfl, h.update rfl rfl (fits_new ..), ⟨rfl, rfl⟩, fun k => ?_⟩
    rw [isSome_update_iff, or_comm]
    rfl

lemma Wf.fillRounds (h : hvs.Wf key) (base : ℤ) (ks : List ℕ) :
    ∃ hvs', ks.foldlM (fun (h : HeightVoteTable E) (k : ℕ) => h.fillRound (base + k)) hvs =
        some hvs' ∧ hvs.Filled key {r | ∃ k ∈ ks, r = base + k} hvs' := by
  induction ks generalizing hvs with
  | nil => exact ⟨hvs, rfl, h, ⟨rfl, rfl⟩, by simp⟩
  | cons k ks ih =>
    obtain ⟨hvs₁, hfill, h₁⟩ := h.fillRound (base + k)
    obtain ⟨hvs₂, hrest, h₂⟩ := ih h₁.wf
    refine ⟨hvs₂, ?_, h₂.wf, ?_, fun r => ?_⟩
    · rw [foldlM_cons, hfill]
      exact hrest
    · exact ⟨h₂.frame.1.trans h₁.frame.1, h₂.frame.2.trans h₁.frame.2⟩
    · rw [h₂.sets, h₁.sets, or_assoc]
      simp

lemma Wf.setRound (h : hvs.Wf key) {r : ℤ} (hr : ¬ (hvs.round ≠ 0 ∧ r < hvs.round + 1)) :
    ∃ hvs', hvs.setRound r = some hvs' ∧ hvs'.round = r ∧
      hvs.Advances key (.setRound r) hvs' := by
  obtain ⟨hvs₁, hfill, h₁⟩ := h.fillRounds (hvs.round + 1) (range (r - hvs.round).toNat)
  have hsets : ∀ k, (hvs₁.roundVoteSets k).isSome ↔
      (hvs.roundVoteSets k).isSome ∨ hvs.round < k ∧ k ≤ r := by
    intro k
    rw [h₁.sets]
    refine or_congr_right ⟨?_, fun hk => ?_⟩
    · rintro ⟨j, hj, rfl⟩
      rw [mem_range] at hj
      omega
    · refine ⟨(k - hvs.round - 1).toNat, mem_range.mpr ?_, ?_⟩ <;> omega
  refine ⟨{ hvs₁ with round := r }, ?_, rfl, ?_⟩
  · rw [HeightVoteTable.setRound, if_neg hr, hfill]
    rfl
  · exact {
      wf := ⟨h₁.wf.height, h₁.wf.fits⟩
      keeps := fun k hk => (hsets k).mpr (.inl hk)
      adds := fun k hk => ((hsets k).mp hk).imp_right .inr
      caused := fun p => by simp [causedBy, h₁.frame.2]
      budget := fun p hp => by simpa [h₁.frame.2] using hp
      round := rfl
      fills := fun k hk hk' => (hsets k).mpr (.inr ⟨hk, hk'⟩) }

/-- What any call that does not panic does to the rounds. -/
lemma Wf.step (h : hvs.Wf key) (hstep : hvs.step key call = some hvs') :
    hvs.Advances key call hvs' := by
  cases call with
  | addVote vote peerID =>
    obtain ⟨⟨_, added, err⟩, hadd, rfl⟩ := Option.map_eq_some_iff.mp hstep
    exact h.addVote hadd
  | setPeerMaj23 round type peerID blockID =>
    obtain ⟨hvs₁, ok, hset, hadv⟩ := h.setPeerMaj23 round type peerID blockID
    rw [HeightVoteTable.step, hset] at hstep
    exact Option.some.inj hstep ▸ hadv
  | setRound round =>
    rw [HeightVoteTable.step] at hstep
    by_cases hr : hvs.round ≠ 0 ∧ round < hvs.round + 1
    · rw [HeightVoteTable.setRound, if_pos hr] at hstep
      cases hstep
    · obtain ⟨hvs₁, hset, -, hadv⟩ := h.setRound hr
      rw [hset] at hstep
      exact Option.some.inj hstep ▸ hadv

lemma wf_new (hnew : new height = some hvs) : hvs.Wf key := by
  unfold new addRound at hnew
  split_ifs at hnew with hheight
  cases hnew
  have hempty : Wf key (⟨height, 0, fun _ => none, fun _ => []⟩ : HeightVoteTable E) := by
    refine ⟨by simpa using hheight, fun r rvs hr => ?_⟩
    cases hr
  exact hempty.update rfl rfl (fits_new ..)

lemma Wf.run {calls : List RoundCall} (h : hvs.Wf key)
    (hrun : Runs.run (HeightVoteTable.step key) hvs calls = some hvs') : hvs'.Wf key :=
  Runs.invariant (fun _ _ _ h hstep => (Wf.step h hstep).wf) hrun h

/-! ## Panics -/

/-- The vote passes all checks and is new, and its round exists or the peer may add it. -/
def Reaches (key : BlockID → Bytes) (hvs : HeightVoteTable E) (vote : Vote) (peerID : Bytes) :
    Prop :=
  isVoteTypeValid vote.type = true ∧ ∃ i, E.getByIndex vote.validatorIndex = some i ∧
    vote.validatorAddress.length ≠ 0 ∧ E.Admits hvs.height vote.round vote.type i vote ∧
    match hvs.roundVoteSets vote.round with
    | none => (hvs.peerCatchupRounds peerID).length < 2
    | some rvs => (select rvs vote.type).getVote key i (key vote.blockID) = none

lemma Wf.addVote_isSome_iff (h : hvs.Wf key) (vote : Vote) (peerID : Bytes) :
    (hvs.addVote key vote peerID).isSome ↔ (hvs.Reaches key vote peerID → vote.HasShares) := by
  cases htype : isVoteTypeValid vote.type with
  | false => simp [addVote_of_invalid htype, Reaches, htype]
  | true =>
    cases hr : hvs.roundVoteSets vote.round with
    | some rvs =>
      obtain ⟨h1, h2, h3⟩ := (h.fits _ _ hr).select htype
      rw [addVote_of_tracked htype hr, Option.isSome_map, VoteTable.addVote_isSome_iff]
      refine imp_congr_left ⟨?_, ?_⟩
      · rintro ⟨i, hi⟩
        have hadmits := hi.admits
        rw [h1, h2, h3] at hadmits
        exact ⟨htype, i, hi.index, hi.address, hadmits, by rw [hr]; exact hi.fresh⟩
      · rintro ⟨-, i, hindex, haddr, hadmits, hfresh⟩
        rw [hr] at hfresh
        exact ⟨i, hindex, haddr, by rw [h1, h2, h3]; exact hadmits, hfresh⟩
    | none =>
      by_cases hfew : (hvs.peerCatchupRounds peerID).length < 2
      · rw [addVote_of_untracked h htype hr hfew, Option.isSome_map,
          VoteTable.addVote_isSome_iff]
        refine imp_congr_left ⟨?_, ?_⟩
        · rintro ⟨i, hi⟩
          exact ⟨htype, i, hi.index, hi.address, hi.admits, by rw [hr]; exact hfew⟩
        · rintro ⟨-, i, hindex, haddr, hadmits, -⟩
          exact ⟨i, hindex, haddr, hadmits, rfl⟩
      · rw [addVote_of_exhausted htype hr hfew]
        refine iff_of_true rfl ?_
        rintro ⟨-, i, -, -, -, hcatchup⟩
        rw [hr] at hcatchup
        exact absurd hcatchup hfew

/-- After any calls, a vote makes `AddVote` panic exactly if it passes all checks without the
shares that a prevote has to have. -/
theorem addVote_returns_iff (key : BlockID → Bytes) {hvs hvs' : HeightVoteTable E}
    {calls : List RoundCall} (hnew : new height = some hvs)
    (hrun : Runs.run (HeightVoteTable.step key) hvs calls = some hvs') (vote : Vote)
    (peerID : Bytes) :
    (hvs'.addVote key vote peerID).isSome ↔
      (hvs'.Reaches key vote peerID → vote.HasShares) :=
  ((wf_new hnew).run hrun).addVote_isSome_iff vote peerID

/-- The prevote of the validator for no block. -/
def nilPrevote (round : ℤ) (share : Option PartSig) : Vote :=
  ⟨.prevote, 1, round, .zero, 0, List.replicate 20 1, 0, [1], share, share⟩

def loneStart : HeightVoteTable VoteTable.loneVoter :=
  ⟨1, 0, Function.update (fun _ => none) 0 (some (.new 1 0 .prevote, .new 1 0 .precommit)),
    fun _ => []⟩

theorem prevote_with_shares_returns :
    new 1 = some loneStart ∧ (nilPrevote 0 (some ⟨[], 1⟩)).validateBasic = true ∧
      (loneStart.addVote BlockID.key (nilPrevote 0 (some ⟨[], 1⟩)) [7]).isSome := by
  have hnew : new 1 = some loneStart := rfl
  have hrun : Runs.run (HeightVoteTable.step BlockID.key) loneStart [] = some loneStart := rfl
  refine ⟨hnew, by decide +kernel, ?_⟩
  refine (addVote_returns_iff BlockID.key hnew hrun _ _).mpr fun _ _ => ?_
  exact ⟨⟨[], 1⟩, rfl, fun _ => rfl⟩

/-- A validated prevote without shares, as the first vote of the height. -/
theorem prevote_without_shares_panics :
    new 1 = some loneStart ∧ (nilPrevote 0 none).validateBasic = true ∧
      loneStart.addVote BlockID.key (nilPrevote 0 none) [7] = none := by
  refine ⟨rfl, by decide +kernel, ?_⟩
  decide +kernel

/-! ## Proofs of lock -/

/-- Prevotes of the round for one block have more than two thirds of the power. -/
def HasPolka (hvs : HeightVoteTable E) (r : ℤ) : Prop :=
  ∃ rvs k bt, hvs.roundVoteSets r = some rvs ∧ rvs.1.votesByBlock k = some bt ∧
    E.quorum ≤ VoteTable.tally bt.votes

/-- The block has the majority of the round, and no later round has one. -/
structure LastPolka (key : BlockID → Bytes) (hvs : HeightVoteTable E) (r : ℤ) (x : BlockID) :
    Prop where
  nonneg : 0 ≤ r
  le : r ≤ hvs.round
  majority : ∃ rvs bt, hvs.roundVoteSets r = some rvs ∧ rvs.1.maj23 = some x ∧
    rvs.1.votesByBlock (key x) = some bt ∧ E.quorum ≤ VoteTable.tally bt.votes
  last : ∀ r', r < r' → r' ≤ hvs.round → ¬ hvs.HasPolka r'

lemma Wf.prevoteMajority_eq_none (h : hvs.Wf key) {r : ℤ} (hnone : hvs.prevoteMajority r = none) :
    ¬ hvs.HasPolka r := by
  rintro ⟨rvs, k, bt, hr, hbt, hq⟩
  have hconsistent := (h.fits r rvs hr).prevotes_consistent
  rw [prevoteMajority, hr] at hnone
  have hsmall := hconsistent.small hnone k bt hbt
  rw [(hconsistent.counts k bt hbt).sum] at hsmall
  exact absurd hsmall (not_lt.mpr hq)

lemma Wf.prevoteMajority_eq_some (h : hvs.Wf key) {r : ℤ} {x : BlockID}
    (hsome : hvs.prevoteMajority r = some x) :
    ∃ rvs bt, hvs.roundVoteSets r = some rvs ∧ rvs.1.maj23 = some x ∧
      rvs.1.votesByBlock (key x) = some bt ∧ E.quorum ≤ VoteTable.tally bt.votes := by
  obtain ⟨rvs, hr, hmaj⟩ := Option.bind_eq_some_iff.mp hsome
  have hconsistent := (h.fits r rvs hr).prevotes_consistent
  obtain ⟨bt, hbt, hq⟩ := hconsistent.quorum x hmaj
  rw [(hconsistent.counts _ bt hbt).sum] at hq
  exact ⟨rvs, bt, hr, hmaj, hbt, hq⟩

/-- A search from the last number down. -/
lemma findSome_reverse_range {β : Type*} (f : ℕ → Option β) (n : ℕ) :
    (∃ r y, (List.range n).reverse.findSome? f = some y ∧ r < n ∧ f r = some y ∧
      ∀ r', r < r' → r' < n → f r' = none) ∨
    (List.range n).reverse.findSome? f = none ∧ ∀ r < n, f r = none := by
  cases hsearch : (range n).reverse.findSome? f with
  | none => exact .inr ⟨rfl, fun r hr => findSome?_eq_none_iff.mp hsearch r (by simpa using hr)⟩
  | some y =>
    obtain ⟨above, r, below, hsplit, hfr, hnone⟩ := findSome?_eq_some_iff.mp hsearch
    have hmem : ∀ r', r' < n ↔ r' ∈ above ++ r :: below := by simp [← hsplit]
    have hdown : (above ++ r :: below).Pairwise (· > ·) := by
      rw [← hsplit]
      exact pairwise_reverse.mpr pairwise_lt_range
    refine .inl ⟨r, y, rfl, (hmem r).mpr (by simp), hfr, fun r' hr hn => hnone r' ?_⟩
    rcases mem_append.mp ((hmem r').mp hn) with habove | hrest
    · exact habove
    · rcases mem_cons.mp hrest with rfl | hbelow
      · omega
      · have := (pairwise_cons.mp (pairwise_append.mp hdown).2.1).1 r' hbelow
        omega

lemma Wf.polInfo (h : hvs.Wf key)
    (hnonneg : ∀ r, (hvs.roundVoteSets r).isSome → 0 ≤ r) :
    (∃ r x, hvs.polInfo = (r, x) ∧ hvs.LastPolka key r x) ∨
      hvs.polInfo = (-1, .zero) ∧ ∀ r ≤ hvs.round, ¬ hvs.HasPolka r := by
  have hnoPolka : ∀ r : ℤ, (0 ≤ r → hvs.prevoteMajority r = none) → ¬ hvs.HasPolka r := by
    rintro r hr hpolka
    obtain ⟨rvs, -, -, hrvs, -⟩ := id hpolka
    have hpos : 0 ≤ r := hnonneg r (by rw [hrvs]; rfl)
    exact h.prevoteMajority_eq_none (hr hpos) hpolka
  unfold HeightVoteTable.polInfo
  rcases findSome_reverse_range (fun r : ℕ => (hvs.prevoteMajority r).map fun blockID =>
      ((r : ℤ), blockID)) (hvs.round + 1).toNat with ⟨r, y, hy, hr, hfr, habove⟩ | ⟨hnone, hall⟩
  · obtain ⟨x, hx, rfl⟩ := Option.map_eq_some_iff.mp hfr
    refine .inl ⟨r, x, by rw [hy]; rfl, by omega, by omega, h.prevoteMajority_eq_some hx, ?_⟩
    intro r' hlt hle
    refine hnoPolka r' fun hpos => ?_
    have := habove r'.toNat (by omega) (by omega)
    rwa [Int.toNat_of_nonneg hpos, Option.map_eq_none_iff] at this
  · refine .inr ⟨by rw [hnone]; rfl, fun r' hle => hnoPolka r' fun hpos => ?_⟩
    have := hall r'.toNat (by omega)
    rwa [Int.toNat_of_nonneg hpos, Option.map_eq_none_iff] at this

/-! ## Bookkeeping -/

/-- The rounds that exist and what the peers have used of their budgets. -/
structure Booked (key : BlockID → Bytes) (caused : Bytes → List ℤ) (hvs : HeightVoteTable E) :
    Prop where
  wf : hvs.Wf key
  nonneg : 0 ≤ hvs.round
  tracked : ∀ r, 0 ≤ r → r ≤ hvs.round → (hvs.roundVoteSets r).isSome
  known : ∀ r, (hvs.roundVoteSets r).isSome → 0 ≤ r ∧ (r ≤ hvs.round ∨ ∃ p, r ∈ caused p)
  caused : ∀ p, hvs.peerCatchupRounds p = caused p
  budget : ∀ p, (hvs.peerCatchupRounds p).length ≤ 2

lemma booked_new (hnew : new height = some hvs) : hvs.Booked key fun _ => [] := by
  have hwf : hvs.Wf key := wf_new hnew
  unfold new addRound at hnew
  split_ifs at hnew
  cases hnew
  refine ⟨hwf, le_rfl, fun r h1 h2 => ?_, fun r hr => ?_, fun _ => rfl, fun _ => by simp⟩
  · exact isSome_update_iff.mpr (.inl (le_antisymm h2 h1))
  · rcases isSome_update_iff.mp hr with rfl | hr
    · exact ⟨le_rfl, .inl le_rfl⟩
    · cases hr

variable {caused : Bytes → List ℤ}

lemma Booked.step (h : hvs.Booked key caused)
    (hallowed : hvs.Allowed call) (hstep : hvs.step key call = some hvs') :
    hvs'.Booked key fun p => caused p ++ hvs.causedBy p hvs' call := by
  have hadv := h.wf.step hstep
  have hround : hvs.round ≤ hvs'.round := by
    rw [hadv.round]
    cases call with
    | setRound round => exact le_of_lt hallowed
    | addVote => exact le_rfl
    | setPeerMaj23 => exact le_rfl
  have hcausedNonneg : ∀ p r, r ∈ hvs.causedBy p hvs' call → 0 ≤ r := by
    intro p r hr
    cases call with
    | addVote vote peerID =>
      simp only [causedBy] at hr
      split_ifs at hr
      · obtain rfl := mem_singleton.mp hr
        exact hallowed
      · cases hr
    | setPeerMaj23 => cases hr
    | setRound => cases hr
  refine ⟨hadv.wf, h.nonneg.trans hround, fun r h1 h2 => ?_, fun r hr => ?_, fun p => ?_,
    fun p => hadv.budget p (h.budget p)⟩
  · by_cases hle : r ≤ hvs.round
    · exact hadv.keeps r (h.tracked r h1 hle)
    · exact hadv.fills r (by omega) h2
  · rcases hadv.adds r hr with hold | ⟨p, hp⟩ | ⟨h1, h2⟩
    · obtain ⟨hpos, hle | ⟨p, hp⟩⟩ := h.known r hold
      · exact ⟨hpos, .inl (hle.trans hround)⟩
      · exact ⟨hpos, .inr ⟨p, mem_append_left _ hp⟩⟩
    · exact ⟨hcausedNonneg p r hp, .inr ⟨p, mem_append_right _ hp⟩⟩
    · exact ⟨by have := h.nonneg; omega, .inl h2⟩
  · rw [hadv.caused p, h.caused p]

lemma Booked.run {calls : List RoundCall} (h : hvs.Booked key caused)
    (hallowed : Runs.Guarded (HeightVoteTable.step key) Allowed hvs calls)
    (hrun : Runs.run (HeightVoteTable.step key) hvs calls = some hvs') :
    hvs'.Booked key fun p => caused p ++ hvs.causedRounds key p calls := by
  induction calls generalizing hvs caused with
  | nil =>
    cases hrun
    simpa only [causedRounds, append_nil] using h
  | cons call calls ih =>
    obtain ⟨hvs₁, hstep, hrest⟩ := Runs.run_cons.mp hrun
    have h' := ih (h.step hallowed.1 hstep) (hallowed.2 hvs₁ hstep) hrest
    simpa only [causedRounds, hstep, append_assoc] using h'

lemma Wf.round_of_run {calls : List RoundCall} (h : hvs.Wf key)
    (hrun : Runs.run (HeightVoteTable.step key) hvs calls = some hvs') :
    hvs'.round = (calls.filterMap RoundCall.setsRound).getLast?.getD hvs.round := by
  induction calls generalizing hvs with
  | nil =>
    cases hrun
    rfl
  | cons call calls ih =>
    obtain ⟨hvs₁, hstep, hrest⟩ := Runs.run_cons.mp hrun
    have hadv := h.step hstep
    rw [ih hadv.wf hrest, hadv.round]
    cases hset : call.setsRound with
    | none => rw [filterMap_cons_none hset, Option.getD_none]
    | some r => rw [filterMap_cons_some hset, getLast?_cons, Option.getD_some, Option.getD_some]

/-- The only panic left is that of a vote without its shares. -/
lemma Booked.step_eq_none
    (h : hvs.Booked key caused) (hallowed : hvs.Allowed call) (hnone : hvs.step key call = none) :
    ∃ vote peerID, call = .addVote vote peerID ∧ hvs.Reaches key vote peerID ∧
      ¬ vote.HasShares := by
  cases call with
  | addVote vote peerID =>
    refine ⟨vote, peerID, rfl, ?_⟩
    have hiff := h.wf.addVote_isSome_iff vote peerID
    rw [Option.map_eq_none_iff.mp hnone] at hiff
    exact Classical.not_imp.mp (hiff.not.mp (by simp))
  | setPeerMaj23 round type peerID blockID =>
    obtain ⟨hvs₁, ok, hset, -⟩ := h.wf.setPeerMaj23 round type peerID blockID
    rw [HeightVoteTable.step, hset] at hnone
    cases hnone
  | setRound round =>
    have hlt : hvs.round < round := hallowed
    obtain ⟨hvs₁, hset, -⟩ := h.wf.setRound (r := round) (by omega)
    rw [HeightVoteTable.step, hset] at hnone
    cases hnone

/-- The rounds of a height after any calls, with `SetRound` called for increasing rounds. -/
theorem rounds_bookkept (key : BlockID → Bytes) {hvs hvs' : HeightVoteTable E}
    {calls : List RoundCall} (hnew : new height = some hvs)
    (hallowed : Runs.Guarded (HeightVoteTable.step key) Allowed hvs calls)
    (hrun : Runs.run (HeightVoteTable.step key) hvs calls = some hvs') :
    hvs'.round = (calls.filterMap RoundCall.setsRound).getLast?.getD 0 ∧
    (∀ r, 0 ≤ r → r ≤ hvs'.round → (hvs'.roundVoteSets r).isSome) ∧
    (∀ r, (hvs'.roundVoteSets r).isSome →
      0 ≤ r ∧ (r ≤ hvs'.round ∨ ∃ p, r ∈ hvs.causedRounds key p calls)) ∧
    (∀ p, (hvs.causedRounds key p calls).length ≤ 2) ∧
    (∀ vote p, isVoteTypeValid vote.type = true → hvs'.roundVoteSets vote.round = none →
      (hvs.causedRounds key p calls).length = 2 →
        hvs'.addVote key vote p = some (hvs', false, some .unwantedRound)) ∧
    (∀ call, hvs'.Allowed call → hvs'.step key call = none → ∃ vote peerID,
      call = .addVote vote peerID ∧ hvs'.Reaches key vote peerID ∧ ¬ vote.HasShares) ∧
    ((∃ r x, hvs'.polInfo = (r, x) ∧ hvs'.LastPolka key r x) ∨
      hvs'.polInfo = (-1, .zero) ∧ ∀ r ≤ hvs'.round, ¬ hvs'.HasPolka r) := by
  have hstart : hvs.round = 0 := by
    unfold new addRound at hnew
    split_ifs at hnew
    cases hnew
    rfl
  have h := (booked_new hnew).run hallowed hrun
  simp only [nil_append] at h
  refine ⟨hstart ▸ (wf_new hnew).round_of_run hrun, h.tracked, h.known, fun p => h.caused p ▸ h.budget p, ?_,
    fun call => h.step_eq_none, h.wf.polInfo fun r hr => (h.known r hr).1⟩
  intro vote p htype hr hused
  refine addVote_of_exhausted htype hr ?_
  rw [h.caused p]
  omega

/-- The peer has votes for rounds 0, 5, 7 and 9. -/
def catchupCalls : List RoundCall :=
  .setRound 1 :: [0, 5, 7, 9].map fun r => .addVote (nilPrevote r (some ⟨[], 1⟩)) [7]

theorem catchup_calls_bookkept :
    ∃ hvs : HeightVoteTable VoteTable.loneVoter,
      Runs.run (HeightVoteTable.step BlockID.key) loneStart catchupCalls = some hvs ∧
      loneStart.causedRounds BlockID.key [7] catchupCalls = [5, 7] ∧
      hvs.addVote BlockID.key (nilPrevote 9 none) [7] = some (hvs, false, some .unwantedRound) ∧
      hvs.polInfo = (0, .zero) := by
  obtain ⟨hvs, hrun, hround⟩ : ∃ hvs,
      Runs.run (HeightVoteTable.step BlockID.key) loneStart catchupCalls = some hvs ∧
        (hvs.roundVoteSets 9).isNone ∧ hvs.polInfo = (0, .zero) :=
    Runs.exists_of_any (by decide +kernel)
  have hallowed : Runs.Guarded (HeightVoteTable.step BlockID.key) Allowed loneStart catchupCalls := by
    refine ⟨?_, fun _ _ => ⟨?_, fun _ _ => ⟨?_, fun _ _ => ⟨?_, fun _ _ => ⟨?_, fun _ _ => ?_⟩⟩⟩⟩⟩
    all_goals simp [Allowed, loneStart, nilPrevote, Runs.Guarded]
  have hnew : new 1 = some loneStart := rfl
  obtain ⟨-, -, -, -, hreject, -⟩ := rounds_bookkept BlockID.key hnew hallowed hrun
  refine ⟨hvs, hrun, by decide +kernel, ?_, hround.2⟩
  exact hreject _ _ rfl (Option.isNone_iff_eq_none.mp hround.1) (by rfl)

end HeightVoteTable

end ShardingBC.Consensus
