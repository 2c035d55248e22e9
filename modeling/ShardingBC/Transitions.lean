import ShardingBC.SignCalls

/-!
# What an event can do

Every event takes a node along a path of small changes and of calls of `signAddVote`.
The locks, the rounds and what a node signs and saves are read off such paths.
-/
namespace ShardingBC.Consensus

open Logged Option

variable {E : Electorate} {β : Type}

lemma RoundStep.le_of_not_le {s s' : RoundStep} (h : ¬ s' ≤ s) : s ≤ s' :=
  (Nat.lt_of_not_le h).le

/-- The step a vote of a type is cast at. -/
def SignedMsgType.step : SignedMsgType → ℕ
  | .prevote => RoundStep.prevote.toUint8
  | .precommit => RoundStep.precommit.toUint8
  | _ => 0

/-- What entering a round or a step before the commit leaves alone. -/
structure Advances (n n' : Node E β) : Prop where
  height : n'.height = n.height
  round : n.round ≤ n'.round
  majority : n'.votes.majority = n.votes.majority
  commit : n'.step = .commit → n.step = .commit

lemma Advances.trans {n n' n'' : Node E β} (h : Advances n n') (h' : Advances n' n'') :
    Advances n n'' :=
  ⟨h'.height.trans h.height, h.round.trans h'.round, h'.majority.trans h.majority,
    fun hc => h.commit (h'.commit hc)⟩

namespace Node

/-- The polka of a round, if there is one. -/
abbrev polka (n : Node E β) (r : ℤ) : Option BlockID := n.votes.majority r .prevote

variable {cfg : Config E β} {n n' : Node E β} {height : ℤ}

lemma hashesTo_iff {b : Option β} {h : Bytes} :
    hashesTo cfg b h = true ↔ h ≠ [] ∧ ∃ b', b = some b' ∧ cfg.hash b' = h := by
  unfold hashesTo
  split_ifs with hnil
  · simp [hnil]
  · cases b <;> simp [hnil]

lemma sigCrossMerkleRoot_fields {sign : Bytes → Option Bytes} {root blockhash : Bytes}
    {vote vote' : Vote} (h : (sigCrossMerkleRoot sign root blockhash vote).1 = some vote') :
    vote'.type = vote.type ∧ vote'.height = vote.height ∧ vote'.round = vote.round ∧
      vote'.blockID = vote.blockID := by
  unfold sigCrossMerkleRoot at h
  split at h
  · cases h
    exact ⟨rfl, rfl, rfl, rfl⟩
  · split at h
    · cases h
    · dsimp only at h
      split at h
      · cases h
        exact ⟨rfl, rfl, rfl, rfl⟩
      · split at h
        · cases h
        · cases h
          exact ⟨rfl, rfl, rfl, rfl⟩

/-- At most one vote is signed, of the current height and round, and beyond all
others. -/
def Signs (n n' : Node E β) (type : SignedMsgType) (blockID : BlockID) : Prop :=
  n' = n ∨ ∃ v : Vote, n' = { n with signed := v :: n.signed } ∧ v.type = type ∧
    v.height = n.height ∧ v.round = n.round ∧ v.blockID = blockID ∧
    ∀ w ∈ n.signed, placeOf w < placeOf v

variable (cfg) in
lemma signVote_signs (n : Node E β) (vote : Vote) (hheight : vote.height = n.height)
    (hround : vote.round = n.round) :
    Signs n (n.signVote cfg vote) vote.type vote.blockID := by
  unfold signVote
  split_ifs with hlater
  · split
    · exact .inl rfl
    · exact .inr ⟨_, rfl, rfl, hheight, hround, rfl, hlater⟩
  · exact .inl rfl

lemma signAddVote_signs {type : SignedMsgType} {h : Bytes} {header : PartSetHeader}
    (hrun : n.signAddVote cfg type h header = some n') : Signs n n' type ⟨h, header⟩ := by
  unfold signAddVote at hrun
  split at hrun
  · exact .inl (some.inj hrun).symm
  · split_ifs at hrun with hprevote
    · obtain ⟨b, -, hrest⟩ := bind_eq_some_iff.mp hrun
      obtain ⟨vote, hvote, hlast⟩ := bind_eq_some_iff.mp hrest
      obtain ⟨h1, h2, h3, h4⟩ := sigCrossMerkleRoot_fields hvote
      cases hlast
      have := signVote_signs cfg n vote h2 h3
      rwa [h1, h4] at this
    · cases hrun
      exact signVote_signs cfg n _ rfl rfl

/-! ## The end of a height -/

/-- Saved blocks have a majority of precommits, or the node halts. -/
def Stores (n n' : Node E β) : Prop :=
  ∃ storeHeight saved halted,
    n' = { n with storeHeight := storeHeight, saved := saved, halted := halted } ∧
    ∀ e ∈ saved, e ∈ n.saved ∨ e.2.hash ≠ [] ∧ ∃ r, n.votes.majority r .precommit = some e.2

lemma Stores.refl (n : Node E β) : n.Stores n := ⟨_, _, _, rfl, fun _ he => .inl he⟩

lemma finalizeCommit_cases (hrun : n.finalizeCommit cfg height = some n') :
    n.Stores n' ∨ ∃ n₁, n.Stores n₁ ∧ n₁.updateToState = some n' := by
  unfold finalizeCommit at hrun
  split_ifs at hrun
  · cases hrun
    exact .inl (.refl n)
  · split at hrun
    · next blockID b ps hmaj hb hps =>
      split_ifs at hrun with hmatch
      push Not at hmatch
      obtain ⟨hne, b', hb', hhash⟩ := hashesTo_iff.mp (by simpa using hmatch.2)
      cases hb'
      obtain ⟨n₁, hsave, hrest⟩ := bind_eq_some_iff.mp hrun
      obtain ⟨storeHeight, saved, halted, rfl, hsaved⟩ : n.Stores n₁ := by
        unfold saveBlock at hsave
        split_ifs at hsave
        · cases hsave
          exact .refl n
        · cases hsave
          refine ⟨_, _, _, rfl, List.forall_mem_cons.mpr ⟨.inr ⟨hhash ▸ hne, n.commitRound, ?_⟩,
            fun _ he => .inl he⟩⟩
          rw [hmaj, hhash, hmatch.1]
      split_ifs at hrest
      · cases hrest
        exact .inl ⟨storeHeight, saved, true, rfl, hsaved⟩
      · cases hrest
        cases hup : Node.updateToState _ with
        | none => exact .inl ⟨storeHeight, saved, true, rfl, hsaved⟩
        | some n₂ => exact .inr ⟨_, ⟨storeHeight, saved, halted, rfl, hsaved⟩, hup⟩
    · cases hrun

lemma tryFinalizeCommit_cases (hrun : n.tryFinalizeCommit cfg height = some n') :
    n.height = height ∧ (n.Stores n' ∨ ∃ n₁, n.Stores n₁ ∧ n₁.updateToState = some n') := by
  unfold tryFinalizeCommit at hrun
  split_ifs at hrun with hheight
  refine ⟨not_not.mp hheight, ?_⟩
  split at hrun
  · cases hrun
    exact .inl (.refl n)
  · split_ifs at hrun
    · cases hrun
      exact .inl (.refl n)
    · exact finalizeCommit_cases hrun

/-- The state of `updateToState` before the next round is scheduled. -/
def nextHeight (n : Node E β) (votes : HeightVoteSet E) : Node E β :=
  { n with
    height := n.height + 1, round := 0, step := .newHeight
    proposal := none, proposalBlock := none, proposalBlockParts := none
    lockedRound := -1, lockedBlock := none, lockedBlockParts := none
    lockedIsProposal := false, lockedPartsAreProposal := false
    validRound := -1, votes := votes, commitRound := -1
    lastCommit := n.votes.precommits n.commitRound
    triggeredTimeoutPrecommit := false }

lemma updateToState_eq (hup : n.updateToState = some n') :
    ∃ votes, HeightVoteSet.new (n.height + 1) = some votes ∧
      n' = (n.nextHeight votes).scheduleTimeout (n.height + 1) 0 .newHeight := by
  obtain ⟨votes, hnew, hlast⟩ := bind_eq_some_iff.mp hup
  exact ⟨votes, hnew, (some.inj hlast).symm⟩

/-- The vote sets of the height once an event has been taken in. -/
def votesAfter (n : Node E β) : Event β → Option (HeightVoteSet E)
  | .vote vote peerID _ =>
    if vote.height = n.height then (n.votes.addVote vote peerID).map Prod.fst else some n.votes
  | .peerMaj23 height round type peerID blockID =>
    some (if height = n.height then n.votes.setPeerMaj23 round type peerID blockID else n.votes)
  | _ => some n.votes

end Node

namespace Recorded

open Consensus.Node (hashesTo PartResult)

/-! ## Changes and calls -/

/-- The current round, or a later one that a timeout was set for. -/
def Due (m : Recorded E β) (round : ℤ) : Prop :=
  m.round ≤ round ∧ (round ≤ m.round ∨ ∃ t ∈ m.timeouts, t.height = m.height ∧ t.round = round)

/-- The set of parts is not that of the proposal block. -/
def Loose (cfg : Config E β) (m : Recorded E β) : Prop :=
  ∀ b, m.proposalBlock = some b → m.proposalBlockParts = none ∨ ∃ r z, m.polka r = some z ∧
    z.hash ≠ [] ∧ cfg.hash b = z.hash ∧ ¬ hasHeader m.proposalBlockParts z.partsHeader

/-- A change at one height and before its commit. -/
inductive Stays (cfg : Config E β) : Recorded E β → Recorded E β → Prop
  | enter (m : Recorded E β) {round : ℤ} {step : RoundStep}
      (later : m.round < round ∨ m.round = round ∧ m.step ≤ step) (hstep : step ≠ .commit) :
      Stays cfg m { m with round := round, step := step }
  | schedule (m : Recorded E β) (step : RoundStep) :
      Stays cfg m (m.withNode (m.toNode.scheduleTimeout m.height m.round step))
  | trigger (m : Recorded E β) (b : Bool) :
      Stays cfg m { m with triggeredTimeoutPrecommit := b }
  | forget (m : Recorded E β) : Stays cfg m { m with proposal := none }
  | tally (m : Recorded E β) {votes : HeightVoteSet E} (hmaj : votes.majority = m.votes.majority)
      (hsound : ∀ P, m.votes.Sound P → votes.Sound P) : Stays cfg m { m with votes := votes }
  | drop (m : Recorded E β) : Stays cfg m m.dropProposalBlock
  | await (m : Recorded E β) (ps : Option PartSet) (hloose : Loose cfg m) :
      Stays cfg m (m.setProposalBlockParts ps)
  | unlock (m : Recorded E β) {r : ℤ} {z : BlockID} (hz : m.polka r = some z)
      (hother : ¬ hashesTo cfg m.lockedBlock z.hash = true)
      (hlater : m.lockedRound < r ∧ r ≤ m.round ∨ m.Due r) : Stays cfg m m.unlock
  | relock (m : Recorded E β) {round : ℤ} {z : BlockID} (hz : m.polka round = some z)
      (hhash : hashesTo cfg m.lockedBlock z.hash = true) (hdue : m.Due round) :
      Stays cfg m { m with lockedRound := round }
  | lock (m : Recorded E β) {round : ℤ} {z : BlockID} (hz : m.polka round = some z)
      (hother : ¬ hashesTo cfg m.lockedBlock z.hash = true)
      (hhash : hashesTo cfg m.proposalBlock z.hash = true) (hdue : m.Due round) :
      Stays cfg m { m with
        lockedRound := round
        lockedBlock := m.proposalBlock
        lockedBlockParts := m.proposalBlockParts
        lockedIsProposal := true
        lockedPartsAreProposal := true
        validIsLocked := m.validIsProposal }
  | validate (m : Recorded E β) {z : BlockID} (hz : m.polka m.round = some z)
      (hhash : hashesTo cfg m.proposalBlock z.hash = true) : Stays cfg m m.setValid
  | select (m : Recorded E β) {h : Bytes} (hhash : hashesTo cfg m.lockedBlock h = true) :
      Stays cfg m { m with
        proposalBlock := m.lockedBlock, proposalBlockParts := m.lockedBlockParts
        lockedIsProposal := true, lockedPartsAreProposal := true
        validIsProposal := m.validIsLocked }

/-- A change by an event that comes in at a height. Part sets are completed as far as they
may be. -/
inductive Change (cfg : Config E β) (may : Recorded E β → PartSet → β → Prop) (height : ℤ) :
    Recorded E β → Recorded E β → Prop
  | stays {m m' : Recorded E β} (h : Stays cfg m m') : Change cfg may height m m'
  | propose (m : Recorded E β) (p : Proposal) (hheight : m.height = height) :
      Change cfg may height m { m with proposal := some p }
  | complete (m : Recorded E β) {ps : PartSet} {b : β} (hps : m.proposalBlockParts = some ps)
      (hincomplete : ps.complete = false) (hmay : may m ps b) :
      Change cfg may height m (m.completeProposalBlock ps b)
  | addLast (m : Recorded E β) (lastCommit : VoteSet E) :
      Change cfg may height m { m with lastCommit := some lastCommit }
  | commit (m : Recorded E β) (commitRound : ℤ) (hstep : m.step ≤ .commit) :
      Change cfg may height m { m with step := .commit, commitRound := commitRound }
  | store (m : Recorded E β) {n : Node E β} (hheight : m.height = height)
      (hstores : m.toNode.Stores n) : Change cfg may height m (m.withNode n)
  | next (m : Recorded E β) {votes : HeightVoteSet E}
      (hnew : HeightVoteSet.new (m.height + 1) = some votes) :
      Change cfg may height m ⟨m.toNode.nextHeight votes, none, false, false⟩

/-- What a vote is for, and the step it is cast at. -/
inductive Chosen (cfg : Config E β) (m : Recorded E β) (round : ℤ) :
    SignedMsgType → RoundStep → BlockID → Prop
  | locked {b : β} (hb : m.lockedBlock = some b) :
      Chosen cfg m round .prevote .prevote ⟨cfg.hash b, headerOf m.lockedBlockParts⟩
  | proposal {b : β} (hnone : m.lockedBlock = none) (hb : m.proposalBlock = some b) :
      Chosen cfg m round .prevote .prevote ⟨cfg.hash b, headerOf m.proposalBlockParts⟩
  | nothing (hnone : m.lockedBlock = none) : Chosen cfg m round .prevote .prevote ⟨[], .zero⟩
  | polka {z : BlockID} (hz : m.polka round = some z) (hround : m.lockedRound = round)
      (hhash : hashesTo cfg m.lockedBlock z.hash = true) :
      Chosen cfg m round .precommit .precommit z
  | noPolka : Chosen cfg m round .precommit .precommit ⟨[], .zero⟩

/-- A call of `signAddVote`, and going to the step of the vote. -/
inductive Cast (cfg : Config E β) (height : ℤ) : Recorded E β → SignCall → Recorded E β → Prop
  | cast (m : Recorded E β) {n : Node E β} {round : ℤ} {type : SignedMsgType} {step : RoundStep}
      {x : BlockID} (hheight : m.height = height) (hchosen : Chosen cfg m round type step x)
      (hsigns : Node.Signs m.toNode n type x) (hdue : m.Due round)
      (hstep : m.round = round → ¬ step ≤ m.step) :
      Cast cfg height m ⟨m.height, m.round, type, x, m.polka m.round⟩
        (m.withNode { n with round := round, step := step })

/-- The computation stays at the height. -/
abbrev Acts (cfg : Config E β) (h : ℤ) (m : Recorded E β) (x : Logged SignCall (Recorded E β)) :
    Prop := Takes (Stays cfg) (Cast cfg h) m x

abbrev Reacts (cfg : Config E β) (may : Recorded E β → PartSet → β → Prop) (h : ℤ)
    (m : Recorded E β) (x : Logged SignCall (Recorded E β)) : Prop :=
  Takes (Change cfg may h) (Cast cfg h) m x

variable {cfg : Config E β} {may : Recorded E β → PartSet → β → Prop} {h height round : ℤ}
  {m m' m'' : Recorded E β} {x : Logged SignCall (Recorded E β)}

lemma Due.refl (m : Recorded E β) : m.Due m.round := ⟨le_rfl, .inl le_rfl⟩

lemma Due.eq (hdue : m.Due round)
    (hbound : ∀ t ∈ m.timeouts, t.height = m.height → t.round ≤ m.round) : m.round = round := by
  refine le_antisymm hdue.1 (hdue.2.elim id ?_)
  rintro ⟨t, ht, hheight, rfl⟩
  exact hbound t ht hheight

lemma Acts.reacts (hx : Acts cfg h m x) : Reacts cfg may h m x :=
  hx.imp (P := fun _ => True) (fun _ _ _ hs => ⟨.stays hs, trivial⟩) (fun _ _ _ _ hc => ⟨hc, trivial⟩)
    trivial

lemma Reacts.after (hm : Path (Change cfg may h) (Cast cfg h) m [] (some m'))
    (hx : Reacts cfg may h m' x) : Reacts cfg may h m x := Logged.Path.trans hm hx

/-! ## What paths keep -/

lemma Stays.advances (hs : Stays cfg m m') : Advances m.toNode m'.toNode := by
  cases hs with
  | enter later hstep =>
    exact ⟨rfl, later.elim le_of_lt fun h => h.1.le, rfl, fun hc => absurd hc hstep⟩
  | tally hmaj hsound => exact ⟨rfl, le_rfl, hmaj, id⟩
  | _ => exact ⟨rfl, le_rfl, rfl, id⟩

lemma Chosen.step_ne {type : SignedMsgType} {step : RoundStep} {z : BlockID}
    (hz : Chosen cfg m round type step z) : step ≠ .commit := by
  cases hz <;> decide

lemma Cast.advances {c : SignCall} (hc : Cast cfg h m c m') : Advances m.toNode m'.toNode := by
  cases hc with
  | cast hheight hchosen hsigns hdue hstep =>
    rcases hsigns with rfl | ⟨v, rfl, -⟩ <;>
      exact ⟨rfl, hdue.1, rfl, fun hc => absurd hc hchosen.step_ne⟩

lemma Acts.advances (hx : Acts cfg h m x) (hm : x.result = some m') :
    Advances m.toNode m'.toNode := by
  have hpath : Path (Stays cfg) (Cast cfg h) m x.log (some m') := hm ▸ hx
  refine hpath.invariant (P := fun m' => Advances m.toNode m'.toNode) ?_ ?_ ⟨rfl, le_rfl, rfl, id⟩
  · exact fun _ _ hadv hs => hadv.trans hs.advances
  · exact fun _ _ _ hadv hc => hadv.trans hc.advances

lemma Change.quiet (hs : Change cfg may h m m') (hm : m.height = h ∨ m.proposal = none) :
    m'.height = h ∨ m'.proposal = none := by
  cases hs with
  | stays hs => cases hs <;> first | exact hm | exact .inr rfl
  | propose p hheight => exact .inl hheight
  | store hheight hstores =>
    obtain ⟨_, _, _, rfl, -⟩ := hstores
    exact hm
  | next hnew => exact .inr rfl
  | _ => exact hm

lemma Cast.quiet {c : SignCall} (hc : Cast cfg h m c m') : m'.height = h := by
  rw [hc.advances.height]
  cases hc with
  | cast hheight => exact hheight

lemma Reacts.quiet (hx : Reacts cfg may h m x) (hm' : x.result = some m') (hm : m.height = h) :
    m'.height = h ∨ m'.proposal = none := by
  have hpath : Path (Change cfg may h) (Cast cfg h) m x.log (some m') := hm' ▸ hx
  exact hpath.invariant (P := fun m' => m'.height = h ∨ m'.proposal = none)
    (fun _ _ hq hs => hs.quiet hq) (fun _ _ _ _ hc => .inl hc.quiet) (.inl hm)

/-! ## The rounds and steps -/

section Enter

/-- A vote, and going to its step. -/
lemma signAddVote_acts {type : SignedMsgType} {step : RoundStep} {z : BlockID}
    (hheight : m.height = h) (hchosen : Chosen cfg m round type step z) (hdue : m.Due round)
    (hstep : m.round = round → ¬ step ≤ m.step) :
    Acts cfg h m (m.signAddVote cfg type z.hash z.partsHeader >>= fun m =>
      pure { m with round := round, step := step }) := by
  unfold signAddVote Logged.entry
  cases hsign : m.toNode.signAddVote cfg type z.hash z.partsHeader with
  | none => exact .calls (.cast m hheight hchosen (.inl rfl) hdue hstep) (.fails _)
  | some n =>
    exact .calls (.cast m hheight hchosen (Node.signAddVote_signs hsign) hdue hstep) (.ends _)

lemma enterPrevote_acts (hheight : m.height = h) (hdue : m.round ≤ round → m.Due round) :
    Acts cfg h m (m.enterPrevote cfg height round) := by
  unfold enterPrevote
  split_ifs with hguard
  · exact .pure m
  · push Not at hguard
    obtain ⟨-, hle, hstep⟩ := hguard
    have hvote : ∀ z, Chosen cfg m round .prevote .prevote z →
        Acts cfg h m (m.signAddVote cfg .prevote z.hash z.partsHeader >>= fun m =>
          pure { m with round := round, step := .prevote }) := fun z hz =>
      signAddVote_acts hheight hz (hdue hle) hstep
    unfold defaultDoPrevote
    split
    · next b hb => exact hvote ⟨_, _⟩ (.locked hb)
    · next hnone =>
      split
      · exact hvote ⟨_, _⟩ (.nothing hnone)
      · next b hb =>
        split_ifs
        · exact hvote ⟨_, _⟩ (.nothing hnone)
        · exact hvote ⟨_, _⟩ (.proposal hnone hb)

lemma proposal_ne_none {n : Node E β} (hcomplete : n.isProposalComplete = true) :
    n.proposal ≠ none := by
  intro hnone
  simp [Node.isProposalComplete, hnone] at hcomplete

lemma enterPropose_acts (hquiet : m.height = h ∨ m.proposal = none) :
    Acts cfg h m (m.enterPropose cfg height round) := by
  unfold enterPropose
  split_ifs with hguard
  · exact .pure m
  · push Not at hguard
    obtain ⟨rfl, hle, hstep⟩ := hguard
    have hlater : m.round < round ∨ m.round = round ∧ m.step ≤ RoundStep.propose :=
      hle.lt_or_eq.imp_right fun heq => ⟨heq, RoundStep.le_of_not_le (hstep heq)⟩
    refine .moves (.enter m hlater (by decide)) (.moves (.schedule _ .propose) ?_)
    dsimp only
    split_ifs with hcomplete
    · exact enterPrevote_acts (hquiet.resolve_right (proposal_ne_none hcomplete)) fun _ => .refl _
    · exact .pure _

/-- Waiting for other parts, without the proposal block at hand. -/
lemma fetch_path {l : List SignCall} {r : Option (Recorded E β)} {ps : Option PartSet}
    (hrest : Path (Stays cfg) (Cast cfg h) (m.dropProposalBlock.setProposalBlockParts ps) l r) :
    Path (Stays cfg) (Cast cfg h) m l r :=
  .moves (.drop m) (.moves (.await _ ps nofun) hrest)

lemma resetRound_path {l : List SignCall} {r : Option (Recorded E β)}
    (hlater : m.round < round ∨ m.round = round ∧ m.step = .newHeight)
    (hrest : Path (Stays cfg) (Cast cfg h) (m.resetRound round) l r) :
    Path (Stays cfg) (Cast cfg h) m l r := by
  have hle : m.round < round ∨ m.round = round ∧ m.step ≤ RoundStep.newRound :=
    hlater.imp_right fun h => h.imp_right fun hstep => by rw [hstep]; decide
  refine .moves (.enter m hle (by decide)) (.moves (.trigger _ false) ?_)
  unfold resetRound Node.resetRound at hrest
  split_ifs at hrest
  · exact hrest
  · exact .moves (.forget _) (fetch_path hrest)

lemma waitOrPropose_acts (hquiet : m.height = h ∨ m.proposal = none) (hheight : m.height = height)
    (hround : m.round = round) : Acts cfg h m (m.waitOrPropose cfg height round) := by
  subst hheight hround
  unfold waitOrPropose
  split_ifs
  · exact .moves (.schedule m .newRound) (.pure _)
  · exact .pure m
  · exact enterPropose_acts hquiet

lemma resetRound_fields (m : Recorded E β) (round : ℤ) :
    (m.resetRound round).height = m.height ∧ (m.resetRound round).round = round ∧
      (m.resetRound round).votes = m.votes ∧
      ((m.resetRound round).proposal = m.proposal ∨ (m.resetRound round).proposal = none) := by
  unfold resetRound Node.resetRound
  split_ifs
  · exact ⟨rfl, rfl, rfl, .inl rfl⟩
  · exact ⟨rfl, rfl, rfl, .inr rfl⟩

lemma enterNewRound_acts (hquiet : m.height = h ∨ m.proposal = none) :
    Acts cfg h m (m.enterNewRound cfg height round) := by
  unfold enterNewRound
  split_ifs with hguard
  · exact .pure m
  · push Not at hguard
    obtain ⟨hheight, hle, hstep⟩ := hguard
    refine .lift_bind fun votes hvotes => ?_
    obtain ⟨-, -, hmaj, hsound⟩ := HeightVoteSet.setRound_spec hvotes
    obtain ⟨hh, hr, hv, hp⟩ := resetRound_fields m round
    rw [← hv] at hmaj hsound
    refine resetRound_path (hle.lt_or_eq.imp_right fun heq => ⟨heq, hstep heq⟩)
      (.moves (.tally _ hmaj hsound) (waitOrPropose_acts ?_ (hh.trans hheight) hr))
    exact hquiet.imp hh.trans fun hnone => hp.elim (·.trans hnone) id

/-- A node that enters a round is in it or beyond. -/
lemma enterNewRound_round_le (hheight : m.height = h)
    (hrun : (m.enterNewRound cfg m.height round).result = some m') : round ≤ m'.round := by
  by_cases hguard : round < m.round ∨ m.round = round ∧ m.step ≠ .newHeight
  · have hle : round ≤ m.round := hguard.elim le_of_lt fun h => h.1.ge
    exact hle.trans ((enterNewRound_acts (.inl hheight)).advances hrun).round
  · unfold enterNewRound at hrun
    rw [if_neg (by simpa using hguard), result_bind] at hrun
    obtain ⟨votes, -, hrest⟩ := bind_eq_some_iff.mp hrun
    obtain ⟨hh, hr, -, -⟩ := resetRound_fields m round
    have hwait : Acts cfg h { m.resetRound round with votes := votes } _ :=
      waitOrPropose_acts (.inl (hh.trans hheight)) hh hr
    exact hr.ge.trans (hwait.advances hrest).round

lemma enterPrevoteWait_acts (hround : round ≤ m.round) :
    Acts cfg h m (m.enterPrevoteWait height round) := by
  unfold enterPrevoteWait Node.enterPrevoteWait
  split_ifs with hguard hany
  · exact .pure m
  · exact .fails m
  · push Not at hguard
    obtain ⟨rfl, hle, hstep⟩ := hguard
    obtain rfl : m.round = round := le_antisymm hle hround
    have hlater : m.round < m.round ∨ m.round = m.round ∧ m.step ≤ RoundStep.prevoteWait :=
      .inr ⟨rfl, RoundStep.le_of_not_le (hstep rfl)⟩
    exact .moves (.enter m hlater (by decide)) (.moves (.schedule _ .prevoteWait) (.pure _))

lemma enterPrecommitWait_acts (hround : round ≤ m.round) :
    Acts cfg h m (m.enterPrecommitWait height round) := by
  unfold enterPrecommitWait Node.enterPrecommitWait
  split_ifs with hguard hany
  · exact .pure m
  · exact .fails m
  · push Not at hguard
    obtain ⟨rfl, hle, -⟩ := hguard
    obtain rfl : m.round = round := le_antisymm hle hround
    exact .moves (.schedule m .precommitWait) (.moves (.trigger _ true) (.pure _))

/-- The lock is changed only for the polka of the round. -/
lemma doPrecommit_acts (hheight : m.height = h) (hdue : m.Due round)
    (hstep : m.round = round → ¬ RoundStep.precommit ≤ m.step) :
    Acts cfg h m (m.doPrecommit cfg round >>= fun m =>
      pure { m with round := round, step := .precommit }) := by
  have hnil : ∀ m' : Recorded E β, m'.height = h → m'.Due round → m'.round = m.round →
      m'.step = m.step → Acts cfg h m' (m'.signAddVote cfg .precommit [] .zero >>= fun m' =>
        pure { m' with round := round, step := .precommit }) := fun m' hheight hdue hr hs =>
    signAddVote_acts (z := ⟨[], .zero⟩) hheight .noPolka hdue (hr ▸ hs ▸ hstep)
  unfold doPrecommit
  split
  · exact hnil m hheight hdue rfl rfl
  · next z hz =>
    split_ifs with hpol hzero hlocked hproposal hvalid
    · exact .fails m
    · refine .moves (.unlock m hz (by simp [hashesTo, hzero]) (.inr hdue)) ?_
      exact hnil _ hheight hdue rfl rfl
    · refine .moves (.relock m hz hlocked hdue) ?_
      exact signAddVote_acts hheight (.polka hz rfl hlocked) hdue hstep
    · exact .fails m
    · refine .moves (.lock m hz hlocked hproposal hdue) ?_
      exact signAddVote_acts hheight (.polka hz rfl hproposal) hdue hstep
    · refine .moves (.unlock m hz hlocked (.inr hdue)) ?_
      dsimp only
      split_ifs
      · exact hnil _ hheight hdue rfl rfl
      · exact fetch_path (hnil _ hheight hdue rfl rfl)

lemma enterPrecommit_acts (hheight : m.height = h) (hdue : m.round ≤ round → m.Due round) :
    Acts cfg h m (m.enterPrecommit cfg height round) := by
  unfold enterPrecommit
  split_ifs with hguard
  · exact .pure m
  · push Not at hguard
    exact doPrecommit_acts hheight (hdue hguard.2.1) hguard.2.2

end Enter

/-! ## Commits, parts and votes -/

section Events

lemma tryFinalizeCommit_reacts :
    Reacts cfg may height m (m.tryFinalizeCommit cfg height) := by
  unfold tryFinalizeCommit
  cases hrun : m.toNode.tryFinalizeCommit cfg height with
  | none => exact .fails m
  | some n =>
    show Path _ _ m [] (some (m.settle n))
    obtain ⟨hheight, hstores | ⟨n₁, hstores, hup⟩⟩ := Node.tryFinalizeCommit_cases hrun
    · have hsettle : m.settle n = m.withNode n := by
        obtain ⟨_, _, _, rfl, -⟩ := hstores
        exact if_pos rfl
      rw [hsettle]
      exact .moves (.store m hheight hstores) (.ends _)
    · refine .moves (.store m hheight hstores) ?_
      obtain ⟨votes, hnew, rfl⟩ := Node.updateToState_eq hup
      obtain ⟨storeHeight, saved, halted, rfl, -⟩ := hstores
      refine .moves (.next _ hnew) (.moves (.stays (.schedule _ .newHeight)) ?_)
      rw [settle, if_neg]
      · exact .ends _
      · exact (Int.lt_succ m.height).ne'

lemma selectCommitBlock_path {l : List SignCall} {r : Option (Recorded E β)} {z : BlockID}
    (hrest : Path (Stays cfg) (Cast cfg h) (m.selectCommitBlock cfg z) l r) :
    Path (Stays cfg) (Cast cfg h) m l r := by
  unfold selectCommitBlock at hrest
  dsimp only at hrest
  split_ifs at hrest with hlocked
  · exact .moves (.select m hlocked) hrest
  · exact .moves (.select m hlocked) (fetch_path hrest)
  · exact hrest
  · exact fetch_path hrest

lemma enterCommit_reacts : Reacts cfg may height m (m.enterCommit cfg height round) := by
  unfold enterCommit
  split_ifs with hguard
  · exact .pure m
  · push Not at hguard
    refine .lift_bind fun z _ => ?_
    have hstep : (m.selectCommitBlock cfg z).step = m.step := by
      unfold selectCommitBlock
      dsimp only
      split_ifs <;> rfl
    have hselect : Path (Stays cfg) (Cast cfg height) m [] (some (m.selectCommitBlock cfg z)) :=
      selectCommitBlock_path (.ends _)
    have hle : (m.selectCommitBlock cfg z).step ≤ .commit :=
      hstep ▸ RoundStep.le_of_not_le hguard.2
    exact Reacts.after (Acts.reacts (x := pure _) hselect)
      (.moves (.commit _ round hle) tryFinalizeCommit_reacts)

lemma stepOnBlock_reacts (polka : Option BlockID) (hheight : m.height = height) :
    Reacts cfg may height m (m.stepOnBlock cfg polka height) := by
  have hprevote : Acts cfg height m (m.enterPrevote cfg height m.round) :=
    enterPrevote_acts hheight fun _ => .refl m
  unfold stepOnBlock
  split_ifs
  · refine Acts.reacts (hprevote.bind fun m₁ h₁ => ?_)
    exact enterPrecommit_acts ((hprevote.advances h₁).height.trans hheight) fun _ => .refl m₁
  · exact Acts.reacts (hprevote.bind fun m₁ _ => .pure m₁)
  · exact tryFinalizeCommit_reacts
  · exact .pure m

lemma afterCompleteBlock_reacts (hheight : m.height = height) :
    Reacts cfg may height m (m.afterCompleteBlock cfg height) := by
  refine Reacts.after ?_ (stepOnBlock_reacts _ ?_)
  · split_ifs with hpolka
    · obtain ⟨z, hz, hany⟩ := (any_eq_true ..).mp hpolka
      exact .moves (.stays (.validate m hz (of_decide_eq_true hany).2.2)) (.ends _)
    · exact .ends m
  · split_ifs <;> exact hheight

lemma addProposalBlockPart_reacts {part : PartResult β}
    (hmay : ∀ b ok, part = .completes b ok → m.height = height → ∀ ps ∈ m.proposalBlockParts,
      ps.complete = false → may m ps b) :
    Reacts cfg may m.height m (m.addProposalBlockPart cfg height part) := by
  unfold addProposalBlockPart
  split_ifs with hheight
  · exact .pure m
  · obtain rfl := not_not.mp hheight
    split
    · next ps b ok hps =>
      split_ifs with hcomplete hok
      · exact .pure m
      all_goals
        have hincomplete : ps.complete = false := by simpa using hcomplete
        refine .moves (.complete m hps hincomplete (hmay b _ rfl rfl ps hps hincomplete)) ?_
      · exact afterCompleteBlock_reacts rfl
      · exact .pure _
    · exact .pure m

/-- A polka changes the lock and the proposal block, but no vote. -/
lemma applyPolka_path {z : BlockID} (hz : m.polka round = some z) {l : List SignCall}
    {r : Option (Recorded E β)}
    (hrest : Path (Stays cfg) (Cast cfg h) (m.applyPolka cfg round z) l r) :
    Path (Stays cfg) (Cast cfg h) m l r := by
  have hvalid : ∀ m : Recorded E β, m.polka round = some z →
      Path (Stays cfg) (Cast cfg h) (m.setValidBlock cfg round z) l r →
      Path (Stays cfg) (Cast cfg h) m l r := by
    intro m hz hset
    unfold setValidBlock at hset
    dsimp only at hset
    split_ifs at hset with hcur hhash hheader hheader
    · exact .moves (.validate m (hcur.2.2 ▸ hz) hhash) hset
    · refine .moves (.validate m (hcur.2.2 ▸ hz) hhash) (.moves (.await _ _ fun b hb => .inr ?_) hset)
      obtain ⟨hne, b', hb', heq⟩ := Node.hashesTo_iff.mp hhash
      obtain rfl := some.inj (hb'.symm.trans hb)
      exact ⟨round, z, hz, hne, heq, hheader⟩
    · exact .moves (.drop m) hset
    · exact fetch_path hset
    · exact hset
  have hvotes : (m.unlockOnPolka cfg round z).votes = m.votes := by
    unfold unlockOnPolka
    split_ifs <;> rfl
  have hlast := hvalid _ (by rwa [Node.polka, hvotes]) hrest
  unfold unlockOnPolka at hlast
  split_ifs at hlast with hunlock
  · refine .moves (.unlock m hz (by simpa using hunlock.2.2.2) (.inl ?_)) hlast
    exact ⟨hunlock.2.1, hunlock.2.2.1⟩
  · exact hlast

lemma stepOnPrevotes_acts (polka : Option BlockID) (hheight : m.height = h) :
    Acts cfg h m (m.stepOnPrevotes cfg polka height round) := by
  unfold stepOnPrevotes
  split_ifs with hlater hnow
  · exact enterNewRound_acts (.inl hheight)
  · exact enterPrecommit_acts hheight fun hle => ⟨hle, .inl hnow.1.ge⟩
  · exact enterPrevoteWait_acts hnow.1.ge
  · exact .pure m
  · exact enterPrevote_acts hheight fun _ => .refl m
  · exact .pure m

lemma afterPrevote_acts (hheight : m.height = h) :
    Acts cfg h m (m.afterPrevote cfg height round) := by
  unfold afterPrevote
  dsimp only
  cases hz : m.votes.majority round .prevote with
  | none => exact stepOnPrevotes_acts _ hheight
  | some z =>
    have hsame : (m.applyPolka cfg round z).height = m.height :=
      (Acts.advances (h := h) (x := pure _) (applyPolka_path hz (.ends _)) rfl).height
    exact applyPolka_path hz (stepOnPrevotes_acts _ (hsame.trans hheight))

lemma afterPrecommit_reacts :
    Reacts cfg may m.height m (m.afterPrecommit cfg m.height round) := by
  have henter : Acts cfg m.height m (m.enterNewRound cfg m.height round) :=
    enterNewRound_acts (.inl rfl)
  have hdue : ∀ {m₁}, (m.enterNewRound cfg m.height round).result = some m₁ → round ≤ m₁.round :=
    fun h₁ => enterNewRound_round_le rfl h₁
  unfold afterPrecommit
  split
  · refine henter.reacts.bind fun m₁ h₁ => ?_
    have hheight : m₁.height = m.height := (henter.advances h₁).height
    have hprecommit : Acts cfg m.height m₁ (m₁.enterPrecommit cfg m.height round) :=
      enterPrecommit_acts hheight fun hle => ⟨hle, .inl (hdue h₁)⟩
    refine hprecommit.reacts.bind fun m₂ h₂ => ?_
    have hadv := hprecommit.advances h₂
    have hcommit : Reacts cfg may m.height m₂ (m₂.enterCommit cfg m.height round) :=
      enterCommit_reacts
    split_ifs
    · refine hcommit.bind fun m₃ h₃ => (enterNewRound_acts ?_).reacts
      exact hcommit.quiet h₃ (hadv.height.trans hheight)
    · exact hcommit.bind fun m₃ _ => .pure m₃
    · exact (enterPrecommitWait_acts ((hdue h₁).trans hadv.round)).reacts
  · split_ifs
    · exact henter.reacts.bind fun m₁ h₁ => (enterPrecommitWait_acts (hdue h₁)).reacts
    · exact .pure m

lemma addLastCommitVote_reacts (vote : Vote) :
    Reacts cfg may m.height m (m.addLastCommitVote cfg vote) := by
  unfold addLastCommitVote
  split_ifs
  · refine .lift_bind fun lastCommit _ => .lift_bind ?_
    rintro ⟨lastCommit', added, err⟩ -
    refine .moves (.addLast m lastCommit') ?_
    dsimp only
    split_ifs
    · exact Acts.reacts (enterNewRound_acts (.inl rfl))
    · exact .pure _
  · exact .pure m

/-- The rest of `addVote` once the vote is in its set. -/
lemma addVote_reacts {vote : Vote} {peerID : Bytes} {allCms : List CrossMessages}
    {votes : HeightVoteSet E} (hvotes : m.toNode.votesAfter (.vote vote peerID allCms) = some votes) :
    Reacts cfg may m.height { m with votes := votes } (m.addVote cfg vote peerID allCms) := by
  simp only [Node.votesAfter] at hvotes
  unfold addVote
  split_ifs with hlast hheight
  · rw [if_neg (by omega)] at hvotes
    cases hvotes
    exact addLastCommitVote_reacts vote
  · rw [if_neg hheight] at hvotes
    cases hvotes
    exact .pure m
  · rw [if_pos (not_not.mp hheight)] at hvotes
    obtain ⟨⟨votes', added, err⟩, hadd, rfl⟩ := map_eq_some_iff.mp hvotes
    rw [hadd]
    show Reacts cfg may m.height { m with votes := votes' } (if _ then _ else _)
    split_ifs
    · exact .pure _
    · split
      · exact Acts.reacts (afterPrevote_acts rfl)
      · exact afterPrecommit_reacts (m := { m with votes := votes' })
      · exact .fails _

lemma handleTimeout_reacts {ti : TimeoutInfo} (hti : ti ∈ m.timeouts) :
    Reacts cfg may m.height m (m.handleTimeout cfg ti) := by
  unfold handleTimeout
  split_ifs with hguard
  · exact .pure m
  · push Not at hguard
    have hdue : m.round ≤ ti.round → m.Due ti.round := fun hle =>
      ⟨hle, .inr ⟨ti, hti, hguard.1, rfl⟩⟩
    have hprecommit : Acts cfg m.height m (m.enterPrecommit cfg ti.height ti.round) :=
      enterPrecommit_acts rfl hdue
    split
    · exact (enterNewRound_acts (.inl rfl)).reacts
    · exact (enterPropose_acts (.inl rfl)).reacts
    · exact (enterPrevote_acts rfl hdue).reacts
    · exact hprecommit.reacts
    · refine Acts.reacts (hprecommit.bind fun m₁ h₁ => ?_)
      exact enterNewRound_acts (.inl (hprecommit.advances h₁).height)
    · exact .fails m

/-- Once its vote is in its set, an event takes the node along a path of changes. -/
lemma handle_reacts {e : Event β} {votes : HeightVoteSet E}
    (hvotes : m.toNode.votesAfter e = some votes)
    (hmay : ∀ height b ok, e = .blockPart height (.completes b ok) → m.height = height →
      ∀ ps ∈ m.proposalBlockParts, ps.complete = false → may m ps b) :
    Reacts cfg may m.height { m with votes := votes } (m.handle cfg e) := by
  cases e with
  | proposal p signed =>
    cases hvotes
    show Reacts cfg may m.height m (pure (m.withNode (m.toNode.setProposal p signed)))
    unfold Node.setProposal
    dsimp only
    split_ifs with h1 h2 h3 h4 hparts
    · exact .pure m
    · exact .pure m
    · exact .pure m
    · exact .pure m
    · exact .moves (.propose m p rfl) (.pure _)
    · refine .moves (.propose m p rfl) (.moves (.stays (.await _ _ fun b _ => .inl ?_)) (.pure _))
      simpa using hparts
  | blockPart height part =>
    cases hvotes
    exact addProposalBlockPart_reacts fun b ok hpart => hmay height b ok (by rw [hpart])
  | vote vote peerID allCms => exact addVote_reacts hvotes
  | peerMaj23 height round type peerID blockID =>
    cases hvotes
    simp only [handle]
    split_ifs
    · exact .pure _
    · exact .pure m
  | timeout ti =>
    cases hvotes
    simp only [handle]
    split_ifs with hti
    · exact handleTimeout_reacts hti
    · exact .pure m
  | txsAvailable =>
    cases hvotes
    have hnew : Acts cfg m.height m (m.enterNewRound cfg m.height 0) := enterNewRound_acts (.inl rfl)
    refine Acts.reacts (hnew.bind fun m₁ h₁ => ?_)
    exact enterPropose_acts (.inl (hnew.advances h₁).height)

/-- An event whose vote cannot be added ends in a panic. -/
lemma handle_of_votesAfter_eq_none {e : Event β} (hvotes : m.toNode.votesAfter e = none) :
    m.handle cfg e = lift none := by
  cases e with
  | vote vote peerID allCms =>
    simp only [Node.votesAfter] at hvotes
    split_ifs at hvotes with hheight
    rw [map_eq_none_iff] at hvotes
    simp only [handle, addVote]
    rw [if_neg (by omega), if_neg (not_not.mpr hheight), hvotes]
    rfl
  | _ => cases hvotes

end Events

end Recorded

end ShardingBC.Consensus
