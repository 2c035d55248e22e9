import ShardingBC.Transitions

/-!
# Locks of a node

What a node may sign, given the polkas it has seen, and what it knows of its lock. Every transition
signs only votes that the locking rules allow, as long as the hash of its block determines a
complete set of parts.
-/
namespace ShardingBC.Consensus

open List Option

variable {E : Electorate} {β : Type}

/-- A vote that the locking rules allow after those already signed. -/
structure Castable (partsOf : Bytes → PartSetHeader) (height : ℤ) (polka : ℤ → Option BlockID)
    (signed : List Vote) (v : Vote) : Prop where
  current : v.height = height
  type : v.type = .prevote ∨ v.type = .precommit
  later : ∀ w ∈ signed, Node.placeOf w < Node.placeOf v
  locked : v.type = .prevote → ∀ w ∈ signed, w.height = height → w.type = .precommit →
    w.blockID.hash ≠ [] → v.blockID.hash = w.blockID.hash ∨
      ∃ r z, w.round < r ∧ r ≤ v.round ∧ polka r = some z ∧ z.hash ≠ w.blockID.hash
  polka : v.type = .precommit → v.blockID.hash ≠ [] → polka v.round = some v.blockID
  proper : v.blockID.hash ≠ [] → v.blockID.partsHeader = partsOf v.blockID.hash

/-- Allowed votes signed one after the other. -/
inductive Grows (partsOf : Bytes → PartSetHeader) (height : ℤ) (polka : ℤ → Option BlockID) :
    List Vote → List Vote → Prop
  | refl (l : List Vote) : Grows partsOf height polka l l
  | cast {l l' : List Vote} {v : Vote} : Grows partsOf height polka l l' →
      Castable partsOf height polka l' v → Grows partsOf height polka l (v :: l')

lemma Grows.trans {partsOf : Bytes → PartSetHeader} {height : ℤ} {polka : ℤ → Option BlockID}
    {l l' l'' : List Vote} (h : Grows partsOf height polka l l')
    (h' : Grows partsOf height polka l' l'') : Grows partsOf height polka l l'' := by
  induction h' with
  | refl => exact h
  | cast _ hv ih => exact .cast ih hv

/-- A block together with its complete set of parts. -/
def Assembled (hash : β → Bytes) (partsOf : Bytes → PartSetHeader) (b : β) (ps : Option PartSet) :
    Prop :=
  ∃ header, ps = some ⟨header, true⟩ ∧ header = partsOf (hash b)

/-- A block that a node precommitted is still locked, or there was a later polka for something
else. -/
structure Inv (hash : β → Bytes) (partsOf : Bytes → PartSetHeader) (n : Node E β) : Prop where
  round_nonneg : 0 ≤ n.round
  timeouts : ∀ t ∈ n.timeouts, t.height = n.height → t.round ≤ n.round
  lockedRound : n.lockedRound ≤ n.round
  rounds : ∀ v ∈ n.signed, v.height = n.height → v.round ≤ n.round
  locks : ∀ v ∈ n.signed, v.height = n.height → v.type = .precommit → v.blockID.hash ≠ [] →
    (∃ b, n.lockedBlock = some b ∧ hash b = v.blockID.hash ∧ v.round ≤ n.lockedRound) ∨
      ∃ r z, v.round < r ∧ r ≤ n.round ∧ n.polka r = some z ∧ z.hash ≠ v.blockID.hash
  polkas : ∀ v ∈ n.signed, v.height = n.height → v.type = .precommit → v.blockID.hash ≠ [] →
    n.polka v.round = some v.blockID
  proper : ∀ r z, n.polka r = some z → z.hash ≠ [] → z.partsHeader = partsOf z.hash
  proposal : ∀ b, n.proposalBlock = some b → Assembled hash partsOf b n.proposalBlockParts
  locked : ∀ b, n.lockedBlock = some b → Assembled hash partsOf b n.lockedBlockParts
  shared : n.proposalBlock = none → n.lockedIsProposal = false
  sharedParts : n.lockedPartsAreProposal = true → n.lockedBlockParts = n.proposalBlockParts

/-- What a transition may do, from a state that satisfies the invariant. -/
structure Reaction (hash : β → Bytes) (partsOf : Bytes → PartSetHeader) (n n' : Node E β) :
    Prop where
  signed : Grows partsOf n.height n.polka n.signed n'.signed
  saved : ∀ e ∈ n'.saved, e ∈ n.saved ∨ e.2.hash ≠ [] ∧
    ∃ r, n.votes.majority r .precommit = some e.2
  height : n.height ≤ n'.height
  stays : n'.height = n.height → Inv hash partsOf n' ∧ n.round ≤ n'.round ∧
    n'.votes.majority = n.votes.majority ∧ ∀ P, n.votes.Sound P → n'.votes.Sound P

variable {hash : β → Bytes} {partsOf : Bytes → PartSetHeader} {n n' n'' : Node E β}

lemma Reaction.refl (h : Inv hash partsOf n) : Reaction hash partsOf n n :=
  ⟨.refl _, fun _ he => .inl he, le_rfl, fun _ => ⟨h, le_rfl, rfl, fun _ hs => hs⟩⟩

lemma Reaction.trans (h : Reaction hash partsOf n n') (hheight : n'.height = n.height)
    (h' : Reaction hash partsOf n' n'') : Reaction hash partsOf n n'' := by
  obtain ⟨-, hround, hmaj, hsound⟩ := h.stays hheight
  have hpolka : n'.polka = n.polka := by
    funext r
    simp only [Node.polka, hmaj]
  refine ⟨?_, fun e he => ?_, h.height.trans h'.height, fun heq => ?_⟩
  · have hsigned := h'.signed
    rw [hheight, hpolka] at hsigned
    exact h.signed.trans hsigned
  · rcases h'.saved e he with hold | hnew
    · exact h.saved e hold
    · rw [hmaj] at hnew
      exact .inr hnew
  · obtain ⟨hinv, hround', hmaj', hsound'⟩ := h'.stays (heq.trans hheight.symm)
    exact ⟨hinv, hround.trans hround', hmaj'.trans hmaj, fun P hs => hsound' P (hsound P hs)⟩

lemma Reaction.of_eq (hinv : Inv hash partsOf n') (hround : n.round ≤ n'.round)
    (hheight : n'.height = n.height) (hvotes : n'.votes = n.votes)
    (hsigned : n'.signed = n.signed) (hsaved : n'.saved = n.saved) :
    Reaction hash partsOf n n' := by
  refine ⟨hsigned ▸ .refl _, fun e he => .inl (hsaved ▸ he), hheight.ge,
    fun _ => ⟨hinv, hround, by rw [hvotes], ?_⟩⟩
  intro P hs
  rwa [hvotes]

section Invariant

/-- Going to a later round or step, with a timeout for it. -/
lemma Inv.setRound (h : Inv hash partsOf n) {round : ℤ} (hle : n.round ≤ round)
    (step : RoundStep) : Inv hash partsOf { n with round := round, step := step } := by
  refine { h with
    round_nonneg := h.round_nonneg.trans hle
    timeouts := fun t ht heq => (h.timeouts t ht heq).trans hle
    lockedRound := h.lockedRound.trans hle
    rounds := fun v hv hh => (h.rounds v hv hh).trans hle
    locks := fun v hv hh htype hne => (h.locks v hv hh htype hne).imp_right ?_ }
  rintro ⟨r, z, h1, h2, h3⟩
  exact ⟨r, z, h1, h2.trans hle, h3⟩

lemma Inv.scheduleTimeout (h : Inv hash partsOf n) {height round : ℤ} (hle : round ≤ n.round)
    (step : RoundStep) : Inv hash partsOf (n.scheduleTimeout height round step) := by
  refine { h with timeouts := fun t ht heq => ?_ }
  rcases mem_cons.mp ht with rfl | ht
  · exact hle
  · exact h.timeouts t ht heq

lemma Inv.setProposalBlockParts (h : Inv hash partsOf n) (hnone : n.proposalBlock = none)
    (ps : Option PartSet) : Inv hash partsOf (n.setProposalBlockParts ps) := by
  refine { h with proposal := fun b hb => ?_, sharedParts := nofun }
  have hb : n.proposalBlock = some b := hb
  rw [hnone] at hb
  cases hb

/-- A polka for something else, in the current round or after the lock, releases the lock. -/
lemma Inv.unlock (h : Inv hash partsOf n) {r : ℤ} {z : BlockID} (hpolka : n.polka r = some z)
    (hr : r ≤ n.round) (hlater : n.lockedRound < r ∨ r = n.round)
    (hne : ∀ b, n.lockedBlock = some b → hash b ≠ [] → z.hash ≠ hash b) :
    Inv hash partsOf n.unlock := by
  refine { h with
    lockedRound := ?_
    locks := fun v hv hh htype hhash => .inr ?_
    locked := nofun
    shared := fun _ => rfl
    sharedParts := nofun }
  · have := h.round_nonneg
    show (-1 : ℤ) ≤ n.round
    omega
  · rcases h.locks v hv hh htype hhash with ⟨b, hb, hvb, hle⟩ | hlocks
    · have hzv : z.hash ≠ v.blockID.hash := hvb ▸ hne b hb (hvb ▸ hhash)
      refine ⟨r, z, ?_, hr, hpolka, hzv⟩
      rcases hlater with hlt | rfl
      · omega
      · -- In its own round the polka is the one the precommit was for.
        refine lt_of_le_of_ne (h.rounds v hv hh) fun heq => hzv ?_
        have hown := h.polkas v hv hh htype hhash
        rw [heq] at hown
        rw [some.inj (hpolka.symm.trans hown)]
    · exact hlocks

/-- A node locks the block of a polka in the current round. -/
lemma Inv.lock (h : Inv hash partsOf n) {z : BlockID} {b : β} (hpolka : n.polka n.round = some z)
    (hb : n.proposalBlock = some b) (hhash : hash b = z.hash) :
    Inv hash partsOf { n with
      lockedRound := n.round
      lockedBlock := n.proposalBlock
      lockedBlockParts := n.proposalBlockParts
      lockedIsProposal := true
      lockedPartsAreProposal := true } := by
  refine { h with
    lockedRound := le_rfl
    locks := fun v hv hh htype hne => ?_
    locked := fun b' hb' => h.proposal b' hb'
    shared := fun hnone => ?_
    sharedParts := fun _ => rfl }
  · by_cases heq : z.hash = v.blockID.hash
    · exact .inl ⟨b, hb, hhash.trans heq, h.rounds v hv hh⟩
    · have hle := h.rounds v hv hh
      refine .inr ⟨n.round, z, lt_of_le_of_ne hle fun hround => heq ?_, le_rfl, hpolka, heq⟩
      have hown := h.polkas v hv hh htype hne
      rw [hround] at hown
      rw [some.inj (hpolka.symm.trans hown)]
  · rw [hb] at hnone
    cases hnone

lemma Inv.relock (h : Inv hash partsOf n) :
    Inv hash partsOf { n with lockedRound := n.round } := by
  refine { h with lockedRound := le_rfl, locks := fun v hv hh htype hne => ?_ }
  refine (h.locks v hv hh htype hne).imp_left ?_
  rintro ⟨b, hb, hvb, -⟩
  exact ⟨b, hb, hvb, h.rounds v hv hh⟩

lemma Inv.sign (h : Inv hash partsOf n) {v : Vote} (hround : v.round = n.round)
    (hlock : v.type = .precommit → v.blockID.hash ≠ [] → n.polka n.round = some v.blockID ∧
      n.lockedRound = n.round ∧ ∃ b, n.lockedBlock = some b ∧ hash b = v.blockID.hash) :
    Inv hash partsOf { n with signed := v :: n.signed } := by
  refine { h with rounds := ?_, locks := ?_, polkas := ?_ }
  · intro w hw hh
    rcases mem_cons.mp hw with rfl | hw
    · exact hround.le
    · exact h.rounds w hw hh
  · intro w hw hh htype hne
    rcases mem_cons.mp hw with rfl | hw
    · obtain ⟨-, hlocked, b, hb, hwb⟩ := hlock htype hne
      exact .inl ⟨b, hb, hwb, by rw [hround]; exact hlocked.ge⟩
    · exact h.locks w hw hh htype hne
  · intro w hw hh htype hne
    rcases mem_cons.mp hw with rfl | hw
    · rw [hround]
      exact (hlock htype hne).1
    · exact h.polkas w hw hh htype hne

end Invariant

namespace Node

variable {cfg : Config E β}

lemma Signs.reaction {type : SignedMsgType} {blockID : BlockID} (hs : Signs n n' type blockID)
    (h : Inv hash partsOf n) (htype : type = .prevote ∨ type = .precommit)
    (hlocked : type = .prevote → ∀ w ∈ n.signed, w.height = n.height → w.type = .precommit →
      w.blockID.hash ≠ [] → blockID.hash = w.blockID.hash ∨
        ∃ r z, w.round < r ∧ r ≤ n.round ∧ n.polka r = some z ∧ z.hash ≠ w.blockID.hash)
    (hpolka : type = .precommit → blockID.hash ≠ [] → n.polka n.round = some blockID ∧
      n.lockedRound = n.round ∧ ∃ b, n.lockedBlock = some b ∧ hash b = blockID.hash)
    (hproper : blockID.hash ≠ [] → blockID.partsHeader = partsOf blockID.hash) :
    Reaction hash partsOf n n' ∧ n'.height = n.height ∧ n'.round = n.round := by
  rcases hs with rfl | ⟨v, rfl, rfl, hheight, hround, rfl, hlater⟩
  · exact ⟨.refl h, rfl, rfl⟩
  · have hcast : Castable partsOf n.height n.polka n.signed v :=
      ⟨hheight, htype, hlater, by rwa [hround], by rw [hround]; exact fun h1 h2 => (hpolka h1 h2).1,
        hproper⟩
    exact ⟨⟨.cast (.refl _) hcast, fun e he => .inl he, le_rfl,
      fun _ => ⟨h.sign hround hpolka, le_rfl, rfl, fun P hs => hs⟩⟩, rfl, rfl⟩

lemma Assembled.headerOf_eq {b : β} {ps : Option PartSet} (h : Assembled hash partsOf b ps) :
    headerOf ps = partsOf (hash b) := by
  obtain ⟨header, rfl, rfl⟩ := h
  rfl

lemma setVotes_reaction (h : Inv cfg.hash partsOf n) {votes : HeightVoteSet E}
    (hmaj : votes.majority = n.votes.majority) (hsound : ∀ P, n.votes.Sound P → votes.Sound P) :
    Reaction cfg.hash partsOf n { n with votes := votes } := by
  have hpolka : ∀ r, votes.majority r .prevote = n.polka r := fun r => by rw [hmaj]
  refine ⟨.refl _, fun _ he => .inl he, le_rfl, fun _ => ⟨?_, le_rfl, hmaj, hsound⟩⟩
  exact { h with
    locks := by simpa only [Node.polka, hpolka] using h.locks
    polkas := by simpa only [Node.polka, hpolka] using h.polkas
    proper := by simpa only [Node.polka, hpolka] using h.proper }

/-- The block that completes a part set is the proposal block from now on. Where there was one
before, its part set was complete. -/
lemma completeProposalBlock_inv (h : Inv cfg.hash partsOf n) {ps : PartSet} {b : β}
    (hps : n.proposalBlockParts = some ps) (hincomplete : ps.complete = false)
    (hparts : ps.header = partsOf (cfg.hash b)) :
    Inv cfg.hash partsOf (n.completeProposalBlock ps b) := by
  have hnone : n.proposalBlock = none := by
    cases hb : n.proposalBlock with
    | none => rfl
    | some b' =>
      obtain ⟨header, hps', -⟩ := h.proposal b' hb
      obtain rfl := some.inj (hps.symm.trans hps')
      cases hincomplete
  have hapart : n.lockedIsProposal = false := h.shared hnone
  have hkept : (n.completeProposalBlock ps b).lockedBlock = n.lockedBlock := by
    simp [completeProposalBlock, hapart]
  -- A part set that is shared with a lock is complete, so there is no lock.
  have hlocked : ∀ b', n.lockedBlock = some b' → n.lockedPartsAreProposal = false := by
    intro b' hb'
    cases hshared : n.lockedPartsAreProposal with
    | false => rfl
    | true =>
      obtain ⟨header, hps', -⟩ := h.locked b' hb'
      rw [h.sharedParts hshared, hps] at hps'
      cases hps'
      cases hincomplete
  refine { h with
    locks := by
      rw [hkept]
      exact h.locks
    proposal := ?_
    locked := ?_
    shared := nofun
    sharedParts := ?_ }
  · intro b' hb'
    cases hb'
    exact ⟨ps.header, rfl, hparts⟩
  · intro b' hb'
    rw [hkept] at hb'
    simpa [completeProposalBlock, hlocked b' hb'] using h.locked b' hb'
  · intro hshared
    have hshared : n.lockedPartsAreProposal = true := hshared
    simp [completeProposalBlock, hshared]

/-- If the event completes the part set of the node, the block is as it may be. -/
def CompletedBy (n : Node E β) (may : PartSet → β → Prop) : Event β → Prop
  | .blockPart height (.completes b _) => n.height = height → ∀ ps ∈ n.proposalBlockParts,
      ps.complete = false → may ps b
  | _ => True

/-- A part set is only completed by a block whose hash determines its header. -/
def PartsMatch (hash : β → Bytes) (partsOf : Bytes → PartSetHeader) (n : Node E β) :
    Event β → Prop :=
  n.CompletedBy fun ps b => ps.header = partsOf (hash b)

instance decidableCompletedBy (n : Node E β) (may : PartSet → β → Prop)
    [∀ ps b, Decidable (may ps b)] : ∀ e : Event β, Decidable (n.CompletedBy may e)
  | .blockPart height (.completes b _) => inferInstanceAs (Decidable (n.height = height →
      ∀ ps ∈ n.proposalBlockParts, ps.complete = false → may ps b))
  | .blockPart _ .incomplete => isTrue trivial
  | .proposal .. => isTrue trivial
  | .vote .. => isTrue trivial
  | .peerMaj23 .. => isTrue trivial
  | .timeout _ => isTrue trivial
  | .txsAvailable => isTrue trivial

instance (hash : β → Bytes) (partsOf : Bytes → PartSetHeader) (n : Node E β) (e : Event β) :
    Decidable (PartsMatch hash partsOf n e) :=
  decidableCompletedBy n _ e

end Node

namespace Recorded

variable {cfg : Config E β} {m m' : Recorded E β}

lemma Stays.reaction (hs : Stays cfg m m') (h : Inv cfg.hash partsOf m.toNode) :
    Reaction cfg.hash partsOf m.toNode m'.toNode := by
  cases hs with
  | enter later =>
    have hle := later.elim le_of_lt fun h => h.1.le
    exact .of_eq (h.setRound hle _) hle rfl rfl rfl rfl
  | schedule step => exact .of_eq (h.scheduleTimeout le_rfl step) le_rfl rfl rfl rfl rfl
  | trigger b => exact .of_eq { h with } le_rfl rfl rfl rfl rfl
  | forget => exact .of_eq { h with } le_rfl rfl rfl rfl rfl
  | tally hmaj hsound => exact Node.setVotes_reaction h hmaj hsound
  | drop => exact .of_eq { h with proposal := nofun, shared := fun _ => rfl } le_rfl rfl rfl rfl rfl
  | await ps hloose =>
    -- The parts of the block have the header that all polkas for it have.
    have hnone : m.proposalBlock = none := by
      cases hb : m.proposalBlock with
      | none => rfl
      | some b =>
        obtain ⟨header, hps, hparts⟩ := h.proposal b hb
        rcases hloose b hb with hnone | ⟨r, z, hz, hne, heq, hheader⟩
        · cases hps.symm.trans hnone
        · refine absurd ?_ hheader
          simp [hasHeader, hps, hparts, heq, h.proper r z hz hne]
    exact .of_eq (h.setProposalBlockParts hnone ps) le_rfl rfl rfl rfl rfl
  | @unlock r z hz hother hlater =>
    have hle : r ≤ m.round ∧ (m.lockedRound < r ∨ r = m.round) := by
      rcases hlater with hlater | hdue
      · exact ⟨hlater.2, .inl hlater.1⟩
      · have heq := hdue.eq h.timeouts
        exact ⟨heq.ge, .inr heq.symm⟩
    refine .of_eq (h.unlock hz hle.1 hle.2 fun b hb hne heq => hother ?_) le_rfl rfl rfl rfl rfl
    exact Node.hashesTo_iff.mpr ⟨heq ▸ hne, b, hb, heq.symm⟩
  | relock hz hhash hdue =>
    obtain rfl := hdue.eq h.timeouts
    exact .of_eq h.relock le_rfl rfl rfl rfl rfl
  | lock hz hother hhash hdue =>
    obtain rfl := hdue.eq h.timeouts
    obtain ⟨-, b, hb, heq⟩ := Node.hashesTo_iff.mp hhash
    exact .of_eq (h.lock hz hb heq) le_rfl rfl rfl rfl rfl
  | validate hz hhash => exact .of_eq { h with } le_rfl rfl rfl rfl rfl
  | select hhash =>
    obtain ⟨-, b, hb, -⟩ := Node.hashesTo_iff.mp hhash
    refine .of_eq { h with
      proposal := h.locked
      shared := fun hnone => ?_
      sharedParts := fun _ => rfl } le_rfl rfl rfl rfl rfl
    cases hb.symm.trans hnone

/-- The hash of a block determines the header of a part set that is completed to it. -/
def PartsOf (cfg : Config E β) (partsOf : Bytes → PartSetHeader) (_ : Recorded E β) (ps : PartSet)
    (b : β) : Prop := ps.header = partsOf (cfg.hash b)

lemma Change.reaction {height : ℤ} (hs : Change cfg (PartsOf cfg partsOf) height m m')
    (h : Inv cfg.hash partsOf m.toNode) : Reaction cfg.hash partsOf m.toNode m'.toNode := by
  cases hs with
  | stays hs => exact hs.reaction h
  | propose p hheight => exact .of_eq { h with } le_rfl rfl rfl rfl rfl
  | complete hps hincomplete hmay =>
    exact .of_eq (Node.completeProposalBlock_inv h hps hincomplete hmay) le_rfl rfl rfl rfl rfl
  | addLast lastCommit => exact .of_eq { h with } le_rfl rfl rfl rfl rfl
  | commit commitRound hstep => exact .of_eq { h with } le_rfl rfl rfl rfl rfl
  | store hheight hstores =>
    obtain ⟨_, _, _, rfl, hsaved⟩ := hstores
    exact ⟨.refl _, hsaved, le_rfl, fun _ => ⟨{ h with }, le_rfl, rfl, fun _ hs => hs⟩⟩
  | next hnew =>
    refine ⟨.refl _, fun _ he => .inl he, (Int.lt_succ _).le, fun heq => ?_⟩
    exact absurd heq (Int.lt_succ _).ne'

lemma Cast.reaction {height : ℤ} {c : SignCall} (hc : Cast cfg height m c m')
    (h : Inv cfg.hash partsOf m.toNode) : Reaction cfg.hash partsOf m.toNode m'.toNode := by
  cases hc with
  | @cast n round type step x hheight hchosen hsigns hdue hstep =>
    obtain rfl := hdue.eq h.timeouts
    -- Without a lock a later polka was for something else than what was precommitted.
    have hfree : m.lockedBlock = none → ∀ w ∈ m.signed, w.height = m.height →
        w.type = .precommit → w.blockID.hash ≠ [] →
          ∃ r z, w.round < r ∧ r ≤ m.round ∧ m.polka r = some z ∧ z.hash ≠ w.blockID.hash := by
      intro hnone w hw hh htype hne
      refine (h.locks w hw hh htype hne).resolve_left ?_
      rintro ⟨b, hb, -⟩
      cases hb.symm.trans hnone
    obtain ⟨hreact, hh, hr⟩ : Reaction cfg.hash partsOf m.toNode n ∧ n.height = m.height ∧
        n.round = m.round := by
      cases hchosen with
      | @locked b hb =>
        -- The lock is what was precommitted last, unless a later polka was for something else.
        refine hsigns.reaction h (.inl rfl) (fun _ w hw hh htype hne => ?_) nofun
          fun _ => Node.Assembled.headerOf_eq (h.locked b hb)
        refine (h.locks w hw hh htype hne).imp_left ?_
        rintro ⟨b', hb', hhash, -⟩
        rw [← hhash, some.inj (hb.symm.trans hb')]
      | @proposal b hnone hb =>
        exact hsigns.reaction h (.inl rfl)
          (fun _ w hw hh htype hne => .inr (hfree hnone w hw hh htype hne)) nofun
          fun _ => Node.Assembled.headerOf_eq (h.proposal b hb)
      | nothing hnone =>
        exact hsigns.reaction h (.inl rfl)
          (fun _ w hw hh htype hne => .inr (hfree hnone w hw hh htype hne)) nofun
          fun hne => absurd rfl hne
      | polka hz hround hhash =>
        obtain ⟨-, b, hb, heq⟩ := Node.hashesTo_iff.mp hhash
        exact hsigns.reaction h (.inr rfl) nofun (fun _ _ => ⟨hz, hround, b, hb, heq⟩)
          (h.proper _ _ hz)
      | noPolka =>
        exact hsigns.reaction h (.inr rfl) nofun (fun _ hne => absurd rfl hne)
          fun hne => absurd rfl hne
    exact hreact.trans hh (.of_eq ((hreact.stays hh).1.setRound hr.le step) hr.le rfl rfl rfl rfl)

/-- At the next height nothing is signed or saved any more. -/
lemma Change.frame {may : Recorded E β → PartSet → β → Prop} {height : ℤ}
    (hs : Change cfg may height m m') : m'.signed = m.signed ∧ m.height ≤ m'.height ∧
      (m.height ≠ height → m'.saved = m.saved) := by
  cases hs with
  | stays hs => cases hs <;> exact ⟨rfl, le_rfl, fun _ => rfl⟩
  | store hheight hstores =>
    obtain ⟨_, _, _, rfl, -⟩ := hstores
    exact ⟨rfl, le_rfl, fun hne => absurd hheight hne⟩
  | next hnew => exact ⟨rfl, (Int.lt_succ _).le, fun _ => rfl⟩
  | _ => exact ⟨rfl, le_rfl, fun _ => rfl⟩

lemma Reacts.reaction {x : Logged SignCall (Recorded E β)}
    (hx : Reacts cfg (PartsOf cfg partsOf) m.height m x) (hm : x.result = some m')
    (h : Inv cfg.hash partsOf m.toNode) : Reaction cfg.hash partsOf m.toNode m'.toNode := by
  have hpath : Logged.Path (Change cfg (PartsOf cfg partsOf) m.height) (Cast cfg m.height) m x.log
    (some m') := hm ▸ hx
  refine hpath.invariant (P := fun m' => Reaction cfg.hash partsOf m.toNode m'.toNode) ?_ ?_
    (.refl h)
  · intro m₁ m₂ hreact hs
    by_cases heq : m₁.height = m.height
    · exact hreact.trans heq (hs.reaction (hreact.stays heq).1)
    · obtain ⟨hsigned, hle, hsaved⟩ := hs.frame
      refine ⟨hsigned ▸ hreact.signed, hsaved heq ▸ hreact.saved, hreact.height.trans hle, ?_⟩
      exact fun heq' => absurd (le_antisymm (hle.trans_eq heq') hreact.height) heq
  · intro m₁ c m₂ hreact hc
    have heq : m₁.height = m.height := hc.advances.height ▸ hc.quiet
    exact hreact.trans heq (hc.reaction (hreact.stays heq).1)

end Recorded

namespace Node

variable {cfg : Config E β}

/-- A node takes in an event and then reacts. -/
lemma handle_reaction {e : Event β}
    (hmatch : PartsMatch cfg.hash partsOf n e) (hrun : n.handle cfg e = some n') :
    ∃ votes, n.votesAfter e = some votes ∧
      (Inv cfg.hash partsOf { n with votes := votes } →
        Reaction cfg.hash partsOf { n with votes := votes } n') := by
  obtain ⟨m', hm', rfl⟩ :=
    (Recorded.handle_projects cfg ⟨n, none, false, false⟩ e).exists_eq hrun
  cases hvotes : n.votesAfter e with
  | none =>
    rw [Recorded.handle_of_votesAfter_eq_none hvotes] at hm'
    cases hm'
  | some votes =>
    refine ⟨votes, rfl, Recorded.Reacts.reaction (m := ⟨_, none, false, false⟩)
      (Recorded.handle_reacts (m := ⟨n, none, false, false⟩) hvotes ?_) hm'⟩
    rintro height b ok rfl hheight ps hps hincomplete
    exact hmatch hheight ps hps hincomplete

end Node

end ShardingBC.Consensus
