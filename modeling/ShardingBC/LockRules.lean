import ShardingBC.Decided
import ShardingBC.LockedVoter

/-!
# Places, locks and calls along a run

Every event takes a node along a path of a voter with a lock. A block decoded into `ProposalBlock`
may change `LockedBlock` and `ValidBlock` in place.
-/
namespace ShardingBC.Consensus

open LockedVoting Logged Option Runs

variable {E : Electorate} {β : Type}

namespace SignCall

def place (c : SignCall) : Voter.Place := toLex (c.height, toLex (c.round, c.type.step))

/-- A precommit for a block follows a polka for it. -/
def Justified (c : SignCall) : Prop :=
  c.type = .precommit → c.blockID.hash ≠ [] → c.polka = some c.blockID

/-- The vote a call is for. -/
def Of (c : SignCall) (v : Vote) : Prop :=
  v.height = c.height ∧ v.round = c.round ∧ v.type = c.type ∧ v.blockID = c.blockID

end SignCall

namespace Recorded

open Consensus.Node (hashesTo PartResult)

def voter (m : Recorded E β) : Voter β Bytes where
  height := m.height
  round := m.round
  step := m.step.toUint8
  lockedRound := m.lockedRound
  locked := m.lockedBlock
  validRound := m.validRound
  valid := m.validBlock
  polka := fun r => (m.polka r).map BlockID.value
  alarms := m.timeouts.map fun t => (t.height, t.round)

/-- Blocks said to be one object are the same block. -/
structure Linked (m : Recorded E β) : Prop where
  locked : m.lockedIsProposal = true → m.proposalBlock.isSome ∧ m.lockedBlock = m.proposalBlock
  valid : m.validIsProposal = true → m.proposalBlock.isSome ∧ m.validBlock = m.proposalBlock
  lockedValid : m.validIsLocked = true →
    m.lockedBlock.isSome ∧ m.validBlock = m.lockedBlock ∧ m.validIsProposal = m.lockedIsProposal
  shared : m.validIsProposal = true → m.lockedIsProposal = true → m.validIsLocked = true

/-- The block decoded into `ProposalBlock` is the one that was there, if that is one object with
`LockedBlock` or `ValidBlock`. -/
def SameBlock (m : Recorded E β) (b : β) : Prop :=
  m.lockedIsProposal = true ∨ m.validIsProposal = true → ∀ b₀ ∈ m.proposalBlock, b = b₀

instance [DecidableEq β] (m : Recorded E β) (b : β) : Decidable (m.SameBlock b) :=
  inferInstanceAs (Decidable (_ → _))

/-- A move of the voter without a vote. -/
structure Moves (inPlace : Prop) (hash : β → Bytes) (m m' : Recorded E β) : Prop where
  voter : Voter.Move hash inPlace m.voter m'.voter
  linked : m.Linked → m'.Linked
  signed : m'.signed = m.signed

structure Calls (m : Recorded E β) (c : SignCall) (m' : Recorded E β) : Prop where
  voter : Voter.Casts m.voter c.place m'.voter
  linked : m.Linked → m'.Linked
  signed : m'.signed = m.signed ∨ ∃ v, m'.signed = v :: m.signed ∧ c.Of v
  justified : c.Justified

variable {inPlace : Prop} {cfg : Config E β} {m m' m'' : Recorded E β}

variable (inPlace cfg) in
/-- The computation is a path of the voter. -/
abbrev Follows (m : Recorded E β) (x : Logged SignCall (Recorded E β)) : Prop :=
  Takes (Moves inPlace cfg.hash) Calls m x

lemma Moves.of_eq (hvoter : m'.voter = m.voter)
    (hlinked : m.Linked → m'.Linked) (hsigned : m'.signed = m.signed) :
    Moves inPlace cfg.hash m m' :=
  ⟨hvoter ▸ .stay _, hlinked, hsigned⟩

section Blocks

lemma Linked.withNode {n : Node E β} (h : m.Linked) (hproposal : n.proposalBlock = m.proposalBlock)
    (hlocked : n.lockedBlock = m.lockedBlock) (hflag : n.lockedIsProposal = m.lockedIsProposal) :
    (m.withNode n).Linked := by
  refine ⟨fun hl => ?_, fun hv => ?_, fun hl => ?_, fun hv hl => ?_⟩
  · show n.proposalBlock.isSome ∧ n.lockedBlock = n.proposalBlock
    rw [hproposal, hlocked]
    exact h.locked (hflag.symm.trans hl)
  · show n.proposalBlock.isSome ∧ m.validBlock = n.proposalBlock
    rw [hproposal]
    exact h.valid hv
  · show n.lockedBlock.isSome ∧ m.validBlock = n.lockedBlock ∧
      m.validIsProposal = n.lockedIsProposal
    rw [hlocked, hflag]
    exact h.lockedValid hl
  · exact h.shared hv (hflag.symm.trans hl)

lemma Linked.dropProposalBlock (h : m.Linked) : m.dropProposalBlock.Linked :=
  ⟨nofun, nofun, fun hv => ⟨(h.lockedValid hv).1, (h.lockedValid hv).2.1, rfl⟩, nofun⟩

lemma Linked.unlock (h : m.Linked) : m.unlock.Linked :=
  ⟨nofun, h.valid, nofun, nofun⟩

lemma Linked.setValid (h : m.Linked) (hb : m.proposalBlock.isSome) : m.setValid.Linked :=
  ⟨h.locked, fun _ => ⟨hb, rfl⟩, fun hl => ⟨(h.locked hl).2 ▸ hb, (h.locked hl).2.symm, hl.symm⟩,
    fun _ hl => hl⟩

lemma isSome_of_hashesTo {b : Option β} {h : Bytes} (hh : hashesTo cfg b h = true) :
    b.isSome := by
  obtain ⟨-, b', rfl, -⟩ := Node.hashesTo_iff.mp hh
  rfl

lemma exists_polka_of_hashesTo {o : Option β} {z : BlockID} (hz : m.polka m.round = some z)
    (hh : hashesTo cfg o z.hash = true) :
    ∃ b, o = some b ∧ cfg.hash b = z.hash ∧
      m.voter.polka m.round = some (some (cfg.hash b)) := by
  obtain ⟨hne, b, rfl, hb⟩ := Node.hashesTo_iff.mp hh
  exact ⟨b, rfl, hb, map_eq_some_iff.mpr ⟨z, hz, by rw [hb]; exact if_neg hne⟩⟩

lemma value_ne_of_not_hashesTo {o : Option β} {z : BlockID} (hh : ¬ hashesTo cfg o z.hash = true)
    (b : β) (hb : o = some b) : z.value ≠ some (cfg.hash b) := by
  unfold BlockID.value
  split_ifs with hne
  · nofun
  · exact fun heq => hh (Node.hashesTo_iff.mpr ⟨hne, b, hb, (some.inj heq).symm⟩)

end Blocks

section Moves

/-- New vote sets that know every polka of the old ones. -/
lemma votes_moves {votes : HeightVoteSet E}
    (hgrows : ∀ r z, m.polka r = some z → votes.majority r .prevote = some z) :
    Moves inPlace cfg.hash m { m with votes := votes } := by
  refine ⟨.learn _ fun r x hx => ?_, fun h => h.withNode rfl rfl rfl, rfl⟩
  obtain ⟨z, hz, rfl⟩ := map_eq_some_iff.mp hx
  exact map_eq_some_iff.mpr ⟨z, hgrows r z hz, rfl⟩

/-! The lock is changed only for the polka of the round. -/

lemma unlock_moves {r : ℤ} {z : BlockID} (hz : m.polka r = some z) (hr : r ≤ m.round)
    (hlater : m.lockedRound < r ∨ r = m.round)
    (hother : ∀ b, m.lockedBlock = some b → z.value ≠ some (cfg.hash b)) :
    Moves inPlace cfg.hash m m.unlock :=
  ⟨.unlock _ (map_eq_some_iff.mpr ⟨z, hz, rfl⟩) hr hlater hother, Linked.unlock, rfl⟩

lemma relock_moves {z : BlockID} (hz : m.polka m.round = some z)
    (hhash : hashesTo cfg m.lockedBlock z.hash = true) :
    Moves inPlace cfg.hash m { m with lockedRound := m.round } := by
  obtain ⟨b, hb, -, hpolka⟩ := exists_polka_of_hashesTo hz hhash
  refine ⟨?_, fun h => h.withNode rfl rfl rfl, rfl⟩
  have hmove : Voter.Move cfg.hash inPlace _ _ := .lock m.voter hpolka fun b' hb' _ =>
    some.inj (hb'.symm.trans hb)
  rw [← hb] at hmove
  exact hmove

lemma lock_moves {z : BlockID} (hz : m.polka m.round = some z)
    (hother : ¬ hashesTo cfg m.lockedBlock z.hash = true)
    (hhash : hashesTo cfg m.proposalBlock z.hash = true) :
    Moves inPlace cfg.hash m { m with
      lockedRound := m.round
      lockedBlock := m.proposalBlock
      lockedBlockParts := m.proposalBlockParts
      lockedIsProposal := true
      lockedPartsAreProposal := true
      validIsLocked := m.validIsProposal } := by
  obtain ⟨b, hb, heq, hpolka⟩ := exists_polka_of_hashesTo hz hhash
  -- the locked block has another hash
  have hmove : Voter.Move cfg.hash inPlace _ _ := .lock m.voter hpolka fun b' hb' hsame =>
    absurd (Node.hashesTo_iff.mpr ⟨(Node.hashesTo_iff.mp hhash).1, b', hb', hsame.trans heq⟩) hother
  rw [← hb] at hmove
  have hsome := isSome_of_hashesTo hhash
  exact ⟨hmove, fun h => ⟨fun _ => ⟨hsome, rfl⟩, h.valid,
    fun hv => ⟨hsome, (h.valid hv).2, hv⟩, fun hv _ => hv⟩, rfl⟩

lemma Linked.completeProposalBlock (h : m.Linked) (ps : PartSet) (b : β) :
    (m.completeProposalBlock ps b).Linked := by
  refine ⟨fun hl => ⟨rfl, if_pos hl⟩, fun hv => ⟨rfl, if_pos hv⟩, fun hlv => ?_, h.shared⟩
  obtain ⟨hsome, hblock, hflag⟩ := h.lockedValid hlv
  show (if m.lockedIsProposal then some b else m.lockedBlock).isSome ∧
    (if m.validIsProposal then some b else m.validBlock) =
      (if m.lockedIsProposal then some b else m.lockedBlock) ∧ m.validIsProposal = m.lockedIsProposal
  rw [hflag, hblock]
  refine ⟨?_, rfl, rfl⟩
  split_ifs
  · rfl
  · exact hsome

lemma voter_completeProposalBlock (h : m.Linked) {ps : PartSet} {b : β} (hkeep : m.SameBlock b) :
    (m.completeProposalBlock ps b).voter = m.voter := by
  have hsame : ∀ {flag : Bool} {block : Option β},
      (flag = true → m.lockedIsProposal = true ∨ m.validIsProposal = true) →
      (flag = true → m.proposalBlock.isSome ∧ block = m.proposalBlock) →
      (if flag then some b else block) = block := by
    intro flag block hflag hblock
    split_ifs with hf
    · obtain ⟨hsome, rfl⟩ := hblock hf
      obtain ⟨b₀, hb₀⟩ := isSome_iff_exists.mp hsome
      rw [hb₀, hkeep (hflag hf) b₀ hb₀]
    · rfl
  have hlocked := hsame .inl h.locked
  have hvalid := hsame .inr h.valid
  unfold voter completeProposalBlock Node.completeProposalBlock
  rw [hlocked, hvalid]

lemma completeProposalBlock_moves (h : m.Linked) {ps : PartSet} {b : β}
    (hkeep : inPlace ∨ m.SameBlock b) : Moves inPlace cfg.hash m (m.completeProposalBlock ps b) := by
  refine ⟨?_, fun h => h.completeProposalBlock ps b, rfl⟩
  rcases hkeep with hin | hkeep
  · exact .overwrite _ hin _ _
  · rw [voter_completeProposalBlock h hkeep]
    exact .stay _

lemma setValid_moves {z : BlockID} (hz : m.polka m.round = some z)
    (hhash : hashesTo cfg m.proposalBlock z.hash = true) :
    Moves inPlace cfg.hash m m.setValid := by
  obtain ⟨b, hb, -, hpolka⟩ := exists_polka_of_hashesTo hz hhash
  have hmove : Voter.Move cfg.hash inPlace _ _ := .validate m.voter hpolka
  rw [← hb] at hmove
  exact ⟨hmove, fun h => h.setValid (isSome_of_hashesTo hhash), rfl⟩

lemma round_le_of_bounded (hbound : m.voter.Bounded) :
    ∀ t ∈ m.timeouts, t.height = m.height → t.round ≤ m.round := by
  intro t ht hheight
  rcases hbound.alarms (t.height, t.round) (List.mem_map_of_mem ht) with hlt | ⟨-, hle⟩
  · exact absurd hheight hlt.ne
  · exact hle

lemma Stays.moves (hs : Stays cfg m m') (hbound : m.voter.Bounded) :
    Moves inPlace cfg.hash m m' := by
  have hnow := round_le_of_bounded hbound
  cases hs with
  | enter later => exact ⟨.enter _ later, fun h => h.withNode rfl rfl rfl, rfl⟩
  | schedule step => exact ⟨.schedule _, fun h => h.withNode rfl rfl rfl, rfl⟩
  | trigger b => exact .of_eq rfl (fun h => h.withNode rfl rfl rfl) rfl
  | forget => exact .of_eq rfl (fun h => h.withNode rfl rfl rfl) rfl
  | tally hmaj hsound => exact votes_moves fun r z hz => by rwa [hmaj]
  | drop => exact .of_eq rfl Linked.dropProposalBlock rfl
  | await ps => exact .of_eq rfl (fun h => h.withNode rfl rfl rfl) rfl
  | unlock hz hother hlater =>
    rcases hlater with ⟨hlt, hle⟩ | hdue
    · exact unlock_moves hz hle (.inl hlt) (value_ne_of_not_hashesTo hother)
    · have heq := hdue.eq hnow
      exact unlock_moves hz heq.ge (.inr heq.symm) (value_ne_of_not_hashesTo hother)
  | relock hz hhash hdue =>
    obtain rfl := hdue.eq hnow
    exact relock_moves hz hhash
  | lock hz hother hhash hdue =>
    obtain rfl := hdue.eq hnow
    exact lock_moves hz hother hhash
  | validate hz hhash => exact setValid_moves hz hhash
  | select hhash =>
    refine .of_eq rfl (fun h => ?_) rfl
    have hsome := isSome_of_hashesTo hhash
    exact ⟨fun _ => ⟨hsome, rfl⟩, fun hv => ⟨hsome, (h.lockedValid hv).2.1⟩,
      fun hv => ⟨hsome, (h.lockedValid hv).2.1, hv⟩, fun hv _ => hv⟩

def MayDecode (inPlace : Prop) (m : Recorded E β) (_ : PartSet) (b : β) : Prop :=
  inPlace ∨ m.SameBlock b

lemma Change.moves {height : ℤ} (hs : Change cfg (MayDecode inPlace) height m m')
    (hbound : m.voter.Bounded) (hlinked : m.Linked) : Moves inPlace cfg.hash m m' := by
  cases hs with
  | stays hs => exact hs.moves hbound
  | propose p hheight => exact .of_eq rfl (fun h => h.withNode rfl rfl rfl) rfl
  | complete hps hincomplete hmay => exact completeProposalBlock_moves hlinked hmay
  | addLast lastCommit => exact .of_eq rfl (fun h => h.withNode rfl rfl rfl) rfl
  | commit commitRound hstep =>
    exact ⟨.enter _ (.inr ⟨rfl, hstep⟩), fun h => h.withNode rfl rfl rfl, rfl⟩
  | store hheight hstores =>
    obtain ⟨_, _, _, rfl, -⟩ := hstores
    exact .of_eq rfl (fun h => h.withNode rfl rfl rfl) rfl
  | @next votes hnew =>
    have hpolka : (fun r => (votes.majority r .prevote).map BlockID.value) = fun _ => none := by
      funext r
      rw [(HeightVoteSet.new_spec hnew).2.2.1]
      rfl
    have hnext : Voter.Move cfg.hash inPlace m.voter _ := .next _ RoundStep.newHeight.toUint8
    rw [← hpolka] at hnext
    exact ⟨hnext, fun _ => ⟨nofun, nofun, nofun, nofun⟩, rfl⟩

lemma Cast.calls {height : ℤ} {c : SignCall} (hc : Cast cfg height m c m')
    (hbound : m.voter.Bounded) : Calls m c m' := by
  cases hc with
  | @cast n round type step x hheight hchosen hsigns hdue hstep =>
    obtain rfl := hdue.eq (round_le_of_bounded hbound)
    have htype : type.step = step.toUint8 := by cases hchosen <;> rfl
    have hcast : ∀ m' : Recorded E β,
        m'.voter = { m.voter with step := step.toUint8 } →
        Voter.Casts m.voter (toLex (m.height, toLex (m.round, type.step))) m'.voter := by
      intro m' hm'
      rw [hm', htype]
      exact .cast _ (not_le.mp (hstep rfl))
    have hjust : SignCall.Justified ⟨m.height, m.round, type, x, m.polka m.round⟩ := by
      cases hchosen with
      | polka hz hround hhash => exact fun _ _ => hz
      | noPolka => exact fun _ hne => absurd rfl hne
      | _ => nofun
    rcases hsigns with rfl | ⟨v, rfl, h1, h2, h3, h4, -⟩
    · exact ⟨hcast _ rfl, fun hl => hl.withNode rfl rfl rfl, .inl rfl, hjust⟩
    · exact ⟨hcast _ rfl, fun hl => hl.withNode rfl rfl rfl, .inr ⟨v, rfl, h2, h3, h1, h4⟩, hjust⟩

end Moves

section Handle

/-- `ProposalBlock` is overwritten only by itself or while it is not one object with `LockedBlock`
or `ValidBlock`. -/
def KeepsBlock (m : Recorded E β) : Event β → Prop := m.toNode.CompletedBy fun _ => m.SameBlock

instance decidableKeepsBlock [DecidableEq β] (m : Recorded E β) (e : Event β) :
    Decidable (KeepsBlock m e) :=
  Node.decidableCompletedBy m.toNode _ e

/-- What an event does to a node is a path of the voter. -/
lemma handle_follows (e : Event β) (hbound : m.voter.Bounded) (hlinked : m.Linked)
    (hkeep : inPlace ∨ KeepsBlock m e) : Follows inPlace cfg m (m.handle cfg e) := by
  cases hvotes : m.toNode.votesAfter e with
  | none =>
    rw [handle_of_votesAfter_eq_none hvotes]
    exact .fails m
  | some votes =>
    have hmay : ∀ height b ok, e = .blockPart height (.completes b ok) → m.height = height →
        ∀ ps ∈ m.proposalBlockParts, ps.complete = false → MayDecode inPlace m ps b := by
      rintro height b ok rfl hheight ps hps hincomplete
      exact hkeep.imp_right fun hk => hk hheight ps hps hincomplete
    have hlearn : Moves inPlace cfg.hash m { m with votes := votes } := votes_moves fun r z hz =>
      (Node.votesAfter_spec hvotes).1.majority r _ z hz
    refine .moves hlearn ((handle_reacts hvotes hmay).imp
      (P := fun m => m.voter.Bounded ∧ m.Linked) ?_ ?_
      ⟨hbound.move hlearn.voter, hlearn.linked hlinked⟩)
    · rintro m₁ m₂ ⟨hb, hl⟩ hs
      have hmoves := hs.moves hb hl
      exact ⟨hmoves, hb.move hmoves.voter, hmoves.linked hl⟩
    · rintro m₁ c m₂ ⟨hb, hl⟩ hc
      have hcalls := hc.calls hb
      exact ⟨hcalls, hb.casts hcalls.voter, hcalls.linked hl⟩

end Handle

end Recorded

end ShardingBC.Consensus
