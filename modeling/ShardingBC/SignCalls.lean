import ShardingBC.ConsensusState
import ShardingBC.Logged

/-!
# The calls of the consensus state machine

The state machine with its `ValidBlock` and with a log of the calls of `signAddVote`,
also of those that end in a panic. Without them it is the state machine of a node.
-/
namespace ShardingBC.Consensus

open Logged

/-- A call of `signAddVote`, with the majority of the prevotes of its round. -/
structure SignCall where
  height : ℤ
  round : ℤ
  type : SignedMsgType
  blockID : BlockID
  polka : Option BlockID
deriving DecidableEq

/-- A node with its `ValidBlock`, which may be one object with `ProposalBlock` and `LockedBlock`. -/
structure Recorded (E : Electorate) (β : Type) extends Node E β where
  validBlock : Option β
  validIsProposal : Bool
  validIsLocked : Bool

namespace Recorded

open Consensus.Node (hashesTo polRound verifyTxs PartResult)

variable {E : Electorate} {β : Type} (cfg : Config E β)

/-- A change that no block object is concerned with. -/
def withNode (m : Recorded E β) (n : Node E β) : Recorded E β := { m with toNode := n }

def dropProposalBlock (m : Recorded E β) : Recorded E β :=
  { m with toNode := m.toNode.dropProposalBlock, validIsProposal := false }

def setProposalBlockParts (m : Recorded E β) (ps : Option PartSet) : Recorded E β :=
  m.withNode (m.toNode.setProposalBlockParts ps)

def unlock (m : Recorded E β) : Recorded E β :=
  { m with toNode := m.toNode.unlock, validIsLocked := false }

/-- `ValidBlock` is set to `ProposalBlock`, in the current round. -/
def setValid (m : Recorded E β) : Recorded E β :=
  { m with
    validRound := m.round
    validBlock := m.proposalBlock
    validIsProposal := true
    validIsLocked := m.lockedIsProposal }

def signAddVote (m : Recorded E β) (type : SignedMsgType) (hash : Bytes) (header : PartSetHeader) :
    Logged SignCall (Recorded E β) :=
  .entry ⟨m.height, m.round, type, ⟨hash, header⟩, m.votes.majority m.round .prevote⟩
    ((m.toNode.signAddVote cfg type hash header).map m.withNode)

def defaultDoPrevote (m : Recorded E β) : Logged SignCall (Recorded E β) :=
  match m.lockedBlock with
  | some b => m.signAddVote cfg .prevote (cfg.hash b) (headerOf m.lockedBlockParts)
  | none =>
    match m.proposalBlock with
    | none => m.signAddVote cfg .prevote [] .zero
    | some b =>
      if !cfg.validateBlock b || !verifyTxs cfg (cfg.txs b) then
        m.signAddVote cfg .prevote [] .zero
      else m.signAddVote cfg .prevote (cfg.hash b) (headerOf m.proposalBlockParts)

def enterPrevote (m : Recorded E β) (height round : ℤ) : Logged SignCall (Recorded E β) :=
  if m.height ≠ height ∨ round < m.round ∨ m.round = round ∧ RoundStep.prevote ≤ m.step then pure m
  else do
    let m ← m.defaultDoPrevote cfg
    pure { m with round := round, step := .prevote }

def enterPropose (m : Recorded E β) (height round : ℤ) : Logged SignCall (Recorded E β) :=
  if m.height ≠ height ∨ round < m.round ∨ m.round = round ∧ RoundStep.propose ≤ m.step then pure m
  else
    let m := m.withNode
      { m.toNode.scheduleTimeout height round .propose with round := round, step := .propose }
    if m.isProposalComplete then m.enterPrevote cfg height m.round else pure m

def resetRound (m : Recorded E β) (round : ℤ) : Recorded E β :=
  { m with
    toNode := m.toNode.resetRound round
    validIsProposal := if round = 0 then m.validIsProposal else false }

def waitOrPropose (m : Recorded E β) (height round : ℤ) : Logged SignCall (Recorded E β) :=
  if cfg.waitForTxs && round = 0 then
    pure (if cfg.createEmptyBlocksInterval then
      m.withNode (m.toNode.scheduleTimeout height round .newRound) else m)
  else m.enterPropose cfg height round

def enterNewRound (m : Recorded E β) (height round : ℤ) : Logged SignCall (Recorded E β) :=
  if m.height ≠ height ∨ round < m.round ∨ m.round = round ∧ m.step ≠ .newHeight then pure m
  else do
    let votes ← lift (m.votes.setRound (round + 1))
    { m.resetRound round with votes := votes }.waitOrPropose cfg height round

def enterPrevoteWait (m : Recorded E β) (height round : ℤ) : Logged SignCall (Recorded E β) :=
  lift ((m.toNode.enterPrevoteWait height round).map m.withNode)

/-- The body of `enterPrecommit`. -/
def doPrecommit (m : Recorded E β) (round : ℤ) : Logged SignCall (Recorded E β) :=
  match m.votes.majority round .prevote with
  | none => m.signAddVote cfg .precommit [] .zero
  | some blockID =>
    if polRound m.votes < round then lift none
    else if blockID.hash = [] then m.unlock.signAddVote cfg .precommit [] .zero
    else if hashesTo cfg m.lockedBlock blockID.hash then
      { m with lockedRound := round }.signAddVote cfg .precommit blockID.hash blockID.partsHeader
    else if hashesTo cfg m.proposalBlock blockID.hash then
      if !m.proposalBlock.all cfg.validateBlock then lift none
      else
        { m with
          lockedRound := round
          lockedBlock := m.proposalBlock
          lockedBlockParts := m.proposalBlockParts
          lockedIsProposal := true
          lockedPartsAreProposal := true
          validIsLocked := m.validIsProposal }.signAddVote cfg .precommit blockID.hash
            blockID.partsHeader
    else
      let m := m.unlock
      let m := if hasHeader m.proposalBlockParts blockID.partsHeader then m
        else m.dropProposalBlock.setProposalBlockParts
          (some (newPartSetFromHeader blockID.partsHeader))
      m.signAddVote cfg .precommit [] .zero

def enterPrecommit (m : Recorded E β) (height round : ℤ) : Logged SignCall (Recorded E β) :=
  if m.height ≠ height ∨ round < m.round ∨ m.round = round ∧ RoundStep.precommit ≤ m.step then
    pure m
  else do
    let m ← m.doPrecommit cfg round
    pure { m with round := round, step := .precommit }

def enterPrecommitWait (m : Recorded E β) (height round : ℤ) : Logged SignCall (Recorded E β) :=
  lift ((m.toNode.enterPrecommitWait height round).map m.withNode)

/-- `updateToState`, which alone changes the height, resets `ValidBlock`. -/
def settle (m : Recorded E β) (n : Node E β) : Recorded E β :=
  if n.height = m.height then m.withNode n else ⟨n, none, false, false⟩

def tryFinalizeCommit (m : Recorded E β) (height : ℤ) : Logged SignCall (Recorded E β) :=
  lift ((m.toNode.tryFinalizeCommit cfg height).map m.settle)

/-- The body of `enterCommit`: the block to commit, as far as the node has it. -/
def selectCommitBlock (m : Recorded E β) (blockID : BlockID) : Recorded E β :=
  let m := if hashesTo cfg m.lockedBlock blockID.hash then
      { m with
        proposalBlock := m.lockedBlock, proposalBlockParts := m.lockedBlockParts
        lockedIsProposal := true, lockedPartsAreProposal := true
        validIsProposal := m.validIsLocked }
    else m
  if hashesTo cfg m.proposalBlock blockID.hash || hasHeader m.proposalBlockParts blockID.partsHeader
  then m
  else m.dropProposalBlock.setProposalBlockParts (some (newPartSetFromHeader blockID.partsHeader))

def enterCommit (m : Recorded E β) (height commitRound : ℤ) : Logged SignCall (Recorded E β) :=
  if m.height ≠ height ∨ RoundStep.commit ≤ m.step then pure m
  else do
    let blockID ← lift (m.votes.majority commitRound .precommit)
    { m.selectCommitBlock cfg blockID with step := .commit, commitRound := commitRound
      }.tryFinalizeCommit cfg height

/-- The part set is complete and its block decoded into `ProposalBlock`. -/
def completeProposalBlock (m : Recorded E β) (ps : PartSet) (b : β) : Recorded E β :=
  { m with
    toNode := m.toNode.completeProposalBlock ps b
    validBlock := if m.validIsProposal then some b else m.validBlock }

def stepOnBlock (m : Recorded E β) (polka : Option BlockID) (height : ℤ) :
    Logged SignCall (Recorded E β) := do
  if m.step ≤ .propose ∧ m.isProposalComplete then
    let m ← m.enterPrevote cfg height m.round
    if polka.isSome then m.enterPrecommit cfg height m.round else pure m
  else if m.step = .commit then m.tryFinalizeCommit cfg height
  else pure m

/-- The rest of `addProposalBlockPart` once the block is there. -/
def afterCompleteBlock (m : Recorded E β) (height : ℤ) : Logged SignCall (Recorded E β) :=
  let polka := m.votes.majority m.round .prevote
  let m := if polka.any (fun blockID => blockID ≠ .zero ∧ m.validRound < m.round ∧
      hashesTo cfg m.proposalBlock blockID.hash) then m.setValid else m
  m.stepOnBlock cfg polka height

def addProposalBlockPart (m : Recorded E β) (height : ℤ) (part : PartResult β) :
    Logged SignCall (Recorded E β) :=
  if m.height ≠ height then pure m
  else
    match m.proposalBlockParts, part with
    | some ps, .completes b ok =>
      if ps.complete then pure m
      else
        let m := m.completeProposalBlock ps b
        if ok then m.afterCompleteBlock cfg height else pure m
    | _, _ => pure m

/-- The first polka part of `addVote`: a polka for something else after the lock
unlocks. -/
def unlockOnPolka (m : Recorded E β) (round : ℤ) (blockID : BlockID) : Recorded E β :=
  if m.lockedBlock.isSome ∧ m.lockedRound < round ∧ round ≤ m.round ∧
    !hashesTo cfg m.lockedBlock blockID.hash then m.unlock else m

/-- The second part: the block of a polka in this round is the valid one. -/
def setValidBlock (m : Recorded E β) (round : ℤ) (blockID : BlockID) : Recorded E β :=
  if blockID.hash ≠ [] ∧ m.validRound < round ∧ round = m.round then
    let m := if hashesTo cfg m.proposalBlock blockID.hash then m.setValid else m.dropProposalBlock
    if hasHeader m.proposalBlockParts blockID.partsHeader then m
    else m.setProposalBlockParts (some (newPartSetFromHeader blockID.partsHeader))
  else m

def applyPolka (m : Recorded E β) (round : ℤ) (blockID : BlockID) : Recorded E β :=
  (m.unlockOnPolka cfg round blockID).setValidBlock cfg round blockID

def stepOnPrevotes (m : Recorded E β) (polka : Option BlockID) (height round : ℤ) :
    Logged SignCall (Recorded E β) :=
  if m.round < round ∧ m.votes.hasTwoThirdsAny round .prevote then m.enterNewRound cfg height round
  else if m.round = round ∧ RoundStep.prevote ≤ m.step then
    if polka.any fun blockID => m.isProposalComplete || blockID.hash = [] then
      m.enterPrecommit cfg height round
    else if m.votes.hasTwoThirdsAny round .prevote then m.enterPrevoteWait height round
    else pure m
  else if m.proposal.any (fun p => 0 ≤ p.polRound ∧ p.polRound = round) ∧ m.isProposalComplete then
    m.enterPrevote cfg height m.round
  else pure m

def afterPrevote (m : Recorded E β) (height round : ℤ) : Logged SignCall (Recorded E β) :=
  let polka := m.votes.majority round .prevote
  (polka.elim m (m.applyPolka cfg round)).stepOnPrevotes cfg polka height round

def afterPrecommit (m : Recorded E β) (height round : ℤ) : Logged SignCall (Recorded E β) :=
  match m.votes.majority round .precommit with
  | some blockID => do
      let hasAll := (m.votes.precommits round).any VoteSet.hasAll
      let m ← m.enterNewRound cfg height round
      let m ← m.enterPrecommit cfg height round
      if blockID.hash ≠ [] then do
        let m ← m.enterCommit cfg height round
        if cfg.skipTimeoutCommit && hasAll then m.enterNewRound cfg m.height 0 else pure m
      else m.enterPrecommitWait height round
  | none =>
    if m.round ≤ round ∧ m.votes.hasTwoThirdsAny round .precommit then do
      let m ← m.enterNewRound cfg height round
      m.enterPrecommitWait height round
    else pure m

/-- `addVote` for a vote of the previous height. -/
def addLastCommitVote (m : Recorded E β) (vote : Vote) : Logged SignCall (Recorded E β) :=
  if ¬ (m.step = .newHeight ∧ vote.type = .precommit) then pure m
  else do
    let lastCommit ← lift m.lastCommit
    let (lastCommit, added, _) ← lift (lastCommit.addVote vote)
    let m := { m with lastCommit := some lastCommit }
    if added && cfg.skipTimeoutCommit && lastCommit.hasAll then m.enterNewRound cfg m.height 0
    else pure m

def addVote (m : Recorded E β) (vote : Vote) (peerID : Bytes) (allCms : List CrossMessages) :
    Logged SignCall (Recorded E β) :=
  if vote.height + 1 = m.height then m.addLastCommitVote cfg vote
  else if vote.height ≠ m.height then pure m
  else do
    let (votes, added, _) ← lift (m.votes.addVote vote peerID)
    let m := { m with votes := votes }
    if !added || !m.checkpointAgrees cfg allCms then pure m
    else
      match vote.type with
      | .prevote => m.afterPrevote cfg m.height vote.round
      | .precommit => m.afterPrecommit cfg m.height vote.round
      | _ => lift none

def handleTimeout (m : Recorded E β) (ti : TimeoutInfo) : Logged SignCall (Recorded E β) :=
  if ti.height ≠ m.height ∨ ti.round < m.round ∨ ti.round = m.round ∧ ti.step < m.step then pure m
  else
    match ti.step with
    | .newHeight => m.enterNewRound cfg ti.height 0
    | .newRound => m.enterPropose cfg ti.height 0
    | .propose => m.enterPrevote cfg ti.height ti.round
    | .prevoteWait => m.enterPrecommit cfg ti.height ti.round
    | .precommitWait => do
        let m ← m.enterPrecommit cfg ti.height ti.round
        m.enterNewRound cfg ti.height (ti.round + 1)
    | _ => lift none

def handleTxsAvailable (m : Recorded E β) : Logged SignCall (Recorded E β) := do
  let m ← m.enterNewRound cfg m.height 0
  m.enterPropose cfg m.height 0

def handle (m : Recorded E β) : Event β → Logged SignCall (Recorded E β)
  | .proposal p signed => pure (m.withNode (m.toNode.setProposal p signed))
  | .blockPart height part => m.addProposalBlockPart cfg height part
  | .vote vote peerID allCms => m.addVote cfg vote peerID allCms
  | .peerMaj23 height round type peerID blockID =>
    pure (if height = m.height then
      { m with votes := m.votes.setPeerMaj23 round type peerID blockID } else m)
  | .timeout ti => if ti ∈ m.timeouts then m.handleTimeout cfg ti else pure m
  | .txsAvailable => m.handleTxsAvailable cfg

/-- A run, with all calls made on the way. -/
def record (m : Recorded E β) (events : List (Event β)) : Logged SignCall (Recorded E β) :=
  runAll (handle cfg) m events

section Projection

/-- The computation comes to the same state of the node. -/
def Projects (x : Logged SignCall (Recorded E β)) (o : Option (Node E β)) : Prop :=
  x.result.map toNode = o

variable {x x' : Logged SignCall (Recorded E β)} {o o' : Option (Node E β)}

lemma projects_pure (m : Recorded E β) : Projects (pure m) (some m.toNode) := rfl

lemma projects_lift {f : Node E β → Recorded E β} (hf : ∀ n, (f n).toNode = n)
    (o : Option (Node E β)) : Projects (lift (o.map f)) o := by
  cases o with
  | none => rfl
  | some n => exact congrArg some (hf n)

lemma Projects.bind {f : Recorded E β → Logged SignCall (Recorded E β)}
    {g : Node E β → Option (Node E β)} (hx : Projects x o) (hf : ∀ m, Projects (f m) (g m.toNode)) :
    Projects (x >>= f) (o.bind g) :=
  map_result_bind hx fun m _ => hf m

lemma Projects.map {f : Recorded E β → Recorded E β} {g : Node E β → Node E β}
    (hx : Projects x o) (hf : ∀ m, (f m).toNode = g m.toNode) :
    Projects (x >>= fun m => pure (f m)) (o.map g) := by
  rw [Option.map_eq_bind]
  exact hx.bind fun m => congrArg some (hf m)

lemma projects_lift_bind {α : Type} {a : Option α} {f : α → Logged SignCall (Recorded E β)}
    {g : α → Option (Node E β)} (hf : ∀ y, Projects (f y) (g y)) :
    Projects (lift a >>= f) (a.bind g) := by
  cases a with
  | none => rfl
  | some y => exact hf y

lemma Projects.exists_eq {n : Node E β} (h : Projects x o) (ho : o = some n) :
    ∃ m, x.result = some m ∧ m.toNode = n :=
  Option.map_eq_some_iff.mp (h.trans ho)

lemma Projects.ite {c : Prop} [Decidable c] (hx : Projects x o) (hx' : Projects x' o') :
    Projects (if c then x else x') (if c then o else o') := by
  split_ifs
  · exact hx
  · exact hx'

@[simp] lemma toNode_ite {c : Prop} [Decidable c] {m m' : Recorded E β} :
    (if c then m else m').toNode = if c then m.toNode else m'.toNode := apply_ite _ _ _ _

variable (m : Recorded E β)

lemma signAddVote_projects (type : SignedMsgType) (hash : Bytes) (header : PartSetHeader) :
    Projects (m.signAddVote cfg type hash header) (m.toNode.signAddVote cfg type hash header) :=
  projects_lift (fun _ => rfl) _

lemma defaultDoPrevote_projects :
    Projects (m.defaultDoPrevote cfg) (m.toNode.defaultDoPrevote cfg) := by
  unfold defaultDoPrevote Node.defaultDoPrevote
  cases m.lockedBlock with
  | some b => exact signAddVote_projects cfg m ..
  | none =>
    cases m.proposalBlock with
    | none => exact signAddVote_projects cfg m ..
    | some b => exact .ite (signAddVote_projects cfg m ..) (signAddVote_projects cfg m ..)

variable (height round : ℤ)

lemma enterPrevote_projects :
    Projects (m.enterPrevote cfg height round) (m.toNode.enterPrevote cfg height round) :=
  .ite (projects_pure m) ((defaultDoPrevote_projects cfg m).map fun _ => rfl)

lemma enterPropose_projects :
    Projects (m.enterPropose cfg height round) (m.toNode.enterPropose cfg height round) :=
  .ite (projects_pure m) (.ite (enterPrevote_projects ..) (projects_pure _))

lemma enterNewRound_projects :
    Projects (m.enterNewRound cfg height round) (m.toNode.enterNewRound cfg height round) :=
  .ite (projects_pure m) (projects_lift_bind fun _ =>
    .ite (congrArg some toNode_ite) (enterPropose_projects ..))

lemma doPrecommit_projects :
    Projects (m.doPrecommit cfg round) (m.toNode.doPrecommit cfg round) := by
  have hnil : ∀ (m : Recorded E β) (n : Node E β), m.toNode = n → Projects
      (m.signAddVote cfg .precommit [] .zero) (n.signAddVote cfg .precommit [] .zero) := by
    rintro m _ rfl
    exact signAddVote_projects ..
  unfold doPrecommit Node.doPrecommit
  cases m.votes.majority round .prevote with
  | none => exact hnil m _ rfl
  | some blockID =>
    refine .ite rfl (.ite (signAddVote_projects ..) (.ite (signAddVote_projects ..)
      (.ite (.ite rfl (signAddVote_projects ..)) ?_)))
    exact hnil _ _ toNode_ite

lemma enterPrecommit_projects :
    Projects (m.enterPrecommit cfg height round) (m.toNode.enterPrecommit cfg height round) :=
  .ite (projects_pure m) ((doPrecommit_projects cfg m round).map fun _ => rfl)

@[simp] lemma settle_toNode (n : Node E β) : (m.settle n).toNode = n := by
  unfold settle
  split_ifs <;> rfl

lemma tryFinalizeCommit_projects :
    Projects (m.tryFinalizeCommit cfg height) (m.toNode.tryFinalizeCommit cfg height) :=
  projects_lift (settle_toNode m) _

@[simp] lemma selectCommitBlock_toNode (blockID : BlockID) :
    (m.selectCommitBlock cfg blockID).toNode = m.toNode.selectCommitBlock cfg blockID := by
  unfold selectCommitBlock Node.selectCommitBlock
  dsimp only
  split_ifs <;> rfl

lemma enterCommit_projects :
    Projects (m.enterCommit cfg height round) (m.toNode.enterCommit cfg height round) := by
  refine .ite (projects_pure m) (projects_lift_bind fun blockID => ?_)
  rw [← selectCommitBlock_toNode cfg m blockID]
  exact tryFinalizeCommit_projects cfg _ height

lemma stepOnBlock_projects (polka : Option BlockID) {n : Node E β} (hn : m.toNode = n) :
    Projects (m.stepOnBlock cfg polka height) (n.stepOnBlock cfg polka height) := by
  subst hn
  exact .ite ((enterPrevote_projects ..).bind fun m =>
      .ite (enterPrecommit_projects ..) (projects_pure m))
    (.ite (tryFinalizeCommit_projects ..) (projects_pure m))

lemma afterCompleteBlock_projects :
    Projects (m.afterCompleteBlock cfg height) (m.toNode.afterCompleteBlock cfg height) :=
  stepOnBlock_projects cfg _ height _ toNode_ite

lemma addProposalBlockPart_projects (part : PartResult β) :
    Projects (m.addProposalBlockPart cfg height part)
      (m.toNode.addProposalBlockPart cfg height part) := by
  refine .ite (projects_pure m) ?_
  cases hps : m.proposalBlockParts with
  | none => exact projects_pure m
  | some ps =>
    cases part with
    | incomplete => exact projects_pure m
    | completes b ok =>
      refine .ite (projects_pure m) (.ite ?_ (projects_pure _))
      exact afterCompleteBlock_projects cfg (m.completeProposalBlock ps b) height

@[simp] lemma setValidBlock_toNode (blockID : BlockID) :
    (m.setValidBlock cfg round blockID).toNode = m.toNode.setValidBlock cfg round blockID := by
  unfold setValidBlock Node.setValidBlock
  by_cases hpolka : blockID.hash ≠ [] ∧ m.validRound < round ∧ round = m.round
  · rw [if_pos hpolka, if_pos hpolka]
    obtain rfl := hpolka.2.2
    by_cases hhash : hashesTo cfg m.proposalBlock blockID.hash
    · simp only [if_pos hhash]
      exact toNode_ite
    · simp only [if_neg hhash]
      exact toNode_ite
  · rw [if_neg hpolka, if_neg hpolka]

@[simp] lemma applyPolka_toNode (blockID : BlockID) :
    (m.applyPolka cfg round blockID).toNode = m.toNode.applyPolka cfg round blockID := by
  have hunlock : (m.unlockOnPolka cfg round blockID).toNode =
      m.toNode.unlockOnPolka cfg round blockID := toNode_ite
  rw [applyPolka, setValidBlock_toNode, hunlock, Node.applyPolka]

lemma stepOnPrevotes_projects (polka : Option BlockID) {n : Node E β} (hn : m.toNode = n) :
    Projects (m.stepOnPrevotes cfg polka height round)
      (n.stepOnPrevotes cfg polka height round) := by
  subst hn
  exact .ite (enterNewRound_projects ..) (.ite (.ite (enterPrecommit_projects ..)
    (.ite (projects_lift (fun _ => rfl) _) (projects_pure m)))
    (.ite (enterPrevote_projects ..) (projects_pure m)))

lemma afterPrevote_projects :
    Projects (m.afterPrevote cfg height round) (m.toNode.afterPrevote cfg height round) := by
  refine stepOnPrevotes_projects cfg _ height round _ ?_
  cases m.votes.majority round .prevote with
  | none => rfl
  | some blockID => exact applyPolka_toNode cfg m round blockID

lemma afterPrecommit_projects :
    Projects (m.afterPrecommit cfg height round) (m.toNode.afterPrecommit cfg height round) := by
  unfold afterPrecommit Node.afterPrecommit
  cases m.votes.majority round .precommit with
  | none =>
    exact .ite ((enterNewRound_projects ..).bind fun m => projects_lift (fun _ => rfl) _)
      (projects_pure m)
  | some blockID =>
    refine (enterNewRound_projects ..).bind fun m => (enterPrecommit_projects ..).bind fun m => ?_
    refine .ite ((enterCommit_projects ..).bind fun m => ?_) (projects_lift (fun _ => rfl) _)
    exact .ite (enterNewRound_projects ..) (projects_pure m)

lemma addLastCommitVote_projects (vote : Vote) :
    Projects (m.addLastCommitVote cfg vote) (m.toNode.addLastCommitVote cfg vote) := by
  refine .ite (projects_pure m) (projects_lift_bind fun lastCommit => projects_lift_bind ?_)
  rintro ⟨lastCommit, added, -⟩
  exact .ite (enterNewRound_projects ..) (projects_pure _)

lemma addVote_projects (vote : Vote) (peerID : Bytes) (allCms : List CrossMessages) :
    Projects (m.addVote cfg vote peerID allCms) (m.toNode.addVote cfg vote peerID allCms) := by
  refine .ite (addLastCommitVote_projects ..) (.ite (projects_pure m) (projects_lift_bind ?_))
  rintro ⟨votes, added, -⟩
  refine .ite (projects_pure _) ?_
  cases vote.type with
  | prevote => exact afterPrevote_projects ..
  | precommit => exact afterPrecommit_projects ..
  | proposal => rfl
  | other => rfl

lemma handleTimeout_projects (ti : TimeoutInfo) :
    Projects (m.handleTimeout cfg ti) (m.toNode.handleTimeout cfg ti) := by
  refine .ite (projects_pure m) ?_
  cases ti.step with
  | newHeight => exact enterNewRound_projects ..
  | newRound => exact enterPropose_projects ..
  | propose => exact enterPrevote_projects ..
  | prevoteWait => exact enterPrecommit_projects ..
  | precommitWait => exact (enterPrecommit_projects ..).bind fun m => enterNewRound_projects ..
  | prevote => rfl
  | precommit => rfl
  | commit => rfl

/-- With the log left out, a node handles an event as before. -/
lemma handle_projects (e : Event β) :
    Projects (m.handle cfg e) (m.toNode.handle cfg e) := by
  cases e with
  | proposal p signed => exact projects_pure _
  | blockPart height part => exact addProposalBlockPart_projects ..
  | vote vote peerID allCms => exact addVote_projects ..
  | peerMaj23 height round type peerID blockID => exact congrArg some toNode_ite
  | timeout ti => exact .ite (handleTimeout_projects ..) (projects_pure m)
  | txsAvailable =>
    exact (enterNewRound_projects ..).bind fun m => enterPropose_projects ..

theorem record_projects (events : List (Event β)) :
    Projects (m.record cfg events) (Runs.run (Node.handle cfg) m.toNode events) := by
  induction events generalizing m with
  | nil => rfl
  | cons e es ih => exact (handle_projects cfg m e).bind fun m' => ih m'

end Projection

end Recorded

end ShardingBC.Consensus
