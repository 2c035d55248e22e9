import ShardingBC.PrivVal
import ShardingBC.HeightVoteSet
import ShardingBC.Replicas
import ShardingBC.Signers

/-!
# The consensus state machine

`ConsensusState` of one node, one height at a time. A step function gives the state after a message
or a timeout, or nothing if the code panics. The node keeps the votes it has signed and the blocks
it has saved.
-/
namespace ShardingBC.Consensus

open Json

/-- `RoundStepType`, in the order of its numbers. -/
inductive RoundStep where
  | newHeight
  | newRound
  | propose
  | prevote
  | prevoteWait
  | precommit
  | precommitWait
  | commit
deriving DecidableEq

def RoundStep.toUint8 : RoundStep → ℕ
  | newHeight => 1
  | newRound => 2
  | propose => 3
  | prevote => 4
  | prevoteWait => 5
  | precommit => 6
  | precommitWait => 7
  | commit => 8

instance : LE RoundStep := ⟨fun a b => a.toUint8 ≤ b.toUint8⟩
instance : LT RoundStep := ⟨fun a b => a.toUint8 < b.toUint8⟩
instance (a b : RoundStep) : Decidable (a ≤ b) := inferInstanceAs (Decidable (_ ≤ (_ : ℕ)))
instance (a b : RoundStep) : Decidable (a < b) := inferInstanceAs (Decidable (_ < (_ : ℕ)))

/-- A set of block parts as far as the state machine reads it. -/
structure PartSet where
  header : PartSetHeader
  complete : Bool
deriving DecidableEq

def newPartSetFromHeader (header : PartSetHeader) : PartSet := ⟨header, header.total = 0⟩

/-- `PartSet.HasHeader` of a part set that may be nil. -/
def hasHeader (ps : Option PartSet) (header : PartSetHeader) : Bool :=
  ps.any fun ps => ps.header = header

/-- `PartSet.Header` of a part set that may be nil. -/
def headerOf (ps : Option PartSet) : PartSetHeader := (ps.map PartSet.header).getD .zero

structure TimeoutInfo where
  height : ℤ
  round : ℤ
  step : RoundStep
deriving DecidableEq

/-- What is not computed here: the functions of a block, the executor, the key and the settings. -/
structure Config (E : Electorate) (β : Type) where
  hash : β → Bytes
  headerHash : β → Bytes
  blockHeight : β → ℤ
  txs : β → List Bytes
  crossMerkleRoot : β → Bytes
  /-- `ValidateBlock` returns nil. -/
  validateBlock : β → Bool
  /-- `ecdsa.Verify`. -/
  verify : EcdsaCoordinate → Bytes → EcdsaCoordinate → Bool
  /-- `tryAddAggragate2Block` and `ApplyBlock` come to an end without an error. -/
  applyBlock : β → Bool
  /-- The position of the node's key in the validator set. -/
  index : Option E.Index
  address : Bytes
  /-- The key's signature of some bytes, and of the sign bytes of a vote. -/
  sign : Bytes → Option Bytes
  signBytes : CanonicalVote → Option Bytes
  parseId : Int64
  /-- `voteTime` at each signature. -/
  voteTime : ℕ → ℤ
  skipTimeoutCommit : Bool
  /-- `config.WaitForTxs() && !needProofBlock(height)`. -/
  waitForTxs : Bool
  createEmptyBlocksInterval : Bool

/-- `RoundState` with the height of the block store, the timeouts scheduled, the votes signed and
the block IDs saved. `LockedBlock` and `ProposalBlock` may be one object, as may the two part sets;
decoding a block or adding a part then changes both. -/
structure Node (E : Electorate) (β : Type) where
  height : ℤ
  round : ℤ
  step : RoundStep
  proposal : Option Proposal
  proposalBlock : Option β
  proposalBlockParts : Option PartSet
  lockedRound : ℤ
  lockedBlock : Option β
  lockedBlockParts : Option PartSet
  lockedIsProposal : Bool
  lockedPartsAreProposal : Bool
  validRound : ℤ
  votes : HeightVoteSet E
  commitRound : ℤ
  lastCommit : Option (VoteSet E)
  triggeredTimeoutPrecommit : Bool
  storeHeight : ℤ
  timeouts : List TimeoutInfo
  signed : List Vote
  saved : List (ℤ × BlockID)
  halted : Bool

namespace Node

variable {E : Electorate} {β : Type} (cfg : Config E β)

/-- `Block.HashesTo` of a block that may be nil. -/
def hashesTo (b : Option β) (hash : Bytes) : Bool :=
  if hash = [] then false else b.any fun b => cfg.hash b = hash

def scheduleTimeout (n : Node E β) (height round : ℤ) (step : RoundStep) : Node E β :=
  { n with timeouts := ⟨height, round, step⟩ :: n.timeouts }

def dropProposalBlock (n : Node E β) : Node E β :=
  { n with proposalBlock := none, lockedIsProposal := false }

def setProposalBlockParts (n : Node E β) (ps : Option PartSet) : Node E β :=
  { n with proposalBlockParts := ps, lockedPartsAreProposal := false }

def unlock (n : Node E β) : Node E β :=
  { n with
    lockedRound := -1
    lockedBlock := none
    lockedBlockParts := none
    lockedIsProposal := false
    lockedPartsAreProposal := false }

def placeOf (v : Vote) : HRS := hrsOf v.height v.round ((voteToStep v.type).getD stepNone)

/-- The private validator signs a vote only beyond all it has signed. It would also give out the
last signature again, which a node asks for only after a restart; these are the runs of one
without. -/
def signVote (n : Node E β) (vote : Vote) : Node E β :=
  if ∀ w ∈ n.signed, placeOf w < placeOf vote then
    match cfg.signBytes (canonicalizeVote E.chainID vote) with
    | none => n
    | some sig => { n with signed := { vote with signature := sig } :: n.signed }
  else n

/-- `signAddVote`. The shares of a prevote for a block need the proposal block, else
`JudgeBlockPakcages` dereferences nil. -/
def signAddVote (n : Node E β) (type : SignedMsgType) (hash : Bytes) (header : PartSetHeader) :
    Option (Node E β) :=
  match cfg.index with
  | none => some n
  | some i =>
    let vote : Vote :=
      { type := type, height := n.height, round := n.round, blockID := ⟨hash, header⟩
        timestamp := cfg.voteTime n.signed.length, validatorAddress := cfg.address
        validatorIndex := (i : ℕ), signature := []
        partSig := some ⟨[], cfg.parseId⟩, partBlockSig := some ⟨[], cfg.parseId⟩ }
    if type = .prevote ∧ hash ≠ [] then do
      let b ← n.proposalBlock
      let vote ← (sigCrossMerkleRoot cfg.sign (cfg.crossMerkleRoot b) (cfg.headerHash b) vote).1
      some (n.signVote cfg vote)
    else some (n.signVote cfg vote)

def isProposalComplete (n : Node E β) : Bool :=
  match n.proposal, n.proposalBlock with
  | some p, some _ => p.polRound < 0 || (n.votes.majority p.polRound .prevote).isSome
  | _, _ => false

/-- The transactions that parse pass `VerifySig`. -/
def verifyTxs (txs : List Bytes) : Bool := txs.all fun tx => (newTX tx).all (TX.verifySig cfg.verify)

def defaultDoPrevote (n : Node E β) : Option (Node E β) :=
  match n.lockedBlock with
  | some b => n.signAddVote cfg .prevote (cfg.hash b) (headerOf n.lockedBlockParts)
  | none =>
    match n.proposalBlock with
    | none => n.signAddVote cfg .prevote [] .zero
    | some b =>
      if !cfg.validateBlock b || !verifyTxs cfg (cfg.txs b) then
        n.signAddVote cfg .prevote [] .zero
      else n.signAddVote cfg .prevote (cfg.hash b) (headerOf n.proposalBlockParts)

def enterPrevote (n : Node E β) (height round : ℤ) : Option (Node E β) :=
  if n.height ≠ height ∨ round < n.round ∨ n.round = round ∧ RoundStep.prevote ≤ n.step then some n
  else (n.defaultDoPrevote cfg).map fun n => { n with round := round, step := .prevote }

def enterPropose (n : Node E β) (height round : ℤ) : Option (Node E β) :=
  if n.height ≠ height ∨ round < n.round ∨ n.round = round ∧ RoundStep.propose ≤ n.step then some n
  else
    let n := { n.scheduleTimeout height round .propose with round := round, step := .propose }
    if n.isProposalComplete then n.enterPrevote cfg height n.round else some n

/-- What `enterNewRound` resets. A proposal for round 0 may have come early. -/
def resetRound (n : Node E β) (round : ℤ) : Node E β :=
  let n := { n with round := round, step := .newRound, triggeredTimeoutPrecommit := false }
  if round = 0 then n
  else { n with proposal := none }.dropProposalBlock.setProposalBlockParts none

/-- The end of `enterNewRound`. -/
def waitOrPropose (n : Node E β) (height round : ℤ) : Option (Node E β) :=
  if cfg.waitForTxs && round = 0 then
    some (if cfg.createEmptyBlocksInterval then n.scheduleTimeout height round .newRound else n)
  else n.enterPropose cfg height round

def enterNewRound (n : Node E β) (height round : ℤ) : Option (Node E β) :=
  if n.height ≠ height ∨ round < n.round ∨ n.round = round ∧ n.step ≠ .newHeight then some n
  else do
    let votes ← n.votes.setRound (round + 1)
    { n.resetRound round with votes := votes }.waitOrPropose cfg height round

def enterPrevoteWait (n : Node E β) (height round : ℤ) : Option (Node E β) :=
  if n.height ≠ height ∨ round < n.round ∨ n.round = round ∧ RoundStep.prevoteWait ≤ n.step then
    some n
  else if !n.votes.hasTwoThirdsAny round .prevote then none
  else
    some { n.scheduleTimeout height round .prevoteWait with round := round, step := .prevoteWait }

/-- The round `POLInfo` returns. -/
def polRound (votes : HeightVoteSet E) : ℤ :=
  (((List.range (votes.round + 1).toNat).filter fun (r : ℕ) =>
    (votes.majority r .prevote).isSome).getLast?.map Int.ofNat).getD (-1)

/-- The body of `enterPrecommit`. -/
def doPrecommit (n : Node E β) (round : ℤ) : Option (Node E β) :=
  match n.votes.majority round .prevote with
  | none => n.signAddVote cfg .precommit [] .zero
  | some blockID =>
    if polRound n.votes < round then none
    else if blockID.hash = [] then n.unlock.signAddVote cfg .precommit [] .zero
    else if hashesTo cfg n.lockedBlock blockID.hash then
      { n with lockedRound := round }.signAddVote cfg .precommit blockID.hash blockID.partsHeader
    else if hashesTo cfg n.proposalBlock blockID.hash then
      if !n.proposalBlock.all cfg.validateBlock then none
      else
        { n with
          lockedRound := round
          lockedBlock := n.proposalBlock
          lockedBlockParts := n.proposalBlockParts
          lockedIsProposal := true
          lockedPartsAreProposal := true }.signAddVote cfg .precommit blockID.hash
            blockID.partsHeader
    else
      let n := n.unlock
      let n := if hasHeader n.proposalBlockParts blockID.partsHeader then n
        else n.dropProposalBlock.setProposalBlockParts
          (some (newPartSetFromHeader blockID.partsHeader))
      n.signAddVote cfg .precommit [] .zero

def enterPrecommit (n : Node E β) (height round : ℤ) : Option (Node E β) :=
  if n.height ≠ height ∨ round < n.round ∨ n.round = round ∧ RoundStep.precommit ≤ n.step then
    some n
  else (n.doPrecommit cfg round).map fun n => { n with round := round, step := .precommit }

def enterPrecommitWait (n : Node E β) (height round : ℤ) : Option (Node E β) :=
  if n.height ≠ height ∨ round < n.round ∨ n.round = round ∧ n.triggeredTimeoutPrecommit then
    some n
  else if !n.votes.hasTwoThirdsAny round .precommit then none
  else
    some { n.scheduleTimeout height round .precommitWait with triggeredTimeoutPrecommit := true }

/-- `updateToState` after the block of this height, and `scheduleRound0`, with the same
validators. -/
def updateToState (n : Node E β) : Option (Node E β) := do
  let votes ← HeightVoteSet.new (n.height + 1)
  some ({ n with
    height := n.height + 1, round := 0, step := .newHeight
    proposal := none, proposalBlock := none, proposalBlockParts := none
    lockedRound := -1, lockedBlock := none, lockedBlockParts := none
    lockedIsProposal := false, lockedPartsAreProposal := false
    validRound := -1, votes := votes, commitRound := -1
    lastCommit := n.votes.precommits n.commitRound
    triggeredTimeoutPrecommit := false }.scheduleTimeout (n.height + 1) 0 .newHeight)

/-- `SaveBlock` of a new block. It panics unless the block is the next one and its part set
complete. -/
def saveBlock (n : Node E β) (b : β) (ps : PartSet) : Option (Node E β) :=
  if cfg.blockHeight b ≤ n.storeHeight then some n
  else if cfg.blockHeight b ≠ n.storeHeight + 1 ∨ !ps.complete then none
  else
    some { n with
      storeHeight := cfg.blockHeight b
      saved := (cfg.blockHeight b, ⟨cfg.hash b, ps.header⟩) :: n.saved }

/-- `finalizeCommit`. After `SaveBlock` every error or panic leaves a halted node. -/
def finalizeCommit (n : Node E β) (height : ℤ) : Option (Node E β) :=
  if n.height ≠ height ∨ n.step ≠ .commit then some n
  else
    match n.votes.majority n.commitRound .precommit, n.proposalBlock, n.proposalBlockParts with
    | some blockID, some b, some ps =>
      if ps.header ≠ blockID.partsHeader ∨ !hashesTo cfg (some b) blockID.hash then none
      else do
        let n ← n.saveBlock cfg b ps
        if !cfg.applyBlock b || cfg.blockHeight b ≠ n.height then some { n with halted := true }
        else some ((n.updateToState).getD { n with halted := true })
    | _, _, _ => none

def tryFinalizeCommit (n : Node E β) (height : ℤ) : Option (Node E β) :=
  if n.height ≠ height then none
  else
    match n.votes.majority n.commitRound .precommit with
    | none => some n
    | some blockID =>
      if blockID.hash = [] ∨ !hashesTo cfg n.proposalBlock blockID.hash then some n
      else n.finalizeCommit cfg height

/-- The body of `enterCommit`: the block to commit, as far as the node has it. -/
def selectCommitBlock (n : Node E β) (blockID : BlockID) : Node E β :=
  let n := if hashesTo cfg n.lockedBlock blockID.hash then
      { n with
        proposalBlock := n.lockedBlock, proposalBlockParts := n.lockedBlockParts
        lockedIsProposal := true, lockedPartsAreProposal := true }
    else n
  if hashesTo cfg n.proposalBlock blockID.hash || hasHeader n.proposalBlockParts blockID.partsHeader
  then n
  else n.dropProposalBlock.setProposalBlockParts (some (newPartSetFromHeader blockID.partsHeader))

def enterCommit (n : Node E β) (height commitRound : ℤ) : Option (Node E β) :=
  if n.height ≠ height ∨ RoundStep.commit ≤ n.step then some n
  else do
    let blockID ← n.votes.majority commitRound .precommit
    { n.selectCommitBlock cfg blockID with step := .commit, commitRound := commitRound
      }.tryFinalizeCommit cfg height

/-- `defaultSetProposal`; `signed` says whether the proposer's signature verifies. -/
def setProposal (n : Node E β) (p : Proposal) (signed : Bool) : Node E β :=
  if n.proposal.isSome then n
  else if p.height ≠ n.height ∨ p.round ≠ n.round then n
  else if p.polRound < -1 ∨ 0 ≤ p.polRound ∧ p.round ≤ p.polRound then n
  else if !signed then n
  else
    let n := { n with proposal := some p }
    if n.proposalBlockParts.isSome then n
    else n.setProposalBlockParts (some (newPartSetFromHeader p.blockID.partsHeader))

/-- A block part does nothing, or completes the part set with the bytes of a block, which may fail
to decode. -/
inductive PartResult (β : Type) where
  | incomplete
  | completes (b : β) (ok : Bool)

/-- The part set is complete and its block decoded into `ProposalBlock`. -/
def completeProposalBlock (n : Node E β) (ps : PartSet) (b : β) : Node E β :=
  { n with
    proposalBlock := some b
    lockedBlock := if n.lockedIsProposal then some b else n.lockedBlock
    proposalBlockParts := some { ps with complete := true }
    lockedBlockParts :=
      if n.lockedPartsAreProposal then some { ps with complete := true } else n.lockedBlockParts }

def stepOnBlock (n : Node E β) (polka : Option BlockID) (height : ℤ) : Option (Node E β) := do
  if n.step ≤ .propose ∧ n.isProposalComplete then
    let n ← n.enterPrevote cfg height n.round
    if polka.isSome then n.enterPrecommit cfg height n.round else some n
  else if n.step = .commit then n.tryFinalizeCommit cfg height
  else some n

/-- The rest of `addProposalBlockPart` once the block is there. -/
def afterCompleteBlock (n : Node E β) (height : ℤ) : Option (Node E β) :=
  let polka := n.votes.majority n.round .prevote
  let n := if polka.any (fun blockID => blockID ≠ .zero ∧ n.validRound < n.round ∧
      hashesTo cfg n.proposalBlock blockID.hash) then { n with validRound := n.round } else n
  n.stepOnBlock cfg polka height

def addProposalBlockPart (n : Node E β) (height : ℤ) (part : PartResult β) : Option (Node E β) :=
  if n.height ≠ height then some n
  else
    match n.proposalBlockParts, part with
    | some ps, .completes b ok =>
      if ps.complete then some n
      else
        let n := n.completeProposalBlock ps b
        if ok then n.afterCompleteBlock cfg height else some n
    | _, _ => some n

/-- The first checkpoint of the proposal block, if any, agrees with the pending messages. -/
def checkpointAgrees (n : Node E β) (allCms : List CrossMessages) : Bool :=
  n.proposalBlock.all fun b =>
    (((cfg.txs b).map fun tx => (unmarshal (decodeStruct TX.fields) TX.zero tx).1).find?
      fun t => t.txtype = lit "checkpoint").all fun t => compareRelaylist t allCms

/-- The first polka part of `addVote`: a polka for something else after the lock
unlocks. -/
def unlockOnPolka (n : Node E β) (round : ℤ) (blockID : BlockID) : Node E β :=
  if n.lockedBlock.isSome ∧ n.lockedRound < round ∧ round ≤ n.round ∧
    !hashesTo cfg n.lockedBlock blockID.hash then n.unlock else n

/-- The second part: the block of a polka in this round is the valid one. -/
def setValidBlock (n : Node E β) (round : ℤ) (blockID : BlockID) : Node E β :=
  if blockID.hash ≠ [] ∧ n.validRound < round ∧ round = n.round then
    let n := if hashesTo cfg n.proposalBlock blockID.hash then { n with validRound := round }
      else n.dropProposalBlock
    if hasHeader n.proposalBlockParts blockID.partsHeader then n
    else n.setProposalBlockParts (some (newPartSetFromHeader blockID.partsHeader))
  else n

def applyPolka (n : Node E β) (round : ℤ) (blockID : BlockID) : Node E β :=
  (n.unlockOnPolka cfg round blockID).setValidBlock cfg round blockID

def stepOnPrevotes (n : Node E β) (polka : Option BlockID) (height round : ℤ) :
    Option (Node E β) :=
  if n.round < round ∧ n.votes.hasTwoThirdsAny round .prevote then n.enterNewRound cfg height round
  else if n.round = round ∧ RoundStep.prevote ≤ n.step then
    if polka.any fun blockID => n.isProposalComplete || blockID.hash = [] then
      n.enterPrecommit cfg height round
    else if n.votes.hasTwoThirdsAny round .prevote then n.enterPrevoteWait height round
    else some n
  else if n.proposal.any (fun p => 0 ≤ p.polRound ∧ p.polRound = round) ∧ n.isProposalComplete then
    n.enterPrevote cfg height n.round
  else some n

def afterPrevote (n : Node E β) (height round : ℤ) : Option (Node E β) :=
  let polka := n.votes.majority round .prevote
  (polka.elim n (n.applyPolka cfg round)).stepOnPrevotes cfg polka height round

def afterPrecommit (n : Node E β) (height round : ℤ) : Option (Node E β) :=
  match n.votes.majority round .precommit with
  | some blockID => do
      let hasAll := (n.votes.precommits round).any VoteSet.hasAll
      let n ← n.enterNewRound cfg height round
      let n ← n.enterPrecommit cfg height round
      if blockID.hash ≠ [] then do
        let n ← n.enterCommit cfg height round
        if cfg.skipTimeoutCommit && hasAll then n.enterNewRound cfg n.height 0 else some n
      else n.enterPrecommitWait height round
  | none =>
    if n.round ≤ round ∧ n.votes.hasTwoThirdsAny round .precommit then do
      let n ← n.enterNewRound cfg height round
      n.enterPrecommitWait height round
    else some n

/-- `addVote` for a vote of the previous height. -/
def addLastCommitVote (n : Node E β) (vote : Vote) : Option (Node E β) :=
  if ¬ (n.step = .newHeight ∧ vote.type = .precommit) then some n
  else do
    let lastCommit ← n.lastCommit
    let (lastCommit, added, _) ← lastCommit.addVote vote
    let n := { n with lastCommit := some lastCommit }
    if added && cfg.skipTimeoutCommit && lastCommit.hasAll then n.enterNewRound cfg n.height 0
    else some n

/-- `addVote`; `allCms` is what `GetAllCrossMessages` returns. -/
def addVote (n : Node E β) (vote : Vote) (peerID : Bytes) (allCms : List CrossMessages) :
    Option (Node E β) :=
  if vote.height + 1 = n.height then n.addLastCommitVote cfg vote
  else if vote.height ≠ n.height then some n
  else do
    let (votes, added, _) ← n.votes.addVote vote peerID
    let n := { n with votes := votes }
    if !added || !n.checkpointAgrees cfg allCms then some n
    else
      match vote.type with
      | .prevote => n.afterPrevote cfg n.height vote.round
      | .precommit => n.afterPrecommit cfg n.height vote.round
      | _ => none

def handleTimeout (n : Node E β) (ti : TimeoutInfo) : Option (Node E β) :=
  if ti.height ≠ n.height ∨ ti.round < n.round ∨ ti.round = n.round ∧ ti.step < n.step then some n
  else
    match ti.step with
    | .newHeight => n.enterNewRound cfg ti.height 0
    | .newRound => n.enterPropose cfg ti.height 0
    | .propose => n.enterPrevote cfg ti.height ti.round
    | .prevoteWait => n.enterPrecommit cfg ti.height ti.round
    | .precommitWait => do
        let n ← n.enterPrecommit cfg ti.height ti.round
        n.enterNewRound cfg ti.height (ti.round + 1)
    | _ => none

def handleTxsAvailable (n : Node E β) : Option (Node E β) := do
  let n ← n.enterNewRound cfg n.height 0
  n.enterPropose cfg n.height 0

end Node

inductive Event (β : Type) where
  | proposal (p : Proposal) (signed : Bool)
  | blockPart (height : ℤ) (part : Node.PartResult β)
  | vote (vote : Vote) (peerID : Bytes) (allCms : List CrossMessages)
  | peerMaj23 (height round : ℤ) (type : SignedMsgType) (peerID : Bytes) (blockID : BlockID)
  | timeout (ti : TimeoutInfo)
  | txsAvailable

/-- The vote an event brings. -/
def Event.vote? {β : Type} : Event β → Option Vote
  | .vote v _ _ => some v
  | _ => none

namespace Node

variable {E : Electorate} {β : Type} (cfg : Config E β)

/-- A running node after an event; `none` is a panic. Only scheduled timeouts fire. -/
def handle (n : Node E β) : Event β → Option (Node E β)
  | .proposal p signed => some (n.setProposal p signed)
  | .blockPart height part => n.addProposalBlockPart cfg height part
  | .vote vote peerID allCms => n.addVote cfg vote peerID allCms
  | .peerMaj23 height round type peerID blockID =>
    some (if height = n.height then
      { n with votes := n.votes.setPeerMaj23 round type peerID blockID } else n)
  | .timeout ti => if ti ∈ n.timeouts then n.handleTimeout cfg ti else some n
  | .txsAvailable => n.handleTxsAvailable cfg

end Node

end ShardingBC.Consensus
