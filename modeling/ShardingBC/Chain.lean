import ShardingBC.Block
import ShardingBC.Reap
import ShardingBC.Runs

/-!
# Chains of accepted blocks

The state after the last block, the blocks that `validateBlock` accepts in it, the block that
`MakeBlock` builds from it, and the state that `updateState` makes of one.
-/
namespace ShardingBC.Consensus

open List Option Runs

structure ChainEnv where
  amino : Amino
  /-- `getShard`. -/
  shard : Bytes
  addressOf : Bytes → Bytes
  verifyBytes : Bytes → CanonicalVote → Bytes → Bool

structure State where
  version : Version
  chainID : Bytes
  lastBlockHeight : ℤ
  lastBlockTotalTx : ℤ
  lastBlockID : BlockID
  lastBlockTime : ℤ
  nextValidators : List Validator
  validators : List Validator
  lastValidators : List Validator
  consensusParams : ConsensusParams
  lastResultsHash : Bytes
  appHash : Bytes

/-- `ValidatorSet.Hash`. -/
def validatorSetHash (A : Amino) (vals : List Validator) : Bytes :=
  simpleHashFromByteSlices (vals.map A.validator)

def ConsensusParams.hash (A : Amino) (params : ConsensusParams) : Bytes :=
  (sha256 (A.hashedParams params)).bytes

variable (env : ChainEnv)

def electorate (chainID : Bytes) (vals : List Validator) : Electorate :=
  ⟨chainID, vals, env.addressOf, env.verifyBytes⟩

/-- `validateBlock`; the outer `none` is a nil dereference. -/
def validateBlock (s : State) (b : Block) : Option (Option BlockError) :=
  match b.validateBasic env.amino with
  | some err => some (some err)
  | none =>
    if b.header.version ≠ s.version then some (some .wrongVersion)
    else if b.header.chainID ≠ s.chainID then some (some .wrongChainID)
    else if b.header.height = 1 then
      b.lastCommit.map fun c =>
        if c.precommits.length ≠ 0 then some .precommitsAtHeightOne else none
    else if 1 < b.header.height ∧ b.header.time ≤ s.lastBlockTime then
      some (some .timeNotAfterLast)
    else some none

/-- The zero value of `time.Time`. -/
def zeroTime : ℤ := -62135596800000000000

/-- The loop of `WeightedMedian` over times in ascending order. -/
def pickMedian : ℕ → List (ℤ × ℕ) → ℤ
  | _, [] => zeroTime
  | median, (time, weight) :: rest =>
    if median ≤ weight then time else pickMedian (median - weight) rest

def weightedMedian (times : List (ℤ × ℕ)) (totalVotingPower : ℕ) : ℤ :=
  pickMedian (totalVotingPower / 2) (times.insertionSort fun x y => x.1 ≤ y.1)

/-- `MedianTime`; `none` is a nil dereference. -/
def medianTime (c : Commit) (vals : List Validator) : Option ℤ := do
  let times ← (c.precommits.filterMap id).mapM fun v =>
    if 0 ≤ v.validatorIndex then
      (vals[v.validatorIndex.toNat]?).map fun val => (v.timestamp, val.votingPower)
    else none
  some (weightedMedian times (times.map Prod.snd).sum)

/-- The time of the next block. -/
def blockTime (s : State) (height : ℤ) (commit : Commit) : Option ℤ :=
  if height = 1 then some s.lastBlockTime else medianTime commit s.lastValidators

def makeBlock (s : State) (height : ℤ) (txs : List Bytes) (commit : Commit)
    (evidence : List Bytes) (proposerAddress : Bytes) (packages : List Package) : Option Block :=
  (blockTime s height commit).map fun time =>
    { header :=
        { version := s.version
          chainID := s.chainID
          height := height
          time := time
          numTxs := txs.length
          totalTxs := s.lastBlockTotalTx + txs.length
          lastBlockID := s.lastBlockID
          lastCommitHash := Commit.hash env.amino (some commit)
          dataHash := Block.dataHash txs
          validatorsHash := validatorSetHash env.amino s.validators
          nextValidatorsHash := validatorSetHash env.amino s.nextValidators
          consensusHash := s.consensusParams.hash env.amino
          appHash := s.appHash
          lastResultsHash := s.lastResultsHash
          evidenceHash := simpleHashFromByteSlices evidence
          proposerAddress := proposerAddress
          crossMerkleRoot := (generateMerkleTreebySingle env.shard txs).elim [] fun t =>
            t.rootTree.computeRootHash.bytes
          cmRelation := marshalPackages packages }
      txs := txs
      evidence := evidence
      lastCommit := some commit }

/-- A block with its part set header and what the application answers. -/
structure Applied where
  block : Block
  parts : PartSetHeader
  nextValidators : List Validator
  consensusParams : ConsensusParams
  lastResultsHash : Bytes
  appHash : Bytes

def Applied.blockID (e : Applied) : BlockID := ⟨e.block.hash env.amino, e.parts⟩

/-- `updateState`, with the `AppHash` that `ApplyBlock` adds. -/
def updateState (s : State) (blockID : BlockID) (e : Applied) : State :=
  { s with
    lastBlockHeight := e.block.header.height
    lastBlockTotalTx := s.lastBlockTotalTx + e.block.header.numTxs
    lastBlockID := blockID
    lastBlockTime := e.block.header.time
    nextValidators := e.nextValidators
    validators := s.nextValidators
    lastValidators := s.validators
    consensusParams := e.consensusParams
    lastResultsHash := e.lastResultsHash
    appHash := e.appHash }

def applyBlock (s : State) (e : Applied) : Option State :=
  if validateBlock env s e.block = some none then some (updateState s (e.blockID env) e) else none

/-- The block extends the chain that leads to the state. -/
structure ExtendsChain (s : State) (b : Block) : Prop where
  height : b.header.height = s.lastBlockHeight + 1
  lastBlockID : b.header.lastBlockID = s.lastBlockID
  appHash : b.header.appHash = s.appHash
  consensusHash : b.header.consensusHash = s.consensusParams.hash env.amino
  lastResultsHash : b.header.lastResultsHash = s.lastResultsHash
  validatorsHash : b.header.validatorsHash = validatorSetHash env.amino s.validators
  nextValidatorsHash : b.header.nextValidatorsHash = validatorSetHash env.amino s.nextValidators
  totalTxs : b.header.totalTxs = s.lastBlockTotalTx + b.header.numTxs
  proposer : ∃ v ∈ s.validators, v.address = b.header.proposerAddress
  lastCommit : 1 < b.header.height → ∃ c, b.lastCommit = some c ∧
    verifyCommit (electorate env s.chainID s.lastValidators) s.lastBlockID (b.header.height - 1) c =
      none

def IsLastCommit (s : State) (c : Commit) : Prop :=
  s.lastBlockID.isZero = false ∧
    ∃ round, ∃ vs : VoteSet (electorate env s.chainID s.lastValidators),
      vs.Built s.lastBlockHeight round .precommit ∧ vs.maj23 = some s.lastBlockID ∧
        vs.makeCommit = some c

/-- `createProposalBlock` of a validator built the block in this state. -/
def Proposed (s : State) (b : Block) : Prop :=
  ∃ txs commit evidence proposerAddress packages,
    makeBlock env s (s.lastBlockHeight + 1) txs commit evidence proposerAddress packages = some b ∧
      (∃ v ∈ s.validators, v.address = proposerAddress) ∧
      (s.lastBlockHeight + 1 ≠ 1 → IsLastCommit env s commit)

/-- The states in which blocks are applied, each with the block. -/
def trail : State → List Applied → List (State × Applied)
  | _, [] => []
  | s, e :: es => (s, e) :: (applyBlock env s e).elim [] fun s' => trail s' es

/-- The second block has the hash of the first and a commit of more than two thirds for it. -/
def Links (p q : State × Applied) : Prop :=
  q.2.block.header.lastBlockID = p.2.blockID env ∧
    q.2.block.header.height = p.2.block.header.height + 1 ∧
    ∃ c, q.2.block.lastCommit = some c ∧
      verifyCommit (electorate env p.1.chainID p.1.validators) (p.2.blockID env)
        p.2.block.header.height c = none

variable {env} {s : State} {b : Block}

lemma validateBasic_of_accepted (h : validateBlock env s b = some none) :
    b.validateBasic env.amino = none ∧ b.header.version = s.version ∧
      b.header.chainID = s.chainID := by
  unfold validateBlock at h
  split at h
  · cases h
  · rename_i hbasic
    split at h
    · cases h
    · rename_i hversion
      split at h
      · cases h
      · next hchain => exact ⟨hbasic, not_not.mp hversion, not_not.mp hchain⟩

lemma basic_of_accepted (h : validateBlock env s b = some none) :
    s.chainID.length ≤ maxChainIDLen ∧ 0 < b.header.height := by
  obtain ⟨hbasic, -, hchain⟩ := validateBasic_of_accepted h
  unfold Block.validateBasic at hbasic
  split_ifs at hbasic with h1 h2 h3
  all_goals exact ⟨by rw [← hchain]; omega, by omega⟩

lemma Proposed.extends (h : Proposed env s b) : ExtendsChain env s b := by
  obtain ⟨txs, commit, evidence, proposerAddress, packages, hmake, hproposer, hcommit⟩ := h
  obtain ⟨time, -, rfl⟩ := map_eq_some_iff.mp hmake
  refine ⟨rfl, rfl, rfl, rfl, rfl, rfl, rfl, rfl, hproposer, fun hheight => ⟨commit, rfl, ?_⟩⟩
  have hheight : 1 < s.lastBlockHeight + 1 := hheight
  obtain ⟨hzero, round, vs, hbuilt, hmaj, hcommit⟩ := hcommit (by omega)
  rw [VoteSet.makeCommit, if_neg (by simp [hbuilt.sound.1.2.2]), hmaj] at hcommit
  cases hcommit
  rw [add_sub_cancel_right]
  exact (hbuilt.precommits hmaj).verifyCommit hzero (hbuilt.sound.2.tallied hmaj)

lemma trail_links {es : List Applied}
    (h : Guarded (applyBlock env) (fun s e => ExtendsChain env s e.block) s es) :
    List.IsChain (Links env) (trail env s es) := by
  induction es generalizing s with
  | nil => exact .nil
  | cons e es ih =>
    cases happly : applyBlock env s e with
    | none =>
      rw [trail, happly]
      exact .singleton _
    | some s' =>
      have hrest := h.2 s' happly
      rw [trail, happly]
      cases es with
      | nil => exact .singleton _
      | cons e' es =>
        refine isChain_cons_cons.mpr ⟨?_, ih hrest⟩
        unfold applyBlock at happly
        split_ifs at happly with hvalid
        cases happly
        have hext := hrest.1
        have hheight : e'.block.header.height = e.block.header.height + 1 := hext.height
        obtain ⟨c, hc, hverify⟩ := hext.lastCommit (by
          have := (basic_of_accepted hvalid).2
          omega)
        refine ⟨hext.lastBlockID, hheight, c, hc, ?_⟩
        rw [hheight, add_sub_cancel_right] at hverify
        exact hverify

/-- The block has nothing to do with the chain of the state. -/
structure Unrelated (env : ChainEnv) (s : State) (b : Block) : Prop where
  height : b.header.height ≠ s.lastBlockHeight + 1
  lastBlockID : b.header.lastBlockID ≠ s.lastBlockID
  appHash : b.header.appHash ≠ s.appHash
  consensusHash : b.header.consensusHash ≠ s.consensusParams.hash env.amino
  lastResultsHash : b.header.lastResultsHash ≠ s.lastResultsHash
  validatorsHash : b.header.validatorsHash ≠ validatorSetHash env.amino s.validators
  nextValidatorsHash : b.header.nextValidatorsHash ≠ validatorSetHash env.amino s.nextValidators
  totalTxs : b.header.totalTxs ≠ s.lastBlockTotalTx + b.header.numTxs
  lastCommit : 1 < b.header.height ∧ ∀ c, b.lastCommit = some c →
    verifyCommit (electorate env s.chainID s.lastValidators) s.lastBlockID (b.header.height - 1) c ≠
      none

section Stray

/-- A hash of the right length that is not the given one. -/
def otherHash (h : Bytes) : Bytes := if h = [] then List.replicate tmhashSize 1 else []

lemma otherHash_ne (h : Bytes) : otherHash h ≠ h := by
  unfold otherHash
  split_ifs with hnil
  · rw [hnil]
    decide
  · exact fun heq => hnil heq.symm

@[simp] lemma validateHash_otherHash (h : Bytes) : validateHash (otherHash h) = true := by
  unfold otherHash
  split_ifs <;> decide

@[simp] lemma validateHash_nil : validateHash [] = true := rfl

@[simp] lemma validateHash_digest (d : Digest) : validateHash d.bytes = true := by
  simp [validateHash, tmhashSize]

def strayCommit (s : State) : Commit := ⟨⟨0 :: s.lastBlockID.hash, .zero⟩, [none]⟩

/-- A block that is accepted although it does not fit the state in any way. -/
def strayBlock (env : ChainEnv) (s : State) (proposerAddress : Bytes) : Block where
  header :=
    { version := s.version
      chainID := s.chainID
      height := |s.lastBlockHeight| + 2
      time := s.lastBlockTime + 1
      numTxs := 0
      totalTxs := |s.lastBlockTotalTx| + 1
      lastBlockID := ⟨otherHash s.lastBlockID.hash, .zero⟩
      lastCommitHash := (leafHash []).bytes
      dataHash := []
      validatorsHash := otherHash (validatorSetHash env.amino s.validators)
      nextValidatorsHash := otherHash (validatorSetHash env.amino s.nextValidators)
      consensusHash := otherHash (s.consensusParams.hash env.amino)
      appHash := otherHash s.appHash
      lastResultsHash := otherHash s.lastResultsHash
      evidenceHash := []
      proposerAddress := proposerAddress
      crossMerkleRoot := []
      cmRelation := [] }
  txs := []
  evidence := []
  lastCommit := some (strayCommit s)

variable {proposerAddress : Bytes}

lemma strayBlock_accepted (h : s.chainID.length ≤ maxChainIDLen)
    (haddr : proposerAddress.length = addressSize) :
    validateBlock env s (strayBlock env s proposerAddress) = some none := by
  have hheight := abs_nonneg s.lastBlockHeight
  have htotal := abs_nonneg s.lastBlockTotalTx
  have hcommit : (strayBlock env s proposerAddress).checkLastCommit = none := by
    simp [Block.checkLastCommit, strayBlock, strayCommit, Commit.validateBasic, BlockID.isZero]
  have hhashes : (strayBlock env s proposerAddress).checkHashes env.amino = none := by
    have hempty : simpleHashFromByteSlices [] = [] := rfl
    have hleaf : Commit.hash env.amino (some (strayCommit s)) = (leafHash []).bytes := rfl
    simp [Block.checkHashes, strayBlock, hleaf, hempty, Block.dataHash]
  have hbasic : (strayBlock env s proposerAddress).validateBasic env.amino = none := by
    unfold Block.validateBasic
    rw [hcommit, hhashes]
    have hid : (BlockID.mk (otherHash s.lastBlockID.hash) .zero).validateBasic = true := by
      simp [BlockID.validateBasic, PartSetHeader.zero]
    have h1 : ¬ |s.lastBlockHeight| + 2 < 0 := by omega
    have h2 : |s.lastBlockHeight| + 2 ≠ 0 := by omega
    have h3 : ¬ |s.lastBlockTotalTx| + 1 < 0 := by omega
    simp [strayBlock, not_lt.mpr h, h1, h2, h3, hid, haddr]
  have h1 : |s.lastBlockHeight| + 2 ≠ 1 := by omega
  unfold validateBlock
  rw [hbasic]
  simp [strayBlock, h1]

lemma strayBlock_unrelated : Unrelated env s (strayBlock env s proposerAddress) := by
  have hheight := le_abs_self s.lastBlockHeight
  have habs := abs_nonneg s.lastBlockHeight
  have htotal := le_abs_self s.lastBlockTotalTx
  refine ⟨?_, ?_, otherHash_ne _, otherHash_ne _, otherHash_ne _, otherHash_ne _, otherHash_ne _,
    ?_, ?_, ?_⟩
  · show |s.lastBlockHeight| + 2 ≠ _
    omega
  · exact fun heq => otherHash_ne _ (congrArg BlockID.hash heq)
  · show |s.lastBlockTotalTx| + 1 ≠ s.lastBlockTotalTx + 0
    omega
  · show 1 < |s.lastBlockHeight| + 2
    omega
  · intro c hc hverify
    cases hc
    unfold verifyCommit at hverify
    split at hverify
    · cases hverify
    · split_ifs at hverify with h1 h2 h3
      have hlen := congrArg (fun x => x.hash.length) (not_not.mp h3)
      simp [strayCommit] at hlen

end Stray

/-- Only in states whose chain ID is too long for any block are all accepted blocks extensions of
the chain; in every other state an accepted block can miss it in all respects. A chain of blocks
that validators built from the state is linked by hashes and commits. -/
theorem accepted_extends_iff (env : ChainEnv) :
    (∀ s, (∀ b, validateBlock env s b = some none → ExtendsChain env s b) ↔
      maxChainIDLen < s.chainID.length) ∧
    (∀ s proposerAddress, s.chainID.length ≤ maxChainIDLen →
      proposerAddress.length = addressSize → ∃ b, validateBlock env s b = some none ∧
        Unrelated env s b ∧ b.header.proposerAddress = proposerAddress) ∧
    ∀ s es, Guarded (applyBlock env) (fun s e => Proposed env s e.block) s es →
      Guarded (applyBlock env) (fun s e => ExtendsChain env s e.block) s es ∧
        List.IsChain (Links env) (trail env s es) := by
  have hstray : ∀ s proposerAddress, s.chainID.length ≤ maxChainIDLen →
      proposerAddress.length = addressSize → ∃ b, validateBlock env s b = some none ∧
        Unrelated env s b ∧ b.header.proposerAddress = proposerAddress :=
    fun s addr hlen haddr =>
      ⟨strayBlock env s addr, strayBlock_accepted hlen haddr, strayBlock_unrelated, rfl⟩
  refine ⟨fun s => ⟨fun hall => ?_, fun hlen b hb => ?_⟩, hstray, fun s es hguard => ?_⟩
  · by_contra hlen
    obtain ⟨b, hb, hunrelated, -⟩ :=
      hstray s (replicate addressSize 0) (not_lt.mp hlen) (length_replicate ..)
    exact hunrelated.height (hall b hb).height
  · exact absurd (basic_of_accepted hb).1 (not_le.mpr hlen)
  · have hextends := hguard.mono fun _ _ h => h.extends
    exact ⟨hextends, trail_links hextends⟩

def plainAmino : Amino where
  version := fun v => [UInt8.ofNat v.block]
  string := id
  int64 := fun n => [UInt8.ofNat n.toNat]
  time := fun t => [UInt8.ofNat t.toNat]
  blockID := fun x => x.hash ++ x.partsHeader.hash
  hexBytes := id
  commitSig := fun v => v.signature
  validator := fun v => v.pubKey
  hashedParams := fun _ => [1]
  evidenceOk := fun _ => true

def soleAddress : Bytes := List.replicate addressSize 7

def soleValidator : Validator := ⟨soleAddress, [7], 1⟩

/-- A signature is the key. -/
def plainChain : ChainEnv :=
  ⟨plainAmino, lit "A", fun _ => soleAddress, fun pubKey _ sig => sig = pubKey⟩

def genesisState : State where
  version := ⟨10, 1⟩
  chainID := lit "A"
  lastBlockHeight := 0
  lastBlockTotalTx := 0
  lastBlockID := .zero
  lastBlockTime := 0
  nextValidators := [soleValidator]
  validators := [soleValidator]
  lastValidators := []
  consensusParams := ⟨1000, -1⟩
  lastResultsHash := []
  appHash := []

def applied (block : Block) : Applied :=
  ⟨block, ⟨1, List.replicate tmhashSize 5⟩, [soleValidator], ⟨1000, -1⟩, [], []⟩

def firstBlock : Block :=
  (makeBlock plainChain genesisState 1 [] ⟨.zero, []⟩ [] soleAddress []).get rfl

def stateOne : State :=
  updateState genesisState ((applied firstBlock).blockID plainChain) (applied firstBlock)

def votesOne : VoteSet (electorate plainChain (lit "A") [soleValidator]) × Bool × Option VoteError :=
  ((VoteSet.new 1 0 .precommit).addVote
    ⟨.precommit, 1, 0, stateOne.lastBlockID, 3, soleAddress, 0, [7], none, none⟩).get rfl

def commitOne : Commit := (votesOne.1.makeCommit).get rfl

def secondBlock : Block :=
  (makeBlock plainChain stateOne 2 [] commitOne [] soleAddress []).get rfl

lemma firstBlock_proposed : Proposed plainChain genesisState firstBlock :=
  ⟨[], ⟨.zero, []⟩, [], soleAddress, [], (some_get _).symm,
    ⟨soleValidator, mem_singleton.mpr rfl, rfl⟩, fun hne => absurd rfl hne⟩

lemma votesOne_built : VoteSet.Built 1 0 .precommit votesOne.1 := by
  have hadded : _ = some votesOne := (some_get _).symm
  exact .addVote .new hadded

lemma secondBlock_proposed : Proposed plainChain stateOne secondBlock :=
  ⟨[], commitOne, [], soleAddress, [], (some_get _).symm,
    ⟨soleValidator, mem_singleton.mpr rfl, rfl⟩, fun _ =>
      ⟨by decide +kernel, 0, votesOne.1, votesOne_built, rfl, (some_get _).symm⟩⟩

/-- Two blocks of one validator are accepted and linked. -/
theorem two_blocks_linked :
    (run (applyBlock plainChain) genesisState [applied firstBlock, applied secondBlock]).isSome ∧
      List.IsChain (Links plainChain)
        (trail plainChain genesisState [applied firstBlock, applied secondBlock]) := by
  have hfirst : applyBlock plainChain genesisState (applied firstBlock) = some stateOne :=
    if_pos (by decide +kernel)
  have hsecond : (applyBlock plainChain stateOne (applied secondBlock)).isSome := by
    rw [applyBlock, if_pos (by decide +kernel)]
    rfl
  have hguard : Guarded (applyBlock plainChain) (fun s e => Proposed plainChain s e.block)
      genesisState [applied firstBlock, applied secondBlock] := by
    refine ⟨firstBlock_proposed, fun s hs => ?_⟩
    obtain rfl : stateOne = s := some.inj (hfirst.symm.trans hs)
    exact ⟨secondBlock_proposed, fun _ _ => trivial⟩
  constructor
  · rw [run, hfirst]
    simpa [run] using hsecond
  · exact ((accepted_extends_iff plainChain).2.2 genesisState _ hguard).2

/-- After the first block one for height 3 is accepted, with hashes of no chain, a commit of nobody
and a proposer who is no validator. -/
theorem stray_third_block_accepted :
    let b := strayBlock plainChain stateOne (List.replicate addressSize 0)
    validateBlock plainChain stateOne b = some none ∧ stateOne.lastBlockHeight = 1 ∧
      b.header.height = 3 ∧ ¬ ExtendsChain plainChain stateOne b := by
  refine ⟨strayBlock_accepted (by decide) rfl, rfl, rfl, fun hext => ?_⟩
  exact strayBlock_unrelated.height hext.height

end ShardingBC.Consensus
