import ShardingBC.VoteSet
import ShardingBC.SimpleTree

/-!
# Blocks

Headers with their hash, commits with `VerifyCommit`, and the checks of a block that need no state.
Amino is a parameter, applied to single values. Errors are named by what they are about; `none` is
nil.
-/
namespace ShardingBC.Consensus

open List

/-- `version.Consensus`. -/
structure Version where
  block : ℕ
  app : ℕ
deriving DecidableEq

/-- The consensus parameters that are hashed. -/
structure ConsensusParams where
  maxBytes : ℤ
  maxGas : ℤ

/-- `MustMarshalBinaryBare` of the types that are hashed, and `ValidateBasic` of evidence, given by
its bytes. -/
structure Amino where
  version : Version → Bytes
  string : Bytes → Bytes
  int64 : ℤ → Bytes
  time : ℤ → Bytes
  blockID : BlockID → Bytes
  hexBytes : Bytes → Bytes
  commitSig : Vote → Bytes
  validator : Validator → Bytes
  hashedParams : ConsensusParams → Bytes
  evidenceOk : Bytes → Bool

/-- `cdcEncode` of a string or a byte slice; nil for an empty one. -/
def cdcEncode (encode : Bytes → Bytes) (item : Bytes) : Bytes :=
  if item = [] then [] else encode item

def simpleHashFromByteSlices (items : List Bytes) : Bytes :=
  (simpleTreeFromByteSlices items).elim [] fun t => t.computeRootHash.bytes

structure Commit where
  blockID : BlockID
  precommits : List (Option Vote)

structure Header where
  version : Version
  chainID : Bytes
  height : ℤ
  time : ℤ
  numTxs : ℤ
  totalTxs : ℤ
  lastBlockID : BlockID
  lastCommitHash : Bytes
  dataHash : Bytes
  validatorsHash : Bytes
  nextValidatorsHash : Bytes
  consensusHash : Bytes
  appHash : Bytes
  lastResultsHash : Bytes
  evidenceHash : Bytes
  proposerAddress : Bytes
  crossMerkleRoot : Bytes
  cmRelation : Bytes

structure Block where
  header : Header
  txs : List Bytes
  evidence : List Bytes
  lastCommit : Option Commit

variable (A : Amino)

/-- The leaves of the tree that `Header.Hash` makes, without the two fields this chain added. -/
def Header.items (h : Header) : List Bytes :=
  [A.version h.version, cdcEncode A.string h.chainID, A.int64 h.height, A.time h.time,
    A.int64 h.numTxs, A.int64 h.totalTxs, A.blockID h.lastBlockID,
    cdcEncode A.hexBytes h.lastCommitHash, cdcEncode A.hexBytes h.dataHash,
    cdcEncode A.hexBytes h.validatorsHash, cdcEncode A.hexBytes h.nextValidatorsHash,
    cdcEncode A.hexBytes h.consensusHash, cdcEncode A.hexBytes h.appHash,
    cdcEncode A.hexBytes h.lastResultsHash, cdcEncode A.hexBytes h.evidenceHash,
    cdcEncode A.hexBytes h.proposerAddress]

def Header.hash (h : Header) : Bytes :=
  if h.validatorsHash = [] then [] else simpleHashFromByteSlices (h.items A)

def BlockID.isZero (x : BlockID) : Bool :=
  decide (x.hash.length = 0) && decide (x.partsHeader.total = 0) &&
    decide (x.partsHeader.hash.length = 0)

inductive CommitError where
  | nilBlock
  | noPrecommits
  | notPrecommit
  | wrongPrecommitHeight
  | wrongPrecommitRound
  | wrongSetSize
  | wrongHeight
  | wrongBlockID
  | invalidSignature
  | tooMuchChange (got needed : ℕ)
deriving DecidableEq

namespace Commit

/-- Height and round of the commit are those of its first precommit. -/
def first (c : Commit) : Option Vote := c.precommits.findSome? id

def height (c : Commit) : ℤ := (c.first.map Vote.height).getD 0

def round (c : Commit) : ℤ := (c.first.map Vote.round).getD 0

def checkPrecommit (c : Commit) (v : Vote) : Option CommitError :=
  if v.type ≠ .precommit then some .notPrecommit
  else if v.height ≠ c.height then some .wrongPrecommitHeight
  else if v.round ≠ c.round then some .wrongPrecommitRound
  else none

def validateBasic (c : Commit) : Option CommitError :=
  if c.blockID.isZero then some .nilBlock
  else if c.precommits = [] then some .noPrecommits
  else c.precommits.findSome? fun p => p.bind c.checkPrecommit

/-- `Commit.Hash` of a commit that may be nil. -/
def hash : Option Commit → Bytes
  | none => []
  | some c => simpleHashFromByteSlices (c.precommits.map fun p => p.elim [] A.commitSig)

end Commit

def verifyCommit (E : Electorate) (blockID : BlockID) (height : ℤ) (c : Commit) :
    Option CommitError :=
  match c.validateBasic with
  | some err => some err
  | none =>
    if E.validators.length ≠ c.precommits.length then some .wrongSetSize
    else if height ≠ c.height then some .wrongHeight
    else if blockID ≠ c.blockID then some .wrongBlockID
    else
      let signed := E.validators.zip c.precommits
      if signed.any fun s => s.2.any fun v =>
        !E.verifyBytes s.1.pubKey (canonicalizeVote E.chainID v) v.signature then
        some .invalidSignature
      else
        let tallied := (signed.map fun s =>
          if s.2.any fun v => v.blockID = blockID then s.1.votingPower else 0).sum
        if E.totalVotingPower * 2 / 3 < tallied then none
        else some (.tooMuchChange tallied (E.totalVotingPower * 2 / 3 + 1))

/-- Verified precommits of a height and round. -/
structure Electorate.Precommits (E : Electorate) (height round : ℤ)
    (votes : E.Index → Option Vote) : Prop where
  listed : ∀ i v, votes i = some v → (v.height = height ∧ v.round = round ∧ v.type = .precommit) ∧
    v.verify E (E.validators.get i).pubKey = none
  nonempty : ∃ i v, votes i = some v

namespace Electorate

variable {E : Electorate} {height round : ℤ} {votes : E.Index → Option Vote} {x : BlockID}

lemma zip_ofFn (f : E.Index → Option Vote) :
    E.validators.zip (List.ofFn f) = List.ofFn fun i => (E.validators.get i, f i) := by
  refine ext_getElem (by simp) fun k h h' => ?_
  simp

lemma Precommits.height_round (h : E.Precommits height round votes) (x : BlockID) :
    (Commit.mk x (List.ofFn votes)).height = height ∧
      (Commit.mk x (List.ofFn votes)).round = round := by
  obtain ⟨i₀, v₀, hv₀⟩ := h.nonempty
  cases hf : (Commit.mk x (ofFn votes)).first with
  | none =>
    have hmem : some v₀ ∈ ofFn votes := (mem_ofFn ..).mpr ⟨i₀, hv₀⟩
    cases findSome?_eq_none_iff.mp hf (some v₀) hmem
  | some v =>
    obtain ⟨p, hp, hpv⟩ := exists_of_findSome?_eq_some hf
    obtain rfl : p = some v := hpv
    obtain ⟨i, hi⟩ := (mem_ofFn ..).mp hp
    obtain ⟨hheight, hround, -⟩ := (h.listed i v hi).1
    simp [Commit.height, Commit.round, hf, hheight, hround]

lemma Precommits.validateBasic (h : E.Precommits height round votes) (hx : x.isZero = false) :
    (Commit.mk x (List.ofFn votes)).validateBasic = none := by
  obtain ⟨hheight, hround⟩ := h.height_round x
  have hne : ofFn votes ≠ [] := by
    obtain ⟨i, v, hv⟩ := h.nonempty
    exact ne_nil_of_mem ((mem_ofFn ..).mpr ⟨i, hv⟩)
  unfold Commit.validateBasic
  rw [if_neg (by simp [hx]), if_neg hne]
  refine findSome?_eq_none_iff.mpr fun p hp => ?_
  cases p with
  | none => rfl
  | some v =>
    obtain ⟨i, hi⟩ := (mem_ofFn ..).mp hp
    obtain ⟨h1, h2, h3⟩ := (h.listed i v hi).1
    simp [Commit.checkPrecommit, hheight, hround, h1, h2, h3]

lemma Precommits.verifyCommit (h : E.Precommits height round votes) (hx : x.isZero = false)
    (htally : E.quorum ≤
      ∑ i, if (votes i).any (fun v => v.blockID = x) then E.power i else 0) :
    Consensus.verifyCommit E x height ⟨x, List.ofFn votes⟩ = none := by
  -- Every listed vote was verified under the key of its validator.
  have hsigned : ∀ i, (votes i).any (fun v => !E.verifyBytes (E.validators.get i).pubKey
      (canonicalizeVote E.chainID v) v.signature) = false := by
    intro i
    cases hv : votes i with
    | none => rfl
    | some v =>
      have hverify := (h.listed i v hv).2
      unfold Vote.verify at hverify
      split_ifs at hverify with haddr hsig
      simpa using hsig
  unfold Consensus.verifyCommit
  rw [h.validateBasic hx]
  rw [if_neg (by simp), if_neg (by simp [(h.height_round x).1]), if_neg (by simp),
    zip_ofFn, if_neg, if_pos]
  · rw [map_ofFn, sum_ofFn]
    exact Nat.lt_of_succ_le htally
  · rw [any_eq_true]
    rintro ⟨s, hmem, hs⟩
    obtain ⟨i, rfl⟩ := (mem_ofFn ..).mp hmem
    rw [hsigned i] at hs
    cases hs

end Electorate

namespace VoteSet

variable {E : Electorate}

/-- `MakeCommit`; `none` is a panic. -/
def makeCommit (vs : VoteSet E) : Option Commit :=
  if vs.type ≠ .precommit then none
  else vs.maj23.map fun x => ⟨x, List.ofFn vs.votes⟩

/-- A vote set that was made by its own operations. -/
inductive Built (height round : ℤ) (type : SignedMsgType) : VoteSet E → Prop
  | new : Built height round type (.new height round type)
  | addVote {vs vs' : VoteSet E} {vote : Vote} {added : Bool} {err : Option VoteError} :
      Built height round type vs → vs.addVote vote = some (vs', added, err) →
      Built height round type vs'
  | setPeerMaj23 {vs : VoteSet E} (peerID : Bytes) (blockID : BlockID) :
      Built height round type vs → Built height round type (vs.setPeerMaj23 peerID blockID).1

lemma Built.sound {height round : ℤ} {type : SignedMsgType} {vs : VoteSet E}
    (h : vs.Built height round type) :
    (vs.height = height ∧ vs.round = round ∧ vs.type = type) ∧ vs.Sound fun i v =>
      (v.height = height ∧ v.round = round ∧ v.type = type) ∧
        v.verify E (E.validators.get i).pubKey = none := by
  induction h with
  | new => exact ⟨⟨rfl, rfl, rfl⟩, sound_new ..⟩
  | addVote _ hadd ih =>
    obtain ⟨⟨h1, h2, h3⟩, hsound⟩ := ih
    have hext := addVote_extends hadd
    refine ⟨⟨hext.height.trans h1, hext.round.trans h2, hext.type.trans h3⟩,
      hsound.addVote (fun i hadm => ?_) hadd⟩
    exact ⟨⟨hadm.height.trans h1, hadm.round.trans h2, hadm.type.trans h3⟩, hadm.verified⟩
  | @setPeerMaj23 vs peerID blockID _ ih =>
    obtain ⟨⟨h1, h2, h3⟩, hsound⟩ := ih
    have hext := vs.setPeerMaj23_extends peerID blockID
    exact ⟨⟨hext.height.trans h1, hext.round.trans h2, hext.type.trans h3⟩,
      hsound.setPeerMaj23 peerID blockID⟩

section MakeCommit

variable {height round : ℤ} {vs : VoteSet E} {x : BlockID}

lemma Sound.exists_vote {P : E.Index → Vote → Prop} (hs : vs.Sound P) (hmaj : vs.maj23 = some x) :
    ∃ i v, vs.votes i = some v := by
  obtain ⟨bv, hbv, hq⟩ := hs.quorum x hmaj
  by_contra hnone
  push Not at hnone
  have hempty : ∀ i, bv.votes i = none := by
    intro i
    cases hv : bv.votes i with
    | none => rfl
    | some v => exact absurd (hs.chosen x hmaj bv hbv i v hv) (hnone i v)
  have hsum := bv.sum_eq
  simp only [hempty, Option.isSome_none, Bool.false_eq_true, if_false, Finset.sum_const_zero] at hsum
  unfold Electorate.quorum at hq
  omega

/-- The power listed for the block of the majority. -/
lemma Sound.tallied {P : E.Index → Vote → Prop} (hs : vs.Sound P) (hmaj : vs.maj23 = some x) :
    E.quorum ≤ ∑ i, if (vs.votes i).any (fun v => v.blockID = x) then E.power i else 0 := by
  obtain ⟨bv, hbv, hq⟩ := hs.quorum x hmaj
  refine hq.trans ?_
  rw [bv.sum_eq]
  refine Finset.sum_le_sum fun i _ => ?_
  cases hv : bv.votes i with
  | none => simp
  | some v => simp [hs.chosen x hmaj bv hbv i v hv, (hs.counted x bv hbv i v hv).1]

lemma Built.precommits (h : vs.Built height round .precommit) (hmaj : vs.maj23 = some x) :
    E.Precommits height round vs.votes :=
  ⟨fun i v hv => h.sound.2.listed i v hv, h.sound.2.exists_vote hmaj⟩

end MakeCommit

end VoteSet

def maxChainIDLen : ℕ := 50
def addressSize : ℕ := 20
def tmhashSize : ℕ := 32

/-- `ValidateHash` returns nil. -/
def validateHash (h : Bytes) : Bool := decide (h.length = 0) || decide (h.length = tmhashSize)

/-- `BlockID.ValidateBasic` returns nil. -/
def BlockID.validateBasic (x : BlockID) : Bool :=
  validateHash x.hash && decide (0 ≤ x.partsHeader.total) && validateHash x.partsHeader.hash

def BlockID.isComplete (x : BlockID) : Bool :=
  decide (x.hash.length = tmhashSize) && decide (0 < x.partsHeader.total) &&
    decide (x.partsHeader.hash.length = tmhashSize)

def maxSignatureSize : ℕ := 64

/-- `Vote.ValidateBasic` returns nil. -/
def Vote.validateBasic (vote : Vote) : Bool :=
  isVoteTypeValid vote.type && decide (0 ≤ vote.height) && decide (0 ≤ vote.round) &&
    vote.blockID.validateBasic && (vote.blockID.isZero || vote.blockID.isComplete) &&
    decide (vote.validatorAddress.length = addressSize) && decide (0 ≤ vote.validatorIndex) &&
    decide (vote.signature.length ≠ 0) && decide (vote.signature.length ≤ maxSignatureSize)

inductive BlockError where
  | chainIDTooLong
  | negativeHeight
  | zeroHeight
  | wrongNumTxs
  | negativeTotalTxs
  | wrongLastBlockID
  | nilLastCommit
  | wrongLastCommit
  | wrongLastCommitHash
  | wrongDataHash
  | wrongValidatorsHash
  | wrongNextValidatorsHash
  | wrongConsensusHash
  | wrongLastResultsHash
  | wrongEvidenceHash
  | invalidEvidence
  | wrongProposerAddress
  | wrongVersion
  | wrongChainID
  | precommitsAtHeightOne
  | timeNotAfterLast
deriving DecidableEq

namespace Block

/-- `Txs.Hash`. -/
def dataHash (txs : List Bytes) : Bytes :=
  simpleHashFromByteSlices (txs.map fun tx => (sha256 tx).bytes)

/-- The last commit as far as it is checked. -/
def checkLastCommit (b : Block) : Option BlockError :=
  if 1 < b.header.height then
    match b.lastCommit with
    | none => some .nilLastCommit
    | some c => if c.validateBasic.isSome then some .wrongLastCommit else none
  else none

/-- The hashes of application data are only checked for their length. -/
def checkHashes (b : Block) : Option BlockError :=
  if !validateHash b.header.lastCommitHash ∨ b.header.lastCommitHash ≠ Commit.hash A b.lastCommit then
    some .wrongLastCommitHash
  else if !validateHash b.header.dataHash ∨ b.header.dataHash ≠ dataHash b.txs then
    some .wrongDataHash
  else if !validateHash b.header.validatorsHash then some .wrongValidatorsHash
  else if !validateHash b.header.nextValidatorsHash then some .wrongNextValidatorsHash
  else if !validateHash b.header.consensusHash then some .wrongConsensusHash
  else if !validateHash b.header.lastResultsHash then some .wrongLastResultsHash
  else if !validateHash b.header.evidenceHash then some .wrongEvidenceHash
  else if !b.evidence.all A.evidenceOk then some .invalidEvidence
  else if b.header.evidenceHash ≠ simpleHashFromByteSlices b.evidence then some .wrongEvidenceHash
  else none

def validateBasic (b : Block) : Option BlockError :=
  if maxChainIDLen < b.header.chainID.length then some .chainIDTooLong
  else if b.header.height < 0 then some .negativeHeight
  else if b.header.height = 0 then some .zeroHeight
  else if b.header.numTxs ≠ b.txs.length then some .wrongNumTxs
  else if b.header.totalTxs < 0 then some .negativeTotalTxs
  else if !b.header.lastBlockID.validateBasic then some .wrongLastBlockID
  else
    ((b.checkLastCommit).or (b.checkHashes A)).or
      (if b.header.proposerAddress.length ≠ addressSize then some .wrongProposerAddress else none)

def fillHeader (b : Block) : Block :=
  { b with
    header := { b.header with
      lastCommitHash := if b.header.lastCommitHash = [] then Commit.hash A b.lastCommit
        else b.header.lastCommitHash
      dataHash := if b.header.dataHash = [] then dataHash b.txs else b.header.dataHash
      evidenceHash := if b.header.evidenceHash = [] then simpleHashFromByteSlices b.evidence
        else b.header.evidenceHash } }

def hash (b : Block) : Bytes :=
  if b.lastCommit.isNone then [] else (b.fillHeader A).header.hash A

end Block

end ShardingBC.Consensus
