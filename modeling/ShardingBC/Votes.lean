import ShardingBC.GoBytes

/-!
# Votes and proposals

The messages of the consensus protocol and their canonical forms, the bytes of
which are signed. Heights and rounds do not overflow and a time is the number
of nanoseconds since the epoch. Byte slices that are nil are empty.
-/
namespace ShardingBC.Consensus

/-- `SignedMsgType` is a byte with three named values. -/
inductive SignedMsgType where
  | prevote
  | precommit
  | proposal
  | other (code : UInt8)
deriving DecidableEq

def isVoteTypeValid : SignedMsgType → Bool
  | .prevote | .precommit => true
  | _ => false

structure PartSetHeader where
  total : Int64
  hash : Bytes
deriving DecidableEq

def PartSetHeader.zero : PartSetHeader := ⟨0, []⟩

structure BlockID where
  hash : Bytes
  partsHeader : PartSetHeader
deriving DecidableEq

def BlockID.zero : BlockID := ⟨[], .zero⟩

/-- A share of a threshold signature with the index of its owner. -/
structure PartSig where
  peerCrossSig : Bytes
  id : Int64
deriving DecidableEq

structure Vote where
  type : SignedMsgType
  height : ℤ
  round : ℤ
  blockID : BlockID
  timestamp : ℤ
  validatorAddress : Bytes
  validatorIndex : ℤ
  signature : Bytes
  partSig : Option PartSig
  partBlockSig : Option PartSig
deriving DecidableEq

structure Proposal where
  height : ℤ
  round : ℤ
  polRound : ℤ
  blockID : BlockID
  timestamp : ℤ
  signature : Bytes
deriving DecidableEq

structure CanonicalVote where
  type : SignedMsgType
  height : ℤ
  round : ℤ
  blockID : BlockID
  timestamp : ℤ
  chainID : Bytes
deriving DecidableEq

structure CanonicalProposal where
  height : ℤ
  round : ℤ
  polRound : ℤ
  blockID : BlockID
  timestamp : ℤ
  chainID : Bytes
deriving DecidableEq

def canonicalizeVote (chainID : Bytes) (vote : Vote) : CanonicalVote :=
  ⟨vote.type, vote.height, vote.round, vote.blockID, vote.timestamp, chainID⟩

def canonicalizeProposal (chainID : Bytes) (proposal : Proposal) : CanonicalProposal :=
  ⟨proposal.height, proposal.round, proposal.polRound, proposal.blockID, proposal.timestamp,
    chainID⟩

end ShardingBC.Consensus
