import ShardingBC.Block
import ShardingBC.StoreWire

/-!
# The write-ahead log

What a peer gets queued for the consensus state is written to the log, with the time and the
ID of the peer, before it is handled. A message is received up to the same size as an entry
of the log may have.
-/
namespace ShardingBC.Consensus

open Option Wire
open Rotation (readTime readBlockID readTime_wire readBlockID_wire)

structure SimpleProof where
  total : ℤ
  index : ℤ
  leafHash : Bytes
  aunts : List Bytes

structure Part where
  index : ℤ
  bytes : Bytes
  proof : SimpleProof

/-- Pointers may be nil. Messages about the state of the peer are never queued. -/
inductive ConsensusMessage where
  | proposal (proposal : Option (SignedMsgType × Proposal))
  | blockPart (height round : ℤ) (part : Option Part)
  | vote (vote : Option Vote)
  | peerState (encoding : Bytes) (valid : Bool)

def blockPartSizeBytes : ℕ := 655360

def Proposal.validateBasic (type : SignedMsgType) (p : Proposal) : Bool :=
  decide (type = .proposal) && decide (0 ≤ p.height) && decide (0 ≤ p.round) &&
    decide (-1 ≤ p.polRound) && p.blockID.validateBasic && p.blockID.isComplete &&
    decide (p.signature.length ≠ 0) && decide (p.signature.length ≤ maxSignatureSize)

/-- The proof is not looked at. -/
def Part.validateBasic (part : Part) : Bool :=
  decide (0 ≤ part.index) && decide (part.bytes.length ≤ blockPartSizeBytes)

/-- The peer of a nil pointer is stopped, as that of an error. -/
def ConsensusMessage.validateBasic : ConsensusMessage → Bool
  | proposal p => p.any fun q => q.2.validateBasic q.1
  | blockPart height round part =>
    decide (0 ≤ height) && decide (0 ≤ round) && part.any Part.validateBasic
  | vote v => v.any Vote.validateBasic
  | peerState _ valid => valid

/-! ## Encoding

Registered types come with the four bytes of their name. -/

def SignedMsgType.code : SignedMsgType → ℕ
  | prevote => 1
  | precommit => 2
  | proposal => 32
  | other code => code.toNat

def wirePartSig (s : PartSig) : Bytes := bytesField 10 s.peerCrossSig ++ Wire.intField 16 s.id.toInt

def wireVote (v : Vote) : Bytes :=
  varintField 8 v.type.code ++ (Wire.intField 16 v.height ++ (Wire.intField 24 v.round ++
    (bytesField 34 (Rotation.wireBlockID v.blockID) ++
    (bytesField 42 (Rotation.wireTime v.timestamp) ++
      (bytesField 50 v.validatorAddress ++ (Wire.intField 56 v.validatorIndex ++
        (bytesField 66 v.signature ++ (optional 74 (v.partSig.map wirePartSig) ++
          (optional 82 (v.partBlockSig.map wirePartSig) ++ [])))))))))

def wireProposal (type : SignedMsgType) (p : Proposal) : Bytes :=
  varintField 8 type.code ++ (Wire.intField 16 p.height ++ (Wire.intField 24 p.round ++
    (Wire.intField 32 p.polRound ++ (bytesField 42 (Rotation.wireBlockID p.blockID) ++
      (bytesField 50 (Rotation.wireTime p.timestamp) ++ bytesField 58 p.signature)))))

def wireProof (p : SimpleProof) : Bytes :=
  Wire.intField 8 p.total ++ (Wire.intField 16 p.index ++
    (bytesField 26 p.leafHash ++ repeated 34 p.aunts))

def wirePart (p : Part) : Bytes :=
  Wire.intField 8 p.index ++ (bytesField 18 p.bytes ++ bytesField 26 (wireProof p.proof))

/-- `MarshalBinaryBare`. -/
def ConsensusMessage.marshal : ConsensusMessage → Bytes
  | proposal p => [0xe7, 0x4e, 0x3c, 0x04] ++ optional 10 (p.map fun q => wireProposal q.1 q.2)
  | blockPart height round part =>
    [0x29, 0xe9, 0xae, 0x82] ++
      (Wire.intField 8 height ++ (Wire.intField 16 round ++ optional 26 (part.map wirePart)))
  | vote v => [0xc1, 0xda, 0x2d, 0x94] ++ optional 10 (v.map wireVote)
  | peerState encoding _ => encoding

/-- `UnmarshalBinaryBare`. Fields that are left out have their default, and a number is written in
the fewest bytes, so no message is written in more bytes than it was read from. -/
structure MessageReader where
  read : Bytes → Option ConsensusMessage
  length_le : ∀ bz m, read bz = some m → m.marshal.length ≤ bz.length

inductive Channel where
  | state
  | data
  | vote
  | voteSetBits
  | unknown

/-- The messages that are for the consensus state. -/
def Channel.queues : Channel → ConsensusMessage → Bool
  | data, .proposal _ | data, .blockPart _ _ _ | vote, .vote _ => true
  | _, _ => false

structure Peer where
  address : Vector UInt8 20

/-- `PubKeyToID`. -/
def Peer.id (p : Peer) : Bytes := hexLower p.address.toList

structure MsgInfo where
  msg : ConsensusMessage
  peerID : Bytes

structure ConsensusReactor where
  running : Bool
  fastSync : Bool

def maxMsgSize : ℕ := 1048576

section Receive

variable (R : MessageReader)

def decodeMsg (bz : Bytes) : Option ConsensusMessage :=
  if maxMsgSize < bz.length then none else R.read bz

/-- What `Receive` puts into `peerMsgQueue`. -/
def ConsensusReactor.receive (conR : ConsensusReactor) (chID : Channel) (src : Peer)
    (msgBytes : Bytes) : Option MsgInfo :=
  if !conR.running then none
  else match decodeMsg R msgBytes with
    | none => none
    | some msg =>
      if msg.validateBasic && chID.queues msg && !conR.fastSync then some ⟨msg, src.id⟩
      else none

end Receive

/-- The times that amino can write. -/
structure Time where
  seconds : ℤ
  nanos : ℤ
  minSeconds_le : -62135596800 ≤ seconds
  lt_maxSeconds : seconds < 253402300800
  nanos_nonneg : 0 ≤ nanos
  nanos_lt : nanos < 10 ^ 9

def Time.wire (t : Time) : Bytes := Wire.intField 8 t.seconds ++ Wire.intField 16 t.nanos

def MsgInfo.wire (mi : MsgInfo) : Bytes := message 10 mi.msg.marshal ++ bytesField 18 mi.peerID

/-- `MarshalBinaryBare` of a `TimedWALMessage`. -/
def timedWALMessage (now : Time) (mi : MsgInfo) : Bytes :=
  bytesField 10 now.wire ++ message 18 ([0x1f, 0x5e, 0xa3, 0xff] ++ mi.wire)

def maxMsgSizeBytes : ℕ := 1024 * 1024

/-- A number of 32 bits, the highest byte first. -/
def putUint32 (n : ℕ) : Bytes :=
  [UInt8.ofNat (n / 2 ^ 24), UInt8.ofNat (n / 2 ^ 16), UInt8.ofNat (n / 2 ^ 8), UInt8.ofNat n]

/-- `WALEncoder.Encode`; the length is an `uint32`. -/
def walEncode (checksum : Bytes → ℕ) (data : Bytes) : Option Bytes :=
  if maxMsgSizeBytes < data.length % 2 ^ 32 then none
  else some (putUint32 (checksum data) ++ putUint32 data.length ++ data)

/-- `baseWAL.Write`; `none` is the panic. -/
def walWrite (checksum : Bytes → ℕ) (wal : Bytes) (now : Time) (mi : MsgInfo) : Option Bytes :=
  (walEncode checksum (timedWALMessage now mi)).map (wal ++ ·)

lemma Time.length_wire_le (t : Time) : t.wire.length ≤ 17 := by
  have hnanos := t.nanos_nonneg
  have hlt := t.nanos_lt
  have hseconds : (Wire.intField 8 t.seconds).length ≤ 11 :=
    length_intField_le _ (by have := t.minSeconds_le; omega) (by have := t.lt_maxSeconds; omega)
  have hof : ofInt t.nanos < 2 ^ 30 := by
    rw [ofInt, if_pos (by omega)]
    omega
  have hlen := (length_uvarint_le_iff (ofInt t.nanos) 4).mpr (hof.trans (by norm_num))
  have hnanos : (Wire.intField 16 t.nanos).length ≤ 6 := by
    unfold Wire.intField varintField
    split_ifs
    · simp
    · simp only [List.length_cons]
      omega
  rw [Time.wire, List.length_append]
  omega

lemma Time.length_field_le (t : Time) (key : UInt8) :
    (bytesField key t.wire).length ≤ 19 := by
  have hle := t.length_wire_le
  by_cases h : t.wire = []
  · simp [h, bytesField]
  · have hlen := (length_uvarint_le_iff t.wire.length 0).mpr (by omega)
    rw [length_bytesField h]
    omega

lemma length_timedWALMessage (now : Time) {mi : MsgInfo} (hid : mi.peerID.length = 40) :
    (timedWALMessage now mi).length = (bytesField 10 now.wire).length + (1 +
      (uvarint (4 + (1 + (uvarint mi.msg.marshal.length).length + mi.msg.marshal.length) +
        42)).length +
      (4 + (1 + (uvarint mi.msg.marshal.length).length + mi.msg.marshal.length) + 42)) := by
  have hpeer : (bytesField 18 mi.peerID).length = 42 := by
    rw [length_bytesField (List.ne_nil_of_length_eq_add_one hid), hid, uvarint_of_lt (by omega)]
    rfl
  simp only [timedWALMessage, MsgInfo.wire, List.length_append, length_message, hpeer,
    List.length_cons, List.length_nil, Nat.reduceAdd, add_assoc]

/-- The entry is the message, the field of the time, and 54 bytes more if the message has
three bytes for its length. -/
lemma length_timedWALMessage_le_iff (now : Time) {mi : MsgInfo} (hid : mi.peerID.length = 40) :
    (timedWALMessage now mi).length ≤ maxMsgSizeBytes ↔
      mi.msg.marshal.length + (bytesField 10 now.wire).length + 54 ≤ maxMsgSizeBytes := by
  have htime := now.length_field_le 10
  rw [length_timedWALMessage now hid]
  generalize mi.msg.marshal.length = n at *
  unfold maxMsgSizeBytes
  by_cases hsmall : n < 128 ^ 2
  · have hn := (length_uvarint_le_iff n 1).mpr hsmall
    have hk := (length_uvarint_le_iff (4 + (1 + (uvarint n).length + n) + 42) 2).mpr (by omega)
    omega
  · by_cases hlarge : n < 128 ^ 3 - 50
    · have hn := length_uvarint_eq (k := 1) (n := n) (by omega) (by omega)
      have hk := length_uvarint_eq (k := 1) (n := 4 + (1 + (uvarint n).length + n) + 42)
        (by omega) (by omega)
      omega
    · omega

/-- The length of the entry of a received message fits into 32 bits. -/
lemma length_timedWALMessage_lt (now : Time) {mi : MsgInfo} (hid : mi.peerID.length = 40)
    (hsize : mi.msg.marshal.length ≤ maxMsgSize) :
    (timedWALMessage now mi).length < 2 ^ 32 := by
  have htime := now.length_field_le 10
  rw [length_timedWALMessage now hid]
  generalize mi.msg.marshal.length = n at *
  unfold maxMsgSize at hsize
  have hn := (length_uvarint_le_iff n 2).mpr (by omega)
  have hk := (length_uvarint_le_iff (4 + (1 + (uvarint n).length + n) + 42) 2).mpr (by omega)
  omega

section Logs

variable {R : MessageReader} {conR : ConsensusReactor} {chID : Channel} {src : Peer}
  {msgBytes : Bytes} {mi : MsgInfo}

lemma receive_eq_some (h : conR.receive R chID src msgBytes = some mi) :
    msgBytes.length ≤ maxMsgSize ∧ R.read msgBytes = some mi.msg ∧
      mi.msg.validateBasic = true ∧ chID.queues mi.msg = true ∧ mi.peerID = src.id := by
  unfold ConsensusReactor.receive decodeMsg at h
  by_cases hsize : maxMsgSize < msgBytes.length
  · simp [hsize] at h
  · split_ifs at h
    split at h
    · cases h
    · rename_i msg hread
      split_ifs at h with hvalid
      cases h
      simp only [Bool.and_eq_true] at hvalid
      exact ⟨by omega, hread, hvalid.1.1, hvalid.1.2, rfl⟩

/-- What `Receive` queues is logged at this time. -/
def Logs (R : MessageReader) (checksum : Bytes → ℕ) (conR : ConsensusReactor) (chID : Channel)
    (src : Peer) (msgBytes wal : Bytes) (now : Time) : Prop :=
  ∀ mi, conR.receive R chID src msgBytes = some mi → (walWrite checksum wal now mi).isSome

lemma isSome_walWrite_iff (checksum : Bytes → ℕ) (wal : Bytes) (now : Time)
    (h : conR.receive R chID src msgBytes = some mi) :
    (walWrite checksum wal now mi).isSome ↔
      mi.msg.marshal.length + (bytesField 10 now.wire).length + 54 ≤ maxMsgSizeBytes := by
  obtain ⟨hsize, hread, -, -, hid⟩ := receive_eq_some h
  have hlen : mi.peerID.length = 40 := by
    rw [hid, Peer.id, length_hexLower, Vector.length_toList]
  have htimed := length_timedWALMessage_le_iff now hlen
  have hmod : (timedWALMessage now mi).length % 2 ^ 32 = (timedWALMessage now mi).length :=
    Nat.mod_eq_of_lt (length_timedWALMessage_lt now hlen ((R.length_le _ _ hread).trans hsize))
  rw [walWrite, walEncode, hmod, ← htimed]
  split_ifs with hlt
  · simpa using hlt
  · simpa using hlt

/-- The log has room for exactly those queued messages that leave 54 bytes and the field of
the time below its limit. -/
theorem queued_logged_iff (R : MessageReader) (checksum : Bytes → ℕ) (conR : ConsensusReactor)
    (chID : Channel) (src : Peer) (msgBytes wal : Bytes) (now : Time) :
    Logs R checksum conR chID src msgBytes wal now ↔
      ∀ mi, conR.receive R chID src msgBytes = some mi →
        mi.msg.marshal.length + (bytesField 10 now.wire).length + 54 ≤ maxMsgSizeBytes :=
  forall₂_congr fun _ h => isSome_walWrite_iff checksum wal now h

end Logs

def SignedMsgType.ofCode : ℕ → SignedMsgType
  | 1 => prevote
  | 2 => precommit
  | 32 => proposal
  | n => other (UInt8.ofNat n)

def readPartSig (bz : Bytes) : PartSig :=
  let share := readBytesField 10 bz
  ⟨share.1, Int64.ofInt (readIntField 16 share.2).1⟩

def readVote (bz : Bytes) : Vote :=
  let type := readVarintField 8 bz
  let height := readIntField 16 type.2
  let round := readIntField 24 height.2
  let blockID := readBytesField 34 round.2
  let timestamp := readBytesField 42 blockID.2
  let address := readBytesField 50 timestamp.2
  let index := readIntField 56 address.2
  let signature := readBytesField 66 index.2
  let partSig := readOptional 74 signature.2
  let partBlockSig := readOptional 82 partSig.2
  ⟨.ofCode type.1, height.1, round.1, readBlockID blockID.1, readTime timestamp.1, address.1,
    index.1, signature.1, partSig.1.map readPartSig, partBlockSig.1.map readPartSig⟩

@[simp] lemma readPartSig_wire (x : PartSig) : readPartSig (wirePartSig x) = x := by
  simp only [readPartSig, wirePartSig]
  rw [readBytesField_append _ (intField_head?_ne (by decide) _)]
  simp

lemma readVote_wire (v : Vote) (h : isVoteTypeValid v.type = true) :
    readVote (wireVote v) = v := by
  have hcode : SignedMsgType.ofCode v.type.code = v.type := by
    cases htype : v.type with
    | prevote | precommit | proposal => rfl
    | other code => simp [htype, isVoteTypeValid] at h
  have h74 : Above 74 (Wire.optional 82 (v.partBlockSig.map wirePartSig) ++ []) :=
    .optional _ (by decide) _ .nil
  have h66 := Above.optional 66 (by decide) (v.partSig.map wirePartSig) h74
  have h56 := Above.bytesField 56 (by decide) v.signature h66
  have h50 := Above.intField 50 (by decide) v.validatorIndex h56
  have h42 := Above.bytesField 42 (by decide) v.validatorAddress h50
  have h34 := Above.bytesField 34 (by decide) (Rotation.wireTime v.timestamp) h42
  have h24 := Above.bytesField 24 (by decide) (Rotation.wireBlockID v.blockID) h34
  have h16 := Above.intField 16 (by decide) v.round h24
  have h8 := Above.intField 8 (by decide) v.height h16
  simp only [readVote, wireVote]
  rw [readVarintField_append _ h8.head?_ne, readIntField_append _ h16.head?_ne,
    readIntField_append _ h24.head?_ne, readBytesField_append _ h34.head?_ne,
    readBytesField_append _ h42.head?_ne, readBytesField_append _ h50.head?_ne,
    readIntField_append _ h56.head?_ne, readBytesField_append _ h66.head?_ne,
    readOptional_append _ h74.head?_ne, readOptional_append _ (by simp), hcode, readTime_wire,
    readBlockID_wire]
  simp [Function.comp_def]

/-- Reads the votes that are written as amino writes them. -/
def voteReader : MessageReader where
  read bz :=
    let v := readVote (readMessage (bz.drop 4)).1
    if (ConsensusMessage.vote (some v)).marshal = bz then some (.vote (some v)) else none
  length_le := by
    intro bz m h
    simp only at h
    split_ifs at h with hcanonical
    cases h
    rw [hcanonical]

lemma voteReader_marshal {v : Vote} (h : isVoteTypeValid v.type = true) :
    voteReader.read (ConsensusMessage.vote (some v)).marshal = some (.vote (some v)) := by
  have hread : readVote (readMessage ((ConsensusMessage.vote (some v)).marshal.drop 4)).1 = v := by
    simp only [ConsensusMessage.marshal, map_some, Wire.optional, elim_some]
    rw [show List.drop 4 ([0xc1, 0xda, 0x2d, 0x94] ++ message 10 (wireVote v)) =
      message 10 (wireVote v) from rfl, readMessage_self]
    exact readVote_wire v h
  simp only [voteReader, hread, if_true]

/-- A nil prevote with a share of its own choice. -/
def voteWithShare (share : Bytes) : Vote where
  type := .prevote
  height := 1
  round := 0
  blockID := .zero
  timestamp := 0
  validatorAddress := List.replicate 20 7
  validatorIndex := 0
  signature := [1]
  partSig := some ⟨share, 1⟩
  partBlockSig := none

lemma length_wirePartSig_one {share : Bytes} (hlow : 16384 ≤ share.length)
    (hhigh : share.length < 2097152) : (wirePartSig ⟨share, 1⟩).length = share.length + 6 := by
  have hid : (Wire.intField 16 (1 : Int64).toInt).length = 2 := by
    rw [show (1 : Int64).toInt = 1 from rfl, Wire.intField, show ofInt 1 = 1 from rfl, varintField,
      uvarint_of_lt (by omega)]
    rfl
  have hne : share ≠ [] := List.ne_nil_of_length_pos (by omega)
  have hvarint := length_uvarint_eq (k := 1) (n := share.length) (by omega) (by omega)
  rw [wirePartSig, List.length_append, hid, length_bytesField hne]
  omega

lemma length_wireVote_voteWithShare {share : Bytes} (hlow : 16384 ≤ share.length)
    (hhigh : share.length + 6 < 2097152) :
    (wireVote (voteWithShare share)).length = share.length + 39 := by
  have hone : ∀ key, Wire.intField key 1 = [key, 1] := by
    intro key
    rw [Wire.intField, show ofInt 1 = 1 from rfl, varintField, uvarint_of_lt (by omega)]
    rfl
  have htype : varintField 8 SignedMsgType.prevote.code = [8, 1] := by
    rw [SignedMsgType.code, varintField, uvarint_of_lt (by omega)]
    rfl
  have haddress : (bytesField 50 (List.replicate 20 7)).length = 22 := by
    rw [length_bytesField (by decide), List.length_replicate, uvarint_of_lt (by omega)]
    rfl
  have hsignature : (bytesField 66 [1]).length = 3 := by
    rw [length_bytesField (by decide), List.length_singleton, uvarint_of_lt (by omega)]
    rfl
  have hshare := length_wirePartSig_one hlow (by omega)
  have hvarint := length_uvarint_eq (k := 1) (n := share.length + 6) (by omega) (by omega)
  have hempty : ∀ key, (Wire.intField key 0).length = 0 := fun key => rfl
  have hblockID : (bytesField 34 (Rotation.wireBlockID .zero)).length = 0 := rfl
  have htime : (bytesField 42 (Rotation.wireTime 0)).length = 0 := rfl
  simp only [wireVote, voteWithShare, List.length_append, htype, hone, hempty, map_some, map_none, Wire.optional, elim_some,
    elim_none, length_message, hshare, List.length_cons, List.length_nil]
  omega

lemma length_marshal_voteWithShare (share : Bytes) (hlow : 16384 ≤ share.length)
    (hhigh : share.length + 39 < 2097152) :
    (ConsensusMessage.vote (some (voteWithShare share))).marshal.length = share.length + 47 := by
  have hlen := length_wireVote_voteWithShare hlow (by omega)
  have hvarint := length_uvarint_eq (k := 1) (n := share.length + 39) (by omega) (by omega)
  rw [ConsensusMessage.marshal, List.length_append, map_some, Wire.optional,
    elim_some, length_message, hlen]
  simp only [List.length_cons, List.length_nil]
  omega

lemma receive_voteWithShare (share : Bytes) (hlow : 16384 ≤ share.length)
    (hhigh : share.length + 47 ≤ maxMsgSize) (src : Peer) :
    (ConsensusReactor.mk true false).receive voteReader .vote src
        (ConsensusMessage.vote (some (voteWithShare share))).marshal =
      some ⟨.vote (some (voteWithShare share)), src.id⟩ := by
  have hlen := length_marshal_voteWithShare share hlow (by unfold maxMsgSize at hhigh; omega)
  have hdecode : decodeMsg voteReader (ConsensusMessage.vote (some (voteWithShare share))).marshal =
      some (.vote (some (voteWithShare share))) := by
    rw [decodeMsg, if_neg (by omega), voteReader_marshal rfl]
  rw [ConsensusReactor.receive, hdecode]
  rfl

/-- A vote as long as a message may be is received, and stops the node. -/
theorem oversized_vote_not_logged :
    (ConsensusMessage.vote (some (voteWithShare (List.replicate 1048529 0)))).marshal.length =
        maxMsgSize ∧
    ∃ mi, (ConsensusReactor.mk true false).receive voteReader .vote ⟨Vector.replicate 20 7⟩
        (ConsensusMessage.vote (some (voteWithShare (List.replicate 1048529 0)))).marshal =
          some mi ∧
      ∀ checksum wal now, walWrite checksum wal now mi = none := by
  have hshare : (List.replicate 1048529 (0 : UInt8)).length = 1048529 := List.length_replicate
  have hlen := length_marshal_voteWithShare (List.replicate 1048529 0)
    (by omega) (by omega)
  have hreceive := receive_voteWithShare (List.replicate 1048529 0) (by omega)
    (by unfold maxMsgSize; omega) ⟨Vector.replicate 20 7⟩
  refine ⟨by rw [hlen, hshare]; rfl, _, hreceive, ?_⟩
  intro checksum wal now
  rw [← not_isSome_iff_eq_none, isSome_walWrite_iff checksum wal now hreceive, hlen]
  unfold maxMsgSizeBytes
  omega

end ShardingBC.Consensus
