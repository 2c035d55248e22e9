import ShardingBC.StateStore
import ShardingBC.Wire

/-!
# The encoding of the state store

The fields of the stored types with the keys that amino gives them, in their order.
-/
namespace ShardingBC.Rotation

open List Wire

/-- The public key is given by its own encoding. -/
def wireValidator (v : Validator) : Bytes :=
  bytesField 10 v.address ++ (bytesField 18 v.pubKey ++
    (intField 24 v.votingPower ++ (intField 32 v.proposerPriority ++ [])))

def readValidator (bz : Bytes) : Validator :=
  let address := readBytesField 10 bz
  let pubKey := readBytesField 18 address.2
  let votingPower := readIntField 24 pubKey.2
  let proposerPriority := readIntField 32 votingPower.2
  ⟨address.1, pubKey.1, votingPower.1, proposerPriority.1⟩

@[simp] lemma readValidator_wire (v : Validator) : readValidator (wireValidator v) = v := by
  have h24 : Above 24 (intField 32 v.proposerPriority ++ []) := .intField _ (by decide) _ .nil
  have h18 := Above.intField 18 (by decide) v.votingPower h24
  have h10 := Above.bytesField 10 (by decide) v.pubKey h18
  simp only [readValidator, wireValidator]
  rw [readBytesField_append _ h10.head?_ne, readBytesField_append _ h18.head?_ne,
    readIntField_append _ h24.head?_ne, readIntField_append _ (by simp)]

def wireSet (vs : ValidatorSet) : Bytes :=
  repeated 10 (vs.validators.map wireValidator) ++
    (optional 18 (vs.proposer.map wireValidator) ++ [])

def readSet (bz : Bytes) : ValidatorSet :=
  let validators := readRepeated 10 bz.length bz
  let proposer := readOptional 18 validators.2
  ⟨validators.1.map readValidator, proposer.1.map readValidator⟩

@[simp] lemma readSet_wire (vs : ValidatorSet) : readSet (wireSet vs) = vs := by
  have hproposer : (optional 18 (vs.proposer.map wireValidator) ++ []).head? ≠ some 10 :=
    append_head?_ne (optional_head?_ne (by decide) _) (by simp)
  have hlen : (vs.validators.map wireValidator).length ≤ (wireSet vs).length := by
    rw [wireSet, length_append]
    exact (length_le_repeated _).trans (Nat.le_add_right _ _)
  simp only [readSet]
  rw [show readRepeated 10 (wireSet vs).length (wireSet vs) = _ from
    readRepeated_append _ hproposer hlen]
  rw [readOptional_append _ (by simp)]
  simp [Function.comp_def]

def wireValidatorsInfo (info : ValidatorsInfo) : Bytes :=
  optional 10 (info.validatorSet.map wireSet) ++ (intField 16 info.lastHeightChanged ++ [])

def readValidatorsInfo (bz : Bytes) : ValidatorsInfo :=
  let set := readOptional 10 bz
  let changed := readIntField 16 set.2
  ⟨set.1.map readSet, changed.1⟩

@[simp] lemma readValidatorsInfo_wire (info : ValidatorsInfo) :
    readValidatorsInfo (wireValidatorsInfo info) = info := by
  have hchanged : (intField 16 info.lastHeightChanged ++ []).head? ≠ some 10 :=
    append_head?_ne (intField_head?_ne (by decide) _) (by simp)
  simp only [readValidatorsInfo, wireValidatorsInfo]
  rw [readOptional_append _ hchanged]
  simp [Function.comp_def]

/-- The parameters of blocks, evidence and validators are messages of their own. -/
def wireParams (params : ConsensusParams) : Bytes :=
  bytesField 10 (intField 8 params.maxBytes ++ (intField 16 params.maxGas ++
    (intField 24 params.timeIotaMs ++ []))) ++
    (bytesField 18 (intField 8 params.maxAge ++ []) ++
      (bytesField 26 (repeated 10 params.pubKeyTypes ++ []) ++ []))

def readParams (bz : Bytes) : ConsensusParams :=
  let block := readBytesField 10 bz
  let evidence := readBytesField 18 block.2
  let validator := readBytesField 26 evidence.2
  let maxBytes := readIntField 8 block.1
  let maxGas := readIntField 16 maxBytes.2
  ⟨maxBytes.1, maxGas.1, (readIntField 24 maxGas.2).1, (readIntField 8 evidence.1).1,
    (readRepeated 10 validator.1.length validator.1).1⟩

@[simp]
lemma readParams_wire (params : ConsensusParams) : readParams (wireParams params) = params := by
  have h16 : Above 16 (intField 24 params.timeIotaMs ++ []) := .intField _ (by decide) _ .nil
  have h8 := Above.intField 8 (by decide) params.maxGas h16
  have h18 : Above 18 (bytesField 26 (repeated 10 params.pubKeyTypes ++ []) ++ []) :=
    .bytesField _ (by decide) _ .nil
  have h10 := Above.bytesField 10 (by decide) (intField 8 params.maxAge ++ []) h18
  have hlen : params.pubKeyTypes.length ≤ (repeated 10 params.pubKeyTypes ++ []).length := by
    rw [append_nil]
    exact length_le_repeated _
  simp only [readParams, wireParams]
  rw [readBytesField_append _ h10.head?_ne, readBytesField_append _ h18.head?_ne,
    readBytesField_append _ (by simp), readIntField_append _ h8.head?_ne,
    readIntField_append _ h16.head?_ne, readIntField_append _ (by simp),
    readIntField_append _ (by simp), readRepeated_append _ (by simp) hlen]

def wireParamsInfo (info : ConsensusParamsInfo) : Bytes :=
  bytesField 10 (wireParams info.consensusParams) ++ (intField 16 info.lastHeightChanged ++ [])

def readParamsInfo (bz : Bytes) : ConsensusParamsInfo :=
  let params := readBytesField 10 bz
  ⟨readParams params.1, (readIntField 16 params.2).1⟩

@[simp] lemma readParamsInfo_wire (info : ConsensusParamsInfo) :
    readParamsInfo (wireParamsInfo info) = info := by
  have hchanged : (intField 16 info.lastHeightChanged ++ []).head? ≠ some 10 :=
    append_head?_ne (intField_head?_ne (by decide) _) (by simp)
  simp only [readParamsInfo, wireParamsInfo]
  rw [readBytesField_append _ hchanged, readIntField_append _ (by simp), readParams_wire]

/-- Seconds and nanoseconds. -/
def wireTime (t : ℤ) : Bytes := intField 8 (t / 10 ^ 9) ++ intField 16 (t % 10 ^ 9)

def wireBlockID (x : Consensus.BlockID) : Bytes :=
  bytesField 10 x.hash ++
    bytesField 18 (intField 8 x.partsHeader.total.toInt ++ bytesField 18 x.partsHeader.hash)

def wireState (s : State) : Bytes :=
  bytesField 10 (bytesField 10 (varintField 8 s.version.block ++ varintField 16 s.version.app) ++
      bytesField 18 (lit "0.31.5")) ++
    bytesField 18 s.chainID ++ intField 24 s.lastBlockHeight ++ intField 32 s.lastBlockTotalTx ++
    bytesField 42 (wireBlockID s.lastBlockID) ++ bytesField 50 (wireTime s.lastBlockTime) ++
    message 58 (wireSet s.nextValidators) ++ message 66 (wireSet s.validators) ++
    message 74 (wireSet s.lastValidators) ++ intField 80 s.lastHeightValidatorsChanged ++
    bytesField 90 (wireParams s.consensusParams) ++
    intField 96 s.lastHeightConsensusParamsChanged ++ bytesField 106 s.lastResultsHash ++
    bytesField 114 s.appHash

def readTime (bz : Bytes) : ℤ :=
  let seconds := readIntField 8 bz
  seconds.1 * 10 ^ 9 + (readIntField 16 seconds.2).1

@[simp] lemma readTime_wire (t : ℤ) : readTime (wireTime t) = t := by
  simp only [readTime, wireTime]
  rw [readIntField_append _ (intField_head?_ne (by decide) _), readIntField_self]
  omega

def readBlockID (bz : Bytes) : Consensus.BlockID :=
  let hash := readBytesField 10 bz
  let header := readBytesField 18 hash.2
  let total := readIntField 8 header.1
  ⟨hash.1, Int64.ofInt total.1, (readBytesField 18 total.2).1⟩

@[simp] lemma readBlockID_wire (x : Consensus.BlockID) : readBlockID (wireBlockID x) = x := by
  simp only [readBlockID, wireBlockID]
  rw [readBytesField_append _ (bytesField_head?_ne (by decide) _), readBytesField_self,
    readIntField_append _ (bytesField_head?_ne (by decide) _)]
  simp

def readVersion (bz : Bytes) : Consensus.Version :=
  let consensus := readBytesField 10 bz
  let block := readVarintField 8 consensus.1
  ⟨block.1, (readVarintField 16 block.2).1⟩

def readState (bz : Bytes) : State :=
  let version := readBytesField 10 bz
  let chainID := readBytesField 18 version.2
  let height := readIntField 24 chainID.2
  let totalTx := readIntField 32 height.2
  let blockID := readBytesField 42 totalTx.2
  let time := readBytesField 50 blockID.2
  let nextValidators := readMessage time.2
  let validators := readMessage nextValidators.2
  let lastValidators := readMessage validators.2
  let validatorsChanged := readIntField 80 lastValidators.2
  let params := readBytesField 90 validatorsChanged.2
  let paramsChanged := readIntField 96 params.2
  let resultsHash := readBytesField 106 paramsChanged.2
  let appHash := readBytesField 114 resultsHash.2
  ⟨readVersion version.1, chainID.1, height.1, totalTx.1, readBlockID blockID.1, readTime time.1,
    readSet nextValidators.1, readSet validators.1, readSet lastValidators.1, validatorsChanged.1,
    readParams params.1, paramsChanged.1, resultsHash.1, appHash.1⟩

@[simp] lemma readState_wire (s : State) : readState (wireState s) = s := by
  have hversion : readVersion (bytesField 10 (varintField 8 s.version.block ++
      varintField 16 s.version.app) ++ bytesField 18 (lit "0.31.5")) = s.version := by
    simp only [readVersion]
    rw [readBytesField_append _ (bytesField_head?_ne (by decide) _),
      readVarintField_append _ (varintField_head?_ne (by decide) _), readVarintField_self]
  have h106 : Above 106 (bytesField 114 s.appHash ++ []) := .bytesField _ (by decide) _ .nil
  have h96 := Above.bytesField 96 (by decide) s.lastResultsHash h106
  have h90 := Above.intField 90 (by decide) s.lastHeightConsensusParamsChanged h96
  have h80 := Above.bytesField 80 (by decide) (wireParams s.consensusParams) h90
  have h74 := Above.intField 74 (by decide) s.lastHeightValidatorsChanged h80
  have h66 := Above.message 66 (by decide) (wireSet s.lastValidators) h74
  have h58 := Above.message 58 (by decide) (wireSet s.validators) h66
  have h50 := Above.message 50 (by decide) (wireSet s.nextValidators) h58
  have h42 := Above.bytesField 42 (by decide) (wireTime s.lastBlockTime) h50
  have h32 := Above.bytesField 32 (by decide) (wireBlockID s.lastBlockID) h42
  have h24 := Above.intField 24 (by decide) s.lastBlockTotalTx h32
  have h18 := Above.intField 18 (by decide) s.lastBlockHeight h24
  have h10 := Above.bytesField 10 (by decide) s.chainID h18
  rw [append_nil] at h106 h96 h90 h80 h74 h66 h58 h50 h42 h32 h24 h18 h10
  simp only [readState, wireState, append_assoc]
  rw [readBytesField_append _ h10.head?_ne, readBytesField_append _ h18.head?_ne,
    readIntField_append _ h24.head?_ne, readIntField_append _ h32.head?_ne,
    readBytesField_append _ h42.head?_ne, readBytesField_append _ h50.head?_ne,
    readMessage_append, readMessage_append, readMessage_append, readIntField_append _ h80.head?_ne,
    readBytesField_append _ h90.head?_ne, readIntField_append _ h96.head?_ne,
    readBytesField_append _ h106.head?_ne, readBytesField_self, readBlockID_wire, readTime_wire,
    readSet_wire, readSet_wire, readSet_wire, readParams_wire]
  rw [hversion]

lemma append_intField_ne_nil {bz : Bytes} {n : ℤ} (h : n ≠ 0) :
    bz ++ (intField 16 n ++ []) ≠ [] := by
  rw [append_nil]
  exact append_ne_nil_of_right_ne_nil _ (intField_ne_nil h)

def wireCodec : StoreCodec where
  state := wireState
  validatorsInfo := wireValidatorsInfo
  readValidatorsInfo := fun bz => some (readValidatorsInfo bz)
  paramsInfo := wireParamsInfo
  readParamsInfo := fun bz => some (readParamsInfo bz)
  read_validatorsInfo := fun info => congrArg some (readValidatorsInfo_wire info)
  validatorsInfo_ne_nil := fun _ h => append_intField_ne_nil h
  read_paramsInfo := fun info => congrArg some (readParamsInfo_wire info)
  paramsInfo_ne_nil := fun _ h => append_intField_ne_nil h

end ShardingBC.Rotation
