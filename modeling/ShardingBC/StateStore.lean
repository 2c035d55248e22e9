import ShardingBC.Account
import ShardingBC.Chain
import ShardingBC.ValidatorHistory
import ShardingBC.ValidatorUpdates

/-!
# The state store

The state with its validator sets, what `updateState` makes of it, and what is saved of
it under which keys. The database is the one of the accounts.
-/
namespace ShardingBC.Rotation

open Option

open Consensus (BlockID Header Version)
open Runs

structure ConsensusParams where
  maxBytes : ℤ
  maxGas : ℤ
  timeIotaMs : ℤ
  maxAge : ℤ
  pubKeyTypes : List Bytes
deriving DecidableEq

/-- `abci.ConsensusParams`, whose parts may be nil. -/
structure ParamUpdates where
  block : Option (ℤ × ℤ)
  maxAge : Option ℤ
  pubKeyTypes : Option (List Bytes)

inductive ParamsError where
  | maxBytesNotPositive
  | maxBytesTooBig
  | maxGasTooSmall
  | timeIotaNotPositive
  | maxAgeNotPositive
  | noPubKeyTypes
  | unknownPubKeyType
deriving DecidableEq

namespace ConsensusParams

def empty : ConsensusParams := ⟨0, 0, 0, 0, []⟩

def default : ConsensusParams := ⟨1024 * 1024 * 2, -1, 1000, 100000, [lit "ed25519", lit "bls"]⟩

def maxBlockSizeBytes : ℤ := 1048576000

/-- The keys of `ABCIPubKeyTypesToAminoNames`. -/
def knownPubKeyTypes : List Bytes := [lit "ed25519", lit "secp256k1", lit "bls"]

def update (params : ConsensusParams) (updates : ParamUpdates) : ConsensusParams where
  maxBytes := updates.block.elim params.maxBytes Prod.fst
  maxGas := updates.block.elim params.maxGas Prod.snd
  timeIotaMs := params.timeIotaMs
  maxAge := updates.maxAge.getD params.maxAge
  pubKeyTypes := updates.pubKeyTypes.getD params.pubKeyTypes

def validate (params : ConsensusParams) : Option ParamsError :=
  if params.maxBytes ≤ 0 then some .maxBytesNotPositive
  else if maxBlockSizeBytes < params.maxBytes then some .maxBytesTooBig
  else if params.maxGas < -1 then some .maxGasTooSmall
  else if params.timeIotaMs ≤ 0 then some .timeIotaNotPositive
  else if params.maxAge ≤ 0 then some .maxAgeNotPositive
  else if params.pubKeyTypes.length = 0 then some .noPubKeyTypes
  else if !params.pubKeyTypes.all fun t => knownPubKeyTypes.contains t then some .unknownPubKeyType
  else none

def forget (params : ConsensusParams) : Consensus.ConsensusParams := ⟨params.maxBytes, params.maxGas⟩

end ConsensusParams

def Validator.forget (v : Validator) : Consensus.Validator :=
  ⟨v.address, v.pubKey, v.votingPower.toNat⟩

structure State where
  version : Version
  chainID : Bytes
  lastBlockHeight : ℤ
  lastBlockTotalTx : ℤ
  lastBlockID : BlockID
  lastBlockTime : ℤ
  nextValidators : ValidatorSet
  validators : ValidatorSet
  lastValidators : ValidatorSet
  lastHeightValidatorsChanged : ℤ
  consensusParams : ConsensusParams
  lastHeightConsensusParamsChanged : ℤ
  lastResultsHash : Bytes
  appHash : Bytes

structure GenesisDoc where
  genesisTime : ℤ
  chainID : Bytes
  consensusParams : ConsensusParams
  /-- Nil if the application names the validators. -/
  validators : Option (List Validator)
  appHash : Bytes

/-- The sets of the first two heights. -/
def genesisValidators : Option (List Validator) → Option (ValidatorSet × ValidatorSet)
  | none => some (.empty, .empty)
  | some validators => do
      let set ← newValidatorSet validators
      let next ← set.incrementProposerPriority 1
      some (set, next)

/-- `MakeGenesisState` of a valid document. -/
def makeGenesisState (doc : GenesisDoc) : Option State :=
  (genesisValidators doc.validators).map fun sets =>
    { version := ⟨10, 0⟩
      chainID := doc.chainID
      lastBlockHeight := 0
      lastBlockTotalTx := 0
      lastBlockID := .zero
      lastBlockTime := doc.genesisTime
      nextValidators := sets.2
      validators := sets.1
      lastValidators := .empty
      lastHeightValidatorsChanged := 1
      consensusParams := doc.consensusParams
      lastHeightConsensusParamsChanged := 1
      lastResultsHash := []
      appHash := doc.appHash }

/-- What `updateState` takes from the responses of the application. -/
structure Responses where
  validatorUpdates : List Validator
  consensusParamUpdates : Option ParamUpdates
  resultsHash : Bytes

inductive UpdateError where
  | changingValidatorSet (err : ChangeError)
  | updatingParams (err : ParamsError)
  /-- No error is returned. -/
  | panics
deriving DecidableEq

/-- The validators change by the updates and take turns at even heights. -/
def nextValidatorSet (vals : ValidatorSet) (updates : List Validator) (height : ℤ) :
    Except UpdateError ValidatorSet :=
  match if updates ≠ [] then vals.updateWithChangeSet updates else .ok vals with
  | .error err => .error (.changingValidatorSet err)
  | .ok changed =>
    if height.tmod 2 = 0 then
      (changed.incrementProposerPriority 1).elim (.error .panics) .ok
    else .ok changed

def nextConsensusParams (params : ConsensusParams) (updates : Option ParamUpdates) :
    Except UpdateError ConsensusParams :=
  match updates with
  | none => .ok params
  | some updates =>
    match (params.update updates).validate with
    | some err => .error (.updatingParams err)
    | none => .ok (params.update updates)

/-- The state after a block, with the next validators and parameters. -/
def State.after (s : State) (blockID : BlockID) (header : Header) (res : Responses)
    (nValSet : ValidatorSet) (nextParams : ConsensusParams) : State where
  version := s.version
  chainID := s.chainID
  lastBlockHeight := header.height
  lastBlockTotalTx := s.lastBlockTotalTx + header.numTxs
  lastBlockID := blockID
  lastBlockTime := header.time
  nextValidators := nValSet
  validators := s.nextValidators
  lastValidators := s.validators
  lastHeightValidatorsChanged :=
    if res.validatorUpdates ≠ [] then header.height + 1 + 1 else s.lastHeightValidatorsChanged
  consensusParams := nextParams
  lastHeightConsensusParamsChanged :=
    if res.consensusParamUpdates.isSome then header.height + 1
    else s.lastHeightConsensusParamsChanged
  lastResultsHash := res.resultsHash
  appHash := []

/-- `updateState`; the height is the one of the header. -/
def updateState (s : State) (blockID : BlockID) (header : Header) (res : Responses) :
    Except UpdateError State := do
  let nValSet ← nextValidatorSet s.nextValidators res.validatorUpdates header.height
  let nextParams ← nextConsensusParams s.consensusParams res.consensusParamUpdates
  .ok (s.after blockID header res nValSet nextParams)

/-- The state as the model of the chain has it, without priorities. -/
def State.forget (s : State) : Consensus.State where
  version := s.version
  chainID := s.chainID
  lastBlockHeight := s.lastBlockHeight
  lastBlockTotalTx := s.lastBlockTotalTx
  lastBlockID := s.lastBlockID
  lastBlockTime := s.lastBlockTime
  nextValidators := s.nextValidators.validators.map Validator.forget
  validators := s.validators.validators.map Validator.forget
  lastValidators := s.lastValidators.validators.map Validator.forget
  consensusParams := s.consensusParams.forget
  lastResultsHash := s.lastResultsHash
  appHash := s.appHash

/-- `%v` of an integer. -/
def sprintInt (n : ℤ) : Bytes := if n < 0 then 45 :: formatNat n.natAbs else formatNat n.natAbs

def stateKey : Bytes := lit "stateKey"

def validatorsKey (height : ℤ) : Bytes := lit "validatorsKey:" ++ sprintInt height

def consensusParamsKey (height : ℤ) : Bytes := lit "consensusParamsKey:" ++ sprintInt height

def abciResponsesKey (height : ℤ) : Bytes := lit "abciResponsesKey:" ++ sprintInt height

structure ValidatorsInfo where
  validatorSet : Option ValidatorSet
  lastHeightChanged : ℤ
deriving DecidableEq

structure ConsensusParamsInfo where
  consensusParams : ConsensusParams
  lastHeightChanged : ℤ
deriving DecidableEq

/-- Amino with the types of the store. What is written is read, and only a default may have an
empty encoding. -/
structure StoreCodec where
  state : State → Bytes
  validatorsInfo : ValidatorsInfo → Bytes
  readValidatorsInfo : Bytes → Option ValidatorsInfo
  paramsInfo : ConsensusParamsInfo → Bytes
  readParamsInfo : Bytes → Option ConsensusParamsInfo
  read_validatorsInfo : ∀ info, readValidatorsInfo (validatorsInfo info) = some info
  validatorsInfo_ne_nil : ∀ info, info.lastHeightChanged ≠ 0 → validatorsInfo info ≠ []
  read_paramsInfo : ∀ info, readParamsInfo (paramsInfo info) = some info
  paramsInfo_ne_nil : ∀ info, info.lastHeightChanged ≠ 0 → paramsInfo info ≠ []

variable (c : StoreCodec)

/-- What is saved about the validators of a height. -/
def ValidatorsInfo.of (height lastHeightChanged : ℤ) (valSet : ValidatorSet) : ValidatorsInfo where
  validatorSet :=
    if height = lastHeightChanged ∨ height.tmod checkpointInterval = 0 then some valSet else none
  lastHeightChanged := lastHeightChanged

/-- `saveValidatorsInfo`; `none` is a panic. -/
def saveValidatorsInfo (db : DB) (height lastHeightChanged : ℤ) (valSet : ValidatorSet) :
    Option DB :=
  if height < lastHeightChanged then none
  else some (db.set (validatorsKey height)
    (c.validatorsInfo (.of height lastHeightChanged valSet)))

def saveConsensusParamsInfo (db : DB) (nextHeight changeHeight : ℤ) (params : ConsensusParams) :
    DB :=
  db.set (consensusParamsKey nextHeight) (c.paramsInfo
    ⟨if changeHeight = nextHeight then params else .empty, changeHeight⟩)

/-- The validators of block 1 are saved with the first state. -/
def saveFirstValidators (db : DB) (s : State) : Option DB :=
  if s.lastBlockHeight + 1 = 1 then
    saveValidatorsInfo c db (s.lastBlockHeight + 1) 1 s.validators
  else some db

def saveState (db : DB) (s : State) : Option DB := do
  let db ← saveFirstValidators c db s
  let db ← saveValidatorsInfo c db (s.lastBlockHeight + 1 + 1) s.lastHeightValidatorsChanged
    s.nextValidators
  some ((saveConsensusParamsInfo c db (s.lastBlockHeight + 1) s.lastHeightConsensusParamsChanged
    s.consensusParams).set stateKey (c.state s))

/-- The bytes of a key, which are nil if there are none. -/
def load {α : Type} (read : Bytes → Option α) (db : DB) (key : Bytes) : Option (Option α) :=
  if (db key).getD [] = [] then some none else (read ((db key).getD [])).map some

/-- `loadValidatorsInfo`; the outer `none` is an exit. -/
def loadValidatorsInfo (db : DB) (height : ℤ) : Option (Option ValidatorsInfo) :=
  load c.readValidatorsInfo db (validatorsKey height)

def lastStoredHeightFor (height lastHeightChanged : ℤ) : ℤ :=
  max (height - height.tmod checkpointInterval) lastHeightChanged

/-- The set that is stored at a height, if there is one. -/
def loadStoredSet (db : DB) (height : ℤ) : Option (Option ValidatorSet) :=
  (loadValidatorsInfo c db height).map fun info => info.bind ValidatorsInfo.validatorSet

/-- `LoadValidators`; the outer `none` is an exit or a panic, the inner one
`ErrNoValSetForHeight`. -/
def loadValidators (db : DB) (height : ℤ) : Option (Option ValidatorSet) := do
  match ← loadValidatorsInfo c db height with
  | none => some none
  | some ⟨some set, _⟩ => some (some set)
  | some ⟨none, changed⟩ =>
    match ← loadStoredSet c db (lastStoredHeightFor height changed) with
    | some set =>
      (set.incrementProposerPriority (height - lastStoredHeightFor height changed)).map some
    | none =>
      match ← loadStoredSet c db changed with
      | some set => (set.incrementProposerPriority (height - changed)).map some
      | none => none

/-- A block with its ID and what the application answered. -/
structure Applied where
  blockID : BlockID
  header : Header
  responses : Responses
  appHash : Bytes

/-- The state after a block, with the `AppHash` that `ApplyBlock` adds; `none` if it cannot be
applied. -/
def applyBlock (s : State) (e : Applied) : Option State :=
  match updateState s e.blockID e.header e.responses with
  | .error _ => none
  | .ok s' => some { s' with appHash := e.appHash }

/-- The next block is applied and the state saved. -/
def advance (n : State × DB) (e : Applied) : Option (State × DB) :=
  if e.header.height = n.1.lastBlockHeight + 1 then do
    let s ← applyBlock n.1 e
    let db ← saveState c n.2 s
    some (s, db)
  else none

variable {c}

lemma updateState_eq_ok {s s' : State} {blockID : BlockID} {header : Header} {res : Responses}
    (h : updateState s blockID header res = .ok s') :
    ∃ nValSet nextParams,
      nextValidatorSet s.nextValidators res.validatorUpdates header.height = .ok nValSet ∧
      nextConsensusParams s.consensusParams res.consensusParamUpdates = .ok nextParams ∧
      s' = s.after blockID header res nValSet nextParams := by
  unfold updateState at h
  cases hvals : nextValidatorSet s.nextValidators res.validatorUpdates header.height with
  | error err =>
    rw [hvals] at h
    cases h
  | ok nValSet =>
    cases hparams : nextConsensusParams s.consensusParams res.consensusParamUpdates with
    | error err =>
      rw [hvals, hparams] at h
      cases h
    | ok nextParams =>
      rw [hvals, hparams] at h
      exact ⟨nValSet, nextParams, rfl, rfl, (Except.ok.inj h).symm⟩

lemma nextValidatorSet_eq_ok {vals next : ValidatorSet} {updates : List Validator} {height : ℤ}
    (h : nextValidatorSet vals updates height = .ok next) :
    ∃ changed, (if updates ≠ [] then vals.updateWithChangeSet updates = .ok changed
        else changed = vals) ∧
      if height.tmod 2 = 0 then changed.incrementProposerPriority 1 = some next
      else next = changed := by
  unfold nextValidatorSet at h
  split at h
  · cases h
  · rename_i changed hchanged
    refine ⟨changed, ?_, ?_⟩
    · split_ifs at hchanged ⊢
      · exact hchanged
      · exact (Except.ok.inj hchanged).symm
    · split_ifs at h ⊢
      · cases hinc : changed.incrementProposerPriority 1 with
        | none =>
          rw [hinc] at h
          cases h
        | some vs =>
          rw [hinc] at h
          exact congrArg some (Except.ok.inj h)
      · exact (Except.ok.inj h).symm

/-- The next set is sound if the set is, or if it is changed. -/
lemma sound_of_nextValidatorSet {vals next : ValidatorSet} {updates : List Validator} {height : ℤ}
    (hproper : Proper vals.validators) (hsound : updates = [] → Sound vals.validators)
    (h : nextValidatorSet vals updates height = .ok next) : Sound next.validators := by
  obtain ⟨changed, hchanged, hnext⟩ := nextValidatorSet_eq_ok h
  have hs : Sound changed.validators := by
    split_ifs at hchanged with hne
    · exact sound_of_updateWithChanges hproper hne hchanged
    · rw [hchanged]
      exact hsound (not_not.mp hne)
  split_ifs at hnext
  · exact hs.incrementProposerPriority hnext
  · rw [hnext]
    exact hs

lemma applyBlock_eq_some {s s' : State} {e : Applied} (h : applyBlock s e = some s') :
    ∃ nValSet nextParams,
      nextValidatorSet s.nextValidators e.responses.validatorUpdates e.header.height =
        .ok nValSet ∧
      nextConsensusParams s.consensusParams e.responses.consensusParamUpdates = .ok nextParams ∧
      s' = { s.after e.blockID e.header e.responses nValSet nextParams with
        appHash := e.appHash } := by
  unfold applyBlock at h
  split at h
  · cases h
  · rename_i t ht
    obtain ⟨nValSet, nextParams, hvals, hparams, rfl⟩ := updateState_eq_ok ht
    exact ⟨nValSet, nextParams, hvals, hparams, (some.inj h).symm⟩

lemma advance_eq_some {n n' : State × DB} {e : Applied} (h : advance c n e = some n') :
    e.header.height = n.1.lastBlockHeight + 1 ∧
      ∃ nValSet nextParams,
        nextValidatorSet n.1.nextValidators e.responses.validatorUpdates e.header.height =
          .ok nValSet ∧
        nextConsensusParams n.1.consensusParams e.responses.consensusParamUpdates =
          .ok nextParams ∧
        n'.1 = { n.1.after e.blockID e.header e.responses nValSet nextParams with
          appHash := e.appHash } ∧
        saveState c n.2 n'.1 = some n'.2 := by
  unfold advance at h
  split_ifs at h with hheight
  obtain ⟨s, happly, h⟩ := bind_eq_some_iff.mp h
  obtain ⟨db, hsave, h⟩ := bind_eq_some_iff.mp h
  cases h
  obtain ⟨nValSet, nextParams, hvals, hparams, rfl⟩ := applyBlock_eq_some happly
  exact ⟨hheight, nValSet, nextParams, hvals, hparams, rfl, hsave⟩

lemma validatorsKey_inj {h h' : ℕ} (hkey : validatorsKey h = validatorsKey h') : h = h' := by
  have := List.append_cancel_left hkey
  exact formatNat_injective this

@[simp] lemma head?_validatorsKey (h : ℤ) : (validatorsKey h).head? = some 118 := rfl

@[simp] lemma head?_consensusParamsKey (h : ℤ) : (consensusParamsKey h).head? = some 99 := rfl

lemma validatorsKey_ne_consensusParamsKey (h h' : ℤ) :
    validatorsKey h ≠ consensusParamsKey h' := by
  intro hkey
  have := congrArg List.head? hkey
  rw [head?_validatorsKey, head?_consensusParamsKey] at this
  exact absurd this (by decide)

lemma validatorsKey_ne_stateKey (h : ℤ) : validatorsKey h ≠ stateKey := by
  intro hkey
  have := congrArg List.head? hkey
  rw [head?_validatorsKey] at this
  exact absurd this (by decide)

lemma saveValidatorsInfo_spec {db db' : DB} {height changed : ℤ} {set : ValidatorSet}
    (h : saveValidatorsInfo c db height changed set = some db') :
    changed ≤ height ∧
      db' = db.set (validatorsKey height) (c.validatorsInfo (.of height changed set)) := by
  unfold saveValidatorsInfo at h
  split_ifs at h
  exact ⟨by omega, (some.inj h).symm⟩

lemma saveFirstValidators_spec {db db' : DB} {s : State} {n : ℕ} (hn : s.lastBlockHeight = n)
    (h : saveFirstValidators c db s = some db') :
    db' = if n = 0 then
        db.set (validatorsKey (1 : ℕ)) (c.validatorsInfo (.of (1 : ℕ) 1 s.validators))
      else db := by
  unfold saveFirstValidators at h
  rw [hn] at h
  by_cases h0 : n = 0
  · rw [if_pos (by omega), show (n : ℤ) + 1 = (1 : ℕ) by omega] at h
    rw [if_pos h0]
    exact (saveValidatorsInfo_spec h).2
  · rw [if_neg (by omega)] at h
    rw [if_neg h0]
    exact (some.inj h).symm

lemma saveState_spec {db db' : DB} {s : State} {n : ℕ} (hn : s.lastBlockHeight = n)
    (h : saveState c db s = some db') :
    s.lastHeightValidatorsChanged ≤ (n + 2 : ℕ) ∧
      db' (validatorsKey (n + 2 : ℕ)) = some (c.validatorsInfo
        (.of (n + 2 : ℕ) s.lastHeightValidatorsChanged s.nextValidators)) ∧
      (n = 0 → db' (validatorsKey (1 : ℕ)) =
        some (c.validatorsInfo (.of (1 : ℕ) 1 s.validators))) ∧
      ∀ k : ℕ, k ≠ n + 2 → (n = 0 → k ≠ 1) →
        db' (validatorsKey k) = db (validatorsKey k) := by
  obtain ⟨db₁, hfirst, h⟩ := bind_eq_some_iff.mp h
  obtain ⟨db₂, hnext, h⟩ := bind_eq_some_iff.mp h
  cases h
  rw [show s.lastBlockHeight + 1 + 1 = (n + 2 : ℕ) by omega] at hnext
  obtain ⟨hle, rfl⟩ := saveValidatorsInfo_spec hnext
  have hread : ∀ k : ℕ, ((saveConsensusParamsInfo c (db₁.set (validatorsKey (n + 2 : ℕ))
      (c.validatorsInfo (.of (n + 2 : ℕ) s.lastHeightValidatorsChanged s.nextValidators)))
      (s.lastBlockHeight + 1) s.lastHeightConsensusParamsChanged s.consensusParams).set stateKey
      (c.state s)) (validatorsKey k) =
      if k = n + 2 then some (c.validatorsInfo
        (.of (n + 2 : ℕ) s.lastHeightValidatorsChanged s.nextValidators))
      else db₁ (validatorsKey k) := by
    intro k
    rw [DB.set_other _ _ (validatorsKey_ne_stateKey k), saveConsensusParamsInfo,
      DB.set_other _ _ (validatorsKey_ne_consensusParamsKey k _)]
    by_cases hk : k = n + 2
    · rw [hk, if_pos rfl, DB.set, if_pos rfl]
    · rw [DB.set_other _ _ fun hkey => hk (validatorsKey_inj hkey), if_neg hk]
  refine ⟨hle, by rw [hread, if_pos rfl], ?_, ?_⟩
  · intro h0
    rw [hread, if_neg (by omega), saveFirstValidators_spec hn hfirst, if_pos h0, DB.set, if_pos rfl]
  · intro k hk hk1
    rw [hread, if_neg hk, saveFirstValidators_spec hn hfirst]
    split_ifs with h0
    · rw [DB.set_other _ _ fun hkey => hk1 h0 (validatorsKey_inj hkey)]
    · rfl

/-- What is saved about an entry. -/
def Entry.info (e : Entry) (height : ℕ) : ValidatorsInfo := .of height e.changed e.set

lemma Entry.info_eq (e : Entry) (height : ℕ) :
    e.info height = ⟨if e.StoredAt height then some e.set else none, e.changed⟩ := by
  have hstored : ((height : ℤ) = e.changed ∨ (height : ℤ).tmod checkpointInterval = 0) ↔
      e.StoredAt height := by
    unfold StoredAt
    rw [Int.tmod_eq_emod_of_nonneg (by omega)]
    omega
  unfold info ValidatorsInfo.of
  simp only [hstored]

/-- The database has the entries of a history. -/
def Saved (c : StoreCodec) (db : DB) (hist : List Entry) : Prop :=
  ∀ (i : ℕ) (e : Entry), hist[i]? = some e →
    db (validatorsKey (i + 1 : ℕ)) = some (c.validatorsInfo (e.info (i + 1)))

section Load

variable {hist : List Entry} {db : DB} {i : ℕ} {e : Entry}

lemma Saved.loadValidatorsInfo (hs : Saved c db hist) (hk : Kept hist) (he : hist[i]? = some e) :
    loadValidatorsInfo c db (i + 1 : ℕ) = some (some (e.info (i + 1))) := by
  have hpos := (hk.changed i e he).1
  have hne : c.validatorsInfo (e.info (i + 1)) ≠ [] := by
    apply c.validatorsInfo_ne_nil
    rw [e.info_eq]
    simp only
    omega
  unfold Rotation.loadValidatorsInfo load
  rw [hs i e he, getD_some, if_neg hne, c.read_validatorsInfo, map_some]

lemma lastStoredHeightFor_eq (height changed : ℕ) :
    lastStoredHeightFor height changed = lastStored height changed := by
  unfold lastStoredHeightFor lastStored
  rw [Int.tmod_eq_emod_of_nonneg (by omega)]
  omega

lemma Saved.loadStoredSet (hs : Saved c db hist) (hk : Kept hist) {height : ℕ}
    (hpos : 1 ≤ height) (he : hist[height - 1]? = some e) (hstored : e.StoredAt height) :
    loadStoredSet c db height = some (some e.set) := by
  have hinfo := hs.loadValidatorsInfo hk he
  rw [Nat.sub_add_cancel hpos] at hinfo
  rw [Rotation.loadStoredSet, hinfo, e.info_eq, if_pos hstored]
  rfl

lemma Saved.loadValidators (hs : Saved c db hist) (hk : Kept hist) (he : hist[i]? = some e) :
    loadValidators c db (i + 1 : ℕ) = (recalled hist (i + 1)).map some := by
  unfold Rotation.loadValidators recalled
  rw [hs.loadValidatorsInfo hk he, e.info_eq, Nat.add_sub_cancel, he]
  obtain ⟨hchanged, hle⟩ := hk.changed i e he
  by_cases hstored : e.StoredAt (i + 1)
  · simp [if_pos hstored]
  · obtain ⟨b, hb, hbs⟩ := hk.lastStored_stored he
    have hlast := lastStored_le hle
    have hset := hs.loadStoredSet hk (by unfold lastStored; omega) hb hbs
    have hcast : ((i + 1 : ℕ) : ℤ) - (lastStored (i + 1) e.changed : ℕ) =
        (i + 1 - lastStored (i + 1) e.changed : ℕ) := by
      omega
    simp only [if_neg hstored, lastStoredHeightFor_eq, hset, hb, hcast, bind_eq_bind,
      bind_some]

end Load

end ShardingBC.Rotation
