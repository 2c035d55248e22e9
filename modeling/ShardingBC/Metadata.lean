import ShardingBC.CheckDB
import ShardingBC.Signers
import ShardingBC.ValidatorRecall

/-!
# Accounts and the metadata of the node

The balances are in the database of the consensus state and of the processed messages, under the
names that transactions give. What is loaded stays the same under the execution of a block exactly
if the block names none of the keys used there.
-/
namespace ShardingBC

open List Option

section Written

variable {db : DB} {ops : List (Ledger.Op Bytes Int64)} {k : Bytes}

lemma applyOp_other (o : Ledger.Op Bytes Int64) (h : k ≠ o.key) : applyOp db o k = db k := by
  cases o with
  | add account v => exact DB.set_other db _ h
  | put account v => exact DB.set_other db _ h

lemma applyOps_of_notMem (h : k ∉ ops.map Ledger.Op.key) (db : DB) :
    applyOps db ops k = db k := by
  induction ops generalizing db with
  | nil => rfl
  | cons o ops ih =>
    rw [map_cons, mem_cons, not_or] at h
    exact (ih h.2 _).trans (applyOp_other o h.1)

lemma applyOps_of_mem (h : k ∈ ops.map Ledger.Op.key) (db : DB) :
    applyOps db ops k = some (digit2byte (Ledger.run (balance db) ops k)) := by
  rw [← balance_applyOps]
  induction ops generalizing db with
  | nil => cases h
  | cons o ops ih =>
    by_cases hk : k ∈ ops.map Ledger.Op.key
    · exact ih hk _
    · have hkey : k = o.key := by
        rw [map_cons, mem_cons] at h
        exact h.resolve_right hk
      have hrest : applyOps db (o :: ops) k = applyOp db o k := applyOps_of_notMem hk _
      rw [balance, hrest, hkey]
      cases o with
      | add account v => simp [applyOp, Ledger.Op.key, byte2digit, digit2byte]
      | put account v => simp [applyOp, Ledger.Op.key, byte2digit, digit2byte]

end Written

/-- The keys that the accounts of a block are written under. -/
def writtenKeys (txs : List Bytes) : List Bytes := (blockOps txs).map Ledger.Op.key

/-- The accounts of a transfer; an empty spender is none. -/
def AccountLog.accounts (a : AccountLog) : List Bytes :=
  if a.fromAccount ≠ [] then [a.fromAccount, a.toAccount] else [a.toAccount]

/-- The accounts that the transfers of a block name. -/
def namedAccounts (txs : List Bytes) : List Bytes :=
  txs.flatMap fun tx => (parseTx tx).elim [] fun a =>
    if a.txType = lit "tx" then a.accounts else []

variable {txs : List Bytes} {k : Bytes}

@[simp] lemma mem_namedAccounts :
    k ∈ namedAccounts txs ↔
      ∃ tx ∈ txs, ∃ a, parseTx tx = some a ∧ a.txType = lit "tx" ∧ k ∈ a.accounts := by
  simp only [namedAccounts, mem_flatMap]
  refine exists_congr fun tx => and_congr_right fun _ => ?_
  cases parseTx tx with
  | none => simp
  | some a => by_cases h : a.txType = lit "tx" <;> simp [h]

@[simp] lemma mem_txOps_keys {tx k : Bytes} :
    k ∈ (txOps tx).map Ledger.Op.key ↔
      (∃ a, parseTx tx = some a ∧ a.txType = lit "tx" ∧ k ∈ a.accounts) ∨
        k = [] ∧ resets tx = true := by
  unfold txOps resets
  cases ha : parseTx tx with
  | none => simp
  | some a =>
    rcases parseTx_cases ha with ⟨ty, hty, rfl⟩ | hty
    · have htype : (AccountLog.ofType ty).txType = ty := rfl
      simp only [elim_some, AccountLog.ops_ofType, any_some]
      by_cases hknown : ty = lit "checkpoint" ∨ ty = lit "addtx" ∨ ty = lit "relaytx"
      · simp [hknown, hty, htype]
      · simp [hknown, hty, htype, Ledger.Op.key]
    · simp only [elim_some, AccountLog.ops_transfer hty]
      by_cases hfrom : a.fromAccount = []
      · simp [AccountLog.accounts, hfrom, Ledger.Op.key, hty]
      · simp [AccountLog.accounts, hfrom, Ledger.Op.key, hty]

@[simp] lemma mem_writtenKeys :
    k ∈ writtenKeys txs ↔ k ∈ namedAccounts txs ∨ k = [] ∧ ∃ tx ∈ txs, resets tx = true := by
  simp only [writtenKeys, blockOps, map_flatMap, mem_flatMap, mem_txOps_keys,
    mem_namedAccounts]
  constructor
  · rintro ⟨tx, htx, hnamed | ⟨hk, hreset⟩⟩
    · exact .inl ⟨tx, htx, hnamed⟩
    · exact .inr ⟨hk, tx, htx, hreset⟩
  · rintro (⟨tx, htx, hnamed⟩ | ⟨hk, tx, htx, hreset⟩)
    · exact ⟨tx, htx, .inl hnamed⟩
    · exact ⟨tx, htx, .inr ⟨hk, hreset⟩⟩

/-- What a written key had does not matter, beyond its balance. -/
lemma execTxs_congr (hk : k ∈ writtenKeys txs) {db db' : DB}
    (hother : ∀ x, x ≠ k → db' x = db x) (hbalance : balance db' k = balance db k) :
    execTxs db' txs = execTxs db txs := by
  have hbalances : balance db' = balance db := by
    funext x
    by_cases hx : x = k
    · rw [hx, hbalance]
    · rw [balance, hother x hx, balance]
  funext x
  rw [execTxs_eq_applyOps, execTxs_eq_applyOps]
  by_cases hx : x ∈ (blockOps txs).map Ledger.Op.key
  · rw [applyOps_of_mem hx, applyOps_of_mem hx, hbalances]
  · rw [applyOps_of_notMem hx, applyOps_of_notMem hx]
    exact hother x fun h => hx (h ▸ hk)

namespace Rotation

/-- The answers of the application, each given by its encoding. -/
structure ABCIResponses where
  deliverTx : List Bytes
  endBlock : Option Bytes
  beginBlock : Option Bytes

/-- The first byte is a control character. -/
def StartsWithControl (bz : Bytes) : Prop := ∃ b, bz.head? = some b ∧ b < 32

/-- Amino with everything that is loaded. The key of a first field is a control character. -/
structure MetadataCodec extends StoreCodec where
  readState : Bytes → Option State
  responses : ABCIResponses → Bytes
  readResponses : Bytes → Option ABCIResponses
  read_state : ∀ s, readState (state s) = some s
  read_responses : ∀ r, readResponses (responses r) = some r
  state_control : ∀ s, StartsWithControl (state s)
  validatorsInfo_control : ∀ info, info.lastHeightChanged ≠ 0 →
    StartsWithControl (validatorsInfo info)
  paramsInfo_control : ∀ info, info.lastHeightChanged ≠ 0 → StartsWithControl (paramsInfo info)
  responses_control : ∀ r, r.deliverTx ≠ [] → StartsWithControl (responses r)

section Load

variable (c : MetadataCodec)

/-- `LoadState`; the inner `none` is the empty state. -/
def loadState (db : DB) : Option (Option State) := load c.readState db stateKey

def loadConsensusParamsInfo (db : DB) (height : ℤ) : Option (Option ConsensusParamsInfo) :=
  load c.readParamsInfo db (consensusParamsKey height)

/-- `LoadConsensusParams`; the inner `none` is `ErrNoConsensusParamsForHeight`. -/
def loadConsensusParams (db : DB) (height : ℤ) : Option (Option ConsensusParams) := do
  match ← loadConsensusParamsInfo c db height with
  | none => some none
  | some info =>
    if info.consensusParams = .empty then
      match ← loadConsensusParamsInfo c db info.lastHeightChanged with
      | none => none
      | some info => some (some info.consensusParams)
    else some (some info.consensusParams)

/-- `LoadABCIResponses`; the inner `none` is `ErrNoABCIResponsesForHeight`. -/
def loadABCIResponses (db : DB) (height : ℤ) : Option (Option ABCIResponses) :=
  load c.readResponses db (abciResponsesKey height)

/-- Everything that is loaded is the same. -/
structure SameLoads (db db' : DB) : Prop where
  state : loadState c db' = loadState c db
  validators : ∀ height, IsInt64 height →
    loadValidators c.toStoreCodec db' height = loadValidators c.toStoreCodec db height
  consensusParams : ∀ height, IsInt64 height →
    loadConsensusParams c db' height = loadConsensusParams c db height
  responses : ∀ height, IsInt64 height → loadABCIResponses c db' height = loadABCIResponses c db height
  search : ∀ key, CheckDB.search db' key = CheckDB.search db key

/-- The heights in the stored values are of the type that they have. -/
structure StoresInt64 (db : DB) : Prop where
  validators : ∀ height info, IsInt64 height →
    loadValidatorsInfo c.toStoreCodec db height = some (some info) → IsInt64 info.lastHeightChanged
  consensusParams : ∀ height info, IsInt64 height →
    loadConsensusParamsInfo c db height = some (some info) → IsInt64 info.lastHeightChanged

end Load

/-- The keys of the state store and of the processed messages. -/
inductive Reserved : Bytes → Prop
  | state : Reserved stateKey
  | validators {height : ℤ} (h : IsInt64 height) : Reserved (validatorsKey height)
  | consensusParams {height : ℤ} (h : IsInt64 height) : Reserved (consensusParamsKey height)
  | responses {height : ℤ} (h : IsInt64 height) : Reserved (abciResponsesKey height)
  | message (id : Bytes) : Reserved (calcAddTxMetaKey id)

variable {c : MetadataCodec} {db db' : DB}

lemma load_congr {α : Type} (read : Bytes → Option α) {key : Bytes} (h : db' key = db key) :
    load read db' key = load read db key := by
  rw [load, h, load]

lemma lastStoredHeightFor_isInt64 {height changed : ℤ} (h : IsInt64 height)
    (hchanged : IsInt64 changed) : IsInt64 (lastStoredHeightFor height changed) := by
  unfold IsInt64 minInt64 maxInt64 at *
  unfold lastStoredHeightFor
  rcases max_choice (height - height.tmod checkpointInterval) changed with heq | heq
  · rw [heq]
    obtain ⟨n, rfl | rfl⟩ := height.eq_nat_or_neg
    · have hmod : (n : ℤ).tmod checkpointInterval = (n % 100000 : ℕ) := rfl
      omega
    · have hmod : (-n : ℤ).tmod checkpointInterval = -(n % 100000 : ℕ) := Int.neg_tmod n _
      omega
  · rw [heq]
    exact hchanged

/-- The loads read the reserved keys only. -/
lemma SameLoads.of_reserved (hdb : StoresInt64 c db) (h : ∀ k, Reserved k → db' k = db k) :
    SameLoads c db db' where
  state := load_congr _ (h _ .state)
  validators height hheight := by
    have hinfo : ∀ height, IsInt64 height → loadValidatorsInfo c.toStoreCodec db' height =
        loadValidatorsInfo c.toStoreCodec db height :=
      fun height hheight => load_congr _ (h _ (.validators hheight))
    have hset : ∀ height, IsInt64 height → loadStoredSet c.toStoreCodec db' height =
        loadStoredSet c.toStoreCodec db height := by
      intro height hheight
      rw [loadStoredSet, hinfo height hheight, loadStoredSet]
    unfold loadValidators
    rw [hinfo height hheight]
    refine bind_congr fun info hstored => ?_
    rcases info with - | ⟨set | set, changed⟩
    · rfl
    · have hchanged := hdb.validators height _ hheight hstored
      simp only [hset _ (lastStoredHeightFor_isInt64 hheight hchanged), hset _ hchanged]
    · rfl
  consensusParams height hheight := by
    have hinfo : ∀ height, IsInt64 height → loadConsensusParamsInfo c db' height =
        loadConsensusParamsInfo c db height :=
      fun height hheight => load_congr _ (h _ (.consensusParams hheight))
    unfold loadConsensusParams
    rw [hinfo height hheight]
    refine bind_congr fun info hstored => ?_
    rcases info with - | info
    · rfl
    · simp only [hinfo _ (hdb.consensusParams height info hheight hstored)]
  responses height hheight := load_congr _ (h _ (.responses hheight))
  search id := CheckDB.search_congr (h _ (.message id))

lemma byte2digit_of_control {bz : Bytes} (h : StartsWithControl bz) :
    byte2digit (some bz) = 0 := by
  obtain ⟨b, hb, hlt⟩ := h
  obtain ⟨rest, rfl⟩ : ∃ rest, bz = b :: rest := by
    cases bz with
    | nil => cases hb
    | cons b' rest => exact ⟨rest, by rw [some.inj hb]⟩
  have hne : ∀ d : UInt8, 32 ≤ d → ¬ d ≤ b := fun d hd hle =>
    absurd hlt (UInt8.not_lt.mpr (UInt8.le_trans hd hle))
  have hdigit : isDigit b = false := by
    simp [isDigit, hne 48 (by decide)]
  have hminus : b ≠ 45 := by
    rintro rfl
    exact hne 45 (by decide) (UInt8.le_refl _)
  have hplus : b ≠ 43 := by
    rintro rfl
    exact hne 43 (by decide) (UInt8.le_refl _)
  simp [byte2digit, atoi, parseUint, hdigit, hminus, hplus]

def emptyDB : DB := fun _ => none

lemma storesInt64_emptyDB : StoresInt64 c emptyDB := by
  constructor <;> simp [loadValidatorsInfo, loadConsensusParamsInfo, load, emptyDB]

/-- The first byte of a key tells whether it is one of an info. -/
lemma storesInt64_set {bz : Bytes} {b : UInt8} (hb : k.head? = some b)
    (hv : b = 118 → ∀ info, c.readValidatorsInfo bz = some info → IsInt64 info.lastHeightChanged)
    (hp : b = 99 → ∀ info, c.readParamsInfo bz = some info → IsInt64 info.lastHeightChanged) :
    StoresInt64 c (emptyDB.set k bz) := by
  have hload : ∀ {α : Type} (read : Bytes → Option α) (key : Bytes) (x : α),
      load read (emptyDB.set k bz) key = some (some x) → key = k ∧ read bz = some x := by
    intro α read key x h
    unfold load at h
    by_cases heq : key = k
    · rw [heq, DB.set_same, getD_some] at h
      split_ifs at h
      · cases h
      · obtain ⟨y, hy, hxy⟩ := map_eq_some_iff.mp h
        exact ⟨heq, hy.trans hxy⟩
    · simp [DB.set_other emptyDB bz heq, emptyDB] at h
  constructor
  · intro height info _ h
    obtain ⟨rfl, hread⟩ := hload _ _ _ h
    exact hv (some.inj hb).symm info hread
  · intro height info _ h
    obtain ⟨rfl, hread⟩ := hload _ _ _ h
    exact hp (some.inj hb).symm info hread

lemma storesInt64_set_of_ne {bz : Bytes} {b : UInt8} (hb : k.head? = some b) (hv : b ≠ 118)
    (hp : b ≠ 99) : StoresInt64 c (emptyDB.set k bz) :=
  storesInt64_set hb (absurd · hv) (absurd · hp)

/-- Whatever execution keeps for every database cannot tell whether a written key has a value that
is no number. -/
lemma eq_of_kept {α : Type} (hk : k ∈ writtenKeys txs)
    {f : DB → α} (hkept : ∀ db, StoresInt64 c db → f (execTxs db txs) = f db) {bz : Bytes}
    (hset : StoresInt64 c (emptyDB.set k bz))
    (hbz : byte2digit (some bz) = 0) : f (emptyDB.set k bz) = f emptyDB := by
  have hsame : execTxs (emptyDB.set k bz) txs = execTxs emptyDB txs := by
    refine execTxs_congr hk (fun x hx => DB.set_other _ _ hx) ?_
    rw [balance, DB.set_same, hbz]
    rfl
  rw [← hkept _ hset, hsame, hkept _ storesInt64_emptyDB]

lemma load_set {α : Type} {read : Bytes → Option α} {key bz : Bytes} {x : α} {db : DB}
    (hbz : StartsWithControl bz) (hread : read bz = some x) :
    load read (db.set key bz) key = some (some x) := by
  have hne : bz ≠ [] := by
    rintro rfl
    obtain ⟨b, hb, -⟩ := hbz
    cases hb
  rw [load, DB.set_same, getD_some, if_neg hne, hread, map_some]

/-- A state with nothing in it. -/
def blankState : State where
  version := ⟨0, 0⟩
  chainID := []
  lastBlockHeight := 0
  lastBlockTotalTx := 0
  lastBlockID := .zero
  lastBlockTime := 0
  nextValidators := .empty
  validators := .empty
  lastValidators := .empty
  lastHeightValidatorsChanged := 0
  consensusParams := .empty
  lastHeightConsensusParamsChanged := 0
  lastResultsHash := []
  appHash := []

lemma not_reserved_of_sameLoads
    (h : ∀ db, StoresInt64 c db → SameLoads c db (execTxs db txs)) (hk : k ∈ writtenKeys txs) :
    ¬ Reserved k := by
  intro hreserved
  cases hreserved with
  | state =>
    have hbz := c.state_control blankState
    have heq := eq_of_kept hk (f := loadState c) (fun db hdb => (h db hdb).state)
      (storesInt64_set_of_ne rfl (by decide) (by decide)) (byte2digit_of_control hbz)
    rw [loadState, load_set hbz (c.read_state _)] at heq
    cases heq
  | @validators height hheight =>
    have hbz := c.validatorsInfo_control ⟨some .empty, 1⟩ (by decide)
    have hset : StoresInt64 c (emptyDB.set (validatorsKey height)
        (c.validatorsInfo ⟨some .empty, 1⟩)) := by
      refine storesInt64_set rfl (fun _ info hread => ?_) (absurd · (by decide))
      rw [← some.inj ((c.read_validatorsInfo _).symm.trans hread)]
      exact isInt64_of_abs (by decide)
    have heq := eq_of_kept hk (f := fun db => loadValidators c.toStoreCodec db height)
      (fun db hdb => (h db hdb).validators height hheight) hset (byte2digit_of_control hbz)
    simp only [loadValidators, loadValidatorsInfo, load_set hbz (c.read_validatorsInfo _)] at heq
    cases heq
  | @consensusParams height hheight =>
    have hbz := c.paramsInfo_control ⟨.default, 1⟩ (by decide)
    have hset : StoresInt64 c (emptyDB.set (consensusParamsKey height)
        (c.paramsInfo ⟨.default, 1⟩)) := by
      refine storesInt64_set rfl (absurd · (by decide)) fun _ info hread => ?_
      rw [← some.inj ((c.read_paramsInfo _).symm.trans hread)]
      exact isInt64_of_abs (by decide)
    have heq := eq_of_kept hk (f := fun db => loadConsensusParams c db height)
      (fun db hdb => (h db hdb).consensusParams height hheight) hset (byte2digit_of_control hbz)
    simp only [loadConsensusParams, loadConsensusParamsInfo, load_set hbz (c.read_paramsInfo _)] at heq
    cases heq
  | @responses height hheight =>
    have hbz := c.responses_control ⟨[[]], none, none⟩ (by decide)
    have heq := eq_of_kept hk (f := fun db => loadABCIResponses c db height)
      (fun db hdb => (h db hdb).responses height hheight)
      (storesInt64_set_of_ne rfl (by decide) (by decide)) (byte2digit_of_control hbz)
    simp only [loadABCIResponses, load_set hbz (c.read_responses _)] at heq
    cases heq
  | message id =>
    have hbz : byte2digit (some CrossMessages.zero.data) = 0 := by decide +kernel
    have heq := eq_of_kept hk (f := fun db => CheckDB.search db id)
      (fun db hdb => (h db hdb).search id)
      (storesInt64_set_of_ne rfl (by decide) (by decide)) hbz
    have hsome := CheckDB.search_save emptyDB id CrossMessages.zero
    rw [CheckDB.save, heq] at hsome
    cases hsome

/-- The execution of the block, also if the application stops it, writes only accounts that
its transfers name, none of them a reserved key, and everything is loaded as before. -/
structure Untouched (c : MetadataCodec) (txs : List Bytes) : Prop where
  named : ∀ k ∈ writtenKeys txs, k ∈ namedAccounts txs
  spared : ∀ k ∈ writtenKeys txs, ¬ Reserved k
  loads : ∀ db n, StoresInt64 c db → SameLoads c db (execTxs db (txs.take n))

lemma mem_writtenKeys_of_take {n : ℕ}
    (h : k ∈ writtenKeys (txs.take n)) : k ∈ writtenKeys txs := by
  simp only [writtenKeys, blockOps, map_flatMap, mem_flatMap] at h ⊢
  obtain ⟨tx, htx, hk⟩ := h
  exact ⟨tx, mem_of_mem_take htx, hk⟩

lemma sameLoads_iff (txs : List Bytes) :
    (∀ db n, StoresInt64 c db → SameLoads c db (execTxs db (txs.take n))) ↔
      ∀ k ∈ writtenKeys txs, ¬ Reserved k := by
  constructor
  · intro h k hk
    refine not_reserved_of_sameLoads (c := c) (fun db hdb => ?_) hk
    have := h db txs.length hdb
    rwa [take_length] at this
  · intro h db n hdb
    refine .of_reserved hdb fun k hk => ?_
    rw [execTxs_eq_applyOps]
    refine applyOps_of_notMem (fun hmem => ?_) db
    exact h k (mem_writtenKeys_of_take hmem) hk

/-- A block leaves the metadata alone exactly if none of its transfers names a reserved key, and
none of its transactions is of another type, unless a transfer names the empty account, which those
reset. -/
theorem untouched_iff (c : MetadataCodec) (txs : List Bytes) :
    Untouched c txs ↔
      (∀ tx ∈ txs, ∀ a, parseTx tx = some a → a.txType = lit "tx" →
        ¬ Reserved a.fromAccount ∧ ¬ Reserved a.toAccount) ∧
      ((∃ tx ∈ txs, resets tx = true) →
        ∃ tx ∈ txs, ∃ a, parseTx tx = some a ∧ a.txType = lit "tx" ∧ a.toAccount = []) := by
  have hnil : ∀ a : AccountLog, [] ∈ a.accounts ↔ a.toAccount = [] := by
    intro a
    unfold AccountLog.accounts
    split_ifs with hfrom
    · simp [hfrom]
    · simp [eq_comm]
  constructor
  · rintro ⟨hnamed, hspared, -⟩
    constructor
    · intro tx htx a ha hty
      have hwritten : ∀ k ∈ a.accounts, ¬ Reserved k := fun k hk =>
        hspared k (mem_writtenKeys.mpr (.inl (mem_namedAccounts.mpr ⟨tx, htx, a, ha, hty, hk⟩)))
      constructor
      · by_cases hfrom : a.fromAccount = []
        · rw [hfrom]
          exact nofun
        · exact hwritten _ (by simp [AccountLog.accounts, hfrom])
      · refine hwritten _ ?_
        unfold AccountLog.accounts
        split_ifs <;> simp
    · intro hreset
      obtain ⟨tx, htx, a, ha, hty, hk⟩ :=
        mem_namedAccounts.mp (hnamed [] (mem_writtenKeys.mpr (.inr ⟨rfl, hreset⟩)))
      exact ⟨tx, htx, a, ha, hty, (hnil a).mp hk⟩
  · rintro ⟨hspare, hreset⟩
    have hnamed : ∀ k ∈ writtenKeys txs, k ∈ namedAccounts txs := by
      intro k hk
      rcases mem_writtenKeys.mp hk with hk | ⟨rfl, hex⟩
      · exact hk
      · obtain ⟨tx, htx, a, ha, hty, hto⟩ := hreset hex
        exact mem_namedAccounts.mpr ⟨tx, htx, a, ha, hty, (hnil a).mpr hto⟩
    have hspared : ∀ k ∈ writtenKeys txs, ¬ Reserved k := by
      intro k hk
      obtain ⟨tx, htx, a, ha, hty, hmem⟩ := mem_namedAccounts.mp (hnamed k hk)
      obtain ⟨hfrom, hto⟩ := hspare tx htx a ha hty
      unfold AccountLog.accounts at hmem
      split_ifs at hmem
      · rcases mem_pair.mp hmem with rfl | rfl
        · exact hfrom
        · exact hto
      · rw [mem_singleton.mp hmem]
        exact hto
    exact ⟨hnamed, hspared, (sameLoads_iff txs).mpr hspared⟩

open Wire

def wireResponses (r : ABCIResponses) : Bytes :=
  repeated 10 r.deliverTx ++ (optional 18 r.endBlock ++ (optional 26 r.beginBlock ++ []))

def readResponses (bz : Bytes) : ABCIResponses :=
  let deliverTx := readRepeated 10 bz.length bz
  let endBlock := readOptional 18 deliverTx.2
  ⟨deliverTx.1, endBlock.1, (readOptional 26 endBlock.2).1⟩

@[simp] lemma readResponses_wire (r : ABCIResponses) : readResponses (wireResponses r) = r := by
  have h18 : Above 18 (Wire.optional 26 r.beginBlock ++ []) := .optional _ (by decide) _ .nil
  have h10 := Above.optional 10 (by decide) r.endBlock h18
  have hlen : r.deliverTx.length ≤ (wireResponses r).length := by
    rw [wireResponses, length_append]
    exact (length_le_repeated _).trans (Nat.le_add_right _ _)
  simp only [readResponses]
  rw [show readRepeated 10 (wireResponses r).length (wireResponses r) = _ from
    readRepeated_append _ h10.head?_ne hlen]
  rw [readOptional_append _ h18.head?_ne, readOptional_append _ (by simp)]

lemma startsWithControl_optional {bz : Option Bytes} {n : ℤ} (h : n ≠ 0) :
    StartsWithControl (Wire.optional 10 bz ++ (intField 16 n ++ [])) := by
  cases bz with
  | some bz => exact ⟨10, rfl, by decide⟩
  | none =>
    refine ⟨16, ?_, by decide⟩
    simp [Wire.optional, intField, ofInt_ne_zero h]

lemma startsWithControl_bytesField {bz : Bytes} {n : ℤ} (h : n ≠ 0) :
    StartsWithControl (bytesField 10 bz ++ (intField 16 n ++ [])) := by
  by_cases hbz : bz = []
  · refine ⟨16, ?_, by decide⟩
    simp [hbz, bytesField, intField, ofInt_ne_zero h]
  · exact ⟨10, by simp [hbz], by decide⟩

@[simp] lemma head?_wireState (s : State) : (wireState s).head? = some 10 := by
  simp only [wireState, append_assoc]
  have hsoftware : lit "0.31.5" ≠ [] := by decide
  rw [head?_append, head?_bytesField, if_neg (by simp [bytesField, hsoftware])]
  rfl

/-- A state is read from bytes that are its encoding. -/
def wireMetadata : MetadataCodec where
  toStoreCodec := wireCodec
  readState bz := if wireState (readState bz) = bz then some (readState bz) else none
  responses := wireResponses
  readResponses bz := some (readResponses bz)
  read_state s := by simp [wireCodec]
  read_responses r := congrArg some (readResponses_wire r)
  state_control s := ⟨10, head?_wireState s, by decide⟩
  validatorsInfo_control info h := startsWithControl_optional h
  paramsInfo_control info h := startsWithControl_bytesField h
  responses_control r h := by
    obtain ⟨x, l, hl⟩ := exists_cons_of_ne_nil h
    exact ⟨10, by simp [wireResponses, hl, repeated, message], by decide⟩

def stateKeyTransfer : Bytes :=
  (Json.obj [(lit "Txtype", .str (lit "tx")),
    (lit "Content", .str (lit "alice_stateKey_1_0"))]).print

def savedState : DB := emptyDB.set stateKey (wireState sampleGenesis)

/-- The transfer replaces the state by a number, and the node cannot load it any more. -/
theorem state_overwritten :
    loadState wireMetadata savedState = some (some sampleGenesis) ∧
    loadState wireMetadata (execTxs savedState [stateKeyTransfer]) = none := by
  have hops : blockOps [stateKeyTransfer] =
      [.add (lit "alice") (-1), .add (lit "stateKey") 1] := by
    decide +kernel

  have hvalue : execTxs savedState [stateKeyTransfer] stateKey = some (lit "1") := by
    rw [execTxs_eq_applyOps, hops, applyOps_of_mem (by simp [stateKey, Ledger.Op.key])]
    decide +kernel
  constructor
  · exact load_set (wireMetadata.state_control _) (wireMetadata.read_state _)
  · have hread : wireMetadata.readState (lit "1") = none := by
      have hne : wireState (readState (lit "1")) ≠ lit "1" := by
        intro h
        have hhead := congrArg head? h
        rw [head?_wireState] at hhead
        exact absurd hhead (by decide)
      simp only [wireMetadata, if_neg hne]
    rw [loadState, load, hvalue]
    rfl

end Rotation

end ShardingBC
