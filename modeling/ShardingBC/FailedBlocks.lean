import ShardingBC.FilterChanges
import ShardingBC.IncrementalSnapshots

/-!
# What a block leaves behind when it cannot be applied

`ApplyBlock` with its errors. The snapshot is generated before the block is validated, the shard
filters are updated before the application sees the block, and the balances are written while it
does; only the mempool is updated after the last error.
-/
namespace ShardingBC.Execution

open List Option

open Consensus (Block BlockID ChainEnv validateBlock)
open IncrementalSnapshots (Accounts Iteration)
open Rotation

/-! ## The executor -/

/-- The versions that `SetSnapshotVersion` accepts. -/
inductive SnapshotVersion where
  | v1
  | v2
  | v3
deriving DecidableEq

/-- What the executor uses and no block changes, and the clock. -/
structure Executor where
  chain : ChainEnv
  pool : ShardingBC.Env
  codec : StoreCodec
  /-- A public key, from the type and the data that the application names. -/
  encodeKey : Bytes → Bytes → Bytes
  snapshotVersion : Option SnapshotVersion
  current : Int64
  created : Bytes → Int64

/-- The stores that `ApplyBlock` writes, apart from its state. -/
structure Node where
  accounts : Accounts
  filters : CList ShardFilter
  mempool : Mempool

structure ValidatorUpdate where
  keyType : Bytes
  keyData : Bytes
  power : ℤ

structure EndBlock where
  validatorUpdates : List ValidatorUpdate
  consensusParamUpdates : Option ParamUpdates

/-- What the application answers; an error is `false` or `none`. -/
structure Answers where
  beginBlock : Bool
  /-- Whether the connection is without error after a `DeliverTx`. -/
  delivers : ℕ → Bool
  endBlock : Option EndBlock
  /-- The stored responses, and their hash. -/
  responses : Bytes
  resultsHash : Bytes
  flushes : Bool
  commit : Option Bytes

inductive UpdatesError where
  | negativePower
  | unsupportedKey
deriving DecidableEq

inductive KeyError where
  | wrongSize
  | unknownType
deriving DecidableEq

inductive ApplyError where
  | invalidBlock (err : Consensus.BlockError)
  | proxyAppConn
  | validatorUpdates (err : UpdatesError)
  | pubKey (err : KeyError)
  | update (err : UpdateError)
  | flushAppConn
  | commit
deriving DecidableEq

/-! ## Its steps -/

def snapshotInterval : ℤ := 10

variable (x : Executor)

/-- A snapshot is generated before the block. -/
def Due (b : Block) : Prop :=
  0 < b.header.height - 1 ∧ (b.header.height - 1).tmod snapshotInterval = 0 ∧
    x.snapshotVersion ≠ none

instance due_decidable (b : Block) : Decidable (Due x b) := inferInstanceAs (Decidable (_ ∧ _))

def generateSnapshots (s : State) (b : Block) (a : Accounts) (states : Iteration a.db) : Accounts :=
  if Due x b then
    match x.snapshotVersion with
    | some .v1 => a.generateSnapshot states (b.header.height - 1) s.validators s.nextValidators
    | some .v2 => a.generateSnapshotFast (b.header.height - 1) s.validators s.nextValidators
    | _ => a.generateSnapshotWithSecurity (b.header.height - 1) s.validators s.nextValidators
  else a

/-- The loop over the transactions; whether it ends without error. -/
def deliverTxs (ans : Answers) : ℕ → Accounts → List Bytes → Accounts × Bool
  | _, a, [] => (a, true)
  | i, a, tx :: txs =>
    if ans.delivers i then deliverTxs ans (i + 1) (a.saveTx tx) txs else (a, false)

/-- `execBlockOnProxyApp` on the accounts. -/
def execBlockOnProxyApp (ans : Answers) (a : Accounts) (txs : List Bytes) :
    Accounts × Option EndBlock :=
  if ans.beginBlock then
    let r := deliverTxs ans 0 a txs
    (r.1, if r.2 then ans.endBlock else none)
  else (a, none)

def saveABCIResponses (ans : Answers) (height : ℤ) (a : Accounts) : Accounts :=
  { a with db := a.db.set (abciResponsesKey height) ans.responses }

def validateValidatorUpdates (params : ConsensusParams) : List ValidatorUpdate → Option UpdatesError
  | [] => none
  | u :: updates =>
    if u.power < 0 then some .negativePower
    else if u.power = 0 then validateValidatorUpdates params updates
    else if params.pubKeyTypes.contains u.keyType then validateValidatorUpdates params updates
    else some .unsupportedKey

def pubKey (u : ValidatorUpdate) : Except KeyError Bytes :=
  if u.keyType = lit "ed25519" then
    if u.keyData.length ≠ 32 then .error .wrongSize else .ok (x.encodeKey u.keyType u.keyData)
  else if u.keyType = lit "secp256k1" then
    if u.keyData.length ≠ 33 then .error .wrongSize else .ok (x.encodeKey u.keyType u.keyData)
  else if u.keyType = lit "bls" then .ok (x.encodeKey u.keyType u.keyData)
  else .error .unknownType

def validatorUpdates (updates : List ValidatorUpdate) : Except KeyError (List Validator) :=
  updates.mapM fun u => (pubKey x u).map fun key => ⟨x.chain.addressOf key, key, u.power, 0⟩

/-- The new state; `none` is a panic. -/
def nextState (s : State) (blockID : BlockID) (b : Block) (ans : Answers) (e : EndBlock) :
    Option (Except ApplyError State) :=
  match validateValidatorUpdates s.consensusParams e.validatorUpdates with
  | some err => some (.error (.validatorUpdates err))
  | none =>
    match validatorUpdates x e.validatorUpdates with
    | .error err => some (.error (.pubKey err))
    | .ok updates =>
      match updateState s blockID b.header
        ⟨updates, e.consensusParamUpdates, ans.resultsHash⟩ with
      | .error .panics => none
      | .error err => some (.error (.update err))
      | .ok s' => some (.ok s')

/-- `TxPreCheck`: the maximal size of the data; `none` is a panic. -/
def txPreCheck (s : State) : Option Int64 :=
  let maxBytes := s.consensusParams.maxBytes
  let maxDataBytes :=
    maxBytes - 11 - 653 - s.validators.validators.length * 600 - maxBytes.tdiv 10
  if maxDataBytes < 0 then none else some (Int64.ofInt maxDataBytes)

def txPostCheck (s : State) : Int64 := Int64.ofInt s.consensusParams.maxGas

def commitTxs (s : State) (b : Block) (n : Node) (appHash : Bytes) : Option (Node × State) := do
  let preCheck ← txPreCheck s
  let r ← update x.pool (n.mempool, n.accounts.db) (Int64.ofInt b.header.height) b.txs
    (some preCheck) (some (txPostCheck s))
  let db ← saveState x.codec r.1.2 { s with appHash := appHash }
  some ({ n with
      accounts := { n.accounts with db := db }
      mempool := { r.1.1 with cmDB := (updatecmDB r.1.1.cmDB).2 } },
    { s with appHash := appHash })

/-- `Commit` and what follows it. -/
def commit (s : State) (b : Block) (ans : Answers) (n : Node) :
    Option (Node × Except ApplyError State) :=
  if ans.flushes then
    match ans.commit with
    | none => some (n, .error .commit)
    | some appHash => (commitTxs x s b n appHash).map fun r => (r.1, .ok r.2)
  else some (n, .error .flushAppConn)

/-- `ApplyBlock` on a valid block with updated filters. -/
def executeBlock (s : State) (blockID : BlockID) (b : Block) (ans : Answers) (n : Node) :
    Option (Node × Except ApplyError State) :=
  let r := execBlockOnProxyApp ans n.accounts b.txs
  match r.2 with
  | none => some ({ n with accounts := r.1 }, .error .proxyAppConn)
  | some e =>
    let n := { n with accounts := saveABCIResponses ans b.header.height r.1 }
    match nextState x s blockID b ans e with
    | none => none
    | some (.error err) => some (n, .error err)
    | some (.ok s') => commit x s' b ans n

/-- `ApplyBlock`; `none` is a panic. -/
def applyBlock (s : State) (blockID : BlockID) (b : Block) (ans : Answers) (n : Node)
    (states : Iteration n.accounts.db) : Option (Node × Except ApplyError State) :=
  let n := { n with accounts := generateSnapshots x s b n.accounts states }
  match validateBlock x.chain s.forget b with
  | none => none
  | some (some err) => some (n, .error (.invalidBlock err))
  | some none => do
      let filters ← ShardFilters.applyConfigs n.filters x.current x.created b.txs
      executeBlock x s blockID b ans { n with filters := filters }

/-! ## Errors that do not depend on the stores -/

/-- The transactions that are saved before the connection fails. -/
def deliveredFrom (ans : Answers) : ℕ → List Bytes → List Bytes
  | _, [] => []
  | i, tx :: txs => if ans.delivers i then tx :: deliveredFrom ans (i + 1) txs else []

def delivered (ans : Answers) (txs : List Bytes) : List Bytes :=
  if ans.beginBlock then deliveredFrom ans 0 txs else []

/-- The answer to `EndBlock` is reached. -/
def reached (ans : Answers) (txs : List Bytes) : Option EndBlock :=
  if ans.beginBlock ∧ (deliveredFrom ans 0 txs).length = txs.length then ans.endBlock else none

/-- The error of a valid block whose configurations do not panic. -/
def executionError (s : State) (blockID : BlockID) (b : Block) (ans : Answers) :
    Option ApplyError :=
  match reached ans b.txs with
  | none => some .proxyAppConn
  | some e =>
    match nextState x s blockID b ans e with
    | none => none
    | some (.error err) => some err
    | some (.ok _) =>
      if ans.flushes then if ans.commit = none then some .commit else none
      else some .flushAppConn

lemma deliverTxs_eq (ans : Answers) (i : ℕ) (a : Accounts) (txs : List Bytes) :
    deliverTxs ans i a txs = ((deliveredFrom ans i txs).foldl Accounts.saveTx a,
      decide ((deliveredFrom ans i txs).length = txs.length)) := by
  induction txs generalizing i a with
  | nil => rfl
  | cons tx txs ih =>
    rw [deliverTxs, deliveredFrom]
    split_ifs
    · rw [ih]
      simp
    · simp

lemma execBlockOnProxyApp_eq (ans : Answers) (a : Accounts) (txs : List Bytes) :
    execBlockOnProxyApp ans a txs =
      ((delivered ans txs).foldl Accounts.saveTx a, reached ans txs) := by
  unfold execBlockOnProxyApp delivered reached
  by_cases hbegin : ans.beginBlock = true
  · simp [hbegin, deliverTxs_eq]
  · simp [hbegin]

/-- The accounts that an error of the execution leaves. -/
def accountsAfter (ans : Answers) (b : Block) (a : Accounts) : Accounts :=
  let saved := (delivered ans b.txs).foldl Accounts.saveTx a
  if (reached ans b.txs).isSome then saveABCIResponses ans b.header.height saved else saved

variable {x} {s : State} {blockID : BlockID} {b : Block} {ans : Answers} {n n' : Node}
  {err : ApplyError}

lemma commit_error_iff {s' : State} :
    commit x s' b ans n = some (n', .error err) ↔
      (if ans.flushes then if ans.commit = none then some ApplyError.commit else none
        else some .flushAppConn) = some err ∧ n' = n := by
  unfold commit
  by_cases hflush : ans.flushes = true
  · rw [if_pos hflush, if_pos hflush]
    cases ans.commit with
    | none => simp [eq_comm, and_comm]
    | some appHash => simp
  · rw [if_neg hflush, if_neg hflush]
    simp [eq_comm, and_comm]

lemma executeBlock_error_iff :
    executeBlock x s blockID b ans n = some (n', .error err) ↔
      executionError x s blockID b ans = some err ∧
        n' = { n with accounts := accountsAfter ans b n.accounts } := by
  unfold executeBlock executionError accountsAfter
  rw [execBlockOnProxyApp_eq]
  cases reached ans b.txs with
  | none => simp [eq_comm, and_comm]
  | some e =>
    dsimp only
    cases nextState x s blockID b ans e with
    | none => simp
    | some r =>
      cases r with
      | error err' => simp [eq_comm, and_comm]
      | ok s' => exact commit_error_iff

lemma applyBlock_error_iff {states : Iteration n.accounts.db} :
    applyBlock x s blockID b ans n states = some (n', .error err) ↔
      (∃ e, validateBlock x.chain s.forget b = some (some e) ∧ err = .invalidBlock e ∧
        n' = { n with accounts := generateSnapshots x s b n.accounts states }) ∨
      validateBlock x.chain s.forget b = some none ∧
        executionError x s blockID b ans = some err ∧
        ∃ l, ShardFilters.applyConfigs n.filters x.current x.created b.txs = some l ∧
          n' = ⟨accountsAfter ans b (generateSnapshots x s b n.accounts states), l, n.mempool⟩ := by
  unfold applyBlock
  dsimp only
  cases validateBlock x.chain s.forget b with
  | none => simp
  | some r =>
    cases r with
    | some e => simp [eq_comm, and_comm]
    | none =>
      cases hl : ShardFilters.applyConfigs n.filters x.current x.created b.txs with
      | none => simp
      | some l =>
        simp only [bind_eq_bind, bind_some, executeBlock_error_iff]
        simp

/-! ## Transactions that write nothing -/

/-- The log of the transaction writes a balance. -/
def Writes (tx : Bytes) : Prop :=
  ∃ a, parseTx tx = some a ∧ a.txType ≠ lit "checkpoint" ∧ a.txType ≠ lit "addtx" ∧
    a.txType ≠ lit "relaytx"

lemma txOps_ne_nil_of_writes {tx : Bytes} (h : Writes tx) : txOps tx ≠ [] := by
  obtain ⟨a, ha, hcheckpoint, haddtx, hrelay⟩ := h
  rw [txOps, ha, elim_some]
  rcases parseTx_cases ha with ⟨ty, -, rfl⟩ | hty
  · rw [AccountLog.ops_ofType, if_neg]
    · simp
    · rintro (rfl | rfl | rfl)
      · exact hcheckpoint rfl
      · exact haddtx rfl
      · exact hrelay rfl
  · rw [a.ops_transfer hty]
    split_ifs <;> simp

lemma saveTx_of_not_writes {tx : Bytes} (h : ¬ Writes tx) (a : Accounts) : a.saveTx tx = a := by
  unfold Accounts.saveTx
  cases ha : parseTx tx with
  | none => rfl
  | some log =>
    dsimp only
    unfold Accounts.save
    by_cases hskip : log.txType = lit "checkpoint" ∨ log.txType = lit "addtx"
    · rw [if_pos hskip]
    rw [if_neg hskip]
    rw [not_or] at hskip
    have hrelay : log.txType = lit "relaytx" := by
      by_contra hne
      exact h ⟨log, ha, hskip.1, hskip.2, hne⟩
    rcases parseTx_cases ha with ⟨ty, -, rfl⟩ | hty
    · have hty : ty = lit "relaytx" := hrelay
      have hops : (AccountLog.ofType ty).ops = [] := by
        rw [AccountLog.ops_ofType, if_pos (Or.inr (Or.inr hty))]
      rw [AccountLog.save_eq_applyOps, hops]
      rfl
    · rw [hty] at hrelay
      exact absurd hrelay (by decide)

lemma foldl_saveTx_of_not_writes {txs : List Bytes} (h : ∀ tx ∈ txs, ¬ Writes tx) (a : Accounts) :
    txs.foldl Accounts.saveTx a = a := by
  induction txs with
  | nil => rfl
  | cons tx txs ih =>
    obtain ⟨htx, htxs⟩ := forall_mem_cons.mp h
    rw [foldl_cons, saveTx_of_not_writes htx, ih htxs]

@[simp] lemma snapshot_foldl_saveTx (txs : List Bytes) (a : Accounts) :
    (txs.foldl Accounts.saveTx a).snapshot = a.snapshot := by
  induction txs generalizing a with
  | nil => rfl
  | cons tx txs ih =>
    rw [foldl_cons, ih, Accounts.saveTx]
    cases parseTx tx with
    | none => rfl
    | some log =>
      dsimp only
      rw [Accounts.save]
      split_ifs <;> rfl

lemma accountsAfter_frame (ans : Answers) (b : Block) (a : Accounts) :
    (accountsAfter ans b a).snapshot = a.snapshot ∧
      (accountsAfter ans b a).snapshotCache =
        ((delivered ans b.txs).foldl Accounts.saveTx a).snapshotCache ∧
      ∀ k ≠ abciResponsesKey b.header.height,
        (accountsAfter ans b a).db k = ((delivered ans b.txs).foldl Accounts.saveTx a).db k := by
  rw [accountsAfter]
  split_ifs
  · exact ⟨snapshot_foldl_saveTx _ a, rfl, fun k hk => DB.set_other _ _ hk⟩
  · exact ⟨snapshot_foldl_saveTx _ a, rfl, fun k _ => rfl⟩

/-! ## The effects of an error -/

/-- What the error must leave as it was. -/
structure Unchanged (b : Block) (n n' : Node) : Prop where
  accounts : ∀ k ≠ abciResponsesKey b.header.height, n'.accounts.db k = n.accounts.db k
  snapshot : n'.accounts.snapshot = n.accounts.snapshot
  snapshotCache : n'.accounts.snapshotCache = n.accounts.snapshotCache
  filters : n'.filters = n.filters
  mempool : n'.mempool = n.mempool

/-- No snapshot is due before an error, and before one of the execution no filter or balance is
written. -/
structure Harmless (x : Executor) (s : State) (blockID : BlockID) (b : Block) (ans : Answers)
    (l : CList ShardFilter) : Prop where
  invalid : ∀ e, validateBlock x.chain s.forget b = some (some e) → ¬ Due x b
  failed : validateBlock x.chain s.forget b = some none → executionError x s blockID b ans ≠ none →
    ∀ changes, shardChanges b.txs = some changes →
      (ShardFilters.updateShardFliters l x.current x.created changes.1 changes.2).isSome →
      ¬ Due x b ∧ ShardFilters.Settled l x.current changes.1 changes.2 ∧
        ∀ tx ∈ delivered ans b.txs, ¬ Writes tx

lemma generateSnapshots_of_not_due (h : ¬ Due x b) {a : Accounts} (states : Iteration a.db) :
    generateSnapshots x s b a states = a := by
  rw [generateSnapshots, if_neg h]

lemma version_of_due (h : Due x b) {a : Accounts} (states : Iteration a.db) :
    (generateSnapshots x s b a states).snapshot.version = b.header.height - 1 := by
  rw [generateSnapshots, if_pos h]
  split <;> rfl

/-- Stores without an account, and with no snapshot of the chain. -/
def emptyNode (b : Block) (l : CList ShardFilter) : Node where
  accounts := ⟨IncrementalSnapshots.emptyAccounts, [], ⟨b.header.height, [], none, none⟩⟩
  filters := l
  mempool := plainMempool

def emptyIteration (b : Block) (l : CList ShardFilter) :
    Iteration (emptyNode b l).accounts.db where
  entries := []
  lookup_entries k := by
    unfold IncrementalSnapshots.getAllStates
    split_ifs <;> rfl

lemma not_due_of_snapshot {l : CList ShardFilter}
    (h : (generateSnapshots x s b (emptyNode b l).accounts (emptyIteration b l)).snapshot =
      (emptyNode b l).accounts.snapshot) : ¬ Due x b := by
  intro hdue
  have hversion := version_of_due (s := s) hdue (emptyIteration b l)
  rw [h] at hversion
  have : b.header.height = b.header.height - 1 := hversion
  omega

/-- In stores without accounts every written balance can be seen. -/
lemma not_writes_of_unchanged {l : CList ShardFilter} {txs : List Bytes}
    (hdb : ∀ k ≠ abciResponsesKey b.header.height,
      (txs.foldl Accounts.saveTx (emptyNode b l).accounts).db k = none)
    (hcache : (txs.foldl Accounts.saveTx (emptyNode b l).accounts).snapshotCache = []) :
    ∀ tx ∈ txs, ¬ Writes tx := by
  have htracks : IncrementalSnapshots.Tracks
      (txs.foldl Accounts.saveTx (emptyNode b l).accounts) txs := by
    clear hdb hcache
    induction txs using reverseRecOn with
    | nil => exact IncrementalSnapshots.tracks_empty _ _ _
    | append_singleton txs tx ih =>
      rw [foldl_concat]
      exact ih.saveTx tx
  intro tx htx hwrites
  obtain ⟨o, ops, hops⟩ := exists_cons_of_ne_nil (txOps_ne_nil_of_writes hwrites)
  have hkey : o.key ∈ (txOps tx).map Ledger.Op.key := by rw [hops]; simp
  by_cases hnil : o.key = []
  · have hblock : [] ∈ (blockOps txs).map Ledger.Op.key := by
      rw [← hnil, blockOps, map_flatMap]
      exact mem_flatMap.mpr ⟨tx, htx, hkey⟩
    have hnone := hdb [] (by simp [abciResponsesKey, lit])
    rw [htracks.db, execTxs_eq_applyOps, IncrementalSnapshots.applyOps_apply,
      if_pos hblock] at hnone
    cases hnone
  · have hnames := (IncrementalSnapshots.mem_keys_txOps tx hnil).mp hkey
    have hrecorded := (htracks.named _ hnil).mpr ⟨tx, htx, hnames⟩
    rw [hcache, snapshot_foldl_saveTx] at hrecorded
    rcases hrecorded with hmem | hmem <;> cases hmem

/-- Whatever the accounts and the mempool are, an error leaves all stores as they were just
if no step before it had an effect. -/
theorem failed_block_unchanged_iff (x : Executor) (s : State) (blockID : BlockID) (b : Block)
    (ans : Answers) (l : CList ShardFilter) (hl : ShardFilters.Intact l) :
    (∀ n states n' err, n.filters = l →
        applyBlock x s blockID b ans n states = some (n', .error err) → Unchanged b n n') ↔
      Harmless x s blockID b ans l := by
  constructor
  · intro h
    constructor
    · intro e he
      have hunchanged := h (emptyNode b l) (emptyIteration b l) _ _ rfl
        (applyBlock_error_iff.mpr (Or.inl ⟨e, he, rfl, rfl⟩))
      exact not_due_of_snapshot hunchanged.snapshot
    · intro hvalid herror changes hchanges hupdate
      obtain ⟨err, herr⟩ := ne_none_iff_exists'.mp herror
      obtain ⟨l', hl'⟩ := isSome_iff_exists.mp hupdate
      have hconfigs : ShardFilters.applyConfigs l x.current x.created b.txs = some l' := by
        rw [ShardFilters.applyConfigs, hchanges]
        exact hl'
      have hunchanged := h (emptyNode b l) (emptyIteration b l) _ _ rfl
        (applyBlock_error_iff.mpr (Or.inr ⟨hvalid, herr, l', hconfigs, rfl⟩))
      have hdue : ¬ Due x b := by
        have hsnapshot := hunchanged.snapshot
        rw [(accountsAfter_frame ..).1] at hsnapshot
        exact not_due_of_snapshot hsnapshot
      have hfilters : l' = l := hunchanged.filters
      rw [hfilters] at hl'
      refine ⟨hdue, (ShardFilters.updateShardFliters_eq_self_iff _ _ hl _ _).mp hl', ?_⟩
      rw [generateSnapshots_of_not_due hdue] at hunchanged
      obtain ⟨-, hcache, hdb⟩ := accountsAfter_frame ans b (emptyNode b l).accounts
      refine not_writes_of_unchanged (fun k hk => ?_) (hcache.symm.trans hunchanged.snapshotCache)
      exact (hdb k hk).symm.trans (hunchanged.accounts k hk)
  · intro h n states n' err hfilters happly
    rcases applyBlock_error_iff.mp happly with ⟨e, he, -, rfl⟩ | ⟨hvalid, herr, l', hl', rfl⟩
    · rw [generateSnapshots_of_not_due (h.invalid e he)]
      exact ⟨fun _ _ => rfl, rfl, rfl, rfl, rfl⟩
    · rw [hfilters] at hl'
      obtain ⟨changes, hchanges, hupdate⟩ := bind_eq_some_iff.mp hl'
      obtain ⟨hdue, hsettled, hwrites⟩ := h.failed hvalid (by simp [herr]) changes hchanges
        (isSome_iff_exists.mpr ⟨l', hupdate⟩)
      have hsame : l' = l := by
        rw [(ShardFilters.updateShardFliters_eq_self_iff _ _ hl _ _).mpr hsettled] at hupdate
        exact (some.inj hupdate).symm
      obtain ⟨hsnapshot, hcache, hdb⟩ := accountsAfter_frame ans b n.accounts
      rw [foldl_saveTx_of_not_writes hwrites] at hcache hdb
      rw [generateSnapshots_of_not_due hdue]
      exact ⟨hdb, hsnapshot, hcache, hsame.trans hfilters.symm, rfl⟩

/-! ## Blocks with an error -/

def plainExecutor : Executor where
  chain := Consensus.plainChain
  pool := plainEnv "A"
  codec := wireCodec
  encodeKey := fun _ keyData => keyData
  snapshotVersion := some .v2
  current := 0
  created := fun _ => 0

/-- An application that accepts every transaction and ends the block so. -/
def endsWith (endBlock : Option EndBlock) : Answers where
  beginBlock := true
  delivers := fun _ => true
  endBlock := endBlock
  responses := []
  resultsHash := []
  flushes := true
  commit := some []

def negativePower : Answers :=
  endsWith (some ⟨[⟨lit "ed25519", List.replicate 32 1, -1⟩], none⟩)

def blockOf (height : ℤ) (txs : List Bytes) : Block where
  header :=
    { (sampleBlock height []).header with
      numTxs := txs.length
      dataHash := Block.dataHash txs }
  txs := txs
  evidence := []
  lastCommit := some ⟨.zero, []⟩

def richNode : Node where
  accounts := ⟨aliceOwnsFive, [(lit "alice", 5)], ⟨0, [], none, none⟩⟩
  filters := CList.new
  mempool := plainMempool

def richIteration : Iteration richNode.accounts.db where
  entries := [(lit "alice", lit "5")]
  lookup_entries k := by
    by_cases hk : k = lit "alice"
    · subst hk
      decide +kernel
    · have hnone : aliceOwnsFive k = none := DB.set_other _ _ hk
      change _ = IncrementalSnapshots.getAllStates aliceOwnsFive k
      rw [IncrementalSnapshots.getAllStates, hnone, ite_self]
      simp [AssocMap.lookup, Ne.symm hk]

/-- Its only transaction is a relay, which writes no balance. -/
def relayBlock : Block := blockOf 1 [relayToB.data]

/-- Its header counts no transactions. -/
def wrongBlock : Block := { blockOf 11 [] with txs := [[1]] }

/-- It adds a shard and moves money. -/
def busyBlock : Block := blockOf 1 [(configOfB "1").data, transferText "alice_bob_2_0"]

/-- The application fails at the end of the block with the relay. -/
theorem relay_block_unchanged :
    ∃ n', applyBlock plainExecutor sampleGenesis .zero relayBlock (endsWith none) richNode
        richIteration = some (n', .error .proxyAppConn) ∧ Unchanged relayBlock richNode n' := by
  have hvalid : validateBlock plainExecutor.chain sampleGenesis.forget relayBlock = some none := by
    decide +kernel
  have herror : executionError plainExecutor sampleGenesis .zero relayBlock (endsWith none) =
      some .proxyAppConn := by decide +kernel
  have hempty : shardChanges relayBlock.txs = some ([], []) := by decide +kernel
  obtain ⟨l, hl⟩ := isSome_iff_exists.mp
    (show (ShardFilters.applyConfigs CList.new 0 (fun _ => 0) relayBlock.txs).isSome by
      decide +kernel)
  obtain ⟨n', happly⟩ : ∃ n', applyBlock plainExecutor sampleGenesis .zero relayBlock
      (endsWith none) richNode richIteration = some (n', .error .proxyAppConn) :=
    ⟨_, applyBlock_error_iff.mpr (Or.inr ⟨hvalid, herror, l, hl, rfl⟩)⟩
  refine ⟨n', happly, ?_⟩
  refine (failed_block_unchanged_iff plainExecutor sampleGenesis .zero _ _ _
    ShardFilters.intact_new).mpr ⟨?_, ?_⟩ _ _ _ _ rfl happly
  · intro e he
    rw [hvalid] at he
    cases he
  · intro _ _ changes hchanges _
    obtain rfl : ([], []) = changes := some.inj (hempty.symm.trans hchanges)
    refine ⟨by decide, ⟨by simp, by simp⟩, ?_⟩
    intro tx htx
    obtain rfl : tx = relayToB.data := mem_singleton.mp htx
    rintro ⟨a, ha, -, -, hrelay⟩
    have hparse : parseTx relayToB.data = some (AccountLog.ofType (lit "relaytx")) := by
      decide +kernel
    rw [hparse] at ha
    cases ha
    exact hrelay rfl

/-- The wrong block makes a snapshot and empties the cache. The busy block, whose validator update
is refused, has added a filter and moved money. -/
theorem failed_blocks_leave_effects :
    (∃ n', applyBlock plainExecutor sampleGenesis .zero wrongBlock negativePower richNode
          richIteration = some (n', .error (.invalidBlock .wrongNumTxs)) ∧
      n'.accounts.snapshot.version = 10 ∧ n'.accounts.snapshotCache = [] ∧
      ¬ Unchanged wrongBlock richNode n') ∧
    ∃ n', applyBlock plainExecutor sampleGenesis .zero busyBlock negativePower richNode
          richIteration = some (n', .error (.validatorUpdates .negativePower)) ∧
      balance n'.accounts.db (lit "alice") = 3 ∧ ShardFilters.names n'.filters = [lit "B"] ∧
      ¬ Unchanged busyBlock richNode n' := by
  refine ⟨⟨_, applyBlock_error_iff.mpr (Or.inl ⟨_, by decide +kernel, rfl, rfl⟩), ?_⟩, ?_⟩
  · have hversion := version_of_due (s := sampleGenesis)
      (by decide : Due plainExecutor wrongBlock) richIteration
    refine ⟨hversion, by decide +kernel, ?_⟩
    intro h
    rw [h.snapshot] at hversion
    exact absurd hversion (by decide)
  · have hfilters : (ShardFilters.applyConfigs CList.new 0 (fun _ => 0) busyBlock.txs).map
        ShardFilters.names = some [lit "B"] := by decide +kernel
    obtain ⟨l, hl, hnames⟩ := map_eq_some_iff.mp hfilters
    have hvalid : validateBlock plainExecutor.chain sampleGenesis.forget busyBlock = some none := by
      decide +kernel
    have herror : executionError plainExecutor sampleGenesis .zero busyBlock negativePower =
        some (.validatorUpdates .negativePower) := by decide +kernel
    have hbalance : balance (accountsAfter negativePower busyBlock
        (generateSnapshots plainExecutor sampleGenesis busyBlock richNode.accounts
          richIteration)).db (lit "alice") = 3 := by decide +kernel
    refine ⟨_, applyBlock_error_iff.mpr (Or.inr ⟨hvalid, herror, l, hl, rfl⟩), hbalance, hnames,
      ?_⟩
    intro h
    have hsame := congrArg ShardFilters.names h.filters
    rw [hnames] at hsame
    exact absurd hsame (by decide)

end ShardingBC.Execution
