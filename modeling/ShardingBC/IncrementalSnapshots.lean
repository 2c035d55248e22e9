import ShardingBC.Snapshot
import ShardingBC.Transfers

/-!
# Snapshots from a cache of changes

`Save` writes the balances to the database and the amounts to a cache, which `GenerateSnapshotFast`
adds to the last snapshot. Snapshot and cache together record the sum of all amounts of an account,
while a transfer without a spender overwrites the balance. The two agree as long as only zero
balances are overwritten.
-/
namespace ShardingBC.IncrementalSnapshots

open Json
open Rotation (ValidatorSet)
open Snapshots (Snapshot writeAll writeAll_of_mem writeAll_of_notMem readContent)

/-! ## The globals of the package -/

structure Accounts where
  db : DB
  snapshotCache : AssocMap Bytes Int64
  snapshot : Snapshot

def emptyAccounts : DB := fun _ => none

/-- A new node with an empty database. -/
def Accounts.init : Accounts := ⟨emptyAccounts, [], ⟨0, [], none, none⟩⟩

def setSnapshotCache (cache : AssocMap Bytes Int64) (key : Bytes) (amount : Int64) (incr : Bool) :
    AssocMap Bytes Int64 :=
  if key = [] then cache
  else
    let oldVal := (cache.lookup key).getD 0
    cache.set key (if incr then oldVal + amount else oldVal - amount)

namespace Accounts

def save (s : Accounts) (a : AccountLog) : Accounts :=
  if a.txType = lit "checkpoint" ∨ a.txType = lit "addtx" then s
  else
    { s with
      db := a.save s.db
      snapshotCache :=
        setSnapshotCache (setSnapshotCache s.snapshotCache a.fromAccount a.amount false)
          a.toAccount a.amount true }

def saveTx (s : Accounts) (tx : Bytes) : Accounts :=
  match parseTx tx with
  | some a => s.save a
  | none => s

/-- One turn of the loop over the cache. -/
def mergeEntry (content : AssocMap Bytes Bytes) (e : Bytes × Int64) : AssocMap Bytes Bytes :=
  content.set e.1 (digit2byte (byte2digit (content.lookup e.1) + e.2))

def generateSnapshotFast (s : Accounts) (version : ℤ) (set nextset : ValidatorSet) : Accounts :=
  { s with
    snapshotCache := []
    snapshot :=
      ⟨version, s.snapshotCache.foldl mergeEntry s.snapshot.content, some set, some nextset⟩ }

/-- It also hashes the new snapshot. -/
def generateSnapshotWithSecurity (s : Accounts) (version : ℤ) (set nextset : ValidatorSet) :
    Accounts := s.generateSnapshotFast version set nextset

end Accounts

/-- The keys that `GetAllStates` iterates over. -/
def InStates (key : Bytes) : Prop := lit "0" ≤ key ∧ key < lit "z"

instance inStates_decidable (key : Bytes) : Decidable (InStates key) :=
  inferInstanceAs (Decidable (_ ∧ _))

/-- `GetAllStates`, the content that `GenerateSnapshot` stores. -/
def getAllStates (db : DB) : Bytes → Option Bytes := fun key =>
  if InStates key then db key else none

/-- What the iterator of `GetAllStates` collects of a database. -/
structure Iteration (db : DB) where
  entries : AssocMap Bytes Bytes
  lookup_entries : ∀ k, entries.lookup k = getAllStates db k

def Accounts.generateSnapshot (s : Accounts) (states : Iteration s.db) (version : ℤ)
    (set nextset : ValidatorSet) : Accounts :=
  { s with snapshot := ⟨version, states.entries, some set, some nextset⟩ }

def strings (es : List (Bytes × Bytes)) : List (Bytes × Json) := es.map fun e => (e.1, str e.2)

/-- `json.Marshal` of a map of strings: the keys are sorted. -/
def marshalContent (content : AssocMap Bytes Bytes) : Bytes :=
  (obj (strings (content.insertionSort fun a b => a.1 ≤ b.1))).print

def restore (db : DB) (content : AssocMap Bytes Bytes) : DB :=
  writeAll db (readContent (marshalContent content))

/-! ## Runs -/

inductive Event where
  | save (tx : Bytes)
  | generate (version : ℤ) (set nextset : ValidatorSet)

def step (s : Accounts) : Event → Accounts
  | .save tx => s.saveTx tx
  | .generate version set nextset => s.generateSnapshotFast version set nextset

def run (es : List Event) : Accounts := es.foldl step Accounts.init

def Event.tx : Event → Option Bytes
  | .save tx => some tx
  | .generate _ _ _ => none

def saved (es : List Event) : List Bytes := es.filterMap Event.tx

/-- Each account is in the snapshot as the database has it and as a full snapshot would store it,
and a node that has no entry for it gets this one. The empty name is no account. -/
structure Matches (s : Accounts) : Prop where
  database : ∀ k ≠ [], AssocMap.lookup k s.snapshot.content = s.db k
  full : ∀ k ≠ [], AssocMap.lookup k s.snapshot.content = getAllStates s.db k
  restored : ∀ k ≠ [], ∀ db : DB, db k = none → restore db s.snapshot.content k = s.db k

/-! ## What a transaction does to an account -/

/-- What the cache records of the log. -/
def credit (a : AccountLog) (k : Bytes) : Int64 :=
  (if k = a.fromAccount then -a.amount else 0) + (if k = a.toAccount then a.amount else 0)

def creditTx (k : Bytes) (tx : Bytes) : Int64 := (parseTx tx).elim 0 fun a => credit a k

def credited (txs : List Bytes) (k : Bytes) : Int64 := (txs.map (creditTx k)).sum

/-- The transaction writes the account. -/
def Names (tx k : Bytes) : Prop := ∃ a, parseTx tx = some a ∧ (k = a.fromAccount ∨ k = a.toAccount)

/-- The transaction overwrites the account. -/
def Sets (tx k : Bytes) : Prop := ∃ a, parseTx tx = some a ∧ a.fromAccount = [] ∧ k = a.toAccount

variable {k : Bytes}

lemma not_names_ofType {tx : Bytes} {ty : Bytes} (htx : parseTx tx = some (AccountLog.ofType ty))
    (hk : k ≠ []) : ¬ Names tx k := by
  rintro ⟨a, ha, hor⟩
  obtain rfl : AccountLog.ofType ty = a := Option.some.inj (htx.symm.trans ha)
  exact hk (hor.elim id id)

lemma Sets.names {tx : Bytes} (h : Sets tx k) : Names tx k := by
  obtain ⟨a, ha, -, hk⟩ := h
  exact ⟨a, ha, Or.inr hk⟩

lemma creditTx_of_not_names {tx : Bytes} (h : ¬ Names tx k) : creditTx k tx = 0 := by
  unfold creditTx
  cases ha : parseTx tx with
  | none => rfl
  | some a =>
    have hfrom : k ≠ a.fromAccount := fun he => h ⟨a, ha, Or.inl he⟩
    have hto : k ≠ a.toAccount := fun he => h ⟨a, ha, Or.inr he⟩
    simp [credit, hfrom, hto]

lemma mem_keys_txOps (tx : Bytes) (hk : k ≠ []) :
    k ∈ (txOps tx).map Ledger.Op.key ↔ Names tx k := by
  unfold txOps
  cases ha : parseTx tx with
  | none => simp [Names, ha]
  | some a =>
    rcases parseTx_cases ha with ⟨ty, -, rfl⟩ | hty
    · refine iff_of_false ?_ (not_names_ofType ha hk)
      rw [Option.elim_some, AccountLog.ops_ofType]
      split_ifs <;> simp [Ledger.Op.key, hk]
    · rw [Option.elim_some, a.ops_transfer hty]
      split_ifs with hfrom
      · simp [Ledger.Op.key, Names, ha]
      · rw [not_not] at hfrom
        simp [Ledger.Op.key, Names, ha, hfrom, hk]

/-- A balance is added to; an overwritten one starts from zero. -/
lemma balance_execTx (db : DB) (tx : Bytes) (hk : k ≠ []) :
    (Sets tx k → balance (execTx db tx) k = creditTx k tx) ∧
      (¬ Sets tx k → balance (execTx db tx) k = balance db k + creditTx k tx) := by
  by_cases hn : Names tx k
  · obtain ⟨a, ha, hor⟩ := hn
    have hexec : execTx db tx = a.save db := by rw [execTx, ha]
    have hcredit : creditTx k tx = credit a k := by rw [creditTx, ha, Option.elim_some]
    have hsets : Sets tx k ↔ a.fromAccount = [] ∧ k = a.toAccount := by simp [Sets, ha]
    rcases parseTx_cases ha with ⟨ty, -, rfl⟩ | hty
    · exact absurd ⟨_, ha, hor⟩ (not_names_ofType ha hk)
    rw [hexec, hcredit, hsets, a.save_eq_applyOps, balance_applyOps, a.ops_transfer hty]
    by_cases hfrom : a.fromAccount = []
    · obtain rfl : k = a.toAccount := hor.resolve_left fun he => hk (he.trans hfrom)
      simp [hfrom, hk, credit, Ledger.Op.act]
    · rw [if_pos hfrom]
      refine ⟨fun h => absurd h.1 hfrom, fun _ => ?_⟩
      simp only [Ledger.run_cons, Ledger.run_nil, Ledger.Op.act_add_eq, Pi.single_apply, credit,
        add_assoc]
  · refine ⟨fun h => absurd h.names hn, fun _ => ?_⟩
    rw [creditTx_of_not_names hn, add_zero]
    unfold execTx
    cases ha : parseTx tx with
    | none => rfl
    | some a =>
      have hfrom : k ≠ a.fromAccount := fun he => hn ⟨a, ha, Or.inl he⟩
      have hto : k ≠ a.toAccount := fun he => hn ⟨a, ha, Or.inr he⟩
      simp only [balance]
      rw [a.save_other db hfrom hto]

/-- What operations leave at a key is the decimal text of a balance. -/
lemma applyOps_apply (db : DB) (ops : List (Ledger.Op Bytes Int64)) (k : Bytes) :
    applyOps db ops k = if k ∈ ops.map Ledger.Op.key then
      some (digit2byte (balance (applyOps db ops) k)) else db k := by
  induction ops using List.reverseRecOn with
  | nil => rfl
  | append_singleton ops o ih =>
    have hlast : applyOps db (ops ++ [o]) = applyOp (applyOps db ops) o := List.foldl_concat ..
    have hset : ∃ v,
        applyOp (applyOps db ops) o = (applyOps db ops).set o.key (digit2byte v) := by
      cases o with
      | add key v => exact ⟨_, rfl⟩
      | put key v => exact ⟨_, rfl⟩
    obtain ⟨v, hv⟩ := hset
    rw [hlast, hv, balance_set]
    by_cases hk : k = o.key
    · rw [hk, DB.set_same, if_pos rfl, if_pos (by simp)]
    · rw [DB.set_other _ _ hk, ih]
      simp [hk]

lemma execTxs_apply (txs : List Bytes) (hk : k ≠ []) :
    (∃ tx ∈ txs, Names tx k) ∧
        execTxs emptyAccounts txs k = some (digit2byte (balance (execTxs emptyAccounts txs) k)) ∨
      (∀ tx ∈ txs, ¬ Names tx k) ∧ execTxs emptyAccounts txs k = none := by
  have hmem : k ∈ (blockOps txs).map Ledger.Op.key ↔ ∃ tx ∈ txs, Names tx k := by
    simp only [blockOps, List.map_flatMap, List.mem_flatMap, mem_keys_txOps _ hk]
  by_cases h : ∃ tx ∈ txs, Names tx k
  · left
    refine ⟨h, ?_⟩
    conv_lhs => rw [execTxs_eq_applyOps, applyOps_apply, if_pos (hmem.mpr h)]
    rw [execTxs_eq_applyOps]
  · right
    refine ⟨by simpa using h, ?_⟩
    rw [execTxs_eq_applyOps, applyOps_apply, if_neg (fun hc => h (hmem.mp hc))]
    rfl

@[simp] lemma execTxs_concat (db : DB) (txs : List Bytes) (tx : Bytes) :
    execTxs db (txs ++ [tx]) = execTx (execTxs db txs) tx := List.foldl_concat ..

@[simp] lemma credited_concat (txs : List Bytes) (tx k : Bytes) :
    credited (txs ++ [tx]) k = credited txs k + creditTx k tx := by
  simp [credited]

/-- The amounts add up to the balance at every point just when no balance but zero is
overwritten. -/
lemma credited_eq_balance_iff (txs : List Bytes) (hk : k ≠ []) :
    (∀ before, before <+: txs → credited before k = balance (execTxs emptyAccounts before) k) ↔
      ∀ before tx after, txs = before ++ tx :: after → Sets tx k →
        balance (execTxs emptyAccounts before) k = 0 := by
  constructor
  · rintro h before tx after rfl hsets
    have hbefore := h before (List.prefix_append ..)
    have hafter := h (before ++ [tx]) ⟨after, by simp⟩
    rw [credited_concat, execTxs_concat, (balance_execTx _ tx hk).1 hsets, hbefore] at hafter
    exact add_eq_right.mp hafter
  · intro h before
    induction before using List.reverseRecOn with
    | nil =>
      intro _
      rfl
    | append_singleton before tx ih =>
      intro hpre
      have hsum := ih ((List.prefix_append ..).trans hpre)
      rw [credited_concat, execTxs_concat, hsum]
      by_cases hsets : Sets tx k
      · obtain ⟨after, rfl⟩ := hpre
        have hzero := h before tx after (by simp) hsets
        rw [(balance_execTx _ tx hk).1 hsets, hzero, zero_add]
      · rw [(balance_execTx _ tx hk).2 hsets]

/-! ## The cache and the merge -/

lemma mem_keys_setSnapshotCache (cache : AssocMap Bytes Int64) (key : Bytes) (amount : Int64)
    (incr : Bool) (hk : k ≠ []) :
    k ∈ (setSnapshotCache cache key amount incr).keys ↔ k ∈ cache.keys ∨ k = key := by
  unfold setSnapshotCache
  by_cases hkey : key = []
  · rw [hkey]
    simp [hk]
  · rw [if_neg hkey, AssocMap.mem_keys, AssocMap.lookup_set, AssocMap.mem_keys]
    by_cases h : key = k
    · simp [h]
    · simp [h, Ne.symm h]

lemma lookup_setSnapshotCache (cache : AssocMap Bytes Int64) (key : Bytes) (amount : Int64)
    (incr : Bool) (hk : k ≠ []) :
    ((setSnapshotCache cache key amount incr).lookup k).getD 0 =
      (cache.lookup k).getD 0 + if k = key then (if incr then amount else -amount) else 0 := by
  unfold setSnapshotCache
  by_cases hkey : key = []
  · rw [if_pos hkey, hkey, if_neg hk, add_zero]
  · rw [if_neg hkey, AssocMap.lookup_set]
    by_cases h : key = k
    · subst h
      cases incr <;> simp [sub_eq_add_neg]
    · simp [h, Ne.symm h]

lemma ne_nil_of_mem_setSnapshotCache {cache : AssocMap Bytes Int64} {key : Bytes}
    {amount : Int64} {incr : Bool} (hcache : [] ∉ cache.keys) :
    [] ∉ (setSnapshotCache cache key amount incr).keys := by
  unfold setSnapshotCache
  by_cases hkey : key = []
  · rwa [if_pos hkey]
  · rwa [if_neg hkey, AssocMap.mem_keys, AssocMap.lookup_set, if_neg hkey, ← AssocMap.mem_keys]

lemma nodup_setSnapshotCache {cache : AssocMap Bytes Int64} (h : cache.keys.Nodup) (key : Bytes)
    (amount : Int64) (incr : Bool) : (setSnapshotCache cache key amount incr).keys.Nodup := by
  unfold setSnapshotCache
  split_ifs
  · exact h
  · exact AssocMap.nodup_keys_set _ _ _ h
  · exact AssocMap.nodup_keys_set _ _ _ h

variable {content : AssocMap Bytes Bytes}

lemma nodup_merge (h : content.keys.Nodup)
    (cache : AssocMap Bytes Int64) : (cache.foldl Accounts.mergeEntry content).keys.Nodup := by
  induction cache generalizing content with
  | nil => exact h
  | cons e cache ih => exact ih (AssocMap.nodup_keys_set _ _ _ h)

/-- Each cached amount is added to the text of its account. -/
lemma lookup_merge {cache : AssocMap Bytes Int64} (hcache : cache.keys.Nodup)
    (content : AssocMap Bytes Bytes) (k : Bytes) :
    (cache.foldl Accounts.mergeEntry content).lookup k =
      ((cache.lookup k).map fun v => digit2byte (byte2digit (content.lookup k) + v)).or
        (content.lookup k) := by
  induction cache generalizing content with
  | nil => rfl
  | cons e cache ih =>
    obtain ⟨hnot, hrest⟩ := List.nodup_cons.mp hcache
    obtain ⟨key, v⟩ := e
    rw [List.foldl_cons, ih hrest, Accounts.mergeEntry, AssocMap.lookup_set, AssocMap.lookup]
    by_cases hk : key = k
    · subst hk
      have hnone : AssocMap.lookup key cache = none := by
        rw [← Option.not_isSome_iff_eq_none, ← AssocMap.mem_keys]
        exact hnot
      simp [hnone]
    · simp [hk]

/-! ## Runs and what they record -/

/-- What the snapshot and the cache say of an account together. -/
def Accounts.recorded (s : Accounts) (k : Bytes) : Int64 :=
  byte2digit (AssocMap.lookup k s.snapshot.content) + (s.snapshotCache.lookup k).getD 0

/-- The state after the transactions, wherever snapshots were generated. -/
structure Tracks (s : Accounts) (txs : List Bytes) : Prop where
  db : s.db = execTxs emptyAccounts txs
  nodup_cache : s.snapshotCache.keys.Nodup
  nodup_content : (AssocMap.keys s.snapshot.content).Nodup
  nonempty : [] ∉ s.snapshotCache.keys ∧ [] ∉ AssocMap.keys s.snapshot.content
  named : ∀ k ≠ [], (k ∈ s.snapshotCache.keys ∨ k ∈ AssocMap.keys s.snapshot.content) ↔
    ∃ tx ∈ txs, Names tx k
  recorded : ∀ k ≠ [], s.recorded k = credited txs k
  decimal : ∀ k v, AssocMap.lookup k s.snapshot.content = some v →
    v = digit2byte (byte2digit (some v))

lemma tracks_empty (version : ℤ) (set nextset : Option ValidatorSet) :
    Tracks ⟨emptyAccounts, [], ⟨version, [], set, nextset⟩⟩ [] where
  db := rfl
  nodup_cache := List.nodup_nil
  nodup_content := List.nodup_nil
  nonempty := ⟨List.not_mem_nil, List.not_mem_nil⟩
  named k _ := by simp [AssocMap.keys]
  recorded k _ := rfl
  decimal k v h := by cases h

variable {s : Accounts} {txs : List Bytes}

lemma Tracks.of_unnamed (h : Tracks s txs) {tx : Bytes} (hdb : execTx s.db tx = s.db)
    (hnames : ∀ k ≠ [], ¬ Names tx k) : Tracks s (txs ++ [tx]) where
  db := by rw [execTxs_concat, ← h.db, hdb]
  nodup_cache := h.nodup_cache
  nodup_content := h.nodup_content
  nonempty := h.nonempty
  named k hk := by simp [h.named k hk, hnames k hk]
  recorded k hk := by
    rw [credited_concat, creditTx_of_not_names (hnames k hk), add_zero, h.recorded k hk]
  decimal := h.decimal

lemma Tracks.saveTx (h : Tracks s txs) (tx : Bytes) : Tracks (s.saveTx tx) (txs ++ [tx]) := by
  unfold Accounts.saveTx
  cases ha : parseTx tx with
  | none =>
    refine h.of_unnamed (by rw [execTx, ha]) ?_
    rintro k - ⟨a, ha', -⟩
    rw [ha] at ha'
    cases ha'
  | some a =>
    have hexec : execTx s.db tx = a.save s.db := by rw [execTx, ha]
    have hcredit : ∀ k, creditTx k tx = credit a k := by
      intro k
      rw [creditTx, ha, Option.elim_some]
    dsimp only
    unfold Accounts.save
    by_cases hty : a.txType = lit "checkpoint" ∨ a.txType = lit "addtx"
    · rw [if_pos hty]
      refine h.of_unnamed (by rw [hexec, AccountLog.save, if_pos hty]) ?_
      rcases parseTx_cases ha with ⟨ty, -, rfl⟩ | htx
      · exact fun k hk => not_names_ofType ha hk
      · rw [htx] at hty
        exact absurd hty (by decide)
    · rw [if_neg hty]
      constructor
      · rw [execTxs_concat, ← h.db, hexec]
      · exact nodup_setSnapshotCache (nodup_setSnapshotCache h.nodup_cache _ _ _) _ _ _
      · exact h.nodup_content
      · exact ⟨ne_nil_of_mem_setSnapshotCache (ne_nil_of_mem_setSnapshotCache h.nonempty.1),
          h.nonempty.2⟩
      · intro k hk
        have hnames : Names tx k ↔ k = a.fromAccount ∨ k = a.toAccount := by simp [Names, ha]
        have hold := h.named k hk
        simp only [mem_keys_setSnapshotCache _ _ _ _ hk, List.mem_append, List.mem_singleton,
          or_and_right, exists_or, exists_eq_left, ← hold]
        tauto
      · intro k hk
        have hold := h.recorded k hk
        unfold Accounts.recorded at hold ⊢
        rw [lookup_setSnapshotCache _ _ _ _ hk, lookup_setSnapshotCache _ _ _ _ hk,
          credited_concat, hcredit, ← hold, credit]
        simp only [Bool.false_eq_true, if_false, if_true, add_assoc]
      · exact h.decimal

lemma Tracks.generate (h : Tracks s txs) (version : ℤ) (set nextset : ValidatorSet) :
    Tracks (s.generateSnapshotFast version set nextset) txs := by
  have hlookup := lookup_merge h.nodup_cache s.snapshot.content
  have hkeys : ∀ k,
      k ∈ AssocMap.keys (s.snapshotCache.foldl Accounts.mergeEntry s.snapshot.content) ↔
        k ∈ s.snapshotCache.keys ∨ k ∈ AssocMap.keys s.snapshot.content := by
    intro k
    rw [AssocMap.mem_keys, AssocMap.mem_keys, AssocMap.mem_keys, hlookup]
    simp
  constructor
  · exact h.db
  · exact List.nodup_nil
  · exact nodup_merge h.nodup_content _
  · exact ⟨List.not_mem_nil, fun hc => ((hkeys []).mp hc).elim h.nonempty.1 h.nonempty.2⟩
  · intro k hk
    rw [← h.named k hk, ← hkeys]
    simp [Accounts.generateSnapshotFast, AssocMap.keys]
  · intro k hk
    rw [← h.recorded k hk]
    unfold Accounts.recorded Accounts.generateSnapshotFast
    rw [hlookup]
    cases s.snapshotCache.lookup k with
    | none => rfl
    | some v => simp [byte2digit, digit2byte, AssocMap.lookup]
  · intro k v hv
    have hv' : _ = some v := (hlookup k).symm.trans hv
    cases hc : s.snapshotCache.lookup k with
    | none =>
      rw [hc] at hv'
      exact h.decimal k v hv'
    | some w =>
      rw [hc] at hv'
      cases hv'
      simp [byte2digit, digit2byte]

lemma tracks_run (es : List Event) : Tracks (run es) (saved es) := by
  induction es using List.reverseRecOn with
  | nil => exact tracks_empty 0 none none
  | append_singleton es e ih =>
    have hlast : run (es ++ [e]) = step (run es) e := List.foldl_concat ..
    rw [hlast, saved, List.filterMap_append]
    cases e with
    | save tx => exact ih.saveTx tx
    | generate version set nextset =>
      rw [show List.filterMap Event.tx [.generate version set nextset] = [] from rfl,
        List.append_nil]
      exact ih.generate version set nextset

lemma Tracks.lookup_content (h : Tracks s txs) (hcache : s.snapshotCache = []) (hk : k ≠ []) :
    (∃ tx ∈ txs, Names tx k) ∧
        AssocMap.lookup k s.snapshot.content = some (digit2byte (credited txs k)) ∨
      (∀ tx ∈ txs, ¬ Names tx k) ∧ AssocMap.lookup k s.snapshot.content = none := by
  have hnamed := h.named k hk
  have hrecorded := h.recorded k hk
  rw [hcache, AssocMap.mem_keys, AssocMap.mem_keys] at hnamed
  rw [Accounts.recorded, hcache] at hrecorded
  cases hv : AssocMap.lookup k s.snapshot.content with
  | none =>
    simpa [hv, AssocMap.lookup] using hnamed
  | some v =>
    left
    refine ⟨by simpa [hv] using hnamed, ?_⟩
    rw [← hrecorded, hv, h.decimal k v hv]
    simp [AssocMap.lookup, byte2digit, digit2byte]

/-! ## Restoring -/

lemma validUtf8_digit2byte (n : Int64) : ValidUtf8 (digit2byte n) := by
  have hdigits : ∀ m : ℕ, ∀ c ∈ formatNat m, c < 0x80 := by
    intro m c hc
    have := formatNat_isDigit m c hc
    simp only [isDigit] at this
    grind
  refine toValid_of_ascii _ ?_
  unfold digit2byte formatInt
  split_ifs
  · intro c hc
    rcases List.mem_cons.mp hc with rfl | hc
    · decide
    · exact hdigits _ c hc
  · exact hdigits _

lemma validUtf8_content (tx : Bytes) :
    ValidUtf8 (unmarshal (decodeStruct TxArg.fields) TxArg.zero tx).1.content := by
  unfold unmarshal
  cases hp : parse tx with
  | none => rfl
  | some v =>
    have hv := repair_of_parse hp
    cases v with
    | obj kvs =>
      refine decodeMembers_invariant (fun t : TxArg => ValidUtf8 t.content) ?_
        (by simpa [Json.repair] using hv) rfl
      intro f hf t v hv ht
      simp only [TxArg.fields, List.mem_cons, List.not_mem_nil, or_false] at hf
      rcases hf with rfl | rfl | rfl | rfl | rfl | rfl | rfl
      · exact ht
      · exact ht
      · exact ht
      · exact ht
      · exact validUtf8_decodeString ht hv
      · exact ht
      · exact ht
    | _ => rfl

/-- The names of accounts are read from JSON texts. -/
lemma Names.validUtf8 {tx : Bytes} (h : Names tx k) (hk : k ≠ []) : ValidUtf8 k := by
  obtain ⟨a, ha, hor⟩ := h
  have hcontent := validUtf8_content tx
  simp only [parseTx] at ha
  split_ifs at ha with hok hty
  · cases ha
    exact absurd (hor.elim id id) hk
  · unfold parseTransfer at ha
    split at ha
    · rename_i from' to' amount time hsplit
      split_ifs at ha
      cases ha
      have hjoin := join_cons from' [to', amount, time] 95
      rw [← hsplit, join, split, List.intercalate_splitOn] at hjoin
      rw [hjoin] at hcontent
      obtain ⟨hfrom, hrest⟩ := hcontent.of_append_ascii (by decide)
      obtain ⟨hto, -⟩ := hrest.of_append_ascii (by decide)
      rcases hor with rfl | rfl
      · exact hfrom
      · exact hto
    · cases ha

lemma numsOk_strings (es : List (Bytes × Bytes)) : NumsOkMembers (strings es) := by
  induction es with
  | nil => trivial
  | cons e es ih => exact ⟨trivial, ih⟩

lemma repairMembers_strings {es : List (Bytes × Bytes)}
    (h : ∀ e ∈ es, ValidUtf8 e.1 ∧ ValidUtf8 e.2) : repairMembers (strings es) = strings es := by
  induction es with
  | nil => rfl
  | cons e es ih =>
    obtain ⟨⟨hkey, hval⟩, hes⟩ := List.forall_mem_cons.mp h
    have hcons : strings (e :: es) = (e.1, str e.2) :: strings es := rfl
    rw [hcons, repairMembers, repair, ih hes, hkey, hval]

lemma readContent_marshalContent (hnodup : content.keys.Nodup)
    (hvalid : ∀ e ∈ content, ValidUtf8 e.1 ∧ ValidUtf8 e.2) :
    readContent (marshalContent content) = content.insertionSort fun a b => a.1 ≤ b.1 := by
  set sorted := content.insertionSort fun a b => a.1 ≤ b.1 with hsorted
  have hperm : sorted.Perm content := List.perm_insertionSort _ _
  have hsorted_valid : ∀ e ∈ sorted, ValidUtf8 e.1 ∧ ValidUtf8 e.2 := by
    intro e he
    exact hvalid e (hperm.mem_iff.mp he)
  have hparse : parse (marshalContent content) = some (obj (strings sorted)) := by
    have hprint := parse_print (obj (strings sorted)) (numsOk_strings sorted)
    rwa [repair, repairMembers_strings hsorted_valid] at hprint
  rw [readContent, hparse]
  dsimp only
  rw [strings, List.foldl_map]
  exact AssocMap.foldl_set_of_nodup sorted [] ((hperm.map Prod.fst).nodup_iff.mpr hnodup)

lemma restore_apply (hnodup : content.keys.Nodup)
    (hvalid : ∀ e ∈ content, ValidUtf8 e.1 ∧ ValidUtf8 e.2) {db : DB} (hdb : db k = none) :
    restore db content k = content.lookup k := by
  have hperm := List.perm_insertionSort (fun a b : Bytes × Bytes => a.1 ≤ b.1) content
  have hsorted : ((content.insertionSort fun a b => a.1 ≤ b.1).map Prod.fst).Nodup :=
    (hperm.map Prod.fst).nodup_iff.mpr hnodup
  rw [restore, readContent_marshalContent hnodup hvalid]
  cases hv : content.lookup k with
  | none =>
    rw [writeAll_of_notMem, hdb]
    intro hmem
    have : k ∈ content.keys := (hperm.map Prod.fst).mem_iff.mp hmem
    rw [AssocMap.mem_keys, hv] at this
    cases this
  | some v =>
    exact writeAll_of_mem hsorted (hperm.mem_iff.mpr (AssocMap.mem_of_lookup hv)) db

/-- The entries of every reached snapshot survive the transport. -/
lemma Tracks.valid (h : Tracks s txs) :
    ∀ e ∈ s.snapshot.content, ValidUtf8 e.1 ∧ ValidUtf8 e.2 := by
  intro e he
  have hkey : e.1 ∈ AssocMap.keys s.snapshot.content := List.mem_map.mpr ⟨e, he, rfl⟩
  have hne : e.1 ≠ [] := by
    intro hnil
    rw [hnil] at hkey
    exact h.nonempty.2 hkey
  obtain ⟨tx, -, hnames⟩ := (h.named e.1 hne).mp (Or.inr hkey)
  have hval := h.decimal e.1 e.2 ((AssocMap.lookup_eq_some_iff h.nodup_content).mpr he)
  refine ⟨hnames.validUtf8 hne, ?_⟩
  rw [hval]
  exact validUtf8_digit2byte _

/-! ## Incremental and full snapshots -/

lemma digit2byte_injective : Function.Injective digit2byte := by
  intro m n h
  have hatoi := congrArg (fun bz => (atoi bz).1) h
  simpa [digit2byte] using hatoi

lemma credited_of_unnamed (h : ∀ tx ∈ txs, ¬ Names tx k) : credited txs k = 0 := by
  refine List.sum_eq_zero ?_
  intro c hc
  obtain ⟨tx, htx, rfl⟩ := List.mem_map.mp hc
  exact creditTx_of_not_names (h tx htx)

lemma Tracks.lookup_content_eq_iff (h : Tracks s txs) (hcache : s.snapshotCache = [])
    (hk : k ≠ []) : AssocMap.lookup k s.snapshot.content = s.db k ↔
      credited txs k = balance (execTxs emptyAccounts txs) k := by
  rw [h.db]
  rcases h.lookup_content hcache hk with ⟨hnamed, hlookup⟩ | ⟨hnot, hlookup⟩
  · rcases execTxs_apply txs hk with ⟨-, hdb⟩ | ⟨hnot, -⟩
    · rw [hlookup, hdb, Option.some.injEq, digit2byte_injective.eq_iff]
    · obtain ⟨tx, htx, hnames⟩ := hnamed
      exact absurd hnames (hnot tx htx)
  · rcases execTxs_apply txs hk with ⟨⟨tx, htx, hnames⟩, -⟩ | ⟨-, hdb⟩
    · exact absurd hnames (hnot tx htx)
    · refine iff_of_true (hlookup.trans hdb.symm) ?_
      rw [credited_of_unnamed hnot, balance, hdb]
      rfl

/-- A new snapshot matches when the recorded amounts are the balances and the named
accounts are among the states. -/
lemma Tracks.matches_iff (h : Tracks s txs) (hcache : s.snapshotCache = []) :
    Matches s ↔ ∀ k ≠ [], credited txs k = balance (execTxs emptyAccounts txs) k ∧
      ((∃ tx ∈ txs, Names tx k) → InStates k) := by
  constructor
  · intro hm k hk
    refine ⟨(h.lookup_content_eq_iff hcache hk).mp (hm.database k hk), ?_⟩
    rintro ⟨tx, htx, hnames⟩
    rcases h.lookup_content hcache hk with ⟨-, hlookup⟩ | ⟨hnot, -⟩
    · have hfull := hm.full k hk
      rw [hlookup, getAllStates] at hfull
      by_contra hout
      rw [if_neg hout] at hfull
      cases hfull
    · exact absurd hnames (hnot tx htx)
  · intro hall
    have hdatabase : ∀ k ≠ [], AssocMap.lookup k s.snapshot.content = s.db k := fun k hk =>
      (h.lookup_content_eq_iff hcache hk).mpr (hall k hk).1
    refine ⟨hdatabase, ?_, ?_⟩
    · intro k hk
      rw [hdatabase k hk, getAllStates]
      by_cases hin : InStates k
      · rw [if_pos hin]
      · rcases execTxs_apply txs hk with ⟨hnamed, -⟩ | ⟨-, hdb⟩
        · exact absurd ((hall k hk).2 hnamed) hin
        · rw [if_neg hin, h.db, hdb]
    · intro k hk db hdb
      rw [restore_apply h.nodup_content h.valid hdb, hdatabase k hk]

/-- After every snapshot of every run over the transactions the content matches the
database, just when none of them overwrites a balance other than zero or names an
account outside the range of a full snapshot. -/
theorem snapshots_match_iff (txs : List Bytes) :
    (∀ es version set nextset, saved es <+: txs →
        Matches ((run es).generateSnapshotFast version set nextset)) ↔
      ∀ before tx after, txs = before ++ tx :: after → ∀ k ≠ [],
        (Sets tx k → balance (execTxs emptyAccounts before) k = 0) ∧ (Names tx k → InStates k) := by
  have hmatches : ∀ es version set nextset,
      Matches ((run es).generateSnapshotFast version set nextset) ↔ _ :=
    fun es version set nextset => ((tracks_run es).generate version set nextset).matches_iff rfl
  constructor
  · intro h
    -- a snapshot after each transaction
    have hpoint : ∀ before, before <+: txs → ∀ k ≠ [],
        credited before k = balance (execTxs emptyAccounts before) k ∧
          ((∃ tx ∈ before, Names tx k) → InStates k) := by
      intro before hpre
      have hsaved : saved (before.map Event.save) = before := by
        rw [saved, List.filterMap_map]
        exact List.filterMap_some
      have hm := (hmatches (before.map Event.save) 0 ⟨[], none⟩ ⟨[], none⟩).mp
        (h _ _ _ _ (hsaved.symm ▸ hpre))
      rwa [hsaved] at hm
    intro before tx after htxs k hk
    constructor
    · exact (credited_eq_balance_iff txs hk).mp (fun pre hpre => (hpoint pre hpre k hk).1)
        before tx after htxs
    · intro hnames
      exact (hpoint txs (List.prefix_refl _) k hk).2 ⟨tx, by simp [htxs], hnames⟩
  · intro h es version set nextset hpre
    rw [hmatches]
    intro k hk
    constructor
    · refine (credited_eq_balance_iff txs hk).mpr ?_ _ hpre
      intro before tx after htxs
      exact (h before tx after htxs k hk).1
    · rintro ⟨tx, htx, hnames⟩
      obtain ⟨before, after, htxs⟩ := List.append_of_mem (hpre.subset htx)
      exact (h before tx after htxs k hk).2 hnames

/-- The snapshot of version 1 after the transactions. -/
def snapshotAfter (txs : List Bytes) : Accounts :=
  (run (txs.map Event.save)).generateSnapshotFast 1 ⟨[], none⟩ ⟨[], none⟩

/-- A balance that is set twice. -/
def setTwice : List Bytes := [transferText "_alice_5_0", transferText "_alice_7_1"]

/-- An account that sorts after the states. -/
def lateName : List Bytes := [transferText "_zoe_5_0"]

/-- The overwritten balance is added to the snapshot, and only the incremental snapshot has the
account with the late name. -/
theorem snapshot_adds_overwritten_balance :
    (snapshotAfter setTwice).db (lit "alice") = some (lit "7") ∧
      (snapshotAfter setTwice).snapshot.content = [(lit "alice", lit "12")] ∧
      ¬ Matches (snapshotAfter setTwice) ∧
      (snapshotAfter lateName).snapshot.content = [(lit "zoe", lit "5")] ∧
      getAllStates (snapshotAfter lateName).db (lit "zoe") = none ∧
      ¬ Matches (snapshotAfter lateName) := by
  have hdb : (snapshotAfter setTwice).db (lit "alice") = some (lit "7") := by decide +kernel
  have hcontent : (snapshotAfter setTwice).snapshot.content = [(lit "alice", lit "12")] := by
    decide +kernel
  have hlate : (snapshotAfter lateName).snapshot.content = [(lit "zoe", lit "5")] := by
    decide +kernel
  refine ⟨hdb, hcontent, ?_, hlate, by decide +kernel, ?_⟩
  · intro h
    have hsame := h.database (lit "alice") (by decide)
    rw [hcontent, hdb] at hsame
    exact absurd hsame (by decide)
  · intro h
    have hsame := h.full (lit "zoe") (by decide)
    rw [hlate] at hsame
    exact absurd hsame (by decide)

end ShardingBC.IncrementalSnapshots
