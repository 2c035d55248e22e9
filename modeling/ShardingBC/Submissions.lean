import ShardingBC.MempoolPanics
import ShardingBC.Receipts

/-!
# What a refused submission leaves behind

`CheckTxWithInfo` puts the transaction into the cache before it looks at the content and takes it
out again only in the answer of the application. A verified message erases the pending messages it
acknowledges before its transactions are looked at.
-/
namespace ShardingBC

/-- The ways in which `CheckTxWithInfo` comes back. -/
inductive Reply where
  | accepted
  | refused (e : MempoolError)
  | proxyAppError
  | panicked
deriving DecidableEq, Repr

/-- An error other than `ErrTxInCache`. -/
def Reply.Rejects (r : Reply) : Prop :=
  r = .proxyAppError ∨ ∃ e, e ≠ .txInCache ∧ r = .refused e

lemma TxCache.push_of_not_holds {k : Digest} {c : TxCache} (h : ¬ c.Holds k) :
    (c.push k).1 = true := by
  cases c with
  | map size list =>
    rw [push, if_neg (show k ∉ list from h)]
  | nop => rfl

/-- Only without a cache does an admitted key leave it as it was. -/
lemma TxCache.push_eq_self_iff {k : Digest} {c : TxCache} (h : (c.push k).1 = true) :
    (c.push k).2 = c ↔ c = .nop := by
  cases c with
  | map size list =>
    have hk : k ∉ list := not_holds_of_push h
    rw [push, if_neg hk]
    refine iff_of_false ?_ (by simp)
    intro heq
    injection heq with _ hlist
    apply hk
    rw [← hlist]
    simp
  | nop => simp [push]

namespace Mempool

variable {env : Env} {db : DB} {m : Mempool} {tx : Bytes} {peer : UInt16} {checkdb : Bool}

/-- `CheckTxWithInfo` with its error; `appError` is one of the connection to the application. -/
def submitTx (env : Env) (db : DB) (m : Mempool) (tx : Bytes) (peer : UInt16)
    (checkdb appError : Bool) : Reply × Mempool :=
  match m.requestCheck env db tx peer checkdb with
  | (.ok, m') => (if appError then .proxyAppError else .accepted, m')
  | (.err e, m') => (.refused e, m')
  | (.panic, m') => (.panicked, m')

/-- What a refused transaction should leave alone. -/
def SameTraces (m m' : Mempool) : Prop :=
  m'.cache = m.cache ∧ m'.txs = m.txs ∧ m'.txsBytes = m.txsBytes ∧ m'.cmDB = m.cmDB

/-- The transaction is a verified message that acknowledges a pending one. -/
def Acknowledges (env : Env) (m : Mempool) (checkdb : Bool) (tx : Bytes) : Prop :=
  checkdb = false ∧ ∃ cm, parseData tx = some (some cm) ∧ PassesSig env cm ∧ Reaches cm m.cmDB

lemma checkContent_cmDB_eq_iff : (m.checkContent env db tx checkdb).2.cmDB = m.cmDB ↔
    ¬ m.Acknowledges env checkdb tx := by
  unfold checkContent Acknowledges
  cases hp : parseData tx with
  | none => simp
  | some data =>
    cases data with
    | some cm =>
      cases checkdb with
      | true => simp
      | false =>
        obtain ⟨cmDB, heq, ⟨hsig, rfl⟩ | ⟨hsig, rfl⟩⟩ :=
          checkCrossMessageWithInfo_frame env db m cm
        · simp [heq, hsig, removeCrossMessagesDB_eq_self_iff]
        · simp [heq, hsig]
    | none =>
      cases hn : newTX tx with
      | none => simp
      | some t =>
        cases parseTx tx with
        | none => simp
        | some accountLog => simp

lemma checkTxlist_ne_txInCache (db : DB) (txs : List Bytes) :
    checkTxlist db txs ≠ .err .txInCache := by
  induction txs with
  | nil => simp [checkTxlist]
  | cons tx txs ih =>
    unfold checkTxlist
    split
    · simp
    · split_ifs
      · exact ih
      · simp

lemma checkContent_ne_txInCache : (m.checkContent env db tx checkdb).1 ≠ .err .txInCache := by
  unfold checkContent
  split
  · simp
  · split_ifs
    · simp
    · unfold checkCrossMessageWithInfo
      split_ifs
      · simp
      · dsimp only
        split
        · simp
        · simp
        · exact checkTxlist_ne_txInCache db _
  · split_ifs
    · simp
    · split
      · simp
      · split_ifs <;> simp

lemma submitTx_ne_txInCache {appError : Bool} (h : ¬ m.cache.Holds (txKey tx)) :
    (m.submitTx env db tx peer checkdb appError).1 ≠ .refused .txInCache := by
  have hrequest : (m.requestCheck env db tx peer checkdb).1 ≠ .err .txInCache := by
    unfold requestCheck
    split_ifs
    · simp
    · simp
    · simp
    · rw [if_neg (by simp [TxCache.push_of_not_holds h])]
      exact checkContent_ne_txInCache
  unfold submitTx
  split
  · split_ifs <;> simp
  · rename_i e m' he
    rw [he] at hrequest
    simpa using hrequest
  · simp

lemma submitTx_rejects_iff {appError : Bool} (h : m.PassesCache tx) :
    (m.submitTx env db tx peer checkdb appError).1.Rejects ↔
      ¬ CrashesChecks env checkdb tx ∧ (PassesChecks env db checkdb tx → appError = true) := by
  unfold submitTx
  rw [requestCheck_of_passesCache h]
  generalize { m with cache := (m.cache.push (txKey tx)).2 } = m1
  have hpanic : (m1.checkContent env db tx checkdb).1 = .panic ↔ _ := checkContent_panic_iff checkdb
  have hok : (m1.checkContent env db tx checkdb).1 = .ok ↔ _ := checkContent_ok_iff
  rw [← hpanic, ← hok]
  have hin : (m1.checkContent env db tx checkdb).1 ≠ .err .txInCache := checkContent_ne_txInCache
  split
  · next m' hc => cases appError <;> simp [hc, Reply.Rejects]
  · rename_i e m' hc
    simpa [hc, Reply.Rejects] using hin
  · next m' hc => simp [hc, Reply.Rejects]

@[simp] lemma submitTx_snd {appError : Bool} :
    (m.submitTx env db tx peer checkdb appError).2 =
      (m.requestCheck env db tx peer checkdb).2 := by
  unfold submitTx
  split
  · next h => rw [h]
  · next h => rw [h]
  · next h => rw [h]

/-- What the checks behind the cache leave alone. -/
lemma sameTraces_requestCheck_iff (h : m.PassesCache tx) :
    m.SameTraces (m.requestCheck env db tx peer checkdb).2 ↔
      m.cache = .nop ∧ ¬ m.Acknowledges env checkdb tx := by
  rw [requestCheck_of_passesCache h]
  generalize hm1 : { m with cache := (m.cache.push (txKey tx)).2 } = m1
  have hcache : m1.cache = (m.cache.push (txKey tx)).2 := by rw [← hm1]
  have htxs : m1.txs = m.txs := by rw [← hm1]
  have hbytes : m1.txsBytes = m.txsBytes := by rw [← hm1]
  have hcm : m1.cmDB = m.cmDB := by rw [← hm1]
  have hpending : (m1.checkContent env db tx checkdb).2.cmDB = m1.cmDB ↔
      ¬ m1.Acknowledges env checkdb tx := checkContent_cmDB_eq_iff
  unfold Acknowledges at hpending
  obtain ⟨cmDB, hframe, -⟩ := checkContent_frame env db m1 tx checkdb
  unfold SameTraces Acknowledges
  rw [hframe] at hpending ⊢
  rw [hcm] at hpending
  rw [hcache, htxs, hbytes, TxCache.push_eq_self_iff h.2.2.2, hpending]
  simp

/-- A submission that is answered with an error other than `ErrTxInCache` leaves the cache,
the list and the pending messages as they were, and the transaction can be submitted again,
if and only if it gets no further than the cache, or is not rejected, or there is no cache
and it acknowledges no pending message. -/
theorem rejected_leaves_no_trace_iff (env : Env) (db : DB) (m : Mempool) (tx : Bytes)
    (peer : UInt16) (checkdb appError : Bool) :
    ((m.submitTx env db tx peer checkdb appError).1.Rejects →
      m.SameTraces (m.submitTx env db tx peer checkdb appError).2 ∧
      (¬ m.cache.Holds (txKey tx) → ∀ (env' : Env) (db' : DB) (m' : Mempool) (peer' : UInt16)
        (checkdb' appError' : Bool),
        m'.cache = (m.submitTx env db tx peer checkdb appError).2.cache →
        (m'.submitTx env' db' tx peer' checkdb' appError').1 ≠ .refused .txInCache)) ↔
    (m.PassesCache tx → CrashesChecks env checkdb tx ∨
      (PassesChecks env db checkdb tx ∧ appError = false) ∨
      (m.cache = .nop ∧ ¬ m.Acknowledges env checkdb tx)) := by
  -- an unchanged cache gives the second part
  rw [and_iff_left_of_imp fun hsame hnew env' db' m' peer' checkdb' appError' hcache =>
    submitTx_ne_txInCache (by rwa [hcache, hsame.1])]
  by_cases hpass : m.PassesCache tx
  · have hsame : m.SameTraces (m.submitTx env db tx peer checkdb appError).2 ↔
        m.cache = .nop ∧ ¬ m.Acknowledges env checkdb tx := by
      rw [submitTx_snd]
      exact sameTraces_requestCheck_iff hpass
    rw [submitTx_rejects_iff hpass]
    constructor
    · intro h _
      by_cases hcrash : CrashesChecks env checkdb tx
      · exact Or.inl hcrash
      · by_cases hok : PassesChecks env db checkdb tx ∧ appError = false
        · exact Or.inr (Or.inl hok)
        · refine Or.inr (Or.inr (hsame.mp (h ⟨hcrash, fun hchecks => ?_⟩)))
          by_contra happ
          exact hok ⟨hchecks, by simpa using happ⟩
    · rintro h ⟨hcrash, happ⟩
      rcases h hpass with hc | ⟨hchecks, hno⟩ | hleft
      · exact absurd hc hcrash
      · rw [happ hchecks] at hno
        cases hno
      · exact hsame.mpr hleft
  · refine iff_of_true (fun hrej => ?_) (fun h => absurd h hpass)
    rcases requestCheck_of_not_passesCache env db peer checkdb hpass with ⟨e, he⟩ | ⟨m', hin⟩
    · rw [submitTx_snd, he]
      exact ⟨rfl, rfl, rfl, rfl⟩
    · simp [submitTx, hin, Reply.Rejects] at hrej

end Mempool

/-- The path of a tree with a second leaf. -/
def sidePath : Bytes := formatPath [(.right, sha256 [])]

/-- A verified message of shard B that acknowledges the message of shard A and carries a
text that is no transaction. -/
def spoiltReceipt : CrossMessages :=
  let item := ((simpleTreeFromByteSlices [lit "x"]).map fun smt => smt.computeRootHash.bytes).getD []
  let root := (((parsePath sidePath).getD []).foldl stepHash (leafHash item)).bytes
  { acknowledgementOf messageToB with
    txlist := some [lit "x"], srcZone := lit "B", desZone := lit "A", sig := some [1]
    pubkeys := some [1], treePath := sidePath, crossMerkleRoot := some root }

/-- It is refused, the pending message is gone, and a second submission is answered with
`ErrTxInCache`. -/
theorem refused_message_leaves_traces :
    let r := poolWithPending.submitTx (plainEnv "A") (fun _ => none) spoiltReceipt.data 0 false false
    r.1 = .refused .crossMessageTx ∧ poolWithPending.cmDB.length = 1 ∧ r.2.cmDB = [] ∧
      ¬ poolWithPending.cache.Holds (txKey spoiltReceipt.data) ∧
      (r.2.submitTx (plainEnv "A") (fun _ => none) spoiltReceipt.data 0 false false).1 =
        .refused .txInCache := by
  decide +kernel

end ShardingBC
