import ShardingBC.Recheck

/-!
# Which bytes crash the mempool

The results of `ParseData` and `NewTX` are dereferenced without a look at their errors. For each
entry the transactions are given on which it panics: the document `null`, a text that is no
transaction, a message with a malformed public key or with a text that is no transaction. A recheck
that meets a `configtx` in the list panics, or keeps its cursor there, and then the next transaction
panics. The connection to the application answers at once.
-/
namespace ShardingBC

open List Option

/-! ## Submissions -/

namespace Mempool

/-- The transaction gets to the checks behind the cache. -/
def PassesCache (m : Mempool) (tx : Bytes) : Prop :=
  ¬ (m.config.size ≤ Int64.ofNat m.txs.elems.length ∨
      Int64.ofNat tx.length + m.txsBytes > m.config.maxTxsBytes) ∧
    ¬ maxTxSize < tx.length ∧
    (m.preCheck.all fun maxBytes => preCheckAminoMaxBytes maxBytes tx) = true ∧
    (m.cache.push (txKey tx)).1 = true

variable {env : Env} {db : DB} {m : Mempool} {tx : Bytes} {peer : UInt16} {checkdb : Bool}

/-- The message decompresses and its public key cannot be decoded. -/
def BadPubkey (env : Env) (cm : CrossMessages) : Prop :=
  (cm.decompression env.gzip).1 = true ∧ env.getPubkeyFromByte (cm.pubkeys.getD []) = none

lemma checkTxlist_ne_panic (db : DB) (txs : List Bytes) : checkTxlist db txs ≠ .panic := by
  induction txs with
  | nil => simp [checkTxlist]
  | cons tx txs ih =>
    unfold checkTxlist
    split
    · simp
    · split_ifs
      · exact ih
      · simp

@[simp] lemma pubkeys_decompression (env : Env) (cm : CrossMessages) :
    (cm.decompression env.gzip).2.pubkeys = cm.pubkeys := by
  obtain ⟨txlist, data, flag, h⟩ := cm.decompression_frame env.gzip
  rw [h]

@[simp] lemma checkCrossMessageSig_eq_none_iff (cm : CrossMessages) :
    checkCrossMessageSig env cm = none ↔ env.getPubkeyFromByte (cm.pubkeys.getD []) = none := by
  unfold checkCrossMessageSig
  split
  · next h => simp [h]
  · rename_i pubkey h
    rw [h]
    split_ifs
    · split <;> simp
    · simp

lemma checkCrossMessageWithInfo_panic_iff (cm : CrossMessages) :
    (m.checkCrossMessageWithInfo env db cm).1 = .panic ↔ BadPubkey env cm := by
  unfold checkCrossMessageWithInfo BadPubkey
  have hsig : checkCrossMessageSig env (cm.decompression env.gzip).2 = none ↔ _ :=
    checkCrossMessageSig_eq_none_iff _
  rw [pubkeys_decompression] at hsig
  split_ifs with hd
  · simp [hd]
  · dsimp only
    rw [← hsig]
    split
    · next h => simpa [h] using hd
    · next h => simp [h]
    · next h => simp [h, checkTxlist_ne_panic]

/-- The transactions on which the checks behind the cache panic. -/
def CrashesChecks (env : Env) (checkdb : Bool) (tx : Bytes) : Prop :=
  parseData tx = none ∨ (parseData tx = some none ∧ newTX tx = none) ∨
    checkdb = false ∧ ∃ cm, parseData tx = some (some cm) ∧ BadPubkey env cm

/-- The account log of a transaction can be read and is legal. -/
def LegalTx (db : DB) (tx : Bytes) : Prop :=
  ∃ accountLog, parseTx tx = some accountLog ∧ accountLog.check db = true

/-- The checks behind the cache find nothing wrong. -/
def PassesChecks (env : Env) (db : DB) (checkdb : Bool) (tx : Bytes) : Prop :=
  (∃ cm, parseData tx = some (some cm) ∧ (checkdb = true ∨ PassesSig env cm ∧
    ∀ t ∈ (cm.decompression env.gzip).2.txlist.getD [], LegalTx db t)) ∨
  (parseData tx = some none ∧ (newTX tx).isSome ∧ LegalTx db tx)

@[simp] lemma checkTxlist_ok_iff (db : DB) (txs : List Bytes) :
    checkTxlist db txs = .ok ↔ ∀ tx ∈ txs, LegalTx db tx := by
  induction txs with
  | nil => simp [checkTxlist]
  | cons tx txs ih =>
    rw [forall_mem_cons, ← ih]
    simp only [checkTxlist, LegalTx]
    cases parseTx tx with
    | none => simp
    | some accountLog => simp

lemma checkCrossMessageWithInfo_ok_iff (cm : CrossMessages) :
    (m.checkCrossMessageWithInfo env db cm).1 = .ok ↔
      PassesSig env cm ∧ ∀ t ∈ (cm.decompression env.gzip).2.txlist.getD [], LegalTx db t := by
  unfold checkCrossMessageWithInfo PassesSig
  split_ifs with hd
  · simp [hd]
  · dsimp only
    rw [← checkTxlist_ok_iff]
    cases checkCrossMessageSig env (cm.decompression env.gzip).2 with
    | none => simp
    | some verified =>
      cases verified with
      | false => simp
      | true => simp [hd]

lemma checkContent_ok_iff : (m.checkContent env db tx checkdb).1 = .ok ↔
    PassesChecks env db checkdb tx := by
  unfold checkContent PassesChecks
  cases hp : parseData tx with
  | none => simp
  | some data =>
    cases data with
    | some cm =>
      cases checkdb with
      | true => simp
      | false => simp [checkCrossMessageWithInfo_ok_iff]
    | none =>
      cases hn : newTX tx with
      | none => simp
      | some t =>
        unfold LegalTx
        cases parseTx tx with
        | none => simp
        | some accountLog => simp

lemma checkContent_panic_iff (checkdb : Bool) :
    (m.checkContent env db tx checkdb).1 = .panic ↔ CrashesChecks env checkdb tx := by
  unfold checkContent CrashesChecks
  split
  · next h => simp [h]
  · rename_i cm h
    cases checkdb with
    | true => simp [h]
    | false => simp [h, checkCrossMessageWithInfo_panic_iff]
  · rename_i h
    cases hn : newTX tx with
    | none => simp [h]
    | some t =>
      simp only [h, isNone_some, Bool.false_eq_true, if_false]
      split
      · simp
      · simp

/-- A transaction that does not get behind the cache. -/
lemma requestCheck_of_not_passesCache (env : Env) (db : DB) (peer : UInt16) (checkdb : Bool)
    (h : ¬ m.PassesCache tx) :
    (∃ e, m.requestCheck env db tx peer checkdb = (.err e, m)) ∨
      ∃ m', m.requestCheck env db tx peer checkdb = (.err .txInCache, m') := by
  unfold requestCheck
  split_ifs with hfull hlarge hpre
  · exact Or.inl ⟨_, rfl⟩
  · exact Or.inl ⟨_, rfl⟩
  · exact Or.inl ⟨_, rfl⟩
  · dsimp only
    split_ifs with hpush
    · exact Or.inr ⟨_, rfl⟩
    · simp only [Bool.not_eq_false] at hpre hpush
      exact absurd ⟨hfull, hlarge, hpre, hpush⟩ h

lemma requestCheck_of_passesCache (h : m.PassesCache tx) :
    m.requestCheck env db tx peer checkdb =
      checkContent env db { m with cache := (m.cache.push (txKey tx)).2 } tx checkdb := by
  obtain ⟨hfull, hlarge, hpre, hpush⟩ := h
  unfold requestCheck
  rw [if_neg hfull, if_neg hlarge, if_neg (by simp [hpre])]
  rw [if_neg (by simp [hpush])]

/-- Before the cache there are only errors. -/
lemma requestCheck_fst_eq_iff {o : Outcome} (ho : ∀ e, .err e ≠ o) (peer : UInt16) (checkdb : Bool) :
    (m.requestCheck env db tx peer checkdb).1 = o ↔ m.PassesCache tx ∧
      (checkContent env db { m with cache := (m.cache.push (txKey tx)).2 } tx checkdb).1 = o := by
  by_cases hpass : m.PassesCache tx
  · rw [requestCheck_of_passesCache hpass, and_iff_right hpass]
  · rcases requestCheck_of_not_passesCache env db peer checkdb hpass with ⟨e, he⟩ | ⟨m', he⟩ <;>
      simp [he, hpass, ho]

lemma requestCheck_panic_iff (peer : UInt16) (checkdb : Bool) :
    (m.requestCheck env db tx peer checkdb).1 = .panic ↔
      m.PassesCache tx ∧ CrashesChecks env checkdb tx := by
  rw [requestCheck_fst_eq_iff (by simp), checkContent_panic_iff]

lemma requestCheck_ok_iff (peer : UInt16) (checkdb : Bool) :
    (m.requestCheck env db tx peer checkdb).1 = .ok ↔
      m.PassesCache tx ∧ PassesChecks env db checkdb tx := by
  rw [requestCheck_fst_eq_iff (by simp), checkContent_ok_iff]

end Mempool

namespace RecheckPool

def withMem (s : RecheckPool) (m : Mempool) : RecheckPool := { s with pool := { s.pool with mem := m } }

/-- `CheckTxWithInfo`. The answer is first taken for one to a recheck, behind which the cursor has
to be nil. -/
def checkTxWithInfo (s : RecheckPool) (env : Env) (db : DB) (tx : Bytes) (peer : UInt16)
    (checkdb : Bool) (res : CheckTxResponse) : Outcome × RecheckPool :=
  let r := s.pool.mem.requestCheck env db tx peer checkdb
  let s := s.withMem r.2
  if r.1 ≠ .ok then (r.1, s)
  else
    match s.globalCb tx res with
    | none => (.panic, s)
    | some s =>
      if s.pool.recheckCursor ≠ none then (.panic, s)
      else (.ok, s.withMem (s.pool.mem.resCbFirstTime tx peer res))

def checkTx (s : RecheckPool) (env : Env) (db : DB) (tx : Bytes) (res : CheckTxResponse) :
    Outcome × RecheckPool :=
  match checkDB env db s.pool.mem tx with
  | none => (.panic, s)
  | some (.receipt, m) => (s.withMem m).checkTxWithInfo env db tx unknownPeerID true res
  | some (.fresh, m) => (s.withMem m).checkTxWithInfo env db tx unknownPeerID false res
  | some (.inDatabase _, m) => (.err .inDatabase, s.withMem m)

def receive (s : RecheckPool) (env : Env) (db : DB) (peer : UInt16) (msgBytes : Bytes)
    (res : CheckTxResponse) : Outcome × RecheckPool :=
  if maxMsgSize < msgBytes.length then (.ok, s)
  else
    match env.decodeTxMessage msgBytes with
    | none => (.ok, s)
    | some tx =>
      match parseData tx with
      | none => (.panic, s)
      | some (some cm) =>
        if cm.srcZone = env.shard then (.ok, s.withMem (s.pool.mem.modifyCrossMessagelist cm))
        else s.checkTxWithInfo env db tx peer false res
      | some none => s.checkTxWithInfo env db tx peer false res

/-- `ReapMaxBytesMaxGas`, which also has no result when it waits for the end of a recheck:
it holds the lock that every other call needs. -/
def reapMaxBytesMaxGas (s : RecheckPool) (env : Env) (maxBytes maxGas height : Int64) :
    Option (List Bytes × RecheckPool) :=
  if 0 < s.rechecking then none
  else
    (s.pool.mem.reapMaxBytesMaxGas env maxBytes maxGas height).map fun r => (r.1, s.withMem r.2)

/-- `Update` with the answers to the requests of `recheckTxs`. -/
def updateAnswered (s : RecheckPool) (env : Env) (db : DB) (height : Int64) (txs : List Bytes)
    (preCheck postCheck : Option Int64) (res : ℕ → CheckTxResponse) : Option RecheckPool := do
  let s ← s.update env db height txs preCheck postCheck
  s.answers ((range s.requests.length).map res)

def flush (s : RecheckPool) : RecheckPool := { s with pool := s.pool.flush }

/-- No recheck is going on, or the answer ends it: the cursor is at this transaction and nothing
follows, and a refused one is still in the list. -/
def EndsRecheck (s : RecheckPool) (tx : Bytes) (res : CheckTxResponse) : Prop :=
  ∀ i, s.pool.recheckCursor = some i → s.pool.valueOf i = some tx ∧
    (s.pool.recheckEnd = some i ∨ s.pool.nextOf i = none) ∧
    (s.pool.mem.Accepts res ∨ (s.pool.mem.txs.node i).isSome)

/-- The transactions on which `CheckTxWithInfo` panics. -/
def CrashesCheckTxWithInfo (env : Env) (db : DB) (s : RecheckPool) (tx : Bytes) (checkdb : Bool)
    (res : CheckTxResponse) : Prop :=
  s.pool.mem.PassesCache tx ∧ (Mempool.CrashesChecks env checkdb tx ∨
    Mempool.PassesChecks env db checkdb tx ∧ ¬ s.EndsRecheck tx res)

/-- A message of this shard is not checked, and one with a record is sent back. -/
def CrashesCheckTx (env : Env) (db : DB) (s : RecheckPool) (tx : Bytes) (res : CheckTxResponse) :
    Prop :=
  parseData tx = none ∨ ∃ checkdb, CrashesCheckTxWithInfo env db s tx checkdb res ∧
    ∀ cm, parseData tx = some (some cm) → if cm.srcZone = env.shard then checkdb = true
      else checkdb = false ∧ CheckDB.search db (cmID cm) = none

/-- The messages on which `Receive` panics. -/
def CrashesReceive (env : Env) (db : DB) (s : RecheckPool) (msgBytes : Bytes)
    (res : CheckTxResponse) : Prop :=
  msgBytes.length ≤ maxMsgSize ∧ ∃ tx, env.decodeTxMessage msgBytes = some tx ∧
    (parseData tx = none ∨ CrashesCheckTxWithInfo env db s tx false res ∧
      ∀ cm, parseData tx = some (some cm) → cm.srcZone ≠ env.shard)

variable {env : Env} {db : DB} {s s' : RecheckPool} {tx : Bytes} {res : CheckTxResponse}

lemma endsRecheck_iff :
    s.EndsRecheck tx res ↔ ∃ s', s.globalCb tx res = some s' ∧ s'.pool.recheckCursor = none := by
  unfold EndsRecheck globalCb Pool.globalCb
  cases hcursor : s.pool.recheckCursor with
  | none => simp [hcursor]
  | some i =>
    simp only [some.injEq, forall_eq', Pool.resCbRecheck]
    by_cases hvalue : s.pool.valueOf i = some tx
    · by_cases hacc : s.pool.mem.Accepts res
      · simp [hvalue, hacc, or_iff_not_imp_left]
      · cases hnode : s.pool.mem.txs.node i with
        | none => simp [hvalue, hacc]
        | some x => simp [hvalue, hacc, or_iff_not_imp_left]
    · simp [hvalue]

lemma checkTxWithInfo_panic_iff (peer : UInt16) (checkdb : Bool) :
    (s.checkTxWithInfo env db tx peer checkdb res).1 = .panic ↔
      CrashesCheckTxWithInfo env db s tx checkdb res := by
  have hpanic : (s.pool.mem.requestCheck env db tx peer checkdb).1 = .panic ↔ _ :=
    Mempool.requestCheck_panic_iff peer checkdb
  have hok : (s.pool.mem.requestCheck env db tx peer checkdb).1 = .ok ↔ _ :=
    Mempool.requestCheck_ok_iff peer checkdb
  unfold checkTxWithInfo CrashesCheckTxWithInfo
  by_cases hreq : (s.pool.mem.requestCheck env db tx peer checkdb).1 = .ok
  · obtain ⟨hpass, hchecks⟩ := hok.mp hreq
    have hcrash : ¬ Mempool.CrashesChecks env checkdb tx := fun hc => by
      simp [hpanic.mpr ⟨hpass, hc⟩] at hreq
    -- the request does not touch what the answer to a recheck looks at
    have hends : s.EndsRecheck tx res ↔
        (s.withMem (s.pool.mem.requestCheck env db tx peer checkdb).2).EndsRecheck tx res := by
      obtain ⟨cmDB, heq, -⟩ := checkContent_frame env db
        { s.pool.mem with cache := (s.pool.mem.cache.push (txKey tx)).2 } tx checkdb
      rw [Mempool.requestCheck_of_passesCache hpass, heq]
      rfl
    simp only [hreq, ne_eq, not_true_eq_false, if_false, hpass, hchecks, hcrash, true_and, false_or]
    rw [hends, endsRecheck_iff]
    split
    · next h => simp [h]
    · rename_i s₁ h
      split_ifs with hcursor
      · simpa [h] using hcursor
      · simpa [h] using hcursor
  · simp only [hreq, ne_eq, not_false_eq_true, if_true]
    rw [hok, not_and] at hreq
    rw [hpanic]
    refine and_congr_right fun hpass => (or_iff_left ?_).symm
    exact fun h => hreq hpass h.1

@[simp] lemma withMem_mem (s : RecheckPool) : s.withMem s.pool.mem = s := rfl

@[simp] lemma crashesCheckTxWithInfo_withMem (cm : CrossMessages) (checkdb : Bool) :
    CrashesCheckTxWithInfo env db (s.withMem (s.pool.mem.modifyCrossMessagelist cm)) tx checkdb res ↔
      CrashesCheckTxWithInfo env db s tx checkdb res :=
  Iff.rfl

lemma checkTx_panic_iff :
    (s.checkTx env db tx res).1 = .panic ↔ CrashesCheckTx env db s tx res := by
  unfold checkTx checkDB CrashesCheckTx
  cases hp : parseData tx with
  | none => simp
  | some data =>
    cases data with
    | none =>
      have hany : ∀ checkdb, CrashesCheckTxWithInfo env db s tx checkdb res ↔
          CrashesCheckTxWithInfo env db s tx false res := by
        simp [CrashesCheckTxWithInfo, Mempool.CrashesChecks, Mempool.PassesChecks, hp]
      simp [checkTxWithInfo_panic_iff, hany]
    | some cm =>
      by_cases hs : cm.srcZone = env.shard
      · simp [checkTxWithInfo_panic_iff, hs]
      · cases hsearch : CheckDB.search db (cmID cm) with
        | none => simp [checkTxWithInfo_panic_iff, hs, hsearch]
        | some rec => simp [hs, hsearch]

lemma receive_panic_iff (peer : UInt16) (msgBytes : Bytes) :
    (s.receive env db peer msgBytes res).1 = .panic ↔ CrashesReceive env db s msgBytes res := by
  unfold receive CrashesReceive
  split_ifs with hlen
  · simp [hlen]
  · rw [not_lt] at hlen
    split
    · next hd => simp [hd]
    · rename_i tx hd
      simp only [hlen, hd]
      split
      · next hp => simp [hp]
      · rename_i cm hp
        split_ifs with hs
        · simp [hp, hs]
        · simp [checkTxWithInfo_panic_iff, hp, hs]
      · next hp => simp [checkTxWithInfo_panic_iff, hp]

end RecheckPool

variable {env : Env} {db : DB} {m m' : Mempool} {tx : Bytes}

/-! ## Later uses -/

@[simp] lemma relayTxs_isSome_iff (txs : List Bytes) :
    (relayTxs txs).isSome ↔ ∀ raw ∈ txs, (newTX raw).isSome := by
  induction txs with
  | nil => simp [relayTxs]
  | cons raw txs ih =>
    rw [forall_mem_cons, ← ih, relayTxs]
    cases newTX raw with
    | none => simp
    | some t => cases relayTxs txs <;> simp

/-- A reap does not panic on the element. -/
def Reapable (env : Env) (x : MempoolTx) : Prop :=
  (parseData x.tx).isSome ∧ (parseData x.tx = some none → (newTX x.tx).isSome) ∧
    ∀ cm, IsMessage x cm → ∀ txlist, cm.transactions env.gzip = some txlist →
      ∀ raw ∈ txlist, (newTX raw).isSome

lemma reapLoop_isSome {xs : List MempoolTx} (h : ∀ x ∈ xs, Reapable env x)
    (maxBytes maxGas height totalBytes totalGas : Int64) :
    (reapLoop env maxBytes maxGas height totalBytes totalGas xs).isSome := by
  induction xs generalizing totalBytes totalGas with
  | nil => rfl
  | cons x xs ih =>
    obtain ⟨⟨hparse, htx, hmsg⟩, hrest⟩ := forall_mem_cons.mp h
    have ih := ih hrest
    simp only [reapLoop]
    split
    · next hp => simp [hp] at hparse
    · rename_i cm hp
      split
      · exact ih _ _
      · rename_i txlist ht
        obtain ⟨relays, hrelays⟩ := isSome_iff_exists.mp
          ((relayTxs_isSome_iff txlist).mpr (hmsg cm hp txlist ht))
        rw [hrelays]
        split_ifs
        · rfl
        · rfl
        · rw [isSome_map]
          exact ih _ _
    · rename_i hp
      split_ifs with hnone
      · simp [isNone_iff_eq_none.mp hnone] at htx
        exact absurd hp htx
      · rfl
      · rfl
      · rw [isSome_map]
        exact ih _ _

/-- A reap without limits looks at every element. -/
lemma reapable_of_reapLoop {xs : List MempoolTx} {height totalBytes totalGas : Int64}
    (h : (reapLoop env (-1) (-1) height totalBytes totalGas xs).isSome) :
    ∀ x ∈ xs, Reapable env x := by
  induction xs generalizing totalBytes totalGas with
  | nil => simp
  | cons x xs ih =>
    have hbytes : ∀ total tx, overBytes (-1) total tx = false := fun _ _ => rfl
    have hgas : ∀ gas, overGas (-1) gas = false := fun _ => rfl
    simp only [reapLoop, hbytes, hgas, Bool.false_eq_true, if_false] at h
    rw [forall_mem_cons]
    split at h
    · cases h
    · rename_i cm hp
      split at h
      · rename_i ht
        refine ⟨⟨by simp [hp], by simp [hp], fun cm' hcm' txlist ht' => ?_⟩, ih h⟩
        obtain rfl := some.inj (some.inj (hp.symm.trans hcm'))
        rw [ht] at ht'
        cases ht'
      · rename_i txlist ht
        split at h
        · cases h
        · rename_i relays hrelays
          rw [isSome_map] at h
          refine ⟨⟨by simp [hp], by simp [hp], fun cm' hcm' txlist' ht' => ?_⟩, ih h⟩
          obtain rfl := some.inj (some.inj (hp.symm.trans hcm'))
          obtain rfl := some.inj (ht.symm.trans ht')
          exact (relayTxs_isSome_iff txlist).mp (by simp [hrelays])
    · rename_i hp
      cases hn : newTX x.tx with
      | none =>
        rw [hn] at h
        cases h
      | some t =>
        rw [hn, isNone_some, if_neg Bool.false_ne_true, isSome_map] at h
        refine ⟨⟨by simp [hp], fun _ => by simp [hn], fun cm hcm => ?_⟩, ih h⟩
        rw [IsMessage, hp] at hcm
        cases hcm

lemma reap_isSome_iff :
    (∀ maxBytes maxGas height, (m.reapMaxBytesMaxGas env maxBytes maxGas height).isSome) ↔
      ∀ x ∈ m.txs.elems, Reapable env x := by
  unfold Mempool.reapMaxBytesMaxGas
  simp only [isSome_map]
  exact ⟨fun h => reapable_of_reapLoop (h (-1) (-1) 0),
    fun h maxBytes maxGas height => reapLoop_isSome h maxBytes maxGas height 0 0⟩

@[simp] lemma ownTxs_isSome_iff (txs : List Bytes) :
    (ownTxs env txs).isSome ↔ ∀ tx ∈ txs, (newTX tx).isSome := by
  induction txs with
  | nil => simp [ownTxs]
  | cons tx txs ih =>
    rw [forall_mem_cons, ← ih, ownTxs, detectTx]
    cases newTX tx with
    | none => simp
    | some t => cases ownTxs env txs <;> simp

@[simp] lemma removeCmStep_isSome_iff {keys : List Bytes} {s : Mempool × DB} {x : MempoolTx} :
    (removeCmStep keys s x).isSome ↔ (parseData x.tx).isSome := by
  unfold removeCmStep
  split
  · next h => simp [h]
  · next h => simp [h]
  · rename_i h
    split_ifs
    · simp [h]
    · simp [h]

@[simp] lemma removeCm_isSome_iff {s : Mempool × DB} (height : Int64) :
    (removeCm s height).isSome ↔ ∀ x ∈ s.1.txs.elems, (parseData x.tx).isSome :=
  Runs.isSome_foldlM_iff fun _ _ => removeCmStep_isSome_iff

lemma update_isSome_iff (height : Int64) (txs : List Bytes) (pre post : Option Int64) :
    (update env (m, db) height txs pre post).isSome ↔
      (∀ tx ∈ txs, (newTX tx).isSome) ∧ ∀ x ∈ m.txs.elems, (parseData x.tx).isSome := by
  have hparse : (ownTxs env txs).isSome ↔ _ := ownTxs_isSome_iff txs
  rw [← hparse]
  simp only [update, removeTxs, bind_eq_bind]
  cases hown : ownTxs env txs with
  | none => simp
  | some own =>
    simp only [bind_some, map_some]
    generalize hcm : removeCm _ height = o
    have hiff : o.isSome ↔ ∀ x ∈ m.txs.elems, (parseData x.tx).isSome := by
      rw [← hcm]
      exact removeCm_isSome_iff height
    rw [← hiff]
    cases o <;> simp

/-! ## Rechecks -/

/-- The block leaves no `configtx` in the list before another transaction. -/
def ConfigTxsLast (env : Env) (m : Mempool) (height : Int64) (txs : List Bytes) : Prop :=
  m.txs.elems.Pairwise fun x y => Stays env m height txs x → Stays env m height txs y →
    isConfigTx x.tx = true → isConfigTx y.tx = true

instance (m : Mempool) (height : Int64) (txs : List Bytes) :
    Decidable (ConfigTxsLast env m height txs) :=
  inferInstanceAs (Decidable (List.Pairwise _ _))

namespace RecheckPool

variable {s s' : RecheckPool} {res : CheckTxResponse}

lemma update_isSome_iff (height : Int64) (txs : List Bytes) (pre post : Option Int64) :
    (s.update env db height txs pre post).isSome ↔
      (ShardingBC.update env (s.pool.mem, db) height txs pre post).isSome := by
  simp only [RecheckPool.update, Pool.update, bind_eq_bind]
  cases hup : ShardingBC.update env (s.pool.mem, db) height txs pre post with
  | none => simp
  | some r =>
    have hparse := ((ShardingBC.update_isSome_iff height txs pre post).mp (by rw [hup]; rfl)).2
    obtain ⟨packed, hpacked⟩ := isSome_iff_exists.mp
      ((removeCm_isSome_iff (s := (s.pool.mem, db)) height).mpr hparse)
    simp only [hpacked, bind_some]
    split_ifs <;> rw [bind_some] <;> split_ifs <;> simp

lemma updateAnswered_isSome_iff (hrequests : s.requests = [])
    (hparse : ∀ x ∈ s.pool.mem.txs.elems, (parseData x.tx).isSome) (height : Int64)
    (txs : List Bytes) (pre post : Option Int64) (res : ℕ → CheckTxResponse) :
    (s.updateAnswered env db height txs pre post res).isSome ↔
      (∀ tx ∈ txs, (newTX tx).isSome) ∧
        (s.pool.mem.config.recheck = true → ConfigTxsLast env s.pool.mem height txs) := by
  have hsome : (s.update env db height txs pre post).isSome ↔ _ :=
    (update_isSome_iff height txs pre post).trans (ShardingBC.update_isSome_iff height txs pre post)
  rw [and_iff_left hparse] at hsome
  rw [updateAnswered, ← hsome]
  cases hup : s.update env db height txs pre post with
  | none => simp
  | some s₁ =>
    have hlen : ((range s₁.requests.length).map res).length = s₁.requests.length := by simp
    obtain ⟨⟨db', left, hmem⟩, hstate⟩ := update_walking hrequests hup
    have hlast := pairwise_update hmem fun x y => isConfigTx x.tx = true → isConfigTx y.tx = true
    rw [ConfigTxsLast, ← hlast]
    simp only [bind_eq_bind, bind_some, isSome_some, true_and]
    rcases hstate with ⟨hreq, -, -, hall⟩ | ⟨hrecheck, hwalk, -⟩
    · rw [hreq]
      exact iff_of_true rfl fun hrecheck =>
        pairwise_of_forall_mem_list fun x _ y hy _ => hall hrecheck y hy
    · rw [hwalk.answers_isSome_iff hlen, hrecheck]
      simp

/-! ## Contents -/

/-- The states that the operations build, whatever is submitted and whatever happens to the
tables. -/
inductive Built (env : Env) : RecheckPool → Prop
  | new (config : MempoolConfig) (cacheSize height : Int64) :
      Built env ⟨Pool.new config cacheSize height, 0, []⟩
  | checkTx {s : RecheckPool} (h : Built env s) (db : DB) (tx : Bytes) (res : CheckTxResponse) :
      Built env (s.checkTx env db tx res).2
  | receive {s : RecheckPool} (h : Built env s) (db : DB) (peer : UInt16) (msgBytes : Bytes)
      (res : CheckTxResponse) : Built env (s.receive env db peer msgBytes res).2
  | reap {s s' : RecheckPool} (h : Built env s) {maxBytes maxGas height : Int64} {txs : List Bytes}
      (hr : s.reapMaxBytesMaxGas env maxBytes maxGas height = some (txs, s')) : Built env s'
  | update {s s' : RecheckPool} (h : Built env s) {db : DB} {height : Int64} {txs : List Bytes}
      {pre post : Option Int64} {res : ℕ → CheckTxResponse}
      (hu : s.updateAnswered env db height txs pre post res = some s') : Built env s'
  | flush {s : RecheckPool} (h : Built env s) : Built env s.flush
  | tables {s : RecheckPool} (h : Built env s) {m : Mempool} (htxs : m.txs = s.pool.mem.txs) :
      Built env (s.withMem m)

end RecheckPool

/-- The transaction parses as far as the checks look at it. -/
def WellParsed (tx : Bytes) : Prop :=
  (parseData tx).isSome ∧ (parseData tx = some none → (newTX tx).isSome)

lemma Mempool.wellParsed_of_checkContent {checkdb : Bool}
    (h : (m.checkContent env db tx checkdb).1 = .ok) : WellParsed tx := by
  have hpanic : (m.checkContent env db tx checkdb).1 = .panic ↔ _ :=
    checkContent_panic_iff checkdb
  have hno : ¬ CrashesChecks env checkdb tx := by
    rw [← hpanic, h]
    simp
  unfold CrashesChecks at hno
  push Not at hno
  exact ⟨isSome_iff_ne_none.mpr hno.1, fun hp => isSome_iff_ne_none.mpr (hno.2.1 hp)⟩

namespace RecheckPool

variable {s s' : RecheckPool} {res : CheckTxResponse} {peer : UInt16} {checkdb : Bool}

/-- Every request has been answered, and the list is well parsed. -/
structure Settled (s : RecheckPool) : Prop where
  requests : s.requests = []
  wellParsed : ∀ x ∈ s.pool.mem.txs.elems, WellParsed x.tx

lemma globalCb_frame (h : s.globalCb tx res = some s') :
    s'.requests = s.requests ∧ s'.pool.mem.txs.elems ⊆ s.pool.mem.txs.elems := by
  obtain ⟨pool, hpool, rfl⟩ := map_eq_some_iff.mp h
  refine ⟨rfl, ?_⟩
  unfold Pool.globalCb Pool.resCbRecheck at hpool
  split at hpool
  · cases hpool
    exact Subset.refl _
  · rename_i i _
    dsimp only at hpool
    by_cases hvalue : s.pool.valueOf i ≠ some tx
    · rw [if_pos hvalue] at hpool
      cases hpool
    · rw [if_neg hvalue] at hpool
      by_cases hacc : s.pool.mem.Accepts res
      · rw [if_pos hacc] at hpool
        cases hpool
        exact Subset.refl _
      · rw [if_neg hacc] at hpool
        obtain ⟨x, -, rfl⟩ := map_eq_some_iff.mp hpool
        exact filter_sublist.subset

lemma answers_subset {ress : List CheckTxResponse} (h : s.answers ress = some s') :
    s'.pool.mem.txs.elems ⊆ s.pool.mem.txs.elems := by
  induction ress generalizing s with
  | nil =>
    cases h
    exact Subset.refl _
  | cons res ress ih =>
    obtain ⟨s₁, hs₁, hrest⟩ := bind_eq_some_iff.mp h
    unfold RecheckPool.answer at hs₁
    split at hs₁
    · cases hs₁
    · exact fun x hx => (globalCb_frame hs₁).2 (ih hrest hx)

lemma Settled.checkTxWithInfo (h : s.Settled) :
    (s.checkTxWithInfo env db tx peer checkdb res).2.Settled := by
  obtain ⟨cache, txs, cmDB, heq, hnodes, -, hok⟩ :=
    requestCheck_frame env db s.pool.mem tx peer checkdb
  have hold : ∀ x ∈ txs.elems, WellParsed x.tx := by
    intro x hx
    have hmem : (x.elem, x.tx) ∈ s.pool.mem.txs.elems.map fun x => (x.elem, x.tx) := by
      rw [← hnodes]
      exact mem_map_of_mem hx
    obtain ⟨y, hy, he⟩ := mem_map.mp hmem
    exact (Prod.mk.inj he).2 ▸ h.wellParsed y hy
  unfold RecheckPool.checkTxWithInfo
  dsimp only
  rw [heq]
  have hsettled : (s.withMem { s.pool.mem with cache := cache, txs := txs, cmDB := cmDB }).Settled :=
    ⟨h.requests, hold⟩
  split_ifs with hreq
  · exact hsettled
  · obtain ⟨-, m', hcontent⟩ := hok (not_not.mp hreq)
    split
    · exact hsettled
    · rename_i s₁ hs₁
      obtain ⟨hrequests, hsub⟩ := globalCb_frame hs₁
      have hs₁ : s₁.Settled := ⟨hrequests.trans h.requests, fun x hx => hold x (hsub hx)⟩
      split_ifs
      · exact hs₁
      · refine ⟨hs₁.requests, fun x hx => ?_⟩
        unfold withMem Mempool.resCbFirstTime at hx
        dsimp only at hx
        split_ifs at hx
        · rcases mem_append.mp hx with hx | hx
          · exact hs₁.wellParsed x hx
          · rw [mem_singleton.mp hx]
            exact Mempool.wellParsed_of_checkContent hcontent
        · exact hs₁.wellParsed x hx

lemma Settled.checkTx (h : s.Settled) : (s.checkTx env db tx res).2.Settled := by
  unfold RecheckPool.checkTx checkDB
  cases parseData tx with
  | none => exact h
  | some data =>
    cases data with
    | none => exact h.checkTxWithInfo
    | some cm =>
      dsimp only
      by_cases hs : cm.srcZone = env.shard
      · rw [if_pos hs]
        exact Settled.checkTxWithInfo (s := s.withMem (s.pool.mem.modifyCrossMessagelist cm))
          ⟨h.requests, h.wellParsed⟩
      · rw [if_neg hs]
        cases CheckDB.search db (cmID cm) with
        | none => exact h.checkTxWithInfo
        | some rec => exact h

lemma Settled.receive (h : s.Settled) {msgBytes : Bytes} :
    (s.receive env db peer msgBytes res).2.Settled := by
  unfold RecheckPool.receive
  split_ifs
  · exact h
  · split
    · exact h
    · split
      · exact h
      · split_ifs
        · exact ⟨h.requests, h.wellParsed⟩
        · exact h.checkTxWithInfo
      · exact h.checkTxWithInfo

lemma Built.settled (h : Built env s) : s.Settled := by
  induction h with
  | new config cacheSize height => exact ⟨rfl, by simp [Pool.new, newMempool, TxList.empty]⟩
  | checkTx _ db tx res ih => exact ih.checkTx
  | receive _ db peer msgBytes res ih => exact ih.receive
  | reap _ hr ih =>
    obtain ⟨-, hr⟩ := ite_none_left_eq_some.mp hr
    obtain ⟨r, hr, he⟩ := map_eq_some_iff.mp hr
    obtain ⟨r', -, rfl⟩ := map_eq_some_iff.mp hr
    cases he
    exact ⟨ih.requests, ih.wellParsed⟩
  | update _ hu ih =>
    obtain ⟨s₁, hs₁, hans⟩ := bind_eq_some_iff.mp hu
    obtain ⟨⟨db', left, hmem⟩, -⟩ := update_walking ih.requests hs₁
    have hlen := length_requests_of_answers hans
    rw [length_map, length_range] at hlen
    exact ⟨length_eq_zero_iff.mp (by omega), fun x hx =>
      ih.wellParsed x ((Pool.update_sublist hmem).subset (answers_subset hans hx))⟩
  | flush _ ih => exact ⟨ih.requests, by simp [RecheckPool.flush, Pool.flush, Mempool.flush, TxList.clear]⟩
  | tables _ htxs ih => exact ⟨ih.requests, by rw [withMem, htxs]; exact ih.wellParsed⟩

/-! ## All entries -/

/-- Which submissions panic, in any state of the mempool; and, for any content that
submissions build, when no reap and no update panics or waits for ever. -/
theorem mempool_panics_iff (env : Env) (db : DB) (s : RecheckPool) :
    (∀ tx res, (s.checkTx env db tx res).1 ≠ .panic ↔ ¬ CrashesCheckTx env db s tx res) ∧
    (∀ peer msgBytes res, (s.receive env db peer msgBytes res).1 ≠ .panic ↔
      ¬ CrashesReceive env db s msgBytes res) ∧
    (Built env s →
      ((∀ maxBytes maxGas height, (s.reapMaxBytesMaxGas env maxBytes maxGas height).isSome) ↔
        ¬ 0 < s.rechecking ∧ ∀ x ∈ s.pool.mem.txs.elems, ∀ cm, IsMessage x cm → ∀ txlist,
          cm.transactions env.gzip = some txlist → ∀ raw ∈ txlist, (newTX raw).isSome) ∧
      ∀ height txs pre post res, (s.updateAnswered env db height txs pre post res).isSome ↔
        (∀ tx ∈ txs, (newTX tx).isSome) ∧
          (s.pool.mem.config.recheck = true → ConfigTxsLast env s.pool.mem height txs)) := by
  refine ⟨fun tx res => not_congr checkTx_panic_iff,
    fun peer msgBytes res => not_congr (receive_panic_iff peer msgBytes), fun h => ?_⟩
  have hsettled := h.settled
  constructor
  · unfold RecheckPool.reapMaxBytesMaxGas
    by_cases hwait : 0 < s.rechecking
    · simp [hwait]
    · simp only [hwait, if_false, isSome_map, not_false_eq_true, true_and]
      rw [reap_isSome_iff]
      exact forall₂_congr fun x hx => ⟨fun hr => hr.2.2, fun hr =>
        ⟨(hsettled.wellParsed x hx).1, (hsettled.wellParsed x hx).2, hr⟩⟩
  · exact updateAnswered_isSome_iff hsettled.requests fun x hx => (hsettled.wellParsed x hx).1

/-- A mempool of shard A that rechecks, with the transactions submitted to it. -/
def submitted (txs : List Bytes) : RecheckPool :=
  txs.foldl (fun s tx => (s.checkTx (plainEnv "A") (fun _ => none) tx ⟨true, 1⟩).2) (holding [])

lemma built_submitted (txs : List Bytes) : Built (plainEnv "A") (submitted txs) := by
  induction txs using List.reverseRecOn with
  | nil => exact .new _ _ _
  | append_singleton txs tx ih =>
    rw [submitted, foldl_append]
    exact ih.checkTx _ _ _

/-- An update after a block at height 1; the application accepts everything. -/
def afterBlock (s : RecheckPool) (txs : List Bytes) : Option RecheckPool :=
  s.updateAnswered (plainEnv "A") (fun _ => none) 1 txs none none fun _ => ⟨true, 1⟩

/-- A text that is no JSON document crashes `CheckTx`, and `null` both entries. A receipt of the
own shard with an empty transaction is admitted, and then no block can be proposed; a block with an
empty transaction cannot be committed. With a `configtx` in front of another transaction the update
after an empty block panics. With one behind it the next transaction panics and no block can be
proposed. -/
theorem short_texts_crash :
    let check (s : RecheckPool) (tx : Bytes) :=
      (s.checkTx (plainEnv "A") (fun _ => none) tx ⟨true, 1⟩).1
    let reap (s : RecheckPool) := s.reapMaxBytesMaxGas (plainEnv "A") (-1) (-1) 1
    let receipt := lit "\x7b\"CrossMerkleRoot\":\"\",\"SrcZone\":\"A\",\"Txlist\":[\"\"]\x7d"
    check (submitted []) (lit "x") = .panic ∧ check (submitted []) (lit "null") = .panic ∧
    ((submitted []).receive (plainEnv "A") (fun _ => none) 7 (lit "null") ⟨true, 1⟩).1 = .panic ∧
    (check (submitted []) receipt = .ok ∧ (reap (submitted [receipt])).isNone) ∧
    (afterBlock (submitted []) [[]]).isNone ∧
    (afterBlock (submitted [configTx.data, transfer.data]) []).isNone ∧
    (afterBlock (submitted [transfer.data, configTx.data]) []).any (fun s =>
      check s relayToB.data = .panic ∧ (reap s).isNone) = true := by
  decide +kernel

end RecheckPool

end ShardingBC
