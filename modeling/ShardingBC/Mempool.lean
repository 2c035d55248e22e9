import ShardingBC.CrossMessagesDB
import ShardingBC.RelationTable

/-!
# The mempool

State and operations of `mempool.go`, and `Receive` of the mempool reactor. `none` is a panic; an
operation whose effects survive a recovered panic returns its outcome beside the new state. The
application's answer to `CheckTx` is an argument and is handled at once.
-/
namespace ShardingBC

open List

/-- What comes from the process environment and from libraries outside the repository: shard name
and index, compression, amino and the BLS pairing. A failed `MustUnmarshalBinaryBare` panics, so it
has no result; `tmpGetSign` and `shardPubkey` are the shard's own key at work. -/
structure Env where
  shard : Bytes
  index : Bytes
  gzip : Gzip
  getPubkeyFromByte : Bytes → Option Bytes
  blsVerify : Bytes → Bytes → Bytes → Bool
  tmpGetSign : Bytes → Option Bytes
  shardPubkey : Bytes
  decodeTxMessage : Bytes → Option Bytes

def Env.verifyBytes (env : Env) (pubKey msg sig : Bytes) : Bool :=
  if sig = [] then false else env.blsVerify pubKey msg sig

structure MempoolConfig where
  size : Int64
  maxTxsBytes : Int64
  recheck : Bool

/-- An element of the list; `elem` is the identity of its node. -/
structure MempoolTx where
  elem : ℕ
  height : Int64
  gasWanted : Int64
  tx : Bytes
  senders : List UInt16
deriving DecidableEq

/-- The concurrent list: nodes are distinct, and a new node is fresh. -/
structure TxList where
  elems : List MempoolTx
  next : ℕ
  nodup : (elems.map MempoolTx.elem).Nodup
  fresh : ∀ x ∈ elems, x.elem < next

namespace TxList

def empty : TxList := ⟨[], 0, by simp, by simp⟩

def pushBack (l : TxList) (height gasWanted : Int64) (tx : Bytes) (senders : List UInt16) :
    TxList where
  elems := l.elems ++ [⟨l.next, height, gasWanted, tx, senders⟩]
  next := l.next + 1
  nodup := by
    rw [map_append, nodup_append]
    refine ⟨l.nodup, by simp, ?_⟩
    intro i hi j hj
    obtain ⟨x, hx, rfl⟩ := List.mem_map.mp hi
    have := l.fresh x hx
    simp only [map_cons, map_nil, mem_singleton] at hj
    omega
  fresh := by
    intro x hx
    rcases mem_append.mp hx with hx | hx
    · have := l.fresh x hx
      omega
    · simp only [mem_singleton] at hx
      simp [hx]

def remove (l : TxList) (i : ℕ) : TxList where
  elems := l.elems.filter fun x => x.elem ≠ i
  next := l.next
  nodup := l.nodup.sublist (List.Sublist.map _ filter_sublist)
  fresh := fun x hx => l.fresh x (mem_of_mem_filter hx)

/-- Records one more sender at a node. -/
def addSender (l : TxList) (i : ℕ) (peer : UInt16) : TxList where
  elems := l.elems.map fun x =>
    { x with senders := if x.elem = i ∧ peer ∉ x.senders then x.senders ++ [peer] else x.senders }
  next := l.next
  nodup := by simpa [Function.comp_def] using l.nodup
  fresh := by
    intro x hx
    obtain ⟨y, hy, rfl⟩ := List.mem_map.mp hx
    exact l.fresh y hy

end TxList

/-- The cache of seen transactions, oldest first, or none at all. -/
inductive TxCache where
  | map (size : ℕ) (list : List Digest)
  | nop
deriving DecidableEq

structure Mempool where
  config : MempoolConfig
  txs : TxList
  txsMap : AssocMap Digest ℕ
  txsBytes : Int64
  height : Int64
  cache : TxCache
  preCheck : Option Int64
  postCheck : Option Int64
  cmDB : List CrossMessage
  rlDB : List RelationTable
  crossSendStrike : Int64
  crossReceiveStrike : Int64

def newMempool (config : MempoolConfig) (cacheSize height : Int64) : Mempool :=
  { config := config, txs := TxList.empty, txsMap := [], txsBytes := 0, height := height
    cache := if 0 < cacheSize then TxCache.map cacheSize.toNatClampNeg [] else TxCache.nop
    preCheck := none, postCheck := none, cmDB := [], rlDB := [], crossSendStrike := 0
    crossReceiveStrike := 0 }

/-- The answer of the application to `CheckTx`. -/
structure CheckTxResponse where
  ok : Bool
  gasWanted : Int64

inductive MempoolError where
  | mempoolIsFull
  | txTooLarge
  | preCheck
  | txInCache
  | decompression
  | crossMessageSig
  | crossMessageTx
  | txParse
  | illegalTx
  | inDatabase
deriving DecidableEq, Repr

inductive Outcome where
  | ok
  | err (e : MempoolError)
  | panic
deriving DecidableEq, Repr

def uvarintSize (n : ℕ) : ℕ := Nat.log2 n / 7 + 1

/-- `ComputeAminoOverhead(tx, 1)`. -/
def computeAminoOverhead (tx : Bytes) : Int64 :=
  Int64.ofNat (uvarintSize (1 * 8 + 2)) + Int64.ofNat (uvarintSize tx.length)

def maxMsgSize : ℕ := 40485760

def maxTxSize : ℕ := maxMsgSize - 8

def preCheckAminoMaxBytes (maxBytes : Int64) (tx : Bytes) : Bool :=
  !decide (Int64.ofNat tx.length + computeAminoOverhead tx > maxBytes)

def postCheckMaxGas (maxGas : Int64) (res : CheckTxResponse) : Bool :=
  if maxGas = -1 then true
  else if res.gasWanted < 0 then false
  else !decide (res.gasWanted > maxGas)

def txKey (tx : Bytes) : Digest := sha256 tx

namespace TxCache

def push (k : Digest) : TxCache → Bool × TxCache
  | map size list =>
    if k ∈ list then (false, map size (list.erase k ++ [k]))
    else (true, map size ((if size ≤ list.length then list.tail else list) ++ [k]))
  | nop => (true, nop)

def remove (k : Digest) : TxCache → TxCache
  | map size list => map size (list.erase k)
  | nop => nop

end TxCache

namespace Mempool

/-- `addTx`, with the element that `resCbFirstTime` makes. -/
def addTx (m : Mempool) (tx : Bytes) (gasWanted : Int64) (peer : UInt16) : Mempool :=
  { m with
    txs := m.txs.pushBack m.height gasWanted tx [peer]
    txsMap := AssocMap.set (txKey tx) m.txs.next m.txsMap
    txsBytes := m.txsBytes + Int64.ofNat tx.length }

def removeTx (m : Mempool) (e : MempoolTx) (removeFromCache : Bool) : Mempool :=
  { m with
    txs := m.txs.remove e.elem
    txsMap := AssocMap.delete (txKey e.tx) m.txsMap
    txsBytes := m.txsBytes - Int64.ofNat e.tx.length
    cache := if removeFromCache then m.cache.remove (txKey e.tx) else m.cache }

/-- The new sender of a transaction that is still in the list. -/
def recordSender (m : Mempool) (tx : Bytes) (peer : UInt16) : Mempool :=
  match AssocMap.lookup (txKey tx) m.txsMap with
  | none => m
  | some i => { m with txs := m.txs.addSender i peer }

def resCbFirstTime (m : Mempool) (tx : Bytes) (peer : UInt16) (res : CheckTxResponse) : Mempool :=
  if res.ok ∧ (m.postCheck.all fun maxGas => postCheckMaxGas maxGas res) then
    m.addTx tx res.gasWanted peer
  else { m with cache := m.cache.remove (txKey tx) }

end Mempool

/-- `CheckCrossMessageSig`; `none` is the panic on a malformed public key. -/
def checkCrossMessageSig (env : Env) (cm : CrossMessages) : Option Bool :=
  match env.getPubkeyFromByte (cm.pubkeys.getD []) with
  | none => none
  | some pubkey =>
    if env.verifyBytes pubkey (cm.crossMerkleRoot.getD []) (cm.sig.getD []) then
      match simpleTreeFromByteSlices (cm.txlist.getD []) with
      | none => some false
      | some smt =>
        some (verifyTreePath (some smt.computeRootHash.bytes) cm.treePath cm.crossMerkleRoot)
    else some false

namespace Mempool

def modifyCrossMessagelist (m : Mempool) (cm : CrossMessages) : Mempool :=
  { m with cmDB := removeCrossMessagesDB cm m.cmDB }

/-- The transactions of a message up to the first that is refused. -/
def checkTxlist (db : DB) : List Bytes → Outcome
  | [] => .ok
  | tx :: rest =>
    match parseTx tx with
    | none => .err .crossMessageTx
    | some accountLog => if accountLog.check db then checkTxlist db rest else .err .illegalTx

def checkCrossMessageWithInfo (env : Env) (db : DB) (m : Mempool) (cm : CrossMessages) :
    Outcome × Mempool :=
  if (cm.decompression env.gzip).1 = false then (.err .decompression, m)
  else
    let cm' := (cm.decompression env.gzip).2
    match checkCrossMessageSig env cm' with
    | none => (.panic, m)
    | some false => (.err .crossMessageSig, m)
    | some true =>
      let m' := if cm'.packages.getD [] ≠ [] then m.modifyCrossMessagelist cm' else m
      (checkTxlist db (cm'.txlist.getD []), m')

/-- The checks of `CheckTxWithInfo` behind the cache. -/
def checkContent (env : Env) (db : DB) (m : Mempool) (tx : Bytes) (checkdb : Bool) :
    Outcome × Mempool :=
  match parseData tx with
  | none => (.panic, m)
  | some (some cm) => if checkdb then (.ok, m) else checkCrossMessageWithInfo env db m cm
  | some none =>
    if (newTX tx).isNone then (.panic, m)
    else
      match parseTx tx with
      | none => (.err .txParse, m)
      | some accountLog => if accountLog.check db then (.ok, m) else (.err .illegalTx, m)

/-- `CheckTxWithInfo` up to the request to the application. -/
def requestCheck (env : Env) (db : DB) (m : Mempool) (tx : Bytes) (peer : UInt16)
    (checkdb : Bool) : Outcome × Mempool :=
  if m.config.size ≤ Int64.ofNat m.txs.elems.length ∨
      Int64.ofNat tx.length + m.txsBytes > m.config.maxTxsBytes then (.err .mempoolIsFull, m)
  else if maxTxSize < tx.length then (.err .txTooLarge, m)
  else if (m.preCheck.all fun maxBytes => preCheckAminoMaxBytes maxBytes tx) = false then
    (.err .preCheck, m)
  else
    let pushed := m.cache.push (txKey tx)
    let m1 := { m with cache := pushed.2 }
    if pushed.1 = false then (.err .txInCache, m1.recordSender tx peer)
    else checkContent env db m1 tx checkdb

/-- `CheckTxWithInfo` with the application's answer. -/
def checkTxWithInfo (env : Env) (db : DB) (m : Mempool) (tx : Bytes) (peer : UInt16)
    (checkdb : Bool) (res : CheckTxResponse) : Outcome × Mempool :=
  match m.requestCheck env db tx peer checkdb with
  | (.ok, m) => (.ok, m.resCbFirstTime tx peer res)
  | (o, m) => (o, m)

end Mempool

/-- `CheckDB` finds a receipt of this shard, a recorded message with the record that is sent back,
or neither. -/
inductive DBStatus where
  | receipt
  | inDatabase (reply : CrossMessages)
  | fresh

/-- `CheckDB`; `none` is the panic of `ParseData`. -/
def checkDB (env : Env) (db : DB) (m : Mempool) (tx : Bytes) : Option (DBStatus × Mempool) :=
  match parseData tx with
  | none => none
  | some none => some (.fresh, m)
  | some (some cm) =>
    if cm.srcZone = env.shard then some (.receipt, m.modifyCrossMessagelist cm)
    else
      match CheckDB.search db (cmID cm) with
      | some dbtx => some (.inDatabase dbtx, m)
      | none => some (.fresh, m)

def unknownPeerID : UInt16 := 0

/-- `CheckTx`, the entry of the RPC layer. -/
def checkTx (env : Env) (db : DB) (m : Mempool) (tx : Bytes) (res : CheckTxResponse) :
    Outcome × Mempool :=
  match checkDB env db m tx with
  | none => (.panic, m)
  | some (.receipt, m') => m'.checkTxWithInfo env db tx unknownPeerID true res
  | some (.fresh, m') => m'.checkTxWithInfo env db tx unknownPeerID false res
  | some (.inDatabase _, m') => (.err .inDatabase, m')

/-- `Receive` of the reactor for a decoded transaction message. -/
def receiveTx (env : Env) (db : DB) (m : Mempool) (peer : UInt16) (tx : Bytes)
    (res : CheckTxResponse) : Outcome × Mempool :=
  match parseData tx with
  | none => (.panic, m)
  | some (some cm) =>
    if cm.srcZone = env.shard then (.ok, m.modifyCrossMessagelist cm)
    else m.checkTxWithInfo env db tx peer false res
  | some none => m.checkTxWithInfo env db tx peer false res

/-- `Receive`: an oversized or undecodable message has no effect. -/
def receive (env : Env) (db : DB) (m : Mempool) (peer : UInt16) (msgBytes : Bytes)
    (res : CheckTxResponse) : Outcome × Mempool :=
  if maxMsgSize < msgBytes.length then (.ok, m)
  else
    match env.decodeTxMessage msgBytes with
    | none => (.ok, m)
    | some tx => receiveTx env db m peer tx res

section Submission

variable (env : Env) (db : DB) (m : Mempool) (tx : Bytes)

/-- The signature and the path of the delivered message are verified. -/
def PassesSig (cm : CrossMessages) : Prop :=
  (cm.decompression env.gzip).1 = true ∧
    checkCrossMessageSig env (cm.decompression env.gzip).2 = some true

@[simp] lemma removeCrossMessagesDB_decompression (cm : CrossMessages) (cmDB : List CrossMessage) :
    removeCrossMessagesDB (cm.decompression env.gzip).2 cmDB = removeCrossMessagesDB cm cmDB := by
  obtain ⟨txlist, data, flag, h⟩ := cm.decompression_frame env.gzip
  rw [h]
  rfl

/-- A verified message erases what its packages reach. -/
lemma checkCrossMessageWithInfo_frame (cm : CrossMessages) :
    ∃ cmDB, (m.checkCrossMessageWithInfo env db cm).2 = { m with cmDB := cmDB } ∧
      (PassesSig env cm ∧ cmDB = removeCrossMessagesDB cm m.cmDB ∨
        ¬ PassesSig env cm ∧ cmDB = m.cmDB) := by
  unfold Mempool.checkCrossMessageWithInfo
  split_ifs with hd
  · exact ⟨m.cmDB, rfl, .inr ⟨fun h => by simp [PassesSig, hd] at h, rfl⟩⟩
  · dsimp only
    split
    · next hs => exact ⟨m.cmDB, rfl, .inr ⟨fun h => by simp [PassesSig, hs] at h, rfl⟩⟩
    · next hs => exact ⟨m.cmDB, rfl, .inr ⟨fun h => by simp [PassesSig, hs] at h, rfl⟩⟩
    · rename_i hs
      have hsig : PassesSig env cm := ⟨by simpa using hd, hs⟩
      have hdec := removeCrossMessagesDB_decompression env cm m.cmDB
      split_ifs with hp
      · exact ⟨_, rfl, .inl ⟨hsig, hdec⟩⟩
      · refine ⟨m.cmDB, rfl, .inl ⟨hsig, ?_⟩⟩
        rw [← hdec, removeCrossMessagesDB, not_not.mp hp]
        rfl

/-- Only the check of a message can erase, and only where it is made. -/
def MayErase (checkdb : Bool) (cmDB : List CrossMessage) : Prop :=
  cmDB = m.cmDB ∨ checkdb = false ∧ ∃ cm, parseData tx = some (some cm) ∧ PassesSig env cm ∧
    cmDB = removeCrossMessagesDB cm m.cmDB

lemma checkContent_frame (checkdb : Bool) :
    ∃ cmDB, (m.checkContent env db tx checkdb).2 = { m with cmDB := cmDB } ∧
      MayErase env m tx checkdb cmDB := by
  unfold Mempool.checkContent
  split
  · exact ⟨m.cmDB, rfl, .inl rfl⟩
  · rename_i cm hp
    split_ifs with hc
    · exact ⟨m.cmDB, rfl, .inl rfl⟩
    · obtain ⟨cmDB, heq, ⟨hs, hcm⟩ | ⟨-, hcm⟩⟩ := checkCrossMessageWithInfo_frame env db m cm
      · exact ⟨cmDB, heq, .inr ⟨by simpa using hc, cm, hp, hs, hcm⟩⟩
      · exact ⟨cmDB, heq, .inl hcm⟩
  · split_ifs
    · exact ⟨m.cmDB, rfl, .inl rfl⟩
    · split
      · exact ⟨m.cmDB, rfl, .inl rfl⟩
      · split_ifs <;> exact ⟨m.cmDB, rfl, .inl rfl⟩

/-- What a request leaves of the mempool. It is made when the cache takes the transaction and
the checks find nothing wrong. -/
lemma requestCheck_frame (peer : UInt16) (checkdb : Bool) :
    ∃ cache txs cmDB, (m.requestCheck env db tx peer checkdb).2 =
        { m with cache := cache, txs := txs, cmDB := cmDB } ∧
      (txs.elems.map (fun x => (x.elem, x.tx)) = m.txs.elems.map fun x => (x.elem, x.tx)) ∧
      MayErase env m tx checkdb cmDB ∧
      ((m.requestCheck env db tx peer checkdb).1 = .ok → (m.cache.push (txKey tx)).1 = true ∧
        ∃ m' : Mempool, (m'.checkContent env db tx checkdb).1 = .ok) := by
  unfold Mempool.requestCheck
  split_ifs with hfull hlarge hpre
  · exact ⟨m.cache, m.txs, m.cmDB, rfl, rfl, .inl rfl, fun h => by cases h⟩
  · exact ⟨m.cache, m.txs, m.cmDB, rfl, rfl, .inl rfl, fun h => by cases h⟩
  · exact ⟨m.cache, m.txs, m.cmDB, rfl, rfl, .inl rfl, fun h => by cases h⟩
  · dsimp only
    split_ifs with hpush
    · unfold Mempool.recordSender
      split
      · exact ⟨_, m.txs, m.cmDB, rfl, rfl, .inl rfl, fun h => by cases h⟩
      · exact ⟨_, _, m.cmDB, rfl, by simp [TxList.addSender], .inl rfl, fun h => by cases h⟩
    · obtain ⟨cmDB, heq, herase⟩ := checkContent_frame env db
        { m with cache := (m.cache.push (txKey tx)).2 } tx checkdb
      exact ⟨_, m.txs, cmDB, heq, rfl, herase, fun hok => ⟨by simpa using hpush, _, hok⟩⟩

lemma checkTxWithInfo_frame (peer : UInt16) (checkdb : Bool) (res : CheckTxResponse) :
    MayErase env m tx checkdb (m.checkTxWithInfo env db tx peer checkdb res).2.cmDB ∧
      ∀ x ∈ (m.checkTxWithInfo env db tx peer checkdb res).2.txs.elems,
        (x.tx = tx ∧ ∃ m' : Mempool, (m'.checkContent env db tx checkdb).1 = .ok) ∨
          ∃ y ∈ m.txs.elems, y.tx = x.tx := by
  obtain ⟨cache, txs, cmDB, heq, hnodes, herase, hok⟩ := requestCheck_frame env db m tx peer checkdb
  have hold : ∀ x ∈ txs.elems, ∃ y ∈ m.txs.elems, y.tx = x.tx := by
    intro x hx
    have hmem : (x.elem, x.tx) ∈ m.txs.elems.map fun x => (x.elem, x.tx) := by
      rw [← hnodes]
      exact mem_map_of_mem hx
    obtain ⟨y, hy, he⟩ := mem_map.mp hmem
    exact ⟨y, hy, (Prod.mk.inj he).2⟩
  unfold Mempool.checkTxWithInfo
  split
  · rename_i m₁ hm₁
    rw [hm₁] at heq hok
    subst heq
    unfold Mempool.resCbFirstTime
    split_ifs
    · refine ⟨herase, fun x hx => ?_⟩
      rcases mem_append.mp hx with hx | hx
      · exact .inr (hold x hx)
      · rw [mem_singleton.mp hx]
        exact .inl ⟨rfl, (hok rfl).2⟩
    · exact ⟨herase, fun x hx => .inr (hold x hx)⟩
  · rename_i hm₁
    rw [hm₁] at heq
    subst heq
    exact ⟨herase, fun x hx => .inr (hold x hx)⟩

/-- By RPC a receipt of this shard is checked after it has erased, another message when it has no
record. -/
lemma checkTx_cases (res : CheckTxResponse) :
    (checkTx env db m tx res).2 = m ∨
    (∃ cm, parseData tx = some (some cm) ∧ cm.srcZone = env.shard ∧ checkTx env db m tx res =
      (m.modifyCrossMessagelist cm).checkTxWithInfo env db tx unknownPeerID true res) ∨
    ((∀ cm, parseData tx = some (some cm) → CheckDB.search db (cmID cm) = none) ∧
      checkTx env db m tx res = m.checkTxWithInfo env db tx unknownPeerID false res) := by
  unfold checkTx checkDB
  cases hp : parseData tx with
  | none => exact .inl rfl
  | some o =>
    cases o with
    | none => exact .inr (.inr ⟨by simp, rfl⟩)
    | some cm =>
      by_cases hs : cm.srcZone = env.shard
      · refine .inr (.inl ⟨cm, rfl, hs, ?_⟩)
        simp only [hs, if_true]
      · simp only [hs]
        cases hsearch : CheckDB.search db (cmID cm) with
        | none => exact .inr (.inr ⟨by simp [hsearch], rfl⟩)
        | some rec => exact .inl rfl

/-- By gossip a receipt of this shard only erases, and any other message is checked. -/
lemma receive_cases (peer : UInt16) (msgBytes : Bytes) (res : CheckTxResponse) :
    (receive env db m peer msgBytes res).2 = m ∨ ∃ tx, env.decodeTxMessage msgBytes = some tx ∧
      ((∃ cm, parseData tx = some (some cm) ∧ cm.srcZone = env.shard ∧
          (receive env db m peer msgBytes res).2 = m.modifyCrossMessagelist cm) ∨
        (∀ cm, parseData tx = some (some cm) → cm.srcZone ≠ env.shard) ∧
          receive env db m peer msgBytes res = m.checkTxWithInfo env db tx peer false res) := by
  unfold receive
  split_ifs
  · exact .inl rfl
  · split
    · exact .inl rfl
    · rename_i tx hd
      unfold receiveTx
      split
      · exact .inl rfl
      · rename_i cm hp
        split_ifs with hs
        · exact .inr ⟨tx, hd, .inl ⟨cm, hp, hs, rfl⟩⟩
        · exact .inr ⟨tx, hd, .inr ⟨by simpa [hp] using hs, rfl⟩⟩
      · next hp => exact .inr ⟨tx, hd, .inr ⟨by simp [hp], rfl⟩⟩

lemma checkTx_txs {res : CheckTxResponse} {x : MempoolTx}
    (hx : x ∈ (checkTx env db m tx res).2.txs.elems) :
    (x.tx = tx ∧ ∀ cm, parseData tx = some (some cm) → cm.srcZone = env.shard ∨
      CheckDB.search db (cmID cm) = none) ∨ ∃ y ∈ m.txs.elems, y.tx = x.tx := by
  rcases checkTx_cases env db m tx res with heq | ⟨cm, hp, hs, heq⟩ | ⟨hnew, heq⟩ <;> rw [heq] at hx
  · exact .inr ⟨x, hx, rfl⟩
  · refine ((checkTxWithInfo_frame env db _ tx _ _ res).2 x hx).imp_left fun he => ⟨he.1, ?_⟩
    intro cm' hp'
    rw [hp] at hp'
    cases hp'
    exact .inl hs
  · exact ((checkTxWithInfo_frame env db m tx _ _ res).2 x hx).imp_left fun he =>
      ⟨he.1, fun cm hp => .inr (hnew cm hp)⟩

lemma receive_txs {peer : UInt16} {msgBytes : Bytes} {res : CheckTxResponse} {x : MempoolTx}
    (hx : x ∈ (receive env db m peer msgBytes res).2.txs.elems) :
    (env.decodeTxMessage msgBytes = some x.tx ∧ ∀ cm, parseData x.tx = some (some cm) →
      cm.srcZone ≠ env.shard) ∨ ∃ y ∈ m.txs.elems, y.tx = x.tx := by
  rcases receive_cases env db m peer msgBytes res with heq | ⟨tx, hd, ⟨cm, hp, hs, heq⟩ | ⟨hne, heq⟩⟩ <;>
    rw [heq] at hx
  · exact .inr ⟨x, hx, rfl⟩
  · exact .inr ⟨x, hx, rfl⟩
  · refine ((checkTxWithInfo_frame env db m tx _ _ res).2 x hx).imp_left fun he => ?_
    rw [he.1]
    exact ⟨hd, hne⟩

lemma checkTx_cmDB (res : CheckTxResponse) :
    (checkTx env db m tx res).2.cmDB = m.cmDB ∨
    ∃ cm, parseData tx = some (some cm) ∧ (cm.srcZone = env.shard ∨ PassesSig env cm) ∧
      (checkTx env db m tx res).2.cmDB = removeCrossMessagesDB cm m.cmDB := by
  rcases checkTx_cases env db m tx res with heq | ⟨cm, hp, hs, heq⟩ | ⟨-, heq⟩ <;> rw [heq]
  · exact .inl rfl
  · rcases (checkTxWithInfo_frame env db (m.modifyCrossMessagelist cm) tx _ _ res).1 with h | ⟨h, -⟩
    · exact .inr ⟨cm, hp, .inl hs, h⟩
    · cases h
  · rcases (checkTxWithInfo_frame env db m tx _ _ res).1 with h | ⟨-, cm, hp, hsig, h⟩
    · exact .inl h
    · exact .inr ⟨cm, hp, .inr hsig, h⟩

/-- By gossip likewise. -/
lemma receive_cmDB (peer : UInt16) (msgBytes : Bytes) (res : CheckTxResponse) :
    (receive env db m peer msgBytes res).2.cmDB = m.cmDB ∨
    ∃ tx cm, env.decodeTxMessage msgBytes = some tx ∧ parseData tx = some (some cm) ∧
      (cm.srcZone = env.shard ∨ PassesSig env cm) ∧
      (receive env db m peer msgBytes res).2.cmDB = removeCrossMessagesDB cm m.cmDB := by
  rcases receive_cases env db m peer msgBytes res with heq | ⟨tx, hd, ⟨cm, hp, hs, heq⟩ | ⟨-, heq⟩⟩ <;>
    rw [heq]
  · exact .inl rfl
  · exact .inr ⟨tx, cm, hd, hp, .inl hs, rfl⟩
  · rcases (checkTxWithInfo_frame env db m tx _ _ res).1 with h | ⟨-, cm, hp, hsig, h⟩
    · exact .inl h
    · exact .inr ⟨tx, cm, hd, hp, .inr hsig, h⟩

end Submission

/-- Compression that stores the text as it is. -/
def storedGzip : Gzip := ⟨id, some, fun _ => rfl⟩

/-- A node whose keys decode to themselves and whose signatures all verify. -/
def plainEnv (shard : String) : Env :=
  { shard := lit shard, index := lit "0", gzip := storedGzip, getPubkeyFromByte := some
    blsVerify := fun _ _ _ => true, tmpGetSign := some, shardPubkey := [2]
    decodeTxMessage := some }

def plainMempool : Mempool := newMempool ⟨1000, 1000000, false⟩ 1000 1

/-- A message of shard A that carries one relay to shard B. -/
def messageToB : CrossMessages :=
  newCrossMessage (lit "0") [relayToB.data] [1] [2] [3] (lit "/") (lit "A") (lit "B") 7 10

def poolWithMessage : Mempool := plainMempool.addTx messageToB.data 1 0

end ShardingBC
