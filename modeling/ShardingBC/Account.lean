import ShardingBC.Identypes
import ShardingBC.Ledger

/-!
# Account state

Package `account`: a transaction is parsed into an account log, whose `Save` writes balances as
decimal strings into the state database, which it shares with the consensus state and the record of
processed messages.
-/
namespace ShardingBC
open Json List Option

/-- The state database. -/
abbrev DB := Bytes → Option Bytes

namespace DB

def set (db : DB) (key val : Bytes) : DB := fun k => if k = key then some val else db k

@[simp] lemma set_same (db : DB) (k v : Bytes) : db.set k v k = some v := by simp [set]

lemma set_other (db : DB) {k k' : Bytes} (v : Bytes) (h : k' ≠ k) : db.set k v k' = db k' := by
  simp [set, h]

end DB

structure TxArg where
  id : Digest
  txType : Bytes
  sender : Bytes
  receiver : Bytes
  content : Bytes
  txSignature : Bytes
  operate : Int64

namespace TxArg

def zero : TxArg := ⟨Digest.zero, [], [], [], [], [], 0⟩

def fields : List (FieldDecoder TxArg) :=
  [field "id" id (fun t x => { t with id := x }) decodeDigest,
   field "txType" txType (fun t x => { t with txType := x }) decodeString,
   field "sender" sender (fun t x => { t with sender := x }) decodeString,
   field "receiver" receiver (fun t x => { t with receiver := x }) decodeString,
   field "content" content (fun t x => { t with content := x }) decodeString,
   field "txSignature" txSignature (fun t x => { t with txSignature := x }) decodeString,
   field "operate" operate (fun t x => { t with operate := x }) decodeInt]

end TxArg

structure AccountLog where
  id : Digest
  txType : Bytes
  fromAccount : Bytes
  toAccount : Bytes
  time : Bytes
  amount : Int64
  operate : Int64
deriving DecidableEq

/-- The log of anything but a plain transfer: its type. -/
def AccountLog.ofType (txType : Bytes) : AccountLog := ⟨Digest.zero, txType, [], [], [], 0, 0⟩

/-- The log of a plain transfer: its content is `from_to_amount_time`. -/
def parseTransfer (arg : TxArg) : Option AccountLog :=
  match split arg.content 95 with
  | [from', to', amount, time] =>
    if (atoi amount).2 then
      some ⟨arg.id, arg.txType, from', to', time, (atoi amount).1, arg.operate⟩
    else none
  | _ => none

/-- `_parseTx`, which is also `NewAccountLog`; `none` is the nil log. -/
def parseTx (tx : Bytes) : Option AccountLog :=
  let r := unmarshal (decodeStruct TxArg.fields) TxArg.zero tx
  if r.2 then
    if r.1.txType ≠ lit "tx" then some (AccountLog.ofType r.1.txType) else parseTransfer r.1
  else none

/-! ## The two readings of a transaction

`NewTX` and `_parseTx` decode the same text into different structs. The fields of
the second are fields of the first, up to case. -/

/-- What the account package reads of a transaction. -/
def TxArg.ofTX (t : TX) : TxArg :=
  ⟨t.id, t.txtype, t.sender, t.receiver, t.content, t.txSignature, t.operate⟩

lemma TX.lookup_fields (k : Bytes) :
    lookup TX.fields k = (TX.fields.find? fun f => f.1.map upper == normKey k).map (·.2) :=
  lookup_eq_find (by decide +kernel) (by decide +kernel) k

lemma TxArg.lookup_fields (k : Bytes) :
    lookup TxArg.fields k = (TxArg.fields.find? fun f => f.1.map upper == normKey k).map (·.2) :=
  lookup_eq_find (by decide +kernel) (by decide +kernel) k

lemma TxArg.named_in_TX : ∀ f ∈ TxArg.fields, ∃ g ∈ TX.fields,
    g.1.map upper = f.1.map upper := by
  decide +kernel

lemma TxArg.decode_ofTX (t : TX) (kvs : List (Bytes × Json))
    (hok : (decodeMembers TX.fields t kvs).2 = true) :
    decodeMembers TxArg.fields (ofTX t) kvs = (ofTX (decodeMembers TX.fields t kvs).1, true) := by
  refine decodeMembers_map ofTX ?_ t kvs hok
  intro k s v
  rw [TX.lookup_fields, TxArg.lookup_fields]
  by_cases h : ∃ f ∈ TX.fields, f.1.map upper = normKey k
  · obtain ⟨f, hf, hn⟩ := h
    rw [← hn]
    simp only [TX.fields, mem_cons, not_mem_nil, or_false] at hf
    rcases hf with rfl | rfl | rfl | rfl | rfl | rfl | rfl | rfl
    · exact ⟨_, rfl, field_map ofTX decodeString s v rfl fun _ => rfl⟩
    · exact ⟨_, rfl, field_map ofTX decodeString s v rfl fun _ => rfl⟩
    · exact ⟨_, rfl, field_map ofTX decodeString s v rfl fun _ => rfl⟩
    · exact ⟨_, rfl, field_map ofTX decodeDigest s v rfl fun _ => rfl⟩
    · exact ⟨_, rfl, field_map ofTX decodeString s v rfl fun _ => rfl⟩
    · exact ⟨_, rfl, field_map ofTX decodeString s v rfl fun _ => rfl⟩
    · exact ⟨_, rfl, field_map ofTX decodeInt s v rfl fun _ => rfl⟩
    · rintro d ⟨⟩
      rfl
  · have hTX : TX.fields.find? (fun f => f.1.map upper == normKey k) = none := by
      rw [find?_eq_none]
      intro f hf hn
      exact h ⟨f, hf, by simpa using hn⟩
    have hArg : TxArg.fields.find? (fun f => f.1.map upper == normKey k) = none := by
      rw [find?_eq_none]
      intro f hf hn
      obtain ⟨g, hg, hgf⟩ := TxArg.named_in_TX f hf
      exact h ⟨g, hg, hgf.trans (by simpa using hn)⟩
    rw [hTX, hArg]
    rintro d ⟨⟩

lemma TxArg.unmarshal_of_newTX {tx : Bytes} {t : TX} (h : newTX tx = some t) :
    unmarshal (decodeStruct fields) zero tx = (ofTX t, true) := by
  simp only [newTX, ite_none_right_eq_some, some.injEq] at h
  obtain ⟨hok, rfl⟩ := h
  unfold unmarshal at hok ⊢
  cases hp : parse tx with
  | none => simp [hp] at hok
  | some v =>
    rw [hp] at hok
    cases v with
    | obj kvs => exact decode_ofTX TX.zero kvs hok
    | null => rfl
    | _ => simp [decodeStruct] at hok

/-- A transaction that `NewTX` accepts is parsed by its type. -/
lemma parseTx_of_newTX {tx : Bytes} {t : TX} (h : newTX tx = some t) :
    parseTx tx = if t.txtype ≠ lit "tx" then some (AccountLog.ofType t.txtype)
      else parseTransfer (TxArg.ofTX t) := by
  simp only [parseTx, TxArg.unmarshal_of_newTX h]
  rfl

/-- `_byte2digit`; a missing or malformed value counts as zero. -/
def byte2digit (val : Option Bytes) : Int64 := (atoi (val.getD [])).1

def digit2byte (num : Int64) : Bytes := formatInt num

def balance (db : DB) (account : Bytes) : Int64 := byte2digit (db account)

lemma balance_set (db : DB) (account : Bytes) (v : Int64) (x : Bytes) :
    balance (db.set account (digit2byte v)) x = if x = account then v else balance db x := by
  by_cases h : x = account
  · simp [balance, byte2digit, digit2byte, h]
  · simp [balance, DB.set_other db _ h, h]

namespace AccountLog

/-- `AccountLog.Check`: its rejections are switched off. -/
def check (db : DB) (a : AccountLog) : Bool :=
  if a.txType = lit "checkpoint" ∨ a.txType = lit "addtx" then true
  else if a.amount ≤ 0 then true
  else if a.txType = lit "relaytx" ∧ a.operate = 1 then true
  else if a.fromAccount ≠ [] ∧ db a.fromAccount = none ∧ a.txType ≠ lit "init" then true
  else if a.fromAccount ≠ [] ∧ db a.toAccount = none ∧
      ¬ (a.txType = lit "relaytx" ∧ a.operate = 0) then true
  else if a.fromAccount ≠ [] ∧ balance db a.fromAccount < a.amount then true
  else true

@[simp] lemma check_eq_true (db : DB) (a : AccountLog) : a.check db = true := by
  simp [check]

/-- The spending half of `AccountLog.Save`. -/
def spend (db : DB) (a : AccountLog) : DB :=
  if (a.txType ≠ lit "relaytx" ∨ a.operate = 0) ∧ a.fromAccount ≠ [] then
    db.set a.fromAccount (digit2byte (balance db a.fromAccount - a.amount))
  else db

/-- The receiving half: without a spender the balance is overwritten. -/
def receive (db : DB) (a : AccountLog) : DB :=
  if a.txType ≠ lit "relaytx" ∨ a.operate = 1 then
    db.set a.toAccount
      (digit2byte (if a.fromAccount ≠ [] then balance db a.toAccount + a.amount else a.amount))
  else db

/-- `AccountLog.Save` on the database. -/
def save (db : DB) (a : AccountLog) : DB :=
  if a.txType = lit "checkpoint" ∨ a.txType = lit "addtx" then db
  else receive (spend db a) a

end AccountLog

/-- The account effect of one transaction in `execBlockOnProxyApp`. -/
def execTx (db : DB) (tx : Bytes) : DB :=
  match parseTx tx with
  | some accountLog => accountLog.save db
  | none => db

/-- The account effects of `execBlockOnProxyApp`, in block order. -/
def execTxs (db : DB) (txs : List Bytes) : DB := txs.foldl execTx db

/-- Parsing yields the bare type of a transaction, or a transfer. -/
lemma parseTx_cases {tx : Bytes} {a : AccountLog} (h : parseTx tx = some a) :
    (∃ ty, ty ≠ lit "tx" ∧ a = AccountLog.ofType ty) ∨ a.txType = lit "tx" := by
  simp only [parseTx] at h
  split_ifs at h with hok hty
  · left
    exact ⟨_, hty, (some.inj h).symm⟩
  · right
    rw [not_not] at hty
    unfold parseTransfer at h
    split at h
    · split_ifs at h
      cases h
      exact hty
    · exact absurd h (by simp)

namespace AccountLog

/-- Only the two accounts of the log are written. -/
lemma save_other (db : DB) (a : AccountLog) {x : Bytes} (hfrom : x ≠ a.fromAccount)
    (hto : x ≠ a.toAccount) : a.save db x = db x := by
  have hspend : spend db a x = db x := by
    unfold spend
    split_ifs
    · exact DB.set_other db _ hfrom
    · rfl
  have hreceive : receive (spend db a) a x = db x := by
    unfold receive
    split_ifs
    · rw [DB.set_other _ _ hto, hspend]
    · rw [DB.set_other _ _ hto, hspend]
    · exact hspend
  unfold save
  split_ifs
  · rfl
  · exact hreceive

end AccountLog

instance int64AddCommGroup : AddCommGroup Int64 where
  add_assoc := Int64.add_assoc
  zero_add := Int64.zero_add
  add_zero := Int64.add_zero
  nsmul := nsmulRec
  zsmul := zsmulRec
  neg_add_cancel := Int64.add_left_neg
  sub_eq_add_neg := Int64.sub_eq_add_neg
  add_comm := Int64.add_comm

/-- The writes of `AccountLog.Save`, in order. -/
def AccountLog.ops (a : AccountLog) : List (Ledger.Op Bytes Int64) :=
  if a.txType = lit "checkpoint" ∨ a.txType = lit "addtx" then []
  else
    (if (a.txType ≠ lit "relaytx" ∨ a.operate = 0) ∧ a.fromAccount ≠ [] then
      [.add a.fromAccount (-a.amount)] else []) ++
    (if a.txType ≠ lit "relaytx" ∨ a.operate = 1 then
      [if a.fromAccount ≠ [] then .add a.toAccount a.amount else .put a.toAccount a.amount] else [])

def applyOp (db : DB) : Ledger.Op Bytes Int64 → DB
  | .add account v => db.set account (digit2byte (balance db account + v))
  | .put account v => db.set account (digit2byte v)

def applyOps (db : DB) (ops : List (Ledger.Op Bytes Int64)) : DB := ops.foldl applyOp db

def txOps (tx : Bytes) : List (Ledger.Op Bytes Int64) := (parseTx tx).elim [] AccountLog.ops

def blockOps (txs : List Bytes) : List (Ledger.Op Bytes Int64) := txs.flatMap txOps

lemma AccountLog.ops_ofType (ty : Bytes) :
    (ofType ty).ops =
      if ty = lit "checkpoint" ∨ ty = lit "addtx" ∨ ty = lit "relaytx" then []
      else [.put [] 0] := by
  by_cases h1 : ty = lit "checkpoint" ∨ ty = lit "addtx"
  · have h1' : ty = lit "checkpoint" ∨ ty = lit "addtx" ∨ ty = lit "relaytx" := by tauto
    simp [ops, ofType, h1, h1']
  · by_cases h2 : ty = lit "relaytx"
    · simp [ops, ofType, h2]
    · simp [ops, ofType, h2]

/-- A transfer takes from one account and adds to another; without a spender it overwrites. -/
lemma AccountLog.ops_transfer {a : AccountLog} (hty : a.txType = lit "tx") :
    a.ops = if a.fromAccount ≠ [] then [.add a.fromAccount (-a.amount), .add a.toAccount a.amount]
      else [.put a.toAccount a.amount] := by
  have h1 : ¬ (a.txType = lit "checkpoint" ∨ a.txType = lit "addtx") := by
    rw [hty]
    decide
  have h2 : a.txType ≠ lit "relaytx" := by
    rw [hty]
    decide
  by_cases hf : a.fromAccount = [] <;> simp [ops, h1, h2, hf]

lemma AccountLog.save_eq_applyOps (db : DB) (a : AccountLog) : a.save db = applyOps db a.ops := by
  unfold save ops
  split_ifs with h1 h2 h3 h4 h5 h6 <;>
    simp_all [applyOps, applyOp, spend, receive, Int64.sub_eq_add_neg]

lemma execTxs_eq_applyOps (db : DB) (txs : List Bytes) :
    execTxs db txs = applyOps db (blockOps txs) := by
  induction txs generalizing db with
  | nil => rfl
  | cons tx txs ih =>
    have hone : execTx db tx = applyOps db (txOps tx) := by
      unfold execTx txOps
      cases parseTx tx with
      | none => rfl
      | some a => exact a.save_eq_applyOps db
    rw [execTxs, foldl_cons, ← execTxs, ih, hone]
    simp [applyOps, blockOps]

/-- On balances the database is a ledger. -/
@[simp] lemma balance_applyOps (db : DB) (ops : List (Ledger.Op Bytes Int64)) :
    balance (applyOps db ops) = Ledger.run (balance db) ops := by
  induction ops generalizing db with
  | nil => rfl
  | cons o ops ih =>
    have hone : balance (applyOp db o) = o.act (balance db) := by
      funext x
      cases o with
      | add account v =>
        rw [applyOp, balance_set, Ledger.Op.act, Function.update_apply]
      | put account v =>
        rw [applyOp, balance_set, Ledger.Op.act, Function.update_apply]
    rw [Ledger.run_cons, ← hone]
    exact ih (applyOp db o)

@[simp] lemma balance_execTxs (db : DB) (txs : List Bytes) :
    balance (execTxs db txs) = Ledger.run (balance db) (blockOps txs) := by
  rw [execTxs_eq_applyOps, balance_applyOps]

end ShardingBC
