import ShardingBC.Mempool

/-!
# Who can erase a pending message

A delivered message erases pending ones through its packages. The check of a message from another
shard verifies the signature first; the two receipt paths, by RPC and by gossip, do not.
-/
namespace ShardingBC

/-- A byte string that reaches a node. -/
inductive Delivery where
  | rpc (tx : Bytes)
  | gossip (peer : UInt16) (msgBytes : Bytes)

namespace Delivery

/-- The mempool after the delivery, with the application's answer. -/
def deliver (env : Env) (db : DB) (m : Mempool) (res : CheckTxResponse) : Delivery → Mempool
  | rpc tx => (checkTx env db m tx res).2
  | gossip peer msgBytes => (receive env db m peer msgBytes res).2

/-- The message that the byte string holds. -/
def message (env : Env) : Delivery → Option CrossMessages
  | rpc tx => (parseData tx).join
  | gossip _ msgBytes =>
    if maxMsgSize < msgBytes.length then none
    else (env.decodeTxMessage msgBytes).bind fun tx => (parseData tx).join

end Delivery

/-- Some package of the message reaches a pending one. -/
def Reaches (cm : CrossMessages) (cmDB : List CrossMessage) : Prop :=
  ∃ pack ∈ cm.packages.getD [], ∃ e ∈ cmDB, e.Matches pack

lemma length_removeCrossMessagesDB_lt_iff (cm : CrossMessages) (cmDB : List CrossMessage) :
    (removeCrossMessagesDB cm cmDB).length < cmDB.length ↔ Reaches cm cmDB := by
  rw [removeCrossMessagesDB_eq_eraseFirsts, length_eraseFirsts_lt_iff]
  simp only [Reaches, matches_iff_key, List.mem_map]
  constructor
  · rintro ⟨_, ⟨pack, hpack, rfl⟩, e, he, hk⟩
    exact ⟨pack, hpack, e, he, hk⟩
  · rintro ⟨pack, hpack, e, he, hk⟩
    exact ⟨_, ⟨pack, hpack, rfl⟩, e, he, hk⟩

lemma removeCrossMessagesDB_eq_self_iff (cm : CrossMessages) (cmDB : List CrossMessage) :
    removeCrossMessagesDB cm cmDB = cmDB ↔ ¬ Reaches cm cmDB := by
  rw [← length_removeCrossMessagesDB_lt_iff]
  have hsub := removeCrossMessagesDB_sublist cm cmDB
  constructor
  · intro h
    rw [h]
    exact lt_irrefl _
  · intro h
    exact hsub.eq_of_length (le_antisymm hsub.length_le (not_lt.mp h))

section Deliver

variable (env : Env) (db : DB) (m : Mempool) (res : CheckTxResponse)

/-- A receipt of this shard erases whatever its packages reach. -/
lemma deliver_receipt {d : Delivery} {cm : CrossMessages} (hcm : d.message env = some cm)
    (hs : cm.srcZone = env.shard) :
    (d.deliver env db m res).cmDB = removeCrossMessagesDB cm m.cmDB := by
  cases d with
  | rpc tx =>
    have hp : parseData tx = some (some cm) := Option.join_eq_some_iff.mp hcm
    rcases (checkTxWithInfo_frame env db (m.modifyCrossMessagelist cm) tx unknownPeerID true
      res).1 with hkeep | ⟨hfalse, -⟩
    · simp only [Delivery.deliver, checkTx, checkDB, hp, hs]
      exact hkeep
    · exact absurd hfalse (by simp)
  | gossip peer msgBytes =>
    simp only [Delivery.message] at hcm
    split_ifs at hcm with hlen
    obtain ⟨tx, hd, hjoin⟩ := Option.bind_eq_some_iff.mp hcm
    have hp : parseData tx = some (some cm) := Option.join_eq_some_iff.mp hjoin
    simp only [Delivery.deliver, receive, hlen, hd, receiveTx, hp, hs]
    rfl

/-- Nothing else erases but a receipt or a verified message. -/
lemma deliver_cases (d : Delivery) :
    (d.deliver env db m res).cmDB = m.cmDB ∨
    ∃ cm, d.message env = some cm ∧ (cm.srcZone = env.shard ∨ PassesSig env cm) ∧
      (d.deliver env db m res).cmDB = removeCrossMessagesDB cm m.cmDB := by
  cases d with
  | rpc tx =>
    rcases checkTx_cmDB env db m tx res with h | ⟨cm, hcm, hwhy, h⟩
    · exact Or.inl h
    · exact Or.inr ⟨cm, by simp [Delivery.message, hcm], hwhy, h⟩
  | gossip peer msgBytes =>
    by_cases hlen : maxMsgSize < msgBytes.length
    · left
      simp [Delivery.deliver, receive, hlen]
    · rcases receive_cmDB env db m peer msgBytes res with h | ⟨tx, cm, hd, hcm, hwhy, h⟩
      · exact Or.inl h
      · exact Or.inr ⟨cm, by simp [Delivery.message, hlen, hd, hcm], hwhy, h⟩

end Deliver

/-- A delivery drops a pending message only after its signature and path are verified
if and only if this is so for the receipts of this shard that reach one. -/
theorem dropped_only_if_verified_iff (env : Env) (db : DB) (m : Mempool) (res : CheckTxResponse)
    (d : Delivery) :
    ((d.deliver env db m res).cmDB.length < m.cmDB.length →
      ∃ cm, d.message env = some cm ∧ PassesSig env cm) ↔
    ∀ cm, d.message env = some cm → cm.srcZone = env.shard → Reaches cm m.cmDB →
      PassesSig env cm := by
  constructor
  · intro h cm hcm hs hreach
    have hlost : (d.deliver env db m res).cmDB.length < m.cmDB.length := by
      rw [deliver_receipt env db m res hcm hs]
      exact (length_removeCrossMessagesDB_lt_iff cm m.cmDB).mpr hreach
    obtain ⟨cm', hcm', hpass⟩ := h hlost
    rw [hcm] at hcm'
    cases hcm'
    exact hpass
  · intro h hlost
    rcases deliver_cases env db m res d with hsame | ⟨cm, hcm, hwhy, hcmDB⟩
    · rw [hsame] at hlost
      exact absurd hlost (lt_irrefl _)
    · rcases hwhy with hs | hpass
      · rw [hcmDB, length_removeCrossMessagesDB_lt_iff] at hlost
        exact ⟨cm, hcm, h cm hcm hs hlost⟩
      · exact ⟨cm, hcm, hpass⟩

/-- A receipt without signature, in the name of shard A, for its message. -/
def forgedReceipt : CrossMessages :=
  { acknowledgementOf messageToB with crossMerkleRoot := some [], srcZone := lit "A" }

def poolWithPending : Mempool := { plainMempool with cmDB := [⟨messageToB, 0⟩] }

/-- By RPC and by gossip it erases the pending message. -/
theorem forged_receipt_drops_message :
    ((Delivery.rpc forgedReceipt.data).deliver (plainEnv "A") (fun _ => none) poolWithPending
      ⟨true, 1⟩).cmDB = [] ∧
    ((Delivery.gossip 1 forgedReceipt.data).deliver (plainEnv "A") (fun _ => none) poolWithPending
      ⟨true, 1⟩).cmDB = [] ∧
    (Delivery.rpc forgedReceipt.data).message (plainEnv "A") = some forgedReceipt ∧
    ¬ PassesSig (plainEnv "A") forgedReceipt := by
  refine ⟨by decide +kernel, by decide +kernel, by decide +kernel, ?_⟩
  intro h
  have hsig : checkCrossMessageSig (plainEnv "A")
      (forgedReceipt.decompression (plainEnv "A").gzip).2 = some false := by decide +kernel
  rw [PassesSig, hsig] at h
  exact absurd h.2 (by simp)

end ShardingBC
