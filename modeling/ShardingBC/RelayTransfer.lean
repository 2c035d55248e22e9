import ShardingBC.Account
import ShardingBC.TxUtils

/-!
# Transfers between shards

A transfer between shards is committed three times: as a relay in the first shard, as an `addtx` in
the receiving one, and once more in the first when the `addtx` comes back. Of each the account
package keeps the type alone, so none of them changes a balance.
-/
namespace ShardingBC

/-- A relay with the content of a transfer of a positive amount. -/
structure RelayTransfer where
  tx : TX
  log : AccountLog
  isRelay : tx.txtype = lit "relaytx"
  parsed : parseTransfer (TxArg.ofTX tx) = some log
  positive : 0 < log.amount

namespace RelayTransfer

/-- The relay in a block of the shard where it was submitted. -/
def outgoing (r : RelayTransfer) (shardA : Bytes) : TX := r.tx.updateTx shardA

/-- The relay in a block of the receiving shard, as `ClassifyTxFromBlock` rewrote it for the
message. -/
def relayed (r : RelayTransfer) (shardA shardB : Bytes) : TX :=
  ((r.outgoing shardA).repair.updateTx shardA).repair.updateTx shardB

/-- The returned `addtx` in a block of the first shard. -/
def returning (r : RelayTransfer) (shardA shardB : Bytes) : TX :=
  ((r.relayed shardA shardB).repair.updateTx shardB).repair.updateTx shardA

/-- The relay takes the amount from the spender in one shard, the relayed copy gives it to the
receiver in the other, and the acknowledgement changes nothing. The lists are what the shards
commit before and in between. -/
structure MovesMoney (r : RelayTransfer) (shardA shardB : Bytes) (dbA dbB : DB)
    (beforeA betweenA beforeB : List Bytes) : Prop where
  debited : balance (execTxs dbA (beforeA ++ [(r.outgoing shardA).data])) r.log.fromAccount =
    balance (execTxs dbA beforeA) r.log.fromAccount - r.log.amount
  credited : balance (execTxs dbB (beforeB ++ [(r.relayed shardA shardB).data])) r.log.toAccount =
    balance (execTxs dbB beforeB) r.log.toAccount + r.log.amount
  returned : ∀ account,
    balance (execTxs dbA (beforeA ++ [(r.outgoing shardA).data] ++ betweenA ++
      [(r.returning shardA shardB).data])) account =
    balance (execTxs dbA (beforeA ++ [(r.outgoing shardA).data] ++ betweenA)) account

end RelayTransfer

/-- A relay, or the `addtx` that it becomes. -/
def InTransit (t : TX) : Prop := t.txtype = lit "relaytx" ∨ t.txtype = lit "addtx"

namespace InTransit

lemma updateTx {t : TX} (h : InTransit t) (shard : Bytes) : InTransit (t.updateTx shard) := by
  have hkeep : ∀ u : TX, InTransit u → InTransit
      (if u.txtype = lit "relaytx" ∧ u.receiver = shard then { u with txtype := lit "addtx" }
        else u) := by
    intro u hu
    split_ifs
    · exact Or.inr rfl
    · exact hu
  refine hkeep _ ?_
  split_ifs
  · exact h
  · exact h

lemma repair {t : TX} (h : InTransit t) : InTransit t.repair := by
  have hrelay : toValid (lit "relaytx") = lit "relaytx" := by decide
  have hadd : toValid (lit "addtx") = lit "addtx" := by decide
  rcases h with h | h
  · left
    rw [TX.repair, h, hrelay]
  · right
    rw [TX.repair, h, hadd]

lemma ops_ofType {t : TX} (h : InTransit t) : (AccountLog.ofType t.txtype).ops = [] := by
  rw [AccountLog.ops_ofType, if_pos]
  rcases h with h | h
  · exact Or.inr (Or.inr h)
  · exact Or.inr (Or.inl h)

lemma execTx {t : TX} (h : InTransit t) (db : DB) : execTx db t.data = db := by
  have hne : t.repair.txtype ≠ lit "tx" := by
    rcases h.repair with h | h <;> rw [h] <;> decide
  rw [ShardingBC.execTx, parseTx_of_newTX (TX.newTX_data t), if_pos hne]
  simp only [AccountLog.save_eq_applyOps, h.repair.ops_ofType]
  rfl

lemma execTxs {t : TX} (h : InTransit t) (db : DB) (txs : List Bytes) :
    execTxs db (txs ++ [t.data]) = execTxs db txs := by
  rw [ShardingBC.execTxs, List.foldl_append, List.foldl_cons, h.execTx]
  rfl

end InTransit

namespace RelayTransfer

lemma inTransit_outgoing (r : RelayTransfer) (shardA : Bytes) : InTransit (r.outgoing shardA) :=
  InTransit.updateTx (Or.inl r.isRelay) shardA

lemma inTransit_relayed (r : RelayTransfer) (shardA shardB : Bytes) :
    InTransit (r.relayed shardA shardB) :=
  ((r.inTransit_outgoing shardA).repair.updateTx shardA).repair.updateTx shardB

/-- The state databases are the same after each commit on the way. -/
lemma commits_change_nothing (r : RelayTransfer) (shardA shardB : Bytes) (db : DB)
    (before : List Bytes) :
    execTxs db (before ++ [(r.outgoing shardA).data]) = execTxs db before ∧
    execTxs db (before ++ [(r.relayed shardA shardB).data]) = execTxs db before ∧
    execTxs db (before ++ [(r.returning shardA shardB).data]) = execTxs db before :=
  ⟨(r.inTransit_outgoing shardA).execTxs db before,
    (r.inTransit_relayed shardA shardB).execTxs db before,
    (((r.inTransit_relayed shardA shardB).repair.updateTx shardB).repair.updateTx shardA).execTxs db
      before⟩

/-- A transfer between shards never moves money. -/
theorem not_movesMoney (r : RelayTransfer) (shardA shardB : Bytes) (dbA dbB : DB)
    (beforeA betweenA beforeB : List Bytes) :
    ¬ r.MovesMoney shardA shardB dbA dbB beforeA betweenA beforeB := by
  intro h
  have hdebit := h.debited
  rw [(r.commits_change_nothing shardA shardB dbA beforeA).1, eq_comm, sub_eq_self] at hdebit
  have hpos := r.positive
  rw [hdebit] at hpos
  exact absurd hpos (by decide)

/-- Five coins from `x` in shard A to `y` in shard B. -/
def fiveCoins : RelayTransfer where
  tx := relayToB
  log := ⟨Digest.zero, lit "relaytx", lit "x", lit "y", lit "1", 5, 0⟩
  isRelay := rfl
  parsed := by decide +kernel
  positive := by decide

/-- Shard A before the transfer: `x` owns a hundred coins. -/
def fundedA : DB := DB.set (fun _ => none) (lit "x") (lit "100")

/-- The five coins leave no account and reach none. -/
theorem five_coins_stay :
    balance (execTxs fundedA [(fiveCoins.outgoing (lit "A")).data]) (lit "x") = 100 ∧
    balance (execTxs (fun _ => none) [(fiveCoins.relayed (lit "A") (lit "B")).data]) (lit "y") = 0 ∧
    ¬ fiveCoins.MovesMoney (lit "A") (lit "B") fundedA (fun _ => none) [] [] [] := by
  refine ⟨by decide +kernel, by decide +kernel, fun h => ?_⟩
  exact absurd h.debited (by decide +kernel)

end RelayTransfer

end ShardingBC
