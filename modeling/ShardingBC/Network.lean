import ShardingBC.Commit
import ShardingBC.Runs

/-!
# One shard as a network of nodes

Every node has its mempool and its database and has applied some of the committed blocks.
Transactions reach a node by RPC or by gossip, in any order; any node may propose a block after its
last applied one; consensus picks one proposed block for each height; and every node commits the
picked blocks at its own pace, whether or not it holds their messages.
-/
namespace ShardingBC

/-- The messages whose relay transactions `reapLoop` returns. -/
def takenMessages (env : Env) (maxBytes maxGas : Int64) :
    Int64 → Int64 → List MempoolTx → List CrossMessages
  | _, _, [] => []
  | totalBytes, totalGas, memTx :: rest =>
    let totalBytes' := totalBytes + (Int64.ofNat memTx.tx.length + computeAminoOverhead memTx.tx)
    let totalGas' := totalGas + memTx.gasWanted
    match parseData memTx.tx with
    | none => []
    | some (some cm) =>
      if (cm.transactions env.gzip).isNone then
        takenMessages env maxBytes maxGas totalBytes totalGas rest
      else if overBytes maxBytes totalBytes memTx.tx || overGas maxGas totalGas' then []
      else cm :: takenMessages env maxBytes maxGas totalBytes' totalGas' rest
    | some none =>
      if overBytes maxBytes totalBytes memTx.tx || overGas maxGas totalGas' then []
      else takenMessages env maxBytes maxGas totalBytes' totalGas' rest

lemma takenMessages_spec {env : Env} {maxBytes maxGas height : Int64} {xs : List MempoolTx}
    {totalBytes totalGas : Int64} {txs : List Bytes} {rows : List RelationTable}
    (h : reapLoop env maxBytes maxGas height totalBytes totalGas xs = some (txs, rows))
    {cm : CrossMessages} (hcm : cm ∈ takenMessages env maxBytes maxGas totalBytes totalGas xs) :
    (∃ x ∈ xs, IsMessage x cm) ∧ ∃ txlist relays, cm.transactions env.gzip = some txlist ∧
      relayTxs txlist = some relays ∧ ∀ raw ∈ relays, raw ∈ txs := by
  induction xs generalizing totalBytes totalGas txs rows with
  | nil => simp [takenMessages] at hcm
  | cons y ys ih =>
    simp only [reapLoop] at h
    simp only [takenMessages] at hcm
    split at h
    · exact absurd h (by simp)
    · rename_i c hc
      simp only [hc] at hcm
      split at h
      · rename_i htl
        simp only [htl] at hcm
        obtain ⟨⟨x, hx, hxc⟩, hrest⟩ := ih h hcm
        exact ⟨⟨x, by simp [hx], hxc⟩, hrest⟩
      · rename_i txlist htl
        simp only [htl, Option.isNone_some] at hcm
        split at h
        · exact absurd h (by simp)
        · rename_i relays hrel
          split_ifs at h with hb hg
          · simp [hb] at hcm
          · simp [hg] at hcm
          · obtain ⟨⟨txs', rows'⟩, hrest, he⟩ := Option.map_eq_some_iff.mp h
            cases he
            simp only [hb, hg, Bool.or_false, Bool.false_eq_true, if_false,
              List.mem_cons] at hcm
            rcases hcm with rfl | hcm
            · exact ⟨⟨y, by simp, hc⟩, txlist, relays, htl, hrel, fun raw hr => by simp [hr]⟩
            · obtain ⟨⟨x, hx, hxc⟩, tl, rl, h1, h2, h3⟩ := ih hrest hcm
              exact ⟨⟨x, by simp [hx], hxc⟩, tl, rl, h1, h2, fun raw hr => by
                simp [h3 raw hr]⟩
    · rename_i hc
      simp only [hc] at hcm
      split_ifs at h with hp hb hg
      · simp [hb] at hcm
      · simp [hg] at hcm
      · obtain ⟨⟨txs', rows'⟩, hrest, he⟩ := Option.map_eq_some_iff.mp h
        cases he
        simp only [hb, hg] at hcm
        obtain ⟨⟨x, hx, hxc⟩, tl, rl, h1, h2, h3⟩ := ih hrest hcm
        exact ⟨⟨x, by simp [hx], hxc⟩, tl, rl, h1, h2, fun raw hr => by simp [h3 raw hr]⟩

structure Node where
  mem : Mempool
  db : DB
  applied : ℕ

/-- A block proposed after so many blocks, with the messages reaped for it. -/
structure ProposedBlock where
  proposal : Proposal
  parents : ℕ
  taken : List CrossMessages

structure Network (ι : Type*) where
  nodes : ι → Node
  proposed : List ProposedBlock
  chain : List ProposedBlock

/-- A proposal is decided by its position; `recheck` is an element that the application refuses
after a commit. -/
inductive NetEvent (ι : Type*) where
  | checkTx (i : ι) (tx : Bytes) (res : CheckTxResponse)
  | receive (i : ι) (peer : UInt16) (msgBytes : Bytes) (res : CheckTxResponse)
  | recheck (i : ι) (x : MempoolTx)
  | propose (i : ι) (maxBytes maxGas : Int64)
  | prevote (i : ι) (b : Proposal)
  | decide (k : ℕ)
  | commit (i : ι) (inp : CommitInput)

/-- Height of the block after so many blocks. -/
def heightAfter (n : ℕ) : Int64 := Int64.ofNat (n + 1)

namespace Network

variable {ι : Type*} [DecidableEq ι]

def setNode (net : Network ι) (i : ι) (node : Node) : Network ι :=
  { net with nodes := Function.update net.nodes i node }

def setMem (net : Network ι) (i : ι) (m : Mempool) : Network ι :=
  net.setNode i { net.nodes i with mem := m }

def step (env : Env) (net : Network ι) : NetEvent ι → Option (Network ι)
  | .checkTx i tx res =>
    some (net.setMem i (checkTx env (net.nodes i).db (net.nodes i).mem tx res).2)
  | .receive i peer msgBytes res =>
    some (net.setMem i (receive env (net.nodes i).db (net.nodes i).mem peer msgBytes res).2)
  | .recheck i x => some (net.setMem i ((net.nodes i).mem.removeTx x true))
  | .propose i maxBytes maxGas =>
    let node := net.nodes i
    (createProposalBlock env node.mem maxBytes maxGas (heightAfter node.applied)).map fun r =>
      { net.setMem i r.2 with
        proposed := net.proposed ++
          [⟨r.1, node.applied, takenMessages env maxBytes maxGas 0 0 node.mem.txs.elems⟩] }
  | .prevote i b =>
    let node := net.nodes i
    some (net.setMem i (judgeBlockPakcages node.mem b (heightAfter node.applied)))
  | .decide k =>
    net.proposed[k]?.bind fun b =>
      if b.parents = net.chain.length then some { net with chain := net.chain ++ [b] } else none
  | .commit i inp =>
    let node := net.nodes i
    net.chain[node.applied]?.bind fun b =>
      (finalizeCommit env (node.mem, node.db) b.proposal (heightAfter node.applied) inp).map
        fun r => net.setNode i ⟨r.1.1, r.1.2, node.applied + 1⟩

end Network

end ShardingBC
