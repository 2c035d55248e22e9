import ShardingBC.Commit

/-!
# Crash recovery

`ApplyBlock` writes balances long before it saves the new state. After a crash the handshake
compares the heights of the block store, of the state and of the application, and executes blocks
again. The account package gets its database from `NewBlockExecutor`, so a block that
`ExecCommitBlock` executes before the first executor exists panics at its first access to an
account.
-/
namespace ShardingBC

open Option

/-- The persistent part of a node. Blocks are in order from height 1; the accounts are kept apart
from the consensus state. -/
structure Disk where
  accounts : DB
  blocks : List (List Bytes)
  stateHeight : ℕ
  responses : ℕ → Bool

/-- How far `ApplyBlock` has written: account writes, the ABCI responses, the commit of the
application, the state. -/
inductive CrashPoint where
  | accounts (writes : ℕ)
  | responses
  | appCommit
  | state

/-- The account writes that are done at a crash point. -/
def CrashPoint.done (ops : List (Ledger.Op Bytes Int64)) : CrashPoint → List (Ledger.Op Bytes Int64)
  | .accounts writes => ops.take writes
  | _ => ops

/-- Balances after the blocks, each executed once. -/
def execChain (db : DB) (blocks : List (List Bytes)) : DB := blocks.foldl execTxs db

/-- The disk after a crash in `ApplyBlock` of the last stored block. -/
def crashDisk (genesis : DB) (chain : List (List Bytes)) (last : List Bytes) (p : CrashPoint) : Disk where
  accounts := applyOps (execChain genesis chain) (p.done (blockOps last))
  blocks := chain ++ [last]
  stateHeight := match p with
    | .state => chain.length + 1
    | _ => chain.length
  responses := fun h => match p with
    | .accounts _ => decide (h ≤ chain.length)
    | _ => decide (h ≤ chain.length + 1)

/-- Account effects while the package has no database. -/
def execUnbound (db : DB) (txs : List Bytes) : Option DB :=
  if blockOps txs = [] then some db else none

/-- `ExecCommitBlock` of a stored block. -/
def execCommitBlock (d : Disk) (height : ℕ) : Option Disk := do
  let txs ← d.blocks[height - 1]?
  let accounts ← execUnbound d.accounts txs
  some { d with accounts := accounts }

/-- `replayBlock`: `ApplyBlock` with a mock mempool. -/
def replayBlock (d : Disk) (height : ℕ) : Option Disk := do
  let txs ← d.blocks[height - 1]?
  if shardConfigsParse txs then
    some { d with
      accounts := execTxs d.accounts txs
      responses := fun h => d.responses h || h == height
      stateHeight := height }
  else none

/-- `checkAppHash` panics on a difference. -/
def checkAppHash (hashOk : Bool) (d : Disk) : Option Disk := if hashOk then some d else none

/-- `replayBlocks` from the height after the application's. -/
def replayBlocks (d : Disk) (appHeight storeHeight : ℕ) (mutateState hashOk : Bool) : Option Disk := do
  let finalBlock := if mutateState then storeHeight - 1 else storeHeight
  let d ← (List.range' (appHeight + 1) (finalBlock - appHeight)).foldlM execCommitBlock d
  let d ← (if mutateState then replayBlock d storeHeight else some d)
  checkAppHash hashOk d

/-- `ReplayBlocks` of the handshake, with the height that the application reports and whether its
hash agrees; `none` is an error or a panic. -/
def handshakeReplayBlocks (d : Disk) (appHeight : ℕ) (hashOk : Bool) : Option Disk :=
  let storeHeight := d.blocks.length
  if storeHeight = 0 then checkAppHash hashOk d
  else if storeHeight < appHeight then none
  else if storeHeight = d.stateHeight then
    if appHeight < storeHeight then replayBlocks d appHeight storeHeight false hashOk
    else checkAppHash hashOk d
  else if storeHeight = d.stateHeight + 1 then
    if appHeight < d.stateHeight then replayBlocks d appHeight storeHeight true hashOk
    else if appHeight = d.stateHeight then replayBlock d storeHeight
    else if d.responses storeHeight then replayBlock d storeHeight
    else none
  else some d

section Handshake

variable {d d' : Disk} {height appHeight : ℕ} {hashOk : Bool}

/-- Before the first executor only blocks without account effects go through. -/
lemma execCommitBlock_eq (h : execCommitBlock d height = some d') : d' = d := by
  obtain ⟨txs, -, h⟩ := bind_eq_some_iff.mp h
  obtain ⟨accounts, hexec, h⟩ := bind_eq_some_iff.mp h
  unfold execUnbound at hexec
  split_ifs at hexec
  cases hexec
  exact (some.inj h).symm

lemma foldlM_execCommitBlock {heights : List ℕ}
    (h : heights.foldlM execCommitBlock d = some d') : d' = d := by
  induction heights generalizing d with
  | nil => exact (some.inj h).symm
  | cons height heights ih =>
    obtain ⟨d1, h1, h2⟩ := bind_eq_some_iff.mp h
    rw [ih h2, execCommitBlock_eq h1]

lemma checkAppHash_eq (h : checkAppHash hashOk d = some d') : d' = d := by
  unfold checkAppHash at h
  split_ifs at h
  exact (some.inj h).symm

/-- When the state is saved, a handshake that ends changes nothing. -/
lemma handshake_saved (hsaved : d.blocks.length = d.stateHeight)
    (h : handshakeReplayBlocks d appHeight hashOk = some d') : d' = d := by
  simp only [handshakeReplayBlocks] at h
  split_ifs at h with h0 h1 h2
  · exact checkAppHash_eq h
  · obtain ⟨d1, hd1, h⟩ := bind_eq_some_iff.mp h
    obtain ⟨d2, hd2, h⟩ := bind_eq_some_iff.mp h
    cases hd2
    rw [checkAppHash_eq h, foldlM_execCommitBlock hd1]
  · exact checkAppHash_eq h

lemma handshake_unsaved (hunsaved : d.blocks.length = d.stateHeight + 1)
    (h : handshakeReplayBlocks d appHeight hashOk = some d') :
    replayBlock d d.blocks.length = some d' := by
  have hne : d.blocks.length ≠ d.stateHeight := by omega
  have hpos : d.blocks.length ≠ 0 := by omega
  simp only [handshakeReplayBlocks, if_neg hpos] at h
  split_ifs at h with h1 h2 h3 h4
  · obtain ⟨d1, hd1, h⟩ := bind_eq_some_iff.mp h
    obtain ⟨d2, hd2, h⟩ := bind_eq_some_iff.mp h
    rw [foldlM_execCommitBlock hd1] at hd2
    rw [checkAppHash_eq h]
    exact hd2
  · exact h
  · exact h

end Handshake

@[simp] lemma execChain_append (db : DB) (chain : List (List Bytes)) (last : List Bytes) :
    execChain db (chain ++ [last]) = execTxs (execChain db chain) last := by
  simp [execChain]

lemma CrashPoint.done_subset (p : CrashPoint) (ops : List (Ledger.Op Bytes Int64)) :
    p.done ops ⊆ ops := by
  cases p with
  | accounts writes => exact List.take_subset writes ops
  | _ => exact fun _ h => h

/-- After a crash and a handshake without error, the balances are those of executing every stored
block once if and only if the state was saved, or the account writes done before the crash cancel
at every account that the last block does not overwrite. -/
theorem recovered_once_iff (genesis : DB) (chain : List (List Bytes)) (last : List Bytes)
    (p : CrashPoint) (appHeight : ℕ) (hashOk : Bool) (d : Disk)
    (h : handshakeReplayBlocks (crashDisk genesis chain last p) appHeight hashOk = some d) :
    (∀ x, balance d.accounts x = balance (execChain genesis (chain ++ [last])) x) ↔
      p = .state ∨ ∀ x, Ledger.Overwrites x (blockOps last) ∨
        Ledger.added x (p.done (blockOps last)) = 0 := by
  by_cases hp : p = .state
  · subst hp
    have hd := handshake_saved (by simp [crashDisk]) h
    refine iff_of_true (fun x => ?_) (Or.inl rfl)
    rw [hd, execChain_append, execTxs_eq_applyOps]
    rfl
  · have hheight : (crashDisk genesis chain last p).stateHeight = chain.length := by
      cases p with
      | state => exact absurd rfl hp
      | _ => rfl
    have hlen : (crashDisk genesis chain last p).blocks.length = chain.length + 1 := by
      simp [crashDisk]
    have hreplay := handshake_unsaved (by rw [hlen, hheight]) h
    obtain ⟨txs, htxs, hblock⟩ := bind_eq_some_iff.mp hreplay
    split_ifs at hblock
    obtain rfl := some.inj hblock
    have hlast : txs = last := by
      simpa [crashDisk] using htxs.symm
    have hone : ∀ x, balance (execTxs (crashDisk genesis chain last p).accounts txs) x =
          balance (execChain genesis (chain ++ [last])) x ↔
        Ledger.Overwrites x (blockOps last) ∨ Ledger.added x (p.done (blockOps last)) = 0 := by
      intro x
      rw [hlast, execChain_append, balance_execTxs, balance_execTxs]
      rw [show (crashDisk genesis chain last p).accounts =
        applyOps (execChain genesis chain) (p.done (blockOps last)) from rfl, balance_applyOps]
      exact Ledger.run_run_eq_iff (p.done_subset _) _
    simp only [hone, hp, false_or]

/-- A crash before the first account write is recovered from. -/
theorem recovered_before_first_write :
    ∃ d, handshakeReplayBlocks (crashDisk (fun _ => none) [] [transfer.data] (.accounts 0)) 0 true =
      some d ∧ ∀ x, balance d.accounts x = balance (execChain (fun _ => none) [[transfer.data]]) x := by
  have hsome : (handshakeReplayBlocks (crashDisk (fun _ => none) [] [transfer.data] (.accounts 0))
      0 true).isSome := by decide +kernel
  obtain ⟨d, hd⟩ := isSome_iff_exists.mp hsome
  exact ⟨d, hd, (recovered_once_iff _ _ _ _ _ _ _ hd).mpr (Or.inr fun x => Or.inr rfl)⟩

/-- A crash after the responses are saved: the transfer is executed twice. -/
theorem recovery_executes_block_twice :
    (handshakeReplayBlocks (crashDisk (fun _ => none) [] [transfer.data] .responses) 0 true).map
      (fun d => balance d.accounts (lit "x")) = some (-10) ∧
    balance (execChain (fun _ => none) [[transfer.data]]) (lit "x") = -5 := by
  decide +kernel

end ShardingBC
