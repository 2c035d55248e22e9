import ShardingBC.Agreement

/-!
# Decided heights

A precommit that gives a block two thirds of the power decides the height. The node goes to the
commit step, unless the checkpoint of its proposal block does not agree with its own pending
messages.
-/
namespace ShardingBC.Consensus

open FourValidators Runs

variable {E : Electorate} {β : Type}

@[simp] lemma RoundStep.commit_le {s : RoundStep} : RoundStep.commit ≤ s ↔ s = .commit := by
  cases s <;> decide

variable {n n' : Node E β} {cfg : Config E β} {height round : ℤ}

namespace Recorded

variable {may : Recorded E β → PartSet → β → Prop} {h : ℤ} {m m' : Recorded E β}

lemma Change.nonneg (hs : Change cfg may h m m') (hround : 0 ≤ m.round) : 0 ≤ m'.round := by
  cases hs with
  | stays hs => exact hround.trans hs.advances.round
  | store hheight hstores =>
    obtain ⟨_, _, _, rfl, -⟩ := hstores
    exact hround
  | next hnew => exact le_rfl
  | _ => exact hround

lemma Reacts.nonneg {x : Logged SignCall (Recorded E β)} (hx : Reacts cfg may h m x)
    (hm : x.result = some m') (hround : 0 ≤ m.round) : 0 ≤ m'.round := by
  have hpath : Logged.Path (Change cfg may h) (Cast cfg h) m x.log (some m') := hm ▸ hx
  exact hpath.invariant (P := fun m => 0 ≤ m.round) (fun _ _ h hs => hs.nonneg h)
    (fun _ _ _ h hc => h.trans hc.advances.round) hround

lemma handle_nonneg {e : Event β} (hround : 0 ≤ m.round)
    (hrun : (m.handle cfg e).result = some m') : 0 ≤ m'.round := by
  cases hvotes : m.toNode.votesAfter e with
  | none =>
    rw [handle_of_votesAfter_eq_none hvotes] at hrun
    cases hrun
  | some votes =>
    have hreacts : Reacts cfg (fun _ _ _ => True) m.height { m with votes := votes }
      (m.handle cfg e) := handle_reacts hvotes fun _ _ _ _ _ _ _ _ => trivial
    exact hreacts.nonneg hrun hround

lemma enterCommit_cases (hstep : m.step ≠ .commit)
    (hrun : (m.enterCommit cfg m.height round).result = some m') :
    m'.height = m.height ∧ m'.step = .commit ∧ m'.commitRound = round ∨
      m'.height = m.height + 1 := by
  unfold enterCommit at hrun
  rw [if_neg (by simp [hstep]), Logged.result_bind] at hrun
  obtain ⟨z, -, hrest⟩ := Option.bind_eq_some_iff.mp hrun
  obtain ⟨n, hn, rfl⟩ := Option.map_eq_some_iff.mp hrest
  have hheight : (m.selectCommitBlock cfg z).height = m.height :=
    (Acts.advances (h := 0) (x := pure _) (selectCommitBlock_path (.ends _)) rfl).height
  rw [settle_toNode]
  obtain ⟨-, hstores | ⟨n₁, hstores, hup⟩⟩ := Node.tryFinalizeCommit_cases hn
  · obtain ⟨_, _, _, rfl, -⟩ := hstores
    exact .inl ⟨hheight, rfl, rfl⟩
  · obtain ⟨votes, -, rfl⟩ := Node.updateToState_eq hup
    obtain ⟨_, _, _, rfl, -⟩ := hstores
    exact .inr (congrArg (· + 1) hheight)

lemma enterNewRound_of_commit (hround : 0 ≤ m.round) (hstep : m.step = .commit) :
    m.enterNewRound cfg m.height 0 = pure m := by
  refine if_pos ?_
  rcases hround.lt_or_eq with hlt | heq
  · exact .inr (.inl hlt)
  · exact .inr (.inr ⟨heq.symm, by simp [hstep]⟩)

/-- The precommits for a block are acted on. -/
lemma afterPrecommit_commits {x : BlockID} (hround : 0 ≤ m.round) (hstep : m.step ≠ .commit)
    (hmaj : m.votes.majority round .precommit = some x) (hx : x.hash ≠ [])
    (hrun : (m.afterPrecommit cfg m.height round).result = some m') :
    m.height < m'.height ∨ m'.step = .commit ∧ m'.commitRound = round := by
  unfold afterPrecommit at hrun
  rw [hmaj, Logged.result_bind] at hrun
  obtain ⟨m₁, hnew, hrest₁⟩ := Option.bind_eq_some_iff.mp hrun
  rw [Logged.result_bind] at hrest₁
  obtain ⟨m₂, hprecommit, hrest₂⟩ := Option.bind_eq_some_iff.mp hrest₁
  have hadv₁ := (enterNewRound_acts (.inl rfl)).advances hnew
  have hle := enterNewRound_round_le rfl hnew
  have hadv := hadv₁.trans ((enterPrecommit_acts hadv₁.height fun h => ⟨h, .inl hle⟩).advances
    hprecommit)
  rw [if_pos hx, Logged.result_bind] at hrest₂
  obtain ⟨m₃, hcommit, hrest₃⟩ := Option.bind_eq_some_iff.mp hrest₂
  have hreacts : Reacts cfg (fun _ _ _ => True) m.height m₂ (m₂.enterCommit cfg m.height round) :=
    enterCommit_reacts
  have hnonneg : 0 ≤ m₃.round := hreacts.nonneg hcommit (hround.trans hadv.round)
  rw [← hadv.height] at hcommit
  rcases enterCommit_cases (fun hc => hstep (hadv.commit hc)) hcommit with
    ⟨-, hstep₃, hround₃⟩ | hheight
  · rw [enterNewRound_of_commit hnonneg hstep₃, ite_self] at hrest₃
    cases hrest₃
    exact .inr ⟨hstep₃, hround₃⟩
  · have hh := hadv.height
    have hheight₃ : m'.height = m₃.height := by
      split_ifs at hrest₃
      · exact ((enterNewRound_acts (.inl rfl)).advances hrest₃).height
      · cases hrest₃
        rfl
    exact .inl (by omega)

end Recorded

lemma Node.run_nonneg {n₀ : Node E β} {events : List (Event β)}
    (hrun : run (Node.handle cfg) n₀ events = some n) (hround : 0 ≤ n₀.round) : 0 ≤ n.round := by
  refine invariant (P := fun n : Node E β => 0 ≤ n.round) (fun n e n' h hstep => ?_) hrun hround
  obtain ⟨m', hm', rfl⟩ :=
    (Recorded.handle_projects cfg ⟨n, none, false, false⟩ e).exists_eq hstep
  exact Recorded.handle_nonneg h hm'

/-- A precommit that decides the height brings about the commit, unless the checkpoint in the
proposal block does not agree with the pending messages. -/
theorem decided_height_committed_iff (cfg : Config E β) (n₀ : Node E β) (hstart : 0 ≤ n₀.round)
    (events : List (Event β)) (n : Node E β) (hreach : run (Node.handle cfg) n₀ events = some n)
    (vote : Vote) (peerID : Bytes) (allCms : List CrossMessages) (hheight : vote.height = n.height)
    (htype : vote.type = .precommit) (votes : HeightVoteSet E) (err : Option VoteError)
    (hadd : n.votes.addVote vote peerID = some (votes, true, err)) (x : BlockID)
    (hmaj : votes.majority vote.round .precommit = some x) (hx : x.hash ≠ []) (n' : Node E β)
    (hrun : n.addVote cfg vote peerID allCms = some n') :
    (n.height < n'.height ∨ (n'.step = .commit ∧ n'.commitRound = vote.round) ∨
      n.step = .commit) ↔ (n.step = .commit ∨ n.checkpointAgrees cfg allCms) := by
  have hround : 0 ≤ n.round := Node.run_nonneg hreach hstart
  unfold Node.addVote at hrun
  rw [if_neg (by omega), if_neg (not_not.mpr hheight), hadd] at hrun
  simp only [Option.bind_eq_bind, Option.bind_some, Bool.not_true, Bool.false_or] at hrun
  by_cases hstep : n.step = .commit
  · simp [hstep]
  · split at hrun
    · rename_i hmismatch
      have hagrees : n.checkpointAgrees cfg allCms = false := by
        rw [Bool.not_eq_true'] at hmismatch
        exact hmismatch
      cases hrun
      simp [hstep, hagrees]
    · rename_i hmatch
      have hagrees : n.checkpointAgrees cfg allCms = true := by
        rw [Bool.not_eq_true', Bool.not_eq_false] at hmatch
        exact hmatch
      rw [htype] at hrun
      obtain ⟨m', hm', rfl⟩ := (Recorded.afterPrecommit_projects cfg
        ⟨{ n with votes := votes }, none, false, false⟩ n.height vote.round).exists_eq hrun
      have hcommit := Recorded.afterPrecommit_commits hround hstep hmaj hx hm'
      simp [hagrees, ← or_assoc, hcommit]

/-- A node whose proposal block has the checkpoint of the given messages. -/
def withCheckpoint (pending : List CrossMessages) : Config fourValidators (Fin 2) :=
  { twoBlocks 0 with txs := fun _ => [(conver2cptx pending 1).data] }

/-- The node has prevoted block 0 and has two precommits. -/
def beforeDecision : List (Event (Fin 2)) :=
  [fires 0 .newHeight, proposal 0 (-1) (idOf 0), block 0, precommitBy 0 0 (idOf 0),
    precommitBy 0 2 (idOf 0)]

/-- The precommit of the last validator, which decides. -/
def decidingVote : Vote :=
  ⟨.precommit, 5, 0, idOf 0, 0, keyAddress [3], 3, [3], some ⟨[], 1⟩, some ⟨[], 1⟩⟩

/-- The state, the votes and the state after the deciding vote. -/
def decision (cfg : Config fourValidators (Fin 2)) :
    Option (Node fourValidators (Fin 2) × HeightVoteSet fourValidators ×
      Node fourValidators (Fin 2)) := do
  let n ← run (Node.handle cfg) atHeight5 beforeDecision
  let (votes, added, _) ← n.votes.addVote decidingVote []
  let n' ← n.addVote cfg decidingVote [] []
  if added ∧ votes.majority 0 .precommit = some (idOf 0) then some (n, votes, n') else none

lemma decision_spec {cfg : Config fourValidators (Fin 2)} {n n' : Node fourValidators (Fin 2)}
    {votes : HeightVoteSet fourValidators} (h : decision cfg = some (n, votes, n')) :
    run (Node.handle cfg) atHeight5 beforeDecision = some n ∧
      (∃ err, n.votes.addVote decidingVote [] = some (votes, true, err)) ∧
      votes.majority 0 .precommit = some (idOf 0) ∧ n.addVote cfg decidingVote [] [] = some n' := by
  obtain ⟨m, hreach, h₁⟩ := Option.bind_eq_some_iff.mp h
  obtain ⟨⟨votes', added, err⟩, hadd, h₂⟩ := Option.bind_eq_some_iff.mp h₁
  obtain ⟨m', hrun, h₃⟩ := Option.bind_eq_some_iff.mp h₂
  split_ifs at h₃ with hmaj
  obtain ⟨rfl, rfl, rfl⟩ : m = n ∧ votes' = votes ∧ m' = n' := by simpa using h₃
  exact ⟨hreach, ⟨err, by rw [hadd, hmaj.1]⟩, hmaj.2, hrun⟩

/-- Where the checkpoint agrees the block is committed. -/
theorem agreeing_checkpoint_commits :
    ∃ n n', run (Node.handle (withCheckpoint [])) atHeight5 beforeDecision = some n ∧
      n.addVote (withCheckpoint []) decidingVote [] [] = some n' ∧
      (n.height < n'.height ∨ (n'.step = .commit ∧ n'.commitRound = 0) ∨ n.step = .commit) := by
  obtain ⟨⟨n, votes, n'⟩, hdecision, hheight, hagrees⟩ : ∃ r, decision (withCheckpoint []) = some r ∧
      r.1.height = 5 ∧ r.1.checkpointAgrees (withCheckpoint []) [] :=
    Runs.exists_of_any (by decide +kernel)
  obtain ⟨hreach, ⟨err, hadd⟩, hmaj, hrun⟩ := decision_spec hdecision
  refine ⟨n, n', hreach, hrun, ?_⟩
  exact (decided_height_committed_iff _ atHeight5 le_rfl beforeDecision n hreach decidingVote [] []
    hheight.symm rfl votes err hadd (idOf 0) hmaj (by decide) n' hrun).mpr (.inr hagrees)

/-- The proposer has a pending message and the node has none: it does not commit the decided
block. -/
theorem foreign_checkpoint_stalls :
    ∃ n votes err n', run (Node.handle (withCheckpoint [messageToB])) atHeight5 beforeDecision =
        some n ∧
      n.votes.addVote decidingVote [] = some (votes, true, err) ∧
      votes.majority 0 .precommit = some (idOf 0) ∧ (idOf 0).hash ≠ [] ∧
      n.addVote (withCheckpoint [messageToB]) decidingVote [] [] = some n' ∧
      ¬ (n.height < n'.height ∨ (n'.step = .commit ∧ n'.commitRound = 0) ∨ n.step = .commit) := by
  obtain ⟨⟨n, votes, n'⟩, hdecision, hn⟩ : ∃ r, decision (withCheckpoint [messageToB]) = some r ∧
      ¬ (r.1.height < r.2.2.height ∨ (r.2.2.step = .commit ∧ r.2.2.commitRound = 0) ∨
        r.1.step = .commit) := Runs.exists_of_any (by decide +kernel)
  obtain ⟨hreach, ⟨err, hadd⟩, hmaj, hrun⟩ := decision_spec hdecision
  exact ⟨n, votes, err, n', hreach, hadd, hmaj, by decide, hrun, hn⟩

end ShardingBC.Consensus
