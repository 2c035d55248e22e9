import ShardingBC.Network

/-!
# Cross-shard execution at most once

A message that a committed block was built from must not be reaped again. A node remembers it only
by the record of its own commit, and only the RPC path looks at the record. So every committing node
has to hold the packed messages, and gossip to bring no recorded one.
-/
namespace ShardingBC
open List Option Runs

variable {ι : Type*}

/-- Two copies of one source message. -/
def SameMessage (env : Env) (cm cm' : CrossMessages) : Prop :=
  cm.height = cm'.height ∧ cm.crossMerkleRoot.getD [] = cm'.crossMerkleRoot.getD [] ∧
    cm.transactions env.gzip = cm'.transactions env.gzip

lemma SameMessage.cmID_eq {env : Env} {cm cm' : CrossMessages} (h : SameMessage env cm cm') :
    cmID cm = cmID cm' := by
  obtain ⟨hh, hr, -⟩ := h
  rw [cmID, cmID, heightRootID_eq_iff, hh]
  exact ⟨rfl, hr⟩

/-- No message is in two committed blocks, or proposed after a committed block with it. -/
structure AtMostOnce (env : Env) (net : Network ι) : Prop where
  committed : ∀ (j k : ℕ) (b b' : ProposedBlock), j < k → net.chain[j]? = some b → net.chain[k]? = some b' →
    ∀ cm ∈ b.taken, ∀ cm' ∈ b'.taken, ¬ SameMessage env cm cm'
  reaped : ∀ j b, net.chain[j]? = some b → ∀ p ∈ net.proposed, j < p.parents →
    ∀ cm ∈ b.taken, ∀ cm' ∈ p.taken, ¬ SameMessage env cm cm'

def Network.start (nodes : ι → Mempool × DB) : Network ι :=
  ⟨fun i => ⟨(nodes i).1, (nodes i).2, 0⟩, [], []⟩

/-- No recorded message comes in by gossip, or by RPC as a receipt of this shard; a node commits a
block only while it holds its messages with their rows, and the block does not write to the
records. -/
def Network.Safe (env : Env) (net : Network ι) : NetEvent ι → Prop
  | .checkTx i tx _ => ∀ cm ∈ (parseData tx).join, cm.srcZone = env.shard →
      CheckDB.search (net.nodes i).db (cmID cm) = none
  | .receive i _ msgBytes _ => ∀ tx ∈ env.decodeTxMessage msgBytes, ∀ cm ∈ (parseData tx).join,
      cm.srcZone ≠ env.shard → CheckDB.search (net.nodes i).db (cmID cm) = none
  | .commit i _ => ∀ b ∈ net.chain[(net.nodes i).applied]?,
      SparesRecords b.proposal.txs ∧ ∀ cm ∈ b.taken,
        cmID cm ∈ rowKeys (net.nodes i).mem.rlDB (heightAfter (net.nodes i).applied) ∧
        ∃ x ∈ (net.nodes i).mem.txs.elems, packed [cmID cm] x = true
  | _ => True

instance (env : Env) (net : Network ι) : ∀ e, Decidable (net.Safe env e)
  | .checkTx _ tx _ => inferInstanceAs (Decidable (∀ cm ∈ (parseData tx).join, _))
  | .receive _ _ msgBytes _ => inferInstanceAs (Decidable (∀ tx ∈ env.decodeTxMessage msgBytes, _))
  | .commit i _ => inferInstanceAs (Decidable (∀ b ∈ net.chain[(net.nodes i).applied]?, _))
  | .recheck .. => isTrue trivial
  | .propose .. => isTrue trivial
  | .prevote .. => isTrue trivial
  | .decide .. => isTrue trivial

/-- The node has recorded the messages of its applied blocks and has none of them listed. -/
def Remembers (chain : List ProposedBlock) (node : Node) : Prop :=
  ∀ j b, j < node.applied → chain[j]? = some b → ∀ cm ∈ b.taken,
    (CheckDB.search node.db (cmID cm)).isSome ∧
      ∀ x ∈ node.mem.txs.elems, ∀ cm', IsMessage x cm' → cmID cm' ≠ cmID cm

/-- The messages of the proposal are new to the blocks below it. -/
def Fresh (chain : List ProposedBlock) (p : ProposedBlock) : Prop :=
  ∀ j b, j < p.parents → chain[j]? = some b → ∀ cm ∈ b.taken, ∀ cm' ∈ p.taken, cmID cm' ≠ cmID cm

structure NetInv (net : Network ι) : Prop where
  applied_le : ∀ i, (net.nodes i).applied ≤ net.chain.length
  remembers : ∀ i, Remembers net.chain (net.nodes i)
  parents_le : ∀ p ∈ net.proposed, p.parents ≤ net.chain.length
  fresh : ∀ p ∈ net.proposed, Fresh net.chain p
  distinct : ∀ (j k : ℕ) (b b' : ProposedBlock), j < k → net.chain[j]? = some b → net.chain[k]? = some b' →
    ∀ cm ∈ b.taken, ∀ cm' ∈ b'.taken, cmID cm' ≠ cmID cm

lemma netInv_start (nodes : ι → Mempool × DB) : NetInv (Network.start nodes) where
  applied_le := by simp [Network.start]
  remembers := by simp [Remembers, Network.start]
  parents_le := by simp [Network.start]
  fresh := by simp [Network.start]
  distinct := by simp [Network.start]

section Steps

variable {env : Env} {net net' : Network ι} {i : ι} {m : Mempool}

/-- The elements are old ones, or messages without a record. -/
def OnlyUnrecorded (node : Node) (m : Mempool) : Prop :=
  ∀ x ∈ m.txs.elems, (∃ y ∈ node.mem.txs.elems, y.tx = x.tx) ∨
    ∀ cm, IsMessage x cm → CheckDB.search node.db (cmID cm) = none

lemma OnlyUnrecorded.of_subset {node : Node} (h : ∀ x ∈ m.txs.elems, x ∈ node.mem.txs.elems) :
    OnlyUnrecorded node m := fun x hx => Or.inl ⟨x, h x hx, rfl⟩

lemma Remembers.setMem {chain : List ProposedBlock} {node : Node} (h : Remembers chain node)
    (hm : OnlyUnrecorded node m) : Remembers chain { node with mem := m } := by
  intro j b hj hb cm hcm
  obtain ⟨hrec, habs⟩ := h j b hj hb cm hcm
  refine ⟨hrec, ?_⟩
  intro x hx cm' hcm' he
  rcases hm x hx with ⟨y, hy, hyx⟩ | hnew
  · exact habs y hy cm' (by rw [IsMessage, hyx]; exact hcm') he
  · have := hnew cm' hcm'
    rw [he] at this
    simp [this] at hrec

/-- A proposal of a node that remembers its blocks is new to them. -/
lemma NetInv.addProposal (h : NetInv net) {b : Proposal} {taken : List CrossMessages}
    (htaken : ∀ cm ∈ taken, ∃ x ∈ (net.nodes i).mem.txs.elems, IsMessage x cm) :
    NetInv { net with proposed := net.proposed ++ [⟨b, (net.nodes i).applied, taken⟩] } where
  applied_le := h.applied_le
  remembers := h.remembers
  parents_le := by
    intro p hp
    rcases mem_append.mp hp with hp | hp
    · exact h.parents_le p hp
    · rw [mem_singleton.mp hp]
      exact h.applied_le i
  fresh := by
    intro p hp
    rcases mem_append.mp hp with hp | hp
    · exact h.fresh p hp
    · rw [mem_singleton.mp hp]
      intro j b' hj hb' cm hcm cm' hcm'
      obtain ⟨x, hx, hxm⟩ := htaken cm' hcm'
      exact (h.remembers i j b' hj hb' cm hcm).2 x hx cm' hxm
  distinct := h.distinct

lemma getElem?_append_of_le {α : Type*} {l : List α} {a b : α} {j n : ℕ} (hj : j < n)
    (hn : n ≤ l.length) (h : (l ++ [a])[j]? = some b) : l[j]? = some b := by
  rwa [getElem?_append_left (by omega)] at h

lemma NetInv.decide (h : NetInv net) {b : ProposedBlock} (hb : b ∈ net.proposed)
    (hlen : b.parents = net.chain.length) : NetInv { net with chain := net.chain ++ [b] } where
  applied_le := by
    intro j
    have := h.applied_le j
    simp only [length_append]
    omega
  remembers := fun j k b' hk hb' =>
    h.remembers j k b' hk (getElem?_append_of_le hk (h.applied_le j) hb')
  parents_le := by
    intro p hp
    have := h.parents_le p hp
    simp only [length_append]
    omega
  fresh := fun p hp j b' hj hb' =>
    h.fresh p hp j b' hj (getElem?_append_of_le hj (h.parents_le p hp) hb')
  distinct := by
    intro j k b1 b2 hjk hb1 hb2 cm hcm cm' hcm'
    have hk : k ≤ net.chain.length := by
      have := (List.getElem?_eq_some_iff.mp hb2).1
      simp only [length_append, length_singleton] at this
      omega
    have hb1' := getElem?_append_of_le hjk hk hb1
    rcases Nat.lt_or_eq_of_le hk with hk | rfl
    · exact h.distinct j k b1 b2 hjk hb1' (getElem?_append_of_le hk le_rfl hb2) cm hcm cm' hcm'
    · have hb2' : b = b2 := by simpa using hb2
      subst hb2'
      exact h.fresh b hb j b1 (hlen ▸ hjk) hb1' cm hcm cm' hcm'

lemma Remembers.commit {chain : List ProposedBlock} {node : Node} (h : Remembers chain node)
    {b : ProposedBlock} (hb : chain[node.applied]? = some b) {inp : CommitInput} {m' : Mempool}
    {db' : DB} {left : List Bytes} (hspare : SparesRecords b.proposal.txs)
    (hheld : ∀ cm ∈ b.taken, cmID cm ∈ rowKeys node.mem.rlDB (heightAfter node.applied) ∧
      ∃ x ∈ node.mem.txs.elems, packed [cmID cm] x = true)
    (hc : finalizeCommit env (node.mem, node.db) b.proposal (heightAfter node.applied) inp =
      some ((m', db'), left)) :
    Remembers chain ⟨m', db', node.applied + 1⟩ := by
  intro j b' hj hb' cm hcm
  rcases Nat.lt_or_eq_of_le (Nat.le_of_lt_succ hj) with hj | rfl
  · obtain ⟨hrec, habs⟩ := h j b' hj hb' cm hcm
    refine ⟨finalizeCommit_search_mono hc hspare hrec, ?_⟩
    intro x hx
    exact habs x (finalizeCommit_left hc hx).1
  · rw [hb] at hb'
    cases hb'
    obtain ⟨hrow, hx⟩ := hheld cm hcm
    refine ⟨finalizeCommit_recorded hc hrow hx, ?_⟩
    intro x hx cm' hcm' he
    have hp := (finalizeCommit_left hc hx).2
    have := (packed_iff _ x).mpr ⟨cm', hcm', he ▸ hrow⟩
    rw [hp] at this
    exact absurd this (by simp)

variable [DecidableEq ι]

lemma NetInv.setNode {node : Node} (h : NetInv net) (hle : node.applied ≤ net.chain.length)
    (hr : Remembers net.chain node) : NetInv (net.setNode i node) where
  applied_le := by
    intro j
    by_cases hj : j = i
    · subst hj
      simpa [Network.setNode] using hle
    · simpa [Network.setNode, hj] using h.applied_le j
  remembers := by
    intro j
    by_cases hj : j = i
    · subst hj
      simpa [Network.setNode] using hr
    · simpa [Network.setNode, hj] using h.remembers j
  parents_le := h.parents_le
  fresh := h.fresh
  distinct := h.distinct

lemma NetInv.setMem (h : NetInv net) (hm : OnlyUnrecorded (net.nodes i) m) :
    NetInv (net.setMem i m) :=
  h.setNode (h.applied_le i) ((h.remembers i).setMem hm)

lemma NetInv.step (h : NetInv net) {e : NetEvent ι} (hsafe : net.Safe env e)
    (hstep : net.step env e = some net') : NetInv net' := by
  cases e with
  | checkTx i tx res =>
    cases hstep
    refine h.setMem fun x hx => ?_
    rcases checkTx_txs env _ _ tx hx with ⟨rfl, hnew⟩ | hold
    · refine Or.inr fun cm hcm => ?_
      rcases hnew cm hcm with hs | hs
      · exact hsafe cm hcm.mem_join hs
      · exact hs
    · exact Or.inl hold
  | receive i peer msgBytes res =>
    cases hstep
    refine h.setMem fun x hx => ?_
    rcases receive_txs env _ _ hx with ⟨hd, hs⟩ | hold
    · exact Or.inr fun cm hcm => hsafe x.tx hd cm hcm.mem_join (hs cm hcm)
    · exact Or.inl hold
  | recheck i x =>
    cases hstep
    exact h.setMem (.of_subset fun y hy => mem_of_mem_filter hy)
  | propose i maxBytes maxGas =>
    obtain ⟨⟨b, m⟩, hcreate, rfl⟩ := map_eq_some_iff.mp hstep
    obtain ⟨⟨txs, m1⟩, hreap, he⟩ := map_eq_some_iff.mp hcreate
    obtain ⟨⟨txs', rows⟩, hloop, he'⟩ := map_eq_some_iff.mp hreap
    cases he
    cases he'
    have hprop := h.addProposal (i := i)
      (b := ⟨handleSortTx env.shard txs', marshalPackages (searchRelationTable
        ((net.nodes i).mem.rlDB ++ rows) (heightAfter (net.nodes i).applied))⟩)
      fun cm hcm => (takenMessages_spec hloop hcm).1
    exact hprop.setMem (i := i) (.of_subset fun x hx => hx)
  | prevote i b =>
    cases hstep
    refine h.setMem (.of_subset fun x hx => ?_)
    rwa [judgeBlockPakcages_eq] at hx
  | decide k =>
    obtain ⟨b, hb, hstep⟩ := bind_eq_some_iff.mp hstep
    split_ifs at hstep with hlen
    cases hstep
    exact h.decide (mem_of_getElem? hb) hlen
  | commit i inp =>
    obtain ⟨b, hb, hstep⟩ := bind_eq_some_iff.mp hstep
    obtain ⟨⟨⟨m', db'⟩, left⟩, hc, rfl⟩ := map_eq_some_iff.mp hstep
    obtain ⟨hspare, hheld⟩ := hsafe b hb
    refine h.setNode ?_ ((h.remembers i).commit hb hspare hheld hc)
    exact (List.getElem?_eq_some_iff.mp hb).1

end Steps

/-- In every run of guarded steps no message is executed by two blocks or reaped after the block
that executes it. -/
theorem executed_at_most_once [DecidableEq ι] (env : Env) (nodes : ι → Mempool × DB) (es : List (NetEvent ι))
    (net : Network ι) (hsafe : Guarded (Network.step env) (Network.Safe env) (Network.start nodes) es)
    (hrun : run (Network.step env) (Network.start nodes) es = some net) : AtMostOnce env net := by
  have hinv : NetInv net :=
    hsafe.invariant (fun s e s' hs he hstep => hs.step he hstep) hrun (netInv_start nodes)
  exact
    { committed := fun j k b b' hjk hb hb' cm hcm cm' hcm' hsame =>
        hinv.distinct j k b b' hjk hb hb' cm hcm cm' hcm' hsame.cmID_eq.symm
      reaped := fun j b hb p hp hjp cm hcm cm' hcm' hsame =>
        hinv.fresh p hp j b hjp hb cm hcm cm' hcm' hsame.cmID_eq.symm }

def commitInput : CommitInput := ⟨some [1], [(singleKey (relayToB.updateTx (lit "B")), 9)], none, none⟩

theorem held_message_executed_once :
    Guarded (Network.step (plainEnv "B")) (Network.Safe (plainEnv "B"))
      (Network.start fun _ : Bool => (poolWithMessage, fun _ => none))
      [.propose false (-1) (-1), .decide 0, .commit false commitInput] ∧
    ∃ net, run (Network.step (plainEnv "B"))
      (Network.start fun _ : Bool => (poolWithMessage, fun _ => none))
      [.propose false (-1) (-1), .decide 0, .commit false commitInput] = some net ∧
      net.chain.map ProposedBlock.taken = [[messageToB]] ∧ AtMostOnce (plainEnv "B") net := by
  refine (and_iff_left_of_imp fun hsafe => ?_).mpr (by decide +kernel)
  have heval : (run (Network.step (plainEnv "B"))
      (Network.start fun _ : Bool => (poolWithMessage, fun _ => none))
      [.propose false (-1) (-1), .decide 0, .commit false commitInput]).map
      (fun net => net.chain.map ProposedBlock.taken) = some [[messageToB]] := by decide +kernel
  obtain ⟨net, hrun, htaken⟩ := map_eq_some_iff.mp heval
  exact ⟨net, hrun, htaken, executed_at_most_once _ _ _ _ hsafe hrun⟩

def twoNodes : Network Bool := Network.start fun _ => (plainMempool, fun _ => none)

/-- The first node receives a message, proposes it and commits the block. The second, which does
not hold it, commits without a record, admits the message by RPC and proposes it again. -/
def proposedTwice : List (NetEvent Bool) :=
  [.checkTx false relayMessage.data ⟨true, 1⟩, .propose false (-1) (-1), .decide 0,
    .commit false commitInput, .commit true commitInput,
    .checkTx true relayMessage.data ⟨true, 1⟩, .propose true (-1) (-1), .decide 1]

theorem message_executed_by_two_blocks :
    ∃ net, run (Network.step (plainEnv "B")) twoNodes proposedTwice = some net ∧
      ¬ AtMostOnce (plainEnv "B") net := by
  have heval : (run (Network.step (plainEnv "B")) twoNodes proposedTwice).map
      (fun net => net.chain.map ProposedBlock.taken) = some [[relayMessage], [relayMessage]] := by
    decide +kernel
  obtain ⟨net, hrun, htaken⟩ := map_eq_some_iff.mp heval
  refine ⟨net, hrun, fun honce => ?_⟩
  obtain ⟨b, bs, hchain, hb, hbs⟩ := map_eq_cons_iff.mp htaken
  obtain ⟨b', bs', hchain', hb', hnil⟩ := map_eq_cons_iff.mp hbs
  refine honce.committed 0 1 b b' (by omega) (by simp [hchain]) (by simp [hchain, hchain'])
    relayMessage (by simp [hb]) relayMessage (by simp [hb']) ⟨rfl, rfl, rfl⟩

end ShardingBC
