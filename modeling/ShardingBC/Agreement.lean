import ShardingBC.Locking
import ShardingBC.CrossRoot

/-!
# Agreement

Validators at one height, some of them faulty. The nodes of the others receive events in any order.
A vote that verifies under the key of such a validator was signed by its node; faulty validators
send whatever they like.
-/
namespace ShardingBC.Consensus

open Function List LockedVoting Option Runs

/-- Nodes with the validators they run for. Validators that no node runs for are faulty. -/
structure Deployment (E : Electorate) (β ι : Type) where
  cfg : ι → Config E β
  owner : E.Index → Option ι
  owner_iff : ∀ i k, owner i = some k ↔ (cfg k).index = some i
  minority : 3 * weight E.power (fun i => owner i = none) < ∑ i, E.power i

/-- A vote as a ballot, and what the ballot is for. -/
def ballot (v : Vote) : Ballot BlockID := ⟨v.round, v.type = .precommit, v.blockID⟩

def BlockID.value (x : BlockID) : Option Bytes := if x.hash = [] then none else some x.hash

def ballotsAt (height : ℤ) (votes : List Vote) : List (Ballot BlockID) :=
  (votes.filter fun v => v.height = height).map ballot

@[simp] lemma BlockID.value_ne_none {x : BlockID} : x.value ≠ none ↔ x.hash ≠ [] := by
  unfold value
  split_ifs with h <;> simp [h]

lemma BlockID.value_eq {x y : BlockID} (h : y.hash ≠ []) : x.value = y.value ↔ x.hash = y.hash := by
  unfold value
  split_ifs with hx
  · simp [hx, Ne.symm h]
  · simp

@[simp] lemma mem_ballotsAt {height : ℤ} {votes : List Vote} {b : Ballot BlockID} :
    b ∈ ballotsAt height votes ↔ ∃ v ∈ votes, v.height = height ∧ ballot v = b := by
  simp [ballotsAt, and_assoc]

lemma before_of_placeOf_lt {w v : Vote} (hheight : w.height = v.height)
    (hw : w.type = .prevote ∨ w.type = .precommit) (hv : v.type = .prevote ∨ v.type = .precommit)
    (h : Node.placeOf w < Node.placeOf v) : (ballot w).Before (ballot v) := by
  have hlt : w.round < v.round ∨ w.round = v.round ∧
      (voteToStep w.type).getD stepNone < (voteToStep v.type).getD stepNone := by
    rcases hrsOf_lt_hrsOf.mp h with hlt | ⟨-, hlt⟩
    · omega
    · exact hlt
  refine hlt.imp_right fun ⟨hround, hstep⟩ => ⟨hround, ?_⟩
  rcases hw with hw | hw <;> rcases hv with hv | hv <;>
    simp_all [ballot, voteToStep, stepPrevote, stepPrecommit]

section Casting

variable {V : Type*} [Fintype V] {A : Assembly V}
  {partsOf : Bytes → PartSetHeader} {height : ℤ} {polka : ℤ → Option BlockID} {l l' : List Vote}

/-- The votes at the height that a node has signed. -/
def WellFormed (partsOf : Bytes → PartSetHeader) (height : ℤ) (votes : List Vote) : Prop :=
  ∀ v ∈ votes, v.height = height → (v.type = .prevote ∨ v.type = .precommit) ∧
    (v.blockID.hash ≠ [] → v.blockID.partsHeader = partsOf v.blockID.hash)

lemma Grows.suffix (h : Grows partsOf height polka l l') : l <:+ l' := by
  induction h with
  | refl => exact suffix_rfl
  | cast _ _ ih => exact ih.trans (suffix_cons _ _)

lemma Grows.wellFormed (h : Grows partsOf height polka l l')
    (hl : WellFormed partsOf height l) : WellFormed partsOf height l' := by
  induction h with
  | refl => exact hl
  | cast _ hv ih =>
    intro w hw hheight
    rcases mem_cons.mp hw with rfl | hw
    · exact ⟨hv.type, hv.proper⟩
    · exact ih w hw hheight

/-- A vote that the locking rules allow is admissible, if the polkas the node knows are real. -/
lemma Castable.admissible {L : V → List (Ballot BlockID)} {i : V} {v : Vote}
    (hv : Castable partsOf height polka l v) (hl : WellFormed partsOf height l)
    (hpolka : ∀ r z, polka r = some z → Backed A L ⟨r, false, z⟩) (hL : L i = ballotsAt height l) :
    Admissible A BlockID.value L i (ballot v) := by
  constructor
  · intro a ha
    rw [hL] at ha
    obtain ⟨w, hw, hheight, rfl⟩ := mem_ballotsAt.mp ha
    exact before_of_placeOf_lt (hheight.trans hv.current.symm) (hl w hw hheight).1 hv.type
      (hv.later w hw)
  · intro hprevote a ha hprecommit hne
    rw [hL] at ha
    obtain ⟨w, hw, hheight, rfl⟩ := mem_ballotsAt.mp ha
    have htype : v.type = .prevote := hv.type.resolve_right (by simpa [ballot] using hprevote)
    have hwne : w.blockID.hash ≠ [] := BlockID.value_ne_none.mp hne
    refine (hv.locked htype w hw hheight (by simpa [ballot] using hprecommit) hwne).imp
      (BlockID.value_eq hwne).mpr ?_
    rintro ⟨r, z, h1, h2, hz, hzne⟩
    exact ⟨r, z, h1, h2, hpolka r z hz, fun heq => hzne ((BlockID.value_eq hwne).mp heq)⟩
  · intro hprecommit hne
    exact hpolka _ _ (hv.polka (by simpa [ballot] using hprecommit) (BlockID.value_ne_none.mp hne))

/-- The votes of a node are steps of the voting protocol. -/
lemma Grows.steps [DecidableEq V] {L : V → List (Ballot BlockID)} {i : V} (h : Grows partsOf height polka l l')
    (hl : WellFormed partsOf height l)
    (hpolka : ∀ r z, polka r = some z → Backed A L ⟨r, false, z⟩) (hL : L i = ballotsAt height l) :
    Steps A BlockID.value L (Function.update L i (ballotsAt height l')) := by
  induction h with
  | refl =>
    rw [← hL, update_eq_self]
  | @cast l' v hgrow hv ih =>
    have hmono := ih.suffix
    refine ih.tail ⟨i, ballot v, ?_, ?_⟩
    · exact hv.admissible (hgrow.wellFormed hl)
        (fun r z hz => (hpolka r z hz).mono fun j => (hmono j).subset) (by simp)
    · simp [ballotsAt, hv.current]

end Casting

variable {E : Electorate} {β ι : Type} {partsOf : Bytes → PartSetHeader}

/-- More votes, with polkas that are for a block and its parts. -/
lemma Inv.extend {hash : β → Bytes} {n : Node E β}
    (h : Inv hash partsOf n) {votes : HeightVoteSet E} (hext : n.votes.Extends votes)
    (hproper : ∀ r z, votes.majority r .prevote = some z → z.hash ≠ [] →
      z.partsHeader = partsOf z.hash) : Inv hash partsOf { n with votes := votes } := by
  refine { h with
    locks := fun v hv hh htype hne => (h.locks v hv hh htype hne).imp_right ?_
    polkas := fun v hv hh htype hne => hext.majority _ _ _ (h.polkas v hv hh htype hne)
    proper := hproper }
  rintro ⟨r, z, h1, h2, hz, hzne⟩
  exact ⟨r, z, h1, h2, hext.majority _ _ _ hz, hzne⟩

/-- An event adds at most one vote, which verifies. -/
lemma Node.votesAfter_spec {n : Node E β} {e : Event β} {votes : HeightVoteSet E}
    (h : n.votesAfter e = some votes) :
    n.votes.Extends votes ∧ ∀ P, n.votes.Sound P →
      (∀ vote ∈ e.vote?, vote.height = n.height →
        ∀ i, vote.verify E (E.validators.get i).pubKey = none → P i vote) → votes.Sound P := by
  unfold votesAfter at h
  split at h
  · rename_i vote peerID allCms
    split_ifs at h with hheight
    · obtain ⟨⟨votes', added, err⟩, hadd, rfl⟩ := map_eq_some_iff.mp h
      refine ⟨HeightVoteSet.addVote_extends hadd, fun P hs hP => hs.addVote ?_ hadd⟩
      exact fun i vs hadm => hP vote rfl hheight i hadm.verified
    · cases h
      exact ⟨.refl _, fun P hs _ => hs⟩
  · cases h
    split_ifs
    · exact ⟨n.votes.setPeerMaj23_extends .., fun P hs _ => hs.setPeerMaj23 _ _ _ _⟩
    · exact ⟨.refl _, fun P hs _ => hs⟩
  · cases h
    exact ⟨.refl _, fun P hs _ => hs⟩

namespace Deployment

variable (D : Deployment E β ι)

/-- One node, at the height and not stopped, handles one event. -/
def step [DecidableEq ι] (height : ℤ) (net : ι → Node E β) (e : ι × Event β) :
    Option (ι → Node E β) :=
  if (net e.1).halted ∨ (net e.1).height ≠ height then none
  else ((net e.1).handle (D.cfg e.1) e.2).map (Function.update net e.1)

/-- The node of the validator signed the vote, or the validator is faulty. -/
def SignedBy (net : ι → Node E β) (i : E.Index) (v : Vote) : Prop :=
  ∀ k ∈ D.owner i,
    ∃ w ∈ (net k).signed, canonicalizeVote E.chainID w = canonicalizeVote E.chainID v

/-- Nobody makes a signature for a node's validator but the node. -/
def Unforged (net : ι → Node E β) (e : ι × Event β) : Prop :=
  ∀ vote ∈ e.2.vote?, ∀ i, vote.verify E (E.validators.get i).pubKey = none →
    D.SignedBy net i vote

instance (net : ι → Node E β) (e : ι × Event β) : Decidable (D.Unforged net e) :=
  inferInstanceAs (Decidable (∀ vote ∈ e.2.vote?, ∀ i,
    vote.verify E (E.validators.get i).pubKey = none → ∀ k ∈ D.owner i, ∃ w ∈ (net k).signed,
      canonicalizeVote E.chainID w = canonicalizeVote E.chainID vote))

def assembly : Assembly E.Index := ⟨E.power, fun i => D.owner i = none, D.minority⟩

/-- The ballots that the nodes have cast at the height. -/
def ballots (height : ℤ) (net : ι → Node E β) (i : E.Index) : List (Ballot BlockID) :=
  (D.owner i).elim [] fun k => ballotsAt height (net k).signed

/-- What holds of all nodes at a height: their votes are real and follow the voting protocol. -/
structure NetInv (partsOf : Bytes → PartSetHeader) (height : ℤ) (net : ι → Node E β) : Prop where
  node : ∀ k, (net k).height = height → Inv (D.cfg k).hash partsOf (net k)
  votes : ∀ k, (net k).height = height →
    (net k).votes.Sound fun i v => v.height = height ∧ D.SignedBy net i v
  signed : ∀ k, WellFormed partsOf height (net k).signed
  steps : Steps D.assembly BlockID.value (fun _ => []) (D.ballots height net)
  saved : ∀ k, ∀ e ∈ (net k).saved, e.2.hash ≠ [] ∧
    ∃ r, Backed D.assembly (D.ballots height net) ⟨r, true, e.2⟩

variable {D} {partsOf : Bytes → PartSetHeader} {height : ℤ} {net : ι → Node E β}

lemma mem_ballots {i : E.Index} {k : ι} (hk : D.owner i = some k) {b : Ballot BlockID} :
    b ∈ D.ballots height net i ↔ ∃ v ∈ (net k).signed, v.height = height ∧ ballot v = b := by
  rw [ballots, hk]
  exact mem_ballotsAt

/-- A majority in a set of real votes is a quorum of ballots. -/
lemma backed_of_majority {votes : HeightVoteSet E} {r : ℤ} {type : SignedMsgType} {x : BlockID}
    (hsound : votes.Sound fun i v => v.height = height ∧ D.SignedBy net i v)
    (hx : votes.majority r type = some x) :
    Backed D.assembly (D.ballots height net) ⟨r, type = .precommit, x⟩ := by
  obtain ⟨vs, hget, hmaj⟩ := bind_eq_some_iff.mp hx
  refine Quorate.mono ((hsound r type vs hget).2.quorate hmaj) fun i hi => ?_
  obtain ⟨v, rfl, ⟨-, rfl, rfl⟩, hheight, hsigned⟩ := hi
  cases hk : D.owner i with
  | none => exact .inl hk
  | some k =>
    obtain ⟨w, hw, heq⟩ := hsigned k hk
    simp only [canonicalizeVote, CanonicalVote.mk.injEq] at heq
    obtain ⟨htype, hwheight, hround, hblock, -, -⟩ := heq
    refine .inr ((mem_ballots hk).mpr ⟨w, hw, hwheight.trans hheight, ?_⟩)
    simp [ballot, htype, hround, hblock]

/-- A quorum of ballots for a block is for its parts too. -/
lemma NetInv.proper (h : D.NetInv partsOf height net) {b : Ballot BlockID}
    (hb : Backed D.assembly (D.ballots height net) b) (hne : b.block.hash ≠ []) :
    b.block.partsHeader = partsOf b.block.hash := by
  obtain ⟨i, hmem, -⟩ := hb.exists_mem hb
  cases hk : D.owner i with
  | none =>
    simp [ballots, hk] at hmem
  | some k =>
    obtain ⟨v, hv, hheight, rfl⟩ := (mem_ballots hk).mp hmem
    exact (h.signed k v hv hheight).2 hne

lemma SignedBy.mono {net' : ι → Node E β} {i : E.Index} {v : Vote} (h : D.SignedBy net i v)
    (hsub : ∀ k, (net k).signed ⊆ (net' k).signed) : D.SignedBy net' i v := by
  intro k hk
  obtain ⟨w, hw, heq⟩ := h k hk
  exact ⟨w, hsub k hw, heq⟩

section Step

variable [DecidableEq ι] {k : ι} {n' : Node E β}

lemma ballots_update (i : E.Index) (hk : D.owner i = some k) :
    D.ballots height (Function.update net k n') =
      Function.update (D.ballots height net) i (ballotsAt height n'.signed) := by
  funext j
  by_cases hij : j = i
  · subst hij
    simp [ballots, hk]
  · rw [update_of_ne hij]
    cases hj : D.owner j with
    | none => simp [ballots, hj]
    | some k' =>
      have hne : k' ≠ k := by
        rintro rfl
        rw [D.owner_iff] at hj hk
        exact hij (some.inj (hj.symm.trans hk))
      simp [ballots, hj, update_of_ne hne]

lemma ballots_update_of_none (hk : (D.cfg k).index = none) :
    D.ballots height (Function.update net k n') = D.ballots height net := by
  funext j
  cases hj : D.owner j with
  | none => simp [ballots, hj]
  | some k' =>
    have hne : k' ≠ k := by
      rintro rfl
      rw [D.owner_iff, hk] at hj
      cases hj
    simp [ballots, hj, update_of_ne hne]

/-- What a node signs are steps of the voting protocol. -/
lemma NetInv.steps_update (h : D.NetInv partsOf height net) {polka : ℤ → Option BlockID}
    (hgrow : Grows partsOf height polka (net k).signed n'.signed)
    (hpolka : ∀ r z, polka r = some z →
      Backed D.assembly (D.ballots height net) ⟨r, false, z⟩) :
    Steps D.assembly BlockID.value (D.ballots height net)
      (D.ballots height (Function.update net k n')) := by
  cases hindex : (D.cfg k).index with
  | none => rw [ballots_update_of_none hindex]
  | some i =>
    have hk : D.owner i = some k := (D.owner_iff i k).mpr hindex
    rw [ballots_update i hk]
    exact hgrow.steps (h.signed k) hpolka (by simp [ballots, hk])

/-- Events that are not forged keep the invariant, if complete part sets match. -/
lemma NetInv.step (h : D.NetInv partsOf height net) {e : ι × Event β}
    (hunforged : D.Unforged net e)
    (hmatch : Node.PartsMatch (D.cfg e.1).hash partsOf (net e.1) e.2) {net' : ι → Node E β}
    (hstep : D.step height net e = some net') : D.NetInv partsOf height net' := by
  obtain ⟨k, ev⟩ := e
  unfold Deployment.step at hstep
  split_ifs at hstep with hrunning
  push Not at hrunning
  obtain ⟨-, hheight⟩ := hrunning
  obtain ⟨n', hrun, rfl⟩ := map_eq_some_iff.mp hstep
  obtain ⟨votes, hvotes, hreact⟩ := Node.handle_reaction hmatch hrun
  obtain ⟨hext, hsound⟩ := Node.votesAfter_spec hvotes
  -- The votes the node has taken in are real, so its majorities are quorums.
  have hreal : votes.Sound fun i v => v.height = height ∧ D.SignedBy net i v := by
    refine hsound _ (h.votes k hheight) fun vote he hvote i hverify => ?_
    exact ⟨hvote.trans hheight, hunforged vote he i hverify⟩
  have hback : ∀ r z, votes.majority r .prevote = some z →
      Backed D.assembly (D.ballots height net) ⟨r, false, z⟩ :=
    fun r z hz => backed_of_majority hreal hz
  have hreact := hreact ((h.node k hheight).extend hext fun r z hz => h.proper (hback r z hz))
  have hgrow : Grows partsOf height (fun r => votes.majority r .prevote) (net k).signed n'.signed :=
    hheight ▸ hreact.signed
  have hsteps := h.steps_update hgrow hback
  have hmono : ∀ i, ∀ b ∈ D.ballots height net i,
      b ∈ D.ballots height (Function.update net k n') i := fun i => (hsteps.suffix i).subset
  have hsub : ∀ j, (net j).signed ⊆ (Function.update net k n' j).signed :=
    (forall_update_iff net fun j n => (net j).signed ⊆ n.signed).mpr
      ⟨hgrow.suffix.subset, fun j _ => List.Subset.refl _⟩
  have hmore : ∀ i v, v.height = height ∧ D.SignedBy net i v →
      v.height = height ∧ D.SignedBy (Function.update net k n') i v :=
    fun i v hv => ⟨hv.1, hv.2.mono hsub⟩
  have hstays : n'.height = height → _ := fun hn => hreact.stays (hn.trans hheight.symm)
  constructor
  · refine (forall_update_iff net fun j n =>
      n.height = height → Inv (D.cfg j).hash partsOf n).mpr ⟨?_, fun j _ => h.node j⟩
    exact fun hn => (hstays hn).1
  · refine (forall_update_iff net fun j n => n.height = height → n.votes.Sound _).mpr
      ⟨fun hn => ?_, fun j _ hj => (h.votes j hj).mono hmore⟩
    exact ((hstays hn).2.2.2 _ hreal).mono hmore
  · exact (forall_update_iff net fun j n => WellFormed partsOf height n.signed).mpr
      ⟨hgrow.wellFormed (h.signed k), fun j _ => h.signed j⟩
  · exact h.steps.trans hsteps
  · have hold : ∀ j, ∀ e ∈ (net j).saved, e.2.hash ≠ [] ∧ ∃ r,
        Backed D.assembly (D.ballots height (Function.update net k n')) ⟨r, true, e.2⟩ := by
      intro j e he
      obtain ⟨hne, r, hr⟩ := h.saved j e he
      exact ⟨hne, r, hr.mono hmono⟩
    refine (forall_update_iff net fun j n => ∀ e ∈ n.saved, e.2.hash ≠ [] ∧ ∃ r,
      Backed D.assembly (D.ballots height (Function.update net k n')) ⟨r, true, e.2⟩).mpr
      ⟨fun e he => ?_, fun j _ => hold j⟩
    rcases hreact.saved e he with he | ⟨hne, r, hr⟩
    · exact hold k e he
    · exact ⟨hne, r, (backed_of_majority hreal hr).mono hmono⟩

end Step

lemma NetInv.agree (h : D.NetInv partsOf height net) {k k' : ι} {e e' : ℤ × BlockID}
    (he : e ∈ (net k).saved) (he' : e' ∈ (net k').saved) : e.2 = e'.2 := by
  obtain ⟨hne, r, hr⟩ := h.saved k e he
  obtain ⟨hne', r', hr'⟩ := h.saved k' e' he'
  have hhash : e.2.hash = e'.2.hash := (BlockID.value_eq hne').mp
    (h.steps.agreement hr hr' (BlockID.value_ne_none.mpr hne) (BlockID.value_ne_none.mpr hne'))
  have hparts : e.2.partsHeader = e'.2.partsHeader := by
    rw [h.proper hr hne, h.proper hr' hne', hhash]
  calc e.2 = ⟨e.2.hash, e.2.partsHeader⟩ := rfl
    _ = ⟨e'.2.hash, e'.2.partsHeader⟩ := by rw [hhash, hparts]

end Deployment

/-- A node at the start of a height, as `updateToState` leaves it. -/
structure Node.Fresh (height : ℤ) (n : Node E β) : Prop where
  height_eq : n.height = height
  round : n.round = 0
  unlocked : n.lockedRound = -1 ∧ n.lockedBlock = none ∧ n.lockedBlockParts = none
  apart : n.lockedIsProposal = false ∧ n.lockedPartsAreProposal = false
  proposal : n.proposal = none ∧ n.proposalBlock = none ∧ n.proposalBlockParts = none
  votes : HeightVoteSet.new height = some n.votes
  timeouts : ∀ t ∈ n.timeouts, t.height = height → t.round = 0
  signed : ∀ v ∈ n.signed, v.height < height

lemma Node.Fresh.inv {hash : β → Bytes} {height : ℤ}
    {n : Node E β} (h : n.Fresh height) : Inv hash partsOf n := by
  have hmaj := (HeightVoteSet.new_spec h.votes).2.2.1
  have hnone : ∀ v ∈ n.signed, v.height ≠ n.height := fun v hv => by
    have := h.signed v hv
    have := h.height_eq
    omega
  refine ⟨h.round.ge, fun t ht heq => ?_, ?_, fun v hv hh => absurd hh (hnone v hv),
    fun v hv hh => absurd hh (hnone v hv), fun v hv hh => absurd hh (hnone v hv),
    fun r z hz => ?_, fun b hb => ?_, fun b hb => ?_, fun _ => h.apart.1, fun hs => ?_⟩
  · rw [h.timeouts t ht (heq.trans h.height_eq), h.round]
  · rw [h.unlocked.1, h.round]
    decide
  · rw [Node.polka, hmaj] at hz
    cases hz
  · rw [h.proposal.2.1] at hb
    cases hb
  · rw [h.unlocked.2.1] at hb
    cases hb
  · rw [h.apart.2] at hs
    cases hs

lemma Deployment.netInv_of_fresh {D : Deployment E β ι}
    {height : ℤ} {net : ι → Node E β} (hfresh : ∀ k, (net k).Fresh height)
    (hsaved : ∀ k, (net k).saved = []) : D.NetInv partsOf height net := by
  have hold : ∀ k, ∀ v ∈ (net k).signed, v.height ≠ height := fun k v hv =>
    ((hfresh k).signed v hv).ne
  refine ⟨fun k _ => (hfresh k).inv, fun k _ => (HeightVoteSet.new_spec (hfresh k).votes).2.2.2 _,
    fun k v hv hheight => absurd hheight (hold k v hv), ?_, fun k e he => ?_⟩
  · have hempty : D.ballots height net = fun _ => [] := by
      funext i
      refine eq_nil_iff_forall_not_mem.mpr fun b hb => ?_
      cases hk : D.owner i with
      | none => simp [ballots, hk] at hb
      | some k =>
        obtain ⟨v, hv, hheight, -⟩ := (mem_ballots hk).mp hb
        exact hold k v hv hheight
    rw [hempty]
  · rw [hsaved k] at he
    cases he

/-- In every run at a height in which complete part sets match their blocks, all saved blocks have
the same block ID. -/
theorem savedBlocks_agree [DecidableEq ι] (D : Deployment E β ι)
    (partsOf : Bytes → PartSetHeader) (height : ℤ) (net₀ : ι → Node E β)
    (hfresh : ∀ k, (net₀ k).Fresh height) (hsaved : ∀ k, (net₀ k).saved = [])
    (events : List (ι × Event β))
    (hguard : Guarded (D.step height) (fun net e => D.Unforged net e ∧
      Node.PartsMatch (D.cfg e.1).hash partsOf (net e.1) e.2) net₀ events)
    (net : ι → Node E β) (hrun : run (D.step height) net₀ events = some net) :
    ∀ k k', ∀ e ∈ (net k).saved, ∀ e' ∈ (net k').saved, e.2 = e'.2 := by
  have hinv : D.NetInv partsOf height net :=
    hguard.invariant (fun _ _ _ h hg hs => h.step hg.1 hg.2 hs) hrun
      (Deployment.netInv_of_fresh hfresh hsaved)
  intro k k' e he e' he'
  exact hinv.agree he he'

/-- A saved block has a hash and a quorum of precommits. At no node does another block, or
none, get a majority of the prevotes of a later round. -/
theorem savedBlocks_stay_locked [DecidableEq ι] (D : Deployment E β ι)
    (partsOf : Bytes → PartSetHeader) (height : ℤ) (net₀ : ι → Node E β)
    (hfresh : ∀ k, (net₀ k).Fresh height) (hsaved : ∀ k, (net₀ k).saved = [])
    (events : List (ι × Event β))
    (hguard : Guarded (D.step height) (fun net e => D.Unforged net e ∧
      Node.PartsMatch (D.cfg e.1).hash partsOf (net e.1) e.2) net₀ events)
    (net : ι → Node E β) (hrun : run (D.step height) net₀ events = some net) :
    ∀ k, ∀ e ∈ (net k).saved, e.2.hash ≠ [] ∧
      ∃ r, Backed D.assembly (D.ballots height net) ⟨r, true, e.2⟩ ∧
        ∀ k', (net k').height = height → ∀ r' z, r < r' →
          (net k').votes.majority r' .prevote = some z → z.hash = e.2.hash := by
  have hinv : D.NetInv partsOf height net :=
    hguard.invariant (fun _ _ _ h hg hs => h.step hg.1 hg.2 hs) hrun
      (Deployment.netInv_of_fresh hfresh hsaved)
  intro k e he
  obtain ⟨hne, r, hr⟩ := hinv.saved k e he
  refine ⟨hne, r, hr, fun k' hk' r' z hlt hz => (BlockID.value_eq hne).mp ?_⟩
  have hback := Deployment.backed_of_majority (hinv.votes k' hk') hz
  exact hinv.steps.prevotes_agree .refl hr (BlockID.value_ne_none.mpr hne) hlt hback

/-! ## Four validators with powers 3, 3, 3 and 1 -/

namespace FourValidators

-- the numerals of blocks, nodes and validators, where this namespace is open
scoped instance neZero_blocks : NeZero (2 : ℕ) := inferInstance

scoped instance neZero_nodes : NeZero (3 : ℕ) := inferInstance

scoped instance neZero_validators : NeZero (4 : ℕ) := inferInstance

end FourValidators

open FourValidators

def keyAddress (pubKey : Bytes) : Bytes := List.replicate addressSize (pubKey.headD 0)

/-- A signature is the key. -/
def fourValidators : Electorate where
  chainID := lit "A"
  validators :=
    [⟨keyAddress [0], [0], 3⟩, ⟨keyAddress [1], [1], 3⟩, ⟨keyAddress [2], [2], 3⟩,
      ⟨keyAddress [3], [3], 1⟩]
  addressOf := keyAddress
  verifyBytes := fun pubKey _ sig => sig = pubKey

def chainOfFour : ChainEnv := ⟨plainAmino, lit "A", keyAddress, fourValidators.verifyBytes⟩

def stateAt4 : State where
  version := ⟨10, 1⟩
  chainID := lit "A"
  lastBlockHeight := 4
  lastBlockTotalTx := 0
  lastBlockID := ⟨List.replicate tmhashSize 4, ⟨1, List.replicate tmhashSize 5⟩⟩
  lastBlockTime := 40
  nextValidators := fourValidators.validators
  validators := fourValidators.validators
  lastValidators := fourValidators.validators
  consensusParams := ⟨1000, -1⟩
  lastResultsHash := []
  appHash := []

def commitAt4 : Commit :=
  ⟨stateAt4.lastBlockID, (List.range 3).map (fun (i : ℕ) => some
    ⟨.precommit, 4, 0, stateAt4.lastBlockID, 50, keyAddress [UInt8.ofNat i], i, [UInt8.ofNat i],
      none, none⟩) ++ [none]⟩

def ownBlock : Block :=
  (makeBlock chainOfFour stateAt4 5 [] commitAt4 [] (keyAddress [0]) []).get rfl

/-- Two blocks that differ in their `CrossMerkleRoot` only, which the hash does not cover. -/
def blockAt5 : Fin 2 → Block
  | 0 => ownBlock
  | 1 => ownBlock.withCross (List.replicate 32 9) ownBlock.header.cmRelation

/-- Their hash, written out. -/
def hashAt5 : Bytes :=
  [2, 241, 232, 105, 61, 35, 218, 78, 195, 98, 150, 166, 16, 210, 63, 189, 76, 3, 68, 144, 209, 246,
    208, 241, 237, 175, 127, 28, 216, 2, 232, 224]

/-- A node for which the blocks of a chain go by names. -/
structure Config.Names {E : Electorate} {ι : Type} (cfg : Config E ι) (env : ChainEnv) (s : State)
    (block : ι → Block) : Prop where
  hash : ∀ b, cfg.hash b = (block b).hash env.amino
  headerHash : ∀ b, cfg.headerHash b = (block b).header.hash env.amino
  blockHeight : ∀ b, cfg.blockHeight b = (block b).header.height
  txs : ∀ b, cfg.txs b = (block b).txs
  crossMerkleRoot : ∀ b, cfg.crossMerkleRoot b = (block b).header.crossMerkleRoot
  validateBlock : ∀ b,
    cfg.validateBlock b = decide (Consensus.validateBlock env s (block b) = some none)

def twoBlocks (k : Fin 3) : Config fourValidators (Fin 2) where
  hash := fun _ => hashAt5
  headerHash := fun _ => hashAt5
  blockHeight := fun _ => 5
  txs := fun _ => []
  crossMerkleRoot := fun b => (blockAt5 b).header.crossMerkleRoot
  validateBlock := fun _ => true
  verify := fun _ _ _ => false
  applyBlock := fun _ => true
  index := some k.succ
  address := keyAddress [UInt8.ofNat k.succ]
  sign := some
  signBytes := fun _ => some [UInt8.ofNat k.succ]
  parseId := 1
  voteTime := fun _ => 0
  skipTimeoutCommit := false
  waitForTxs := false
  createEmptyBlocksInterval := false

lemma hashAt5_eq : hashAt5 = ownBlock.hash chainOfFour.amino := by decide +kernel

lemma headerHashAt5_eq : hashAt5 = ownBlock.header.hash chainOfFour.amino := by
  have hmake : makeBlock chainOfFour stateAt4 5 [] commitAt4 [] (keyAddress [0]) [] =
      some ownBlock := (some_get _).symm
  obtain ⟨time, -, hown⟩ := map_eq_some_iff.mp hmake
  rw [hashAt5_eq, ← hown]
  simp [Block.hash, Block.fillHeader]

lemma blockAt5_accepted : ∀ b, validateBlock chainOfFour stateAt4 (blockAt5 b) = some none := by
  decide +kernel

lemma twoBlocks_names (k : Fin 3) : (twoBlocks k).Names chainOfFour stateAt4 blockAt5 where
  hash := Fin.cases hashAt5_eq (Fin.cases hashAt5_eq nofun)
  headerHash := Fin.cases headerHashAt5_eq (Fin.cases headerHashAt5_eq nofun)
  blockHeight := Fin.cases rfl (Fin.cases rfl nofun)
  txs := Fin.cases rfl (Fin.cases rfl nofun)
  crossMerkleRoot := fun _ => rfl
  validateBlock := fun b => (decide_eq_true (blockAt5_accepted b)).symm

def lastThree : Fin 4 → Option (Fin 3) := Fin.cases none some

/-- Nodes for the last three validators; the first one is faulty. -/
def oneFaulty : Deployment fourValidators (Fin 2) (Fin 3) where
  cfg := twoBlocks
  owner := lastThree
  owner_iff := by decide
  minority := by
    rw [@weight_eq_sum _ _ _ _ fun i => inferInstanceAs (Decidable (lastThree i = none))]
    decide

def votesAt5 : HeightVoteSet fourValidators := (HeightVoteSet.new 5).get (by decide)

def atHeight5 : Node fourValidators (Fin 2) where
  height := 5
  round := 0
  step := .newHeight
  proposal := none
  proposalBlock := none
  proposalBlockParts := none
  lockedRound := -1
  lockedBlock := none
  lockedBlockParts := none
  lockedIsProposal := false
  lockedPartsAreProposal := false
  validRound := -1
  votes := votesAt5
  commitRound := -1
  lastCommit := none
  triggeredTimeoutPrecommit := false
  storeHeight := 4
  timeouts := [⟨5, 0, .newHeight⟩]
  signed := []
  saved := []
  halted := false

lemma atHeight5_fresh : atHeight5.Fresh 5 where
  height_eq := rfl
  round := rfl
  unlocked := ⟨rfl, rfl, rfl⟩
  apart := ⟨rfl, rfl⟩
  proposal := ⟨rfl, rfl, rfl⟩
  votes := by simp [atHeight5, votesAt5]
  timeouts := by simp [atHeight5]
  signed := by simp [atHeight5]

section Schedules

/-- Validator `i` votes for `x` in round `r`. -/
def voteBy (type : SignedMsgType) (r : ℤ) (i : Fin 4) (x : BlockID) : Event (Fin 2) :=
  .vote ⟨type, 5, r, x, 0, keyAddress [UInt8.ofNat i], i, [UInt8.ofNat i], some ⟨[], 1⟩,
    some ⟨[], 1⟩⟩ [] []

abbrev prevoteBy := voteBy .prevote
abbrev precommitBy := voteBy .precommit

def fires (r : ℤ) (step : RoundStep) : Event (Fin 2) := .timeout ⟨5, r, step⟩

def proposal (r polRound : ℤ) (x : BlockID) : Event (Fin 2) :=
  .proposal ⟨5, r, polRound, x, 0, []⟩ true

def block (b : Fin 2) : Event (Fin 2) := .blockPart 5 (.completes b true)

/-- The block ID of a block cut into its parts. -/
def idOf (b : Fin 2) : BlockID :=
  ⟨hashAt5, ⟨1, List.replicate tmhashSize (UInt8.ofNat b)⟩⟩

/-- All nodes save block 0 in round 0, one of them after the others. -/
def oneRound : List (Fin 3 × Event (Fin 2)) :=
  [(0, fires 0 .newHeight), (1, fires 0 .newHeight), (2, fires 0 .newHeight),
    (0, proposal 0 (-1) (idOf 0)), (0, block 0), (0, prevoteBy 0 1 (idOf 0)),
    (1, proposal 0 (-1) (idOf 0)), (1, block 0), (1, prevoteBy 0 2 (idOf 0)),
    (2, fires 0 .propose), (2, prevoteBy 0 3 .zero),
    (0, prevoteBy 0 0 (idOf 0)), (0, prevoteBy 0 2 (idOf 0)), (0, precommitBy 0 1 (idOf 0)),
    (1, prevoteBy 0 0 (idOf 0)), (1, prevoteBy 0 1 (idOf 0)), (1, precommitBy 0 2 (idOf 0)),
    (0, precommitBy 0 0 (idOf 0)), (0, precommitBy 0 2 (idOf 0)),
    (1, precommitBy 0 0 (idOf 0)), (1, precommitBy 0 1 (idOf 0)),
    (2, precommitBy 0 0 (idOf 0)), (2, precommitBy 0 1 (idOf 0)), (2, precommitBy 0 2 (idOf 0)),
    (2, block 0)]

end Schedules

theorem oneRound_agrees :
    ∃ net, run (oneFaulty.step 5) (fun _ => atHeight5) oneRound = some net ∧
      (∀ k, (net k).saved ≠ []) ∧
      ∀ k k', ∀ e ∈ (net k).saved, ∀ e' ∈ (net k').saved, e.2 = e'.2 := by
  obtain ⟨net, hrun, hsaved⟩ : ∃ net, run (oneFaulty.step 5) (fun _ => atHeight5) oneRound =
      some net ∧ ∀ k, (net k).saved ≠ [] := Runs.exists_of_any (by decide +kernel)
  refine ⟨net, hrun, hsaved, ?_⟩
  refine savedBlocks_agree oneFaulty (fun _ => (idOf 0).partsHeader) 5 _ (fun _ => atHeight5_fresh)
    (fun _ => rfl) oneRound ?_ net hrun
  decide +kernel

/-- Node 0 saves block 0 in round 0. The others see a nil precommit of the faulty validator and
come to round 1, where block 0 gets a majority again. -/
def laterRound : List (Fin 3 × Event (Fin 2)) :=
  oneRound.take 19 ++
  [(2, prevoteBy 0 0 .zero), (2, prevoteBy 0 2 (idOf 0)), (2, fires 0 .prevoteWait),
    (2, precommitBy 0 3 .zero), (2, precommitBy 0 0 .zero), (2, precommitBy 0 2 (idOf 0)),
    (1, precommitBy 0 0 .zero), (1, precommitBy 0 3 .zero),
    (1, fires 0 .precommitWait), (2, fires 0 .precommitWait),
    (1, proposal 1 (-1) (idOf 0)), (1, block 0), (1, prevoteBy 1 2 (idOf 0)),
    (2, proposal 1 (-1) (idOf 0)), (2, block 0), (2, prevoteBy 1 3 (idOf 0)),
    (1, prevoteBy 1 0 (idOf 0)), (1, prevoteBy 1 3 (idOf 0))]

theorem laterRound_stays_locked :
    ∃ net, (run (oneFaulty.step 5) (fun _ => atHeight5) laterRound = some net ∧
        (net 0).saved ≠ [] ∧ (net 1).height = 5 ∧
        (net 1).votes.majority 1 .prevote = some (idOf 0)) ∧
      ∀ e ∈ (net 0).saved, e.2.hash ≠ [] ∧
        ∃ r, Backed oneFaulty.assembly (oneFaulty.ballots 5 net) ⟨r, true, e.2⟩ ∧
          (r < 1 → (idOf 0).hash = e.2.hash) := by
  refine (exists_congr fun net => and_iff_left_of_imp fun h e he => ?_).mpr
    (Runs.exists_of_any (by decide +kernel))
  obtain ⟨hrun, -, hheight, hmajority⟩ := h
  obtain ⟨hne, r, hr, hlater⟩ := savedBlocks_stay_locked oneFaulty
    (fun _ => (idOf 0).partsHeader) 5 _ (fun _ => atHeight5_fresh) (fun _ => rfl) laterRound
    (by decide +kernel) net hrun 0 e he
  exact ⟨hne, r, hr, fun hlt => hlater 1 hheight 1 (idOf 0) hlt hmajority⟩

/-- In round 1 the faulty validator proposes block 0 to two nodes and block 1 to the third, which
has seen the polka for block 0. -/
def splitParts : List (Fin 3 × Event (Fin 2)) :=
  [(0, fires 0 .newHeight), (1, fires 0 .newHeight), (2, fires 0 .newHeight),
    -- In round 0 the proposal is lost.
    (1, fires 0 .propose), (1, prevoteBy 0 2 .zero), (2, fires 0 .propose), (2, prevoteBy 0 3 .zero),
    (2, prevoteBy 0 0 .zero), (2, prevoteBy 0 2 .zero),
    (1, prevoteBy 0 0 .zero), (1, prevoteBy 0 3 .zero),
    (2, precommitBy 0 3 .zero), (2, precommitBy 0 0 .zero), (2, precommitBy 0 2 .zero),
    (1, precommitBy 0 2 .zero), (1, precommitBy 0 0 .zero), (1, precommitBy 0 3 .zero),
    (2, fires 0 .precommitWait), (1, fires 0 .precommitWait),
    -- In round 1 node 2 locks block 0 and precommits it.
    (2, proposal 1 (-1) (idOf 0)), (2, block 0), (2, prevoteBy 1 3 (idOf 0)),
    (1, proposal 1 (-1) (idOf 0)), (1, block 0), (1, prevoteBy 1 2 (idOf 0)),
    (2, prevoteBy 1 0 (idOf 0)), (2, prevoteBy 1 2 (idOf 0)), (2, precommitBy 1 3 (idOf 0)),
    -- Node 0 gets there by the polka, locks block 1 and precommits block 0.
    (0, prevoteBy 1 0 (idOf 0)), (0, prevoteBy 1 3 (idOf 0)), (0, prevoteBy 1 2 (idOf 0)),
    (0, proposal 1 (-1) (idOf 1)), (0, block 1),
    (0, prevoteBy 1 1 (idOf 1)), (0, precommitBy 1 1 (idOf 0)),
    -- Node 2 saves block 0; the other two see no majority of precommits.
    (2, precommitBy 1 0 (idOf 0)), (2, precommitBy 1 1 (idOf 0)),
    (1, precommitBy 1 0 .zero), (1, precommitBy 1 3 (idOf 0)), (1, precommitBy 1 1 (idOf 0)),
    (1, fires 1 .precommitWait), (1, precommitBy 1 2 .zero),
    (0, precommitBy 1 0 .zero), (0, precommitBy 1 3 (idOf 0)), (0, fires 1 .precommitWait),
    -- In round 2 node 0 proposes the block it holds.
    (0, proposal 2 1 (idOf 1)), (0, block 1), (0, prevoteBy 2 1 (idOf 1)),
    (1, proposal 2 1 (idOf 1)), (1, block 1),
    (1, prevoteBy 1 0 (idOf 0)), (1, prevoteBy 1 3 (idOf 0)), (1, prevoteBy 2 2 (idOf 1)),
    (0, prevoteBy 2 0 (idOf 1)), (0, prevoteBy 2 2 (idOf 1)), (0, precommitBy 2 1 (idOf 1)),
    (1, prevoteBy 2 0 (idOf 1)), (1, prevoteBy 2 1 (idOf 1)), (1, precommitBy 2 2 (idOf 1)),
    (1, precommitBy 2 0 (idOf 1)), (1, precommitBy 2 1 (idOf 1))]

/-- Two blocks with one hash are saved at one height. -/
theorem splitParts_disagree :
    (∀ k, (oneFaulty.cfg k).Names chainOfFour stateAt4 blockAt5) ∧ atHeight5.Fresh 5 ∧
      Guarded (oneFaulty.step 5) oneFaulty.Unforged (fun _ => atHeight5) splitParts ∧
      ∃ net, run (oneFaulty.step 5) (fun _ => atHeight5) splitParts = some net ∧
        (net 2).saved = [(5, idOf 0)] ∧ (net 1).saved = [(5, idOf 1)] ∧ idOf 0 ≠ idOf 1 := by
  refine ⟨twoBlocks_names, atHeight5_fresh, by decide +kernel, ?_⟩
  exact Runs.exists_of_any (by decide +kernel)

end ShardingBC.Consensus
