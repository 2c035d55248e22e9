import ShardingBC.Block
import ShardingBC.LockedVoting
import ShardingBC.VoteSetKeys

/-!
# Commits

What `MakeCommit` makes of the tables of a vote set, how a restarted node makes a vote set of
it again, and who has signed two commits for different blocks.
-/
namespace ShardingBC.Consensus

open Function List

namespace VoteTable

variable {E : Electorate} (key : BlockID → Bytes)

/-- `MakeCommit`; `none` is a panic. -/
def makeCommit (t : VoteTable E) : Option Commit :=
  if t.type ≠ .precommit then none
  else t.maj23.map fun x => ⟨x, List.ofFn t.votes⟩

/-- The loop body of `reconstructLastCommit`; `none` is a panic. -/
def readd (t : VoteTable E) : Option Vote → Option (VoteTable E)
  | none => some t
  | some precommit =>
    match t.addVote key precommit with
    | some (t', true, none) => some t'
    | _ => none

/-- `reconstructLastCommit`, which leaves `LastCommit` alone at height 0; the outer `none`
panics. -/
def reconstructLastCommit (lastBlockHeight : ℤ) (seenCommit : Option Commit) :
    Option (Option (VoteTable E)) :=
  if lastBlockHeight = 0 then some none
  else do
    -- the round of a nil commit is read before the commit is compared with nil
    let seenCommit ← seenCommit
    let lastPrecommits ← seenCommit.precommits.foldlM (readd key)
      (.new lastBlockHeight seenCommit.round .precommit)
    if lastPrecommits.maj23.isSome then some (some lastPrecommits) else none

variable {key} {t t₁ : VoteTable E} {i : E.Index} {vote : Vote}

/-- Nobody has two votes in the set. -/
def Single (t : VoteTable E) : Prop :=
  ∀ k bt, t.votesByBlock k = some bt → ∀ i v, bt.votes i = some v → t.votes i = some v

lemma Consistent.getVote_eq_none (h : t.Consistent key) (hnone : t.votes i = none)
    (k : Bytes) : t.getVote key i k = none := by
  unfold getVote
  rw [hnone]
  cases hbt : t.votesByBlock k with
  | none => rfl
  | some bt =>
    cases hv : bt.votes i with
    | none => simpa using hv
    | some v =>
      have hsome := (h.counted k bt hbt i v hv).2.2
      rw [hnone] at hsome
      cases hsome

lemma countVote_single (hsingle : t.Single) (hv : t.votes i = some vote) {bt : BlockTable E}
    (hbt : t.entry (key vote.blockID) = bt) (hnone : bt.votes i = none) :
    (t.countVote key i vote bt).votes = t.votes ∧ (t.countVote key i vote bt).Single := by
  have hself : ∀ j w, (bt.addVerifiedVote i vote).votes j = some w → t.votes j = some w := by
    rw [BlockTable.addVerifiedVote_votes hnone, ← hbt]
    exact forall_update_some hv (forall_entry (P := fun bt => ∀ j w, bt.votes j = some w → _)
      (fun _ _ hw => by cases hw) (hsingle _))
  obtain ⟨maj, votes, heq, hmaj⟩ := countVote_frame key t i vote bt
  have hvotes : votes = t.votes := by
    rcases hmaj with ⟨-, rfl⟩ | ⟨-, -, rfl⟩
    · rfl
    · funext j
      cases hw : (bt.addVerifiedVote i vote).votes j with
      | none => rfl
      | some w => exact (hself j w hw).symm
  subst hvotes
  rw [heq]
  exact ⟨rfl, forall_update_some hself hsingle⟩

lemma addVote_first (h : t.Consistent key) (hsingle : t.Single)
    (hnone : t.votes i = none) (hadmits : E.Admits t.height t.round t.type i vote)
    (haddress : vote.validatorAddress.length ≠ 0) (htype : vote.type = .precommit) :
    ∃ t', t.addVote key vote = some (t', true, none) ∧
      t'.votes = Function.update t.votes i (some vote) ∧ t'.Single := by
  have hget : t.getVote key i (key vote.blockID) = none := h.getVote_eq_none hnone _
  have hindex : E.getByIndex vote.validatorIndex = some i := by
    simp [Electorate.getByIndex, hadmits.index]
  -- the table between the two entries of the vote
  let t₁ : VoteTable E := { t with
    votes := Function.update t.votes i (some vote)
    votesBitArray := Function.update t.votesBitArray i true
    sum := t.sum + E.power i }
  have hsingle₁ : t₁.Single := by
    intro k bt hbt j w hw
    have hj : j ≠ i := by
      rintro rfl
      have := (h.counted k bt hbt j w hw).2.2
      rw [hnone] at this
      cases this
    exact (update_of_ne hj ..).trans (hsingle k bt hbt j w hw)
  have hv₁ : t₁.votes i = some vote := update_self ..
  have hadd : t.addVerifiedVote key i vote =
      some (t₁.countVote key i vote (t.entry (key vote.blockID)), true, none) := by
    have hcollect : t.collectShares vote = some t := by simp [collectShares, htype]
    have hreplace : t.replaceVote key i vote = some (t₁, none) := by
      rw [replaceVote, hnone]
    cases hbt : t₁.votesByBlock (key vote.blockID) with
    | some bt => simp [addVerifiedVote, hcollect, hreplace, hbt, entry_of_some (t := t) hbt]
    | none => simp [addVerifiedVote, hcollect, hreplace, hbt, entry, show t.votesByBlock _ = _ from hbt]
  have hreaches : t.Reaches key i vote := ⟨hindex, haddress, hadmits, hget⟩
  have hentry := entry_of_getVote_eq_none hget
  refine ⟨_, ?_, countVote_single hsingle₁ hv₁ rfl hentry⟩
  rw [hreaches.addVote_eq, hadd]
  rfl

/-- The votes of the set satisfy the predicate, and its majority is that of such a vote. -/
structure From (P : Vote → Prop) (t : VoteTable E) : Prop where
  votes : ∀ i v, t.votes i = some v → P v
  blocks : ∀ k bt, t.votesByBlock k = some bt → ∀ i v, bt.votes i = some v → P v
  maj23 : ∀ x, t.maj23 = some x → ∃ v, P v ∧ v.blockID = x

section From

variable {P : Vote → Prop} {t' : VoteTable E} {added : Bool}

lemma from_new (P : Vote → Prop) (height round : ℤ) (type : SignedMsgType) :
    (new height round type : VoteTable E).From P :=
  ⟨fun _ _ hv => (by cases hv), fun _ _ hbt => (by cases hbt), fun _ hx => (by cases hx)⟩

lemma From.entry (h : t.From P) (k : Bytes) : ∀ i v, (t.entry k).votes i = some v → P v :=
  forall_entry (P := fun bt => ∀ i v, bt.votes i = some v → P v) (fun _ _ hv => by cases hv)
    (h.blocks k)

lemma From.replaceVote {conflicting : Option Vote} (h : t.From P) (hP : P vote)
    (hr : t.replaceVote key i vote = some (t', conflicting)) : t'.From P := by
  obtain ⟨-, votes, bits, sum, rfl, rfl | rfl⟩ := replaceVote_frame hr
  · exact ⟨h.votes, h.blocks, h.maj23⟩
  · exact ⟨forall_update_some hP h.votes, h.blocks, h.maj23⟩

lemma From.countVote (h : t.From P) (hP : P vote) {bt : BlockTable E}
    (hbt : ∀ j v, bt.votes j = some v → P v) : (t.countVote key i vote bt).From P := by
  have hself : ∀ j v, (bt.addVerifiedVote i vote).votes j = some v → P v := by
    unfold BlockTable.addVerifiedVote
    split_ifs
    · exact forall_update_some hP hbt
    · exact hbt
  obtain ⟨maj, votes, heq, hmaj⟩ := countVote_frame key t i vote bt
  rw [heq]
  rcases hmaj with ⟨rfl, rfl⟩ | ⟨-, rfl, rfl⟩
  · exact ⟨h.votes, forall_update_some hself h.blocks, h.maj23⟩
  · refine ⟨fun j v hv => ?_, forall_update_some hself h.blocks, fun x hx => ?_⟩
    · rcases Option.or_eq_some_iff.mp hv with hv | ⟨-, hv⟩
      · exact hself j v hv
      · exact h.votes j v hv
    · exact ⟨vote, hP, Option.some.inj hx⟩

lemma From.addVote {err : Option VoteError} (h : t.From P) (hP : P vote)
    (hadd : t.addVote key vote = some (t', added, err)) : t'.From P := by
  rcases addVote_cases hadd with ⟨rfl, -⟩ | ⟨i, conflicting, -, hadd⟩
  · exact h
  · obtain ⟨t₁, t₂, h₁, h₂, hlast⟩ := addVerifiedVote_cases hadd
    obtain ⟨sigs, hashSigs, rfl⟩ := collectShares_spec h₁
    have hshares : From P { t with partSigs := sigs, partHashSigs := hashSigs } :=
      ⟨h.votes, h.blocks, h.maj23⟩
    have hfrom := hshares.replaceVote hP h₂
    rcases hlast with ⟨-, -, -, rfl⟩ | ⟨-, -, rfl⟩
    · exact hfrom
    · exact hfrom.countVote hP (hfrom.entry _)

lemma From.setPeerMaj23 (h : t.From P) (peerID : Bytes) (blockID : BlockID) :
    (t.setPeerMaj23 key peerID blockID).1.From P := by
  obtain ⟨peers, blocks, heq, hblocks⟩ := setPeerMaj23_cases key t peerID blockID
  rw [heq]
  rcases hblocks with rfl | rfl
  · exact ⟨h.votes, h.blocks, h.maj23⟩
  · exact ⟨h.votes, forall_update_some (h.entry _) h.blocks, h.maj23⟩

lemma From.run {calls : List VoteCall} (h : t.From P)
    (hcalls : ∀ vote, VoteCall.addVote vote ∈ calls → P vote)
    (hrun : Runs.run (VoteTable.step key) t calls = some t') : t'.From P := by
  induction calls generalizing t with
  | nil =>
    cases hrun
    exact h
  | cons call calls ih =>
    obtain ⟨t₁, hstep, hrest⟩ := Runs.run_cons.mp hrun
    refine ih ?_ (fun vote hvote => hcalls vote (by simp [hvote])) hrest
    cases call with
    | addVote vote =>
      obtain ⟨⟨_, added, err⟩, hadd, rfl⟩ := Option.map_eq_some_iff.mp hstep
      exact h.addVote (hcalls vote (by simp)) hadd
    | setPeerMaj23 peerID blockID =>
      cases hstep
      exact h.setPeerMaj23 peerID blockID

end From

variable {P : Vote → Prop}

/-- The votes of some of the validators have been added again. -/
structure Readded (key : BlockID → Bytes) (P : Vote → Prop) (t : VoteTable E)
    (seen : E.Index → Prop) (t₁ : VoteTable E) : Prop where
  consistent : t₁.Consistent key
  single : t₁.Single
  origin : t₁.From P
  step : t.SameStep t₁
  added : ∀ i, seen i → t₁.votes i = t.votes i
  missing : ∀ i, ¬ seen i → t₁.votes i = none

lemma readded_new (key : BlockID → Bytes) (P : Vote → Prop) (t : VoteTable E) :
    t.Readded key P (fun _ => False) (.new t.height t.round t.type) :=
  ⟨consistent_new .., fun _ _ hbt => (by cases hbt), from_new .., ⟨rfl, rfl, rfl⟩,
    fun _ hi => hi.elim, fun _ _ => rfl⟩

/-- A vote set of precommits, as far as they matter for a commit. -/
structure Precommitted (key : BlockID → Bytes) (P : Vote → Prop) (t : VoteTable E) : Prop where
  consistent : t.Consistent key
  origin : t.From P
  type : t.type = .precommit
  address : ∀ v, P v → v.validatorAddress.length ≠ 0
  injective : ∀ v v', P v → P v' → key v.blockID = key v'.blockID → v.blockID = v'.blockID

lemma Readded.readd {seen : E.Index → Prop} (h : t.Readded key P seen t₁)
    (ht : t.Precommitted key P) (hi : ¬ seen i) :
    ∃ t₂, t₁.readd key (t.votes i) = some t₂ ∧ t.Readded key P (fun j => seen j ∨ j = i) t₂ := by
  obtain ⟨h1, h2, h3⟩ := h.step
  cases hv : t.votes i with
  | none =>
    refine ⟨t₁, rfl, h.consistent, h.single, h.origin, h.step, fun j hj => ?_, fun j hj => ?_⟩
    · rcases hj with hj | rfl
      · exact h.added j hj
      · rw [h.missing j hi, hv]
    · exact h.missing j fun hs => hj (.inl hs)
  | some v =>
    have hadmits := ht.consistent.listed i v hv
    have hP := ht.origin.votes i v hv
    obtain ⟨t₂, hadd, hvotes, hsingle⟩ := addVote_first h.consistent h.single (h.missing i hi)
      (by rw [h1, h2, h3]; exact hadmits) (ht.address v hP) (hadmits.type.trans ht.type)
    obtain ⟨h1', h2', h3'⟩ := addVote_sameStep hadd
    refine ⟨t₂, by rw [VoteTable.readd, hadd], h.consistent.addVote hadd, hsingle,
      h.origin.addVote hP hadd, ⟨h1'.trans h1, h2'.trans h2, h3'.trans h3⟩, fun j hj => ?_,
      fun j hj => ?_⟩
    · rw [hvotes]
      by_cases he : j = i
      · rw [he, update_self, hv]
      · rw [update_of_ne he]
        exact h.added j (hj.resolve_right he)
    · have he : j ≠ i := fun he => hj (.inr he)
      rw [hvotes, update_of_ne he]
      exact h.missing j fun hs => hj (.inl hs)

lemma Readded.foldlM {seen : E.Index → Prop} (h : t.Readded key P seen t₁)
    (ht : t.Precommitted key P) {is : List E.Index} (hnodup : is.Nodup)
    (his : ∀ i ∈ is, ¬ seen i) :
    ∃ t₂, (is.map t.votes).foldlM (VoteTable.readd key) t₁ = some t₂ ∧
      t.Readded key P (fun j => seen j ∨ j ∈ is) t₂ := by
  induction is generalizing t₁ seen with
  | nil => exact ⟨t₁, rfl, by simpa using h⟩
  | cons i is ih =>
    obtain ⟨hi, hrest⟩ := nodup_cons.mp hnodup
    obtain ⟨t₂, hadd, h₂⟩ := h.readd ht (his i (by simp))
    have hisnot : ∀ j ∈ is, ¬ (seen j ∨ j = i) := by
      rintro j hj (hs | rfl)
      · exact his j (by simp [hj]) hs
      · exact hi hj
    obtain ⟨t₃, hfold, h₃⟩ := ih h₂ hrest hisnot
    refine ⟨t₃, ?_, by simpa only [mem_cons, or_assoc] using h₃⟩
    rw [map_cons, foldlM_cons, hadd]
    exact hfold

/-- The validator's primary vote is for the block. -/
def VotesFor (t : VoteTable E) (x : BlockID) (i : E.Index) : Prop :=
  ∃ v, t.votes i = some v ∧ v.blockID = x

lemma quorate_iff {p : E.Index → Prop} :
    LockedVoting.Quorate E.power p ↔ E.quorum ≤ LockedVoting.weight E.power p := by
  unfold LockedVoting.Quorate Electorate.quorum
  rw [E.sum_power]
  omega

variable {x : BlockID}

lemma Consistent.quorate_of_maj23 (h : t.Consistent key)
    (hmaj : t.maj23 = some x) :
    LockedVoting.Quorate E.power fun i => ∃ v, t.votes i = some v ∧ key v.blockID = key x := by
  obtain ⟨bt, hbt, hq⟩ := h.quorum x hmaj
  rw [quorate_iff]
  refine hq.trans ?_
  rw [(h.counts _ bt hbt).sum]
  have hweight : tally bt.votes = LockedVoting.weight E.power fun i => (bt.votes i).isSome :=
    LockedVoting.weight_eq_sum.symm
  rw [hweight]
  refine LockedVoting.weight_mono fun i hi => ?_
  obtain ⟨v, hv⟩ := Option.isSome_iff_exists.mp hi
  exact ⟨v, h.chosen x hmaj bt hbt i v hv, (h.counted _ bt hbt i v hv).1⟩

lemma Precommitted.quorate (ht : t.Precommitted key P) (hmaj : t.maj23 = some x) :
    LockedVoting.Quorate E.power (t.VotesFor x) := by
  refine (ht.consistent.quorate_of_maj23 hmaj).mono ?_
  rintro i ⟨v, hv, hkey⟩
  obtain ⟨w, hw, rfl⟩ := ht.origin.maj23 x hmaj
  exact ⟨v, hv, ht.injective v w (ht.origin.votes i v hv) hw hkey⟩

/-- With votes for a block by a quorum, the block is the majority. -/
lemma Precommitted.maj23_of_quorate (ht : t.Precommitted key P)
    (hq : LockedVoting.Quorate E.power (t.VotesFor x)) : t.maj23 = some x := by
  obtain ⟨i₀, v₀, hv₀, hx₀⟩ := hq.exists_mem
  cases hmaj : t.maj23 with
  | none =>
    obtain ⟨bt, hbt, -⟩ := (ht.consistent.recorded hmaj i₀ v₀ hv₀).resolve_left id
    rw [hx₀] at hbt
    have hsmall := ht.consistent.small hmaj _ bt hbt
    have hle : LockedVoting.weight E.power (t.VotesFor x) ≤ bt.sum := by
      have hweight : tally bt.votes = LockedVoting.weight E.power fun i => (bt.votes i).isSome :=
        LockedVoting.weight_eq_sum.symm
      rw [(ht.consistent.counts _ bt hbt).sum, hweight]
      refine LockedVoting.weight_mono ?_
      rintro i ⟨v, hv, rfl⟩
      obtain ⟨bt', hbt', hv'⟩ := (ht.consistent.recorded hmaj i v hv).resolve_left id
      obtain rfl := Option.some.inj (hbt.symm.trans hbt')
      rw [hv']
      rfl
    rw [quorate_iff] at hq
    omega
  | some y =>
    obtain ⟨i, ⟨v, hv, hx⟩, w, hw, hy⟩ := hq.exists_common (ht.quorate hmaj)
    obtain rfl := Option.some.inj (hv.symm.trans hw)
    rw [← hx, ← hy]

lemma Precommitted.precommits (ht : t.Precommitted key P)
    (hmaj : t.maj23 = some x) : E.Precommits t.height t.round t.votes := by
  refine ⟨fun i v hv => ?_, ?_⟩
  · have hadmits := ht.consistent.listed i v hv
    exact ⟨⟨hadmits.height, hadmits.round, hadmits.type.trans ht.type⟩, hadmits.verified⟩
  · obtain ⟨i, v, hv, -⟩ := (ht.quorate hmaj).exists_mem
    exact ⟨i, v, hv⟩

lemma Precommitted.verifyCommit (ht : t.Precommitted key P)
    (hmaj : t.maj23 = some x) (hx : x.isZero = false) :
    Consensus.verifyCommit E x t.height ⟨x, List.ofFn t.votes⟩ = none := by
  refine (ht.precommits hmaj).verifyCommit hx ?_
  refine (quorate_iff.mp (ht.quorate hmaj)).trans (le_of_eq ?_)
  classical
  refine Finset.sum_congr rfl fun i _ => ?_
  cases hv : t.votes i with
  | none => simp [VotesFor, hv]
  | some v => simp [VotesFor, hv]

/-- The commit of a vote set gives its votes and its majority back. -/
lemma Precommitted.reconstruct (ht : t.Precommitted key P) (hheight : t.height ≠ 0)
    (hmaj : t.maj23 = some x) :
    ∃ t₂, reconstructLastCommit key t.height (some ⟨x, List.ofFn t.votes⟩) = some (some t₂) ∧
      t₂.votes = t.votes ∧ t₂.maj23 = some x := by
  obtain ⟨t₂, hfold, h₂⟩ := (readded_new key P t).foldlM ht (nodup_finRange _)
    (fun _ _ => id)
  have hvotes : t₂.votes = t.votes := funext fun i => h₂.added i (.inr (mem_finRange i))
  have ht₂ : t₂.Precommitted key P :=
    ⟨h₂.consistent, h₂.origin, h₂.step.2.2.trans ht.type, ht.address, ht.injective⟩
  have hq : LockedVoting.Quorate E.power (t₂.VotesFor x) := by
    unfold VotesFor
    rw [hvotes]
    exact ht.quorate hmaj
  have hmaj₂ := ht₂.maj23_of_quorate hq
  refine ⟨t₂, ?_, hvotes, hmaj₂⟩
  rw [ht.type, ← ofFn_eq_map] at hfold
  simp only [reconstructLastCommit, if_neg hheight, Option.bind_eq_bind, Option.bind_some,
    ((ht.precommits hmaj).height_round x).2, hfold, hmaj₂, Option.isSome_some, if_true]

lemma precommitted_of_run {height round : ℤ} {calls : List VoteCall} {t : VoteTable E}
    (hcalls : ∀ vote, .addVote vote ∈ calls → vote.validateBasic = true)
    (hrun : Runs.run (VoteTable.step BlockID.key) (new height round .precommit) calls = some t) :
    t.Precommitted BlockID.key (fun v => v.validateBasic = true) ∧ t.height = height := by
  have hstep : ∀ (s : VoteTable E) c s', SameStep (new height round .precommit) s →
      s.step BlockID.key c = some s' → SameStep (new height round .precommit) s' := by
    rintro s c s' ⟨h1, h2, h3⟩ hs
    have hsame : s.SameStep s' := by
      cases c with
      | addVote vote =>
        obtain ⟨⟨_, added, err⟩, hadd, rfl⟩ := Option.map_eq_some_iff.mp hs
        exact addVote_sameStep hadd
      | setPeerMaj23 peerID blockID =>
        cases hs
        exact s.setPeerMaj23_sameStep peerID blockID
    exact ⟨hsame.1.trans h1, hsame.2.1.trans h2, hsame.2.2.trans h3⟩
  obtain ⟨hheight, -, htype⟩ := Runs.invariant hstep hrun ⟨rfl, rfl, rfl⟩
  refine ⟨⟨((consistent_new ..).run hrun).1, (from_new ..).run hcalls hrun, htype, ?_, ?_⟩, hheight⟩
  · intro v hv
    simp only [Vote.validateBasic, Bool.and_eq_true, decide_eq_true_eq] at hv
    rw [hv.1.1.1.2]
    decide
  · exact fun v v' hv hv' hkey => key_injOn (mem_votable hv) (mem_votable hv') hkey

/-- What `MakeCommit` makes of validated precommits, in any order, passes both checks and makes the
same majority again. -/
theorem commit_verifies_and_reloads {height round : ℤ} (hheight : height ≠ 0)
    {calls : List VoteCall} {t : VoteTable E}
    (hcalls : ∀ vote, .addVote vote ∈ calls → vote.validateBasic = true)
    (hrun : Runs.run (VoteTable.step BlockID.key) (new height round .precommit) calls = some t)
    {x : BlockID} (hmaj : t.maj23 = some x) (hx : x.isZero = false) :
    ∃ c, t.makeCommit = some c ∧ c.validateBasic = none ∧ verifyCommit E x height c = none ∧
      ∃ t' : VoteTable E, reconstructLastCommit BlockID.key height (some c) = some (some t') ∧
        t'.votes = t.votes ∧ t'.maj23 = some x := by
  obtain ⟨ht, rfl⟩ := precommitted_of_run hcalls hrun
  refine ⟨⟨x, ofFn t.votes⟩, ?_, (ht.precommits hmaj).validateBasic hx,
    ht.verifyCommit hmaj hx, ht.reconstruct hheight hmaj⟩
  rw [makeCommit, if_neg (not_not.mpr ht.type), hmaj]
  rfl

def wholeBlock : BlockID := ⟨List.replicate 32 9, 1, List.replicate 32 8⟩

/-- A signature is the key. -/
def fourVoters : Electorate where
  chainID := lit "A"
  validators := [1, 2, 3, 4].map fun k => ⟨List.replicate 20 k, [k], 1⟩
  addressOf := fun pubKey => List.replicate 20 (pubKey.headD 0)
  verifyBytes := fun pubKey _ signature => signature = pubKey

def precommitFor (i : ℕ) (x : BlockID) : Vote :=
  ⟨.precommit, 1, 0, x, 0, List.replicate 20 (.ofNat (i + 1)), i, [.ofNat (i + 1)], none, none⟩

/-- One of the validators precommits nil. -/
def committedCalls : List VoteCall :=
  [.setPeerMaj23 [7] .zero, .addVote (precommitFor 3 .zero), .addVote (precommitFor 0 wholeBlock),
    .addVote (precommitFor 2 wholeBlock), .addVote (precommitFor 1 wholeBlock)]

theorem three_of_four_verify_and_reload :
    ∃ (t : VoteTable fourVoters) (c : Commit), Runs.run (VoteTable.step BlockID.key)
        (new 1 0 .precommit) committedCalls = some t ∧
      t.makeCommit = some c ∧ c.validateBasic = none ∧
      verifyCommit fourVoters wholeBlock 1 c = none ∧
      ∃ t' : VoteTable fourVoters, reconstructLastCommit BlockID.key 1 (some c) = some (some t') ∧
        t'.votes = t.votes ∧ t'.maj23 = some wholeBlock := by
  obtain ⟨t, hrun, hmaj⟩ : ∃ t : VoteTable fourVoters, Runs.run (VoteTable.step BlockID.key)
      (new 1 0 .precommit) committedCalls = some t ∧ t.maj23 = some wholeBlock :=
    Runs.exists_of_any (by decide +kernel)
  have hcalls : ∀ vote, VoteCall.addVote vote ∈ committedCalls → vote.validateBasic = true := by
    intro vote hvote
    simp only [committedCalls, mem_cons, reduceCtorEq, VoteCall.addVote.injEq, not_mem_nil,
      false_or, or_false] at hvote
    rcases hvote with rfl | rfl | rfl | rfl <;> decide +kernel
  obtain ⟨c, hmake, hrest⟩ := commit_verifies_and_reloads (by decide) hcalls hrun hmaj
    (by decide +kernel)
  exact ⟨t, c, hrun, hmake, hrest⟩

def shortBlock : BlockID := ⟨[1], 5, []⟩

/-- The hash is the key of the other block ID. -/
def longBlock : BlockID := ⟨[1, 8, 5], 0, []⟩

/-- With votes that were never validated a commit that verifies is reloaded with another majority:
its third vote completes the quorum of the common key. -/
theorem colliding_keys_change_majority :
    (Runs.run (VoteTable.step BlockID.key) (new 1 0 .precommit : VoteTable fourVoters)
      [.addVote (precommitFor 0 shortBlock), .addVote (precommitFor 1 shortBlock),
        .addVote (precommitFor 3 shortBlock), .addVote (precommitFor 2 longBlock)]).any
      (fun t => t.maj23 = some shortBlock ∧ shortBlock.isZero = false ∧ t.makeCommit.any fun c =>
        c.validateBasic = none ∧ verifyCommit fourVoters shortBlock 1 c = none ∧
        (reconstructLastCommit BlockID.key 1 (some c) :
          Option (Option (VoteTable fourVoters))).any fun lastCommit =>
            lastCommit.any fun t' => t'.maj23 = some longBlock) = true ∧
    shortBlock ≠ longBlock := by
  decide +kernel

end VoteTable

/-- The commit has a valid precommit of the validator for its round and block. -/
def Commit.SignedBy {E : Electorate} (c : Commit) (height round : ℤ) (x : BlockID)
    (i : E.Index) : Prop :=
  ∃ v, c.precommits[(i : ℕ)]? = some (some v) ∧
    (v.type = .precommit ∧ v.height = height ∧ v.round = round ∧ v.blockID = x) ∧
    E.verifyBytes (E.validators.get i).pubKey (canonicalizeVote E.chainID v) v.signature = true

section TwoCommits

variable {E : Electorate} {x y : BlockID} {height : ℤ} {c c' : Commit}

lemma Commit.checkPrecommit_of_validateBasic (h : c.validateBasic = none) {v : Vote}
    (hv : some v ∈ c.precommits) :
    v.type = .precommit ∧ v.height = c.height ∧ v.round = c.round := by
  unfold Commit.validateBasic at h
  split_ifs at h
  have hcheck := findSome?_eq_none_iff.mp h (some v) hv
  rw [Option.bind_some, Commit.checkPrecommit] at hcheck
  split_ifs at hcheck with h1 h2 h3
  exact ⟨not_not.mp h1, not_not.mp h2, not_not.mp h3⟩

lemma quorate_of_verifyCommit (h : verifyCommit E x height c = none) :
    LockedVoting.Quorate E.power (c.SignedBy height c.round x) := by
  unfold verifyCommit at h
  split at h
  · cases h
  · rename_i hbasic
    dsimp only at h
    split_ifs at h with hsize hheight hid hsigned htally
    have hsize := not_not.mp hsize
    obtain ⟨votes, hvotes⟩ : ∃ votes : E.Index → Option Vote, c.precommits = ofFn votes := by
      refine ⟨fun i => c.precommits.get (i.cast hsize), ?_⟩
      refine ext_getElem (by simp [hsize]) fun k hk hk' => ?_
      simp
    rw [hvotes, Electorate.zip_ofFn] at hsigned htally
    rw [map_ofFn, sum_ofFn] at htally
    rw [VoteTable.quorate_iff]
    refine le_trans (Nat.succ_le_of_lt htally) ?_
    classical
    refine Finset.sum_le_sum fun i _ => ?_
    cases hv : votes i with
    | none => simp [hv]
    | some v =>
      by_cases hx : v.blockID = x
      · have hmem : some v ∈ c.precommits := by
          rw [hvotes]
          exact (mem_ofFn ..).mpr ⟨i, hv⟩
        obtain ⟨h1, h2, h3⟩ := Commit.checkPrecommit_of_validateBasic hbasic hmem
        have hverified : E.verifyBytes (E.validators.get i).pubKey
            (canonicalizeVote E.chainID v) v.signature = true := by
          by_contra hbad
          refine hsigned (any_eq_true.mpr ⟨_, (mem_ofFn ..).mpr ⟨i, rfl⟩, ?_⟩)
          simpa [hv] using hbad
        have hi : c.SignedBy height c.round x i := by
          refine ⟨v, ?_, ⟨h1, h2.trans (not_not.mp hheight).symm, h3, hx⟩, hverified⟩
          rw [hvotes, List.getElem?_ofFn, dif_pos i.isLt]
          exact congrArg some hv
        rw [if_pos hi]
        simp [hv, hx, Electorate.power]
      · simp [hv, hx]

/-- Two commits of a round share more than a third of the power, which signed both blocks. -/
theorem commits_share_signers (hc : verifyCommit E x height c = none)
    (hc' : verifyCommit E y height c' = none) (hround : c.round = c'.round) :
    E.totalVotingPower < 3 * LockedVoting.weight E.power fun i : E.Index =>
      c.SignedBy height c.round x i ∧ c'.SignedBy height c.round y i := by
  have hq' := quorate_of_verifyCommit hc'
  rw [← hround] at hq'
  rw [← E.sum_power]
  exact (quorate_of_verifyCommit hc).inter hq'

open VoteTable in
/-- Two of four validators have signed for two blocks. -/
theorem two_of_four_equivocate :
    ∃ c c' : Commit, verifyCommit fourVoters wholeBlock 1 c = none ∧
      verifyCommit fourVoters shortBlock 1 c' = none ∧
      fourVoters.totalVotingPower < 3 * LockedVoting.weight fourVoters.power fun i =>
        c.SignedBy 1 0 wholeBlock i ∧ c'.SignedBy 1 0 shortBlock i := by
  have hc : verifyCommit fourVoters wholeBlock 1 ⟨wholeBlock, [some (precommitFor 0 wholeBlock),
      some (precommitFor 1 wholeBlock), some (precommitFor 2 wholeBlock), none]⟩ = none := by
    decide +kernel
  have hc' : verifyCommit fourVoters shortBlock 1 ⟨shortBlock, [none,
      some (precommitFor 1 shortBlock), some (precommitFor 2 shortBlock),
      some (precommitFor 3 shortBlock)]⟩ = none := by
    decide +kernel
  exact ⟨_, _, hc, hc', commits_share_signers hc hc' rfl⟩

end TwoCommits

end ShardingBC.Consensus
