import Mathlib.Algebra.BigOperators.Group.Finset.Basic
import Mathlib.Algebra.Order.BigOperators.Group.Finset
import Mathlib.Data.Fintype.BigOperators
import Mathlib.Logic.Relation

/-!
# Voting with locks

Members of an assembly cast ballots in rounds, first a prevote and then a precommit. A member
precommits a value that more than two thirds of the power prevoted, and then prevotes nothing else
unless it knows of a later round in which something else got that many prevotes. If less than a
third is faulty, no two values are ever precommitted by two thirds.
-/
namespace LockedVoting

open Function List

open scoped Classical in
/-- The power of the members with a property. -/
noncomputable def weight {V : Type*} [Fintype V] (power : V → ℕ) (p : V → Prop) : ℕ :=
  ∑ i, if p i then power i else 0

/-- More than two thirds of the power. -/
def Quorate {V : Type*} [Fintype V] (power : V → ℕ) (p : V → Prop) : Prop :=
  2 * ∑ i, power i < 3 * weight power p

section Weight

variable {V : Type*} [Fintype V] {power : V → ℕ} {p q : V → Prop}

lemma weight_eq_sum [DecidablePred p] :
    weight power p = ∑ i, if p i then power i else 0 := by
  refine Finset.sum_congr rfl fun i _ => ?_
  by_cases hp : p i <;> simp [hp]

lemma weight_mono (h : ∀ i, p i → q i) : weight power p ≤ weight power q := by
  refine Finset.sum_le_sum fun i _ => ?_
  by_cases hp : p i
  · simp [hp, h i hp]
  · simp [hp]

lemma weight_add_le : weight power p + weight power q ≤
    weight power (fun i => p i ∧ q i) + ∑ i, power i := by
  simp only [weight, ← Finset.sum_add_distrib]
  refine Finset.sum_le_sum fun i _ => ?_
  by_cases hp : p i <;> by_cases hq : q i <;> simp [hp, hq]

lemma power_add_weight_le {j : V} (hj : p j) (hq : ∀ i, q i → i ≠ j ∧ p i) :
    power j + weight power q ≤ weight power p := by
  classical
  have hsingle : power j = ∑ i, if i = j then power i else 0 := by simp
  rw [hsingle]
  simp only [weight, ← Finset.sum_add_distrib]
  refine Finset.sum_le_sum fun i _ => ?_
  by_cases hi : i = j
  · subst hi
    have hqi : ¬ q i := fun h => (hq i h).1 rfl
    simp [hqi, hj]
  · by_cases hqi : q i
    · simp [hi, hqi, (hq i hqi).2]
    · simp [hi, hqi]

lemma Quorate.mono (hp : Quorate power p) (h : ∀ i, p i → q i) : Quorate power q := by
  have : weight power p ≤ weight power q := weight_mono h
  unfold Quorate at hp ⊢
  omega

/-- Two quorums have more than a third of the power in common. -/
lemma Quorate.inter (hp : Quorate power p) (hq : Quorate power q) :
    ∑ i, power i < 3 * weight power fun i => p i ∧ q i := by
  have hadd : weight power p + weight power q ≤ _ := weight_add_le
  unfold Quorate at hp hq
  omega

lemma exists_of_weight_pos (h : 0 < weight power p) : ∃ i, p i := by
  by_contra hnone
  push Not at hnone
  simp [weight, hnone] at h

lemma Quorate.exists_mem (hp : Quorate power p) : ∃ i, p i := by
  refine exists_of_weight_pos (?_ : 0 < weight power p)
  unfold Quorate at hp
  omega

lemma Quorate.exists_common (hp : Quorate power p) (hq : Quorate power q) :
    ∃ i, p i ∧ q i := by
  have hinter := hp.inter hq
  have hpos : 0 < weight power fun i => p i ∧ q i := by omega
  exact exists_of_weight_pos hpos

end Weight

/-- The members with their power, less than a third of it faulty. -/
structure Assembly (V : Type*) [Fintype V] where
  power : V → ℕ
  faulty : V → Prop
  minority : 3 * weight power faulty < ∑ i, power i

/-- Two quorums have a member in common that is not faulty. -/
lemma Assembly.exists_common {V : Type*} [Fintype V] (A : Assembly V) {p q : V → Prop}
    (hp : Quorate A.power p) (hq : Quorate A.power q) : ∃ i, ¬ A.faulty i ∧ p i ∧ q i := by
  by_contra hnone
  push Not at hnone
  have hle : weight A.power (fun i => p i ∧ q i) ≤ weight A.power A.faulty := by
    refine weight_mono fun i hi => ?_
    by_contra hf
    exact hnone i hf hi.1 hi.2
  have hinter := hp.inter hq
  have hminority := A.minority
  omega

structure Ballot (B : Type*) where
  round : ℤ
  precommit : Bool
  block : B

/-- The order in which a member casts its ballots. -/
def Ballot.Before {B : Type*} (a b : Ballot B) : Prop :=
  a.round < b.round ∨ a.round = b.round ∧ a.precommit = false ∧ b.precommit = true

lemma Ballot.Before.asymm {B : Type*} {a b : Ballot B} (h : a.Before b) : ¬ b.Before a := by
  rintro (h' | ⟨h', hb, -⟩) <;> rcases h with h | ⟨h, -, hb'⟩
  · omega
  · omega
  · omega
  · rw [hb] at hb'
    cases hb'

section Protocol

variable {V B H : Type*}

lemma eq_or_before {l : List (Ballot B)} (hsorted : l.Pairwise fun b a => a.Before b)
    {a b : Ballot B} (ha : a ∈ l) (hb : b ∈ l) : a = b ∨ a.Before b ∨ b.Before a := by
  induction hsorted with
  | nil => cases ha
  | cons hnewest _ ih =>
    rcases mem_cons.mp ha with rfl | ha' <;> rcases mem_cons.mp hb with rfl | hb'
    · exact .inl rfl
    · exact .inr (.inr (hnewest b hb'))
    · exact .inr (.inl (hnewest a ha'))
    · exact ih ha' hb'

lemma mem_of_before {l l' : List (Ballot B)} {a b : Ballot B} (hsuffix : l <:+ l')
    (hsorted : l'.Pairwise fun b a => a.Before b) (ha : a ∈ l') (hb : b ∈ l)
    (hbefore : a.Before b) : a ∈ l := by
  obtain ⟨newer, hnewer⟩ := hsuffix
  rw [← hnewer] at ha hsorted
  rcases mem_append.mp ha with ha | ha
  · exact absurd ((pairwise_append.mp hsorted).2.2 a ha b hb) hbefore.asymm
  · exact ha

variable [Fintype V]

/-- A quorum cast the ballot, or may claim to have. -/
def Backed (A : Assembly V) (L : V → List (Ballot B)) (b : Ballot B) : Prop :=
  Quorate A.power fun i => A.faulty i ∨ b ∈ L i

/-- When a member may cast a ballot. Members lock the value of a block; a ballot for nothing has
none. -/
structure Admissible (A : Assembly V) (value : B → Option H) (L : V → List (Ballot B)) (i : V)
    (b : Ballot B) : Prop where
  later : ∀ a ∈ L i, a.Before b
  locked : b.precommit = false → ∀ a ∈ L i, a.precommit = true → value a.block ≠ none →
    value b.block = value a.block ∨ ∃ r z, a.round < r ∧ r ≤ b.round ∧
      Backed A L ⟨r, false, z⟩ ∧ value z ≠ value a.block
  polka : b.precommit = true → value b.block ≠ none → Backed A L ⟨b.round, false, b.block⟩

variable {A : Assembly V} {value : B → Option H} {L L' : V → List (Ballot B)}

lemma Backed.mono {b : Ballot B} (h : Backed A L b) (hL : ∀ i, ∀ a ∈ L i, a ∈ L' i) :
    Backed A L' b :=
  Quorate.mono h fun i hi => hi.imp_right (hL i b)

lemma Backed.exists_mem {a b : Ballot B} (ha : Backed A L a) (hb : Backed A L' b) :
    ∃ i, a ∈ L i ∧ b ∈ L' i := by
  obtain ⟨i, hf, hia, hib⟩ := A.exists_common ha hb
  exact ⟨i, hia.resolve_left hf, hib.resolve_left hf⟩

/-- What holds of the ballots of every run. -/
structure Sound (A : Assembly V) (value : B → Option H) (L : V → List (Ballot B)) : Prop where
  sorted : ∀ i, (L i).Pairwise fun b a => a.Before b
  polka : ∀ i, ∀ b ∈ L i, b.precommit = true → value b.block ≠ none →
    Backed A L ⟨b.round, false, b.block⟩
  locked : ∀ i, ∀ a ∈ L i, ∀ b ∈ L i, a.precommit = true → value a.block ≠ none →
    b.precommit = false → a.Before b → value b.block = value a.block ∨
      ∃ r z, a.round < r ∧ r ≤ b.round ∧ Backed A L ⟨r, false, z⟩ ∧ value z ≠ value a.block

variable [DecidableEq V]

/-- One member casts one ballot; the newest ballots come first. -/
def Step (A : Assembly V) (value : B → Option H) (L L' : V → List (Ballot B)) : Prop :=
  ∃ i b, Admissible A value L i b ∧ L' = Function.update L i (b :: L i)

abbrev Steps (A : Assembly V) (value : B → Option H) :
    (V → List (Ballot B)) → (V → List (Ballot B)) → Prop :=
  Relation.ReflTransGen (Step A value)

lemma Step.suffix (h : Step A value L L') (i : V) : L i <:+ L' i := by
  obtain ⟨j, b, -, rfl⟩ := h
  by_cases hij : i = j
  · subst hij
    rw [update_self]
    exact suffix_cons b (L i)
  · rw [update_of_ne hij]

lemma Steps.suffix (h : Steps A value L L') (i : V) : L i <:+ L' i := by
  induction h with
  | refl => exact suffix_rfl
  | tail _ hstep ih => exact ih.trans (hstep.suffix i)

lemma Step.mem_cases (h : Step A value L L') {i : V} {b : Ballot B} (hb : b ∈ L' i) :
    b ∈ L i ∨ Admissible A value L i b ∧ L' i = b :: L i := by
  obtain ⟨j, c, hc, rfl⟩ := h
  by_cases hij : i = j
  · subst hij
    rw [update_self] at hb ⊢
    rcases mem_cons.mp hb with rfl | hb
    · exact .inr ⟨hc, rfl⟩
    · exact .inl hb
  · rw [update_of_ne hij] at hb
    exact .inl hb

lemma Sound.step (h : Sound A value L) (hstep : Step A value L L') : Sound A value L' := by
  have hmono : ∀ i, ∀ a ∈ L i, a ∈ L' i := fun i => (hstep.suffix i).subset
  constructor
  · intro i
    obtain ⟨j, b, hb, rfl⟩ := hstep
    by_cases hij : i = j
    · subst hij
      rw [update_self]
      exact pairwise_cons.mpr ⟨hb.later, h.sorted i⟩
    · rw [update_of_ne hij]
      exact h.sorted i
  · intro i b hb hpre hval
    rcases hstep.mem_cases hb with hold | ⟨hnew, -⟩
    · exact (h.polka i b hold hpre hval).mono hmono
    · exact (hnew.polka hpre hval).mono hmono
  · intro i a ha b hb hpre hval hprev hbefore
    have hfound : value b.block = value a.block ∨ ∃ r z, a.round < r ∧ r ≤ b.round ∧
        Backed A L ⟨r, false, z⟩ ∧ value z ≠ value a.block := by
      rcases hstep.mem_cases hb with hbold | ⟨hnew, hcons⟩
      · rcases hstep.mem_cases ha with haold | ⟨hnew, -⟩
        · exact h.locked i a haold b hbold hpre hval hprev hbefore
        · -- The newest ballot is not before one that is already there.
          exact absurd hbefore (hnew.later b hbold).asymm
      · rw [hcons] at ha
        rcases mem_cons.mp ha with rfl | haold
        · exact absurd hbefore hbefore.asymm
        · exact hnew.locked hprev a haold hpre hval
    refine hfound.imp_right ?_
    rintro ⟨r, z, h1, h2, hback, h3⟩
    exact ⟨r, z, h1, h2, hback.mono hmono, h3⟩

lemma Steps.sound (h : Steps A value (fun _ => []) L) : Sound A value L := by
  induction h with
  | refl => exact ⟨by simp, by simp, by simp⟩
  | tail _ hstep ih => exact ih.step hstep

/-- After a quorum of precommits for a value no quorum of prevotes in a later round has another. -/
lemma Steps.prevotes_agree {M : V → List (Ballot B)} {x : B} {r : ℤ}
    (hrun : Steps A value (fun _ => []) L) (hrest : Steps A value L M)
    (hx : Backed A M ⟨r, true, x⟩) (hval : value x ≠ none) {r' : ℤ} {y : B} (hr : r < r')
    (hy : Backed A L ⟨r', false, y⟩) : value y = value x := by
  -- A quorum with another value needs a member that precommitted `x` and then
  -- prevoted `y`. It knew of such a quorum earlier on, before this step.
  induction hrun generalizing r' y with
  | refl =>
    obtain ⟨i, -, hmem⟩ := hx.exists_mem hy
    cases hmem
  | tail hrun hstep ih =>
    next L₁ L₂ =>
    have hsound := Steps.sound (hrun.tail hstep)
    have hsoundM := Steps.sound ((hrun.tail hstep).trans hrest)
    obtain ⟨i, hxi, hyi⟩ := hx.exists_mem hy
    have hbefore : Ballot.Before ⟨r, true, x⟩ ⟨r', false, y⟩ := .inl hr
    have hxi : (⟨r, true, x⟩ : Ballot B) ∈ L₂ i :=
      mem_of_before (Steps.suffix hrest i) (hsoundM.sorted i) hxi hyi hbefore
    have hknew : value y = value x ∨ ∃ r'' z, r < r'' ∧ r'' ≤ r' ∧
        Backed A L₁ ⟨r'', false, z⟩ ∧ value z ≠ value x := by
      rcases hstep.mem_cases hyi with hold | ⟨hnew, hcons⟩
      · have hxold : (⟨r, true, x⟩ : Ballot B) ∈ L₁ i :=
          mem_of_before (hstep.suffix i) (hsound.sorted i) hxi hold hbefore
        exact (Steps.sound hrun).locked i _ hxold _ hold rfl hval rfl hbefore
      · rw [hcons] at hxi
        rcases mem_cons.mp hxi with heq | hxold
        · cases heq
        · exact hnew.locked rfl _ hxold rfl hval
    rcases hknew with heq | ⟨r'', z, hlt, -, hback, hne⟩
    · exact heq
    · exact absurd (ih (.head hstep hrest) hlt hback) hne

/-- No two quorums of precommits have different values. -/
lemma Steps.agreement {x y : B} {r r' : ℤ} (hrun : Steps A value (fun _ => []) L)
    (hx : Backed A L ⟨r, true, x⟩) (hy : Backed A L ⟨r', true, y⟩) (hvx : value x ≠ none)
    (hvy : value y ≠ none) : value x = value y := by
  wlog hle : r ≤ r' generalizing x y r r'
  · exact (this hy hx hvy hvx (by omega)).symm
  have hsound := Steps.sound hrun
  obtain ⟨i, hxi, hyi⟩ := hx.exists_mem hy
  rcases hle.lt_or_eq with hlt | rfl
  · exact (hrun.prevotes_agree .refl hx hvx hlt (hsound.polka i _ hyi rfl hvy)).symm
  · -- In one round, a member of both quorums cast one precommit.
    by_contra hne
    have hne' : (⟨r, true, x⟩ : Ballot B) ≠ ⟨r, true, y⟩ := by
      intro he
      exact hne (congrArg (fun b => value b.block) he)
    rcases eq_or_before (hsound.sorted i) hxi hyi with h | (h | ⟨-, h, -⟩) | (h | ⟨-, h, -⟩)
    · exact hne' h
    · exact lt_irrefl _ h
    · cases h
    · exact lt_irrefl _ h
    · cases h

end Protocol

end LockedVoting
