import Mathlib.Algebra.BigOperators.Finprod
import Mathlib.Algebra.BigOperators.Group.List.Basic
import Mathlib.Logic.Function.Basic

/-!
# Ledgers

A ledger gives every key an amount, and an operation adds to one key or overwrites it. To a key a
list of operations does either an overwriting, and then the old amount does not matter, or an
addition.
-/
namespace Ledger

variable {K G : Type*}

inductive Op (K G : Type*) where
  | add (key : K) (amount : G)
  | put (key : K) (amount : G)
deriving DecidableEq

namespace Op

def key : Op K G → K
  | add k _ => k
  | put k _ => k

def amount : Op K G → G
  | add _ g => g
  | put _ g => g

variable [DecidableEq K]

def act [Add G] (f : K → G) : Op K G → K → G
  | add k g => Function.update f k (f k + g)
  | put k g => Function.update f k g

/-- What the operation adds to the key. -/
def addedTo [Zero G] (x : K) : Op K G → G
  | add k g => if k = x then g else 0
  | put _ _ => 0

end Op

/-- Some operation overwrites the key. -/
def Overwrites (x : K) (ops : List (Op K G)) : Prop := ∃ g, Op.put x g ∈ ops

@[simp] lemma overwrites_cons (x : K) (o : Op K G) (ops : List (Op K G)) :
    Overwrites x (o :: ops) ↔ (∃ g, o = Op.put x g) ∨ Overwrites x ops := by
  constructor
  · rintro ⟨g, hg⟩
    rcases List.mem_cons.mp hg with rfl | hg
    · exact Or.inl ⟨g, rfl⟩
    · exact Or.inr ⟨g, hg⟩
  · rintro (⟨g, rfl⟩ | ⟨g, hg⟩)
    · exact ⟨g, by simp⟩
    · exact ⟨g, by simp [hg]⟩

variable [DecidableEq K]

def run [Add G] (f : K → G) (ops : List (Op K G)) : K → G := ops.foldl Op.act f

@[simp] lemma run_nil [Add G] (f : K → G) : run f [] = f := rfl

@[simp] lemma run_cons [Add G] (f : K → G) (o : Op K G) (ops : List (Op K G)) :
    run f (o :: ops) = run (o.act f) ops := rfl

/-- What the operations add to the key. -/
def added [AddMonoid G] (x : K) (ops : List (Op K G)) : G := (ops.map (Op.addedTo x)).sum

@[simp] lemma added_nil [AddMonoid G] (x : K) : added x ([] : List (Op K G)) = 0 := rfl

@[simp] lemma added_cons [AddMonoid G] (x : K) (o : Op K G) (ops : List (Op K G)) :
    added x (o :: ops) = o.addedTo x + added x ops := by
  simp [added]

@[simp] lemma added_append [AddMonoid G] (x : K) (ops ops' : List (Op K G)) :
    added x (ops ++ ops') = added x ops + added x ops' := by
  simp [added]

/-- The amounts of one key depend on nothing else. -/
lemma run_congr [Add G] {f f' : K → G} {x : K} (h : f x = f' x) (ops : List (Op K G)) :
    run f ops x = run f' ops x := by
  induction ops generalizing f f' with
  | nil => exact h
  | cons o ops ih =>
    refine ih ?_
    cases o with
    | add k g =>
      by_cases hk : x = k
      · subst hk
        simp [Op.act, h]
      · simp [Op.act, hk, h]
    | put k g =>
      by_cases hk : x = k
      · subst hk
        simp [Op.act]
      · simp [Op.act, hk, h]

/-- An overwritten key forgets its amount. -/
lemma run_of_overwrites [Add G] {x : K} {ops : List (Op K G)} (h : Overwrites x ops)
    (f f' : K → G) : run f ops x = run f' ops x := by
  induction ops generalizing f f' with
  | nil =>
    obtain ⟨g, hg⟩ := h
    simp at hg
  | cons o ops ih =>
    rcases (overwrites_cons x o ops).mp h with ⟨g, rfl⟩ | h
    · exact run_congr (by simp [Op.act]) ops
    · exact ih h _ _

/-- Any other key is added to. -/
lemma run_of_not_overwrites [AddMonoid G] {x : K} {ops : List (Op K G)} (h : ¬ Overwrites x ops)
    (f : K → G) : run f ops x = f x + added x ops := by
  induction ops generalizing f with
  | nil => simp
  | cons o ops ih =>
    rw [overwrites_cons, not_or] at h
    rw [run_cons, ih h.2, added_cons, ← add_assoc]
    cases o with
    | add k g =>
      by_cases hk : x = k
      · subst hk
        simp [Op.act, Op.addedTo]
      · simp [Op.act, Op.addedTo, hk, Ne.symm hk]
    | put k g =>
      have hk : x ≠ k := fun he => h.1 ⟨g, by rw [he]⟩
      simp [Op.act, Op.addedTo, hk]

/-- Running some of the operations before all of them changes nothing at a key just when it is
overwritten or the extra operations cancel there. -/
lemma run_run_eq_iff [AddGroup G] {x : K} {ops extra : List (Op K G)} (hsub : extra ⊆ ops)
    (f : K → G) : run (run f extra) ops x = run f ops x ↔ Overwrites x ops ∨ added x extra = 0 := by
  by_cases h : Overwrites x ops
  · exact iff_of_true (run_of_overwrites h _ _) (Or.inl h)
  · have he : ¬ Overwrites x extra := fun he => h (he.imp fun _ hg => hsub hg)
    rw [run_of_not_overwrites h, run_of_not_overwrites h, run_of_not_overwrites he]
    simp [h]

lemma Op.act_add_eq [AddMonoid G] (f : K → G) (k : K) (g : G) :
    (Op.add k g).act f = fun x => f x + (Pi.single k g : K → G) x := by
  funext x
  by_cases h : x = k
  · subst h
    simp [Op.act]
  · simp [Op.act, h]

/-- Additions change the total by what they add. -/
lemma finsum_run [AddCommMonoid G] {ops : List (Op K G)}
    (hadd : ∀ o ∈ ops, o = .add o.key o.amount) {f : K → G} (hf : f.support.Finite) :
    ∑ᶠ x, run f ops x = ∑ᶠ x, f x + (ops.map Op.amount).sum := by
  induction ops generalizing f with
  | nil => simp
  | cons o ops ih =>
    obtain ⟨ho, hops⟩ := List.forall_mem_cons.mp hadd
    have hact : o.act f = fun x => f x + (Pi.single o.key o.amount : K → G) x := by
      conv_lhs => rw [ho]
      exact Op.act_add_eq f _ _
    have hsingle : (Function.support (Pi.single o.key o.amount : K → G)).Finite :=
      (Set.finite_singleton o.key).subset Pi.support_single_subset
    have hf' : (o.act f).support.Finite := by
      rw [hact]
      exact (hf.union hsingle).subset (Function.support_add f _)
    have hone : ∑ᶠ x, (Pi.single o.key o.amount : K → G) x = o.amount := by
      rw [finsum_eq_single _ o.key fun x hx => Pi.single_eq_of_ne hx _, Pi.single_eq_same]
    have hsum : ∑ᶠ x, o.act f x = ∑ᶠ x, f x + o.amount := by
      rw [hact, finsum_add_distrib hf hsingle, hone]
    rw [run_cons, ih hops hf', hsum, List.map_cons, List.sum_cons, add_assoc]

end Ledger
