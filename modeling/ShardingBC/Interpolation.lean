import Mathlib.LinearAlgebra.Lagrange

/-!
# Interpolation at zero

The value at zero of a polynomial is a weighted sum of its values at as many nodes
as it has coefficients. The weights depend on the nodes only.
-/
namespace Interpolation

open Polynomial

variable {F : Type*} [Field F]

section Weights

variable [DecidableEq F]

/-- The weight of the node `x` among `xs`. -/
def weight (xs : List F) (x : F) : F :=
  xs.prod / (x * ((xs.filter (· ≠ x)).map (· - x)).prod)

variable {xs : List F} {x : F}

lemma prod_filter_ne (hnodup : xs.Nodup) (f : F → F) :
    ((xs.filter (· ≠ x)).map f).prod = ∏ y ∈ xs.toFinset.erase x, f y := by
  rw [← List.prod_toFinset f (hnodup.filter _), ← Finset.filter_ne']
  simp

lemma prod_eq_mul_erase (hnodup : xs.Nodup) (hx : x ∈ xs) :
    xs.prod = x * ∏ y ∈ xs.toFinset.erase x, y := by
  rw [Finset.mul_prod_erase _ (fun y => y) (List.mem_toFinset.mpr hx),
    List.prod_toFinset _ hnodup, List.map_id']

lemma weight_eq_eval_basis (hnodup : xs.Nodup) (hx : x ∈ xs) (h0 : x ≠ 0) :
    weight xs x = (Lagrange.basis xs.toFinset id x).eval 0 := by
  rw [weight, prod_eq_mul_erase hnodup hx, prod_filter_ne hnodup, mul_div_mul_left _ _ h0,
    ← Finset.prod_div_distrib, Lagrange.basis, eval_prod]
  refine Finset.prod_congr rfl fun y hy => ?_
  have hne : y - x ≠ 0 := sub_ne_zero.mpr (Finset.ne_of_mem_erase hy)
  have hne' : x - y ≠ 0 := sub_ne_zero.mpr (Finset.ne_of_mem_erase hy).symm
  simp only [Lagrange.basisDivisor, id, eval_mul, eval_C, eval_sub, eval_X]
  field_simp
  ring

lemma weight_ne_zero (hnodup : xs.Nodup) (hx : x ∈ xs) (h0 : ∀ y ∈ xs, y ≠ 0) :
    weight xs x ≠ 0 := by
  rw [weight, prod_filter_ne hnodup]
  refine div_ne_zero (List.prod_ne_zero fun hmem => h0 0 hmem rfl) (mul_ne_zero (h0 x hx) ?_)
  exact Finset.prod_ne_zero_iff.mpr fun y hy => sub_ne_zero.mpr (Finset.ne_of_mem_erase hy)

/-- A polynomial with at most as many coefficients as nodes is at zero the weighted sum of its
values. -/
lemma sum_weight_mul_eval {f : F[X]} (hnodup : xs.Nodup) (h0 : ∀ y ∈ xs, y ≠ 0)
    (hdeg : f.degree < xs.length) :
    (xs.map fun x => weight xs x * f.eval x).sum = f.eval 0 := by
  have hcard : f.degree < xs.toFinset.card := by rwa [List.toFinset_card_of_nodup hnodup]
  calc (xs.map fun x => weight xs x * f.eval x).sum
      = ∑ x ∈ xs.toFinset, weight xs x * f.eval x := (List.sum_toFinset _ hnodup).symm
    _ = ∑ x ∈ xs.toFinset, (C (f.eval x) * Lagrange.basis xs.toFinset id x).eval 0 := by
        refine Finset.sum_congr rfl fun x hx => ?_
        have hx := List.mem_toFinset.mp hx
        rw [eval_mul, eval_C, weight_eq_eval_basis hnodup hx (h0 x hx), mul_comm]
    _ = (Lagrange.interpolate xs.toFinset id fun x => f.eval x).eval 0 := by
        rw [Lagrange.interpolate_apply, eval_finsetSum]
    _ = f.eval 0 := (congrArg (eval 0) (Lagrange.eq_interpolate (Set.injOn_id _) hcard)).symm

end Weights

/-- The polynomial with these coefficients, the constant one first. -/
noncomputable def ofCoeffs : List F → F[X]
  | [] => 0
  | c :: cs => C c + X * ofCoeffs cs

lemma degree_ofCoeffs_lt (cs : List F) : (ofCoeffs cs).degree < cs.length := by
  rw [degree_lt_iff_coeff_zero]
  induction cs with
  | nil => simp [ofCoeffs]
  | cons c cs ih =>
    intro m hm
    obtain ⟨k, rfl⟩ := Nat.exists_eq_add_of_le' (Nat.le_of_add_left_le hm)
    rw [ofCoeffs, coeff_add, coeff_C_succ, coeff_X_mul, zero_add]
    exact ih k (by simpa using hm)

end Interpolation
