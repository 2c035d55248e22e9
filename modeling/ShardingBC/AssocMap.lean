import Mathlib.Data.List.Basic
import Mathlib.Tactic

/-!
# Maps as association lists

A Go map as the list of its entries in order of first insertion, no key twice.
-/
namespace ShardingBC

open List

abbrev AssocMap (κ ν : Type) := List (κ × ν)

namespace AssocMap

variable {κ ν : Type} [DecidableEq κ]

def lookup (key : κ) : AssocMap κ ν → Option ν
  | [] => none
  | (k, v) :: r => if k = key then some v else lookup key r

def set (key : κ) (v : ν) : AssocMap κ ν → AssocMap κ ν
  | [] => [(key, v)]
  | (k, w) :: r => if k = key then (k, v) :: r else (k, w) :: set key v r

def delete (key : κ) (m : AssocMap κ ν) : AssocMap κ ν := m.filter fun e => e.1 ≠ key

def keys (m : AssocMap κ ν) : List κ := m.map Prod.fst

@[simp] lemma lookup_set (key : κ) (v : ν) (m : AssocMap κ ν) (k : κ) :
    lookup k (set key v m) = if key = k then some v else lookup k m := by
  induction m with
  | nil => simp [set, lookup]
  | cons e r ih =>
    obtain ⟨k', w⟩ := e
    by_cases hk : k' = key
    · subst hk
      by_cases h : k' = k
      · simp [set, lookup, h]
      · simp [set, lookup, h]
    · by_cases h : k' = k
      · subst h
        simp [set, lookup, hk, Ne.symm hk]
      · simp [set, lookup, hk, h, ih]

@[simp] lemma lookup_delete (key : κ) (m : AssocMap κ ν) (k : κ) :
    lookup k (delete key m) = if key = k then none else lookup k m := by
  induction m with
  | nil => simp [delete, lookup]
  | cons e r ih =>
    obtain ⟨k', w⟩ := e
    by_cases hk : k' = key
    · have hd : delete key ((k', w) :: r) = delete key r := by simp [delete, hk]
      rw [hd, ih]
      by_cases h : key = k
      · rw [if_pos h, if_pos h]
      · rw [if_neg h, if_neg h, lookup, if_neg (by rw [hk]; exact h)]
    · have hd : delete key ((k', w) :: r) = (k', w) :: delete key r := by simp [delete, hk]
      by_cases h : k' = k
      · subst h
        simp [hd, lookup, Ne.symm hk]
      · simp only [hd, lookup, if_neg h, ih]

lemma mem_of_lookup {k : κ} {v : ν} {m : AssocMap κ ν} (h : lookup k m = some v) :
    (k, v) ∈ m := by
  induction m with
  | nil => cases h
  | cons e r ih =>
    rw [lookup] at h
    split_ifs at h with hk
    · cases h
      subst hk
      exact mem_cons_self
    · exact mem_cons_of_mem _ (ih h)

lemma lookup_eq_some_iff {m : AssocMap κ ν} (hm : m.keys.Nodup) {k : κ} {v : ν} :
    lookup k m = some v ↔ (k, v) ∈ m := by
  refine ⟨mem_of_lookup, fun h => ?_⟩
  induction m with
  | nil => cases h
  | cons e r ih =>
    obtain ⟨hnot, hrest⟩ := nodup_cons.mp hm
    rcases mem_cons.mp h with rfl | h
    · rw [lookup, if_pos rfl]
    · have hk : e.1 ≠ k := by
        rintro rfl
        exact hnot (List.mem_map.mpr ⟨_, h, rfl⟩)
      rw [lookup, if_neg hk, ih hrest h]

lemma set_of_notMem {key : κ} {m : AssocMap κ ν} (h : key ∉ m.keys) (v : ν) :
    set key v m = m ++ [(key, v)] := by
  induction m with
  | nil => rfl
  | cons e r ih =>
    obtain ⟨hk, hr⟩ := not_or.mp (fun hor => h (mem_cons.mpr hor))
    rw [set, if_neg (Ne.symm hk), ih hr, cons_append]

lemma keys_set_of_lookup {key : κ} {v : ν} {m : AssocMap κ ν} (h : lookup key m = some v)
    (w : ν) : (set key w m).keys = m.keys := by
  induction m with
  | nil => cases h
  | cons e r ih =>
    rw [lookup] at h
    rw [set]
    split_ifs at h ⊢
    · rfl
    · exact congrArg (e.1 :: ·) (ih h)

lemma countP_set {key : κ} {v : ν} {m : AssocMap κ ν} (h : lookup key m = some v) (w : ν)
    (p : ν → Bool) : (set key w m).countP (p ·.2) + (p v).toNat =
      m.countP (p ·.2) + (p w).toNat := by
  induction m with
  | nil => cases h
  | cons e r ih =>
    obtain ⟨k, u⟩ := e
    rw [lookup] at h
    rw [set]
    split_ifs at h ⊢
    · cases h
      rw [countP_cons, countP_cons]
      cases p v <;> cases p w <;> rfl
    · have := ih h
      rw [countP_cons, countP_cons]
      omega

lemma foldl_set_of_nodup (es m : AssocMap κ ν) (h : (keys (m ++ es)).Nodup) :
    es.foldl (fun m e => set e.1 e.2 m) m = m ++ es := by
  induction es generalizing m with
  | nil => simp
  | cons e es ih =>
    have hkeys : keys (m ++ e :: es) = m.keys ++ e.1 :: es.map Prod.fst := by simp [keys]
    have hnot : e.1 ∉ m.keys := by
      intro hmem
      rw [hkeys] at h
      exact (nodup_append.mp h).2.2 _ hmem _ mem_cons_self rfl
    rw [foldl_cons, set_of_notMem hnot, ih _ (by simpa using h)]
    simp

lemma mem_keys (m : AssocMap κ ν) (k : κ) : k ∈ keys m ↔ (lookup k m).isSome := by
  induction m with
  | nil => simp [keys, lookup]
  | cons e r ih =>
    obtain ⟨k', w⟩ := e
    by_cases h : k' = k
    · subst h
      simp [keys, lookup]
    · simp only [keys, map_cons, mem_cons, Ne.symm h, false_or, lookup, if_neg h]
      exact ih

lemma nodup_keys_set (key : κ) (v : ν) (m : AssocMap κ ν) (h : m.keys.Nodup) :
    (set key v m).keys.Nodup := by
  induction m with
  | nil => simp [set, keys]
  | cons e r ih =>
    obtain ⟨k, w⟩ := e
    simp only [keys, map_cons, nodup_cons] at h
    by_cases hk : k = key
    · simpa [set, hk, keys] using ⟨by simpa [hk] using h.1, h.2⟩
    · have hmem : k ∉ (set key v r).keys := by
        rw [mem_keys, lookup_set, if_neg (Ne.symm hk), ← mem_keys]
        exact h.1
      simp only [set, if_neg hk, keys, map_cons, nodup_cons]
      exact ⟨hmem, ih h.2⟩

lemma nodup_keys_delete (key : κ) (m : AssocMap κ ν) (h : m.keys.Nodup) :
    (delete key m).keys.Nodup :=
  h.sublist (List.Sublist.map _ filter_sublist)

end AssocMap

end ShardingBC
