import Mathlib.Data.List.Dedup
import Mathlib.Data.List.Perm.Basic

/-!
# Stable grouping of a list by a key

The groups of a list in the order of a list of keys, each with its members in their
original order.
-/
namespace Grouping

open List

variable {α κ : Type*} [DecidableEq κ] (key : α → κ)

/-- The members with the given key, in order. -/
def members (l : List α) (k : κ) : List α := l.filter fun a => key a = k

def group (ks : List κ) (l : List α) : List α := ks.flatMap (members key l)

variable {key}

@[simp] lemma mem_members {l : List α} {k : κ} {a : α} :
    a ∈ members key l k ↔ a ∈ l ∧ key a = k := by
  simp [members]

@[simp] lemma members_append (l l' : List α) (k : κ) :
    members key (l ++ l') k = members key l k ++ members key l' k :=
  filter_append ..

@[simp] lemma members_members (l : List α) (k j : κ) :
    members key (members key l k) j = if k = j then members key l k else [] := by
  split_ifs with h
  · subst h
    exact filter_eq_self.mpr fun a ha => by simpa using (mem_members.mp ha).2
  · refine filter_eq_nil_iff.mpr fun a ha => ?_
    rw [(mem_members.mp ha).2]
    simpa using h

variable {ks : List κ}

/-- Grouping keeps every group as it was. -/
lemma members_group (hks : ks.Nodup) (l : List α) (j : κ) :
    members key (group key ks l) j = if j ∈ ks then members key l j else [] := by
  induction ks with
  | nil => rfl
  | cons k ks ih =>
    rw [nodup_cons] at hks
    have hcons : group key (k :: ks) l = members key l k ++ group key ks l := rfl
    rw [hcons, members_append, members_members, ih hks.2]
    by_cases hj : k = j
    · subst hj
      rw [if_pos rfl, if_neg hks.1, if_pos (by simp), append_nil]
    · simp [hj, Ne.symm hj]

lemma group_group (hks : ks.Nodup) (l : List α) :
    group key ks (group key ks l) = group key ks l := by
  refine flatMap_congr fun k hk => ?_
  rw [members_group hks, if_pos hk]

lemma perm_group (hks : ks.Nodup) (l : List α) :
    (group key ks l).Perm (l.filter fun a => key a ∈ ks) := by
  induction ks with
  | nil =>
    rw [filter_eq_nil_iff.mpr (by simp)]
    exact .nil
  | cons k ks ih =>
    rw [nodup_cons] at hks
    have hfirst : members key l k =
        (l.filter fun a => key a ∈ k :: ks).filter fun a => key a = k := by
      rw [List.filter_filter]
      refine filter_congr fun a _ => ?_
      by_cases ha : key a = k <;> simp [ha]
    have hrest : (l.filter fun a => key a ∈ ks) =
        (l.filter fun a => key a ∈ k :: ks).filter fun a => !decide (key a = k) := by
      rw [List.filter_filter]
      refine filter_congr fun a _ => ?_
      by_cases ha : key a = k
      · simp [ha, hks.1]
      · simp [ha]
    have hperm := (ih hks.2).append_left (members key l k)
    rw [hfirst, hrest] at hperm
    have hcons : group key (k :: ks) l = members key l k ++ group key ks l := rfl
    rw [hcons, hfirst]
    exact hperm.trans (filter_append_perm _ _)

lemma perm_group_of_forall (hks : ks.Nodup) {l : List α}
    (h : ∀ a ∈ l, key a ∈ ks) : (group key ks l).Perm l := by
  have hperm : (group key ks l).Perm (l.filter fun a => key a ∈ ks) := perm_group hks l
  rwa [filter_eq_self.mpr (by simpa using h)] at hperm

end Grouping
