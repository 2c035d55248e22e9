import Mathlib.Data.List.Basic
import Mathlib.Tactic

/-!
# Erasing the first match of every key

Requests are served one after the other, each erasing the first element with its key. The elements
that go are those with fewer predecessors of their key than there are requests for it.
-/
namespace ShardingBC

open Function List

variable {α κ : Type} [DecidableEq κ] (key : α → κ)

def eraseFirsts (ks : List κ) (l : List α) : List α :=
  ks.foldl (fun l k => l.eraseP fun a => key a = k) l

lemma map_eraseFirsts {β : Type} (f : β → α) (ks : List κ) (l : List β) :
    (eraseFirsts (key ∘ f) ks l).map f = eraseFirsts key ks (l.map f) := by
  induction ks generalizing l with
  | nil => rfl
  | cons k ks ih =>
    rw [eraseFirsts, foldl_cons, ← eraseFirsts, ih, eraseFirsts, eraseFirsts, foldl_cons,
      eraseP_map]
    rfl

/-- One pass over the list with a budget of erasures for each key. -/
def sweep : (κ → ℕ) → List α → List α
  | _, [] => []
  | c, a :: l =>
    if 0 < c (key a) then sweep (Function.update c (key a) (c (key a) - 1)) l
    else a :: sweep c l

lemma sweep_eraseP (k : κ) (c : κ → ℕ) (l : List α) :
    sweep key c (l.eraseP fun a => key a = k) = sweep key (Function.update c k (c k + 1)) l := by
  induction l generalizing c with
  | nil => rfl
  | cons a l ih =>
    by_cases ha : key a = k
    · subst ha
      simp [sweep]
    · rw [eraseP_cons_of_neg (by simpa using ha)]
      simp only [sweep, update_of_ne ha, ih]
      split_ifs with hc
      · rw [update_of_ne (Ne.symm ha), update_comm ha]
      · rfl

lemma eraseFirsts_eq_sweep (ks : List κ) (l : List α) :
    eraseFirsts key ks l = sweep key (fun k => ks.countP fun k' => k' = k) l := by
  induction ks generalizing l with
  | nil =>
    induction l with
    | nil => rfl
    | cons a l ih =>
      rw [eraseFirsts] at ih ⊢
      exact congrArg _ ih
  | cons k ks ih =>
    have hfold : eraseFirsts key (k :: ks) l =
        eraseFirsts key ks (l.eraseP fun a => key a = k) := rfl
    have hcount : (fun k' => (k :: ks).countP fun k'' => k'' = k') =
        update (fun k' => ks.countP fun k'' => k'' = k') k
          ((ks.countP fun k'' => k'' = k) + 1) := by
      funext k'
      by_cases h : k' = k
      · subst h
        simp
      · simp [update_of_ne h, Ne.symm h]
    rw [hfold, ih, sweep_eraseP, hcount]

/-- The budget of the key goes down, unless there is none left. -/
lemma sweep_cons (c : κ → ℕ) (a : α) (l : List α) :
    sweep key c (a :: l) = (if 0 < c (key a) then [] else [a]) ++
      sweep key (fun k => if key a = k then c k - 1 else c k) l := by
  have hnext : (fun k => if key a = k then c k - 1 else c k) =
      if 0 < c (key a) then update c (key a) (c (key a) - 1) else c := by
    funext k
    by_cases hk : key a = k
    · subst hk
      rw [if_pos rfl]
      split_ifs
      · rw [update_self]
      · omega
    · split_ifs
      · rw [update_of_ne (Ne.symm hk)]
      · rfl
  rw [sweep, hnext]
  split_ifs <;> rfl

lemma sweep_sublist (c : κ → ℕ) (l : List α) : (sweep key c l).Sublist l := by
  induction l generalizing c with
  | nil => simp [sweep]
  | cons a l ih =>
    rw [sweep_cons]
    split_ifs
    · exact (ih _).trans (sublist_cons_self a l)
    · exact (ih _).cons_cons a

/-- Something is erased just when some request meets its key. -/
lemma length_eraseFirsts_lt_iff (ks : List κ) (l : List α) :
    (eraseFirsts key ks l).length < l.length ↔ ∃ k ∈ ks, ∃ a ∈ l, key a = k := by
  induction ks generalizing l with
  | nil => simp [eraseFirsts]
  | cons k ks ih =>
    have hfold : eraseFirsts key (k :: ks) l =
        eraseFirsts key ks (l.eraseP fun a => key a = k) := rfl
    rw [hfold]
    by_cases hk : ∃ a ∈ l, key a = k
    · obtain ⟨a, ha, hak⟩ := hk
      have hle : (eraseFirsts key ks (l.eraseP fun a => key a = k)).length ≤
          (l.eraseP fun a => key a = k).length := by
        rw [eraseFirsts_eq_sweep]
        exact (sweep_sublist key _ _).length_le
      have herase := length_eraseP_of_mem (p := fun a => key a = k) ha (by simpa using hak)
      have hpos := length_pos_of_mem ha
      exact iff_of_true (by omega) ⟨k, by simp, a, ha, hak⟩
    · have hsame : (l.eraseP fun a => key a = k) = l := by
        refine eraseP_of_forall_not fun a ha => ?_
        simpa using fun hak => hk ⟨a, ha, hak⟩
      rw [hsame, ih]
      constructor
      · rintro ⟨k', hk', h⟩
        exact ⟨k', by simp [hk'], h⟩
      · rintro ⟨k', hk', h⟩
        rcases mem_cons.mp hk' with rfl | hk'
        · exact absurd h hk
        · exact ⟨k', hk', h⟩

lemma mem_sweep_or (c : κ → ℕ) (l : List α) {a : α} (ha : a ∈ l) :
    a ∈ sweep key c l ∨ ∃ i, ∃ h : i < l.length, l[i] = a ∧
      (l.take i).countP (fun b => key b = key l[i]) < c (key l[i]) := by
  induction l generalizing c with
  | nil => simp at ha
  | cons b l ih =>
    rw [sweep_cons]
    rcases mem_cons.mp ha with rfl | ha
    · by_cases hc : 0 < c (key a)
      · exact .inr ⟨0, by simp, rfl, by simpa using hc⟩
      · exact .inl (by simp [hc])
    · rcases ih _ ha with hl | ⟨i, hi, he, hlt⟩
      · exact .inl (mem_append_right _ hl)
      · refine .inr ⟨i + 1, by simpa using hi, he, ?_⟩
        split_ifs at hlt with hk
        · simp only [take_succ_cons, getElem_cons_succ, countP_cons, hk, decide_true, if_true]
          omega
        · simpa [hk] using hlt

/-- The sweep erases exactly the elements that have fewer predecessors of their key than the budget
allows. -/
lemma sweep_eq_filter_iff (p : α → Bool) (c : κ → ℕ) (l : List α) :
    sweep key c l = l.filter (fun a => !p a) ↔
      ∀ i (h : i < l.length), p l[i] = true ↔
        (l.take i).countP (fun a => key a = key l[i]) < c (key l[i]) := by
  induction l generalizing c with
  | nil => simp [sweep]
  | cons a l ih =>
    have hshift : (∀ i (h : i < l.length), p l[i] = true ↔
        (l.take i).countP (fun b => key b = key l[i]) <
          if key a = key l[i] then c (key l[i]) - 1 else c (key l[i])) ↔
        ∀ i (h : i < l.length), p l[i] = true ↔
          ((a :: l).take (i + 1)).countP (fun b => key b = key l[i]) < c (key l[i]) := by
      refine forall_congr' fun i => forall_congr' fun h => iff_congr Iff.rfl ?_
      rw [take_succ_cons, countP_cons]
      by_cases hk : key a = key l[i]
      · simp only [hk, decide_true, if_true]
        omega
      · simp [hk]
    have hsplit : (∀ i (h : i < (a :: l).length), p (a :: l)[i] = true ↔
        ((a :: l).take i).countP (fun b => key b = key (a :: l)[i]) < c (key (a :: l)[i])) ↔
        (p a = true ↔ 0 < c (key a)) ∧
          ∀ i (h : i < l.length), p l[i] = true ↔
            ((a :: l).take (i + 1)).countP (fun b => key b = key l[i]) < c (key l[i]) := by
      constructor
      · intro h
        exact ⟨h 0 (by simp), fun i hi => h (i + 1) (by simpa using hi)⟩
      · rintro ⟨h0, hs⟩ i hi
        cases i with
        | zero => exact h0
        | succ i => exact hs i (by simpa using hi)
    rw [hsplit, ← hshift, ← ih fun k => if key a = k then c k - 1 else c k, sweep_cons]
    by_cases hc : 0 < c (key a)
    · by_cases hp : p a = true
      · simp [hp, hc]
      · simp only [hp, hc, iff_true, Bool.false_eq_true, false_and, iff_false, if_true, nil_append]
        intro he
        have hle := (sweep_sublist key (fun k => if key a = k then c k - 1 else c k) l).countP_le
          (p := fun b => !p b)
        rw [he] at hle
        simp [hp, countP_filter] at hle
    · by_cases hp : p a = true
      · simp only [hp, hc, iff_false, not_true_eq_false, false_and]
        intro he
        have hmem : a ∈ (a :: l).filter fun b => !p b := by
          rw [← he]
          simp
        simp [hp] at hmem
      · simp [hp, hc]

end ShardingBC
