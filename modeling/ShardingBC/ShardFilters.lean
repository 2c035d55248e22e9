import ShardingBC.CList
import ShardingBC.GoBytes

/-!
# The shard filters

`UpdateShardFliters` of the mempool: the names of the other shards in a concurrent list. The index
from names to elements is built once for a call, and a removed element stays in it.
-/
namespace ShardingBC

open Function List Option

structure ShardFilter where
  name : Bytes
  upttime : Int64

namespace ShardFilters

abbrev Index := Bytes → Option ℕ

variable (l : CList ShardFilter)

def nameOf (i : ℕ) : Option Bytes := (l.value i).map ShardFilter.name

/-- A later element of the same name hides an earlier one. -/
def index : Index :=
  l.traverse.foldl (fun index i =>
    match nameOf l i with
    | some name => Function.update index name (some i)
    | none => index) fun _ => none

/-- `created` is the time at which the filter of a name is made; no name gets two. -/
def add (current : Int64) (created : Bytes → Int64) (s : CList ShardFilter × Index)
    (name : Bytes) : Option (CList ShardFilter × Index) :=
  match s.2 name with
  | some i =>
    (s.1.setValue i fun f => if f.upttime < current then { f with upttime := current } else f).map
      fun l => (l, s.2)
  | none =>
    (s.1.pushBack ⟨name, created name⟩).map fun r =>
      (r.1, Function.update s.2 name (some r.2))

def remove (index : Index) (l : CList ShardFilter) (name : Bytes) : Option (CList ShardFilter) :=
  match index name with
  | some i => l.remove i
  | none => some l

/-- `UpdateShardFliters`; `none` is a panic. -/
def updateShardFliters (current : Int64) (created : Bytes → Int64) (addlist removeList : List Bytes) :
    Option (CList ShardFilter) := do
  let s ← addlist.foldlM (add current created) (l, index l)
  removeList.foldlM (remove s.2) s.1

/-- The names of the filters. -/
def names : List Bytes := l.traverse.filterMap (nameOf l)

/-- A well linked list without two filters of one name. -/
def Intact : Prop := ∃ is, l.Holds is ∧ Set.InjOn (nameOf l) {i | i ∈ is}

/-- Of the shards that have a filter or get one, none is removed twice. -/
def RemovedOnce (addlist removeList : List Bytes) : Prop :=
  (removeList.filter fun name => name ∈ addlist ∨ name ∈ names l).Nodup

/-- A well linked list of the shards that were there or are added, without the removed ones. -/
def Changed (l l' : CList ShardFilter) (addlist removeList : List Bytes) : Prop :=
  Intact l' ∧ ∀ n, n ∈ names l' ↔ (n ∈ addlist ∨ n ∈ names l) ∧ n ∉ removeList

variable {l} {l' : CList ShardFilter} {ix : Index} {is : List ℕ}

/-- The index finds the element of every name. -/
structure Tracks (l : CList ShardFilter) (ix : Index) (is : List ℕ) : Prop where
  holds : l.Holds is
  named : ∀ i ∈ is, (nameOf l i).isSome
  index : ∀ name i, ix name = some i ↔ i ∈ is ∧ nameOf l i = some name

lemma foldl_index {js : List ℕ} (hnamed : ∀ i ∈ js, (nameOf l i).isSome)
    (hinj : Set.InjOn (nameOf l) {i | i ∈ js}) (ix : Index) (name : Bytes) :
    js.foldl (fun index i =>
      match nameOf l i with
      | some name => Function.update index name (some i)
      | none => index) ix name =
        (js.find? fun i => nameOf l i = some name).or (ix name) := by
  induction js generalizing ix with
  | nil => rfl
  | cons i js ih =>
    obtain ⟨n, hn⟩ := isSome_iff_exists.1 (hnamed i (by simp))
    rw [foldl_cons, ih (fun j hj => hnamed j (by simp [hj]))
      (hinj.mono fun j hj => mem_cons_of_mem i hj), find?_cons, hn]
    dsimp only
    by_cases he : n = name
    · subst he
      rw [update_self, decide_eq_true rfl]
      cases hfind : js.find? fun j => nameOf l j = some n with
      | none => rfl
      | some j =>
        have hj : nameOf l j = some n := by simpa using find?_some hfind
        have hmem := mem_of_find?_eq_some hfind
        have : j = i := hinj (by simp [hmem]) (by simp) (hj.trans hn.symm)
        simp [this]
    · rw [update_of_ne (Ne.symm he)]
      simp [he]

lemma tracks_index (h : l.Holds is) (hinj : Set.InjOn (nameOf l) {i | i ∈ is}) :
    Tracks l (index l) is := by
  have hnamed : ∀ i ∈ is, (nameOf l i).isSome := by
    intro i hi
    obtain ⟨e, he⟩ := h.seg.exists hi
    simp [nameOf, CList.value, he]
  refine ⟨h, hnamed, fun name i => ?_⟩
  rw [index, h.traverse, foldl_index hnamed hinj, or_none]
  constructor
  · intro hfind
    exact ⟨mem_of_find?_eq_some hfind, by simpa using find?_some hfind⟩
  · rintro ⟨hi, hname⟩
    obtain ⟨j, hj⟩ := isSome_iff_exists.1
      (find?_isSome.2 ⟨i, hi, by simp [hname]⟩ :
        (is.find? fun i => nameOf l i = some name).isSome)
    have hjname : nameOf l j = some name := by simpa using find?_some hj
    rw [hj, hinj (mem_of_find?_eq_some hj) hi (hjname.trans hname.symm)]

lemma Tracks.injOn (h : Tracks l ix is) : Set.InjOn (nameOf l) {i | i ∈ is} := by
  intro i hi j hj he
  obtain ⟨name, hname⟩ := isSome_iff_exists.1 (h.named i hi)
  have hix := (h.index name i).2 ⟨hi, hname⟩
  rw [(h.index name j).2 ⟨hj, he ▸ hname⟩] at hix
  exact (some.inj hix).symm

lemma Tracks.isSome_iff (h : Tracks l ix is) (name : Bytes) :
    (ix name).isSome ↔ name ∈ names l := by
  rw [isSome_iff_exists, names, h.holds.traverse, mem_filterMap]
  exact exists_congr (h.index name)

variable (current : Int64) (created : Bytes → Int64)

/-- A shard with a filter only gets a later time. -/
lemma Tracks.add_existing (h : Tracks l ix is) {name : Bytes} {i : ℕ} (hix : ix name = some i) :
    ∃ l', ShardFilters.add current created (l, ix) name = some (l', ix) ∧ Tracks l' ix is ∧
      ∀ j, l'.value j = if j = i then (l.value j).map (fun f =>
        if f.upttime < current then { f with upttime := current } else f) else l.value j := by
  obtain ⟨hi, -⟩ := (h.index name i).1 hix
  obtain ⟨l', hl', hholds, -, hvalue⟩ := h.holds.setValue hi fun f =>
    if f.upttime < current then { f with upttime := current } else f
  have hname : ∀ j, nameOf l' j = nameOf l j := by
    intro j
    unfold nameOf
    rw [hvalue j]
    split_ifs
    · rw [Option.map_map]
      congr 1
      funext f
      simp only [comp_apply]
      split_ifs <;> rfl
    · rfl
  refine ⟨l', ?_, ⟨hholds, ?_, ?_⟩, hvalue⟩
  · unfold ShardFilters.add
    simp only [hix]
    rw [hl', map_some]
  · intro j hj
    rw [hname j]
    exact h.named j hj
  · intro n j
    rw [hname j]
    exact h.index n j

lemma Tracks.add (h : Tracks l ix is) (name : Bytes) :
    ∃ l' ix' is', ShardFilters.add current created (l, ix) name = some (l', ix') ∧
      Tracks l' ix' is' ∧ ∀ n, (ix' n).isSome ↔ n = name ∨ (ix n).isSome := by
  cases hix : ix name with
  | some i =>
    obtain ⟨l', hl', htracks, -⟩ := h.add_existing current created hix
    refine ⟨l', ix, is, hl', htracks, fun n => ⟨Or.inr, ?_⟩⟩
    rintro (rfl | hn)
    · rw [hix]
      rfl
    · exact hn
  | none =>
    obtain ⟨l', hl', hholds, hvalue⟩ := h.holds.pushBack ⟨name, created name⟩
    have hnew : nameOf l' l.created = some name := by simp [nameOf, hvalue]
    have hold : ∀ j ∈ is, nameOf l' j = nameOf l j := by
      intro j hj
      have hne : j ≠ l.created := Nat.ne_of_lt (h.holds.created j hj)
      simp [nameOf, hvalue, hne]
    refine ⟨l', update ix name (some l.created), is ++ [l.created], ?_,
      ⟨hholds, ?_, ?_⟩, ?_⟩
    · unfold ShardFilters.add
      simp only [hix]
      rw [hl', map_some]
    · intro j hj
      rcases mem_append.1 hj with hj | hj
      · rw [hold j hj]
        exact h.named j hj
      · rw [mem_singleton.1 hj, hnew]
        rfl
    · intro n j
      have hfresh : ∀ j ∈ is, nameOf l j ≠ some name := by
        intro j hj hjname
        rw [(h.index name j).2 ⟨hj, hjname⟩] at hix
        cases hix
      by_cases hn : n = name
      · subst hn
        rw [update_self, some.injEq]
        constructor
        · rintro rfl
          exact ⟨by simp, hnew⟩
        · rintro ⟨hj, hjname⟩
          rcases mem_append.1 hj with hj | hj
          · exact absurd ((hold j hj).symm.trans hjname) (hfresh j hj)
          · exact (mem_singleton.1 hj).symm
      · rw [update_of_ne hn, h.index n j]
        constructor
        · rintro ⟨hj, hjname⟩
          exact ⟨by simp [hj], (hold j hj).trans hjname⟩
        · rintro ⟨hj, hjname⟩
          rcases mem_append.1 hj with hj | hj
          · exact ⟨hj, (hold j hj).symm.trans hjname⟩
          · rw [mem_singleton.1 hj, hnew, some.injEq] at hjname
            exact absurd hjname.symm hn
    · intro n
      by_cases hn : n = name
      · subst hn
        simp
      · simp [hn]

lemma Tracks.foldlM_add (h : Tracks l ix is) (addlist : List Bytes) :
    ∃ l' ix' is', addlist.foldlM (ShardFilters.add current created) (l, ix) = some (l', ix') ∧
      Tracks l' ix' is' ∧ ∀ n, (ix' n).isSome ↔ n ∈ addlist ∨ (ix n).isSome := by
  induction addlist generalizing l ix is with
  | nil => exact ⟨l, ix, is, rfl, h, by simp⟩
  | cons name addlist ih =>
    obtain ⟨l1, ix1, is1, hadd, h1, hsome1⟩ := h.add current created name
    obtain ⟨l2, ix2, is2, hfold, h2, hsome2⟩ := ih h1
    refine ⟨l2, ix2, is2, ?_, h2, ?_⟩
    · rw [foldlM_cons, hadd]
      exact hfold
    · intro n
      rw [hsome2 n, hsome1 n, mem_cons]
      tauto

/-- The removals that find an element, after the additions. -/
lemma Tracks.filter_isSome (h : Tracks l ix is) {ix' : Index} {addlist : List Bytes}
    (hsome : ∀ n, (ix' n).isSome ↔ n ∈ addlist ∨ (ix n).isSome) (removeList : List Bytes) :
    (removeList.filter fun n => (ix' n).isSome) =
      removeList.filter fun n => n ∈ addlist ∨ n ∈ names l := by
  refine filter_congr fun n _ => ?_
  rw [Bool.eq_iff_iff, hsome n, h.isSome_iff, decide_eq_true_eq]

lemma foldlM_remove_eq (removeList : List Bytes) (l : CList ShardFilter) :
    removeList.foldlM (remove ix) l = (removeList.filterMap ix).foldlM CList.remove l := by
  induction removeList generalizing l with
  | nil => rfl
  | cons name removeList ih =>
    rw [foldlM_cons, remove]
    cases hix : ix name with
    | none =>
      rw [filterMap_cons_none hix]
      exact ih l
    | some i =>
      rw [filterMap_cons_some hix, foldlM_cons]
      simp only [ih]

lemma Tracks.nodup_filterMap (h : Tracks l ix is) {removeList : List Bytes}
    (hnodup : (removeList.filter fun name => (ix name).isSome).Nodup) :
    (removeList.filterMap ix).Nodup := by
  have hdrop : removeList.filterMap ix =
      (removeList.filter fun name => (ix name).isSome).filterMap ix := by
    rw [filterMap_filter]
    congr 1
    funext name
    cases ix name <;> rfl
  rw [hdrop]
  apply List.Nodup.filterMap _ hnodup
  intro name name' i hi hi'
  have hname := ((h.index name i).1 hi).2
  rw [((h.index name' i).1 hi').2] at hname
  exact (some.inj hname).symm

lemma updateShardFliters_spec (h : Intact l) {addlist removeList : List Bytes}
    (honce : RemovedOnce l addlist removeList) :
    ∃ l', updateShardFliters l current created addlist removeList = some l' ∧
      Changed l l' addlist removeList := by
  obtain ⟨is, hholds, hinj⟩ := h
  have htracks := tracks_index hholds hinj
  obtain ⟨l1, ix, is1, hadd, h1, hsome⟩ := htracks.foldlM_add current created addlist
  have hnodup : (removeList.filterMap ix).Nodup := by
    apply h1.nodup_filterMap
    rw [htracks.filter_isSome hsome]
    exact honce
  have hsub : removeList.filterMap ix ⊆ is1 := by
    intro i hi
    obtain ⟨name, -, hname⟩ := mem_filterMap.1 hi
    exact ((h1.index name i).1 hname).1
  obtain ⟨l2, hl2, hholds2, hvalue⟩ := h1.holds.foldlM_remove hnodup hsub
  have hname : ∀ k, nameOf l2 k = nameOf l1 k := fun k => by rw [nameOf, hvalue, nameOf]
  refine ⟨l2, ?_, ⟨_, hholds2, ?_⟩, ?_⟩
  · rw [updateShardFliters, hadd]
    exact (foldlM_remove_eq removeList l1).trans hl2
  · intro i hi j hj he
    rw [hname, hname] at he
    exact h1.injOn (mem_of_mem_filter hi) (mem_of_mem_filter hj) he
  · intro n
    rw [← htracks.isSome_iff, ← hsome n, names, hholds2.traverse, mem_filterMap]
    constructor
    · rintro ⟨i, hi, hin⟩
      rw [hname] at hin
      obtain ⟨hi, hleft⟩ := mem_filter.1 hi
      have hix := (h1.index n i).2 ⟨hi, hin⟩
      refine ⟨by rw [hix]; rfl, fun hremoved => ?_⟩
      simp only [decide_eq_true_eq] at hleft
      exact hleft (mem_filterMap.2 ⟨n, hremoved, hix⟩)
    · rintro ⟨hn, hkept⟩
      obtain ⟨i, hix⟩ := isSome_iff_exists.1 hn
      obtain ⟨hi, hin⟩ := (h1.index n i).1 hix
      refine ⟨i, mem_filter.2 ⟨hi, ?_⟩, by rw [hname]; exact hin⟩
      simp only [decide_eq_true_eq]
      intro hremoved
      obtain ⟨m, hm, hmi⟩ := mem_filterMap.1 hremoved
      have hmn := ((h1.index m i).1 hmi).2
      rw [hin, some.injEq] at hmn
      exact hkept (hmn ▸ hm)

lemma intact_new : Intact CList.new :=
  ⟨[], ⟨nodup_nil, by simp, trivial, rfl, rfl, rfl, rfl⟩, by simp⟩

/-- The names of a list without two filters of one name. -/
lemma Tracks.nodup_names {ix : Index} (h : Tracks l ix is) :
    (names l).Nodup ∧ l.len = (names l).length := by
  have hlength : (is.filterMap (nameOf l)).length = is.length :=
    filterMap_length_eq_length.mpr h.named
  rw [names, h.holds.traverse, h.holds.len, hlength]
  refine ⟨pairwise_filterMap.mpr (h.holds.nodup.imp_of_mem ?_), rfl⟩
  rintro i j hi hj hne n hin _ hjn rfl
  exact hne (h.injOn hi hj (hin.trans hjn.symm))

/-- If the shards that are not removed have kept their filters and the length is right, none was
removed twice. -/
lemma removedOnce_of_length (h : Intact l) {addlist removeList : List Bytes}
    (hcode : updateShardFliters l current created addlist removeList = some l')
    (hlen' : l'.len = (names l').length)
    (hkeep : ∀ n, n ∈ addlist ∨ n ∈ names l → n ∉ removeList → n ∈ names l') :
    RemovedOnce l addlist removeList := by
  obtain ⟨is, hholds, hinj⟩ := h
  have htracks := tracks_index hholds hinj
  obtain ⟨l₁, ix, is₁, hadd, h₁, hsome⟩ := htracks.foldlM_add current created addlist
  have hnames : ∀ n, n ∈ names l₁ ↔ n ∈ addlist ∨ n ∈ names l := by
    intro n
    rw [← h₁.isSome_iff, hsome n, htracks.isSome_iff]
  obtain ⟨hnodup, hlen⟩ := h₁.nodup_names
  -- each effective removal has been counted
  have hcount : l'.len = l₁.len - (removeList.filterMap ix).length := by
    rw [updateShardFliters, hadd] at hcode
    exact (CList.foldlM_remove_frame ((foldlM_remove_eq removeList l₁).symm.trans hcode)).1
  have heffective : (removeList.filterMap ix).length =
      (removeList.filter fun n => n ∈ addlist ∨ n ∈ names l).length := by
    rw [← htracks.filter_isSome hsome, ← countP_eq_length_filter, length_filterMap_eq_countP]
  have hkept : ((names l₁).filter fun n => !decide (n ∈ removeList)).length ≤ (names l').length := by
    refine (subperm_of_subset (hnodup.filter _) fun n hn => ?_).length_le
    obtain ⟨hn, hkept⟩ := mem_filter.mp hn
    exact hkeep n ((hnames n).mp hn) (by simpa using hkept)
  have hsplit := length_eq_length_filter_add (l := names l₁) fun n => decide (n ∈ removeList)
  have hperm : ((names l₁).filter fun n => decide (n ∈ removeList)).Perm
      (removeList.filter fun n => n ∈ addlist ∨ n ∈ names l) := by
    refine (subperm_of_subset (hnodup.filter _) fun n hn => ?_).perm_of_length_le ?_
    · obtain ⟨hn, hremoved⟩ := mem_filter.mp hn
      rw [hnames n] at hn
      exact mem_filter.mpr ⟨by simpa using hremoved, by simpa using hn⟩
    · omega
  exact hperm.nodup_iff.mp (hnodup.filter _)

lemma updateShardFliters_iff (h : Intact l) (addlist removeList : List Bytes) :
    (∃ l', updateShardFliters l current created addlist removeList = some l' ∧
      Changed l l' addlist removeList) ↔ RemovedOnce l addlist removeList := by
  constructor
  · rintro ⟨l', hcode, ⟨is, hholds, hinj⟩, hnames⟩
    exact removedOnce_of_length current created h hcode (tracks_index hholds hinj).nodup_names.2
      fun n hn hkeep => (hnames n).mpr ⟨hn, hkeep⟩
  · exact updateShardFliters_spec current created h

/-- The sole filter removed twice is a panic. -/
example : (updateShardFliters CList.new 0 (fun _ => 0) [lit "B"] [lit "B", lit "B"]).isNone := by
  decide +kernel

end ShardFilters

end ShardingBC
