import ShardingBC.CommitPanics

/-!
# The shard filters and the order of a block

`ApplyBlock` makes all additions of a block's configurations before all removals. The filters follow
the block only if no shard is added after it was removed, and none is removed twice.
-/
namespace ShardingBC.ShardFilters

open List Option

/-- The configurations of a block: the shard, and whether it is added. -/
def configs : List Bytes → Option (List (Bytes × Bool))
  | [] => some []
  | raw :: rest =>
    match newTX raw with
    | none => configs rest
    | some t =>
      if t.txtype ≠ lit "ShardConfigTx" then configs rest
      else do
        let parts := split t.content 95
        let change ← parts[2]?
        let r ← configs rest
        some ((parts.getD 0 [], decide (change = lit "1")) :: r)

def added (cs : List (Bytes × Bool)) : List Bytes := (cs.filter fun c => c.2).map Prod.fst

def removed (cs : List (Bytes × Bool)) : List Bytes := (cs.filter fun c => !c.2).map Prod.fst

/-- How `ApplyBlock` processes the configurations; `none` is a panic. -/
def applyConfigs (l : CList ShardFilter) (current : Int64) (created : Bytes → Int64)
    (txs : List Bytes) : Option (CList ShardFilter) := do
  let changes ← shardChanges txs
  updateShardFliters l current created changes.1 changes.2

/-- One configuration applied to a set of shards. -/
def applyConfig (s : Set Bytes) (c : Bytes × Bool) : Set Bytes :=
  if c.2 then insert c.1 s else s \ {c.1}

/-- The filters are those of the configurations in order, each name once, and counted. -/
def Follows (l l' : CList ShardFilter) (cs : List (Bytes × Bool)) : Prop :=
  {n | n ∈ names l'} = cs.foldl applyConfig {n | n ∈ names l} ∧ (names l').Nodup ∧
    l'.len = (names l').length

/-- No shard is added after it was removed. -/
def RemovedLast (cs : List (Bytes × Bool)) : Prop :=
  cs.Pairwise fun c d => c.2 = false → d.2 = true → c.1 ≠ d.1

lemma shardChanges_eq (txs : List Bytes) :
    shardChanges txs = (configs txs).map fun cs => (added cs, removed cs) := by
  induction txs with
  | nil => rfl
  | cons raw txs ih =>
    rw [shardChanges, configs]
    cases newTX raw with
    | none => exact ih
    | some t =>
      dsimp only
      split_ifs with hty
      · exact ih
      · cases (split t.content 95)[2]? with
        | none => rfl
        | some change =>
          rw [ih]
          cases configs txs with
          | none => rfl
          | some cs =>
            by_cases hchange : change = lit "1"
            · simp [hchange, added, removed]
            · simp [hchange, added, removed]

variable {cs : List (Bytes × Bool)} {n : Bytes}

@[simp] lemma mem_added : n ∈ added cs ↔ (n, true) ∈ cs := by
  simp [added]

@[simp] lemma mem_removed : n ∈ removed cs ↔ (n, false) ∈ cs := by
  simp [removed]

lemma mem_foldl_of_not_removed {s : Set Bytes}
    (hn : n ∈ s ∨ n ∈ added cs) (hkeep : n ∉ removed cs) : n ∈ cs.foldl applyConfig s := by
  induction cs using reverseRecOn with
  | nil => simpa [added] using hn
  | append_singleton cs c ih =>
    rw [foldl_append]
    obtain ⟨m, add⟩ := c
    simp only [mem_added, mem_removed, mem_append, mem_singleton, not_or] at hn hkeep ih
    cases add with
    | true =>
      by_cases hm : n = m
      · exact Or.inl hm
      · refine Or.inr (ih ?_ hkeep.1)
        simpa [hm] using hn
    | false =>
      have hm : n ≠ m := fun he => hkeep.2 (by rw [he])
      exact ⟨ih (by simpa using hn) hkeep.1, hm⟩

lemma mem_foldl_iff (hlast : RemovedLast cs) {s : Set Bytes}
    : n ∈ cs.foldl applyConfig s ↔ (n ∈ s ∨ n ∈ added cs) ∧ n ∉ removed cs := by
  refine ⟨?_, fun h => mem_foldl_of_not_removed h.1 h.2⟩
  induction cs using reverseRecOn with
  | nil => simp [added, removed]
  | append_singleton cs c ih =>
    obtain ⟨hfront, -, hcross⟩ := pairwise_append.mp hlast
    rw [foldl_append]
    obtain ⟨m, add⟩ := c
    have ih := ih hfront
    simp only [mem_added, mem_removed, mem_append, mem_singleton] at ih ⊢
    cases add with
    | true =>
      simp only [Prod.mk.injEq, and_true,
        Bool.false_eq_true, and_false, or_false]
      rintro (rfl | hn)
      · exact ⟨Or.inr (Or.inr rfl), fun hmem => hcross _ hmem (n, true) (by simp) rfl rfl rfl⟩
      · obtain ⟨h1, h2⟩ := ih hn
        exact ⟨h1.imp_right Or.inl, h2⟩
    | false =>
      simp only [Prod.mk.injEq, and_true]
      rintro ⟨hn, hm⟩
      obtain ⟨h1, h2⟩ := ih hn
      exact ⟨h1.imp_right Or.inl, fun h => h.elim h2 hm⟩

section Code

variable {l l' : CList ShardFilter} {is : List ℕ}

variable (current : Int64) (created : Bytes → Int64) {cs : List (Bytes × Bool)}

lemma removedOnce_of_follows (h : Intact l)
    (hcode : updateShardFliters l current created (added cs) (removed cs) = some l')
    (hfollows : Follows l l' cs) : RemovedOnce l (added cs) (removed cs) := by
  obtain ⟨hset, -, hlen⟩ := hfollows
  refine removedOnce_of_length current created h hcode hlen fun n hn hkeep => ?_
  have hmem : n ∈ cs.foldl applyConfig {n | n ∈ names l} := mem_foldl_of_not_removed hn.symm hkeep
  rwa [← hset] at hmem

lemma removedLast_of_split
    (h : ∀ as bs n, cs = as ++ (n, false) :: bs → (n, true) ∉ bs) : RemovedLast cs := by
  induction cs with
  | nil => exact List.Pairwise.nil
  | cons c cs ih =>
    refine pairwise_cons.mpr ⟨?_, ih fun as bs n he => h (c :: as) bs n (by rw [he]; rfl)⟩
    rintro ⟨m, add⟩ hd hc rfl rfl
    obtain ⟨n, _⟩ := c
    cases hc
    exact h [] cs n rfl hd

lemma removedLast_of_follows (h : Intact l)
    (hcode : updateShardFliters l current created (added cs) (removed cs) = some l')
    (hfollows : Follows l l' cs) : RemovedLast cs := by
  have honce := removedOnce_of_follows current created h hcode hfollows
  obtain ⟨l₂, hl₂, -, hnames⟩ := updateShardFliters_spec current created h honce
  rw [hcode] at hl₂
  cases hl₂
  refine removedLast_of_split fun as bs n hcs hadd => ?_
  have hremoved : removed cs = removed as ++ n :: removed bs := by
    rw [hcs]
    simp [removed]
  have hadded : n ∈ added cs := by
    rw [mem_added, hcs]
    simp [hadd]
  have hlast : n ∉ removed bs := by
    intro hmem
    rw [RemovedOnce, hremoved, filter_append, filter_cons_of_pos (by simp [hadded])] at honce
    refine (nodup_cons.mp (nodup_append.mp honce).2.1).1 ?_
    exact mem_filter.mpr ⟨hmem, by simp [hadded]⟩
  have htarget : n ∈ cs.foldl applyConfig {n | n ∈ names l} := by
    rw [hcs, append_cons]
    rw [foldl_append]
    exact mem_foldl_of_not_removed (.inr (mem_added.mpr hadd)) hlast
  rw [← hfollows.1] at htarget
  exact ((hnames n).mp htarget).2 (by rw [hremoved]; simp)

/-- After the configurations of a block the filters are those of the configurations one after the
other, each once and counted, if and only if all can be read, no shard that has or gets a filter is
removed twice, and none is added after it was removed. -/
theorem filters_follow_block_iff (h : Intact l) (txs : List Bytes) :
    (∃ cs l', configs txs = some cs ∧ applyConfigs l current created txs = some l' ∧
      Follows l l' cs) ↔
    ∃ cs, configs txs = some cs ∧ RemovedOnce l (added cs) (removed cs) ∧ RemovedLast cs := by
  rw [applyConfigs, shardChanges_eq]
  constructor
  · rintro ⟨cs, l', hcs, hcode, hfollows⟩
    rw [hcs] at hcode
    exact ⟨cs, hcs, removedOnce_of_follows current created h hcode hfollows,
      removedLast_of_follows current created h hcode hfollows⟩
  · rintro ⟨cs, hcs, honce, hlast⟩
    obtain ⟨l', hcode, ⟨is, hholds, hinj⟩, hnames⟩ := updateShardFliters_spec current created h honce
    obtain ⟨hnodup, hlen⟩ := (tracks_index hholds hinj).nodup_names
    refine ⟨cs, l', hcs, ?_, ?_, hnodup, hlen⟩
    · rw [hcs]
      exact hcode
    · ext n
      rw [mem_foldl_iff hlast, Set.mem_ofPred_eq, hnames n, Set.mem_ofPred_eq, or_comm]

/-- Every added shard has a filter not older than the current time, and no removed one has any. -/
def Settled (l : CList ShardFilter) (current : Int64) (addlist removeList : List Bytes) : Prop :=
  (∀ n ∈ addlist, ∃ i f, index l n = some i ∧ l.value i = some f ∧ ¬ f.upttime < current) ∧
    ∀ n ∈ removeList, index l n = none

lemma created_add {s s' : CList ShardFilter × Index}
    (h : add current created s n = some s') :
    ((s.2 n).isSome ∧ s'.1.created = s.1.created ∧ s'.2 = s.2) ∨ s'.1.created = s.1.created + 1 := by
  unfold add at h
  cases hix : s.2 n with
  | some i =>
    simp only [hix] at h
    obtain ⟨l₁, h₁, rfl⟩ := map_eq_some_iff.mp h
    exact Or.inl ⟨rfl, (CList.modify_frame h₁).2, rfl⟩
  | none =>
    simp only [hix] at h
    obtain ⟨r, hr, rfl⟩ := map_eq_some_iff.mp h
    exact Or.inr (CList.created_pushBack hr)

lemma created_foldlM_add {s s' : CList ShardFilter × Index} {addlist : List Bytes}
    (h : addlist.foldlM (add current created) s = some s') :
    s.1.created ≤ s'.1.created ∧
      (s'.1.created = s.1.created → ∀ n ∈ addlist, (s.2 n).isSome) := by
  induction addlist generalizing s with
  | nil =>
    cases h
    exact ⟨le_refl _, by simp⟩
  | cons n addlist ih =>
    obtain ⟨s₁, h₁, h⟩ := bind_eq_some_iff.mp h
    obtain ⟨hle, hsome⟩ := ih h
    rcases created_add current created h₁ with ⟨hn, hcreated, hix⟩ | hcreated
    · rw [hcreated] at hle hsome
      rw [hix] at hsome
      exact ⟨hle, fun he => forall_mem_cons.mpr ⟨hn, hsome he⟩⟩
    · exact ⟨by omega, fun he => by omega⟩

/-- The additions bring the old filters up to date and leave those that are. -/
lemma Tracks.foldlM_add_existing {ix : Index} (h : Tracks l ix is) {addlist : List Bytes}
    (hadd : ∀ n ∈ addlist, (ix n).isSome) :
    ∃ l₁, addlist.foldlM (ShardFilters.add current created) (l, ix) = some (l₁, ix) ∧
      Tracks l₁ ix is ∧
      (∀ i f, l.value i = some f → ¬ f.upttime < current → l₁.value i = some f) ∧
      ∀ n ∈ addlist, ∃ i f, ix n = some i ∧ l₁.value i = some f ∧ ¬ f.upttime < current := by
  induction addlist generalizing l with
  | nil => exact ⟨l, rfl, h, fun _ _ hf _ => hf, by simp⟩
  | cons n addlist ih =>
    obtain ⟨hn, hrest⟩ := forall_mem_cons.mp hadd
    obtain ⟨i, hi⟩ := isSome_iff_exists.mp hn
    obtain ⟨l₁, hl₁, h₁, hvalue⟩ := h.add_existing current created hi
    obtain ⟨l₂, hl₂, h₂, hkeep, hfresh⟩ := ih h₁ hrest
    have hkeep₁ : ∀ j f, l.value j = some f → ¬ f.upttime < current → l₁.value j = some f := by
      intro j f hf hcur
      rw [hvalue j, hf, map_some]
      split_ifs <;> rfl
    have htouched : ∃ f, l₁.value i = some f ∧ ¬ f.upttime < current := by
      obtain ⟨e, he⟩ := h.holds.seg.exists ((h.index n i).mp hi).1
      have hold : l.value i = some e.value := by rw [CList.value, he, map_some]
      rw [hvalue i, if_pos rfl, hold, map_some]
      refine ⟨_, rfl, ?_⟩
      split_ifs with hlt
      · exact Int64.lt_irrefl
      · exact hlt
    refine ⟨l₂, ?_, h₂, fun j f hf hcur => hkeep j f (hkeep₁ j f hf hcur) hcur, ?_⟩
    · rw [foldlM_cons, hl₁]
      exact hl₂
    · refine forall_mem_cons.mpr ⟨?_, hfresh⟩
      obtain ⟨f, hf, hcur⟩ := htouched
      exact ⟨i, f, hi, hkeep i f hf hcur, hcur⟩

lemma add_settled {ix : Index} {i : ℕ} {f : ShardFilter} (hi : ix n = some i)
    (hf : l.value i = some f) (hcur : ¬ f.upttime < current) :
    add current created (l, ix) n = some (l, ix) := by
  obtain ⟨e, he, rfl⟩ := map_eq_some_iff.mp hf
  have hset : l.setValue i (fun f => if f.upttime < current then { f with upttime := current } else f)
      = some l := by
    simp only [CList.setValue, CList.modify, he, bind_eq_bind, bind_some, if_neg hcur]
    rw [← he, Function.update_eq_self]
  unfold add
  simp only [hi, hset, map_some]

/-- The changes of a block leave the filters as they are just if they are settled. -/
lemma updateShardFliters_eq_self_iff (h : Intact l) (addlist removeList : List Bytes) :
    updateShardFliters l current created addlist removeList = some l ↔
      Settled l current addlist removeList := by
  obtain ⟨is, hholds, hinj⟩ := h
  have htracks := tracks_index hholds hinj
  constructor
  · intro hcode
    obtain ⟨s, hs, hremove⟩ := bind_eq_some_iff.mp hcode
    have hframe := CList.foldlM_remove_frame ((foldlM_remove_eq removeList s.1).symm.trans hremove)
    have hsome := (created_foldlM_add current created hs).2 hframe.2.symm
    obtain ⟨l₁, hl₁, h₁, -, hfresh⟩ := htracks.foldlM_add_existing current created hsome
    rw [hl₁] at hs
    cases hs
    have hnone : removeList.filterMap (index l) = [] := by
      have hlen := hframe.1
      dsimp only at hlen
      rw [h₁.holds.len, hholds.len] at hlen
      exact length_eq_zero_iff.mp (by omega)
    have hsame : l₁ = l := by
      have hfold := (foldlM_remove_eq removeList l₁).symm.trans hremove
      rw [hnone] at hfold
      exact some.inj hfold
    rw [hsame] at hfresh
    exact ⟨hfresh, filterMap_eq_nil_iff.mp hnone⟩
  · rintro ⟨hadd, hremove⟩
    have hfold : addlist.foldlM (add current created) (l, index l) = some (l, index l) := by
      induction addlist with
      | nil => rfl
      | cons n addlist ih =>
        obtain ⟨⟨i, f, hi, hf, hcur⟩, hrest⟩ := forall_mem_cons.mp hadd
        rw [foldlM_cons, add_settled current created hi hf hcur]
        exact ih hrest
    rw [updateShardFliters, hfold]
    refine (foldlM_remove_eq removeList l).trans ?_
    rw [filterMap_eq_nil_iff.mpr hremove]
    rfl

end Code

/-- A shard is added and removed in one block. -/
theorem added_then_removed : ∃ cs l', configs [(configOfB "1").data, (configOfB "0").data] = some cs ∧
    applyConfigs CList.new 0 (fun _ => 0) [(configOfB "1").data, (configOfB "0").data] = some l' ∧
    Follows CList.new l' cs := by
  rw [filters_follow_block_iff 0 (fun _ => 0) intact_new]
  refine ⟨[(lit "B", true), (lit "B", false)], by decide +kernel, ?_, ?_⟩
  · unfold RemovedOnce
    decide +kernel
  · unfold RemovedLast
    decide +kernel

/-- A shard that is removed and added again loses its filter. Added and removed twice, it makes the
list panic. -/
theorem readded_shard_is_lost :
    (∃ l', applyConfigs CList.new 0 (fun _ => 0)
        [(configOfB "0").data, (configOfB "1").data] = some l' ∧
      configs [(configOfB "0").data, (configOfB "1").data] =
        some [(lit "B", false), (lit "B", true)] ∧
      ¬ Follows CList.new l' [(lit "B", false), (lit "B", true)]) ∧
    applyConfigs CList.new 0 (fun _ => 0)
      [(configOfB "1").data, (configOfB "0").data, (configOfB "0").data] = none := by
  have hnames : (applyConfigs CList.new 0 (fun _ => 0)
      [(configOfB "0").data, (configOfB "1").data]).map names = some [] := by decide +kernel
  obtain ⟨l', hl', hempty⟩ := map_eq_some_iff.mp hnames
  refine ⟨⟨l', hl', by decide +kernel, ?_⟩, isNone_iff_eq_none.mp (by decide +kernel)⟩
  rintro ⟨hset, -, -⟩
  have hmem : lit "B" ∈ [(lit "B", false), (lit "B", true)].foldl applyConfig
      {n | n ∈ names CList.new} := by
    simp [applyConfig]
  rw [← hset, hempty] at hmem
  cases hmem

end ShardingBC.ShardFilters
