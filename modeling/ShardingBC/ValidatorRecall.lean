import ShardingBC.StoreWire

/-!
# Historical validator sets

A chain of states saved block by block, the history of its validator sets, and the runs
in which `LoadValidators` returns every set as consensus used it.
-/
namespace ShardingBC.Rotation

open List Runs

/-- The set of the height after the next. -/
def State.entry (s : State) : Entry := ⟨s.nextValidators, s.lastHeightValidatorsChanged.toNat⟩

/-- The validators change, the height of the set is a checkpoint, the one before it is odd and has
a change, or the only validator has come to rest. -/
def Recalls (n : State × DB) (e : Applied) : Prop :=
  e.responses.validatorUpdates ≠ [] ∨
    (n.1.lastBlockHeight + 3) % checkpointInterval = 0 ∨
    (n.1.lastBlockHeight % 2 = 1 ∧
      n.1.lastHeightValidatorsChanged = n.1.lastBlockHeight + 2) ∨
    Settled n.1.nextValidators

instance recalls_decidable (n : State × DB) (e : Applied) : Decidable (Recalls n e) :=
  inferInstanceAs (Decidable (_ ∨ _ ∨ _ ∧ _ ∨ _))

variable (c : StoreCodec)

/-- The sets that a run adds. -/
def entries : State × DB → List Applied → List Entry
  | _, [] => []
  | n, e :: es => (advance c n e).elim [] fun n' => n'.1.entry :: entries n' es

/-- The database has the sets of all heights, up to the next one of the state. -/
structure Recorded (hist : List Entry) (n : State × DB) : Prop where
  kept : Kept hist
  sound : ∀ e ∈ hist, Sound e.set.validators
  saved : Saved c n.2 hist
  height : 0 ≤ n.1.lastBlockHeight
  length : (hist.length : ℤ) = n.1.lastBlockHeight + 2
  current : (hist[hist.length - 2]?).map Entry.set = some n.1.validators
  next : hist[hist.length - 1]? = some n.1.entry
  changed : 0 ≤ n.1.lastHeightValidatorsChanged

variable {c} {hist : List Entry} {n n' : State × DB} {e : Applied} {es : List Applied}

lemma recorded_genesis {doc : GenesisDoc} {g : State} {db db' : DB}
    (hg : makeGenesisState doc = some g) (hvals : doc.validators ≠ none)
    (hsave : saveState c db g = some db') :
    Recorded c [⟨g.validators, 1⟩, g.entry] (g, db') := by
  obtain ⟨valz, hvalz⟩ := Option.ne_none_iff_exists'.mp hvals
  obtain ⟨⟨set, next⟩, hsets, rfl⟩ := Option.map_eq_some_iff.mp hg
  rw [hvalz] at hsets
  obtain ⟨set', hset, hsets⟩ := Option.bind_eq_some_iff.mp hsets
  obtain ⟨next', hnext, hsets⟩ := Option.bind_eq_some_iff.mp hsets
  obtain ⟨rfl, rfl⟩ := Prod.mk.inj (Option.some.inj hsets)
  have hne : valz ≠ [] := by
    rintro rfl
    obtain rfl : ValidatorSet.empty = set' := Option.some.inj hset
    cases hnext
  have hsound := sound_of_newValidatorSet hne hset
  obtain ⟨-, hsecond, hfirst, -⟩ := saveState_spec (n := 0) rfl hsave
  have hcases : ∀ (i : ℕ) (e : Entry), [(⟨set', 1⟩ : Entry), ⟨next', 1⟩][i]? = some e →
      i = 0 ∧ e = ⟨set', 1⟩ ∨ i = 1 ∧ e = ⟨next', 1⟩ := by
    intro i e he
    rcases i with _ | _ | i
    · exact .inl ⟨rfl, (Option.some.inj he).symm⟩
    · exact .inr ⟨rfl, (Option.some.inj he).symm⟩
    · cases he
  refine ⟨⟨?_, ?_⟩, ?_, ?_, le_rfl, rfl, rfl, rfl, zero_le_one⟩
  · intro i e he
    obtain ⟨rfl, rfl⟩ | ⟨rfl, rfl⟩ := hcases i e he <;> simp
  · intro i e e' he he' _
    obtain ⟨rfl, rfl⟩ | ⟨rfl, rfl⟩ := hcases i e he
    · obtain ⟨h, -⟩ | ⟨-, rfl⟩ := hcases _ e' he'
      · omega
      · exact ⟨rfl, hnext⟩
    · cases he'
  · intro e he
    obtain rfl | rfl : e = ⟨set', 1⟩ ∨ e = ⟨next', 1⟩ := by simpa [State.entry] using he
    · exact hsound
    · exact hsound.incrementProposerPriority hnext
  · intro i e he
    obtain ⟨rfl, rfl⟩ | ⟨rfl, rfl⟩ := hcases i e he
    · exact hfirst rfl
    · exact hsecond

/-- How the next set comes about if the validators do not change. -/
lemma Recorded.rotated (h : Recorded c hist n) (hadv : advance c n e = some n')
    (hupdates : e.responses.validatorUpdates = []) :
    n'.1.entry.changed = n.1.entry.changed ∧
      if (hist.length - 1) % 2 = 0 then
        n.1.entry.set.incrementProposerPriority 1 = some n'.1.entry.set
      else n'.1.entry.set = n.1.entry.set := by
  obtain ⟨hheight, nValSet, nextParams, hvals, -, hs, -⟩ := advance_eq_some hadv
  obtain ⟨changed, hchanged, hnext⟩ := nextValidatorSet_eq_ok hvals
  have hlen := h.length
  have hnonneg := h.height
  rw [if_neg (by simpa using hupdates)] at hchanged
  subst hchanged
  have hparity : e.header.height.tmod 2 = 0 ↔ (hist.length - 1) % 2 = 0 := by
    rw [Int.tmod_eq_emod_of_nonneg (by omega)]
    omega
  have hentry : n'.1.entry = ⟨nValSet, n.1.lastHeightValidatorsChanged.toNat⟩ := by
    simp [hs, State.entry, State.after, hupdates]
  rw [hentry]
  refine ⟨rfl, ?_⟩
  split_ifs at hnext ⊢ <;> first | exact hnext | omega

/-- The height at which the validators last changed. -/
lemma Recorded.changed_advance (h : Recorded c hist n) (hadv : advance c n e = some n') :
    n'.1.entry.changed =
      if e.responses.validatorUpdates ≠ [] then hist.length + 1 else n.1.entry.changed := by
  obtain ⟨hheight, nValSet, nextParams, -, -, hs, -⟩ := advance_eq_some hadv
  have hlen := h.length
  rw [hs]
  simp only [State.entry, State.after]
  split_ifs
  · omega
  · rfl

lemma Recorded.advance (h : Recorded c hist n) (hadv : advance c n e = some n') :
    Recorded c (hist ++ [n'.1.entry]) n' := by
  obtain ⟨hheight, nValSet, nextParams, hvals, -, hs, hsave⟩ := advance_eq_some hadv
  have hlen := h.length
  have hnonneg := h.height
  have hheight' : n'.1.lastBlockHeight = (hist.length - 1 : ℕ) := by
    rw [hs]
    simp only [State.after]
    omega
  have hchanged := h.changed_advance hadv
  have ⟨hpos, hle⟩ := h.kept.changed _ _ h.next
  have hchanged' : 0 ≤ n'.1.lastHeightValidatorsChanged := by
    rw [hs]
    simp only [State.after]
    have := h.changed
    split_ifs <;> omega
  obtain ⟨-, hnew, -, hframe⟩ := saveState_spec hheight' hsave
  refine ⟨?_, ?_, ?_, by omega, ?_, ?_, ?_, hchanged'⟩
  · refine h.kept.append h.next ?_ ?_ ?_
    · rw [hchanged]
      split_ifs <;> omega
    · rw [hchanged]
      split_ifs <;> omega
    · intro hne
      refine h.rotated hadv ?_
      by_contra hupdates
      rw [if_pos hupdates] at hchanged
      exact hne hchanged
  · intro x hx
    obtain hx | hx := mem_append.mp hx
    · exact h.sound x hx
    · rw [mem_singleton.mp hx, hs]
      have hnext := h.sound _ (mem_of_getElem? h.next)
      exact sound_of_nextValidatorSet ⟨hnext.power, hnext.total, hnext.bounded⟩ (fun _ => hnext)
        hvals
  · intro i x hx
    obtain hx | ⟨rfl, rfl⟩ := getElem?_append_singleton hx
    · obtain ⟨hi, -⟩ := List.getElem?_eq_some_iff.mp hx
      rw [hframe (i + 1) (by omega) (by omega)]
      exact h.saved i x hx
    · rw [show hist.length - 1 + 2 = hist.length + 1 by omega] at hnew
      rw [hnew, Entry.info, State.entry, Int.toNat_of_nonneg hchanged']
  · rw [length_append, length_singleton]
    omega
  · rw [length_append, length_singleton, getElem?_append_left (by omega),
      show hist.length + 1 - 2 = hist.length - 1 by omega, h.next, hs]
    rfl
  · rw [length_append, length_singleton, Nat.add_sub_cancel, getElem?_concat_length]

/-- Whether the new set follows the one before it. -/
lemma Recorded.follows_iff (h : Recorded c hist n) (hadv : Rotation.advance c n e = some n') :
    Follows hist.length n.1.entry n'.1.entry ↔ Recalls n e := by
  have hlen := h.length
  have hnonneg := h.height
  have hle := (h.kept.changed _ _ h.next).2
  have hchanged := h.changed_advance hadv
  have hentry : (n.1.entry.changed : ℤ) = _ := Int.toNat_of_nonneg h.changed
  have hstored : n'.1.entry.StoredAt (hist.length + 1) ↔
      e.responses.validatorUpdates ≠ [] ∨ (n.1.lastBlockHeight + 3) % checkpointInterval = 0 := by
    unfold Entry.StoredAt checkpointInterval
    rw [hchanged]
    split_ifs with hupdates
    · simp [hupdates]
    · simp only [hupdates, false_or]
      omega
  have hodd : (hist.length % 2 = 1 ∧ n.1.entry.changed = hist.length) ↔
      (n.1.lastBlockHeight % 2 = 1 ∧
        n.1.lastHeightValidatorsChanged = n.1.lastBlockHeight + 2) := by
    omega
  unfold Follows Recalls
  rw [hstored, hodd, or_assoc]
  rfl

lemma Recorded.run (h : Recorded c hist n) (hrun : Runs.run (Rotation.advance c) n es = some n') :
    Recorded c (hist ++ entries c n es) n' := by
  induction es generalizing hist n with
  | nil =>
    cases hrun
    rw [entries, append_nil]
    exact h
  | cons e es ih =>
    obtain ⟨m, hadv, hrest⟩ := run_cons.mp hrun
    have := ih (h.advance hadv) hrest
    rw [append_assoc] at this
    rw [entries, hadv]
    exact this

lemma Recorded.guarded_iff (h : Recorded c hist n)
    (hrun : Runs.run (Rotation.advance c) n es = some n') :
    Guarded (Rotation.advance c) Recalls n es ↔
      ∀ i x x', hist.length ≤ i + 1 → (hist ++ entries c n es)[i]? = some x →
        (hist ++ entries c n es)[i + 1]? = some x' → Follows (i + 1) x x' := by
  induction es generalizing hist n with
  | nil =>
    refine iff_of_true trivial ?_
    intro i x x' hi _ hx'
    obtain ⟨hlt, -⟩ := List.getElem?_eq_some_iff.mp hx'
    rw [entries, append_nil] at hlt
    omega
  | cons e es ih =>
    obtain ⟨m, hadv, hrest⟩ := run_cons.mp hrun
    have hpos := h.length
    have hnonneg := h.height
    have hsplit : hist ++ entries c n (e :: es) = hist ++ [m.1.entry] ++ entries c m es := by
      rw [entries, hadv, append_assoc]
      rfl
    have hlast : (hist ++ [m.1.entry] ++ entries c m es)[hist.length - 1]? = some n.1.entry := by
      rw [append_assoc, getElem?_append_left (by omega), h.next]
    have hnew : (hist ++ [m.1.entry] ++ entries c m es)[hist.length]? = some m.1.entry := by
      rw [append_assoc, getElem?_append_right le_rfl, Nat.sub_self]
      rfl
    have hm : (∀ s ∈ Rotation.advance c n e, Guarded (Rotation.advance c) Recalls s es) ↔
        Guarded (Rotation.advance c) Recalls m es := by
      rw [hadv]
      simp
    rw [Guarded, hm, ih (h.advance hadv) hrest, ← h.follows_iff hadv, hsplit, length_append,
      length_singleton]
    constructor
    · rintro ⟨hfirst, hlater⟩ i x x' hi hx hx'
      by_cases hi' : i + 1 = hist.length
      · rw [show i = hist.length - 1 by omega, hlast] at hx
        rw [hi', hnew] at hx'
        cases hx
        cases hx'
        rw [hi']
        exact hfirst
      · exact hlater i x x' (by omega) hx hx'
    · intro hall
      refine ⟨?_, fun i x x' hi => hall i x x' (by omega)⟩
      have := hall (hist.length - 1) _ m.1.entry (by omega) hlast
      rw [show hist.length - 1 + 1 = hist.length by omega] at this
      exact this hnew

lemma entries_append {m : State × DB} (hrun : Runs.run (advance c) n es = some m)
    (fs : List Applied) :
    entries c n (es ++ fs) = entries c n es ++ entries c m fs := by
  induction es generalizing n with
  | nil =>
    cases hrun
    rfl
  | cons e es ih =>
    obtain ⟨s, hadv, hrest⟩ := run_cons.mp hrun
    rw [cons_append, entries, entries, hadv, Option.elim_some, Option.elim_some, ih hrest,
      cons_append]

lemma Recorded.validators_of_take (h : Recorded c hist n) {m : State × DB} {k : ℕ}
    (htake : Runs.run (Rotation.advance c) n (es.take k) = some m) :
    ∃ (i : ℕ) (x : Entry), (hist ++ entries c n es)[i]? = some x ∧ (i : ℤ) = m.1.lastBlockHeight ∧
      x.set = m.1.validators := by
  have hm := h.run htake
  have hlen := hm.length
  have hnonneg := hm.height
  obtain ⟨x, hx, hset⟩ := Option.map_eq_some_iff.mp hm.current
  obtain ⟨hi, -⟩ := List.getElem?_eq_some_iff.mp hx
  have hsplit := entries_append htake (es.drop k)
  rw [take_append_drop] at hsplit
  refine ⟨(hist ++ entries c n (es.take k)).length - 2, x, ?_, ?_, hset⟩
  · rw [hsplit, ← append_assoc, getElem?_append_left hi, hx]
  · omega

lemma height_run (hrun : Runs.run (advance c) n es = some n') :
    n'.1.lastBlockHeight = n.1.lastBlockHeight + es.length := by
  induction es generalizing n with
  | nil =>
    cases hrun
    simp
  | cons e es ih =>
    obtain ⟨m, hadv, hrest⟩ := run_cons.mp hrun
    obtain ⟨hheight, nValSet, nextParams, -, -, hs, -⟩ := advance_eq_some hadv
    rw [ih hrest, hs, length_cons]
    simp only [State.after]
    omega

/-- Every height of the run is the height of a state on the way. -/
lemma Recorded.exists_take (h : Recorded c hist n)
    (hrun : Runs.run (Rotation.advance c) n es = some n') {i : ℕ} {x : Entry}
    (hx : (hist ++ entries c n es)[i]? = some x) (hi : n.1.lastBlockHeight ≤ i)
    (hi' : (i : ℤ) ≤ n'.1.lastBlockHeight) :
    ∃ k m, Runs.run (Rotation.advance c) n (es.take k) = some m ∧ m.1.lastBlockHeight = i ∧
      m.1.validators = x.set := by
  obtain ⟨k, hk⟩ : ∃ k : ℕ, (i : ℤ) = n.1.lastBlockHeight + k :=
    ⟨(i - n.1.lastBlockHeight).toNat, by omega⟩
  have hlen := height_run hrun
  rw [← take_append_drop k es, run_append] at hrun
  obtain ⟨m, htake, -⟩ := Option.bind_eq_some_iff.mp hrun
  have hm := height_run htake
  rw [length_take] at hm
  obtain ⟨j, y, hy, hj, hset⟩ := h.validators_of_take htake
  obtain rfl : j = i := by omega
  obtain rfl := Option.some.inj (hx.symm.trans hy)
  exact ⟨k, m, htake, by omega, hset.symm⟩

/-- The first heights of a chain whose genesis names no validators. -/
structure EmptyStart (c : StoreCodec) (n : State × DB) : Prop where
  height : 0 ≤ n.1.lastBlockHeight
  first : n.2 (validatorsKey (1 : ℕ)) = some (c.validatorsInfo ⟨some .empty, 1⟩)
  second : n.2 (validatorsKey (2 : ℕ)) = some (c.validatorsInfo ⟨none, 1⟩)

lemma emptyStart_genesis {doc : GenesisDoc} {g : State} {db db' : DB}
    (hg : makeGenesisState doc = some g) (hvals : doc.validators = none)
    (hsave : saveState c db g = some db') : EmptyStart c (g, db') := by
  obtain ⟨sets, hsets, rfl⟩ := Option.map_eq_some_iff.mp hg
  rw [hvals] at hsets
  cases hsets
  obtain ⟨-, hsecond, hfirst, -⟩ := saveState_spec (n := 0) rfl hsave
  exact ⟨le_rfl, hfirst rfl, hsecond⟩

lemma EmptyStart.advance (h : EmptyStart c n) (hadv : advance c n e = some n') :
    EmptyStart c n' := by
  obtain ⟨hheight, nValSet, nextParams, -, -, hs, hsave⟩ := advance_eq_some hadv
  have hnonneg := h.height
  have hheight' : n'.1.lastBlockHeight = (n.1.lastBlockHeight.toNat + 1 : ℕ) := by
    rw [hs]
    simp only [State.after]
    omega
  obtain ⟨-, -, -, hframe⟩ := saveState_spec hheight' hsave
  refine ⟨by omega, ?_, ?_⟩
  · rw [hframe 1 (by omega) (by omega)]
    exact h.first
  · rw [hframe 2 (by omega) (by omega)]
    exact h.second

lemma EmptyStart.run (h : EmptyStart c n) (hrun : Runs.run (Rotation.advance c) n es = some n') :
    EmptyStart c n' := by
  induction es generalizing n with
  | nil =>
    cases hrun
    exact h
  | cons e es ih =>
    obtain ⟨m, hadv, hrest⟩ := run_cons.mp hrun
    exact ih (h.advance hadv) hrest

lemma loadValidatorsInfo_of_saved {db : DB} {height : ℤ} {info : ValidatorsInfo}
    (h : db (validatorsKey height) = some (c.validatorsInfo info))
    (hne : info.lastHeightChanged ≠ 0) :
    loadValidatorsInfo c db height = some (some info) := by
  unfold loadValidatorsInfo load
  rw [h, Option.getD_some, if_neg (c.validatorsInfo_ne_nil info hne), c.read_validatorsInfo,
    Option.map_some]

/-- The set of height 2 cannot be recalled: the empty set has no turns. -/
lemma EmptyStart.loadValidators (h : EmptyStart c n) : loadValidators c n.2 2 = none := by
  have hfirst := loadValidatorsInfo_of_saved h.first one_ne_zero
  have hsecond := loadValidatorsInfo_of_saved h.second one_ne_zero
  have hlast : lastStoredHeightFor 2 1 = 1 := by decide
  rw [Nat.cast_one] at hfirst
  rw [Nat.cast_ofNat] at hsecond
  unfold Rotation.loadValidators loadStoredSet
  simp only [hsecond, hfirst, hlast, Option.bind_eq_bind, Option.bind_some]
  rfl

/-- The history has what every state of the run had. -/
lemma Recorded.good_iff (h : Recorded c hist n) (h0 : n.1.lastBlockHeight = 0)
    (hrun : Runs.run (Rotation.advance c) n es = some n') :
    Good (hist ++ entries c n es) ↔
      (∀ k m, Runs.run (Rotation.advance c) n (es.take k) = some m →
        loadValidators c n'.2 (m.1.lastBlockHeight + 1) = some (some m.1.validators)) ∧
      loadValidators c n'.2 (n'.1.lastBlockHeight + 2) = some (some n'.1.nextValidators) := by
  have hend := h.run hrun
  have hlen := hend.length
  have hnonneg := hend.height
  have hload : ∀ (i : ℕ) (x : Entry) (set : ValidatorSet),
      (hist ++ entries c n es)[i]? = some x →
      (loadValidators c n'.2 (i + 1) = some (some set) ↔
        recalled (hist ++ entries c n es) (i + 1) = some set) := by
    intro i x set hx
    have := hend.saved.loadValidators hend.kept hx
    rw [Nat.cast_succ] at this
    rw [this]
    simp
  have hlast : n'.1.lastBlockHeight + 2 =
      ((hist ++ entries c n es).length - 1 : ℕ) + 1 := by
    omega
  constructor
  · intro hgood
    constructor
    · intro k m htake
      obtain ⟨i, x, hx, hi, hset⟩ := h.validators_of_take htake
      rw [← hi, hload i x _ hx, ← hset]
      exact hgood i x hx
    · rw [hlast, hload _ _ _ hend.next]
      exact hgood _ _ hend.next
  · rintro ⟨hstates, hnext⟩ i x hx
    obtain ⟨hi, -⟩ := List.getElem?_eq_some_iff.mp hx
    by_cases hi' : (i : ℤ) ≤ n'.1.lastBlockHeight
    · obtain ⟨k, m, htake, hm, hset⟩ := h.exists_take hrun hx (by omega) hi'
      rw [← hload i x _ hx, ← hset, ← hm]
      exact hstates k m htake
    · obtain rfl : i = (hist ++ entries c n es).length - 1 := by omega
      obtain rfl := Option.some.inj (hx.symm.trans hend.next)
      rw [← hload _ _ _ hx, ← hlast]
      exact hnext

/-- In a chain that starts with validators and whose blocks all leave a set that can be
recalled, and in no other, every set is loaded as the heights were run with it. -/
theorem load_validators_iff (doc : GenesisDoc) (g : State) (db₀ db : DB) (es : List Applied)
    (n : State × DB) (hg : makeGenesisState doc = some g) (hsave : saveState c db₀ g = some db)
    (hrun : run (advance c) (g, db) es = some n) :
    ((∀ k m, run (advance c) (g, db) (es.take k) = some m →
        loadValidators c n.2 (m.1.lastBlockHeight + 1) = some (some m.1.validators)) ∧
      loadValidators c n.2 (n.1.lastBlockHeight + 2) = some (some n.1.nextValidators)) ↔
      doc.validators ≠ none ∧ Guarded (advance c) Recalls (g, db) es := by
  have hheight : g.lastBlockHeight = 0 := by
    obtain ⟨sets, -, rfl⟩ := Option.map_eq_some_iff.mp hg
    rfl
  by_cases hvals : doc.validators = none
  · have hstart := emptyStart_genesis hg hvals hsave
    refine iff_of_false ?_ fun h => h.1 hvals
    rintro ⟨hstates, hnext⟩
    have hload := (hstart.run hrun).loadValidators
    cases es with
    | nil =>
      cases hrun
      rw [hheight, zero_add, hload] at hnext
      cases hnext
    | cons e es =>
      obtain ⟨m, hadv, -⟩ := run_cons.mp hrun
      have hfirst : run (advance c) (g, db) ((e :: es).take 1) = some m := by
        rw [take_succ_cons, run, hadv]
        rfl
      have hm := hstates 1 m hfirst
      have hone := height_run hfirst
      rw [hone, hheight] at hm
      cases hload.symm.trans hm
  · have hstart := recorded_genesis hg hvals hsave
    have hend := hstart.run hrun
    rw [← hstart.good_iff hheight hrun, good_iff hend.kept hend.sound, hstart.guarded_iff hrun]
    constructor
    · intro hall
      exact ⟨hvals, fun i x x' _ => hall i x x'⟩
    · rintro ⟨-, hall⟩ i x x' hx hx'
      by_cases hi : i = 0
      · -- the set of height 2 is one turn from the one of height 1
        subst hi
        cases hx
        exact .inr (.inl ⟨rfl, rfl⟩)
      · exact hall i x x' (by simp only [length_cons, length_nil]; omega) hx hx'

def sampleValidator (b : UInt8) (power : ℤ) : Validator :=
  ⟨List.replicate 20 b, List.replicate 32 b, power, 0⟩

def sampleDoc : GenesisDoc where
  genesisTime := 1500000000000000000
  chainID := lit "A"
  consensusParams := .default
  validators := some [sampleValidator 1 10, sampleValidator 2 10]
  appHash := []

def sampleBlock (height : ℤ) (updates : List Validator) : Applied where
  blockID := ⟨List.replicate 32 1, 1, List.replicate 32 2⟩
  header :=
    { version := ⟨10, 0⟩
      chainID := lit "A"
      height := height
      time := 1500000000000000000 + height
      numTxs := 0
      totalTxs := 0
      lastBlockID := .zero
      lastCommitHash := []
      dataHash := []
      validatorsHash := List.replicate 32 4
      nextValidatorsHash := List.replicate 32 4
      consensusHash := List.replicate 32 5
      appHash := []
      lastResultsHash := []
      evidenceHash := []
      proposerAddress := List.replicate 20 1
      crossMerkleRoot := []
      cmRelation := [] }
  responses := ⟨updates, none, []⟩
  appHash := []

def sampleGenesis : State := (makeGenesisState sampleDoc).get (by decide +kernel)

def sampleStart : State × DB :=
  (sampleGenesis, (saveState wireCodec (fun _ => none) sampleGenesis).get (by decide +kernel))

lemma sampleGenesis_eq : makeGenesisState sampleDoc = some sampleGenesis := by
  simp [sampleGenesis]

lemma sampleStart_eq :
    saveState wireCodec (fun _ => none) sampleGenesis = some sampleStart.2 := by
  simp [sampleStart]

/-- One change of power and one turn after it are recalled. -/
theorem turn_after_change_recalled :
    ∃ n, run (advance wireCodec) sampleStart
        [sampleBlock 1 [sampleValidator 1 11], sampleBlock 2 []] = some n ∧
      loadValidators wireCodec n.2 4 = some (some n.1.nextValidators) := by
  obtain ⟨n, hn⟩ := Option.isSome_iff_exists.mp (show (run (advance wireCodec) sampleStart
    [sampleBlock 1 [sampleValidator 1 11], sampleBlock 2 []]).isSome by decide +kernel)
  refine ⟨n, hn, ?_⟩
  have hheight := height_run hn
  have h := ((load_validators_iff sampleDoc sampleGenesis _ sampleStart.2 _ n sampleGenesis_eq
    sampleStart_eq hn).mpr ⟨by decide, by decide +kernel⟩).2
  rw [hheight] at h
  exact h

/-- The third height is run with the set of the second, and loaded with another turn. -/
theorem odd_height_not_recalled :
    makeGenesisState sampleDoc = some sampleGenesis ∧
      saveState wireCodec (fun _ => none) sampleGenesis = some sampleStart.2 ∧
      ∃ n, run (advance wireCodec) sampleStart [sampleBlock 1 [], sampleBlock 2 []] = some n ∧
        n.1.lastBlockHeight + 1 = 3 ∧
        loadValidators wireCodec n.2 3 ≠ some (some n.1.validators) := by
  refine ⟨sampleGenesis_eq, sampleStart_eq, (run (advance wireCodec) sampleStart
    [sampleBlock 1 [], sampleBlock 2 []]).get (by decide +kernel), by simp, ?_, ?_⟩
  · decide +kernel
  · decide +kernel

end ShardingBC.Rotation
