import ShardingBC.ProposerPriority

/-!
# Recalled validator sets

The sets of the heights, each with the height at which the validators last changed. A set is kept in
full where the validators changed and at checkpoints. Any other is recalled from the last one kept,
by one increment for each height in between, while the sets themselves move on at odd heights only.
-/
namespace ShardingBC.Rotation

open List Option

structure Entry where
  set : ValidatorSet
  changed : ℕ

def checkpointInterval : ℕ := 100000

/-- The set of the height is kept in full. -/
def Entry.StoredAt (e : Entry) (height : ℕ) : Prop :=
  height = e.changed ∨ height % checkpointInterval = 0

instance storedAt_decidable (e : Entry) (height : ℕ) : Decidable (e.StoredAt height) :=
  inferInstanceAs (Decidable (_ ∨ _))

def lastStored (height changed : ℕ) : ℕ := max (height - height % checkpointInterval) changed

/-- The set of a height as it is recalled. -/
def recalled (hist : List Entry) (height : ℕ) : Option ValidatorSet :=
  (hist[height - 1]?).bind fun e =>
    if e.StoredAt height then some e.set
    else (hist[lastStored height e.changed - 1]?).bind fun b =>
      b.set.incrementProposerPriority (height - lastStored height e.changed : ℕ)

/-- How the entries follow each other. Entry `i` is that of height `i + 1`. -/
structure Kept (hist : List Entry) : Prop where
  changed : ∀ i e, hist[i]? = some e → 1 ≤ e.changed ∧ e.changed ≤ i + 1
  rotated : ∀ i e e', hist[i]? = some e → hist[i + 1]? = some e' → e'.changed ≠ i + 2 →
    e'.changed = e.changed ∧
      if i % 2 = 0 then e.set.incrementProposerPriority 1 = some e'.set else e'.set = e.set

/-- Every set is recalled as it was. -/
def Good (hist : List Entry) : Prop :=
  ∀ i e, hist[i]? = some e → recalled hist (i + 1) = some e.set

/-- The set after the one of the height is recalled as it was. -/
def Follows (height : ℕ) (e e' : Entry) : Prop :=
  e'.StoredAt (height + 1) ∨ (height % 2 = 1 ∧ e.changed = height) ∨ Settled e.set

section Heights

variable {height changed : ℕ}

lemma lastStored_le (h : changed ≤ height) : lastStored height changed ≤ height := by
  unfold lastStored
  omega

lemma lastStored_of_stored (h : height = changed ∨ height % checkpointInterval = 0)
    (hle : changed ≤ height) : lastStored height changed = height := by
  unfold lastStored
  omega

end Heights

section Append

variable {hist : List Entry} {x : Entry}

lemma getElem?_append_singleton {i : ℕ} {e : Entry} (h : (hist ++ [x])[i]? = some e) :
    hist[i]? = some e ∨ i = hist.length ∧ e = x := by
  by_cases hi : i < hist.length
  · rw [getElem?_append_left hi] at h
    exact .inl h
  · obtain ⟨hlt, -⟩ := List.getElem?_eq_some_iff.mp h
    obtain rfl : i = hist.length := by
      simp only [length_append, length_singleton] at hlt
      omega
    simpa using h.symm

lemma Kept.append {last : Entry} (hk : Kept hist) (hlast : hist[hist.length - 1]? = some last)
    (hpos : 1 ≤ x.changed) (hle : x.changed ≤ hist.length + 1)
    (hrotated : x.changed ≠ hist.length + 1 → x.changed = last.changed ∧
      if (hist.length - 1) % 2 = 0 then last.set.incrementProposerPriority 1 = some x.set
      else x.set = last.set) : Kept (hist ++ [x]) where
  changed := by
    intro i e he
    obtain he | ⟨rfl, rfl⟩ := getElem?_append_singleton he
    · exact hk.changed i e he
    · exact ⟨hpos, hle⟩
  rotated := by
    intro i e e' he he' hne
    obtain he' | ⟨hi, rfl⟩ := getElem?_append_singleton he'
    · obtain ⟨hlt, -⟩ := List.getElem?_eq_some_iff.mp he'
      rw [getElem?_append_left (by omega)] at he
      exact hk.rotated i e e' he he' hne
    · rw [show i = hist.length - 1 by omega, getElem?_append_left (by omega), hlast] at he
      cases he
      rw [show i = hist.length - 1 by omega]
      exact hrotated (by omega)

end Append

section Recall

variable {hist : List Entry} {n : ℕ} {e e' : Entry}

lemma recalled_of_stored (he : hist[n]? = some e) (hs : e.StoredAt (n + 1)) :
    recalled hist (n + 1) = some e.set := by
  unfold recalled
  rw [Nat.add_sub_cancel, he, bind_some, if_pos hs]

lemma Kept.stored_at_changed (hk : Kept hist) (he : hist[n]? = some e) :
    ∃ b, hist[e.changed - 1]? = some b ∧ b.changed = e.changed := by
  induction n generalizing e with
  | zero =>
    have hchanged := hk.changed 0 e he
    refine ⟨e, ?_, rfl⟩
    rw [show e.changed - 1 = 0 by omega, he]
  | succ n ih =>
    by_cases h : e.changed = n + 2
    · refine ⟨e, ?_, rfl⟩
      rw [h, show n + 2 - 1 = n + 1 by omega, he]
    · obtain ⟨hn, -⟩ := List.getElem?_eq_some_iff.mp he
      have hp : hist[n]? = some _ := getElem?_eq_getElem (by omega)
      obtain ⟨hsame, -⟩ := hk.rotated n _ e hp he h
      rw [hsame]
      exact ih hp

lemma Kept.lastStored_stored (hk : Kept hist) (he : hist[n]? = some e) :
    ∃ b, hist[lastStored (n + 1) e.changed - 1]? = some b ∧
      b.StoredAt (lastStored (n + 1) e.changed) := by
  obtain ⟨hn, -⟩ := List.getElem?_eq_some_iff.mp he
  by_cases h : e.changed ≤ n + 1 - (n + 1) % checkpointInterval
  · have hlast : lastStored (n + 1) e.changed = n + 1 - (n + 1) % checkpointInterval :=
      max_eq_left h
    refine ⟨_, getElem?_eq_getElem (by omega), .inr ?_⟩
    rw [hlast]
    unfold checkpointInterval
    omega
  · have hlast : lastStored (n + 1) e.changed = e.changed := max_eq_right (by omega)
    obtain ⟨b, hb, hchanged⟩ := hk.stored_at_changed he
    rw [hlast]
    exact ⟨b, hb, .inl hchanged.symm⟩

/-- Any other is made from the last one that is. -/
lemma recalled_of_not_stored (hk : Kept hist) (he : hist[n]? = some e)
    (hs : ¬ e.StoredAt (n + 1)) :
    ∃ b, hist[lastStored (n + 1) e.changed - 1]? = some b ∧
      recalled hist (n + 1) =
        b.set.incrementProposerPriority (n + 1 - lastStored (n + 1) e.changed : ℕ) := by
  obtain ⟨hn, -⟩ := List.getElem?_eq_some_iff.mp he
  have hle := lastStored_le (hk.changed n e he).2
  obtain ⟨b, hb⟩ : ∃ b, hist[lastStored (n + 1) e.changed - 1]? = some b :=
    ⟨_, getElem?_eq_getElem (by omega)⟩
  refine ⟨b, hb, ?_⟩
  unfold recalled
  rw [Nat.add_sub_cancel, he, bind_some, if_neg hs, hb, bind_some]

lemma Kept.lastStored_next (hk : Kept hist) (he : hist[n]? = some e)
    (he' : hist[n + 1]? = some e') (hs : ¬ e'.StoredAt (n + 2)) :
    lastStored (n + 2) e'.changed = lastStored (n + 1) e.changed := by
  obtain ⟨hchanged, -⟩ := hk.rotated n e e' he he' fun h => hs (.inl h.symm)
  have hnext : (n + 2) % checkpointInterval ≠ 0 := fun h => hs (.inr h)
  unfold lastStored checkpointInterval at *
  omega

lemma Kept.set_eq_of_settled (hk : Kept hist) (he : hist[n]? = some e)
    (he' : hist[n + 1]? = some e') (hs : ¬ e'.StoredAt (n + 2)) (hsound : Sound e.set.validators)
    (h : Settled e.set) : e'.set = e.set := by
  obtain ⟨-, hset⟩ := hk.rotated n e e' he he' fun h => hs (.inl h.symm)
  split_ifs at hset
  · rw [h.incrementProposerPriority hsound one_pos] at hset
    exact (some.inj hset).symm
  · exact hset

/-- A single validator is the same after any number of turns. -/
lemma incrementProposerPriority_eq_of_single {vs vs' : ValidatorSet} {k k' : ℤ}
    (h : Sound vs.validators) (hk : 0 < k) (hk' : 0 < k')
    (hinc : vs.incrementProposerPriority k = some vs') (hlen : vs'.validators.length = 1) :
    vs.incrementProposerPriority k' = some vs' := by
  rw [incrementProposerPriority_length hinc] at hlen
  obtain ⟨v, hv⟩ := length_eq_one_iff.mp hlen
  rw [← hinc, incrementProposerPriority_single h hv hk, incrementProposerPriority_single h hv hk']

lemma recalled_next_of_stored (hk : Kept hist) (hsound : Sound e.set.validators)
    (he : hist[n]? = some e) (he' : hist[n + 1]? = some e') (hs' : ¬ e'.StoredAt (n + 2))
    (hs : e.StoredAt (n + 1)) : recalled hist (n + 2) = some e'.set ↔ Follows (n + 1) e e' := by
  obtain ⟨b, hb, hrec⟩ := recalled_of_not_stored hk he' hs'
  obtain ⟨-, hset⟩ := hk.rotated n e e' he he' fun h => hs' (.inl h.symm)
  rw [hk.lastStored_next he he' hs', lastStored_of_stored hs (hk.changed n e he).2] at hb hrec
  obtain rfl : e = b := some.inj (he.symm.trans hb)
  rw [hrec, show n + 1 + 1 - (n + 1) = 1 by omega]
  by_cases hn : n % 2 = 0
  · -- no checkpoint is odd, so the validators changed here
    rw [if_pos hn] at hset
    have hchanged : e.changed = n + 1 := by
      rcases hs with h | h
      · exact h.symm
      · unfold checkpointInterval at h
        omega
    exact iff_of_true hset (.inr (.inl ⟨by omega, hchanged⟩))
  · rw [if_neg hn] at hset
    rw [hset]
    constructor
    · intro h
      exact .inr (.inr (settled_of_incrementProposerPriority hsound h))
    · rintro (h | ⟨h, -⟩ | h)
      · exact absurd h hs'
      · omega
      · exact h.incrementProposerPriority hsound one_pos

lemma recalled_next_of_not_stored {p : Entry} (hk : Kept hist)
    (hsound : ∀ e ∈ hist, Sound e.set.validators) (hp : hist[n]? = some p)
    (he : hist[n + 1]? = some e) (he' : hist[n + 2]? = some e') (hs' : ¬ e'.StoredAt (n + 3))
    (hs : ¬ e.StoredAt (n + 2)) (hrec : recalled hist (n + 2) = some e.set)
    (hprev : Follows (n + 1) p e) :
    recalled hist (n + 3) = some e'.set ↔ Follows (n + 2) e e' := by
  obtain ⟨b, hb, hrecb⟩ := recalled_of_not_stored hk he hs
  obtain ⟨b', hb', hrecb'⟩ := recalled_of_not_stored hk he' hs'
  rw [hk.lastStored_next he he' hs'] at hb' hrecb'
  obtain rfl : b = b' := some.inj (hb.symm.trans hb')
  obtain ⟨hchanged, hset⟩ := hk.rotated n p e hp he fun h => hs (.inl h.symm)
  obtain ⟨-, hset'⟩ := hk.rotated (n + 1) e e' he he' fun h => hs' (.inl h.symm)
  have hlt : e.changed < n + 2 := by
    have := (hk.changed _ e he).2
    have : n + 2 ≠ e.changed := fun h => hs (.inl h)
    omega
  have hlast : lastStored (n + 1 + 1) e.changed < n + 2 := by
    have : (n + 1 + 1) % checkpointInterval ≠ 0 := fun h => hs (.inr h)
    unfold lastStored
    omega
  have hbsound := hsound b (mem_of_getElem? hb)
  rw [hrecb] at hrec
  have hfollows : Follows (n + 2) e e' ↔ Settled e.set := by
    refine ⟨?_, fun h => .inr (.inr h)⟩
    rintro (h | ⟨-, h⟩ | h)
    · exact absurd h hs'
    · omega
    · exact h
  rw [hfollows, hrecb']
  constructor
  · intro h
    rcases hprev with hstored | ⟨hodd, hpchanged⟩ | hsettled
    · exact absurd hstored hs
    · -- one turn and two turns of the same set agree
      rw [if_pos (by omega)] at hset
      rw [if_neg (by omega)] at hset'
      have hpsound := hsound p (mem_of_getElem? hp)
      have heq : lastStored (n + 2) e.changed = n + 1 := by
        rw [hk.lastStored_next hp he hs, hpchanged]
        exact lastStored_of_stored (.inl rfl) le_rfl
      rw [heq, Nat.add_sub_cancel, hp] at hb
      cases hb
      rw [heq, show n + 1 + 1 + 1 - (n + 1) = 2 by omega, hset'] at h
      have hlen : p.set.validators.length = 1 := by
        have hpos := length_pos_of_ne_nil hpsound.nonempty
        by_contra hne
        exact incrementProposerPriority_two_ne hpsound (by omega) hset h rfl
      exact settled_of_single hpsound hlen hset
    · rw [hk.set_eq_of_settled hp he hs (hsound p (mem_of_getElem? hp)) hsettled]
      exact hsettled
  · intro h
    rw [hk.set_eq_of_settled he he' hs' (hsound e (mem_of_getElem? he)) h]
    exact incrementProposerPriority_eq_of_single hbsound (by omega) (by omega) hrec h.1

/-- Whether the next set is recalled, if all the sets before it are. -/
lemma recalled_next_iff (hk : Kept hist) (hsound : ∀ e ∈ hist, Sound e.set.validators)
    (he : hist[n]? = some e) (he' : hist[n + 1]? = some e')
    (hrec : recalled hist (n + 1) = some e.set)
    (hprev : ∀ m p, n = m + 1 → hist[m]? = some p → Follows (m + 1) p e) :
    recalled hist (n + 2) = some e'.set ↔ Follows (n + 1) e e' := by
  by_cases hs' : e'.StoredAt (n + 2)
  · exact iff_of_true (recalled_of_stored he' hs') (.inl hs')
  by_cases hs : e.StoredAt (n + 1)
  · exact recalled_next_of_stored hk (hsound e (mem_of_getElem? he)) he he' hs' hs
  · have hchanged := hk.changed n e he
    obtain ⟨m, rfl⟩ : ∃ m, n = m + 1 := by
      refine ⟨n - 1, ?_⟩
      have : n + 1 ≠ e.changed := fun h => hs (.inl h)
      omega
    obtain ⟨hm, -⟩ := List.getElem?_eq_some_iff.mp he
    have hp : hist[m]? = some _ := getElem?_eq_getElem (by omega)
    exact recalled_next_of_not_stored hk hsound hp he he' hs' hs hrec (hprev m _ rfl hp)

end Recall

/-- Every set is recalled as it was if and only if each follows the one before it. -/
lemma good_iff {hist : List Entry} (hk : Kept hist)
    (hsound : ∀ e ∈ hist, Sound e.set.validators) :
    Good hist ↔ ∀ i e e', hist[i]? = some e → hist[i + 1]? = some e' → Follows (i + 1) e e' := by
  constructor
  · intro hgood i
    induction i with
    | zero =>
      intro e e' he he'
      refine (recalled_next_iff hk hsound he he' (hgood 0 e he) ?_).mp (hgood 1 e' he')
      omega
    | succ i ih =>
      intro e e' he he'
      refine (recalled_next_iff hk hsound he he' (hgood _ e he) ?_).mp (hgood _ e' he')
      rintro m p hm hp
      obtain rfl : i = m := by omega
      exact ih p e hp he
  · intro hfollows i
    induction i with
    | zero =>
      intro e he
      have hchanged := hk.changed 0 e he
      exact recalled_of_stored he (.inl (by omega))
    | succ i ih =>
      intro e' he'
      obtain ⟨hi, -⟩ := List.getElem?_eq_some_iff.mp he'
      have he : hist[i]? = some _ := getElem?_eq_getElem (by omega)
      refine (recalled_next_iff hk hsound he he' (ih _ he) ?_).mpr (hfollows i _ e' he he')
      rintro m p rfl hp
      exact hfollows m p _ hp he

end ShardingBC.Rotation
