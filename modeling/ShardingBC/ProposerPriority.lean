import ShardingBC.ValidatorSet

/-!
# The range of proposer priorities

Sets that are built by the operations stay within three times the largest total power, where nothing
is clipped or wrapped. A turn moves the priorities of every set with more than one validator.
-/
namespace ShardingBC.Rotation

open List Option

def sumPower (vals : List Validator) : ℤ := (vals.map Validator.votingPower).sum

/-- What the operations keep. -/
structure Sound (vals : List Validator) : Prop where
  nonempty : vals ≠ []
  power : ∀ v ∈ vals, 0 < v.votingPower
  total : sumPower vals ≤ maxTotalVotingPower
  bounded : ∀ v ∈ vals, |v.proposerPriority| ≤ 3 * maxTotalVotingPower

/-! ## Voting power -/

variable {vals : List Validator}

lemma sumPower_nonneg (h : ∀ v ∈ vals, 0 < v.votingPower) : 0 ≤ sumPower vals :=
  sum_nonneg (List.forall_mem_map.mpr fun v hv => (h v hv).le)

lemma totalVotingPower_from (h : ∀ v ∈ vals, 0 < v.votingPower) {a : ℤ}
    (ha : 0 ≤ a) (ham : a ≤ maxTotalVotingPower) :
    vals.foldlM (fun sum v =>
      if maxTotalVotingPower < safeAddClip sum v.votingPower then none
      else some (safeAddClip sum v.votingPower)) a =
      if a + sumPower vals ≤ maxTotalVotingPower then some (a + sumPower vals) else none := by
  induction vals generalizing a with
  | nil => simp [sumPower, ham]
  | cons v vals ih =>
    have hv := h v (by simp)
    have hvals : ∀ w ∈ vals, 0 < w.votingPower := fun w hw => h w (by simp [hw])
    have hsum := sumPower_nonneg hvals
    have hcons : sumPower (v :: vals) = v.votingPower + sumPower vals := by simp [sumPower]
    rw [foldlM_cons, hcons]
    by_cases hmax : a + v.votingPower ≤ maxTotalVotingPower
    · rw [safeAddClip_eq (isInt64_of_abs (abs_le.mpr (by omega))), if_neg (by omega)]
      simp only [bind_eq_bind, bind_some]
      rw [ih hvals (by omega) hmax, add_assoc]
    · have hclip : maxTotalVotingPower < safeAddClip a v.votingPower := by
        unfold safeAddClip maxInt64 minInt64
        unfold maxTotalVotingPower at *
        split_ifs <;> omega
      rw [if_pos hclip, if_neg (by omega)]
      rfl

lemma totalVotingPower_eq (h : ∀ v ∈ vals, 0 < v.votingPower) :
    totalVotingPower vals =
      if sumPower vals ≤ maxTotalVotingPower then some (sumPower vals) else none := by
  have hfrom := totalVotingPower_from h le_rfl (by decide)
  rw [zero_add] at hfrom
  exact hfrom

lemma Sound.totalVotingPower (h : Sound vals) :
    totalVotingPower vals = some (sumPower vals) := by
  rw [totalVotingPower_eq h.power, if_pos h.total]

lemma votingPower_le_sumPower (h : ∀ v ∈ vals, 0 < v.votingPower)
    {v : Validator} (hv : v ∈ vals) : v.votingPower ≤ sumPower vals :=
  single_le_sum (by simpa using fun v hv => (h v hv).le) _ (List.mem_map_of_mem hv)

lemma add_votingPower_le (h : ∀ v ∈ vals, 0 < v.votingPower) {i j : ℕ}
    (hij : i ≠ j) {v w : Validator} (hv : vals[i]? = some v) (hw : vals[j]? = some w) :
    v.votingPower + w.votingPower ≤ sumPower vals := by
  obtain ⟨hi, rfl⟩ := List.getElem?_eq_some_iff.mp hv
  have hle := votingPower_le_sumPower (fun u hu => h u (mem_of_mem_eraseIdx hu))
    (mem_eraseIdx_iff_getElem?.mpr ⟨j, hij.symm, hw⟩)
  have hsum := CommMonoid.add_sum_eraseIdx (l := vals.map Validator.votingPower)
    (i := i) (by simpa using hi)
  rw [eraseIdx_map, getElem_map] at hsum
  exact (add_le_add_right hle _).trans_eq hsum

lemma sumPower_pos (hne : vals ≠ []) (h : ∀ v ∈ vals, 0 < v.votingPower) :
    0 < sumPower vals := by
  obtain ⟨v, hv⟩ := exists_mem_of_ne_nil vals hne
  exact (h v hv).trans_le (votingPower_le_sumPower h hv)

lemma Sound.sumPower_pos (h : Sound vals) : 0 < sumPower vals :=
  Rotation.sumPower_pos h.nonempty h.power

lemma Sound.range (h : Sound vals) {v : Validator} (hv : v ∈ vals) :
    0 < v.votingPower ∧ v.votingPower ≤ sumPower vals ∧ sumPower vals ≤ maxTotalVotingPower ∧
      -(3 * maxTotalVotingPower) ≤ v.proposerPriority ∧
      v.proposerPriority ≤ 3 * maxTotalVotingPower :=
  ⟨h.power v hv, votingPower_le_sumPower h.power hv, h.total, abs_le.mp (h.bounded v hv)⟩

/-! ## Rescaling -/

lemma foldl_max_spec {α : Type} [LinearOrder α] (l : List α) (a : α) :
    (a ≤ l.foldl max a ∧ ∀ x ∈ l, x ≤ l.foldl max a) ∧
      (l.foldl max a = a ∨ l.foldl max a ∈ l) := by
  induction l generalizing a with
  | nil => simp
  | cons x l ih =>
    obtain ⟨⟨hle, hall⟩, hmem⟩ := ih (max a x)
    rw [foldl_cons]
    refine ⟨⟨(le_max_left a x).trans hle, ?_⟩, ?_⟩
    · intro y hy
      rcases mem_cons.mp hy with rfl | hy
      · exact (le_max_right a y).trans hle
      · exact hall y hy
    · rcases hmem with h | h
      · rcases max_choice a x with hm | hm
        · exact .inl (h.trans hm)
        · exact .inr (by rw [h, hm]; simp)
      · exact .inr (by simp [h])

lemma foldl_min_spec (l : List ℤ) (a : ℤ) :
    (l.foldl min a ≤ a ∧ ∀ x ∈ l, l.foldl min a ≤ x) ∧
      (l.foldl min a = a ∨ l.foldl min a ∈ l) := foldl_max_spec (α := ℤᵒᵈ) l a

lemma priorityDiff_spec (hne : vals ≠ [])
    (hb : ∀ v ∈ vals, |v.proposerPriority| ≤ 3 * maxTotalVotingPower) :
    ∃ a ∈ vals, ∃ b ∈ vals, IsInt64 (maxPriority vals - minPriority vals) ∧
      computeMaxMinPriorityDiff vals = a.proposerPriority - b.proposerPriority ∧
      ∀ v ∈ vals, b.proposerPriority ≤ v.proposerPriority ∧
        v.proposerPriority ≤ a.proposerPriority := by
  obtain ⟨v₀, hv₀⟩ := exists_mem_of_ne_nil vals hne
  have hrange : minInt64 < v₀.proposerPriority ∧ v₀.proposerPriority < maxInt64 := by
    have := abs_le.mp (hb v₀ hv₀)
    unfold maxTotalVotingPower at this
    unfold minInt64 maxInt64
    omega
  obtain ⟨⟨-, hmax⟩, hmaxmem⟩ := foldl_max_spec (vals.map Validator.proposerPriority) minInt64
  obtain ⟨⟨-, hmin⟩, hminmem⟩ := foldl_min_spec (vals.map Validator.proposerPriority) maxInt64
  simp only [List.mem_map, forall_exists_index, and_imp, forall_apply_eq_imp_iff₂]
    at hmax hmin hmaxmem hminmem
  obtain ⟨a, ha, hamax⟩ : ∃ a ∈ vals, a.proposerPriority = maxPriority vals := by
    rcases hmaxmem with h | h
    · have := hmax v₀ hv₀
      omega
    · exact h
  obtain ⟨b, hb', hbmin⟩ : ∃ b ∈ vals, b.proposerPriority = minPriority vals := by
    rcases hminmem with h | h
    · have := hmin v₀ hv₀
      omega
    · exact h
  have hle : b.proposerPriority ≤ a.proposerPriority := by
    rw [hamax]
    exact hmax b hb'
  have hdiff : IsInt64 (maxPriority vals - minPriority vals) := by
    have h₁ := abs_le.mp (hb a ha)
    have h₂ := abs_le.mp (hb b hb')
    exact isInt64_of_abs (abs_le.mpr (by omega))
  refine ⟨a, ha, b, hb', hdiff, ?_, fun v hv => ?_⟩
  · unfold computeMaxMinPriorityDiff
    rw [wrap_eq hdiff, if_neg (by omega), hamax, hbmin]
  · rw [hbmin, hamax]
    exact ⟨hmin v hv, hmax v hv⟩

/-- Division brings numbers together. -/
lemma tdiv_sub_tdiv_le {a b r k : ℤ} (hr : 0 < r) (hk : 0 ≤ k) (h : a - b ≤ r * k) :
    a.tdiv r - b.tdiv r ≤ k := by
  have hneg : ∀ x : ℤ, x < 0 → x.tdiv r = -(-x / r) := by
    intro x hx
    rw [← Int.tdiv_eq_ediv_of_nonneg (by omega), Int.neg_tdiv, neg_neg]
  rcases lt_or_ge a 0 with ha | ha
  · rcases lt_or_ge b 0 with hb | hb
    · rw [hneg a ha, hneg b hb]
      have hle : -b / r ≤ -a / r + k := by
        rw [← Int.add_mul_ediv_right _ _ (by omega : r ≠ 0)]
        exact Int.ediv_le_ediv hr (by linarith [mul_comm r k])
      omega
    · have h1 := Int.tdiv_nonneg hb hr.le
      have h2 : 0 ≤ -a / r := Int.ediv_nonneg (by omega) hr.le
      rw [hneg a ha]
      omega
  · rw [Int.tdiv_eq_ediv_of_nonneg ha]
    rcases lt_or_ge b 0 with hb | hb
    · rw [hneg b hb]
      have hsum : a / r + -b / r ≤ (a + -b) / r := by
        rw [Int.le_ediv_iff_mul_le hr, add_mul]
        have h1 := Int.ediv_mul_le a (by omega : r ≠ 0)
        have h2 := Int.ediv_mul_le (-b) (by omega : r ≠ 0)
        omega
      have hle : (a + -b) / r ≤ k := by
        rw [Int.ediv_le_iff_le_mul hr]
        linarith [mul_comm r k]
      omega
    · rw [Int.tdiv_eq_ediv_of_nonneg hb]
      have hle : a / r ≤ b / r + k := by
        rw [← Int.add_mul_ediv_right _ _ (by omega : r ≠ 0)]
        exact Int.ediv_le_ediv hr (by linarith [mul_comm r k])
      omega

/-- Division by two or more halves a distance. -/
lemma two_mul_tdiv_sub_le {a b r : ℤ} (hr : 2 ≤ r) (h : b ≤ a) :
    2 * (a.tdiv r - b.tdiv r) ≤ a - b + 1 := by
  -- the distance is at most `k` after the division
  obtain ⟨k, hk⟩ : ∃ k, k = (a - b + r - 1) / r := ⟨_, rfl⟩
  have hmod := Int.emod_add_mul_ediv (a - b + r - 1) r
  have hnonneg := Int.emod_nonneg (a - b + r - 1) (by omega : r ≠ 0)
  have hlt := Int.emod_lt_of_pos (a - b + r - 1) (by omega : 0 < r)
  rw [← hk] at hmod
  have hk0 : 0 ≤ k := by
    rw [hk]
    exact Int.ediv_nonneg (by omega) (by omega)
  have hle : a.tdiv r - b.tdiv r ≤ k := tdiv_sub_tdiv_le (by omega) hk0 (by omega)
  have htwo : 2 * k ≤ a - b + 1 := by
    rcases hk0.eq_or_lt with h0 | hpos
    · omega
    · have hmul : 2 * (k - 1) ≤ r * (k - 1) := mul_le_mul_of_nonneg_right hr (by omega)
      have hexpand : r * (k - 1) = r * k - r := by ring
      omega
  omega

/-- What `RescalePriorities` divides by at twice the total. -/
def commonRatio (vals : List Validator) : ℤ :=
  if priorityWindowSizeFactor * sumPower vals < computeMaxMinPriorityDiff vals then
    rescaleRatio (priorityWindowSizeFactor * sumPower vals) vals
  else 1

def rescaled (vals : List Validator) : List Validator :=
  vals.map fun v => v.withPriority (v.proposerPriority.tdiv (commonRatio vals))

/-- The average of the rescaled priorities. -/
def commonShift (vals : List Validator) : ℤ := computeAvgProposerPriority (rescaled vals)

lemma rescalePriorities_spec (h : Sound vals) :
    1 ≤ commonRatio vals ∧
      rescalePriorities (priorityWindowSizeFactor * sumPower vals) vals = some (rescaled vals) ∧
      (∀ v ∈ rescaled vals, ∀ w ∈ rescaled vals,
        v.proposerPriority - w.proposerPriority ≤ 2 * sumPower vals) ∧
      (commonRatio vals = 1 ∨ 2 ≤ commonRatio vals ∧ ∃ a ∈ vals, ∃ b ∈ vals,
        2 * sumPower vals < a.proposerPriority - b.proposerPriority) := by
  obtain ⟨a, ha, b, hb, -, hdiff, hall⟩ := priorityDiff_spec h.nonempty h.bounded
  have hpos := h.sumPower_pos
  unfold rescaled commonRatio priorityWindowSizeFactor
  by_cases hfar : 2 * sumPower vals < computeMaxMinPriorityDiff vals
  · rw [if_pos hfar]
    obtain ⟨r, hr⟩ : ∃ r, r = rescaleRatio (2 * sumPower vals) vals := ⟨_, rfl⟩
    rw [← hr]
    have hwrap : wrap (computeMaxMinPriorityDiff vals + 2 * sumPower vals - 1) =
        computeMaxMinPriorityDiff vals + 2 * sumPower vals - 1 := by
      have h₁ := h.range ha
      have h₂ := h.range hb
      exact wrap_eq (isInt64_of_abs (abs_le.mpr (by omega)))
    have hratio : r = (computeMaxMinPriorityDiff vals + 2 * sumPower vals - 1) /
        (2 * sumPower vals) := by
      rw [hr, rescaleRatio, hwrap, Int.tdiv_eq_ediv_of_nonneg (by omega)]
    have hmod := Int.emod_add_mul_ediv (computeMaxMinPriorityDiff vals + 2 * sumPower vals - 1)
      (2 * sumPower vals)
    have hlt := Int.emod_lt_of_pos (computeMaxMinPriorityDiff vals + 2 * sumPower vals - 1)
      (by omega : 0 < 2 * sumPower vals)
    rw [← hratio] at hmod
    have hcover : computeMaxMinPriorityDiff vals ≤ r * (2 * sumPower vals) := by
      rw [mul_comm]
      omega
    have hr2 : 2 ≤ r := by
      rw [hratio, Int.le_ediv_iff_mul_le (by omega)]
      omega
    refine ⟨by omega, ?_, ?_, .inr ⟨hr2, a, ha, b, hb, by omega⟩⟩
    · rw [rescalePriorities, if_neg h.nonempty, if_neg (by omega), if_pos hfar, ← hr, if_neg (by omega)]
    · refine List.forall_mem_map.mpr fun v hv => List.forall_mem_map.mpr fun w hw => ?_
      refine tdiv_sub_tdiv_le (by omega) (by omega) ?_
      have hv' := hall v hv
      have hw' := hall w hw
      omega
  · rw [if_neg hfar]
    refine ⟨le_rfl, ?_, ?_, .inl rfl⟩
    · rw [rescalePriorities, if_neg h.nonempty, if_neg hfar]
      simp [Validator.withPriority]
    · refine List.forall_mem_map.mpr fun v hv => List.forall_mem_map.mpr fun w hw => ?_
      have hv' := hall v hv
      have hw' := hall w hw
      simp only [Int.tdiv_one, Validator.withPriority_proposerPriority]
      omega

/-! ## Centring -/

lemma computeAvg_between (hne : vals ≠ []) {a b : ℤ}
    (h : ∀ v ∈ vals, a ≤ v.proposerPriority ∧ v.proposerPriority ≤ b) :
    a ≤ computeAvgProposerPriority vals ∧ computeAvgProposerPriority vals ≤ b := by
  have hlen : (0 : ℤ) < vals.length := by
    have := length_pos_of_ne_nil hne
    omega
  have hlo := card_nsmul_le_sum (vals.map Validator.proposerPriority) a (by
    simpa using fun v hv => (h v hv).1)
  have hhi := sum_le_card_nsmul (vals.map Validator.proposerPriority) b (by
    simpa using fun v hv => (h v hv).2)
  simp only [length_map] at hlo hhi
  unfold computeAvgProposerPriority
  constructor
  · rw [Int.le_ediv_iff_mul_le hlen, mul_comm]
    exact hlo
  · calc (vals.map Validator.proposerPriority).sum / (vals.length : ℤ)
        ≤ (vals.length * b) / vals.length := Int.ediv_le_ediv hlen hhi
      _ = b := Int.mul_ediv_cancel_left _ (by omega)

/-- The average is not further from a priority than another one. -/
lemma abs_sub_computeAvg_le {d : ℤ}
    (h : ∀ v ∈ vals, ∀ w ∈ vals, v.proposerPriority - w.proposerPriority ≤ d) {v : Validator}
    (hv : v ∈ vals) : |v.proposerPriority - computeAvgProposerPriority vals| ≤ d := by
  have havg := computeAvg_between (ne_nil_of_mem hv) (a := v.proposerPriority - d)
    (b := v.proposerPriority + d) fun w hw => by
      have h₁ := h v hv w hw
      have h₂ := h w hw v hv
      omega
  rw [abs_le]
  omega

lemma shiftByAvgProposerPriority_eq {d : ℤ} (hd : d ≤ 8 * maxTotalVotingPower)
    (h : ∀ v ∈ vals, ∀ w ∈ vals, v.proposerPriority - w.proposerPriority ≤ d) :
    shiftByAvgProposerPriority vals = vals.map fun v =>
      v.withPriority (v.proposerPriority - computeAvgProposerPriority vals) :=
  map_congr_left fun v hv => by
    rw [safeSubClip_eq (isInt64_of_abs ((abs_sub_computeAvg_le h hv).trans hd))]

lemma center_spec (h : Sound vals) :
    1 ≤ commonRatio vals ∧
      ValidatorSet.center vals = some (vals.map fun v =>
        v.withPriority (v.proposerPriority.tdiv (commonRatio vals) - commonShift vals)) ∧
      (∀ v ∈ vals, |v.proposerPriority.tdiv (commonRatio vals) - commonShift vals| ≤
        2 * sumPower vals) ∧
      (commonRatio vals = 1 ∨ 2 ≤ commonRatio vals ∧ ∃ a ∈ vals, ∃ b ∈ vals,
        2 * sumPower vals < a.proposerPriority - b.proposerPriority) := by
  obtain ⟨hr, hrescale, hclose, hfar⟩ := rescalePriorities_spec h
  have htotal := h.total
  have hpos := h.sumPower_pos
  refine ⟨hr, ?_, fun v hv => abs_sub_computeAvg_le hclose (List.mem_map_of_mem hv), hfar⟩
  unfold ValidatorSet.center
  rw [h.totalVotingPower]
  simp only [bind_eq_bind, bind_some, hrescale]
  rw [shiftByAvgProposerPriority_eq (by omega) hclose]
  unfold rescaled
  rw [List.map_map]
  rfl

/-! ## What stays -/

/-- The validators without their priorities. -/
def bare (vals : List Validator) : List Validator := vals.map fun v => v.withPriority 0

@[simp] lemma bare_map (vals : List Validator) (f : Validator → ℤ) :
    bare (vals.map fun v => v.withPriority (f v)) = bare vals := by
  unfold bare
  rw [List.map_map]
  rfl

@[simp] lemma length_bare (vals : List Validator) : (bare vals).length = vals.length :=
  length_map _

variable {vals' : List Validator}

lemma rescalePriorities_bare {diffMax : ℤ}
    (h : rescalePriorities diffMax vals = some vals') : bare vals' = bare vals := by
  unfold rescalePriorities at h
  split_ifs at h
  · rw [← Option.some.inj h]
  · rw [← Option.some.inj h]
    exact bare_map vals _
  · rw [← Option.some.inj h]

lemma center_bare (h : ValidatorSet.center vals = some vals') :
    bare vals' = bare vals := by
  obtain ⟨total, -, h⟩ := bind_eq_some_iff.mp h
  obtain ⟨rescaled, hrescale, h⟩ := bind_eq_some_iff.mp h
  rw [← Option.some.inj h, shiftByAvgProposerPriority, bare_map, rescalePriorities_bare hrescale]

@[simp]
lemma pay_bare (total : ℤ) (vals : List Validator) (i : ℕ) : bare (pay total vals i) = bare vals := by
  unfold bare pay
  apply ext_getElem?
  intro j
  simp only [getElem?_map, getElem?_modify]
  by_cases hij : i = j
  · subst hij
    cases vals[i]? <;> simp [Validator.withPriority]
  · simp [hij]

lemma incrementOnce_bare {total : ℤ} {k : ℕ}
    (h : incrementOnce total vals = some (vals', k)) : bare vals' = bare vals := by
  obtain ⟨m, -, hpair⟩ := map_eq_some_iff.mp h
  cases hpair
  rw [pay_bare, raise, bare_map]

lemma powers_of_bare (heq : bare vals' = bare vals) :
    vals'.map Validator.votingPower = vals.map Validator.votingPower := by
  simpa [bare, Function.comp_def] using congrArg (List.map Validator.votingPower) heq

lemma sumPower_of_bare (heq : bare vals' = bare vals) : sumPower vals' = sumPower vals :=
  congrArg List.sum (powers_of_bare heq)

lemma length_of_bare (heq : bare vals' = bare vals) : vals'.length = vals.length := by
  rw [← length_bare, heq, length_bare]

lemma power_of_bare (heq : bare vals' = bare vals) (h : ∀ v ∈ vals, 0 < v.votingPower) :
    ∀ v ∈ vals', 0 < v.votingPower := by
  rw [← List.forall_mem_map (P := (0 < ·))] at h ⊢
  rwa [powers_of_bare heq]

lemma Sound.of_bare (h : Sound vals) (heq : bare vals' = bare vals)
    (hbounded : ∀ v ∈ vals', |v.proposerPriority| ≤ 3 * maxTotalVotingPower) : Sound vals' := by
  have hlength := length_of_bare heq
  refine ⟨?_, power_of_bare heq h.power, (sumPower_of_bare heq).trans_le h.total, hbounded⟩
  rw [← length_pos_iff_ne_nil, hlength, length_pos_iff_ne_nil]
  exact h.nonempty

/-! ## A turn -/

/-- The chosen place is one of the list and no priority is larger. -/
lemma mostPriority_spec {l : List Validator} {best i k : ℕ} {b : Validator} {p vs : List Validator}
    (hl : l = p ++ vs) (hi : i = p.length) (hb : l[best]? = some b)
    (hpre : ∀ v ∈ p, v.proposerPriority ≤ b.proposerPriority)
    (h : mostPriority best b i vs = some k) :
    ∃ m, l[k]? = some m ∧ ∀ v ∈ l, v.proposerPriority ≤ m.proposerPriority := by
  induction vs generalizing best i b p with
  | nil =>
    obtain rfl : best = k := by simpa [mostPriority] using h
    refine ⟨b, hb, ?_⟩
    rw [hl, append_nil]
    exact hpre
  | cons v vs ih =>
    have hl' : l = (p ++ [v]) ++ vs := by rw [hl, append_assoc, singleton_append]
    have hlen : i + 1 = (p ++ [v]).length := by simp [hi]
    have hv : l[i]? = some v := by simp [hl, hi]
    obtain ⟨keep, hcmp, h⟩ := bind_eq_some_iff.mp h
    unfold Validator.compareProposerPriority at hcmp
    cases keep with
    | true =>
      have hle : v.proposerPriority ≤ b.proposerPriority := by
        split_ifs at hcmp <;> first | omega | simp at hcmp
      refine ih hl' hlen hb ?_ h
      intro w hw
      rcases mem_append.mp hw with hw | hw
      · exact hpre w hw
      · rw [mem_singleton.mp hw]
        exact hle
    | false =>
      have hle : b.proposerPriority ≤ v.proposerPriority := by
        split_ifs at hcmp <;> first | omega | simp at hcmp
      refine ih hl' hlen hv ?_ h
      intro w hw
      rcases mem_append.mp hw with hw | hw
      · exact (hpre w hw).trans hle
      · rw [mem_singleton.mp hw]

lemma getValWithMostPriority_spec {l : List Validator} {k : ℕ}
    (h : getValWithMostPriority l = some k) :
    ∃ m, l[k]? = some m ∧ ∀ v ∈ l, v.proposerPriority ≤ m.proposerPriority := by
  cases l with
  | nil => simp [getValWithMostPriority] at h
  | cons v vs =>
    exact mostPriority_spec (p := [v]) rfl rfl rfl (by simp) h

section Turn

variable {vals vals' : List Validator} {k : ℕ}

/-- Nothing that a turn may compute is clipped. -/
def Unclipped (vals : List Validator) : Prop :=
  ∀ v ∈ vals, IsInt64 (v.proposerPriority + v.votingPower) ∧
    IsInt64 (v.proposerPriority + v.votingPower - sumPower vals)

lemma Sound.unclipped (h : Sound vals) : Unclipped vals := by
  intro v hv
  have := h.range hv
  exact ⟨isInt64_of_abs (abs_le.mpr (by omega)), isInt64_of_abs (abs_le.mpr (by omega))⟩

lemma raise_eq (h : Unclipped vals) :
    raise vals = vals.map fun v => v.withPriority (v.proposerPriority + v.votingPower) :=
  map_congr_left fun v hv => by rw [safeAddClip_eq (h v hv).1]

/-- Everyone gains their power and the first pays the total. -/
lemma incrementOnce_spec (h : Unclipped vals)
    (honce : incrementOnce (sumPower vals) vals = some (vals', k)) :
    ∃ m, vals[k]? = some m ∧
      (∀ v ∈ vals, v.proposerPriority + v.votingPower ≤ m.proposerPriority + m.votingPower) ∧
      ∀ i : ℕ, vals'[i]? = (vals[i]?).map fun v => v.withPriority
        (v.proposerPriority + v.votingPower - if i = k then sumPower vals else 0) := by
  obtain ⟨j, hj, hpair⟩ := map_eq_some_iff.mp honce
  obtain ⟨hpaid, rfl⟩ := Prod.mk.inj hpair
  have hraise := raise_eq h
  obtain ⟨m', hm', hmax⟩ := getValWithMostPriority_spec hj
  rw [hraise, getElem?_map] at hm'
  obtain ⟨m, hm, rfl⟩ := map_eq_some_iff.mp hm'
  refine ⟨m, hm, ?_, ?_⟩
  · intro v hv
    have hle := hmax (v.withPriority (v.proposerPriority + v.votingPower)) (by
      rw [hraise]
      exact List.mem_map_of_mem hv)
    simpa using hle
  · intro i
    rw [← hpaid, pay, getElem?_modify, hraise, getElem?_map]
    cases hv : vals[i]? with
    | none => rfl
    | some v =>
      by_cases hik : j = i
      · have hclip := safeSubClip_eq (h v (mem_of_getElem? hv)).2
        simp [hik, hclip, Validator.withPriority]
      · simp [hik, Ne.symm hik]

/-- A turn moves the priorities of two validators or more. -/
lemma incrementOnce_ne (h : Sound vals) (hlen : 2 ≤ vals.length)
    (honce : incrementOnce (sumPower vals) vals = some (vals', k)) : vals' ≠ vals := by
  rintro rfl
  obtain ⟨m, -, -, hall⟩ := incrementOnce_spec h.unclipped honce
  obtain ⟨i, hi, hik⟩ : ∃ i, i < vals'.length ∧ i ≠ k := by
    by_cases hk : k = 0
    · exact ⟨1, by omega, by omega⟩
    · exact ⟨0, by omega, by omega⟩
  have hi' := hall i
  rw [getElem?_eq_getElem hi] at hi'
  have hp := h.power _ (getElem_mem hi)
  have hprio := congrArg Validator.proposerPriority (Option.some.inj hi')
  rw [Validator.withPriority_proposerPriority] at hprio
  omega

/-- A turn after centring stays in range. -/
lemma Sound.incrementOnce (h : Sound vals)
    (hb : ∀ v ∈ vals, |v.proposerPriority| ≤ 2 * sumPower vals)
    (honce : incrementOnce (sumPower vals) vals = some (vals', k)) : Sound vals' := by
  obtain ⟨m, -, -, hall⟩ := incrementOnce_spec h.unclipped honce
  refine h.of_bare (incrementOnce_bare honce) fun w hw => ?_
  obtain ⟨i, hi⟩ := mem_iff_getElem?.mp hw
  rw [hall i] at hi
  obtain ⟨v, hv, rfl⟩ := map_eq_some_iff.mp hi
  have hmem := mem_of_getElem? hv
  have := h.range hmem
  have habs := abs_le.mp (hb v hmem)
  rw [Validator.withPriority_proposerPriority, abs_le]
  split_ifs <;> omega

end Turn

/-! ## Sets -/

section Sets

variable {vs vs' : ValidatorSet} {vals centered : List Validator}

lemma center_bounded (h : Sound vals) (hc : ValidatorSet.center vals = some centered) :
    ∀ v ∈ centered, |v.proposerPriority| ≤ 2 * sumPower centered := by
  obtain ⟨-, hcenter, hbound, -⟩ := center_spec h
  rw [sumPower_of_bare (center_bare hc)]
  obtain rfl := Option.some.inj (hc.symm.trans hcenter)
  exact List.forall_mem_map.mpr hbound

lemma Sound.of_center (h : Sound vals)
    (hc : ValidatorSet.center vals = some centered) : Sound centered := by
  refine h.of_bare (center_bare hc) fun v hv => ?_
  have := center_bounded h hc v hv
  have := sumPower_of_bare (center_bare hc)
  have := h.total
  have := h.sumPower_pos
  omega

lemma incrementProposerPriority_turns (h : Sound vs.validators) {n : ℤ} (hn : 0 < n)
    (hc : ValidatorSet.center vs.validators = some centered) :
    vs.incrementProposerPriority n =
      (incrementTimes (sumPower centered) n.toNat centered 0).map fun r => ⟨r.1, r.1[r.2]?⟩ := by
  unfold ValidatorSet.incrementProposerPriority
  rw [if_neg h.nonempty, if_neg (by omega), h.totalVotingPower, hc, sumPower_of_bare (center_bare hc)]
  exact (map_eq_bind ..).symm

lemma incrementProposerPriority_one (h : Sound vs.validators)
    (hinc : vs.incrementProposerPriority 1 = some vs') :
    ∃ centered k, ValidatorSet.center vs.validators = some centered ∧
      incrementOnce (sumPower centered) centered = some (vs'.validators, k) ∧
      vs'.proposer = vs'.validators[k]? := by
  obtain ⟨-, hc, -⟩ := center_spec h
  rw [incrementProposerPriority_turns h one_pos hc] at hinc
  obtain ⟨⟨vals, k⟩, htimes, rfl⟩ := map_eq_some_iff.mp hinc
  obtain ⟨r, honce, hlast⟩ := bind_eq_some_iff.mp htimes
  obtain rfl : r = (vals, k) := Option.some.inj hlast
  exact ⟨_, k, hc, honce, rfl⟩

lemma Sound.incrementProposerPriority (h : Sound vs.validators)
    (hinc : vs.incrementProposerPriority 1 = some vs') : Sound vs'.validators := by
  obtain ⟨centered, k, hc, honce, -⟩ := incrementProposerPriority_one h hinc
  exact (h.of_center hc).incrementOnce (center_bounded h hc) honce

/-- Two turns and one turn do not agree. -/
lemma incrementProposerPriority_two_ne {vs₁ vs₂ : ValidatorSet} (h : Sound vs.validators)
    (hlen : 2 ≤ vs.validators.length) (h₁ : vs.incrementProposerPriority 1 = some vs₁)
    (h₂ : vs.incrementProposerPriority 2 = some vs₂) : vs₂.validators ≠ vs₁.validators := by
  obtain ⟨centered, k, hc, honce, -⟩ := incrementProposerPriority_one h h₁
  rw [incrementProposerPriority_turns h two_pos hc] at h₂
  obtain ⟨⟨vals, k'⟩, htimes, rfl⟩ := map_eq_some_iff.mp h₂
  obtain ⟨⟨mid, j⟩, honce', hrest⟩ := bind_eq_some_iff.mp htimes
  obtain ⟨r, htwice, hlast⟩ := bind_eq_some_iff.mp hrest
  obtain rfl : r = (vals, k') := Option.some.inj hlast
  obtain ⟨rfl, rfl⟩ := Prod.mk.inj (Option.some.inj (honce.symm.trans honce'))
  have hbare := incrementOnce_bare honce
  rw [← sumPower_of_bare hbare] at htwice
  refine incrementOnce_ne ((h.of_center hc).incrementOnce (center_bounded h hc) honce) ?_ htwice
  rw [length_of_bare hbare, length_of_bare (center_bare hc)]
  exact hlen

lemma incrementProposerPriority_ne (h : Sound vs.validators) (hlen : 2 ≤ vs.validators.length)
    (hinc : vs.incrementProposerPriority 1 = some vs') : vs'.validators ≠ vs.validators := by
  intro hsame
  obtain ⟨centered, k, hc, honce, -⟩ := incrementProposerPriority_one h hinc
  have hsum := sumPower_of_bare (center_bare hc)
  rw [hsame] at honce
  obtain ⟨m', hm', hmax', hall'⟩ := incrementOnce_spec (h.of_center hc).unclipped honce
  obtain ⟨-, hcenter, -, hfar⟩ := center_spec h
  generalize commonRatio vs.validators = r at hcenter hfar
  generalize commonShift vs.validators = c at hcenter
  obtain rfl := Option.some.inj (hc.symm.trans hcenter)
  rw [getElem?_map] at hm'
  obtain ⟨m, hm, rfl⟩ := map_eq_some_iff.mp hm'
  -- every priority is what the turn makes of it
  have hall : ∀ (i : ℕ) (v : Validator), vs.validators[i]? = some v →
      v.proposerPriority = v.proposerPriority.tdiv r - c + v.votingPower -
        if i = k then sumPower vs.validators else 0 := by
    intro i v hv
    have hi := hall' i
    rw [getElem?_map, hv, hsum] at hi
    exact congrArg Validator.proposerPriority (Option.some.inj hi)
  have hmax : ∀ v ∈ vs.validators, v.proposerPriority.tdiv r + v.votingPower ≤
      m.proposerPriority.tdiv r + m.votingPower := by
    intro v hv
    have := hmax' _ (List.mem_map_of_mem hv)
    simp only [Validator.withPriority_proposerPriority, Validator.withPriority_votingPower] at this
    omega
  have hk := hall k m hm
  rw [if_pos rfl] at hk
  rcases hfar with rfl | ⟨hr, a, ha, b, hb, hd⟩
  · -- without division the average would be both positive and negative
    obtain ⟨i, hi, hik⟩ : ∃ i, i < vs.validators.length ∧ i ≠ k := by
      by_cases hk0 : k = 0
      · exact ⟨1, by omega, by omega⟩
      · exact ⟨0, by omega, by omega⟩
    have hv := getElem?_eq_getElem hi
    have hother := hall i _ hv
    have hpos := h.power _ (getElem_mem hi)
    have htwo := add_votingPower_le h.power hik hv hm
    simp only [Int.tdiv_one] at hk hother
    omega
  · -- with it the distance would shrink below what made it necessary
    obtain ⟨i, hi⟩ := mem_iff_getElem?.mp ha
    obtain ⟨j, hj⟩ := mem_iff_getElem?.mp hb
    have hha := hall i a hi
    have hhb := hall j b hj
    have hra := h.range ha
    have hrb := h.range hb
    have hhalf := two_mul_tdiv_sub_le hr (by omega : b.proposerPriority ≤ a.proposerPriority)
    by_cases hjk : j = k
    · obtain rfl : b = m := Option.some.inj (hj.symm.trans (hjk ▸ hm))
      have := hmax a ha
      split_ifs at hha <;> omega
    · split_ifs at hha <;> omega

lemma incrementTimes_bare {vals' : List Validator} {total : ℤ} {n i i' : ℕ}
    (h : incrementTimes total n vals i = some (vals', i')) : bare vals' = bare vals := by
  induction n generalizing vals i with
  | zero =>
    cases h
    rfl
  | succ n ih =>
    obtain ⟨⟨mid, j⟩, honce, hrest⟩ := bind_eq_some_iff.mp h
    exact (ih hrest).trans (incrementOnce_bare honce)

lemma incrementProposerPriority_bare {n : ℤ} (h : vs.incrementProposerPriority n = some vs') :
    bare vs'.validators = bare vs.validators := by
  unfold ValidatorSet.incrementProposerPriority at h
  split_ifs at h
  obtain ⟨total, -, h⟩ := bind_eq_some_iff.mp h
  obtain ⟨centered, hcenter, h⟩ := bind_eq_some_iff.mp h
  obtain ⟨⟨vals, i⟩, hinc, h⟩ := bind_eq_some_iff.mp h
  cases h
  exact (incrementTimes_bare hinc).trans (center_bare hcenter)

lemma incrementProposerPriority_length {n : ℤ} (h : vs.incrementProposerPriority n = some vs') :
    vs'.validators.length = vs.validators.length :=
  length_of_bare (incrementProposerPriority_bare h)

/-! ### One validator -/

/-- The only validator is the proposer, and its priority is zero. -/
def Settled (vs : ValidatorSet) : Prop :=
  vs.validators.length = 1 ∧ vs.proposer = vs.validators.head? ∧
    ∀ v ∈ vs.validators, v.proposerPriority = 0

instance settled_decidable (vs : ValidatorSet) : Decidable (Settled vs) :=
  inferInstanceAs (Decidable (_ ∧ _ ∧ _))

lemma center_single {v : Validator} (h : Sound [v]) :
    ValidatorSet.center [v] = some [v.withPriority 0] := by
  obtain ⟨a, ha, b, hb, -, hdiff, -⟩ := priorityDiff_spec h.nonempty h.bounded
  rw [mem_singleton.mp ha, mem_singleton.mp hb] at hdiff
  have hpos := h.sumPower_pos
  have hrescale : rescalePriorities (priorityWindowSizeFactor * sumPower [v]) [v] = some [v] := by
    unfold priorityWindowSizeFactor
    rw [rescalePriorities, if_neg h.nonempty, if_neg (by omega), if_neg (by omega)]
  have hshift : shiftByAvgProposerPriority [v] = [v.withPriority 0] := by
    have havg : computeAvgProposerPriority [v] = v.proposerPriority := by
      simp [computeAvgProposerPriority]
    have hsub : safeSubClip v.proposerPriority v.proposerPriority = 0 := by
      rw [safeSubClip_eq (by simp [IsInt64, minInt64, maxInt64]), sub_self]
    rw [shiftByAvgProposerPriority, map_singleton, havg, hsub]
  unfold ValidatorSet.center
  rw [h.totalVotingPower]
  simp only [bind_eq_bind, bind_some, hrescale, hshift]

lemma incrementTimes_single {v : Validator} (h : Sound [v]) (n k : ℕ) (hk : n = 0 → k = 0) :
    incrementTimes (sumPower [v]) n [v.withPriority 0] k = some ([v.withPriority 0], 0) := by
  have := h.range (mem_singleton_self v)
  have hsum : sumPower [v] = v.votingPower := by simp [sumPower]
  have honce : incrementOnce (sumPower [v]) [v.withPriority 0] = some ([v.withPriority 0], 0) := by
    have hadd : safeAddClip 0 v.votingPower = v.votingPower := by
      rw [safeAddClip_eq (isInt64_of_abs (abs_le.mpr (by omega))), zero_add]
    have hsub : safeSubClip v.votingPower v.votingPower = 0 := by
      rw [safeSubClip_eq (by simp [IsInt64, minInt64, maxInt64]), sub_self]
    simp [incrementOnce, raise, pay, getValWithMostPriority, mostPriority, hadd, hsum, hsub,
      Validator.withPriority]
  induction n generalizing k with
  | zero => rw [incrementTimes, hk rfl]
  | succ n ih =>
    rw [incrementTimes, honce]
    exact ih 0 fun _ => rfl

/-- All increments of a single validator are the same. -/
lemma incrementProposerPriority_single {v : Validator} (h : Sound vs.validators)
    (hv : vs.validators = [v]) {n : ℤ} (hn : 0 < n) :
    vs.incrementProposerPriority n = some ⟨[v.withPriority 0], some (v.withPriority 0)⟩ := by
  have hsole := hv ▸ h
  rw [incrementProposerPriority_turns h hn (hv ▸ center_single hsole)]
  exact congrArg (Option.map _) (incrementTimes_single hsole _ _ (by omega))

lemma settled_iff : Settled vs ↔
    ∃ v : Validator, v.proposerPriority = 0 ∧ vs = ⟨[v], some v⟩ := by
  constructor
  · rintro ⟨hlen, hproposer, hzero⟩
    obtain ⟨v, hv⟩ := length_eq_one_iff.mp hlen
    rw [hv] at hproposer hzero
    refine ⟨v, hzero v (by simp), ?_⟩
    obtain ⟨validators, proposer⟩ := vs
    obtain rfl : validators = [v] := hv
    obtain rfl : proposer = some v := hproposer
    rfl
  · rintro ⟨v, hzero, rfl⟩
    simp [Settled, hzero]

lemma Settled.incrementProposerPriority (hsettled : Settled vs) (h : Sound vs.validators) {n : ℤ}
    (hn : 0 < n) : vs.incrementProposerPriority n = some vs := by
  obtain ⟨v, hzero, rfl⟩ := settled_iff.mp hsettled
  rw [incrementProposerPriority_single h rfl hn]
  have hv : v.withPriority 0 = v := by
    rw [← hzero]
    rfl
  rw [hv]

/-- Only a settled set is left as it is. -/
lemma settled_of_incrementProposerPriority (h : Sound vs.validators)
    (hinc : vs.incrementProposerPriority 1 = some vs) : Settled vs := by
  have hlen : vs.validators.length = 1 := by
    have hpos := length_pos_of_ne_nil h.nonempty
    by_contra hne
    exact incrementProposerPriority_ne h (by omega) hinc rfl
  obtain ⟨v, hv⟩ := length_eq_one_iff.mp hlen
  rw [incrementProposerPriority_single h hv one_pos] at hinc
  rw [← Option.some.inj hinc, settled_iff]
  exact ⟨_, rfl, rfl⟩

lemma settled_of_single (h : Sound vs.validators) (hlen : vs.validators.length = 1)
    (hinc : vs.incrementProposerPriority 1 = some vs') : Settled vs' := by
  obtain ⟨v, hv⟩ := length_eq_one_iff.mp hlen
  rw [incrementProposerPriority_single h hv one_pos] at hinc
  rw [← Option.some.inj hinc, settled_iff]
  exact ⟨_, rfl, rfl⟩

end Sets

end ShardingBC.Rotation
