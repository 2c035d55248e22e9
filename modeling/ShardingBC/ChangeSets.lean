import ShardingBC.ValidatorUpdates

/-!
# Change sets as changes of a map

A validator set is a map from addresses to powers, kept as a list with its total.
`UpdateWithChangeSet` overwrites the map, or returns an error and leaves everything as it was. What
it accepts depends on the totals between the updates.
-/
namespace ShardingBC.Rotation

open List Option

/-! ## Sets with their total -/

/-- A validator set with its total. The proposer is a pointer, into the list or to a validator that
has been replaced. -/
structure CachedSet extends ValidatorSet where
  cached : ℤ
  listed : Bool
deriving DecidableEq

namespace CachedSet

/-- `TotalVotingPower`, which computes the total if it is zero. -/
def fillTotal (c : CachedSet) : Option CachedSet :=
  if c.cached = 0 then
    (totalVotingPower c.validators).map fun total => { c with cached := total }
  else some c

def incrementProposerPriority (c : CachedSet) (times : ℤ) : Option CachedSet :=
  if c.validators = [] then none
  else if times ≤ 0 then none
  else do
    let c ← c.fillTotal
    let rescaled ← rescalePriorities (priorityWindowSizeFactor * c.cached) c.validators
    let (vals, i) ← incrementTimes c.cached times.toNat (shiftByAvgProposerPriority rescaled) 0
    some ⟨⟨vals, vals[i]?⟩, c.cached, true⟩

/-- Changes replace validators, so the pointer is still into the list if none is for the
proposer. -/
def staysListed (c : CachedSet) (changes : List Validator) : Bool :=
  c.listed && c.proposer.any fun p => changes.all fun u => u.address ≠ p.address

/-- What `updateWithChangeSet` does after all checks. -/
def applyChanges (c : CachedSet) (updates deletes : List Validator) (updatedTotal : ℤ) :
    Option CachedSet := do
  let vals ← applyRemovals
    (applyUpdates c.validators (computeNewPriorities c.validators updates updatedTotal)) deletes
  let total ← totalVotingPower vals
  let centered ← ValidatorSet.center vals
  let listed := c.staysListed (updates ++ deletes)
  -- the list's validators are rescaled and shifted in place, and the proposer with them
  let proposer := if listed then c.proposer.bind fun p => getByAddress centered p.address
    else c.proposer
  some ⟨⟨centered, proposer⟩, total, listed⟩

/-- The error, if there is one, and the set after the call. -/
def updateWithChanges (c : CachedSet) (changes : List Validator) (allowDeletes : Bool) :
    Option (Option ChangeError × CachedSet) :=
  if changes = [] then some (none, c)
  else match processChanges changes with
    | .error e => some (some e, c)
    | .ok (updates, deletes) =>
      if !allowDeletes ∧ deletes ≠ [] then some (some .deletesNotAllowed, c)
      else if !verifyRemovals c.validators deletes then some (some .notFound, c)
      else if c.validators.length < deletes.length then none
      else c.fillTotal.bind fun c =>
        match verifyUpdates c.validators updates c.cached with
        | .error e => some (some e, c)
        | .ok (updatedTotal, numNew) =>
          if numNew = 0 ∧ c.validators.length = deletes.length then some (some .emptySet, c)
          else (c.applyChanges updates deletes updatedTotal).map fun c => (none, c)

def updateWithChangeSet (c : CachedSet) (changes : List Validator) :
    Option (Option ChangeError × CachedSet) := c.updateWithChanges changes true

/-- `NewValidatorSet` -/
def new (valz : List Validator) : Option CachedSet :=
  match updateWithChanges ⟨.empty, 0, false⟩ valz false with
  | some (none, c) => if valz = [] then some c else c.incrementProposerPriority 1
  | _ => none

/-- The sets that the operations make. -/
inductive Reachable : CachedSet → Prop
  | new {valz : List Validator} {c : CachedSet} (h : new valz = some c) : Reachable c
  | update {c c' : CachedSet} {changes : List Validator} {err : Option ChangeError}
      (hc : Reachable c) (h : c.updateWithChangeSet changes = some (err, c')) : Reachable c'
  | increment {c c' : CachedSet} {times : ℤ} (hc : Reachable c)
      (h : c.incrementProposerPriority times = some c') : Reachable c'

end CachedSet

/-! ## The map -/

/-- The power at an address, if there is a validator. -/
def powerOf (vals : List Validator) (a : Bytes) : Option ℤ :=
  (getByAddress vals a).map Validator.votingPower

/-- Changes with power zero delete, the others overwrite. -/
def overwrite (powers : Bytes → Option ℤ) (changes : List Validator) (a : Bytes) : Option ℤ :=
  match getByAddress changes a with
  | none => powers a
  | some u => if u.votingPower = 0 then none else some u.votingPower

/-- A list that is such a map, with a total in range. -/
structure Regular (vals : List Validator) : Prop where
  sorted : ByAddress vals
  power : ∀ v ∈ vals, 0 < v.votingPower
  total : sumPower vals ≤ maxTotalVotingPower

/-- The priority before rescaling and shifting. -/
def entryPriority (vals changes : List Validator) (a : Bytes) : ℤ :=
  (getByAddress vals a).elim
    (newPriority (sumPower vals + gain vals (changes.filter (·.votingPower ≠ 0))))
    Validator.proposerPriority

/-- The members before rescaling and shifting. -/
def entered (vals changes vals' : List Validator) : List Validator :=
  vals'.map fun v => v.withPriority (entryPriority vals changes v.address)

/-- What accepted changes make of a list. The shift clips only what is no `int64`, which priorities
in their range never become. -/
structure Overwritten (vals changes vals' : List Validator) : Prop where
  regular : Regular vals'
  powers : ∀ a, powerOf vals' a = overwrite (powerOf vals) changes a
  unchanged : changes = [] → vals' = vals
  ratio : changes ≠ [] → commonRatio (entered vals changes vals') ≠ 0
  priorities : changes ≠ [] → ∀ v ∈ vals', v.proposerPriority =
    safeSubClip
      ((entryPriority vals changes v.address).tdiv (commonRatio (entered vals changes vals')))
      (commonShift (entered vals changes vals'))
  unclipped : changes ≠ [] → (∀ v ∈ vals, |v.proposerPriority| ≤ 3 * maxTotalVotingPower) →
    1 ≤ commonRatio (entered vals changes vals') ∧ ∀ v ∈ vals', v.proposerPriority =
      (entryPriority vals changes v.address).tdiv (commonRatio (entered vals changes vals')) -
        commonShift (entered vals changes vals')

@[simp] lemma powerOf_bare (vals : List Validator) : powerOf (bare vals) = powerOf vals := by
  funext a
  simp only [powerOf, getByAddress, bare, find?_map, Option.map_map]
  rfl

/-- Priorities do not matter. -/
lemma Regular.of_bare {vals vals' : List Validator} (h : Regular vals)
    (heq : bare vals' = bare vals) : Regular vals' := by
  have haddress : vals'.map Validator.address = vals.map Validator.address := by
    simpa [bare, Function.comp_def] using congrArg (List.map Validator.address) heq
  have hsorted := pairwise_map.mpr h.sorted
  rw [← haddress] at hsorted
  exact ⟨pairwise_map.mp hsorted, power_of_bare heq h.power,
    (sumPower_of_bare heq).trans_le h.total⟩

lemma Overwritten.refl {vals : List Validator} (h : Regular vals) : Overwritten vals [] vals :=
  ⟨h, fun _ => rfl, fun _ => rfl, absurd rfl, absurd rfl, absurd rfl⟩

lemma entered_map {vals changes vals' : List Validator}
    (h : ∀ v ∈ vals', v.proposerPriority = entryPriority vals changes v.address) (f : ℤ → ℤ) :
    entered vals changes (vals'.map fun v => v.withPriority (f v.proposerPriority)) = vals' := by
  unfold entered
  rw [List.map_map]
  exact (map_congr_left fun v hv => congrArg v.withPriority (h v hv).symm).trans (map_id vals')

section Changed

variable {vals changes updates deletes : List Validator} {t : ℤ} {v : Validator}

lemma powerOf_changed (hvals : ByAddress vals) (hsplit : Split changes updates deletes)
    (a : Bytes) :
    powerOf (changed vals updates deletes t) a = overwrite (powerOf vals) changes a := by
  have hsorted := changed_sorted deletes t hvals hsplit.sortedUpdates
  have hmem : ∀ u, u ∈ changes ↔ u ∈ updates ∨ u ∈ deletes := fun u => by
    rw [← hsplit.perm.mem_iff, mem_append]
  unfold powerOf overwrite
  cases hget : getByAddress changes a with
  | none =>
    have hnot : ∀ u ∈ changes, u.address ≠ a := by
      simpa [getByAddress] using hget
    refine congrArg (Option.map _) (Option.ext fun v => ?_)
    rw [getByAddress_eq_some_iff hsorted, getByAddress_eq_some_iff hvals,
      mem_changed hvals hsplit.sortedUpdates]
    constructor
    · rintro ⟨⟨hnew | ⟨hv, -⟩, -⟩, rfl⟩
      · obtain ⟨u, hu, rfl⟩ := List.mem_map.mp hnew
        exact absurd rfl (hnot u ((hmem u).mpr (.inl hu)))
      · exact ⟨hv, rfl⟩
    · rintro ⟨hv, rfl⟩
      refine ⟨⟨.inr ⟨hv, fun h => ?_⟩, fun h => ?_⟩, rfl⟩
      · obtain ⟨u, hu, heq⟩ := List.mem_map.mp h
        exact hnot u ((hmem u).mpr (.inl hu)) heq
      · obtain ⟨u, hu, heq⟩ := List.mem_map.mp h
        exact hnot u ((hmem u).mpr (.inr hu)) heq
  | some u =>
    obtain rfl : u.address = a := by simpa using find?_some hget
    rcases (hmem u).mp (mem_of_find?_eq_some hget) with hu | hu
    · have hfind : getByAddress (changed vals updates deletes t) u.address = some _ :=
        (getByAddress_eq_some_iff hsorted).mpr ⟨update_mem_changed hvals hsplit hu, rfl⟩
      have hpos := hsplit.pos u hu
      rw [hfind]
      exact (if_neg (by omega)).symm
    · have hnone : getByAddress (changed vals updates deletes t) u.address = none := by
        refine eq_none_iff_forall_ne_some.mpr fun v hv => ?_
        obtain ⟨hv, haddress⟩ := (getByAddress_eq_some_iff hsorted).mp hv
        refine ((mem_changed hvals hsplit.sortedUpdates).mp hv).2 ?_
        exact haddress ▸ List.mem_map_of_mem hu
      rw [hnone]
      exact (if_pos (hsplit.zero u hu)).symm


lemma sumPower_changed_le (hvals : Regular vals) (hsplit : Split changes updates deletes)
    {r : ℤ × ℕ} (h : verifyUpdates vals updates (sumPower vals) = .ok r) :
    sumPower (changed vals updates deletes t) ≤ maxTotalVotingPower := by
  obtain ⟨hsorted, hperm⟩ :=
    applyUpdates_spec hvals.sorted (computeNewPriorities_sorted (t := t) hsplit.sortedUpdates)
  have hpowers : sumPower (computeNewPriorities vals updates t) = sumPower updates := by
    unfold sumPower computeNewPriorities
    rw [List.map_map]
    rfl
  have hmerged : sumPower (applyUpdates vals (computeNewPriorities vals updates t)) =
      sumPower updates + sumPower (untouched vals updates) := by
    rw [← hpowers, sumPower, (hperm.map Validator.votingPower).sum_eq, map_append,
      sum_append, untouched, address_computeNewPriorities]
    rfl
  obtain ⟨hnew, hold, hle, hmax⟩ := verifyUpdates_range hvals.power hvals.total hsplit h
  have hfilter := sumPower_filter_add (applyUpdates vals (computeNewPriorities vals updates t))
    (·.address ∉ deletes.map Validator.address)
  have hgone : 0 ≤ sumPower ((applyUpdates vals (computeNewPriorities vals updates t)).filter
      (¬ ·.address ∉ deletes.map Validator.address)) := by
    refine sumPower_nonneg fun v hv => ?_
    exact merged_power hvals.power hsplit.pos v (mem_of_mem_filter hv)
  rw [changed, untouched]
  omega

lemma subperm_of_verifyRemovals (hnodup : (deletes.map Validator.address).Nodup)
    (h : verifyRemovals vals deletes = true) :
    (deletes.map Validator.address).Subperm (vals.map Validator.address) := by
  refine subperm_of_subset hnodup fun a ha => ?_
  obtain ⟨d, hd, rfl⟩ := List.mem_map.mp ha
  obtain ⟨v, hv⟩ := isSome_iff_exists.mp (List.all_eq_true.mp h d hd)
  have haddress : v.address = d.address := by simpa using find?_some hv
  exact haddress ▸ List.mem_map_of_mem (mem_of_find?_eq_some hv)

lemma length_le_of_verifyRemovals (hprocess : processChanges changes = .ok (updates, deletes))
    (h : verifyRemovals vals deletes = true) : deletes.length ≤ vals.length := by
  have hsplit := processChanges_split hprocess
  simpa using (subperm_of_verifyRemovals hsplit.sortedDeletes.nodup h).length_le

lemma changed_eq_nil_iff (hvals : ByAddress vals) (hsplit : Split changes updates deletes)
    (hremovals : verifyRemovals vals deletes = true) :
    changed vals updates deletes t = [] ↔
      updates.countP (fun u => (getByAddress vals u.address).isNone) = 0 ∧
        vals.length = deletes.length := by
  have hsub := subperm_of_verifyRemovals hsplit.sortedDeletes.nodup hremovals
  have hlength : vals.length = deletes.length ↔
      (vals.map Validator.address).length = (deletes.map Validator.address).length := by simp
  rw [eq_nil_iff_forall_not_mem, hlength]
  constructor
  · intro hnone
    obtain rfl : updates = [] := eq_nil_iff_forall_not_mem.mpr fun u hu =>
      hnone _ (update_mem_changed hvals hsplit hu)
    refine ⟨rfl, le_antisymm (subperm_of_subset hvals.nodup fun a ha => ?_).length_le hsub.length_le⟩
    obtain ⟨v, hv, rfl⟩ := List.mem_map.mp ha
    by_contra hd
    exact hnone v ((mem_changed hvals hsplit.sortedUpdates).mpr ⟨.inr ⟨hv, by simp⟩, hd⟩)
  · rintro ⟨hnew, hlength⟩ v hv
    -- all members are removed and every update is of a member
    have hperm := hsub.perm_of_length_le hlength.le
    obtain ⟨hchanged, hkept⟩ := (mem_changed hvals hsplit.sortedUpdates).mp hv
    refine hkept (hperm.mem_iff.mpr ?_)
    rcases hchanged with hnewer | ⟨hold, -⟩
    · obtain ⟨u, hu, rfl⟩ := List.mem_map.mp hnewer
      have hmember : getByAddress vals u.address ≠ none := by
        simpa using countP_eq_zero.mp hnew u hu
      obtain ⟨w, hw⟩ := ne_none_iff_exists'.mp hmember
      obtain ⟨hmem, haddress⟩ := (getByAddress_eq_some_iff hvals).mp hw
      exact haddress ▸ List.mem_map_of_mem hmem
    · exact List.mem_map_of_mem hold

lemma changed_regular (hvals : Regular vals) (hsplit : Split changes updates deletes)
    {r : ℤ × ℕ} (h : verifyUpdates vals updates (sumPower vals) = .ok r) :
    Regular (changed vals updates deletes t) :=
  ⟨changed_sorted deletes t hvals.sorted hsplit.sortedUpdates,
    fun v hv => merged_power hvals.power hsplit.pos v (mem_untouched.mp hv).1,
    sumPower_changed_le hvals hsplit h⟩

end Changed

/-! ## Rescaling and shifting in general -/

lemma rescaleRatio_ne_zero {diffMax : ℤ} {vals : List Validator} (hpos : 0 < diffMax)
    (hmax : diffMax ≤ 2 * maxTotalVotingPower) (hlt : diffMax < computeMaxMinPriorityDiff vals) :
    rescaleRatio diffMax vals ≠ 0 := by
  have hd : computeMaxMinPriorityDiff vals < 2 ^ 63 := by
    unfold computeMaxMinPriorityDiff
    split_ifs <;> exact Int.bmod_lt (by decide)
  -- a sum that overflows is far below zero
  have hfar : diffMax ≤ |wrap (computeMaxMinPriorityDiff vals + diffMax - 1)| := by
    unfold wrap
    unfold maxTotalVotingPower at hmax
    rw [Int.bmod_def, le_abs]
    split_ifs <;> norm_num at * <;> omega
  unfold rescaleRatio
  intro hzero
  have habs : |wrap (computeMaxMinPriorityDiff vals + diffMax - 1)|.tdiv diffMax = 0 := by
    rcases abs_choice (wrap (computeMaxMinPriorityDiff vals + diffMax - 1)) with h | h
    · rw [h, hzero]
    · rw [h, Int.neg_tdiv, hzero, neg_zero]
  rw [Int.tdiv_eq_ediv_of_nonneg (abs_nonneg _)] at habs
  have hone := (Int.le_ediv_iff_mul_le hpos).mpr ((one_mul diffMax).trans_le hfar)
  omega

/-- Rescaling and shifting are the same for all. -/
lemma center_common {vals : List Validator} (hne : vals ≠ [])
    (hpower : ∀ v ∈ vals, 0 < v.votingPower) (htotal : sumPower vals ≤ maxTotalVotingPower) :
    commonRatio vals ≠ 0 ∧ ValidatorSet.center vals = some (vals.map fun v => v.withPriority
      (safeSubClip (v.proposerPriority.tdiv (commonRatio vals)) (commonShift vals))) := by
  have hpos : 0 < 2 * sumPower vals := by
    have := sumPower_pos hne hpower
    omega
  obtain ⟨hratio, hrescale⟩ : commonRatio vals ≠ 0 ∧
      rescalePriorities (priorityWindowSizeFactor * sumPower vals) vals = some (rescaled vals) := by
    unfold rescaled commonRatio priorityWindowSizeFactor
    rw [rescalePriorities, if_neg hne, if_neg (not_le.mpr hpos)]
    split_ifs with hfar hzero
    · exact absurd hzero (rescaleRatio_ne_zero hpos (by omega) hfar)
    · exact ⟨hzero, rfl⟩
    · exact ⟨one_ne_zero, by simp [Validator.withPriority]⟩
  refine ⟨hratio, ?_⟩
  unfold ValidatorSet.center
  rw [totalVotingPower_eq hpower, if_pos htotal]
  simp only [bind_eq_bind, bind_some, hrescale]
  rw [shiftByAvgProposerPriority, ← commonShift, rescaled, List.map_map]
  rfl

/-! ## One call -/

namespace CachedSet

/-- The total that is kept is the sum of the powers. -/
structure Kept (c : CachedSet) : Prop where
  regular : Regular c.validators
  cached : c.cached = sumPower c.validators

variable {c c' : CachedSet} {changes updates deletes : List Validator}

lemma Kept.totalVotingPower (h : c.Kept) : totalVotingPower c.validators = some c.cached := by
  rw [totalVotingPower_eq h.regular.power, if_pos h.regular.total, h.cached]

lemma Kept.fillTotal (h : c.Kept) : c.fillTotal = some c := by
  unfold CachedSet.fillTotal
  rw [h.totalVotingPower]
  split_ifs <;> rfl

/-- What is checked before anything changes. -/
structure Passes (c : CachedSet) (changes : List Validator) (allowDeletes : Bool)
    (updates deletes : List Validator) (r : ℤ × ℕ) : Prop where
  nonempty : changes ≠ []
  processed : processChanges changes = .ok (updates, deletes)
  allowed : ¬ (!allowDeletes ∧ deletes ≠ [])
  removals : verifyRemovals c.validators deletes = true
  verified : verifyUpdates c.validators updates c.cached = .ok r
  left : ¬ (r.2 = 0 ∧ c.validators.length = deletes.length)

variable {allowDeletes : Bool} {r : ℤ × ℕ}

lemma Kept.updateWithChanges_cases (h : c.Kept) (hne : changes ≠ []) (allowDeletes : Bool) :
    (∃ e, c.updateWithChanges changes allowDeletes = some (some e, c)) ∨
      ∃ updates deletes r, Passes c changes allowDeletes updates deletes r := by
  unfold CachedSet.updateWithChanges
  rw [if_neg hne]
  cases hprocess : processChanges changes with
  | error e => exact .inl ⟨e, rfl⟩
  | ok p =>
    obtain ⟨updates, deletes⟩ := p
    dsimp only
    split_ifs with hallow hremovals hlength
    · exact .inl ⟨_, rfl⟩
    · exact .inl ⟨_, rfl⟩
    · have := length_le_of_verifyRemovals hprocess (by simpa using hremovals)
      omega
    · rw [h.fillTotal, bind_some]
      cases hverify : verifyUpdates c.validators updates c.cached with
      | error e => exact .inl ⟨e, rfl⟩
      | ok r =>
        dsimp only
        split_ifs with hempty
        · exact .inl ⟨_, rfl⟩
        · exact .inr ⟨updates, deletes, r, hne, hprocess, hallow, by simpa using hremovals, hverify, hempty⟩

lemma Passes.changed_ne_nil (hpass : Passes c changes allowDeletes updates deletes r)
    (h : c.Kept) : changed c.validators updates deletes r.1 ≠ [] := by
  have hmax : c.cached ≤ maxTotalVotingPower := h.cached.trans_le h.regular.total
  obtain ⟨-, rfl⟩ := (verifyUpdates_iff hmax).mp hpass.verified
  rw [ne_eq, changed_eq_nil_iff h.regular.sorted (processChanges_split hpass.processed)
    hpass.removals, ← zero_add (countP _ _)]
  exact hpass.left

lemma Kept.changed_sound (h : c.Kept)
    (hb : ∀ v ∈ c.validators, |v.proposerPriority| ≤ 3 * maxTotalVotingPower)
    (hpass : Passes c changes allowDeletes updates deletes r) :
    Sound (changed c.validators updates deletes r.1) := by
  have hvals := h.regular
  have hsplit := processChanges_split hpass.processed
  have hverify := hpass.verified
  rw [h.cached] at hverify
  obtain ⟨-, hpower, htotal⟩ := changed_regular (t := r.1) hvals hsplit hverify
  obtain ⟨hnew, hold, hle, hmax⟩ := verifyUpdates_range hvals.power hvals.total hsplit hverify
  refine ⟨hpass.changed_ne_nil h, hpower, htotal,
    fun v hv => mem_applyUpdates hb ?_ v (mem_untouched.mp hv).1⟩
  exact computeNewPriorities_bounded ⟨hvals.power, hvals.total, hb⟩ (by omega) hmax

lemma Kept.changed_entered (h : c.Kept)
    (hpass : Passes c changes allowDeletes updates deletes r) :
    ∀ v ∈ changed c.validators updates deletes r.1,
      v.proposerPriority = entryPriority c.validators changes v.address := by
  have hvals := h.regular.sorted
  have hsplit := processChanges_split hpass.processed
  have hmax : c.cached ≤ maxTotalVotingPower := h.cached.trans_le h.regular.total
  obtain ⟨-, hr⟩ := (verifyUpdates_iff hmax).mp hpass.verified
  have hgain : gain c.validators updates =
      gain c.validators (changes.filter (·.votingPower ≠ 0)) := by
    obtain ⟨⟨rfl, -⟩, -⟩ := scanChanges_iff.mp hpass.processed
    exact gain_perm ((perm_insertionSort _ _).filter _)
  intro v hv
  unfold entryPriority
  rcases ((mem_changed hvals hsplit.sortedUpdates).mp hv).1 with hnew | ⟨hold, -⟩
  · obtain ⟨u, -, rfl⟩ := List.mem_map.mp hnew
    rw [← hgain, ← h.cached, hr]
    rfl
  · have hfind : getByAddress c.validators v.address = some v :=
      (getByAddress_eq_some_iff hvals).mpr ⟨hold, rfl⟩
    rw [hfind]
    rfl

lemma Kept.applyChanges (h : c.Kept) (hpass : Passes c changes allowDeletes updates deletes r) :
    ∃ c', c.updateWithChanges changes allowDeletes = some (none, c') ∧ c'.Kept ∧
      ValidatorSet.center (changed c.validators updates deletes r.1) = some c'.validators ∧
      Overwritten c.validators changes c'.validators := by
  have hvals := h.regular
  have hsplit := processChanges_split hpass.processed
  have hverify := hpass.verified
  rw [h.cached] at hverify
  obtain ⟨vals, hchanged⟩ : ∃ l, l = changed c.validators updates deletes r.1 := ⟨_, rfl⟩
  have hne : vals ≠ [] := hchanged ▸ hpass.changed_ne_nil h
  have hregular : Regular vals := hchanged ▸ changed_regular hvals hsplit hverify
  have hentry : ∀ v ∈ vals, v.proposerPriority = entryPriority c.validators changes v.address :=
    hchanged ▸ h.changed_entered hpass
  obtain ⟨hratio, hcenter⟩ := center_common hne hregular.power hregular.total
  obtain ⟨centered, hcentered⟩ : ∃ l, l = vals.map fun v => v.withPriority
    (safeSubClip (v.proposerPriority.tdiv (commonRatio vals)) (commonShift vals)) := ⟨_, rfl⟩
  have hentered : entered c.validators changes centered = vals := by
    rw [hcentered]
    exact entered_map hentry fun p => safeSubClip (p.tdiv (commonRatio vals)) (commonShift vals)
  rw [← hcentered] at hcenter
  have hbare : bare centered = bare vals := center_bare hcenter
  have hregular' : Regular centered := hregular.of_bare hbare
  obtain ⟨c', happly, hcentered', htotal⟩ : ∃ c', c.applyChanges updates deletes r.1 = some c' ∧
      c'.validators = centered ∧ c'.cached = sumPower vals := by
    unfold CachedSet.applyChanges
    rw [applyRemovals_changed hvals.sorted hsplit hpass.removals, ← hchanged]
    simp only [bind_eq_bind, bind_some, hcenter]
    rw [totalVotingPower_eq hregular.power, if_pos hregular.total]
    exact ⟨_, rfl, rfl, rfl⟩
  subst hcentered'
  refine ⟨c', ?_, ⟨hregular', htotal.trans (sumPower_of_bare hbare).symm⟩, hchanged ▸ hcenter,
    ⟨hregular', fun a => ?_, (absurd · hpass.nonempty), fun _ => hentered ▸ hratio,
      fun _ v hv => ?_, fun _ hbounded => ?_⟩⟩
  · have hle := length_le_of_verifyRemovals hpass.processed hpass.removals
    unfold CachedSet.updateWithChanges
    rw [if_neg hpass.nonempty, hpass.processed]
    dsimp only
    rw [if_neg hpass.allowed, if_neg (by simp [hpass.removals]), if_neg (not_lt.mpr hle),
      h.fillTotal, bind_some, hpass.verified]
    dsimp only
    rw [if_neg hpass.left, happly]
    rfl
  · rw [← powerOf_bare, hbare, powerOf_bare, hchanged, powerOf_changed hvals.sorted hsplit]
  · rw [hentered]
    obtain ⟨w, hw, rfl⟩ := List.mem_map.mp (hcentered ▸ hv)
    exact congrArg (fun p : ℤ => safeSubClip (p.tdiv _) _) (hentry w hw)
  · have hsound : Sound vals := hchanged ▸ h.changed_sound hbounded hpass
    obtain ⟨hratio', hcenter', -⟩ := center_spec hsound
    rw [hentered]
    refine ⟨hratio', fun v hv => ?_⟩
    rw [Option.some.inj (hcenter.symm.trans hcenter')] at hv
    obtain ⟨w, hw, rfl⟩ := List.mem_map.mp hv
    exact congrArg (fun p : ℤ => p.tdiv _ - _) (hentry w hw)

lemma Kept.updateWithChanges (h : c.Kept) (changes : List Validator) (allowDeletes : Bool) :
    ∃ err c', c.updateWithChanges changes allowDeletes = some (err, c') ∧
      (err ≠ none → c' = c) ∧
      (err = none → c'.Kept ∧ Overwritten c.validators changes c'.validators) := by
  by_cases hnil : changes = []
  · rw [hnil]
    exact ⟨none, c, rfl, fun _ => rfl, fun _ => ⟨h, .refl h.regular⟩⟩
  rcases h.updateWithChanges_cases hnil allowDeletes with ⟨e, he⟩ | ⟨updates, deletes, r, hpass⟩
  · exact ⟨some e, c, he, fun _ => rfl, nofun⟩
  · obtain ⟨c', happly, hkept, -, happlied⟩ := h.applyChanges hpass
    exact ⟨none, c', happly, fun hne => absurd rfl hne, fun _ => ⟨hkept, happlied⟩⟩

lemma Kept.incrementProposerPriority_eq (h : c.Kept) (times : ℤ) :
    c.incrementProposerPriority times =
      (c.toValidatorSet.incrementProposerPriority times).map fun vs => ⟨vs, c.cached, true⟩ := by
  unfold CachedSet.incrementProposerPriority ValidatorSet.incrementProposerPriority
  unfold ValidatorSet.center
  split_ifs
  · rfl
  · rfl
  · rw [h.fillTotal, h.totalVotingPower]
    simp only [bind_eq_bind, bind_some, Option.map_bind, Option.bind_assoc,
      Function.comp_def, map_some]

lemma Kept.incrementProposerPriority (h : c.Kept) {times : ℤ}
    (hinc : c.incrementProposerPriority times = some c') : c'.Kept := by
  rw [h.incrementProposerPriority_eq] at hinc
  obtain ⟨vs, hvs, rfl⟩ := map_eq_some_iff.mp hinc
  have hbare := incrementProposerPriority_bare hvs
  exact ⟨h.regular.of_bare hbare, h.cached.trans (sumPower_of_bare hbare).symm⟩

lemma kept_empty : Kept ⟨.empty, 0, false⟩ := ⟨⟨.nil, by simp [ValidatorSet.empty], by decide⟩, rfl⟩

lemma Reachable.kept (h : c.Reachable) : c.Kept := by
  induction h with
  | @new valz c h =>
    obtain ⟨err, c₀, hupdate, -, hok⟩ := kept_empty.updateWithChanges valz false
    unfold CachedSet.new at h
    rw [hupdate] at h
    cases err with
    | some e => cases h
    | none =>
      split_ifs at h
      · cases h
        exact (hok rfl).1
      · exact (hok rfl).1.incrementProposerPriority h
  | @update c c' changes err _ h ih =>
    obtain ⟨err', c₀, hupdate, hfail, hok⟩ := ih.updateWithChanges changes true
    obtain ⟨rfl, rfl⟩ := Prod.mk.inj (Option.some.inj (hupdate.symm.trans h))
    by_cases hnone : err' = none
    · exact (hok hnone).1
    · exact hfail hnone ▸ ih
  | increment _ h ih => exact ih.incrementProposerPriority h

lemma processChanges_perm {changes' : List Validator} (hperm : changes'.Perm changes)
    {r : List Validator × List Validator} (h : processChanges changes = .ok r) :
    processChanges changes' = .ok r := by
  have hsplit := processChanges_split h
  have hnodup : (changes.map Validator.address).Nodup :=
    ((hsplit.perm.map _).nodup_iff).mp hsplit.nodup
  have hsorted := pairwise_insertionSort fun a b : Validator => a.address ≤ b.address
  have hsame : changes'.insertionSort (fun a b => a.address ≤ b.address) =
      changes.insertionSort fun a b => a.address ≤ b.address := by
    refine List.Perm.eq_of_pairwise (fun a b ha hb hab hba => ?_) (hsorted changes')
      (hsorted changes) ?_
    · exact inj_on_of_nodup_map hnodup
        (hperm.mem_iff.mp ((perm_insertionSort _ _).mem_iff.mp ha))
        ((perm_insertionSort _ _).mem_iff.mp hb) (Std.le_antisymm hab hba)
    · exact (perm_insertionSort _ _).trans (hperm.trans (perm_insertionSort _ _).symm)
  unfold processChanges at h ⊢
  rw [hsame]
  exact h

lemma updateWithChanges_perm {changes' : List Validator} (hperm : changes'.Perm changes)
    {allowDeletes : Bool} {err : Option ChangeError}
    (h : c.updateWithChanges changes allowDeletes = some (err, c')) :
    ∃ err', c.updateWithChanges changes' allowDeletes = some (err', c') ∧
      (err' = none ↔ err = none) := by
  unfold CachedSet.updateWithChanges at h ⊢
  by_cases hnil : changes = []
  · subst hnil
    rw [hperm.eq_nil]
    exact ⟨err, h, Iff.rfl⟩
  have hnil' : changes' ≠ [] := fun heq => hnil (heq ▸ hperm).symm.eq_nil
  rw [if_neg hnil] at h
  rw [if_neg hnil']
  cases hprocess : processChanges changes with
  | ok r =>
    rw [processChanges_perm hperm hprocess]
    rw [hprocess] at h
    exact ⟨err, h, Iff.rfl⟩
  | error e =>
    rw [hprocess] at h
    cases h
    cases hprocess' : processChanges changes' with
    | ok r => simp [processChanges_perm hperm.symm hprocess'] at hprocess
    | error e' => exact ⟨some e', rfl, by simp⟩

/-- A call returns an error and leaves the set as it was, or overwrites the map, whatever the order
of the changes. -/
theorem updateWithChangeSet_overwrites {c : CachedSet} (hc : c.Reachable)
    (changes : List Validator) :
    ∃ err c', c.updateWithChangeSet changes = some (err, c') ∧ (err ≠ none → c' = c) ∧
      (err = none → Overwritten c.validators changes c'.validators ∧
        c'.cached = sumPower c'.validators) ∧
      ∀ changes' : List Validator, changes'.Perm changes →
        ∃ err', c.updateWithChangeSet changes' = some (err', c') ∧ (err' = none ↔ err = none) := by
  obtain ⟨err, c', hupdate, hfail, hok⟩ := hc.kept.updateWithChanges changes true
  exact ⟨err, c', hupdate, hfail, fun hnone => ⟨(hok hnone).2, (hok hnone).1.cached⟩,
    fun changes' hperm => updateWithChanges_perm hperm hupdate⟩

/-- One validator leaves and another one comes. -/
theorem exchanged_validator : ∃ c c' : CachedSet,
    new [⟨[2], [], 5, 0⟩, ⟨[1], [], 10, 0⟩] = some c ∧
    c.updateWithChangeSet [⟨[3], [], 7, 0⟩, ⟨[1], [], 0, 0⟩] = some (none, c') ∧
    Overwritten c.validators [⟨[3], [], 7, 0⟩, ⟨[1], [], 0, 0⟩] c'.validators ∧ c'.cached = 12 := by
  obtain ⟨c, hc⟩ : ∃ c : CachedSet,
    c = ⟨⟨[⟨[1], [], 10, -5⟩, ⟨[2], [], 5, 5⟩], some ⟨[1], [], 10, -5⟩⟩, 15, true⟩ := ⟨_, rfl⟩
  have hnew : new [⟨[2], [], 5, 0⟩, ⟨[1], [], 10, 0⟩] = some c := by
    rw [hc]
    decide
  have hdone : c.updateWithChangeSet [⟨[3], [], 7, 0⟩, ⟨[1], [], 0, 0⟩] = some (none,
      ⟨⟨[⟨[2], [], 5, 7⟩, ⟨[3], [], 7, -7⟩], some ⟨[1], [], 10, -5⟩⟩, 12, false⟩) := by
    rw [hc]
    decide
  obtain ⟨err, c', hupdate, -, hok, -⟩ := updateWithChangeSet_overwrites (.new hnew)
    [⟨[3], [], 7, 0⟩, ⟨[1], [], 0, 0⟩]
  obtain ⟨rfl, rfl⟩ := Prod.mk.inj (Option.some.inj (hupdate.symm.trans hdone))
  exact ⟨c, _, hnew, hdone, (hok rfl).1, rfl⟩

-- the proposer is shifted with the list
example : ((new [⟨[2], [], 5, 0⟩, ⟨[1], [], 10, 0⟩]).bind
    (updateWithChangeSet · [⟨[3], [], 7, 0⟩])).bind (·.2.proposer) = some ⟨[1], [], 10, 3⟩ := by
  decide

/-! ## Which changes are accepted -/

/-- The changes that a set should accept. -/
structure Admissible (vals changes : List Validator) : Prop where
  nodup : (changes.map Validator.address).Nodup
  range : ∀ u ∈ changes, 0 ≤ u.votingPower ∧ u.votingPower ≤ maxTotalVotingPower
  member : ∀ u ∈ changes, u.votingPower = 0 → (getByAddress vals u.address).isSome
  nonempty : ∃ a, (overwrite (powerOf vals) changes a).isSome
  total : sumPower vals + gain vals (changes.filter (·.votingPower ≠ 0)) ≤ maxTotalVotingPower

/-- The updates one by one, ordered by address, do not exceed the limit. -/
def StaysBelow (vals changes : List Validator) : Prop :=
  ∀ n, sumPower vals + gain vals (((changes.insertionSort fun a b => a.address ≤ b.address).filter
    (·.votingPower ≠ 0)).take n) ≤ maxTotalVotingPower

lemma exists_powerOf_iff {vals : List Validator} :
    (∃ a, (powerOf vals a).isSome) ↔ vals ≠ [] := by
  simp only [powerOf, isSome_map, getByAddress, find?_isSome]
  constructor
  · rintro ⟨a, v, hv, -⟩
    exact ne_nil_of_mem hv
  · intro hne
    obtain ⟨v, hv⟩ := exists_mem_of_ne_nil vals hne
    exact ⟨v.address, v, hv, by simp⟩

lemma Kept.accepts_iff (h : c.Kept) (hne : changes ≠ [])
    (haddress : ∀ u ∈ changes, u.address ≠ []) :
    (∃ c', c.updateWithChangeSet changes = some (none, c')) ↔
      Admissible c.validators changes ∧ StaysBelow c.validators changes := by
  have hmax : c.cached ≤ maxTotalVotingPower := h.cached.trans_le h.regular.total
  have hperm := perm_insertionSort (fun a b : Validator => a.address ≤ b.address) changes
  constructor
  · rintro ⟨c', hc'⟩
    rcases h.updateWithChanges_cases hne true with ⟨e, he⟩ | ⟨updates, deletes, r, hpass⟩
    · cases he.symm.trans hc'
    have hsplit := processChanges_split hpass.processed
    have hleft := exists_powerOf_iff.mpr (hpass.changed_ne_nil h)
    obtain ⟨hbelow, -⟩ := (verifyUpdates_iff hmax).mp hpass.verified
    simp only [powerOf_changed h.regular.sorted hsplit] at hleft
    rw [h.cached] at hbelow
    have hall := hbelow updates.length
    obtain ⟨⟨rfl, rfl⟩, hrange, -⟩ := scanChanges_iff.mp hpass.processed
    rw [take_length, gain_perm (hperm.filter _)] at hall
    refine ⟨⟨((hsplit.perm.map _).nodup_iff).mp hsplit.nodup,
      fun u hu => hrange u (hperm.mem_iff.mpr hu), fun u hu hzero => ?_, hleft, hall⟩, hbelow⟩
    exact List.all_eq_true.mp hpass.removals u
      (mem_filter.mpr ⟨hperm.mem_iff.mpr hu, by simpa using hzero⟩)
  · rintro ⟨hadm, hbelow⟩
    have hnodup := ((hperm.map Validator.address).nodup_iff).mpr hadm.nodup
    have hnil : [] ∉ (changes.insertionSort fun a b => a.address ≤ b.address).map
        Validator.address := by
      intro hmem
      obtain ⟨u, hu, hempty⟩ := List.mem_map.mp hmem
      exact haddress u (hperm.mem_iff.mp hu) hempty
    have hprocess : processChanges changes = .ok _ :=
      scanChanges_iff.mpr ⟨⟨rfl, rfl⟩, fun u hu => hadm.range u (hperm.mem_iff.mp hu),
        (nodup_cons.mpr ⟨hnil, hnodup⟩).isChain⟩
    have hsplit := processChanges_split hprocess
    have hremovals : verifyRemovals c.validators _ = true := List.all_eq_true.mpr fun d hd =>
      hadm.member d (hperm.mem_iff.mp (mem_of_mem_filter hd)) (hsplit.zero d hd)
    have hverify : verifyUpdates c.validators _ c.cached = .ok _ :=
      (verifyUpdates_iff hmax).mpr ⟨by rw [h.cached]; exact hbelow, rfl⟩
    have hpass : Passes c changes true _ _ _ :=
      ⟨hne, hprocess, by simp, hremovals, hverify, fun hempty => ?_⟩
    · obtain ⟨c', happly, -⟩ := h.applyChanges hpass
      exact ⟨c', happly⟩
    · rw [zero_add, ← changed_eq_nil_iff (t := 0) h.regular.sorted hsplit hremovals] at hempty
      have hleft := hadm.nonempty
      simp only [← powerOf_changed (t := 0) h.regular.sorted hsplit] at hleft
      exact exists_powerOf_iff.mp hleft hempty

/-- Just the admissible changes are accepted, unless the total exceeds its limit on the way. No
changes at all leave an empty set. -/
theorem updateWithChangeSet_accepts_iff {c : CachedSet} (hc : c.Reachable) {changes : List Validator}
    (haddress : ∀ u ∈ changes, u.address ≠ []) :
    ((∃ c', c.updateWithChangeSet changes = some (none, c')) ↔ Admissible c.validators changes) ↔
      (Admissible c.validators changes → StaysBelow c.validators changes) ∧
        (changes = [] → c.validators ≠ []) := by
  by_cases hne : changes = []
  · subst hne
    have haccept : ∃ c', c.updateWithChangeSet [] = some (none, c') := ⟨c, rfl⟩
    have hbelow : StaysBelow c.validators [] := by
      simpa [StaysBelow, gain, sumPower] using hc.kept.regular.total
    have hadm : Admissible c.validators [] ↔ c.validators ≠ [] := by
      refine ⟨fun h => exists_powerOf_iff.mp h.nonempty, fun h => ?_⟩
      exact ⟨.nil, by simp, by simp, exists_powerOf_iff.mpr h, hbelow 0⟩
    rw [iff_true_left haccept, hadm]
    exact ⟨fun h => ⟨fun _ => hbelow, fun _ => h⟩, fun h => h.2 rfl⟩
  · rw [hc.kept.accepts_iff hne haddress]
    tauto

/-- The total is at its limit. -/
def crowded : CachedSet :=
  ⟨⟨[⟨[1], [], 1, 1⟩, ⟨[2], [], 2 ^ 60 - 2, -1⟩], some ⟨[2], [], 2 ^ 60 - 2, -1⟩⟩, 2 ^ 60 - 1, true⟩

lemma new_crowded : new [⟨[1], [], 1, 0⟩, ⟨[2], [], 2 ^ 60 - 2, 0⟩] = some crowded := by
  decide +kernel

/-- Power that moves to the first validator is refused. -/
theorem moved_power_refused : crowded.Reachable ∧
    Admissible crowded.validators [⟨[1], [], 2, 0⟩, ⟨[2], [], 1, 0⟩] ∧
    crowded.updateWithChangeSet [⟨[1], [], 2, 0⟩, ⟨[2], [], 1, 0⟩] =
      some (some .totalTooHigh, crowded) :=
  ⟨.new new_crowded, ⟨by decide, by decide +kernel, by decide, ⟨[1], by decide +kernel⟩,
    by decide +kernel⟩, by decide +kernel⟩

theorem lowered_power_accepted : crowded.Reachable ∧
    StaysBelow crowded.validators [⟨[2], [], 1, 0⟩] := by
  have hadm : Admissible crowded.validators [⟨[2], [], 1, 0⟩] :=
    ⟨by decide, by decide +kernel, by decide, ⟨[1], by decide +kernel⟩, by decide +kernel⟩
  have haccept : crowded.updateWithChangeSet [⟨[2], [], 1, 0⟩] = some (none,
      ⟨⟨[⟨[1], [], 1, 1⟩, ⟨[2], [], 1, -1⟩], some ⟨[2], [], 2 ^ 60 - 2, -1⟩⟩, 2, false⟩) := by
    decide +kernel
  exact ⟨.new new_crowded, ((updateWithChangeSet_accepts_iff (.new new_crowded) (by decide)).mp
    ⟨fun _ => hadm, fun _ => ⟨_, haccept⟩⟩).1 hadm⟩

end CachedSet

end ShardingBC.Rotation
