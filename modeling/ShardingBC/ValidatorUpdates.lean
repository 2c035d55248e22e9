import ShardingBC.ProposerPriority

/-!
# Changes keep the range of priorities

A set that `UpdateWithChangeSet` or `NewValidatorSet` returns is sound: the powers are
positive and add up to at most the maximum, and the priorities are in their range.
-/
namespace ShardingBC.Rotation

open List Option

/-- A list as the changes find it, which may be empty. -/
structure Proper (vals : List Validator) : Prop where
  power : ∀ v ∈ vals, 0 < v.votingPower
  total : sumPower vals ≤ maxTotalVotingPower
  bounded : ∀ v ∈ vals, |v.proposerPriority| ≤ 3 * maxTotalVotingPower

/-! ## Lists in the order of their addresses -/

/-- The order of `ValidatorsByAddress`, each address once. -/
abbrev ByAddress (vals : List Validator) : Prop :=
  vals.Pairwise fun v w => v.address < w.address

section Lists

variable {vals updates deletes : List Validator} {v w u : Validator} {a : Bytes}

lemma ByAddress.nodup (h : ByAddress vals) : (vals.map Validator.address).Nodup :=
  pairwise_map.mpr (h.imp fun hlt => Std.ne_of_lt hlt)

lemma getByAddress_eq_some_iff (h : ByAddress vals) :
    getByAddress vals a = some v ↔ v ∈ vals ∧ v.address = a := by
  constructor
  · intro hget
    exact ⟨mem_of_find?_eq_some hget, by simpa using find?_some hget⟩
  · rintro ⟨hv, rfl⟩
    cases hget : getByAddress vals v.address with
    | none => simpa using find?_eq_none.mp hget v hv
    | some w =>
      have hw : w.address = v.address := by simpa using find?_some hget
      rw [inj_on_of_nodup_map h.nodup (mem_of_find?_eq_some hget) hv hw]

/-- The validators that a list of changes does not name. -/
def untouched (vals changes : List Validator) : List Validator :=
  vals.filter fun v => v.address ∉ changes.map Validator.address

@[simp] lemma mem_untouched : v ∈ untouched vals updates ↔
    v ∈ vals ∧ v.address ∉ updates.map Validator.address := by
  simp [untouched]

lemma untouched_cons_of_ne (h : ∀ v ∈ vals, v.address ≠ u.address) :
    untouched vals (u :: updates) = untouched vals updates := by
  refine filter_congr fun v hv => ?_
  have hne := h v hv
  simp [hne]

lemma untouched_cons_of_lt (h : ∀ u ∈ updates, v.address < u.address) :
    untouched (v :: vals) updates = v :: untouched vals updates := by
  refine filter_cons_of_pos ?_
  simpa using fun u hu => (Std.ne_of_lt (h u hu)).symm

/-- The merged list holds the updates and whom they do not name. -/
lemma applyUpdates_spec (hv : ByAddress vals) (hu : ByAddress updates) :
    ByAddress (applyUpdates vals updates) ∧
      (applyUpdates vals updates).Perm (updates ++ untouched vals updates) := by
  induction vals generalizing updates with
  | nil => simpa [applyUpdates, untouched] using hu
  | cons e es ih =>
    obtain ⟨he, hes⟩ := pairwise_cons.mp hv
    rw [applyUpdates]
    induction updates with
    | nil =>
      obtain ⟨hsorted, hperm⟩ := ih hes hu
      have hmem : ∀ w ∈ applyUpdates es [], e.address < w.address := fun w hw =>
        he w (mem_untouched.mp (hperm.mem_iff.mp hw)).1
      exact ⟨hsorted.cons hmem, by simpa [mergeUpdates, untouched] using hperm⟩
    | cons u us ihu =>
      obtain ⟨hus, husorted⟩ := pairwise_cons.mp hu
      rw [mergeUpdates]
      split_ifs with hlt heq
      · obtain ⟨hsorted, hperm⟩ := ih hes hu
        have hall : ∀ w ∈ u :: us, e.address < w.address :=
          forall_mem_cons.mpr ⟨hlt, fun w hw => Std.lt_trans hlt (hus w hw)⟩
        rw [untouched_cons_of_lt hall]
        refine ⟨hsorted.cons fun w hw => ?_, (hperm.cons e).trans perm_middle.symm⟩
        rcases mem_append.mp (hperm.mem_iff.mp hw) with hw | hw
        · exact hall w hw
        · exact he w (mem_untouched.mp hw).1
      · obtain ⟨hsorted, hperm⟩ := ih hes husorted
        have hrest : untouched (e :: es) (u :: us) = untouched es us := by
          rw [untouched, filter_cons_of_neg (by simp [heq])]
          exact untouched_cons_of_ne fun w hw => heq ▸ (Std.ne_of_lt (he w hw)).symm
        rw [hrest]
        refine ⟨hsorted.cons fun w hw => ?_, hperm.cons u⟩
        rcases mem_append.mp (hperm.mem_iff.mp hw) with hw | hw
        · exact hus w hw
        · exact heq ▸ he w (mem_untouched.mp hw).1
      · obtain ⟨hsorted, hperm⟩ := ihu husorted
        have hue : u.address < e.address :=
          Std.lt_of_le_of_ne (Std.not_lt.mp hlt) (Ne.symm heq)
        have hall : ∀ w ∈ e :: es, u.address < w.address :=
          forall_mem_cons.mpr ⟨hue, fun w hw => Std.lt_trans hue (he w hw)⟩
        rw [untouched_cons_of_ne fun w hw => (Std.ne_of_lt (hall w hw)).symm]
        refine ⟨hsorted.cons fun w hw => ?_, hperm.cons u⟩
        rcases mem_append.mp (hperm.mem_iff.mp hw) with hw | hw
        · exact hus w hw
        · exact hall w (mem_untouched.mp hw).1

lemma applyRemovals_eq (hv : ByAddress vals) (hd : ByAddress deletes)
    (hsub : ∀ d ∈ deletes, ∃ v ∈ vals, v.address = d.address) :
    applyRemovals vals deletes = some (untouched vals deletes) := by
  induction vals generalizing deletes with
  | nil =>
    obtain rfl : deletes = [] := eq_nil_iff_forall_not_mem.mpr fun d hmem => by
      simpa using hsub d hmem
    rfl
  | cons e es ih =>
    obtain ⟨he, hes⟩ := pairwise_cons.mp hv
    cases deletes with
    | nil => simp [applyRemovals, untouched]
    | cons d ds =>
      obtain ⟨hds, hdsorted⟩ := pairwise_cons.mp hd
      obtain ⟨x, hx, hxd⟩ := hsub d mem_cons_self
      rw [applyRemovals]
      split_ifs with heq
      · have hsub' : ∀ d' ∈ ds, ∃ v ∈ es, v.address = d'.address := by
          intro d' hd'
          obtain ⟨y, hy, hyd⟩ := hsub d' (mem_cons_of_mem d hd')
          rcases mem_cons.mp hy with rfl | hy
          · exact absurd (heq.symm.trans hyd) (Std.ne_of_lt (hds d' hd'))
          · exact ⟨y, hy, hyd⟩
        rw [ih hes hdsorted hsub', untouched, untouched, filter_cons_of_neg (by simp [heq])]
        exact congrArg some
          (untouched_cons_of_ne fun w hw => heq ▸ (Std.ne_of_lt (he w hw)).symm).symm
      · -- the first to go comes later, and so do the others
        have hed : e.address < d.address := by
          rcases mem_cons.mp hx with rfl | hx
          · exact absurd hxd heq
          · exact hxd ▸ he x hx
        have hall : ∀ d' ∈ d :: ds, e.address < d'.address :=
          forall_mem_cons.mpr ⟨hed, fun d' hd' => Std.lt_trans hed (hds d' hd')⟩
        have hsub' : ∀ d' ∈ d :: ds, ∃ v ∈ es, v.address = d'.address := by
          intro d' hd'
          obtain ⟨y, hy, hyd⟩ := hsub d' hd'
          rcases mem_cons.mp hy with rfl | hy
          · exact absurd hyd (Std.ne_of_lt (hall d' hd'))
          · exact ⟨y, hy, hyd⟩
        rw [ih hes hd hsub', untouched_cons_of_lt hall, map_some]

end Lists

/-! ## The changes -/

variable {changes updates deletes : List Validator}

lemma scanChanges_iff {prev : Bytes} :
    scanChanges prev changes = .ok (updates, deletes) ↔
      (updates = changes.filter (·.votingPower ≠ 0) ∧
        deletes = changes.filter (·.votingPower = 0)) ∧
      (∀ v ∈ changes, 0 ≤ v.votingPower ∧ v.votingPower ≤ maxTotalVotingPower) ∧
      (prev :: changes.map Validator.address).IsChain (· ≠ ·) := by
  induction changes generalizing prev updates deletes with
  | nil => simp [scanChanges]
  | cons v vs ih =>
    rw [map_cons, isChain_cons_cons, forall_mem_cons, scanChanges]
    by_cases hrange : 0 ≤ v.votingPower ∧ v.votingPower ≤ maxTotalVotingPower
    · by_cases hdup : v.address = prev
      · simp [hdup]
      rw [if_neg hdup, if_neg (by omega), if_neg (by omega)]
      cases hrest : scanChanges v.address vs with
      | error e =>
        refine ⟨nofun, fun h => ?_⟩
        have hok := ih.mpr ⟨⟨rfl, rfl⟩, h.2.1.2, h.2.2.2⟩
        rw [hrest] at hok
        cases hok
      | ok r =>
        obtain ⟨us, ds⟩ := r
        obtain ⟨⟨rfl, rfl⟩, hall, hchain⟩ := ih.mp hrest
        rw [and_iff_left ⟨⟨hrange, hall⟩, Ne.symm hdup, hchain⟩]
        by_cases hzero : v.votingPower = 0 <;> simp [Except.map, hzero, eq_comm]
    · split_ifs <;> first | omega | simp [hrange]

lemma pairwise_lt_of_isChain {l : List Bytes} (hsorted : l.Pairwise (· ≤ ·))
    (hchain : l.IsChain (· ≠ ·)) : l.Pairwise (· < ·) := by
  have hlt : l.IsChain (· < ·) := by
    induction l with
    | nil => exact isChain_nil
    | cons a l ih =>
      cases l with
      | nil => exact isChain_singleton a
      | cons b l =>
        rw [isChain_cons_cons] at hchain ⊢
        obtain ⟨ha, hrest⟩ := pairwise_cons.mp hsorted
        exact ⟨Std.lt_of_le_of_ne (ha b (by simp)) hchain.1, ih hrest hchain.2⟩
  exact isChain_iff_pairwise.mp hlt

/-- The updates and the removals that the changes are split into. -/
structure Split (changes updates deletes : List Validator) : Prop where
  sortedUpdates : ByAddress updates
  sortedDeletes : ByAddress deletes
  perm : (updates ++ deletes).Perm changes
  nodup : ((updates ++ deletes).map Validator.address).Nodup
  pos : ∀ u ∈ updates, 0 < u.votingPower
  zero : ∀ d ∈ deletes, d.votingPower = 0

lemma Split.disjoint
    (h : Split changes updates deletes) {u : Validator} (hu : u ∈ updates) :
    u.address ∉ deletes.map Validator.address := by
  have hnodup := h.nodup
  rw [map_append] at hnodup
  exact fun hd => (nodup_append.mp hnodup).2.2 _ (List.mem_map_of_mem hu) _ hd rfl

lemma processChanges_split
    (h : processChanges changes = .ok (updates, deletes)) : Split changes updates deletes := by
  obtain ⟨⟨hupdates, hdeletes⟩, hrange, hchain⟩ := scanChanges_iff.mp h
  have hle := pairwise_insertionSort (fun a b : Validator => a.address ≤ b.address) changes
  have hlt := pairwise_lt_of_isChain (pairwise_map.mpr hle) hchain.tail
  have hsorted : ByAddress (changes.insertionSort fun a b => a.address ≤ b.address) :=
    pairwise_map.mp hlt
  have hperm := filter_append_perm (·.votingPower ≠ 0)
    (changes.insertionSort fun a b => a.address ≤ b.address)
  simp only [decide_not, Bool.not_not] at hperm hupdates
  rw [← hupdates, ← hdeletes] at hperm
  refine ⟨hupdates ▸ hsorted.filter _, hdeletes ▸ hsorted.filter _,
    hperm.trans (perm_insertionSort _ _), ?_, fun u hu => ?_, fun d hd => ?_⟩
  · rw [(hperm.map _).nodup_iff]
    exact hsorted.nodup
  · rw [hupdates, mem_filter] at hu
    have hne : u.votingPower ≠ 0 := by simpa using hu.2
    have := (hrange u hu.1).1
    omega
  · rw [hdeletes, mem_filter] at hd
    simpa using hd.2

/-! ## The total after the updates -/

/-- The power that an update replaces. -/
def oldPower (vals : List Validator) (u : Validator) : ℤ :=
  (getByAddress vals u.address).elim 0 Validator.votingPower

lemma sumPower_filter_add (vals : List Validator) (p : Validator → Prop) [DecidablePred p] :
    sumPower (vals.filter p) + sumPower (vals.filter (¬ p ·)) = sumPower vals := by
  have hperm := (filter_append_perm p vals).map Validator.votingPower
  simpa [sumPower] using hperm.sum_eq

lemma sumPower_untouched_le {vals us : List Validator} (hpower : ∀ v ∈ vals, 0 < v.votingPower)
    (hnodup : (us.map Validator.address).Nodup) :
    sumPower (untouched vals us) + (us.map (oldPower vals)).sum ≤ sumPower vals := by
  induction us generalizing vals with
  | nil => simp [untouched]
  | cons u us ih =>
    obtain ⟨hu, hus⟩ := nodup_cons.mp hnodup
    obtain ⟨others, hothers⟩ : ∃ l, l = vals.filter (¬ ·.address = u.address) := ⟨_, rfl⟩
    have hrest : untouched vals (u :: us) = untouched others us := by
      rw [hothers, untouched, untouched, List.filter_filter]
      exact filter_congr fun v _ => by simp [Bool.and_comm]
    have hold : us.map (oldPower vals) = us.map (oldPower others) := by
      refine map_congr_left fun w hw => ?_
      have hne : w.address ≠ u.address := fun heq => hu (heq ▸ List.mem_map_of_mem hw)
      simp only [oldPower, getByAddress, hothers, find?_filter]
      congr 2
      funext v
      by_cases hv : v.address = w.address <;> simp [hv, hne]
    have hown : oldPower vals u ≤ sumPower (vals.filter (·.address = u.address)) := by
      have hpos : ∀ v ∈ vals.filter (·.address = u.address), 0 < v.votingPower := fun v hv =>
        hpower v (mem_of_mem_filter hv)
      unfold oldPower
      cases hv : getByAddress vals u.address with
      | none => exact sumPower_nonneg hpos
      | some v =>
        have haddress := find?_some hv
        exact votingPower_le_sumPower hpos
          (mem_filter.mpr ⟨mem_of_find?_eq_some hv, haddress⟩)
    have hsplit := sumPower_filter_add vals (·.address = u.address)
    rw [← hothers] at hsplit
    have hpower' : ∀ v ∈ others, 0 < v.votingPower := by
      intro v hv
      rw [hothers] at hv
      exact hpower v (mem_of_mem_filter hv)
    have hih := ih hpower' hus
    rw [hrest, map_cons, sum_cons, hold]
    omega

lemma verifyUpdate_eq (vals : List Validator) (acc : ℤ × ℕ) (u : Validator) :
    verifyUpdate vals acc u =
      if maxTotalVotingPower < acc.1 + (u.votingPower - oldPower vals u) then .error .totalTooHigh
      else .ok (acc.1 + (u.votingPower - oldPower vals u),
        acc.2 + if (getByAddress vals u.address).isNone then 1 else 0) := by
  unfold verifyUpdate oldPower
  cases getByAddress vals u.address with
  | none => simp
  | some v => simp

/-- What updates of different validators add to the total. -/
def gain (vals us : List Validator) : ℤ := sumPower us - (us.map (oldPower vals)).sum

@[simp] lemma gain_cons (vals us : List Validator) (u : Validator) :
    gain vals (u :: us) = u.votingPower - oldPower vals u + gain vals us := by
  simp only [gain, sumPower, map_cons, sum_cons]
  omega

lemma gain_perm {vals us us' : List Validator} (h : us.Perm us') :
    gain vals us = gain vals us' := by
  unfold gain sumPower
  rw [(h.map _).sum_eq, (h.map _).sum_eq]

/-- The updates pass if the total never exceeds its limit on the way. -/
lemma verifyUpdates_iff {vals us : List Validator} {acc res : ℤ × ℕ}
    (hacc : acc.1 ≤ maxTotalVotingPower) :
    us.foldlM (verifyUpdate vals) acc = .ok res ↔
      (∀ n, acc.1 + gain vals (us.take n) ≤ maxTotalVotingPower) ∧
      res = (acc.1 + gain vals us,
        acc.2 + us.countP fun u => (getByAddress vals u.address).isNone) := by
  induction us generalizing acc with
  | nil => simp [gain, sumPower, hacc, eq_comm, pure, Except.pure]
  | cons u us ih =>
    rw [foldlM_cons, verifyUpdate_eq]
    by_cases hmax : maxTotalVotingPower < acc.1 + (u.votingPower - oldPower vals u)
    · rw [if_pos hmax]
      refine ⟨fun h => (by cases h), fun h => ?_⟩
      have hfirst := h.1 1
      simp [gain, sumPower] at hfirst
      omega
    · rw [if_neg hmax]
      refine (ih (not_lt.mp hmax)).trans (and_congr ⟨fun h n => ?_, fun h n => ?_⟩ ?_)
      · cases n with
        | zero => simpa [gain, sumPower] using hacc
        | succ n =>
          have := h n
          rw [take_succ_cons, gain_cons]
          omega
      · have := h (n + 1)
        rw [take_succ_cons, gain_cons] at this
        omega
      · rw [gain_cons, countP_cons, add_assoc, add_assoc]
        simp only [add_comm]

/-- The total that was computed covers what is left and what is new. -/
lemma verifyUpdates_range {vals changes updates deletes : List Validator} {res : ℤ × ℕ}
    (hpower : ∀ v ∈ vals, 0 < v.votingPower) (htotal : sumPower vals ≤ maxTotalVotingPower)
    (hsplit : Split changes updates deletes)
    (h : verifyUpdates vals updates (sumPower vals) = .ok res) :
    0 ≤ sumPower updates ∧ 0 ≤ sumPower (untouched vals updates) ∧
      sumPower updates + sumPower (untouched vals updates) ≤ res.1 ∧
      res.1 ≤ maxTotalVotingPower := by
  obtain ⟨hmax, rfl⟩ := (verifyUpdates_iff htotal).mp h
  have hmax := hmax updates.length
  have hold := sumPower_untouched_le hpower hsplit.sortedUpdates.nodup
  rw [take_length] at hmax
  unfold gain at hmax ⊢
  exact ⟨sumPower_nonneg hsplit.pos,
    sumPower_nonneg fun v hv => hpower v (mem_untouched.mp hv).1, by omega, hmax⟩

/-! ## The new list -/

lemma mem_mergeUpdates {e : Validator} {rest : List Validator → List Validator}
    {updates : List Validator} {S : Validator → Prop} (he : S e) (hu : ∀ u ∈ updates, S u)
    (hrest : ∀ us : List Validator, (∀ u ∈ us, S u) → ∀ v ∈ rest us, S v) :
    ∀ v ∈ mergeUpdates e rest updates, S v := by
  induction updates with
  | nil =>
    intro v hv
    rcases mem_cons.mp hv with rfl | hv
    · exact he
    · exact hrest [] (by simp) v hv
  | cons u us ih =>
    have hus : ∀ u ∈ us, S u := fun w hw => hu w (by simp [hw])
    intro v hv
    rw [mergeUpdates] at hv
    split_ifs at hv
    · rcases mem_cons.mp hv with rfl | hv
      · exact he
      · exact hrest _ hu v hv
    · rcases mem_cons.mp hv with rfl | hv
      · exact hu v (by simp)
      · exact hrest _ hus v hv
    · rcases mem_cons.mp hv with rfl | hv
      · exact hu v (by simp)
      · exact ih hus v hv

variable {vals updates : List Validator}

/-- What all validators and all updates are, the merged ones are. -/
lemma mem_applyUpdates {S : Validator → Prop}
    (hv : ∀ v ∈ vals, S v) (hu : ∀ u ∈ updates, S u) : ∀ v ∈ applyUpdates vals updates, S v := by
  induction vals generalizing updates with
  | nil => exact hu
  | cons e es ih =>
    exact mem_mergeUpdates (hv e (by simp)) hu
      (fun us hus => ih (fun v h => hv v (by simp [h])) hus)

lemma merged_power {total : ℤ}
    (hvals : ∀ v ∈ vals, 0 < v.votingPower) (hpos : ∀ u ∈ updates, 0 < u.votingPower) :
    ∀ v ∈ applyUpdates vals (computeNewPriorities vals updates total), 0 < v.votingPower := by
  refine mem_applyUpdates hvals fun w hw => ?_
  obtain ⟨u, hu, rfl⟩ := List.mem_map.mp hw
  exact hpos u hu

lemma applyRemovals_sublist {vals deletes left : List Validator}
    (h : applyRemovals vals deletes = some left) : left.Sublist vals := by
  induction vals generalizing deletes left with
  | nil =>
    cases deletes with
    | nil =>
      obtain rfl : [] = left := by simpa [applyRemovals] using h
      exact List.Sublist.refl _
    | cons d ds => simp [applyRemovals] at h
  | cons e es ih =>
    cases deletes with
    | nil =>
      obtain rfl : e :: es = left := by simpa [applyRemovals] using h
      exact List.Sublist.refl _
    | cons d ds =>
      rw [applyRemovals] at h
      split_ifs at h
      · exact (ih h).cons e
      · obtain ⟨l, hl, rfl⟩ := map_eq_some_iff.mp h
        exact (ih hl).cons_cons e

lemma computeNewPriorities_bounded {total : ℤ}
    (hvals : Proper vals) (h0 : 0 ≤ total) (hmax : total ≤ maxTotalVotingPower) :
    ∀ u ∈ computeNewPriorities vals updates total,
      |u.proposerPriority| ≤ 3 * maxTotalVotingPower := by
  intro w hw
  obtain ⟨u, -, rfl⟩ := List.mem_map.mp hw
  rw [Validator.withPriority_proposerPriority]
  cases hv : getByAddress vals u.address with
  | none =>
    rw [elim_none, newPriority, abs_le]
    omega
  | some v => exact hvals.bounded v (mem_of_find?_eq_some hv)

@[simp] lemma address_computeNewPriorities (vals updates : List Validator) (total : ℤ) :
    (computeNewPriorities vals updates total).map Validator.address =
      updates.map Validator.address := by
  unfold computeNewPriorities
  rw [List.map_map]
  rfl

section Changed

variable {vals changes updates deletes : List Validator} {t : ℤ} {v : Validator}

/-- The list before its priorities are rescaled. -/
def changed (vals updates deletes : List Validator) (t : ℤ) : List Validator :=
  untouched (applyUpdates vals (computeNewPriorities vals updates t)) deletes

lemma computeNewPriorities_sorted (h : ByAddress updates) :
    ByAddress (computeNewPriorities vals updates t) := pairwise_map.mpr h

lemma mem_changed (hvals : ByAddress vals) (hupdates : ByAddress updates) :
    v ∈ changed vals updates deletes t ↔
      (v ∈ computeNewPriorities vals updates t ∨
        v ∈ vals ∧ v.address ∉ updates.map Validator.address) ∧
      v.address ∉ deletes.map Validator.address := by
  obtain ⟨-, hperm⟩ := applyUpdates_spec hvals (computeNewPriorities_sorted (t := t) hupdates)
  rw [changed, mem_untouched, hperm.mem_iff, mem_append, mem_untouched,
    address_computeNewPriorities]

lemma update_mem_changed (hvals : ByAddress vals) (hsplit : Split changes updates deletes)
    {u : Validator} (hu : u ∈ updates) :
    u.withPriority ((getByAddress vals u.address).elim (newPriority t) Validator.proposerPriority) ∈
      changed vals updates deletes t := by
  have hkept := hsplit.disjoint hu
  exact (mem_changed hvals hsplit.sortedUpdates).mpr ⟨.inl (List.mem_map_of_mem hu), hkept⟩

variable (deletes t) in
lemma changed_sorted (hvals : ByAddress vals) (hupdates : ByAddress updates) :
    ByAddress (changed vals updates deletes t) :=
  (applyUpdates_spec hvals (computeNewPriorities_sorted hupdates)).1.filter _

/-- Whom the removals name is in the merged list. -/
lemma applyRemovals_changed (hvals : ByAddress vals) (hsplit : Split changes updates deletes)
    (hremovals : verifyRemovals vals deletes = true) :
    applyRemovals (applyUpdates vals (computeNewPriorities vals updates t)) deletes =
      some (changed vals updates deletes t) := by
  obtain ⟨hsorted, hperm⟩ :=
    applyUpdates_spec hvals (computeNewPriorities_sorted (t := t) hsplit.sortedUpdates)
  refine applyRemovals_eq hsorted hsplit.sortedDeletes fun d hd => ?_
  obtain ⟨v, hv⟩ := isSome_iff_exists.mp (List.all_eq_true.mp hremovals d hd)
  obtain ⟨hmem, haddress⟩ := (getByAddress_eq_some_iff hvals).mp hv
  refine ⟨v, hperm.mem_iff.mpr (mem_append_right _ (mem_untouched.mpr ⟨hmem, ?_⟩)), haddress⟩
  rw [address_computeNewPriorities, haddress]
  intro hu
  obtain ⟨u, hu, heq⟩ := List.mem_map.mp hu
  exact hsplit.disjoint hu (heq ▸ List.mem_map_of_mem hd)

end Changed

lemma sound_of_applyChanges {vals updates deletes res : List Validator} {total : ℤ}
    (hvals : Proper vals) (hpos : ∀ u ∈ updates, 0 < u.votingPower) (h0 : 0 ≤ total)
    (hmax : total ≤ maxTotalVotingPower)
    (h : ValidatorSet.applyChanges vals updates deletes total = some res) : Sound res := by
  obtain ⟨changed, hremove, hcenter⟩ := bind_eq_some_iff.mp h
  have hsub := applyRemovals_sublist hremove
  have hpower : ∀ v ∈ changed, 0 < v.votingPower := fun v hv =>
    merged_power hvals.power hpos v (hsub.subset hv)
  have hbounded : ∀ v ∈ changed, |v.proposerPriority| ≤ 3 * maxTotalVotingPower := by
    intro v hv
    exact mem_applyUpdates hvals.bounded (computeNewPriorities_bounded hvals h0 hmax) v
      (hsub.subset hv)
  -- the total was computed and the list is not empty, or there would be a panic
  have hsound : Sound changed := by
    obtain ⟨t, ht, hrest⟩ := bind_eq_some_iff.mp hcenter
    obtain ⟨rescaled, hrescaled, -⟩ := bind_eq_some_iff.mp hrest
    rw [totalVotingPower_eq hpower] at ht
    refine ⟨?_, hpower, ?_, hbounded⟩
    · rintro rfl
      simp [rescalePriorities] at hrescaled
    · by_contra hhigh
      rw [if_neg hhigh] at ht
      cases ht
  exact hsound.of_center hcenter

lemma updateWithChanges_eq_ok {vs vs' : ValidatorSet} {changes : List Validator}
    {allowDeletes : Bool} (hne : changes ≠ [])
    (h : vs.updateWithChanges changes allowDeletes = .ok vs') :
    ∃ updates deletes total r vals, processChanges changes = .ok (updates, deletes) ∧
      (allowDeletes = false → deletes = []) ∧ verifyRemovals vs.validators deletes = true ∧
      totalVotingPower vs.validators = some total ∧
      verifyUpdates vs.validators updates total = .ok r ∧
      ValidatorSet.applyChanges vs.validators updates deletes r.1 = some vals ∧
      vs' = ⟨vals, vs.proposer⟩ := by
  rw [ValidatorSet.updateWithChanges, if_neg hne] at h
  cases hprocess : processChanges changes with
  | error e =>
    rw [hprocess] at h
    cases h
  | ok p =>
    obtain ⟨updates, deletes⟩ := p
    rw [hprocess] at h
    simp only [bind, Except.bind] at h
    split_ifs at h with hallow hremovals
    split at h
    · cases h
    · rename_i total htotal
      cases hverify : verifyUpdates vs.validators updates total with
      | error e =>
        simp only [hverify] at h
        cases h
      | ok r =>
        simp only [hverify] at h
        split_ifs at h
        split at h
        · cases h
        · rename_i vals hvals
          refine ⟨updates, deletes, total, r, vals, rfl, ?_, by simpa using hremovals, htotal,
            hverify, hvals, (Except.ok.inj h).symm⟩
          simpa using hallow

lemma sound_of_updateWithChanges {vs vs' : ValidatorSet} {changes : List Validator}
    {allowDeletes : Bool} (hvs : Proper vs.validators) (hne : changes ≠ [])
    (h : vs.updateWithChanges changes allowDeletes = .ok vs') : Sound vs'.validators := by
  obtain ⟨updates, deletes, total, r, vals, hprocess, -, -, htotal, hverify, hvals, rfl⟩ :=
    updateWithChanges_eq_ok hne h
  have hsplit := processChanges_split hprocess
  rw [totalVotingPower_eq hvs.power, if_pos hvs.total] at htotal
  cases htotal
  obtain ⟨hnew, hkept, hsum, hmax⟩ := verifyUpdates_range hvs.power hvs.total hsplit hverify
  exact sound_of_applyChanges hvs hsplit.pos (by omega) hmax hvals

/-- A new set is made of its validators and has taken a turn. -/
lemma newValidatorSet_cases {valz : List Validator} {vs : ValidatorSet} (hne : valz ≠ [])
    (h : newValidatorSet valz = some vs) :
    ∃ vs₀ : ValidatorSet, Sound vs₀.validators ∧ (bare vs₀.validators).Perm (bare valz) ∧
      vs₀.incrementProposerPriority 1 = some vs := by
  unfold newValidatorSet at h
  split at h
  · cases h
  · rename_i vs₀ hvs₀
    rw [if_neg hne] at h
    have hempty : Proper [] := ⟨by simp, by decide, by simp⟩
    refine ⟨vs₀, sound_of_updateWithChanges hempty hne hvs₀, ?_, h⟩
    obtain ⟨updates, deletes, total, r, vals, hprocess, hdeletes, -, -, -, hvals, rfl⟩ :=
      updateWithChanges_eq_ok hne hvs₀
    obtain ⟨changed, hremove, hcenter⟩ := bind_eq_some_iff.mp hvals
    rw [hdeletes rfl] at hremove hprocess
    obtain rfl : computeNewPriorities [] updates r.1 = changed := by
      simpa [applyRemovals, applyUpdates, ValidatorSet.empty] using hremove
    have hperm := (processChanges_split hprocess).perm
    rw [append_nil] at hperm
    rw [center_bare hcenter]
    exact (bare_map updates _).symm ▸ hperm.map _

lemma sound_of_newValidatorSet {valz : List Validator} {vs : ValidatorSet} (hne : valz ≠ [])
    (h : newValidatorSet valz = some vs) : Sound vs.validators := by
  obtain ⟨vs₀, hsound, -, hinc⟩ := newValidatorSet_cases hne h
  exact hsound.incrementProposerPriority hinc

/-! ## One validator -/

lemma length_newValidatorSet {valz : List Validator} {vs : ValidatorSet}
    (h : newValidatorSet valz = some vs) : vs.validators.length = valz.length := by
  by_cases hne : valz = []
  · subst hne
    cases h
    rfl
  obtain ⟨vs₀, -, hperm, hinc⟩ := newValidatorSet_cases hne h
  rw [incrementProposerPriority_length hinc, ← length_bare, hperm.length_eq, length_bare]

lemma bare_singleton {vals : List Validator} {v : Validator} (h : bare vals = [v]) :
    ∃ w, vals = [w] ∧ w.withPriority 0 = v := by
  have hlen := congrArg List.length h
  rw [length_bare] at hlen
  obtain ⟨w, rfl⟩ := length_eq_one_iff.mp hlen
  exact ⟨w, rfl, singleton_inj.mp h⟩

lemma withPriority_eq_self {v : Validator} {p : ℤ} (h : v.proposerPriority = p) :
    v.withPriority p = v := by
  rw [← h]
  rfl

lemma newValidatorSet_singleton {v : Validator} {vs : ValidatorSet}
    (h : newValidatorSet [v] = some vs) :
    vs = ⟨[v.withPriority 0], some (v.withPriority 0)⟩ := by
  obtain ⟨vs₀, hsound, hperm, hinc⟩ := newValidatorSet_cases (cons_ne_nil _ _) h
  have hbare := perm_singleton.mp hperm
  have hlength := length_newValidatorSet h
  rw [incrementProposerPriority_length hinc] at hlength
  obtain ⟨x, hzero, rfl⟩ := settled_iff.mp (settled_of_single hsound hlength hinc)
  have hx : x.withPriority 0 = v.withPriority 0 :=
    singleton_inj.mp ((incrementProposerPriority_bare hinc).trans hbare)
  rw [withPriority_eq_self hzero] at hx
  rw [hx]

section Sole

variable {v : Validator} {updates : List Validator} {vs : ValidatorSet}

/-- Only an update to what it is leaves a single validator. -/
lemma updates_of_bare_eq (hne : updates ≠ [])
    (h : (⟨[v], some v⟩ : ValidatorSet).updateWithChangeSet updates = .ok vs)
    (hbare : bare vs.validators = [v]) : ∃ p, updates = [v.withPriority p] := by
  obtain ⟨ups, deletes, total, r, vals, hprocess, -, hremovals, -, -, hvals, rfl⟩ :=
    updateWithChanges_eq_ok hne h
  have hsplit := processChanges_split hprocess
  have hsole : ByAddress [v] := pairwise_singleton _ v
  obtain ⟨left, hremove, hcenter⟩ := bind_eq_some_iff.mp hvals
  obtain rfl := Option.some.inj ((applyRemovals_changed hsole hsplit hremovals).symm.trans hremove)
  rw [center_bare hcenter] at hbare
  obtain ⟨x, hleft, hx⟩ := bare_singleton hbare
  have haddress : x.address = v.address := by rw [← hx, Validator.withPriority_address]
  -- the validator is not removed, and every update is one of it
  have hkept := ((mem_changed hsole hsplit.sortedUpdates).mp (hleft ▸ mem_singleton_self x)).2
  obtain rfl : deletes = [] := eq_nil_iff_forall_not_mem.mpr fun d hd => by
    have hfound : v.address = d.address := by
      simpa [getByAddress, isSome_iff_exists] using List.all_eq_true.mp hremovals d hd
    exact hkept (haddress.trans hfound ▸ List.mem_map_of_mem hd)
  have hown : ∀ u ∈ ups, u.withPriority 0 = v := by
    intro u hu
    have hmem := update_mem_changed (t := r.1) hsole hsplit hu
    rw [hleft, mem_singleton] at hmem
    rw [← hx, ← hmem]
    rfl
  have hperm := hsplit.perm
  obtain ⟨u, us, rfl⟩ := exists_cons_of_ne_nil fun hnil : ups = [] =>
    hne (hnil ▸ hperm).symm.eq_nil
  obtain rfl : us = [] := eq_nil_iff_forall_not_mem.mpr fun w hw => by
    have hlt := rel_of_pairwise_cons hsplit.sortedUpdates hw
    have hsame := (hown u mem_cons_self).trans (hown w (mem_cons_of_mem u hw)).symm
    have heq := congrArg Validator.address hsame
    exact Std.ne_of_lt hlt heq
  refine ⟨u.proposerPriority, ?_⟩
  rw [← hown u mem_cons_self]
  exact perm_singleton.mp hperm.symm

lemma updateWithChangeSet_sole {p : ℤ} (hsound : Sound [v]) (hzero : v.proposerPriority = 0)
    (h : (⟨[v], some v⟩ : ValidatorSet).updateWithChangeSet [v.withPriority p] = .ok vs) :
    vs = ⟨[v], some v⟩ := by
  obtain ⟨ups, deletes, total, r, vals, hprocess, -, -, -, -, hvals, rfl⟩ :=
    updateWithChanges_eq_ok (cons_ne_nil _ _) h
  have hpower := hsound.power v (by simp)
  obtain ⟨⟨rfl, rfl⟩, -⟩ := scanChanges_iff.mp (show scanChanges [] [v.withPriority p] =
    .ok (ups, deletes) from hprocess)
  rw [filter_cons_of_pos (by simp [hpower.ne']), filter_cons_of_neg (by simp [hpower.ne'])] at hvals
  have hnew : computeNewPriorities [v] [v.withPriority p] r.1 = [v] := by
    simp only [computeNewPriorities, getByAddress, map_cons, Validator.withPriority_address, find?_cons]
    rfl
  obtain ⟨changed, hremove, hcenter⟩ := bind_eq_some_iff.mp hvals
  rw [filter_nil, hnew] at hremove
  obtain rfl : [v] = changed := by
    simpa [applyRemovals, applyUpdates, mergeUpdates, Std.lt_irrefl] using hremove
  rw [center_single hsound, withPriority_eq_self hzero] at hcenter
  rw [← Option.some.inj hcenter]

end Sole

end ShardingBC.Rotation
