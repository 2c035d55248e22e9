import ShardingBC.Grouping
import ShardingBC.Routing

/-!
# The order of the transactions of a block

`HandleSortTx` as a stable grouping by destination: the foreign destinations in
ascending order, then the shard's own, then the transactions without destination.
-/
namespace ShardingBC
open Grouping List Option

@[simp] lemma stringLe_iff_le (s t : Bytes) : stringLe s t = true ↔ s ≤ t := by
  induction s generalizing t with
  | nil => simp [stringLe]
  | cons a s ih =>
    cases t with
    | nil => simp [stringLe]
    | cons b t => simp [stringLe, cons_le_cons_iff, ih]

lemma pairwise_sortedKeys (b : Buckets) : (sortedKeys b).Pairwise (· ≤ ·) := by
  have htotal : Std.Total fun x y : Bytes => stringLe x y = true := by
    refine ⟨fun x y => ?_⟩
    simp only [stringLe_iff_le]
    exact List.le_total x y
  have htrans : IsTrans Bytes fun x y => stringLe x y = true := by
    refine ⟨fun x y z => ?_⟩
    simp only [stringLe_iff_le]
    exact List.le_trans
  exact (pairwise_insertionSort (fun x y : Bytes => stringLe x y = true) _).imp
    (stringLe_iff_le _ _).mp

/-- The foreign destinations of transactions, as the block orders them. -/
def foreignDestinations (shard : Bytes) (txs : List Bytes) : List Bytes :=
  (sortedKeys (classifyTx shard txs)).filter fun k => k != shard

lemma pairwise_foreignDestinations (shard : Bytes) (txs : List Bytes) :
    (foreignDestinations shard txs).Pairwise (· < ·) := by
  have hnodup : (sortedKeys (classifyTx shard txs)).Nodup :=
    (perm_insertionSort _ _).nodup_iff.mpr (nodup_keys_classifyBy shardKey shard txs)
  refine List.Pairwise.filter _ ?_
  refine ((pairwise_sortedKeys _).and hnodup).imp ?_
  rintro a b ⟨hle, hne⟩
  by_contra hlt
  exact hne (List.le_antisymm hle (List.not_lt.mp hlt))

lemma nodup_foreignDestinations (shard : Bytes) (txs : List Bytes) :
    (foreignDestinations shard txs).Nodup := by
  refine (pairwise_foreignDestinations shard txs).imp ?_
  rintro a b hlt rfl
  exact List.lt_irrefl a hlt

variable {shard : Bytes} {txs : List Bytes}

@[simp] lemma mem_foreignDestinations {k : Bytes} :
    k ∈ foreignDestinations shard txs ↔
      k ≠ [] ∧ k ≠ shard ∧ ∃ t ∈ updatedTxs shard txs, shardKey t = k := by
  rw [foreignDestinations, mem_filter, mem_sortedKeys, bne_iff_ne]
  constructor
  · rintro ⟨hk, hs⟩
    have hne : k ≠ [] := ne_nil_of_mem_keys ((AssocMap.mem_keys _ _).mpr hk)
    refine ⟨hne, hs, ?_⟩
    rw [classifyTx, lookup_classifyBy_foreign _ _ _ _ hne hs] at hk
    by_contra hnone
    have hempty : bucketOf shardKey (updatedTxs shard txs) k = [] := by
      rw [bucketOf, filter_eq_nil_iff.mpr (by simpa using hnone), map_nil]
    simp [hempty] at hk
  · rintro ⟨hne, hs, t, ht, rfl⟩
    have hmem : t.data ∈ bucketOf shardKey (updatedTxs shard txs) (shardKey t) :=
      mem_bucketOf.mpr ⟨t, ht, rfl, rfl⟩
    refine ⟨?_, hs⟩
    rw [classifyTx, lookup_classifyBy_foreign _ _ _ _ hne hs, if_neg (ne_nil_of_mem hmem)]
    rfl

lemma foreignDestinations_congr {txs txs' : List Bytes}
    (h : ∀ t, t ∈ updatedTxs shard txs ↔ t ∈ updatedTxs shard txs') :
    foreignDestinations shard txs = foreignDestinations shard txs' := by
  refine List.Perm.eq_of_pairwise (fun a b _ _ hab hba => absurd hba (List.lt_asymm hab))
    (pairwise_foreignDestinations shard txs) (pairwise_foreignDestinations shard txs') ?_
  rw [perm_ext_iff_of_nodup (nodup_foreignDestinations shard txs)
    (nodup_foreignDestinations shard txs')]
  intro k
  simp only [mem_foreignDestinations, h]

/-- Every destination of a block: foreign, local, none. -/
def destinations (shard : Bytes) (txs : List Bytes) : List Bytes :=
  foreignDestinations shard txs ++ [shard, []]

lemma nodup_destinations (hs : shard ≠ []) (txs : List Bytes) :
    (destinations shard txs).Nodup := by
  refine nodup_append.mpr ⟨nodup_foreignDestinations shard txs, by simpa using hs, ?_⟩
  rintro a ha b hb rfl
  obtain ⟨hne, hns, -⟩ := mem_foreignDestinations.mp ha
  simp [hne, hns] at hb

lemma shardKey_mem_destinations {t : TX}
    (ht : t ∈ updatedTxs shard txs) : shardKey t ∈ destinations shard txs := by
  by_cases hs : shardKey t = shard
  · simp [destinations, hs]
  by_cases hne : shardKey t = []
  · simp [destinations, hne]
  · exact mem_append_left _ (mem_foreignDestinations.mpr ⟨hne, hs, t, ht, rfl⟩)

lemma handleSortTx_eq_buckets (hs : shard ≠ []) (txs : List Bytes) :
    handleSortTx shard txs =
      (foreignDestinations shard txs).flatMap (bucketOf shardKey (updatedTxs shard txs)) ++
        bucketOf shardKey (updatedTxs shard txs) shard ++
        bucketOf shardKey (updatedTxs shard txs) [] := by
  have hforeign : (foreignDestinations shard txs).flatMap (Buckets.get (classifyTx shard txs)) =
      (foreignDestinations shard txs).flatMap (bucketOf shardKey (updatedTxs shard txs)) := by
    refine flatMap_congr fun k hk => ?_
    obtain ⟨hne, hns, -⟩ := mem_foreignDestinations.mp hk
    exact get_foreign hns hne
  have hlocal := get_classifyBy_local shardKey shard txs hs
  rw [← classifyTx] at hlocal
  rw [handleSortTx, ← foreignDestinations, hforeign, hlocal, append_assoc]

lemma handleSortTx_eq_group (hs : shard ≠ []) (txs : List Bytes) :
    handleSortTx shard txs =
      (group shardKey (destinations shard txs) (updatedTxs shard txs)).map TX.data := by
  have hbucket : ∀ k, bucketOf shardKey (updatedTxs shard txs) k =
      (members shardKey (updatedTxs shard txs) k).map TX.data := fun _ => rfl
  rw [handleSortTx_eq_buckets hs, group, destinations, flatMap_append, map_append,
    map_flatMap, append_assoc]
  simp only [funext hbucket, flatMap_cons, flatMap_nil, append_nil, map_append]

lemma perm_group_updatedTxs (hs : shard ≠ []) (txs : List Bytes) :
    (group shardKey (destinations shard txs) (updatedTxs shard txs)).Perm (updatedTxs shard txs) :=
  perm_group_of_forall (nodup_destinations hs txs) fun _ => shardKey_mem_destinations

@[simp] lemma get_classifyTx_nil (shard : Bytes) (txs : List Bytes) :
    Buckets.get (classifyTx shard txs) [] = [] := by
  have hnone : AssocMap.lookup [] (classifyTx shard txs) = none := by
    rw [← not_isSome_iff_eq_none, ← AssocMap.mem_keys]
    exact fun h => ne_nil_of_mem_keys h rfl
  rw [Buckets.get, hnone, getD_none]

/-- The transactions as a block carries them. A shard without a name loses those without
destination. -/
def carriedTxs (shard : Bytes) (txs : List Bytes) : List Bytes :=
  ((updatedTxs shard txs).filter fun t => shard ≠ [] ∨ shardKey t ≠ []).map TX.data

lemma perm_handleSortTx (shard : Bytes) (txs : List Bytes) :
    (handleSortTx shard txs).Perm (carriedTxs shard txs) := by
  by_cases hs : shard = []
  · subst hs
    have hgroup : handleSortTx [] txs =
        (group shardKey (foreignDestinations [] txs) (updatedTxs [] txs)).map TX.data := by
      rw [handleSortTx, get_classifyTx_nil, append_nil, group,
        map_flatMap]
      refine flatMap_congr fun k hk => ?_
      have hne := (mem_foreignDestinations.mp hk).1
      exact get_foreign hne hne
    rw [hgroup]
    refine ((perm_group (nodup_foreignDestinations [] txs) _).map TX.data).trans
      (.of_eq (congrArg _ (filter_congr fun t ht => ?_)))
    rw [decide_eq_decide, mem_foreignDestinations]
    simp only [ne_eq, not_true_eq_false, false_or]
    exact ⟨And.left, fun hne => ⟨hne, hne, t, ht, rfl⟩⟩
  · rw [handleSortTx_eq_group hs, carriedTxs, filter_eq_self.mpr (by simp [hs])]
    exact (perm_group_updatedTxs hs txs).map TX.data

@[simp] lemma mem_handleSortTx_iff (shard : Bytes) (txs : List Bytes) (raw : Bytes) :
    raw ∈ handleSortTx shard txs ↔
      ∃ t ∈ updatedTxs shard txs, t.data = raw ∧ (shard = [] → shardKey t ≠ []) := by
  rw [(perm_handleSortTx shard txs).mem_iff, carriedTxs, List.mem_map]
  simp only [mem_filter, decide_eq_true_eq, ← imp_iff_not_or, and_assoc, and_comm (a := _ = raw)]

@[simp] lemma TX.updateTx_updateTx (shard : Bytes) (t : TX) :
    (t.updateTx shard).updateTx shard = t.updateTx shard := by
  unfold TX.updateTx
  by_cases hrelay : t.txtype = lit "relaytx"
  · by_cases hsend : t.sender = shard <;> by_cases hrecv : t.receiver = shard <;>
      simp [hrelay, hsend, hrecv]
  · simp [hrelay]

lemma updateTx_of_updated {t : TX}
    (ht : t ∈ updatedTxs shard txs) : t.updateTx shard = t := by
  obtain ⟨raw, -, hraw⟩ := mem_filterMap.mp ht
  obtain ⟨u, -, rfl⟩ := map_eq_some_iff.mp hraw
  exact TX.updateTx_updateTx shard u

lemma updatedTxs_map_data {items : List TX}
    (h : ∀ t ∈ items, t ∈ updatedTxs shard txs) : updatedTxs shard (items.map TX.data) = items := by
  rw [updatedTxs, filterMap_map]
  refine (filterMap_congr fun t ht => ?_).trans filterMap_some
  rw [Function.comp_apply, newTX_data_of_updated (h t ht), map_some,
    updateTx_of_updated (h t ht)]

lemma updatedTxs_handleSortTx (hs : shard ≠ []) (txs : List Bytes) :
    updatedTxs shard (handleSortTx shard txs) =
      group shardKey (destinations shard txs) (updatedTxs shard txs) := by
  rw [handleSortTx_eq_group hs]
  exact updatedTxs_map_data fun t ht => (perm_group_updatedTxs hs txs).mem_iff.mp ht

lemma destinations_handleSortTx (hs : shard ≠ []) (txs : List Bytes) :
    destinations shard (handleSortTx shard txs) = destinations shard txs := by
  have hmem : ∀ t, t ∈ updatedTxs shard (handleSortTx shard txs) ↔ t ∈ updatedTxs shard txs := by
    intro t
    rw [updatedTxs_handleSortTx hs, (perm_group_updatedTxs hs txs).mem_iff]
  rw [destinations, destinations, foreignDestinations_congr hmem]

lemma handleSortTx_handleSortTx (hs : shard ≠ []) (txs : List Bytes) :
    handleSortTx shard (handleSortTx shard txs) = handleSortTx shard txs := by
  rw [handleSortTx_eq_group hs (handleSortTx shard txs), updatedTxs_handleSortTx hs,
    destinations_handleSortTx hs, group_group (nodup_destinations hs txs),
    ← handleSortTx_eq_group hs]

lemma bucketOf_handleSortTx (hs : shard ≠ []) (txs : List Bytes) (k : Bytes) :
    bucketOf shardKey (updatedTxs shard (handleSortTx shard txs)) k =
      bucketOf shardKey (updatedTxs shard txs) k := by
  have hgroup : members shardKey (updatedTxs shard (handleSortTx shard txs)) k =
      members shardKey (updatedTxs shard txs) k := by
    rw [updatedTxs_handleSortTx hs, members_group (nodup_destinations hs txs)]
    split_ifs with hk
    · rfl
    · refine (filter_eq_nil_iff.mpr fun t ht hkey => hk ?_).symm
      rw [← of_decide_eq_true hkey]
      exact shardKey_mem_destinations ht
  exact congrArg (map TX.data) hgroup

/-- The buckets of a block do not depend on whether it is sorted. -/
lemma get_classifyTx_handleSortTx (hs : shard ≠ []) (txs : List Bytes)
    (k : Bytes) :
    Buckets.get (classifyTx shard (handleSortTx shard txs)) k =
      Buckets.get (classifyTx shard txs) k := by
  by_cases hne : k = []
  · rw [hne, get_classifyTx_nil, get_classifyTx_nil]
  by_cases hns : k = shard
  · subst hns
    rw [classifyTx, classifyTx, get_classifyBy_local _ _ _ hs, get_classifyBy_local _ _ _ hs,
      bucketOf_handleSortTx hs, bucketOf_handleSortTx hs]
  · rw [classifyTx, classifyTx, get_foreign hns hne, get_foreign hns hne, bucketOf_handleSortTx hs]

/-- A block holds the rewritten transactions, one group after the other in the order
they came in: the foreign destinations in ascending order, the shard itself, no
destination. Sorting it again changes nothing, and it has the buckets of the unsorted
transactions. -/
theorem handleSortTx_groups (shard : Bytes) (hs : shard ≠ []) (txs : List Bytes) :
    (handleSortTx shard txs).Perm ((updatedTxs shard txs).map TX.data) ∧
      (∃ foreign : List Bytes, foreign.Pairwise (· < ·) ∧
        (∀ k, k ∈ foreign ↔ k ≠ [] ∧ k ≠ shard ∧ ∃ t ∈ updatedTxs shard txs, shardKey t = k) ∧
        handleSortTx shard txs =
          foreign.flatMap (bucketOf shardKey (updatedTxs shard txs)) ++
            bucketOf shardKey (updatedTxs shard txs) shard ++
            bucketOf shardKey (updatedTxs shard txs) []) ∧
      handleSortTx shard (handleSortTx shard txs) = handleSortTx shard txs ∧
      ∀ k, Buckets.get (classifyTx shard (handleSortTx shard txs)) k =
        Buckets.get (classifyTx shard txs) k := by
  refine ⟨?_, ⟨foreignDestinations shard txs, pairwise_foreignDestinations shard txs,
    fun k => mem_foreignDestinations, handleSortTx_eq_buckets hs txs⟩,
    handleSortTx_handleSortTx hs txs, get_classifyTx_handleSortTx hs txs⟩
  rw [handleSortTx_eq_group hs]
  exact (perm_group_updatedTxs hs txs).map TX.data

/-- Two relays to shard B around one to C, behind a transfer and a text that is no transaction. -/
theorem five_inputs_sorted :
    ∃ out, handleSortTx (lit "A")
        [transfer.data, relayToB.data, lit "x", relayToC.data, otherToB.data] = out ∧
      out = [(relayToB.updateTx (lit "A")).data, (otherToB.updateTx (lit "A")).data,
        (relayToC.updateTx (lit "A")).data, transfer.data] ∧
      handleSortTx (lit "A") out = out := by
  have hsorted := handleSortTx_groups (lit "A") (by decide)
    [transfer.data, relayToB.data, lit "x", relayToC.data, otherToB.data]
  exact ⟨_, rfl, by decide +kernel, hsorted.2.2.1⟩

end ShardingBC
