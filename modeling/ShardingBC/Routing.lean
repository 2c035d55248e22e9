import ShardingBC.TxUtils

/-!
# Routing of relayed transactions

The sender of a block makes one message of every foreign bucket and prints the path from the root of
its transactions to the root over all buckets, which the receiver climbs again. The shard of a
message is read off the key of its bucket, where the destination is followed by a free text.
-/
namespace ShardingBC

open List Option

variable {k : Bytes}

lemma bucketTrees_lookup {b : Buckets} {keys : List Bytes} {trees : List (Bytes × SimpleMerkleTree)}
    (h : bucketTrees b keys = some trees) (hk : k ∈ keys) :
    ∃ t, simpleTreeFromByteSlices (Buckets.get b k) = some t ∧ AssocMap.lookup k trees = some t ∧
      (k, t) ∈ trees := by
  induction keys generalizing trees with
  | nil => simp at hk
  | cons k' keys ih =>
    rw [bucketTrees, mapM_cons] at h
    obtain ⟨e, he, h⟩ := bind_eq_some_iff.mp h
    obtain ⟨rest, hrest, h⟩ := bind_eq_some_iff.mp h
    obtain ⟨t, ht, rfl⟩ := map_eq_some_iff.mp he
    cases h
    by_cases hkk : k' = k
    · subst hkk
      exact ⟨t, ht, by simp [AssocMap.lookup], by simp⟩
    · obtain ⟨t', ht', hl, hm⟩ := ih hrest (by simpa [Ne.symm hkk] using hk)
      exact ⟨t', ht', by simp [AssocMap.lookup, hkk, hl], by simp [hm]⟩

lemma bucketTrees_spec {b : Buckets} {keys : List Bytes} {trees : List (Bytes × SimpleMerkleTree)}
    (h : bucketTrees b keys = some trees) : trees.map Prod.fst = keys ∧
      ∀ e ∈ trees, simpleTreeFromByteSlices (Buckets.get b e.1) = some e.2 := by
  induction keys generalizing trees with
  | nil =>
    cases h
    simp
  | cons k keys ih =>
    rw [bucketTrees, mapM_cons] at h
    obtain ⟨e, he, h⟩ := bind_eq_some_iff.mp h
    obtain ⟨rest, hrest, h⟩ := bind_eq_some_iff.mp h
    obtain ⟨t, ht, rfl⟩ := map_eq_some_iff.mp he
    cases h
    obtain ⟨hkeys, htrees⟩ := ih hrest
    refine ⟨by simp [hkeys], ?_⟩
    intro e he
    rcases mem_cons.mp he with rfl | he
    · exact ht
    · exact htrees e he

variable {txs : List Bytes} {shard : Bytes} {mts : TxMerkleTree}

/-- The tree of a foreign bucket is found under its key, and its root is a leaf of the root tree,
which has more than one. -/
lemma generateMerkleTreebySingle_spec
    (h : generateMerkleTreebySingle shard txs = some mts)
    (hk : k ∈ AssocMap.keys (classifyTxbySingle shard txs)) (hs : k ≠ shard) :
    (∃ l r, mts.rootTree = .node l r) ∧
    ∃ mt, mts.find k = some mt ∧
      simpleTreeFromByteSlices (Buckets.get (classifyTxbySingle shard txs) k) = some mt ∧
      mt.computeRootHash.bytes ∈ mts.rootTree.leaves := by
  obtain ⟨trees, htrees, h⟩ := bind_eq_some_iff.mp h
  obtain ⟨root, hroot, h⟩ := bind_eq_some_iff.mp h
  cases h
  obtain ⟨mt, hmt, hfind, hmem⟩ := bucketTrees_lookup htrees
    ((mem_sortedKeys _ k).mpr ((AssocMap.mem_keys _ k).mp hk))
  have hfilter : (k, mt) ∈ trees.filter fun e => e.1 != shard :=
    mem_filter.mpr ⟨hmem, by simpa using hs⟩
  have hleaf : mt.computeRootHash.bytes ∈ bucketRoots shard trees :=
    mem_append_left _ (mem_map.mpr ⟨(k, mt), hfilter, rfl⟩)
  refine ⟨?_, mt, hfind, hmt, ?_⟩
  · -- at least this bucket and the local root
    obtain ⟨e, rest, he⟩ := exists_cons_of_ne_nil (ne_nil_of_mem hfilter)
    rw [bucketRoots, he, map_cons] at hroot
    cases hmap : rest.map fun e => e.2.computeRootHash.bytes with
    | nil =>
      rw [hmap] at hroot
      exact simpleTree_node hroot
    | cons c cs =>
      rw [hmap] at hroot
      exact simpleTree_node hroot
  · rw [leaves_simpleTree hroot]
    exact hleaf

variable {order : List (Bytes × Int64)}

lemma mem_foreignKeys {b : Buckets}
    (horder : Traverses order b) (k : Bytes) :
    k ∈ foreignKeys shard order ↔ k ∈ AssocMap.keys b ∧ k ≠ shard ∧ k ≠ [] := by
  rw [← horder.mem_iff]
  simp only [foreignKeys, List.mem_map, mem_filter, Bool.and_eq_true, bne_iff_ne]
  constructor
  · rintro ⟨e, ⟨he, hne⟩, rfl⟩
    exact ⟨⟨e, he, rfl⟩, hne⟩
  · rintro ⟨⟨e, he, rfl⟩, hne⟩
    exact ⟨e, ⟨he, hne⟩, rfl⟩

/-- The messages of a block belong to its foreign keys, one each. -/
lemma messages_of_foreignKeys {shard index : Bytes}
    {signature pubkey : Bytes} {height : Int64}
    {cms : List CrossMessages} (horder : Traverses order (classifyTxbySingle shard txs))
    (h : classifyTxFromBlock shard index mts txs signature pubkey height order = some cms) :
    List.Forall₂ (IsBucketMessage mts (classifyTxbySingle shard txs)) (foreignKeys shard order)
      cms := by
  by_cases htxs : txs = []
  · subst htxs
    have hnil : order = [] := by
      have hlen := horder.length_eq
      simpa [classifyTxbySingle, classifyBy, updatedTxs, mergeLocal, AssocMap.keys,
        AssocMap.lookup] using hlen
    subst hnil
    cases h
    exact .nil
  · exact classifyTxFromBlock_messages htxs h

/-- The tree check of `CheckCrossMessageSig`. -/
def treeCheck (cm : CrossMessages) : Bool :=
  match simpleTreeFromByteSlices (cm.txlist.getD []) with
  | none => false
  | some smt => verifyTreePath (some smt.computeRootHash.bytes) cm.treePath cm.crossMerkleRoot

lemma IsBucketMessage.treeCheck
    (hmts : generateMerkleTreebySingle shard txs = some mts) {cm : CrossMessages}
    (hcm : IsBucketMessage mts (classifyTxbySingle shard txs) k cm)
    (hk : k ∈ AssocMap.keys (classifyTxbySingle shard txs)) (hs : k ≠ shard) :
    treeCheck cm = true := by
  obtain ⟨⟨l, r, hnode⟩, mt, hfind, htree, -⟩ := generateMerkleTreebySingle_spec hmts hk hs
  obtain ⟨mt', hfind', hpath⟩ := hcm.treePath
  obtain rfl : mt = mt' := some.inj (hfind.symm.trans hfind')
  rw [hnode] at hpath
  simp only [ShardingBC.treeCheck, hcm.txlist, getD_some, htree, hcm.crossMerkleRoot, hnode]
  exact verifyTreePath_getPathByValue (bytes_ne_nil _) hpath

/-- With the trees of its block, `ClassifyTxFromBlock` dereferences no nil. -/
lemma classifyTxFromBlock_isSome (shard index : Bytes) (txs : List Bytes)
    (signature pubkey : Bytes) (height : Int64)
    (hmts : generateMerkleTreebySingle shard txs = some mts)
    (horder : Traverses order (classifyTxbySingle shard txs)) :
    (classifyTxFromBlock shard index mts txs signature pubkey height order).isSome := by
  unfold classifyTxFromBlock
  split_ifs
  · rfl
  · rw [isSome_map]
    refine mapM_isSome_iff.mpr fun e he => ?_
    obtain ⟨hk, hs, -⟩ := (mem_foreignKeys horder e.1).mp (mem_map_of_mem he)
    obtain ⟨-, mt, hfind, -, hleaf⟩ := generateMerkleTreebySingle_spec hmts hk hs
    exact bucketMessage_isSome hfind hleaf

/-- Every foreign bucket of a block becomes a message, and the receiver's tree check accepts
each. -/
theorem messages_pass_treeCheck (shard index : Bytes) (txs : List Bytes) (signature pubkey : Bytes)
    (height : Int64) {mts : TxMerkleTree} (hmts : generateMerkleTreebySingle shard txs = some mts)
    {order : List (Bytes × Int64)} (horder : Traverses order (classifyTxbySingle shard txs)) :
    ∃ cms, classifyTxFromBlock shard index mts txs signature pubkey height order = some cms ∧
      cms.map CrossMessages.txlist = (foreignKeys shard order).map (fun k =>
        some (Buckets.get (classifyTxbySingle shard txs) k)) ∧
      ∀ cm ∈ cms, treeCheck cm = true := by
  obtain ⟨cms, hcms⟩ := isSome_iff_exists.mp
    (classifyTxFromBlock_isSome shard index txs signature pubkey height hmts horder)
  have hall := messages_of_foreignKeys horder hcms
  refine ⟨cms, hcms, ?_, ?_⟩
  · clear hcms
    generalize foreignKeys shard order = keys at hall
    induction hall with
    | nil => rfl
    | cons hcm _ ih => simp [hcm.txlist, ih]
  · intro cm hcm
    obtain ⟨k, hk, hmsg⟩ := exists_right_of_forall₂ hall.flip hcm
    obtain ⟨hk, hs, -⟩ := (mem_foreignKeys horder k).mp hk
    exact IsBucketMessage.treeCheck hmts hmsg hk hs

/-- A block with two relays to shard B and one local transfer. -/
theorem messages_of_three_transactions :
    ∃ mts, generateMerkleTreebySingle (lit "A") [relayToB.data, otherToB.data, transfer.data] =
        some mts ∧
      ∃ cms, classifyTxFromBlock (lit "A") (lit "0") mts
          [relayToB.data, otherToB.data, transfer.data] [1] [2] 1
          [(singleKey relayToB, 10), (singleKey otherToB, 11), (lit "A", 12)] = some cms ∧
        cms.length = 2 ∧ ∀ cm ∈ cms, treeCheck cm = true := by
  obtain ⟨mts, hmts⟩ := isSome_iff_exists.mp
    (generateMerkleTreebySingle_isSome (lit "A") [relayToB.data, otherToB.data, transfer.data])
  have horder : Traverses [(singleKey relayToB, 10), (singleKey otherToB, 11), (lit "A", 12)]
      (classifyTxbySingle (lit "A") [relayToB.data, otherToB.data, transfer.data]) := by
    decide +kernel
  obtain ⟨cms, hcms, htxlists, hcheck⟩ := messages_pass_treeCheck (lit "A") (lit "0") _ [1] [2] 1
    hmts horder
  have hlen := congrArg length htxlists
  simp only [length_map] at hlen
  exact ⟨mts, hmts, cms, hcms, hlen.trans (by decide +kernel), hcheck⟩

variable {t : TX}

lemma newTX_data_of_updated
    (ht : t ∈ updatedTxs shard txs) : newTX t.data = some t := by
  obtain ⟨raw, -, hraw⟩ := mem_filterMap.mp ht
  obtain ⟨u, hu, rfl⟩ := map_eq_some_iff.mp hraw
  rw [TX.newTX_data, TX.repair_updateTx (TX.repair_of_newTX hu)]

lemma data_inj_of_updated {t u : TX}
    (ht : t ∈ updatedTxs shard txs) (hu : u ∈ updatedTxs shard txs) (h : t.data = u.data) : t = u := by
  have := newTX_data_of_updated ht
  rw [h, newTX_data_of_updated hu] at this
  exact (some.inj this).symm

/-- A transaction on its way between shards. -/
def IsRelay (t : TX) : Prop := t.txtype = lit "addtx" ∨ t.txtype = lit "relaytx"

lemma singleKey_of_isRelay (h : IsRelay t) :
    singleKey t = lit "des_" ++ shardKey t ++ lit "_" ++ t.content := by
  unfold singleKey shardKey
  rcases h with h | h
  · rw [if_pos h, if_pos h]
  · have hne : t.txtype ≠ lit "addtx" := by
      rw [h]
      decide
    rw [if_neg hne, if_pos h, if_neg hne, if_pos h]

lemma isRelay_of_singleKey_ne (h : singleKey t ≠ []) : IsRelay t := by
  unfold singleKey at h
  split_ifs at h with h1 h2
  · exact Or.inl h1
  · exact Or.inr h2
  · exact absurd rfl h

lemma isRelay_of_shardKey_ne (h : shardKey t ≠ []) : IsRelay t := by
  unfold shardKey at h
  split_ifs at h with h1 h2
  · exact Or.inl h1
  · exact Or.inr h2
  · exact absurd rfl h

lemma singleKey_ne_nil (h : IsRelay t) : singleKey t ≠ [] := by
  rw [singleKey_of_isRelay h]
  simp [lit]

lemma desZone_eq_iff (d c : Bytes) :
    (split (lit "des_" ++ d ++ lit "_" ++ c) 95).getD 1 [] = d ↔ (95 : UInt8) ∉ d := by
  have hhead : ∀ x, split (lit "des_" ++ x) 95 = lit "des" :: split x 95 := fun x =>
    splitOn_append_cons_self_of_not_mem
      (by decide : (95 : UInt8) ∉ lit "des") x
  have hkey : lit "des_" ++ d ++ lit "_" ++ c = lit "des_" ++ (d ++ 95 :: c) := by
    simp [lit]
  rw [hkey, hhead]
  by_cases hd : (95 : UInt8) ∈ d
  · obtain ⟨a, b, rfl, ha⟩ := eq_append_cons_of_mem hd
    rw [append_assoc, cons_append, split, splitOn_append_cons_self_of_not_mem ha]
    simp
  · rw [split, splitOn_append_cons_self_of_not_mem hd]
    simp [hd]

lemma nodup_keys_classifyBy (des : TX → Bytes) (shard : Bytes) (txs : List Bytes) :
    (AssocMap.keys (classifyBy des shard txs)).Nodup := by
  have hfill : ∀ (items : List TX) (b : Buckets), (AssocMap.keys b).Nodup →
      (AssocMap.keys (items.foldl (addToBucket des) b)).Nodup := by
    intro items
    induction items with
    | nil => exact fun b hb => hb
    | cons t items ih => exact fun b hb => ih _ (AssocMap.nodup_keys_set _ _ b hb)
  have hnodup := hfill (updatedTxs shard txs) [] (by simp [AssocMap.keys])
  rw [classifyBy, mergeLocal]
  split
  · exact hnodup
  · exact AssocMap.nodup_keys_delete _ _ (AssocMap.nodup_keys_set _ _ _ hnodup)

lemma get_foreign {des : TX → Bytes}
    (hs : k ≠ shard) (hk : k ≠ []) :
    Buckets.get (classifyBy des shard txs) k = bucketOf des (updatedTxs shard txs) k := by
  rw [Buckets.get, lookup_classifyBy_foreign _ _ _ _ hk hs]
  split_ifs with h
  · rw [h]
    rfl
  · rfl

lemma mem_keys_of_updated
    (ht : t ∈ updatedTxs shard txs) (hs : singleKey t ≠ shard) (hk : singleKey t ≠ []) :
    singleKey t ∈ AssocMap.keys (classifyTxbySingle shard txs) := by
  have hmem : t.data ∈ bucketOf singleKey (updatedTxs shard txs) (singleKey t) :=
    mem_map_of_mem (mem_filter.mpr ⟨ht, by simp⟩)
  rw [AssocMap.mem_keys, classifyTxbySingle, lookup_classifyBy_foreign _ _ _ _ hk hs,
    if_neg (ne_nil_of_mem hmem)]
  rfl

lemma nodup_foreignKeys
    (horder : Traverses order (classifyTxbySingle shard txs)) :
    (foreignKeys shard order).Nodup := by
  have hnodup : (order.map Prod.fst).Nodup :=
    horder.nodup_iff.mpr (nodup_keys_classifyBy singleKey shard txs)
  exact hnodup.sublist (filter_sublist.map Prod.fst)

lemma ne_nil_of_mem_keys {des : TX → Bytes}
    (h : k ∈ AssocMap.keys (classifyBy des shard txs)) : k ≠ [] := by
  rintro rfl
  rw [AssocMap.mem_keys, classifyBy, mergeLocal] at h
  split at h
  · next hnone => simp [hnone] at h
  · simp at h

lemma key_eq_of_get_eq {k k' : Bytes}
    (hk : k ∈ AssocMap.keys (classifyTxbySingle shard txs)) (hs : k ≠ shard) (hne : k ≠ [])
    (hs' : k' ≠ shard) (hne' : k' ≠ [])
    (h : Buckets.get (classifyTxbySingle shard txs) k =
      Buckets.get (classifyTxbySingle shard txs) k') : k = k' := by
  obtain ⟨v, hv⟩ := isSome_iff_exists.mp ((AssocMap.mem_keys _ k).mp hk)
  have hget : Buckets.get (classifyTxbySingle shard txs) k = v := by
    rw [Buckets.get, hv]
    rfl
  obtain ⟨raw, rest, hraw⟩ := exists_cons_of_ne_nil (ne_nil_of_lookup_classifyBy hv)
  have hmem : raw ∈ bucketOf singleKey (updatedTxs shard txs) k := by
    rw [← get_foreign hs hne, ← classifyTxbySingle, hget, hraw]
    simp
  have hmem' : raw ∈ bucketOf singleKey (updatedTxs shard txs) k' := by
    rw [← get_foreign hs' hne', ← classifyTxbySingle, ← h, hget, hraw]
    simp
  obtain ⟨t, ht, rfl, rfl⟩ := mem_bucketOf.mp hmem
  obtain ⟨u, hu, rfl, hdata⟩ := mem_bucketOf.mp hmem'
  rw [data_inj_of_updated hu ht hdata]

lemma filter_eq_singleton_of_forall₂ {α β : Type} {R : α → β → Prop} {l : List α} {r : List β}
    (h : List.Forall₂ R l r) (hnodup : l.Nodup) {a : α} (ha : a ∈ l) {p : β → Bool}
    (hp : ∀ a' ∈ l, ∀ b, R a' b → (p b = true ↔ a' = a)) : ∃ b, r.filter p = [b] ∧ R a b := by
  have hnone : ∀ {l : List α} {r : List β}, List.Forall₂ R l r → a ∉ l →
      (∀ a' ∈ l, ∀ b, R a' b → (p b = true ↔ a' = a)) → r.filter p = [] := by
    intro l r h ha hp
    rw [filter_eq_nil_iff]
    intro b hb hpb
    obtain ⟨a', ha', hR⟩ := exists_right_of_forall₂ h.flip hb
    exact ha ((hp a' ha' b hR).mp hpb ▸ ha')
  induction h with
  | nil => simp at ha
  | @cons x b l r hxb hrest ih =>
    rw [nodup_cons] at hnodup
    have hp' : ∀ a' ∈ l, ∀ b, R a' b → (p b = true ↔ a' = a) := fun a' ha' =>
      hp a' (by simp [ha'])
    by_cases hxa : x = a
    · subst hxa
      have hpb : p b = true := (hp x (by simp) b hxb).mpr rfl
      exact ⟨b, by rw [filter_cons_of_pos hpb, hnone hrest hnodup.1 hp'], hxb⟩
    · have hpb : ¬ p b = true := fun h => hxa ((hp x (by simp) b hxb).mp h)
      rw [filter_cons_of_neg hpb]
      exact ih hnodup.2 (by simpa [Ne.symm hxa] using ha) hp'

/-- Every rewritten transaction for another shard is in exactly one message, addressed to its
destination, and nothing else is in a message. -/
structure Routed (shard : Bytes) (txs : List Bytes) (cms : List CrossMessages) : Prop where
  delivered : ∀ t ∈ updatedTxs shard txs, shardKey t ≠ [] → shardKey t ≠ shard →
    ∃ cm, (cms.filter fun cm => decide (t.data ∈ cm.txlist.getD [])) = [cm] ∧
      cm.desZone = shardKey t
  uniform : ∀ cm ∈ cms, ∀ raw ∈ cm.txlist.getD [], ∃ t, newTX raw = some t ∧
    shardKey t = cm.desZone
  foreign : ∀ cm ∈ cms, cm.desZone ≠ shard

/-- No destination is the local shard or has an underscore, and no relay has the local
shard's name as its key. -/
def Routable (shard : Bytes) (txs : List Bytes) : Prop :=
  ∀ t ∈ updatedTxs shard txs, IsRelay t →
    (95 : UInt8) ∉ shardKey t ∧ shardKey t ≠ shard ∧ (singleKey t = shard → shardKey t = [])

section Block

variable {shard index : Bytes} {mts : TxMerkleTree} {txs : List Bytes} {signature pubkey : Bytes}
  {height : Int64} {order : List (Bytes × Int64)} {cms : List CrossMessages}

lemma mem_txlist_iff {cm : CrossMessages}
    (hcm : IsBucketMessage mts (classifyTxbySingle shard txs) k cm) (hs : k ≠ shard) (hk : k ≠ [])
    (raw : Bytes) : raw ∈ cm.txlist.getD [] ↔
      ∃ t ∈ updatedTxs shard txs, singleKey t = k ∧ t.data = raw := by
  rw [hcm.txlist, classifyTxbySingle, get_foreign hs hk]
  exact mem_bucketOf

lemma desZone_of_singleKey {cm : CrossMessages}
    (hcm : IsBucketMessage mts (classifyTxbySingle shard txs) k cm) (hk : singleKey t = k)
    (ht : IsRelay t) : cm.desZone = shardKey t ↔ (95 : UInt8) ∉ shardKey t := by
  rw [hcm.desZone, ← hk, singleKey_of_isRelay ht]
  exact desZone_eq_iff _ _

section Relays

variable (horder : Traverses order (classifyTxbySingle shard txs))
  (hcms : classifyTxFromBlock shard index mts txs signature pubkey height order = some cms)

include horder hcms

lemma message_of_relay (ht : t ∈ updatedTxs shard txs) (hrelay : IsRelay t) (hs : singleKey t ≠ shard) :
    ∃ cm, (cms.filter fun cm => decide (t.data ∈ cm.txlist.getD [])) = [cm] ∧
      IsBucketMessage mts (classifyTxbySingle shard txs) (singleKey t) cm := by
  have hk := singleKey_ne_nil hrelay
  have hkey : singleKey t ∈ foreignKeys shard order :=
    (mem_foreignKeys horder _).mpr ⟨mem_keys_of_updated ht hs hk, hs, hk⟩
  refine filter_eq_singleton_of_forall₂ (messages_of_foreignKeys horder hcms)
    (nodup_foreignKeys horder) hkey ?_
  intro k hk cm hcm
  obtain ⟨-, hks, hkn⟩ := (mem_foreignKeys horder k).mp hk
  rw [decide_eq_true_iff, mem_txlist_iff hcm hks hkn]
  constructor
  · rintro ⟨u, hu, rfl, hdata⟩
    rw [data_inj_of_updated hu ht hdata]
  · rintro rfl
    exact ⟨t, ht, rfl, rfl⟩

lemma routed_of_routable (h : Routable shard txs) : Routed shard txs cms := by
  -- every message has a bucket, whose transactions are all for the zone of the message
  have hmsg : ∀ cm ∈ cms, ∃ k, k ∈ AssocMap.keys (classifyTxbySingle shard txs) ∧ k ≠ shard ∧
      k ≠ [] ∧ IsBucketMessage mts (classifyTxbySingle shard txs) k cm := by
    intro cm hcm
    obtain ⟨k, hk, hcm⟩ :=
      exists_right_of_forall₂ (messages_of_foreignKeys horder hcms).flip hcm
    obtain ⟨hk, hs, hne⟩ := (mem_foreignKeys horder k).mp hk
    exact ⟨k, hk, hs, hne, hcm⟩
  have huniform : ∀ cm ∈ cms, ∀ raw ∈ cm.txlist.getD [], ∃ t ∈ updatedTxs shard txs,
      newTX raw = some t ∧ IsRelay t ∧ shardKey t = cm.desZone := by
    intro cm hcm raw hraw
    obtain ⟨k, -, hs, hne, hcm⟩ := hmsg cm hcm
    obtain ⟨t, ht, hkey, rfl⟩ := (mem_txlist_iff hcm hs hne raw).mp hraw
    have hrelay : IsRelay t := isRelay_of_singleKey_ne (hkey ▸ hne)
    exact ⟨t, ht, newTX_data_of_updated ht, hrelay,
      ((desZone_of_singleKey hcm hkey hrelay).mpr (h t ht hrelay).1).symm⟩
  refine ⟨?_, ?_, ?_⟩
  · intro t ht hne hshard
    have hrelay := isRelay_of_shardKey_ne hne
    obtain ⟨hus, -, hlocal⟩ := h t ht hrelay
    obtain ⟨cm, hfilter, hcm⟩ := message_of_relay horder hcms ht hrelay fun hs => hne (hlocal hs)
    exact ⟨cm, hfilter, (desZone_of_singleKey hcm rfl hrelay).mpr hus⟩
  · intro cm hcm raw hraw
    obtain ⟨t, -, hnew, -, hzone⟩ := huniform cm hcm raw hraw
    exact ⟨t, hnew, hzone⟩
  · intro cm hcm
    obtain ⟨k, hk, hs, hne, hmsg⟩ := hmsg cm hcm
    obtain ⟨v, hv⟩ := isSome_iff_exists.mp ((AssocMap.mem_keys _ k).mp hk)
    obtain ⟨raw, rest, rfl⟩ := exists_cons_of_ne_nil (ne_nil_of_lookup_classifyBy hv)
    have hraw : raw ∈ cm.txlist.getD [] := by
      rw [hmsg.txlist, Buckets.get, hv]
      simp
    obtain ⟨t, ht, -, hrelay, hzone⟩ := huniform cm hcm raw hraw
    rw [← hzone]
    exact (h t ht hrelay).2.1

lemma routable_of_routed (h : Routed shard txs cms) : Routable shard txs := by
  intro t ht hrelay
  by_cases hs : singleKey t = shard
  · -- the relay counts as local, so it may not need a message
    have hlong : shardKey t ≠ shard := by
      intro he
      have hlen := congrArg length hs
      rw [singleKey_of_isRelay hrelay, he] at hlen
      simp [lit] at hlen
      omega
    have hnil : shardKey t = [] := by
      by_contra hne
      obtain ⟨cm, hfilter, -⟩ := h.delivered t ht hne hlong
      have hcm : cm ∈ cms.filter fun cm => decide (t.data ∈ cm.txlist.getD []) := by
        rw [hfilter]
        simp
      obtain ⟨hcm, hmem⟩ := mem_filter.mp hcm
      obtain ⟨k, hk, hmsg⟩ :=
        exists_right_of_forall₂ (messages_of_foreignKeys horder hcms).flip hcm
      obtain ⟨-, hks, hkn⟩ := (mem_foreignKeys horder k).mp hk
      obtain ⟨u, hu, rfl, hdata⟩ := (mem_txlist_iff hmsg hks hkn _).mp (by simpa using hmem)
      rw [data_inj_of_updated hu ht hdata] at hks
      exact hks hs
    exact ⟨by simp [hnil], hlong, fun _ => hnil⟩
  · obtain ⟨cm, hfilter, hmsg⟩ := message_of_relay horder hcms ht hrelay hs
    have hcm : cm ∈ cms.filter fun cm => decide (t.data ∈ cm.txlist.getD []) := by
      rw [hfilter]
      simp
    obtain ⟨hcm, hmem⟩ := mem_filter.mp hcm
    obtain ⟨u, hu, hzone⟩ := h.uniform cm hcm t.data (by simpa using hmem)
    rw [newTX_data_of_updated ht] at hu
    obtain rfl : t = u := some.inj hu
    refine ⟨(desZone_of_singleKey hmsg rfl hrelay).mp hzone.symm, ?_, fun he => absurd he hs⟩
    rw [hzone]
    exact h.foreign cm hcm

end Relays

/-- The messages of a block route its transactions just when the destinations can be told
apart from the rest of the key and from the local shard. -/
theorem routed_iff_routable (horder : Traverses order (classifyTxbySingle shard txs))
    (hcms : classifyTxFromBlock shard index mts txs signature pubkey height order = some cms) :
    Routed shard txs cms ↔ Routable shard txs :=
  ⟨routable_of_routed horder hcms, routed_of_routable horder hcms⟩

end Block

instance (t : TX) : Decidable (IsRelay t) := inferInstanceAs (Decidable (_ ∨ _))

instance (shard : Bytes) (txs : List Bytes) : Decidable (Routable shard txs) :=
  inferInstanceAs (Decidable (∀ t ∈ updatedTxs shard txs, _ → _ ∧ _ ∧ (_ → _)))

/-- Relays to two other shards are routed. -/
theorem two_relays_routed : ∃ cms, twoMessages = some cms ∧
    Routed (lit "A") [relayToB.data, relayToC.data] cms := by
  have hsome : twoMessages.isSome := by decide +kernel
  obtain ⟨cms, hcms⟩ := isSome_iff_exists.mp hsome
  have hbind := hcms
  unfold twoMessages at hbind
  obtain ⟨mts, -, hclassify⟩ := bind_eq_some_iff.mp hbind
  have horder : Traverses [(singleKey relayToB, 10), (singleKey relayToC, 11)]
      (classifyTxbySingle (lit "A") [relayToB.data, relayToC.data]) := by
    decide +kernel
  have hroutable : Routable (lit "A") [relayToB.data, relayToC.data] := by decide +kernel
  exact ⟨cms, hcms, (routed_iff_routable horder hclassify).mpr hroutable⟩

/-- A relay from shard A to itself. -/
def relayToSelf : TX := { relayToB with receiver := lit "A" }

/-- The messages that shard A makes of a block with that relay. -/
def selfMessages : Option (List CrossMessages) := do
  let txs := [relayToSelf.data]
  let mts ← generateMerkleTreebySingle (lit "A") txs
  classifyTxFromBlock (lit "A") (lit "0") mts txs [1] [2] 1
    [(singleKey (relayToSelf.updateTx (lit "A")), 10)]

/-- The shard sends itself a message. -/
theorem message_to_itself : ∃ cms, selfMessages = some cms ∧
    Traverses [(singleKey (relayToSelf.updateTx (lit "A")), 10)]
      (classifyTxbySingle (lit "A") [relayToSelf.data]) ∧
    ¬ Routed (lit "A") [relayToSelf.data] cms := by
  have hzones : selfMessages.map (map CrossMessages.desZone) = some [lit "A"] := by
    decide +kernel
  obtain ⟨cms, hcms, hzones⟩ := map_eq_some_iff.mp hzones
  refine ⟨cms, hcms, by decide +kernel, fun h => ?_⟩
  obtain ⟨cm, rfl, hzone⟩ := map_eq_singleton_iff.mp hzones
  exact h.foreign cm (by simp) hzone

end ShardingBC
