import ShardingBC.Mempool
import ShardingBC.Routing

/-!
# Forged messages

A message carries the key that its root is checked with. Under the group key of its shard, a printed
path and the absence of hash collisions leave an accepted message no freedom: its transactions are a
bucket of a block that the shard signed. Any other key is accepted as well.
-/
namespace ShardingBC

open List Option

/-- What is hashed to check the path of an item. -/
def pathHashed (x : Bytes) (steps : List (Side × Digest)) : List Bytes :=
  leafMsg x :: MerkleTree.climbMessages sha256 nodeMsg (leafHash x) steps

section Binding

variable {S : Set Bytes} (hinj : Set.InjOn sha256 S)

include hinj

lemma SimpleMerkleTree.mem_ways {t : SimpleMerkleTree} {x : Bytes}
    {steps : List (Side × Digest)} (ht : ∀ m ∈ t.hashed, m ∈ S) (hx : ∀ m ∈ pathHashed x steps, m ∈ S)
    (h : steps.foldl (MerkleTree.climb SimpleMerkleTree.innerNode) (leafHash x) =
      t.computeRootHash) : (x, steps) ∈ t.ways leafHash SimpleMerkleTree.innerNode :=
  MerkleTree.mem_ways_of_climb hinj leafMsg_injective nodeMsg_inj leafMsg_ne_nodeMsg ht
    (hx _ (by simp [pathHashed])) (fun m hm => hx m (by simp [pathHashed, leafHash, hm])) h

end Binding

/-- `CheckCrossMessageWithInfo` returns no error. -/
def Accepts (env : Env) (db : DB) (m : Mempool) (cm : CrossMessages) : Prop :=
  (m.checkCrossMessageWithInfo env db cm).1 = .ok

/-- A message is accepted when its own key verifies the root, the path leads to the root and the
transactions parse. -/
lemma accepts_iff (env : Env) (db : DB) (m : Mempool) (cm : CrossMessages) :
    Accepts env db m cm ↔ (cm.decompression env.gzip).1 = true ∧
      (∃ key, env.getPubkeyFromByte ((cm.decompression env.gzip).2.pubkeys.getD []) = some key ∧
        env.verifyBytes key ((cm.decompression env.gzip).2.crossMerkleRoot.getD [])
          ((cm.decompression env.gzip).2.sig.getD []) = true) ∧
      treeCheck (cm.decompression env.gzip).2 = true ∧
      Mempool.checkTxlist db ((cm.decompression env.gzip).2.txlist.getD []) = .ok := by
  unfold Accepts Mempool.checkCrossMessageWithInfo
  by_cases hd : (cm.decompression env.gzip).1 = false
  · simp [hd]
  · generalize (cm.decompression env.gzip).2 = cm'
    simp only [hd, checkCrossMessageSig, treeCheck]
    cases env.getPubkeyFromByte (cm'.pubkeys.getD []) with
    | none => simp
    | some key =>
      by_cases hv : env.verifyBytes key (cm'.crossMerkleRoot.getD []) (cm'.sig.getD []) = true
      · cases simpleTreeFromByteSlices (cm'.txlist.getD []) with
        | none => simp [hv]
        | some smt =>
          cases hpath : verifyTreePath (some smt.computeRootHash.bytes) cm'.treePath
            cm'.crossMerkleRoot <;> simp [hv, hpath]
      · simp [hv]

/-- A shard with its group key and the blocks whose roots it signed. Nobody else can sign under the
key. -/
structure SigningShard (env : Env) where
  shard : Bytes
  groupKey : Bytes
  blocks : Set (List Bytes)
  unforgeable : ∀ msg sig, env.verifyBytes groupKey msg sig = true →
    ∃ txs ∈ blocks, ∃ mts, generateMerkleTreebySingle shard txs = some mts ∧
      msg = mts.rootTree.computeRootHash.bytes

/-- Everything hashed for the trees of a block. -/
def TxMerkleTree.hashed (mts : TxMerkleTree) : List Bytes :=
  mts.rootTree.hashed ++ mts.shardTrees.flatMap fun e => e.2.hashed

/-- Everything hashed to check a message. -/
def CrossMessages.hashed (cm : CrossMessages) (steps : List (Side × Digest)) : List Bytes :=
  (simpleTreeFromByteSlices (cm.txlist.getD [])).elim [] fun t =>
    t.hashed ++ pathHashed t.computeRootHash.bytes steps

namespace SigningShard

variable {env : Env} (s : SigningShard env)

/-- The shard made a message with these transactions and this path of a block it signed. -/
def Produced (cm : CrossMessages) : Prop :=
  ∃ txs ∈ s.blocks, ∃ mts, generateMerkleTreebySingle s.shard txs = some mts ∧
    ∃ index signature pubkey height order cms,
      Traverses order (classifyTxbySingle s.shard txs) ∧
      classifyTxFromBlock s.shard index mts txs signature pubkey height order = some cms ∧
      ∃ cm' ∈ cms, cm'.txlist = cm.txlist ∧ cm'.treePath = cm.treePath ∧
        cm'.crossMerkleRoot = cm.crossMerkleRoot

/-- The path is printed from these steps, the transactions are no local bucket of a signed
block, and nothing hashed for the message collides with a signed block. -/
structure WellFormed (cm : CrossMessages) (steps : List (Side × Digest)) : Prop where
  printed : cm.treePath = formatPath steps
  notLocal : ∀ txs ∈ s.blocks,
    cm.txlist.getD [] ≠ Buckets.get (classifyTxbySingle s.shard txs) s.shard
  noCollision : ∀ txs ∈ s.blocks, ∀ mts, generateMerkleTreebySingle s.shard txs = some mts →
    Set.InjOn sha256 {m | m ∈ mts.hashed ∨ m ∈ cm.hashed steps}

end SigningShard

lemma count_map_le_one {κ ν β : Type} [BEq β] [LawfulBEq β] {l : List (κ × ν)}
    (hnodup : (l.map Prod.fst).Nodup) (f : κ × ν → β) {a : β} {k : κ}
    (hkey : ∀ e ∈ l, f e = a → e.1 = k) : (l.map f).count a ≤ 1 := by
  classical
  calc (l.map f).count a = l.countP fun e => f e == a := countP_map
    _ ≤ l.countP fun e => e.1 == k :=
      countP_mono_left fun e he h => by simpa using hkey e he (by simpa using h)
    _ = (l.map Prod.fst).count k := by rw [count, countP_map]; rfl
    _ ≤ 1 := nodup_iff_count_le_one.mp hnodup k

lemma snd_eq_of_count_le_one {α β : Type} [BEq α] [LawfulBEq α] {l : List (α × β)} {a : α}
    {b b' : β}
    (hcount : (l.map Prod.fst).count a ≤ 1) (hb : (a, b) ∈ l) (hb' : (a, b') ∈ l) : b = b' := by
  by_contra hne
  have htwo : [(a, b), (a, b')] <+~ l := Nodup.subperm (by simpa using hne) (by simp [hb, hb'])
  have hle := htwo.countP_le fun e => e.1 == a
  rw [count, countP_map] at hcount
  simp only [countP_cons, beq_self_eq_true, if_true, countP_nil] at hle
  exact absurd (hle.trans hcount) (by decide)

/-- Where hashes do not collide, a climb from the root of the list ends at the root of the block
only along the path of its bucket. -/
lemma bucket_of_climb {shard : Bytes} {txs list : List Bytes} {mts : TxMerkleTree}
    (hmts : generateMerkleTreebySingle shard txs = some mts) {t : SimpleMerkleTree}
    (ht : simpleTreeFromByteSlices list = some t) {steps : List (Side × Digest)}
    (hlocal : list ≠ Buckets.get (classifyTxbySingle shard txs) shard)
    (hinj : Set.InjOn sha256
      {m | m ∈ mts.hashed ∨ m ∈ t.hashed ++ pathHashed t.computeRootHash.bytes steps})
    (hclimb : steps.foldl (MerkleTree.climb SimpleMerkleTree.innerNode)
      (leafHash t.computeRootHash.bytes) = mts.rootTree.computeRootHash) :
    ∃ k ∈ AssocMap.keys (classifyTxbySingle shard txs), k ≠ shard ∧
      list = Buckets.get (classifyTxbySingle shard txs) k ∧ mts.find k = some t ∧
      getPathByValue mts.rootTree t.computeRootHash.bytes = some (formatPath steps) := by
  obtain ⟨trees, htrees, h⟩ := bind_eq_some_iff.mp hmts
  obtain ⟨root, hroot, h⟩ := bind_eq_some_iff.mp h
  cases h
  obtain ⟨hkeys, hspec⟩ := bucketTrees_spec htrees
  have hleaves := leaves_simpleTree hroot
  generalize hr : t.computeRootHash.bytes = r at *
  have hroot_mem : ∀ m ∈ root.hashed, m ∈ {m | m ∈ (TxMerkleTree.mk root trees).hashed ∨
      m ∈ t.hashed ++ pathHashed r steps} := fun m hm => Or.inl (mem_append_left _ hm)
  -- a bucket whose tree has the root of the list holds the list
  have hsame : ∀ e ∈ trees, e.2.computeRootHash.bytes = r →
      e.2 = t ∧ list = Buckets.get (classifyTxbySingle shard txs) e.1 := by
    intro e he her
    have het : e.2 = t := by
      refine MerkleTree.eq_of_hash_eq hinj leafMsg_injective nodeMsg_inj leafMsg_ne_nodeMsg
        (fun m hm => Or.inl ?_) (fun m hm => Or.inr (mem_append_left _ hm))
        (Digest.bytes_injective (her.trans hr.symm))
      exact mem_append_right _ (mem_flatMap.mpr ⟨e, he, hm⟩)
    refine ⟨het, ?_⟩
    rw [← leaves_simpleTree ht, ← het, leaves_simpleTree (hspec e he)]
  have hlast : ((AssocMap.lookup shard trees).map fun t => t.computeRootHash.bytes).getD [] ≠ r := by
    cases hl : AssocMap.lookup shard trees with
    | none =>
      rw [← hr]
      exact (bytes_ne_nil _).symm
    | some t' => exact fun he => hlocal (hsame (shard, t') (AssocMap.mem_of_lookup hl) he).2
  have hway := SimpleMerkleTree.mem_ways hinj hroot_mem
    (fun m hm => Or.inr (mem_append_right _ hm)) hclimb
  have hmem : r ∈ bucketRoots shard trees := by
    rw [← hleaves, ← MerkleTree.map_fst_ways leafHash SimpleMerkleTree.innerNode]
    exact mem_map_of_mem hway
  rcases mem_append.mp hmem with h | h
  · obtain ⟨e, he, her⟩ := mem_map.mp h
    obtain ⟨he, hs⟩ := mem_filter.mp he
    obtain ⟨het, hlist⟩ := hsame e he her
    have hkey : e.1 ∈ sortedKeys (classifyTxbySingle shard txs) := hkeys ▸ mem_map_of_mem he
    have hkey' := (AssocMap.mem_keys _ _).mpr ((mem_sortedKeys _ _).mp hkey)
    refine ⟨e.1, hkey', by simpa using hs, hlist, ?_, ?_⟩
    · obtain ⟨t', ht', hfind, -⟩ := bucketTrees_lookup htrees hkey
      rw [hspec e he, het] at ht'
      rw [some.inj ht']
      exact hfind
    · -- the leaf stands at one place only, so its first trail is the one that was climbed
      have hcount : ((root.ways leafHash SimpleMerkleTree.innerNode).map Prod.fst).count r ≤ 1 := by
        rw [MerkleTree.map_fst_ways, hleaves, bucketRoots, count_append,
          count_singleton, if_neg (by simpa using hlast)]
        refine count_map_le_one (k := e.1) ?_ _ ?_
        · have hnodup : (trees.map Prod.fst).Nodup := by
            rw [hkeys, sortedKeys, (perm_insertionSort _ _).nodup_iff]
            exact nodup_keys_classifyBy singleKey shard txs
          exact hnodup.sublist (filter_sublist.map Prod.fst)
        · intro e' he' her'
          obtain ⟨he', hs'⟩ := mem_filter.mp he'
          have hkey'' : e'.1 ∈ AssocMap.keys (classifyTxbySingle shard txs) := by
            rw [AssocMap.mem_keys, ← mem_sortedKeys, ← hkeys]
            exact mem_map_of_mem he'
          exact key_eq_of_get_eq hkey'' (by simpa using hs') (ne_nil_of_mem_keys hkey'')
            (by simpa using hs) (ne_nil_of_mem_keys hkey')
            ((hsame e' he' her').2.symm.trans hlist)
      obtain ⟨path, hpath⟩ := isSome_iff_exists.mp
        (getPathByValue_isSome (t := root) (x := r) (hleaves ▸ hmem))
      obtain ⟨tr, htr, hhash, rfl⟩ := exists_trail_of_getPathByValue (hr ▸ bytes_ne_nil _) hpath
      rw [SimpleMerkleTree.leafTrails, MerkleTree.trails_eq_map_ways, List.mem_map] at htr
      obtain ⟨w, hw, rfl⟩ := htr
      have hwr : w.1 = r := by
        refine leafMsg_injective (hinj (hroot_mem _ (leafMsg_mem_hashed ?_))
          (Or.inr (mem_append_right _ (by simp [pathHashed]))) hhash)
        rw [← MerkleTree.map_fst_ways leafHash SimpleMerkleTree.innerNode]
        exact mem_map_of_mem hw
      have hw' : (r, w.2) ∈ root.ways leafHash SimpleMerkleTree.innerNode := by
        rw [← hwr]
        exact hw
      have hsteps := snd_eq_of_count_le_one hcount hway hw'
      rw [hpath, hsteps]
  · exact absurd (mem_singleton.mp h).symm hlast

namespace SigningShard

variable {env : Env} (s : SigningShard env)

lemma produced_of_groupKey (db : DB) (m : Mempool) {cm : CrossMessages}
    {steps : List (Side × Digest)} (hwf : s.WellFormed (cm.decompression env.gzip).2 steps)
    (hkey : env.getPubkeyFromByte ((cm.decompression env.gzip).2.pubkeys.getD []) = some s.groupKey)
    (hacc : Accepts env db m cm) : s.Produced (cm.decompression env.gzip).2 := by
  obtain ⟨-, ⟨key, hk, hverify⟩, htree, -⟩ := (accepts_iff env db m cm).mp hacc
  rw [hkey] at hk
  obtain rfl : s.groupKey = key := some.inj hk
  generalize (cm.decompression env.gzip).2 = cm' at *
  obtain ⟨txs, htxs, mts, hmts, hroot⟩ := s.unforgeable _ _ hverify
  unfold treeCheck at htree
  cases ht : simpleTreeFromByteSlices (cm'.txlist.getD []) with
  | none => simp [ht] at htree
  | some t =>
    cases hr : cm'.crossMerkleRoot with
    | none => simp [ht, hr, verifyTreePath] at htree
    | some root =>
      rw [hr] at hroot
      subst hroot
      simp only [ht, hr, hwf.printed] at htree
      have hsteps : steps ≠ [] := by
        rintro rfl
        cases htree
      rw [verifyTreePath_formatPath hsteps] at htree
      have hinj := hwf.noCollision txs htxs mts hmts
      rw [CrossMessages.hashed, ht] at hinj
      obtain ⟨k, hk, hs, hlist, hfind, hpath⟩ := bucket_of_climb hmts ht
        (hwf.notLocal txs htxs) hinj (Digest.bytes_injective htree)
      let order := (AssocMap.keys (classifyTxbySingle s.shard txs)).map fun k => (k, (0 : Int64))
      have horder : Traverses order (classifyTxbySingle s.shard txs) := by
        simp [order, Traverses, Function.comp_def]
      obtain ⟨cms, hcms⟩ := isSome_iff_exists.mp
        (classifyTxFromBlock_isSome s.shard [] txs [] [] 0 hmts horder)
      obtain ⟨cm'', hcm'', hmsg⟩ := exists_right_of_forall₂ (messages_of_foreignKeys horder hcms)
        ((mem_foreignKeys horder k).mpr ⟨hk, hs, ne_nil_of_mem_keys hk⟩)
      refine ⟨txs, htxs, mts, hmts, [], [], [], 0, order, cms, horder, hcms, cm'', hcm'', ?_, ?_,
        hmsg.crossMerkleRoot.trans hr.symm⟩
      · rw [hmsg.txlist, ← hlist]
        cases htl : cm'.txlist with
        | none => simp [htl, simpleTreeFromByteSlices] at ht
        | some txlist => rfl
      · obtain ⟨mt, hmt, hp⟩ := hmsg.treePath
        rw [hfind] at hmt
        obtain rfl : t = mt := some.inj hmt
        rw [hpath] at hp
        rw [hwf.printed]
        exact (some.inj hp).symm

end SigningShard

/-- The holder of the key can sign every message that is not empty. -/
def CanSign (env : Env) (key : Bytes) : Prop :=
  ∀ msg, msg ≠ [] → ∃ sig, env.verifyBytes key msg sig = true

/-- Relays with two destinations are never one bucket. -/
lemma two_relays_no_bucket (shard : Bytes) (txs : List Bytes) (k : Bytes) :
    [relayToB.data, relayToC.data] ≠ Buckets.get (classifyTxbySingle shard txs) k := by
  intro h
  have hkey : ∀ t : TX, t.repair = t → IsRelay t → t.data ∈ [relayToB.data, relayToC.data] →
      singleKey t = k := by
    intro t hvalid hrelay ht
    rw [h] at ht
    obtain ⟨u, hu, hd, hk⟩ := exists_of_mem_get ht
    have hnew := newTX_data_of_updated hu
    rw [hd, TX.newTX_data, hvalid] at hnew
    obtain rfl : t = u := some.inj hnew
    exact hk.resolve_right (singleKey_ne_nil hrelay)
  have hB := hkey relayToB (by decide) (by decide) (by simp)
  have hC := hkey relayToC (by decide) (by decide) (by simp)
  exact absurd (hB.trans hC.symm) (by decide)

/-- Two relays under a root that only the holder of the key has signed. -/
def forgedMessage (shard pubkeys sig : Bytes) (t : SimpleMerkleTree) : CrossMessages :=
  newCrossMessage [] [relayToB.data, relayToC.data] sig pubkeys
    (innerHash (leafHash t.computeRootHash.bytes).bytes (leafHash []).bytes).bytes
    (formatPath [(Side.right, leafHash [])]) shard (lit "B") 0 0

lemma checkTxlist_two_relays (db : DB) :
    Mempool.checkTxlist db [relayToB.data, relayToC.data] = .ok := by
  have hB : (parseTx relayToB.data).isSome := by decide +kernel
  have hC : (parseTx relayToC.data).isSome := by decide +kernel
  obtain ⟨b, hb⟩ := isSome_iff_exists.mp hB
  obtain ⟨c, hc⟩ := isSome_iff_exists.mp hC
  simp [Mempool.checkTxlist, hb, hc]

lemma accepts_forgedMessage {env : Env} (db : DB) (m : Mempool) (shard : Bytes)
    {pubkeys key sig : Bytes} {t : SimpleMerkleTree}
    (ht : simpleTreeFromByteSlices [relayToB.data, relayToC.data] = some t)
    (hkey : env.getPubkeyFromByte pubkeys = some key)
    (hsig : env.verifyBytes key
      (innerHash (leafHash t.computeRootHash.bytes).bytes (leafHash []).bytes).bytes sig = true) :
    Accepts env db m (forgedMessage shard pubkeys sig t) := by
  have hd : (forgedMessage shard pubkeys sig t).decompression env.gzip =
      (true, forgedMessage shard pubkeys sig t) := rfl
  rw [accepts_iff, hd]
  refine ⟨rfl, ⟨key, hkey, hsig⟩, ?_, checkTxlist_two_relays db⟩
  have hlist : (forgedMessage shard pubkeys sig t).txlist.getD [] =
      [relayToB.data, relayToC.data] := rfl
  unfold treeCheck
  rw [hlist, ht]
  exact (verifyTreePath_formatPath (by simp) _ _).mpr rfl

lemma SigningShard.not_produced_forgedMessage {env : Env} (s : SigningShard env)
    (pubkeys sig : Bytes) (t : SimpleMerkleTree) :
    ¬ s.Produced (forgedMessage s.shard pubkeys sig t) := by
  rintro ⟨txs, -, mts, -, index, signature, pubkey, height, order, cms, horder, hcms, cm', hcm',
    htxlist, -⟩
  obtain ⟨k, -, hmsg⟩ := exists_right_of_forall₂ (messages_of_foreignKeys horder hcms).flip hcm'
  rw [hmsg.txlist] at htxlist
  exact two_relays_no_bucket s.shard txs k (some.inj htxlist).symm

/-- Under the group key of its shard a message is accepted only if the shard produced it; with any
other key that somebody can sign with, one is accepted that the shard never produced. -/
theorem forgeable_unless_groupKey {env : Env} (s : SigningShard env) (db : DB) (m : Mempool)
    {pubkeys key : Bytes} (hkey : env.getPubkeyFromByte pubkeys = some key) :
    (key = s.groupKey → ∀ cm steps, (cm.decompression env.gzip).2.pubkeys.getD [] = pubkeys →
      s.WellFormed (cm.decompression env.gzip).2 steps → Accepts env db m cm →
      s.Produced (cm.decompression env.gzip).2) ∧
    (key ≠ s.groupKey → CanSign env key → ∃ cm, cm.srcZone = s.shard ∧ cm.pubkeys = some pubkeys ∧
      (∃ steps, cm.treePath = formatPath steps) ∧
      (∀ txs ∈ s.blocks,
        cm.txlist.getD [] ≠ Buckets.get (classifyTxbySingle s.shard txs) s.shard) ∧
      Accepts env db m cm ∧ ¬ s.Produced (cm.decompression env.gzip).2) := by
  constructor
  · rintro rfl cm steps rfl hwf hacc
    exact s.produced_of_groupKey db m hwf hkey hacc
  · intro _ hsign
    obtain ⟨t, ht⟩ := simpleTree_isSome (cons_ne_nil relayToB.data [relayToC.data])
    obtain ⟨sig, hsig⟩ := hsign
      (innerHash (leafHash t.computeRootHash.bytes).bytes (leafHash []).bytes).bytes (bytes_ne_nil _)
    exact ⟨forgedMessage s.shard pubkeys sig t, rfl, rfl, ⟨_, rfl⟩,
      fun txs _ => two_relays_no_bucket s.shard txs s.shard,
      accepts_forgedMessage db m s.shard ht hkey hsig, s.not_produced_forgedMessage pubkeys sig t⟩

/-- The text is the root of the block of a shard. -/
def isRootOf (shard : Bytes) (txs : List Bytes) (msg : Bytes) : Bool :=
  (generateMerkleTreebySingle shard txs).any fun mts => msg = mts.rootTree.computeRootHash.bytes

lemma exists_of_isRootOf {shard : Bytes} {txs : List Bytes} {msg : Bytes}
    (h : isRootOf shard txs msg = true) :
    ∃ mts, generateMerkleTreebySingle shard txs = some mts ∧
      msg = mts.rootTree.computeRootHash.bytes := by
  unfold isRootOf at h
  cases hmts : generateMerkleTreebySingle shard txs with
  | none => simp [hmts] at h
  | some mts => exact ⟨mts, rfl, by simpa [hmts] using h⟩

/-- Shard B, where the root of one block verifies under the key `[2]`, and everything under that of
a stranger. -/
def oneBlockEnv (shard : Bytes) (txs : List Bytes) : Env :=
  { plainEnv "B" with
    blsVerify := fun key msg _ => key = [9] || key = [2] && isRootOf shard txs msg }

lemma isRootOf_of_verifyBytes {shard : Bytes} {txs : List Bytes} {msg sig : Bytes}
    (h : (oneBlockEnv shard txs).verifyBytes [2] msg sig = true) :
    isRootOf shard txs msg = true := by
  unfold Env.verifyBytes at h
  split_ifs at h
  simpa [oneBlockEnv] using h

def oneBlockShard (shard : Bytes) (txs : List Bytes) : SigningShard (oneBlockEnv shard txs) where
  shard := shard
  groupKey := [2]
  blocks := {txs}
  unforgeable := fun _ _ h => ⟨txs, rfl, exists_of_isRootOf (isRootOf_of_verifyBytes h)⟩

abbrev idealEnv : Env := oneBlockEnv (lit "A") [relayToB.data]

abbrev shardA : SigningShard idealEnv := oneBlockShard (lit "A") [relayToB.data]

/-- Nothing collides in a list of texts. -/
def distinctHashes (texts : List Bytes) : Bool :=
  texts.all fun p => texts.all fun q => sha256 p = sha256 q → p = q

lemma wellFormed_oneBlockShard {shard : Bytes} {txs : List Bytes} {cm : CrossMessages}
    {steps : List (Side × Digest)} (hpath : cm.treePath = formatPath steps)
    (hlocal : cm.txlist.getD [] ≠ Buckets.get (classifyTxbySingle shard txs) shard)
    (hdistinct : (generateMerkleTreebySingle shard txs).all (fun mts =>
      distinctHashes (mts.hashed ++ cm.hashed steps)) = true) :
    (oneBlockShard shard txs).WellFormed cm steps := by
  refine ⟨hpath, ?_, ?_⟩
  · rintro _ rfl
    exact hlocal
  · rintro _ rfl mts hmts p hp q hq he
    rw [show generateMerkleTreebySingle shard _ = some mts from hmts, all_some,
      distinctHashes, List.all_eq_true] at hdistinct
    have := hdistinct p (mem_append.mpr hp)
    rw [List.all_eq_true] at this
    exact of_decide_eq_true (this q (mem_append.mpr hq)) he

lemma relayMessage_fields :
    relayMessage.isCompressed = false ∧ relayMessage.pubkeys = some [2] ∧
    relayMessage.txlist = some [{ relayToB with operate := 1 }.data] ∧
    relayMessage.treePath = formatPath [(Side.right, leafHash [])] := by
  decide +kernel

lemma accepts_relayMessage : Accepts idealEnv (fun _ => none) plainMempool relayMessage := by
  unfold Accepts
  decide +kernel

lemma wellFormed_relayMessage : shardA.WellFormed relayMessage [(Side.right, leafHash [])] := by
  apply wellFormed_oneBlockShard relayMessage_fields.2.2.2
  · decide +kernel
  · decide +kernel

/-- The message of the signed block is accepted, and produced. -/
theorem signed_relay_produced :
    Accepts idealEnv (fun _ => none) plainMempool relayMessage ∧ shardA.Produced relayMessage := by
  have hkey : idealEnv.getPubkeyFromByte [2] = some [2] := rfl
  have hpub : relayMessage.pubkeys.getD [] = [2] := by rw [relayMessage_fields.2.1, getD_some]
  have hdec : relayMessage.decompression idealEnv.gzip = (true, relayMessage) := by
    rw [CrossMessages.decompression, if_pos relayMessage_fields.1]
  have hwf := wellFormed_relayMessage
  have hacc := accepts_relayMessage
  generalize relayMessage = cm at hpub hdec hwf hacc ⊢
  have h := (forgeable_unless_groupKey shardA (fun _ => none) plainMempool hkey).1 rfl cm
    [(Side.right, leafHash [])]
  rw [hdec] at h
  exact ⟨hacc, h hpub hwf hacc⟩

/-- The stranger's two relays in the name of shard A. -/
def strangersMessage : CrossMessages :=
  (simpleTreeFromByteSlices [relayToB.data, relayToC.data]).elim CrossMessages.zero
    (forgedMessage (lit "A") [9] [1])

/-- They are accepted, and shard A made no message with their transactions. -/
theorem stranger_forges_message :
    strangersMessage.srcZone = lit "A" ∧
    Accepts idealEnv (fun _ => none) plainMempool strangersMessage ∧
    ¬ shardA.Produced strangersMessage := by
  have hfields : strangersMessage.srcZone = lit "A" ∧
      strangersMessage.txlist = some [relayToB.data, relayToC.data] := by decide +kernel
  refine ⟨hfields.1, by unfold Accepts; decide +kernel, ?_⟩
  rintro ⟨txs, -, mts, -, index, signature, pubkey, height, order, cms, horder, hcms, cm', hcm',
    htxlist, -⟩
  obtain ⟨k, -, hmsg⟩ := exists_right_of_forall₂ (messages_of_foreignKeys horder hcms).flip hcm'
  rw [hmsg.txlist] at htxlist
  exact two_relays_no_bucket _ txs k (some.inj htxlist).symm

end ShardingBC
