import ShardingBC.AssocMap
import ShardingBC.Identypes
import ShardingBC.SimpleTree

/-!
# Sorting a block's transactions into buckets and cross-shard messages

`types/tx_utils.go`. Where the source ranges over a map, the order of the keys is
an argument of the model.
-/
namespace ShardingBC

open List Option

abbrev Buckets := AssocMap Bytes (List Bytes)

def Buckets.get (b : Buckets) (key : Bytes) : List Bytes := (AssocMap.lookup key b).getD []

/-- The parseable transactions after `UpdateTx`. -/
def updatedTxs (shard : Bytes) (txs : List Bytes) : List TX :=
  txs.filterMap fun raw => (newTX raw).map (TX.updateTx shard)

def addToBucket (des : TX → Bytes) (b : Buckets) (t : TX) : Buckets :=
  AssocMap.set (des t) (Buckets.get b (des t) ++ [t.data]) b

/-- Transactions without destination join the local ones. -/
def mergeLocal (shard : Bytes) (b : Buckets) : Buckets :=
  match AssocMap.lookup [] b with
  | none => b
  | some txlists => AssocMap.delete [] (AssocMap.set shard (Buckets.get b shard ++ txlists) b)

def classifyBy (des : TX → Bytes) (shard : Bytes) (txs : List Bytes) : Buckets :=
  mergeLocal shard ((updatedTxs shard txs).foldl (addToBucket des) [])

/-- Bucket of one destination and content. -/
def singleKey (t : TX) : Bytes :=
  if t.txtype = lit "addtx" then lit "des_" ++ t.sender ++ lit "_" ++ t.content
  else if t.txtype = lit "relaytx" then lit "des_" ++ t.receiver ++ lit "_" ++ t.content
  else []

/-- Bucket of one destination. -/
def shardKey (t : TX) : Bytes :=
  if t.txtype = lit "addtx" then t.sender
  else if t.txtype = lit "relaytx" then t.receiver
  else []

def classifyTxbySingle (shard : Bytes) (txs : List Bytes) : Buckets := classifyBy singleKey shard txs

def classifyTx (shard : Bytes) (txs : List Bytes) : Buckets := classifyBy shardKey shard txs

/-- Byte-wise order of Go strings. -/
def stringLe : Bytes → Bytes → Bool
  | [], _ => true
  | _ :: _, [] => false
  | a :: s, b :: t => decide (a < b) || (a == b && stringLe s t)

def sortedKeys (b : Buckets) : List Bytes :=
  (AssocMap.keys b).insertionSort fun x y => stringLe x y = true

/-- `HandleSortTx`: foreign destinations in ascending order, then the local bucket. -/
def handleSortTx (shard : Bytes) (txs : List Bytes) : List Bytes :=
  let buckets := classifyTx shard txs
  ((sortedKeys buckets).filter fun k => k != shard).flatMap (Buckets.get buckets) ++
    Buckets.get buckets shard

/-- The tree of every bucket; `none` when one of them is empty. -/
def bucketTrees (b : Buckets) (keys : List Bytes) : Option (List (Bytes × SimpleMerkleTree)) :=
  keys.mapM fun k => (simpleTreeFromByteSlices (Buckets.get b k)).map fun t => (k, t)

/-- Roots of the foreign buckets in key order, then the local root, which may be nil. -/
def bucketRoots (shard : Bytes) (trees : List (Bytes × SimpleMerkleTree)) : List Bytes :=
  ((trees.filter fun e => e.1 != shard).map fun e => e.2.computeRootHash.bytes) ++
    [((AssocMap.lookup shard trees).map fun t => t.computeRootHash.bytes).getD []]

/-- `GenerateMerkleTreebySingle`; `none` is the error. -/
def generateMerkleTreebySingle (shard : Bytes) (txs : List Bytes) : Option TxMerkleTree := do
  let buckets := classifyTxbySingle shard txs
  let trees ← bucketTrees buckets (sortedKeys buckets)
  let rootTree ← simpleTreeFromByteSlices (bucketRoots shard trees)
  some { rootTree := rootTree, shardTrees := trees }

/-- `CmKey(Getbyteid(cm))`. -/
def cmKey (m : CrossMessages) : Digest := sha256 m.data

/-- The message of one foreign bucket; `none` is a nil dereference. The inner
`none` is a bucket that is skipped for its empty path. -/
def bucketMessage (shard index : Bytes) (mts : TxMerkleTree) (buckets : Buckets)
    (signature pubkey : Bytes) (height t : Int64) (key : Bytes) : Option (Option CrossMessages) := do
  let mt ← mts.find key
  let treepath ← getPathByValue mts.rootTree mt.computeRootHash.bytes
  if treepath = [] then some none
  else
    let cm := newCrossMessage index (Buckets.get buckets key) signature pubkey
      mts.rootTree.computeRootHash.bytes treepath shard ((split key 95).getD 1 []) height t
    some (some { cm with id := cmKey cm })

/-- `ClassifyTxFromBlock` with the traversal of the map and the clock readings; `none` is a nil
dereference. -/
def classifyTxFromBlock (shard index : Bytes) (mts : TxMerkleTree) (txs : List Bytes)
    (signature pubkey : Bytes) (height : Int64) (order : List (Bytes × Int64)) :
    Option (List CrossMessages) :=
  if txs = [] then some []
  else
    let buckets := classifyTxbySingle shard txs
    ((order.filter fun e => e.1 != shard && e.1 != []).mapM fun e =>
      bucketMessage shard index mts buckets signature pubkey height e.2 e.1).map
        (List.filterMap id)

/-- The traversal visits every key of the map once. -/
def Traverses (order : List (Bytes × Int64)) (b : Buckets) : Prop :=
  (order.map Prod.fst).Perm (AssocMap.keys b)

instance (order : List (Bytes × Int64)) (b : Buckets) : Decidable (Traverses order b) :=
  inferInstanceAs (Decidable (List.Perm _ _))

/-- The serialized transactions of one destination, in order. -/
def bucketOf (des : TX → Bytes) (items : List TX) (k : Bytes) : List Bytes :=
  (items.filter fun t => des t = k).map TX.data

lemma lookup_foldl_addToBucket (des : TX → Bytes) (items : List TX) (b : Buckets) (k : Bytes) :
    AssocMap.lookup k (items.foldl (addToBucket des) b) =
      if bucketOf des items k = [] then AssocMap.lookup k b
      else some (Buckets.get b k ++ bucketOf des items k) := by
  induction items generalizing b with
  | nil => simp [bucketOf]
  | cons t items ih =>
    have hl := AssocMap.lookup_set (des t) (Buckets.get b (des t) ++ [t.data]) b k
    rw [foldl_cons, ih]
    by_cases h : des t = k
    · subst h
      have hcons : bucketOf des (t :: items) (des t) =
          t.data :: bucketOf des items (des t) := by simp [bucketOf]
      have hget : Buckets.get (addToBucket des b t) (des t) =
          Buckets.get b (des t) ++ [t.data] := by
        simp [addToBucket, Buckets.get]
      rw [hcons, hget]
      by_cases hb : bucketOf des items (des t) = []
      · simp [addToBucket, hl]
      · simp [hb]
    · have hcons : bucketOf des (t :: items) k = bucketOf des items k := by
        simp [bucketOf, h]
      have hlook : AssocMap.lookup k (addToBucket des b t) = AssocMap.lookup k b := by
        rw [addToBucket, hl, if_neg h]
      rw [hcons, Buckets.get, hlook, Buckets.get]

lemma lookup_fill (des : TX → Bytes) (items : List TX) (k : Bytes) :
    AssocMap.lookup k (items.foldl (addToBucket des) []) =
      if bucketOf des items k = [] then none else some (bucketOf des items k) := by
  rw [lookup_foldl_addToBucket]
  simp [Buckets.get, AssocMap.lookup]

lemma lookup_classifyBy (des : TX → Bytes) (shard : Bytes) (txs : List Bytes) (k : Bytes) :
    AssocMap.lookup k (classifyBy des shard txs) =
      let bucket := bucketOf des (updatedTxs shard txs)
      if bucket [] ≠ [] ∧ k = [] then none
      else if bucket [] ≠ [] ∧ k = shard then some (bucket shard ++ bucket [])
      else if bucket k = [] then none else some (bucket k) := by
  rw [classifyBy, mergeLocal]
  by_cases hnil : bucketOf des (updatedTxs shard txs) [] = []
  · simp [hnil, lookup_fill]
  · have hget : Buckets.get ((updatedTxs shard txs).foldl (addToBucket des) []) shard =
        bucketOf des (updatedTxs shard txs) shard := by
      rw [Buckets.get, lookup_fill]
      split_ifs with h <;> simp [h]
    have hk : ∀ a : Bytes, k = a ↔ a = k := fun _ => eq_comm
    simp only [hnil, AssocMap.lookup_delete, AssocMap.lookup_set, lookup_fill, hget, hk, ne_eq,
      not_false_eq_true, true_and, if_false]

lemma lookup_classifyBy_foreign (des : TX → Bytes) (shard : Bytes) (txs : List Bytes) (k : Bytes)
    (hk : k ≠ []) (hs : k ≠ shard) :
    AssocMap.lookup k (classifyBy des shard txs) =
      if bucketOf des (updatedTxs shard txs) k = [] then none
      else some (bucketOf des (updatedTxs shard txs) k) := by
  simp [lookup_classifyBy, hk, hs]

lemma get_classifyBy_local (des : TX → Bytes) (shard : Bytes) (txs : List Bytes)
    (hs : shard ≠ []) :
    Buckets.get (classifyBy des shard txs) shard =
      bucketOf des (updatedTxs shard txs) shard ++ bucketOf des (updatedTxs shard txs) [] := by
  rw [Buckets.get, lookup_classifyBy]
  by_cases hnil : bucketOf des (updatedTxs shard txs) [] = []
  · by_cases hshard : bucketOf des (updatedTxs shard txs) shard = [] <;> simp [hnil, hshard]
  · simp [hnil, hs]

@[simp]
lemma mem_sortedKeys (b : Buckets) (k : Bytes) : k ∈ sortedKeys b ↔ (AssocMap.lookup k b).isSome := by
  rw [sortedKeys, mem_insertionSort, AssocMap.mem_keys]

@[simp] lemma mem_bucketOf {des : TX → Bytes} {items : List TX} {k raw : Bytes} :
    raw ∈ bucketOf des items k ↔ ∃ t ∈ items, des t = k ∧ t.data = raw := by
  simp only [bucketOf, List.mem_map, mem_filter, decide_eq_true_eq, and_assoc]

variable {txs : List Bytes}

/-- What a bucket holds has the bucket's destination or none. -/
lemma exists_of_mem_get {des : TX → Bytes} {shard : Bytes} {k raw : Bytes}
    (h : raw ∈ Buckets.get (classifyBy des shard txs) k) :
    ∃ t ∈ updatedTxs shard txs, t.data = raw ∧ (des t = k ∨ des t = []) := by
  rw [Buckets.get, lookup_classifyBy] at h
  simp only at h
  split_ifs at h with h1 h2
  · cases h
  · rw [getD_some, mem_append, mem_bucketOf, mem_bucketOf] at h
    rcases h with ⟨t, ht, hk, hd⟩ | ⟨t, ht, hk, hd⟩
    · exact ⟨t, ht, hd, .inl (hk.trans h2.2.symm)⟩
    · exact ⟨t, ht, hd, .inr hk⟩
  · cases h
  · obtain ⟨t, ht, hk, hd⟩ := mem_bucketOf.mp h
    exact ⟨t, ht, hd, .inl hk⟩

lemma ne_nil_of_lookup_classifyBy {des : TX → Bytes} {shard : Bytes} {k : Bytes}
    {v : List Bytes} (h : AssocMap.lookup k (classifyBy des shard txs) = some v) : v ≠ [] := by
  rw [lookup_classifyBy] at h
  simp only at h
  split_ifs at h with h1 h2 h3
  · cases h
    simp [h2.1]
  · cases h
    exact h3

/-- `GenerateMerkleTreebySingle` never returns its error. -/
@[simp] lemma generateMerkleTreebySingle_isSome (shard : Bytes) (txs : List Bytes) :
    (generateMerkleTreebySingle shard txs).isSome := by
  have htrees : (bucketTrees (classifyTxbySingle shard txs)
      (sortedKeys (classifyTxbySingle shard txs))).isSome := by
    refine mapM_isSome_iff.mpr fun k hk => ?_
    obtain ⟨v, hv⟩ := isSome_iff_exists.mp ((mem_sortedKeys _ k).mp hk)
    have hget : Buckets.get (classifyTxbySingle shard txs) k = v := by rw [Buckets.get, hv]; rfl
    obtain ⟨t, ht⟩ := simpleTree_isSome (ne_nil_of_lookup_classifyBy hv)
    rw [hget, ht]
    rfl
  obtain ⟨trees, ht⟩ := isSome_iff_exists.mp htrees
  have hroots : bucketRoots shard trees ≠ [] := by simp [bucketRoots]
  obtain ⟨root, hr⟩ := simpleTree_isSome hroots
  simp [generateMerkleTreebySingle, ht, hr]

lemma exists_right_of_forall₂ {α β : Type} {R : α → β → Prop} {l : List α} {r : List β}
    (h : List.Forall₂ R l r) {a : α} (ha : a ∈ l) : ∃ b ∈ r, R a b := by
  induction h with
  | nil => simp at ha
  | cons hab _ ih =>
    rcases mem_cons.mp ha with rfl | ha
    · exact ⟨_, by simp, hab⟩
    · obtain ⟨b, hb, hr⟩ := ih ha
      exact ⟨b, by simp [hb], hr⟩

/-- The message that a bucket becomes. -/
structure IsBucketMessage (mts : TxMerkleTree) (buckets : Buckets) (key : Bytes)
    (cm : CrossMessages) : Prop where
  txlist : cm.txlist = some (Buckets.get buckets key)
  desZone : cm.desZone = (split key 95).getD 1 []
  crossMerkleRoot : cm.crossMerkleRoot = some mts.rootTree.computeRootHash.bytes
  treePath : ∃ mt, mts.find key = some mt ∧
    getPathByValue mts.rootTree mt.computeRootHash.bytes = some cm.treePath
  isCompressed : cm.isCompressed = false

lemma bytes_ne_nil (d : Digest) : d.bytes ≠ [] := by
  intro he
  have := congrArg length he
  simp at this

variable {signature pubkey : Bytes} {shard index : Bytes} {mts : TxMerkleTree}

/-- No bucket with a path is skipped. -/
lemma bucketMessage_spec {buckets : Buckets}
    {height t : Int64} {key : Bytes} {o : Option CrossMessages}
    (h : bucketMessage shard index mts buckets signature pubkey height t key = some o) :
    ∃ cm, o = some cm ∧ IsBucketMessage mts buckets key cm := by
  obtain ⟨mt, hmt, h⟩ := bind_eq_some_iff.mp h
  obtain ⟨path, hpath, h⟩ := bind_eq_some_iff.mp h
  have hne : path ≠ [] := by
    obtain ⟨tr, -, -, rfl⟩ := exists_trail_of_getPathByValue (bytes_ne_nil _) hpath
    simp [formatPath]
  rw [if_neg hne] at h
  exact ⟨_, (some.inj h).symm, rfl, rfl, rfl, ⟨mt, hmt, hpath⟩, rfl⟩

lemma bucketMessage_isSome {buckets : Buckets}
    {height t : Int64} {key : Bytes} {mt : SimpleMerkleTree}
    (hmt : mts.find key = some mt) (hleaf : mt.computeRootHash.bytes ∈ mts.rootTree.leaves) :
    (bucketMessage shard index mts buckets signature pubkey height t key).isSome := by
  obtain ⟨path, hpath⟩ := isSome_iff_exists.mp (getPathByValue_isSome hleaf)
  simp only [bucketMessage, hmt, hpath, bind_eq_bind, bind_some]
  split_ifs <;> rfl

/-- The keys of the buckets that become messages, in the order of the traversal. -/
def foreignKeys (shard : Bytes) (order : List (Bytes × Int64)) : List Bytes :=
  (order.filter fun e => e.1 != shard && e.1 != []).map Prod.fst

variable {height : Int64} {order : List (Bytes × Int64)} {cms : List CrossMessages}

lemma classifyTxFromBlock_forall₂ (htxs : txs ≠ [])
    (h : classifyTxFromBlock shard index mts txs signature pubkey height order = some cms) :
    List.Forall₂ (fun e cm => bucketMessage shard index mts (classifyTxbySingle shard txs) signature
        pubkey height e.2 e.1 = some (some cm))
      (order.filter fun e => e.1 != shard && e.1 != []) cms := by
  rw [classifyTxFromBlock, if_neg htxs] at h
  obtain ⟨os, hos, rfl⟩ := map_eq_some_iff.mp h
  clear h
  generalize order.filter (fun e => e.1 != shard && e.1 != []) = entries at hos
  induction entries generalizing os with
  | nil =>
    cases hos
    exact .nil
  | cons e entries ih =>
    rw [mapM_cons] at hos
    obtain ⟨o, ho, hos⟩ := bind_eq_some_iff.mp hos
    obtain ⟨os', hos', hos⟩ := bind_eq_some_iff.mp hos
    cases hos
    obtain ⟨cm, rfl, -⟩ := bucketMessage_spec ho
    exact .cons ho (ih os' hos')

lemma classifyTxFromBlock_messages (htxs : txs ≠ [])
    (h : classifyTxFromBlock shard index mts txs signature pubkey height order = some cms) :
    List.Forall₂ (IsBucketMessage mts (classifyTxbySingle shard txs)) (foreignKeys shard order)
      cms := by
  rw [foreignKeys, forall₂_map_left_iff]
  refine (classifyTxFromBlock_forall₂ htxs h).imp fun e cm ho => ?_
  obtain ⟨cm', hcm', hmsg⟩ := bucketMessage_spec ho
  cases hcm'
  exact hmsg

lemma classifyTxFromBlock_covers
    (h : classifyTxFromBlock shard index mts txs signature pubkey height order = some cms)
    (horder : Traverses order (classifyTxbySingle shard txs)) {t : TX}
    (ht : t ∈ updatedTxs shard txs) (hk : singleKey t ≠ []) (hs : singleKey t ≠ shard) :
    ∃ cm ∈ cms, cm.txlist = some (bucketOf singleKey (updatedTxs shard txs) (singleKey t)) ∧
      cm.isCompressed = false := by
  have hmem : t.data ∈ bucketOf singleKey (updatedTxs shard txs) (singleKey t) :=
    mem_bucketOf.mpr ⟨t, ht, rfl, rfl⟩
  have hlook : AssocMap.lookup (singleKey t) (classifyTxbySingle shard txs) =
      some (bucketOf singleKey (updatedTxs shard txs) (singleKey t)) := by
    rw [classifyTxbySingle, lookup_classifyBy_foreign _ _ _ _ hk hs,
      if_neg (ne_nil_of_mem hmem)]
  have htxs : txs ≠ [] := by
    rintro rfl
    simp [updatedTxs] at ht
  have hkey : singleKey t ∈ order.map Prod.fst := by
    rw [horder.mem_iff, AssocMap.mem_keys, hlook]
    rfl
  have hforeign : singleKey t ∈ foreignKeys shard order := by
    obtain ⟨e, he, hek⟩ := mem_map.mp hkey
    refine mem_map.mpr ⟨e, mem_filter.mpr ⟨he, ?_⟩, hek⟩
    simp [hek, hk, hs]
  obtain ⟨cm, hcm, hmsg⟩ := exists_right_of_forall₂ (classifyTxFromBlock_messages htxs h) hforeign
  refine ⟨cm, hcm, ?_, hmsg.isCompressed⟩
  rw [hmsg.txlist, Buckets.get, hlook]
  rfl

/-- A relay of five coins from shard A to shard B. -/
def relayToB : TX :=
  { txtype := lit "relaytx", sender := lit "A", receiver := lit "B", id := Digest.zero
    content := lit "x_y_5_1", txSignature := [], operate := 0, height := 0 }

/-- A relay of seven coins from shard A to shard C. -/
def relayToC : TX := { relayToB with receiver := lit "C", content := lit "x_z_7_2" }

/-- The same five coins within one shard. -/
def transfer : TX := { relayToB with txtype := lit "tx" }

/-- The messages that shard A makes of a block with both relays. -/
def twoMessages : Option (List CrossMessages) := do
  let txs := [relayToB.data, relayToC.data]
  let mts ← generateMerkleTreebySingle (lit "A") txs
  classifyTxFromBlock (lit "A") (lit "0") mts txs [1] [2] 1
    [(singleKey relayToB, 10), (singleKey relayToC, 11)]

/-- The messages that shard A makes of a block with the first relay. -/
def oneMessage : Option (List CrossMessages) := do
  let txs := [relayToB.data]
  let mts ← generateMerkleTreebySingle (lit "A") txs
  classifyTxFromBlock (lit "A") (lit "0") mts txs [1] [2] 1 [(singleKey relayToB, 10)]

/-- Another relay from shard A to shard B. -/
def otherToB : TX := { relayToB with content := lit "x_z_7_2" }

/-- The messages that shard A makes of a block with two relays to B. -/
def messagesToB : Option (List CrossMessages) := do
  let txs := [relayToB.data, otherToB.data]
  let mts ← generateMerkleTreebySingle (lit "A") txs
  classifyTxFromBlock (lit "A") (lit "0") mts txs [1] [2] 1
    [(singleKey relayToB, 10), (singleKey otherToB, 11)]

def relayMessage : CrossMessages := (oneMessage.getD []).getD 0 CrossMessages.zero

end ShardingBC
