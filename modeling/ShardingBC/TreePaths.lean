import ShardingBC.SimpleTree

/-!
# The Merkle tree as linked nodes

`trailsFromByteSlices` links every node to its parent and its sibling. The path of a leaf and its
aunts are read off along these pointers. Paths are complete but for a single item, and sound; a
query for what is no leaf dereferences nil.
-/
namespace ShardingBC

open List Option

/-! ## Nodes -/

/-- `SimpleProofNode`; a pointer is the place of a node in the heap. -/
structure SimpleProofNode where
  hash : Digest
  parent : Option ℕ
  left : Option ℕ
  right : Option ℕ

/-- The sibling, with its side; the left one is asked for first. -/
def SimpleProofNode.sibling (n : SimpleProofNode) : Option (Side × ℕ) :=
  match n.left, n.right with
  | some s, _ => some (.left, s)
  | none, some s => some (.right, s)
  | none, none => none

abbrev NodeHeap := List SimpleProofNode

namespace NodeHeap

def hashAt (heap : NodeHeap) (a : ℕ) : Option Digest := heap[a]?.map SimpleProofNode.hash

def hashBytes (heap : NodeHeap) (a : ℕ) : Bytes := (heap.hashAt a).elim [] Digest.bytes

/-- What `trailsFromByteSlices` returns, with the heap. -/
structure Trails where
  heap : NodeHeap
  trails : List ℕ
  root : ℕ

/-- A new root over two others, which become siblings. -/
def adopt (heap : NodeHeap) (leftRoot rightRoot : ℕ) : NodeHeap :=
  let rootHash := innerHash (heap.hashBytes leftRoot) (heap.hashBytes rightRoot)
  let root := heap.length
  let heap := heap ++ [⟨rootHash, none, none, none⟩]
  let heap := heap.modify leftRoot fun n => { n with parent := some root, right := some rightRoot }
  heap.modify rightRoot fun n => { n with parent := some root, left := some leftRoot }

/-- `trailsFromByteSlices`; the tree says how the items are split. -/
def link : SimpleMerkleTree → NodeHeap → Trails
  | .leaf item, heap =>
    ⟨heap ++ [⟨leafHash item, none, none, none⟩], [heap.length], heap.length⟩
  | .node l r, heap =>
    let lefts := link l heap
    let rights := link r lefts.heap
    ⟨rights.heap.adopt lefts.root rights.root, lefts.trails ++ rights.trails, rights.heap.length⟩

/-- The walk from a node to the root; `none` is a nil dereference. -/
def walk (heap : NodeHeap) (root : ℕ) : ℕ → Option ℕ → Option (List (Side × Digest))
  | fuel, node =>
    if node = some root then some []
    else
      match fuel, node.bind (heap[·]?) with
      | fuel + 1, some n =>
        match n.sibling with
        | none => walk heap root fuel n.parent
        | some (side, s) => do
            let hash ← heap.hashAt s
            let steps ← walk heap root fuel n.parent
            return (side, hash) :: steps
      | _, _ => none

/-- `FlattenAunts`, which stops at a node without a sibling. -/
def flattenAunts (heap : NodeHeap) : ℕ → Option ℕ → Option (List Digest)
  | _, none => some []
  | 0, some _ => none
  | fuel + 1, some a => do
      let n ← heap[a]?
      match n.sibling with
      | none => return []
      | some (_, s) => do
          let hash ← heap.hashAt s
          let aunts ← flattenAunts heap fuel n.parent
          return hash :: aunts

end NodeHeap

/-- `SimpleMerkleTree`, as it lies in memory. -/
structure LinkedTree where
  total : ℕ
  nodes : NodeHeap
  root : ℕ
  leaves : List ℕ

/-- `SimpleTreeFromByteSlices`. -/
def linkedTreeFromByteSlices (items : List Bytes) : Option LinkedTree :=
  (simpleTreeFromByteSlices items).map fun t =>
    let r := NodeHeap.link t []
    ⟨items.length, r.heap, r.root, r.trails⟩

namespace LinkedTree

def computeRootHash (smt : LinkedTree) : Bytes := smt.nodes.hashBytes smt.root

/-- `getPathByHash`; no walk is longer than the number of leaves. -/
def getPathByHash (smt : LinkedTree) (item : Bytes) : Option Bytes :=
  let node := smt.leaves.find? fun leaf => smt.nodes.hashBytes leaf = item
  (smt.nodes.walk smt.root smt.total node).map formatPath

def getPathByValue (smt : LinkedTree) (tx : Bytes) : Option Bytes :=
  if tx = [] then some [] else smt.getPathByHash (leafHash tx).bytes

def getPathByIndex (smt : LinkedTree) (ith : ℤ) : Option Bytes :=
  let ith := ith - 1
  if ith < 0 ∨ smt.total < ith then some []
  else (smt.leaves[ith.toNat]?).bind fun node => smt.getPathByHash (smt.nodes.hashBytes node)

end LinkedTree

/-! ## What is linked -/

namespace NodeHeap

/-- The pointers lead from a node to the root, past these siblings and between two addresses. -/
inductive Climbs (heap : NodeHeap) (lo hi root : ℕ) : ℕ → List (Side × Digest) → Prop
  | done : Climbs heap lo hi root root []
  | step {a s p : ℕ} {n : SimpleProofNode} {side : Side} {d : Digest}
      {steps : List (Side × Digest)} :
      lo ≤ a ∧ a < hi ∧ a ≠ root → heap[a]? = some n → n.sibling = some (side, s) →
      lo ≤ s ∧ s < hi → heap.hashAt s = some d → n.parent = some p →
      Climbs heap lo hi root p steps → Climbs heap lo hi root a ((side, d) :: steps)

variable {heap heap' : NodeHeap} {lo hi lo' hi' root root' a : ℕ} {steps : List (Side × Digest)}

lemma Climbs.extend {n : SimpleProofNode} {side : Side} {s : ℕ} {d : Digest}
    (h : Climbs heap lo hi root a steps) (hlo : lo' ≤ lo) (hhi : hi ≤ hi')
    (hsame : ∀ b, lo ≤ b → b < hi → b ≠ root → heap'[b]? = heap[b]?)
    (hhash : ∀ b, lo ≤ b → b < hi → heap'.hashAt b = heap.hashAt b)
    (hroot' : hi ≤ root') (hroot : lo ≤ root ∧ root < hi) (hn : heap'[root]? = some n)
    (hsibling : n.sibling = some (side, s)) (hs : lo' ≤ s ∧ s < hi')
    (hd : heap'.hashAt s = some d) (hparent : n.parent = some root') :
    Climbs heap' lo' hi' root' a (steps ++ [(side, d)]) := by
  induction h with
  | done =>
    refine .step ⟨by omega, by omega, by omega⟩ hn hsibling hs hd hparent .done
  | step ha hn' hsibling' hs' hd' hparent' _ ih =>
    refine .step ⟨by omega, by omega, by omega⟩ ?_ hsibling' ⟨by omega, by omega⟩ ?_ hparent' ih
    · rw [hsame _ ha.1 ha.2.1 ha.2.2, hn']
    · rw [hhash _ hs'.1 hs'.2, hd']

lemma hashAt_eq_some {n : SimpleProofNode} (h : heap[a]? = some n) :
    heap.hashAt a = some n.hash := by
  rw [hashAt, h, map_some]

lemma hashBytes_eq {d : Digest} (h : heap.hashAt a = some d) : heap.hashBytes a = d.bytes := by
  rw [hashBytes, h, elim_some]

/-- What `link` makes of a tree, at the end of a heap. -/
structure IsLinked (heap : NodeHeap) (t : SimpleMerkleTree) (r : Trails) : Prop where
  kept : ∀ a, a < heap.length → r.heap[a]? = heap[a]?
  root_mem : heap.length ≤ r.root ∧ r.root < r.heap.length
  root : r.heap[r.root]? = some ⟨t.computeRootHash, none, none, none⟩
  trails : List.Forall₂ (fun a tr => r.heap.hashAt a = some tr.1 ∧
    Climbs r.heap heap.length r.heap.length r.root a tr.2) r.trails t.leafTrails

section Adopt

variable {leftRoot rightRoot b : ℕ} {n m : SimpleProofNode}

lemma getElem?_adopt (heap : NodeHeap) (leftRoot rightRoot b : ℕ) :
    (heap.adopt leftRoot rightRoot)[b]? =
      ((heap ++ [⟨innerHash (heap.hashBytes leftRoot) (heap.hashBytes rightRoot), none, none,
        none⟩])[b]?.map fun n => if leftRoot = b then
          { n with parent := some heap.length, right := some rightRoot } else n).map fun n =>
        if rightRoot = b then { n with parent := some heap.length, left := some leftRoot } else n := by
  rw [adopt, getElem?_modify, getElem?_modify]
  rfl

lemma getElem?_adopt_left (hn : heap[leftRoot]? = some n) (hne : rightRoot ≠ leftRoot) :
    (heap.adopt leftRoot rightRoot)[leftRoot]? =
      some { n with parent := some heap.length, right := some rightRoot } := by
  have hb := (List.getElem?_eq_some_iff.mp hn).1
  rw [getElem?_adopt, getElem?_append_left hb, hn]
  simp [hne]

lemma getElem?_adopt_right (hn : heap[rightRoot]? = some n) (hne : leftRoot ≠ rightRoot) :
    (heap.adopt leftRoot rightRoot)[rightRoot]? =
      some { n with parent := some heap.length, left := some leftRoot } := by
  have hb := (List.getElem?_eq_some_iff.mp hn).1
  rw [getElem?_adopt, getElem?_append_left hb, hn]
  simp [hne]

lemma getElem?_adopt_root (hl : leftRoot < heap.length) (hr : rightRoot < heap.length) :
    (heap.adopt leftRoot rightRoot)[heap.length]? =
      some ⟨innerHash (heap.hashBytes leftRoot) (heap.hashBytes rightRoot), none, none, none⟩ := by
  rw [getElem?_adopt]
  simp [hl.ne, hr.ne]

lemma hashAt_adopt (hb : b < heap.length) :
    (heap.adopt leftRoot rightRoot).hashAt b = heap.hashAt b := by
  rw [hashAt, getElem?_adopt, getElem?_append_left hb, Option.map_map, Option.map_map]
  refine congrArg (heap[b]?.map ·) (funext fun n => ?_)
  by_cases hl : leftRoot = b <;> by_cases hr : rightRoot = b <;> simp [hl, hr]

@[simp] lemma length_adopt (heap : NodeHeap) (leftRoot rightRoot : ℕ) :
    (heap.adopt leftRoot rightRoot).length = heap.length + 1 := by
  simp [adopt]

end Adopt

lemma isLinked_link (t : SimpleMerkleTree) (heap : NodeHeap) : IsLinked heap t (link t heap) := by
  induction t generalizing heap with
  | leaf item =>
    refine ⟨fun a ha => ?_, by simp [link], by simp [link]; rfl, ?_⟩
    · rw [link, getElem?_append_left ha]
    · exact .cons ⟨by simp [link, hashAt], .done⟩ .nil
  | node l r ihl ihr =>
    have hlefts := ihl heap
    have hrights := ihr (link l heap).heap
    generalize hl : link l heap = lefts at hlefts hrights
    generalize hr : link r lefts.heap = rights at hrights
    have hlink : link (.node l r) heap = ⟨rights.heap.adopt lefts.root rights.root,
        lefts.trails ++ rights.trails, rights.heap.length⟩ := by
      rw [link, hl, hr]
    rw [hlink]
    obtain ⟨hl1, hl2⟩ := hlefts.root_mem
    obtain ⟨hr1, hr2⟩ := hrights.root_mem
    have hleftRoot : rights.heap[lefts.root]? =
        some ⟨SimpleMerkleTree.computeRootHash l, none, none, none⟩ := by
      rw [hrights.kept _ hl2, hlefts.root]
    have hleftHash := hashAt_eq_some hleftRoot
    have hrightHash := hashAt_eq_some hrights.root
    -- the linking keeps all hashes, and all nodes but the two roots
    have hsame : ∀ b, b < rights.heap.length → b ≠ lefts.root → b ≠ rights.root →
        (rights.heap.adopt lefts.root rights.root)[b]? = rights.heap[b]? := by
      intro b hb h1 h2
      rw [getElem?_adopt, getElem?_append_left hb]
      simp [h1.symm, h2.symm]
    refine ⟨fun a ha => ?_, ⟨by dsimp only; omega, by simp⟩, ?_, ?_⟩
    · rw [hsame a (by omega) (by omega) (by omega), hrights.kept a (by omega), hlefts.kept a ha]
    · rw [getElem?_adopt_root (by omega) hr2, hashBytes_eq hleftHash, hashBytes_eq hrightHash]
      rfl
    have hheap := length_adopt rights.heap lefts.root rights.root
    have hlefthash : ∀ b, b < lefts.heap.length →
        (rights.heap.adopt lefts.root rights.root).hashAt b = lefts.heap.hashAt b := by
      intro b hb
      rw [hashAt_adopt (by omega), hashAt, hashAt, hrights.kept b hb]
    refine rel_append ?_ ?_
    · refine forall₂_map_right_iff.mpr (hlefts.trails.imp ?_)
      rintro a ⟨hash, steps⟩ ⟨hhash, hclimbs⟩
      dsimp only
      have ha : a < lefts.heap.length := by
        obtain ⟨n, hn, -⟩ := map_eq_some_iff.mp hhash
        exact (List.getElem?_eq_some_iff.mp hn).1
      refine ⟨by rw [hlefthash a ha, hhash], hclimbs.extend le_rfl (by omega) ?_ ?_ (by omega)
        ⟨hl1, hl2⟩ (getElem?_adopt_left hleftRoot (by omega)) rfl ⟨by omega, by omega⟩ ?_ rfl⟩
      · intro b hb1 hb2 hb3
        rw [hsame b (by omega) hb3 (by omega), hrights.kept b hb2]
      · exact fun b _ hb => hlefthash b hb
      · rw [hashAt_adopt hr2, hrightHash]
        rfl
    · refine forall₂_map_right_iff.mpr (hrights.trails.imp ?_)
      rintro a ⟨hash, steps⟩ ⟨hhash, hclimbs⟩
      dsimp only
      have ha : a < rights.heap.length := by
        obtain ⟨n, hn, -⟩ := map_eq_some_iff.mp hhash
        exact (List.getElem?_eq_some_iff.mp hn).1
      refine ⟨by rw [hashAt_adopt ha, hhash], hclimbs.extend (by omega) (by omega) ?_ ?_ le_rfl
        ⟨hr1, hr2⟩ (getElem?_adopt_right hrights.root (by omega)) rfl ⟨by omega, by omega⟩ ?_ rfl⟩
      · exact fun b hb1 hb2 hb3 => hsame b hb2 (by omega) hb3
      · exact fun b _ hb => hashAt_adopt hb
      · rw [hashAt_adopt (by omega), hleftHash]
        rfl

/-- The walk finds the siblings on the way. -/
lemma Climbs.walk {fuel : ℕ} (h : Climbs heap lo hi root a steps) (hfuel : steps.length ≤ fuel) :
    heap.walk root fuel (some a) = some steps := by
  induction h generalizing fuel with
  | done =>
    unfold NodeHeap.walk
    exact if_pos rfl
  | step ha hn hsibling _ hd hparent _ ih =>
    rw [length_cons] at hfuel
    obtain ⟨fuel, rfl⟩ : ∃ k, fuel = k + 1 := Nat.exists_eq_succ_of_ne_zero (by omega)
    have hne : ¬ some _ = some root := fun heq => ha.2.2 (some.inj heq)
    unfold NodeHeap.walk
    rw [if_neg hne, bind_some, hn]
    simp only [hsibling, hd, hparent, ih (Nat.le_of_succ_le_succ hfuel), bind_eq_bind,
      bind_some, Option.pure_def]

@[simp] lemma walk_none (heap : NodeHeap) (root fuel : ℕ) : heap.walk root fuel none = none := by
  cases fuel <;> rfl

/-- The aunts are the siblings on the way, if the root has none. -/
lemma Climbs.flattenAunts {fuel : ℕ} {n : SimpleProofNode} (h : Climbs heap lo hi root a steps)
    (hroot : heap[root]? = some n) (hnone : n.sibling = none) (hfuel : steps.length < fuel) :
    heap.flattenAunts fuel (some a) = some (steps.map Prod.snd) := by
  induction h generalizing fuel with
  | done =>
    obtain ⟨fuel, rfl⟩ : ∃ k, fuel = k + 1 := Nat.exists_eq_succ_of_ne_zero (by omega)
    simp [NodeHeap.flattenAunts, hroot, hnone]
  | step _ hn hsibling _ hd hparent _ ih =>
    obtain ⟨fuel, rfl⟩ : ∃ k, fuel = k + 1 := Nat.exists_eq_succ_of_ne_zero (by omega)
    simp [NodeHeap.flattenAunts, hn, hsibling, hd, hparent,
      ih (Nat.lt_of_succ_lt_succ hfuel)]

end NodeHeap

namespace LinkedTree

/-- The linked nodes are those of the tree. -/
structure Represents (smt : LinkedTree) (t : SimpleMerkleTree) : Prop where
  total : smt.total = t.leaves.length
  root : smt.nodes[smt.root]? = some ⟨t.computeRootHash, none, none, none⟩
  trails : List.Forall₂ (fun a tr => smt.nodes.hashAt a = some tr.1 ∧
    NodeHeap.Climbs smt.nodes 0 smt.nodes.length smt.root a tr.2) smt.leaves t.leafTrails

variable {smt : LinkedTree} {t : SimpleMerkleTree} {items : List Bytes}

lemma represents_of_items (h : linkedTreeFromByteSlices items = some smt) :
    ∃ t, simpleTreeFromByteSlices items = some t ∧ smt.Represents t := by
  obtain ⟨t, ht, rfl⟩ := map_eq_some_iff.mp h
  have hlinked := NodeHeap.isLinked_link t []
  exact ⟨t, ht, by rw [leaves_simpleTree ht], hlinked.root, hlinked.trails⟩

@[simp] lemma length_leafTrails (t : SimpleMerkleTree) : t.leafTrails.length = t.leaves.length := by
  have hhashes := congrArg length
    (MerkleTree.trails_hashes leafHash SimpleMerkleTree.innerNode t)
  rwa [length_map, length_map] at hhashes

lemma Represents.computeRootHash_eq (h : smt.Represents t) :
    smt.computeRootHash = t.computeRootHash.bytes :=
  NodeHeap.hashBytes_eq (NodeHeap.hashAt_eq_some h.root)

/-- The path from a leaf, as the pointers give it. -/
def pathFrom (smt : LinkedTree) (leaf : ℕ) : Option Bytes :=
  (smt.nodes.walk smt.root smt.total (some leaf)).map formatPath

lemma Represents.pathFrom (h : smt.Represents t) : List.Forall₂ (fun a tr =>
    smt.nodes.hashBytes a = tr.1.bytes ∧ smt.pathFrom a = some (formatPath tr.2)) smt.leaves
      t.leafTrails := by
  refine forall₂_iff_get.mpr ⟨h.trails.length_eq, fun i hi hi' => ?_⟩
  obtain ⟨hhash, hclimbs⟩ := h.trails.get hi hi'
  have hlength := MerkleTree.length_trail_lt leafHash SimpleMerkleTree.innerNode t _
    (get_mem t.leafTrails ⟨i, hi'⟩)
  refine ⟨NodeHeap.hashBytes_eq hhash, ?_⟩
  rw [LinkedTree.pathFrom, hclimbs.walk (by rw [h.total]; omega), map_some]

/-- The pointers give the same paths as the tree. -/
lemma Represents.getPathByHash_eq (h : smt.Represents t) (d : Digest) :
    smt.getPathByHash d.bytes = ShardingBC.getPathByHash t d := by
  have hfind : ∀ {leaves : List ℕ} {trs : List (Digest × List (Side × Digest))},
      List.Forall₂ (fun a tr => smt.nodes.hashBytes a = tr.1.bytes ∧
        smt.pathFrom a = some (formatPath tr.2)) leaves trs →
      ((smt.nodes.walk smt.root smt.total
          (leaves.find? fun leaf => smt.nodes.hashBytes leaf = d.bytes)).map formatPath) =
        (trs.find? fun tr => tr.1 == d).map fun tr => formatPath tr.2 := by
    intro leaves trs hall
    induction hall with
    | nil => rw [find?_nil, NodeHeap.walk_none]; rfl
    | cons hhead _ ih =>
      next a tr leaves trs _ =>
      by_cases hd : tr.1 = d
      · rw [find?_cons_of_pos (by simp [hhead.1, hd]),
          find?_cons_of_pos (by simp [hd])]
        exact hhead.2
      · have hne : smt.nodes.hashBytes a ≠ d.bytes := fun heq =>
          hd (Digest.bytes_injective (hhead.1.symm.trans heq))
        rw [find?_cons_of_neg (by simp [hne]), find?_cons_of_neg (by simp [hd])]
        exact ih
  exact hfind h.pathFrom

lemma Represents.getPathByValue_eq (h : smt.Represents t) (tx : Bytes) :
    smt.getPathByValue tx = ShardingBC.getPathByValue t tx := by
  rw [LinkedTree.getPathByValue, ShardingBC.getPathByValue, h.getPathByHash_eq]

/-! ## Completeness -/

@[simp] lemma verifyTreePath_formatPath_nil (item root : Bytes) :
    verifyTreePath (some item) (formatPath []) (some root) = false := by
  have hparse : parsePath (formatPath []) = none := by decide
  rw [verifyTreePath, hparse]

/-- `VerifyTreePath` accepts the path that `GetPathByValue` returns for an item exactly if the item
is not the only one. -/
theorem path_accepted_iff (hsmt : linkedTreeFromByteSlices items = some smt)
    (hitems : ∀ item ∈ items, item ≠ []) {item : Bytes} (hitem : item ∈ items) :
    (∃ path, smt.getPathByValue item = some path ∧
      verifyTreePath (some item) path (some smt.computeRootHash) = true) ↔ 2 ≤ items.length := by
  obtain ⟨t, ht, hrep⟩ := represents_of_items hsmt
  have hleaves := leaves_simpleTree ht
  obtain ⟨path, hpath⟩ := isSome_iff_exists.mp
    (getPathByValue_isSome (t := t) (hleaves.symm ▸ hitem))
  rw [hrep.computeRootHash_eq]
  simp only [hrep.getPathByValue_eq, hpath]
  match items, ht, hsmt with
  | [a], ht, _ =>
    obtain ⟨tr, htr, -, rfl⟩ := exists_trail_of_getPathByValue (hitems item hitem) hpath
    cases ht
    obtain rfl : tr = (leafHash a, []) := mem_singleton.mp htr
    simp
  | a :: b :: xs, ht, _ =>
    obtain ⟨l, r, rfl⟩ := simpleTree_node ht
    simp [verifyTreePath_getPathByValue (hitems item hitem) hpath]

/-- Paths in a tree of two items. -/
theorem two_items_accepted :
    ∃ smt, linkedTreeFromByteSlices [lit "a", lit "b"] = some smt ∧
      ∃ path, smt.getPathByValue (lit "b") = some path ∧
        verifyTreePath (some (lit "b")) path (some smt.computeRootHash) = true := by
  have hsmt : linkedTreeFromByteSlices [lit "a", lit "b"] = some _ := rfl
  exact ⟨_, hsmt, (path_accepted_iff hsmt (by decide) (by decide)).mpr (by decide)⟩

/-- The path in a tree of one item is refused. -/
theorem one_item_refused :
    ∃ smt, linkedTreeFromByteSlices [lit "a"] = some smt ∧
      smt.getPathByValue (lit "a") = some (lit "/") ∧
      verifyTreePath (some (lit "a")) (lit "/") (some smt.computeRootHash) = false := by
  decide +kernel

/-! ## Queries -/

/-- The items whose path the queries return. -/
lemma getPathByValue_returns_iff (hsmt : linkedTreeFromByteSlices items = some smt) (tx : Bytes) :
    (∃ path, smt.getPathByValue tx = some path ∧ (tx ∉ items → path = [])) ↔
      tx = [] ∨ tx ∈ items := by
  obtain ⟨t, ht, hrep⟩ := represents_of_items hsmt
  have hleaves := leaves_simpleTree ht
  rw [hrep.getPathByValue_eq]
  constructor
  · rintro ⟨path, hpath, hempty⟩
    by_contra hno
    push Not at hno
    obtain ⟨tr, -, -, rfl⟩ := exists_trail_of_getPathByValue hno.1 hpath
    exact absurd (hempty hno.2) (cons_ne_nil _ _)
  · rintro (rfl | hmem)
    · exact ⟨[], by rw [ShardingBC.getPathByValue, if_pos rfl], fun _ => rfl⟩
    · obtain ⟨path, hpath⟩ := isSome_iff_exists.mp
        (getPathByValue_isSome (t := t) (hleaves.symm ▸ hmem))
      exact ⟨path, hpath, fun hno => absurd hmem hno⟩

/-- A leaf before the others of its hash. -/
def FirstOfHash (items : List Bytes) (i : ℕ) : Prop :=
  ∀ j < i, ∀ a b, items[j]? = some a → items[i]? = some b → leafHash a ≠ leafHash b

lemma Represents.leaf (h : smt.Represents t) {i : ℕ} {item : Bytes}
    (hi : t.leaves[i]? = some item) :
    ∃ a steps, smt.leaves[i]? = some a ∧ t.leafTrails[i]? = some (leafHash item, steps) ∧
      smt.nodes.hashBytes a = (leafHash item).bytes ∧
      smt.pathFrom a = some (formatPath steps) := by
  have htrail : (t.leafTrails.map Prod.fst)[i]? = some (leafHash item) := by
    rw [SimpleMerkleTree.leafTrails, MerkleTree.trails_hashes, getElem?_map, hi]
    rfl
  rw [getElem?_map, map_eq_some_iff] at htrail
  obtain ⟨⟨hash, steps⟩, htrail, rfl⟩ := htrail
  obtain ⟨hi', htr⟩ := List.getElem?_eq_some_iff.mp htrail
  have hlength := h.pathFrom.length_eq
  obtain ⟨hhash, hpath⟩ := h.pathFrom.get (by omega) hi'
  rw [get_eq_getElem, get_eq_getElem, htr] at hhash hpath
  exact ⟨_, steps, getElem?_eq_getElem _, htrail, hhash, hpath⟩

lemma formatPath_inj {steps steps' : List (Side × Digest)} (hne : steps ≠ [])
    (hne' : steps' ≠ []) (h : formatPath steps = formatPath steps') : steps = steps' := by
  have hparse := congrArg parsePath h
  rw [parsePath_formatPath hne, parsePath_formatPath hne', some.injEq] at hparse
  refine map_injective_iff.mpr ?_ hparse
  have hdirect : ∀ side side', directOf side = directOf side' → side = side' := by
    intro side side' hside
    cases side <;> cases side' <;> first | rfl | cases hside
  rintro ⟨side, d⟩ ⟨side', d'⟩ heq
  obtain ⟨hside, hd⟩ := Prod.mk.inj heq
  exact Prod.ext (hdirect _ _ hside) (Digest.bytes_injective hd)

/-- Leaves at different places have different paths. -/
lemma formatPath_trail_ne {i j : ℕ} {tr tr' : Digest × List (Side × Digest)} (hij : i ≠ j)
    (hi : t.leafTrails[i]? = some tr) (hj : t.leafTrails[j]? = some tr') :
    formatPath tr.2 ≠ formatPath tr'.2 := by
  intro heq
  have hmem := mem_of_getElem? hi
  have hmem' := mem_of_getElem? hj
  cases t with
  | leaf a =>
    have h1 := (List.getElem?_eq_some_iff.mp hi).1
    have h2 := (List.getElem?_eq_some_iff.mp hj).1
    simp only [SimpleMerkleTree.leafTrails, MerkleTree.trails, length_singleton] at h1 h2
    omega
  | node l r =>
    have hsteps := formatPath_inj (MerkleTree.trail_ne_nil _ _ l r tr hmem)
      (MerkleTree.trail_ne_nil _ _ l r tr' hmem') heq
    have hnodup := MerkleTree.nodup_trail_steps leafHash SimpleMerkleTree.innerNode (.node l r)
    have hlt : i < (SimpleMerkleTree.leafTrails (.node l r)).length :=
      (List.getElem?_eq_some_iff.mp hi).1
    refine hij ((getElem?_inj (by rwa [length_map]) hnodup).mp ?_)
    rw [getElem?_map, getElem?_map]
    exact (congrArg (Option.map Prod.snd) hi).trans
      ((congrArg some hsteps).trans (congrArg (Option.map Prod.snd) hj).symm)

lemma getPathByHash_eq_iff {i : ℕ} {item : Bytes} {steps : List (Side × Digest)}
    (hitem : t.leaves[i]? = some item) (htrail : t.leafTrails[i]? = some (leafHash item, steps)) :
    ShardingBC.getPathByHash t (leafHash item) = some (formatPath steps) ↔
      FirstOfHash t.leaves i := by
  have hhash : ∀ (j : ℕ) (a : Bytes), t.leaves[j]? = some a →
      (t.leafTrails[j]?).map Prod.fst = some (leafHash a) := by
    intro j a ha
    rw [← getElem?_map, SimpleMerkleTree.leafTrails, MerkleTree.trails_hashes,
      getElem?_map, ha]
    rfl
  rw [ShardingBC.getPathByHash, map_eq_some_iff]
  constructor
  · rintro ⟨tr, hfind, hpath⟩ j hj a b ha hb heq
    obtain ⟨hp, k, hk, htr, hbefore⟩ := find?_eq_some_iff_getElem.mp hfind
    have hki : k = i := by
      by_contra hne
      refine formatPath_trail_ne hne ?_ htrail hpath
      rw [getElem?_eq_getElem hk, htr]
    subst hki
    obtain rfl : item = b := some.inj (hitem.symm.trans hb)
    have hj' := hbefore j hj
    have hja := hhash j a ha
    rw [getElem?_eq_getElem (hj.trans hk), map_some, some.injEq] at hja
    rw [hja, heq] at hj'
    simp at hj'
  · intro hfirst
    obtain ⟨hi, htr⟩ := List.getElem?_eq_some_iff.mp htrail
    refine ⟨(leafHash item, steps), find?_eq_some_iff_getElem.mpr
      ⟨by simp, i, hi, htr, fun j hj => ?_⟩, rfl⟩
    have hjlt : j < t.leaves.length := by
      have := (List.getElem?_eq_some_iff.mp hitem).1
      omega
    have hja := hhash j _ (getElem?_eq_getElem hjlt)
    rw [getElem?_eq_getElem (hj.trans hi), map_some, some.injEq] at hja
    have hne := hfirst j hj _ _ (getElem?_eq_getElem hjlt) hitem
    simpa [hja] using hne

/-- `GetPathByIndex` returns the path of the leaf, or an empty one if there is none, exactly if the
index is not just behind the last leaf and no earlier leaf has the hash. -/
lemma getPathByIndex_returns_iff (hsmt : linkedTreeFromByteSlices items = some smt) (ith : ℤ) :
    (∃ path, smt.getPathByIndex ith = some path ∧
      (1 ≤ ith ∧ ith ≤ items.length →
        (smt.leaves[(ith - 1).toNat]?).bind smt.pathFrom = some path) ∧
      (¬ (1 ≤ ith ∧ ith ≤ items.length) → path = [])) ↔
      ith ≠ items.length + 1 ∧
        (1 ≤ ith → ith ≤ items.length → FirstOfHash items (ith - 1).toNat) := by
  obtain ⟨t, ht, hrep⟩ := represents_of_items hsmt
  have hleaves := leaves_simpleTree ht
  have htotal : smt.total = items.length := by rw [hrep.total, hleaves]
  have hlength : smt.leaves.length = items.length := by
    rw [hrep.trails.length_eq, length_leafTrails, hleaves]
  unfold getPathByIndex
  by_cases hin : 1 ≤ ith ∧ ith ≤ items.length
  · have hlt : (ith - 1).toNat < items.length := by omega
    have hitem : t.leaves[(ith - 1).toNat]? = some items[(ith - 1).toNat] := by
      rw [hleaves, getElem?_eq_getElem hlt]
    obtain ⟨a, steps, ha, htrail, hhash, hpath⟩ := hrep.leaf hitem
    have hfirst := getPathByHash_eq_iff hitem htrail
    rw [hleaves] at hfirst
    rw [if_neg (by omega), ha, bind_some, bind_some, hhash, hrep.getPathByHash_eq,
      hpath]
    constructor
    · rintro ⟨path, hfound, hown, -⟩
      rw [← hown hin] at hfound
      exact ⟨by omega, fun _ _ => hfirst.mp hfound⟩
    · rintro ⟨-, h⟩
      exact ⟨_, hfirst.mpr (h hin.1 hin.2), fun _ => rfl, fun hout => absurd hin hout⟩
  · by_cases hlast : ith = items.length + 1
    · have hnone : smt.leaves[(ith - 1).toNat]? = none := getElem?_eq_none (by omega)
      rw [if_neg (by omega), hnone]
      refine iff_of_false ?_ fun h => h.1 hlast
      rintro ⟨path, hpath, -⟩
      cases hpath
    · rw [if_pos (by omega)]
      refine iff_of_true ⟨[], rfl, fun h => absurd h hin, fun _ => rfl⟩ ⟨hlast, fun h1 h2 => ?_⟩
      exact absurd ⟨h1, h2⟩ hin

/-- When the queries return what is asked for. -/
theorem path_queries_iff (hsmt : linkedTreeFromByteSlices items = some smt) :
    (∀ tx, (∃ path, smt.getPathByValue tx = some path ∧ (tx ∉ items → path = [])) ↔
      tx = [] ∨ tx ∈ items) ∧
    ∀ ith : ℤ, (∃ path, smt.getPathByIndex ith = some path ∧
      (1 ≤ ith ∧ ith ≤ items.length →
        (smt.leaves[(ith - 1).toNat]?).bind smt.pathFrom = some path) ∧
      (¬ (1 ≤ ith ∧ ith ≤ items.length) → path = [])) ↔
      ith ≠ items.length + 1 ∧
        (1 ≤ ith → ith ≤ items.length → FirstOfHash items (ith - 1).toNat) :=
  ⟨getPathByValue_returns_iff hsmt, getPathByIndex_returns_iff hsmt⟩

/-- Queries for leaves of a tree of two items. -/
theorem two_items_queries :
    ∃ smt, linkedTreeFromByteSlices [lit "a", lit "b"] = some smt ∧
      (∃ path, smt.getPathByValue (lit "b") = some path) ∧
      ∃ path, smt.getPathByIndex 1 = some path ∧
        (smt.leaves[0]?).bind smt.pathFrom = some path := by
  have hsmt : linkedTreeFromByteSlices [lit "a", lit "b"] = some _ := rfl
  refine ⟨_, hsmt, ?_⟩
  obtain ⟨hvalue, hindex⟩ := path_queries_iff hsmt
  obtain ⟨path, hpath, -⟩ := (hvalue (lit "b")).mpr (.inr (by decide))
  obtain ⟨path', hpath', hown, -⟩ := (hindex 1).mpr ⟨by decide, fun _ _ j hj => absurd hj (by simp)⟩
  exact ⟨⟨path, hpath⟩, path', hpath', hown (by decide)⟩

/-- The queries for another value and for the index behind the last one panic, and the
query for the second of two equal items returns the path of the first. -/
theorem path_queries_fail :
    (∃ smt, linkedTreeFromByteSlices [lit "a", lit "b"] = some smt ∧
      smt.getPathByValue (lit "c") = none ∧ smt.getPathByIndex 3 = none) ∧
    ∃ smt, linkedTreeFromByteSlices [lit "a", lit "a"] = some smt ∧
      smt.getPathByIndex 2 = smt.getPathByIndex 1 ∧
      (smt.leaves[1]?).bind smt.pathFrom ≠ (smt.leaves[0]?).bind smt.pathFrom := by
  refine ⟨⟨_, rfl, ?_, ?_⟩, _, rfl, ?_, ?_⟩ <;> decide +kernel

end LinkedTree

/-! ## Soundness -/

/-- Two different messages, one of each list, have the same hash. -/
def CallsCollide (calls calls' : List Bytes) : Prop :=
  ∃ m ∈ calls, ∃ m' ∈ calls', m ≠ m' ∧ sha256 m = sha256 m'

lemma CallsCollide.mono {a a' b b' : List Bytes} (h : CallsCollide a b) (ha : a ⊆ a')
    (hb : b ⊆ b') : CallsCollide a' b' := by
  obtain ⟨m, hm, m', hm', hcol⟩ := h
  exact ⟨m, ha hm, m', hb hm', hcol⟩

/-- What `VerifyTreePath` hashes on the way to the root; unknown directions are passed over. -/
def stepCalls (h : Digest) : List (UInt8 × Bytes) → List Bytes
  | [] => []
  | s :: steps =>
    (if s.1 = pathLeft then [1 :: (h.bytes ++ s.2)]
      else if s.1 = pathRight then [1 :: (s.2 ++ h.bytes)] else []) ++
      stepCalls (stepHash h s) steps

/-- What `VerifyTreePath` hashes for an item and a path. -/
def treePathCalls (item path : Bytes) : List Bytes :=
  leafMsg item :: ((parsePath path).elim [] (stepCalls (leafHash item)))

@[simp] lemma stepCalls_concat (h : Digest) (steps : List (UInt8 × Bytes)) (s : UInt8 × Bytes) :
    stepCalls h (steps ++ [s]) = stepCalls h steps ++ stepCalls (steps.foldl stepHash h) [s] := by
  induction steps generalizing h with
  | nil => rfl
  | cons s' steps ih => simp [stepCalls, ih]

/-- A step is one call of the hash, over the hash so far and the key, or nothing. -/
lemma stepHash_cases (h : Digest) (s : UInt8 × Bytes) :
    (stepCalls h [s] = [] ∧ stepHash h s = h) ∨
      ∃ m, stepCalls h [s] = [m] ∧ stepHash h s = sha256 m ∧
        (m = 1 :: (h.bytes ++ s.2) ∨ m = 1 :: (s.2 ++ h.bytes)) := by
  unfold stepHash
  simp only [stepCalls]
  split_ifs with h1 h2
  · exact .inr ⟨_, rfl, rfl, .inl rfl⟩
  · exact .inr ⟨_, rfl, rfl, .inr rfl⟩
  · exact .inl ⟨rfl, rfl⟩

/-- A key beside a hash makes the message of a node only if the hash is that of a child. -/
lemma child_of_message {h : Digest} {key m : Bytes} {l r : Digest}
    (hm : m = 1 :: (h.bytes ++ key) ∨ m = 1 :: (key ++ h.bytes)) (heq : m = nodeMsg l r) :
    h = l ∨ h = r := by
  rcases hm with rfl | rfl
  · have happend := (cons.inj heq).2
    exact .inl (Digest.bytes_injective (append_inj_left happend (by simp)))
  · have happend := (cons.inj heq).2
    exact .inr (Digest.bytes_injective (append_inj_right' happend (by simp)))

/-- Whoever climbs to the root has started at a leaf, or two messages have one hash. -/
lemma mem_leaves_or_collide {t : SimpleMerkleTree} {item : Bytes}
    {steps : List (UInt8 × Bytes)} (h : steps.foldl stepHash (leafHash item) = t.computeRootHash) :
    item ∈ t.leaves ∨
      CallsCollide (leafMsg item :: stepCalls (leafHash item) steps) t.hashed := by
  induction t generalizing steps with
  | leaf a =>
    induction steps using reverseRecOn with
    | nil =>
      by_cases heq : leafMsg item = leafMsg a
      · exact .inl (mem_singleton.mpr (leafMsg_injective heq))
      · exact .inr ⟨_, mem_cons_self, _, mem_singleton_self _, heq, h⟩
    | append_singleton steps s ih =>
      rw [foldl_append, foldl_cons] at h
      rw [stepCalls_concat]
      rcases stepHash_cases (steps.foldl stepHash (leafHash item)) s with
        ⟨hcalls, hsame⟩ | ⟨m, hcalls, hhash, hm⟩
      · rw [hsame] at h
        rw [hcalls, append_nil]
        exact ih h
      · refine .inr ⟨m, by simp [hcalls], _, mem_singleton_self _, ?_, hhash.symm.trans h⟩
        rintro rfl
        rcases hm with hm | hm <;> cases (cons.inj hm).1
  | node l r ihl ihr =>
    induction steps using reverseRecOn with
    | nil =>
      exact .inr ⟨_, mem_cons_self, _, mem_cons_self, leafMsg_ne_nodeMsg _ _ _, h⟩
    | append_singleton steps s ih =>
      rw [foldl_append, foldl_cons] at h
      rw [stepCalls_concat]
      rcases stepHash_cases (steps.foldl stepHash (leafHash item)) s with
        ⟨hcalls, hsame⟩ | ⟨m, hcalls, hhash, hm⟩
      · rw [hsame] at h
        rw [hcalls, append_nil]
        exact ih h
      · by_cases heq : m = nodeMsg (SimpleMerkleTree.computeRootHash l)
            (SimpleMerkleTree.computeRootHash r)
        · have hcalls' := subset_append_left
            (leafMsg item :: stepCalls (leafHash item) steps) [m]
          rcases child_of_message hm heq with hchild | hchild
          · refine (ihl hchild).imp (mem_append_left _) fun hcol => ?_
            exact hcol.mono (hcalls ▸ hcalls') (SimpleMerkleTree.hashed_left l r)
          · refine (ihr hchild).imp (mem_append_right _) fun hcol => ?_
            exact hcol.mono (hcalls ▸ hcalls') (SimpleMerkleTree.hashed_right l r)
        · exact .inr ⟨m, by simp [hcalls], _, mem_cons_self, heq, hhash.symm.trans h⟩

/-- An item whose path is accepted is one of the items, or two different messages that the
tree and the path hash have the same hash. -/
theorem item_mem_of_verifyTreePath {items : List Bytes} {smt : LinkedTree}
    (hsmt : linkedTreeFromByteSlices items = some smt) (item path : Bytes)
    (h : verifyTreePath (some item) path (some smt.computeRootHash) = true) :
    item ∈ items ∨ ∃ t, simpleTreeFromByteSlices items = some t ∧
      CallsCollide (treePathCalls item path) t.hashed := by
  obtain ⟨t, ht, hrep⟩ := LinkedTree.represents_of_items hsmt
  rw [hrep.computeRootHash_eq, verifyTreePath] at h
  split at h
  · rename_i steps hsteps
    have hroot := Digest.bytes_injective (beq_iff_eq.mp h)
    rcases mem_leaves_or_collide hroot with hmem | hcol
    · exact .inl (leaves_simpleTree ht ▸ hmem)
    · refine .inr ⟨t, ht, ?_⟩
      rw [treePathCalls, hsteps]
      exact hcol
  · cases h

def twoLeaves : LinkedTree := (linkedTreeFromByteSlices [lit "a", lit "b"]).get rfl

/-- The path of the first leaf and a direction that is passed over. -/
def longerPath : Bytes :=
  lit "/" ++ (hexLower [pathLeft, 7] ++ (lit "/x:" ++ (hexUpper (leafHash (lit "b")).bytes ++
    lit "/key")))

theorem longer_path_accepted :
    verifyTreePath (some (lit "a")) longerPath (some twoLeaves.computeRootHash) = true ∧
      (lit "a" ∈ [lit "a", lit "b"] ∨ ∃ t, simpleTreeFromByteSlices [lit "a", lit "b"] = some t ∧
        CallsCollide (treePathCalls (lit "a") longerPath) t.hashed) :=
  (and_iff_left_of_imp (item_mem_of_verifyTreePath rfl _ _)).mpr (by decide +kernel)

end ShardingBC
