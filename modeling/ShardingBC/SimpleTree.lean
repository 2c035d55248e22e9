import ShardingBC.AssocMap
import ShardingBC.MerkleTree
import ShardingBC.Sha256

/-!
# The simple Merkle tree and its printed paths

Package `crypto/merkle`: the tree over a list of byte slices, the path of a leaf as a string of
directions and sibling hashes, and the check of such a string. The check accepts more than the
printer produces: any hexadecimal case, URL-escaped keys, keys of any length, and unknown
directions, which it ignores.
-/
namespace ShardingBC

open List Option

def leafHash (leaf : Bytes) : Digest := sha256 (0 :: leaf)

def innerHash (left right : Bytes) : Digest := sha256 (1 :: (left ++ right))

abbrev SimpleMerkleTree := MerkleTree Bytes

namespace SimpleMerkleTree

abbrev innerNode (l r : Digest) : Digest := innerHash l.bytes r.bytes

def computeRootHash (t : SimpleMerkleTree) : Digest := t.hash leafHash innerNode

/-- The leaves with the way to the root, as the parent pointers give it. -/
def leafTrails (t : SimpleMerkleTree) : List (Digest × List (Side × Digest)) :=
  t.trails leafHash innerNode

end SimpleMerkleTree

/-- `SimpleTreeFromByteSlices`; `none` is the nil tree of an empty list. -/
def simpleTreeFromByteSlices : List Bytes → Option SimpleMerkleTree
  | [] => none
  | a :: xs => some (MerkleTree.build xs.length a xs)

variable {t : SimpleMerkleTree}

lemma leaves_simpleTree {items : List Bytes}
    (h : simpleTreeFromByteSlices items = some t) : t.leaves = items := by
  cases items with
  | nil => simp [simpleTreeFromByteSlices] at h
  | cons a xs =>
    simp only [simpleTreeFromByteSlices, some.injEq] at h
    rw [← h, MerkleTree.leaves_build _ _ _ le_rfl]

lemma simpleTree_isSome {items : List Bytes} (h : items ≠ []) :
    ∃ t, simpleTreeFromByteSlices items = some t := by
  cases items with
  | nil => exact absurd rfl h
  | cons a xs => exact ⟨_, rfl⟩

abbrev leafMsg (a : Bytes) : Bytes := 0 :: a

abbrev nodeMsg (x y : Digest) : Bytes := 1 :: (x.bytes ++ y.bytes)

/-- What is hashed to get the root of a tree. -/
def SimpleMerkleTree.hashed (t : SimpleMerkleTree) : List Bytes :=
  t.messages sha256 leafMsg nodeMsg

lemma SimpleMerkleTree.hashed_left (l r : SimpleMerkleTree) :
    l.hashed ⊆ SimpleMerkleTree.hashed (.node l r) :=
  fun _ hm => mem_cons_of_mem _ (mem_append_left _ hm)

lemma SimpleMerkleTree.hashed_right (l r : SimpleMerkleTree) :
    r.hashed ⊆ SimpleMerkleTree.hashed (.node l r) :=
  fun _ hm => mem_cons_of_mem _ (mem_append_right _ hm)

lemma leafMsg_mem_hashed {x : Bytes} (h : x ∈ t.leaves) :
    leafMsg x ∈ t.hashed := by
  induction t with
  | leaf a =>
    obtain rfl := mem_singleton.mp h
    exact mem_singleton_self _
  | node l r ihl ihr =>
    rcases mem_append.mp h with h | h
    · exact SimpleMerkleTree.hashed_left l r (ihl h)
    · exact SimpleMerkleTree.hashed_right l r (ihr h)

lemma nodeMsg_inj {a b c d : Digest} (h : nodeMsg a b = nodeMsg c d) : a = c ∧ b = d := by
  have h := append_inj (cons.inj h).2 (by simp)
  exact ⟨Digest.bytes_injective h.1, Digest.bytes_injective h.2⟩

lemma leafMsg_ne_nodeMsg (a : Bytes) (x y : Digest) : leafMsg a ≠ nodeMsg x y := by
  intro h
  exact absurd (cons.inj h).1 (by decide)

lemma leafMsg_injective : Function.Injective leafMsg := fun _ _ h => (List.cons.inj h).2

def pathLeft : UInt8 := 0
def pathRight : UInt8 := 1

/-- A sibling on the right is climbed from the left. -/
def directOf : Side → UInt8
  | Side.right => pathLeft
  | Side.left => pathRight

/-- The string `getPathByHash` builds: directions, then one hexadecimal key each. -/
def formatPath (steps : List (Side × Digest)) : Bytes :=
  47 :: (hexLower (steps.map fun s => directOf s.1) ++
    (steps.map fun s => lit "/x:" ++ hexUpper s.2.bytes).flatten)

/-- `getPathByHash`; `none` is the nil dereference when no leaf has the hash. -/
def getPathByHash (t : SimpleMerkleTree) (item : Digest) : Option Bytes :=
  (t.leafTrails.find? fun tr => tr.1 == item).map fun tr => formatPath tr.2

def getPathByValue (t : SimpleMerkleTree) (tx : Bytes) : Option Bytes :=
  if tx = [] then some [] else getPathByHash t (leafHash tx)

def pathUnescape : Bytes → Option Bytes
  | [] => some []
  | 37 :: a :: b :: r =>
    match hexVal a, hexVal b, pathUnescape r with
    | some x, some y, some s => some (UInt8.ofNat (x * 16 + y) :: s)
    | _, _, _ => none
  | 37 :: _ => none
  | c :: r => (pathUnescape r).map (c :: ·)

def decodePart (part : Bytes) : Option Bytes :=
  if part.take 2 = lit "x:" then hexDecode (part.drop 2) else pathUnescape part

def keyPathToKeys (path : Bytes) : Option (List Bytes) :=
  match path with
  | [] => none
  | c :: r => if c = 47 then (split r 47).mapM decodePart else none

def stepHash (h : Digest) (dk : UInt8 × Bytes) : Digest :=
  if dk.1 = pathLeft then innerHash h.bytes dk.2
  else if dk.1 = pathRight then innerHash dk.2 h.bytes
  else h

/-- The directions and keys of a path string with equally many. -/
def parsePath (path : Bytes) : Option (List (UInt8 × Bytes)) :=
  match path with
  | [] => none
  | c :: r =>
    if c = 47 then
      let parts := split r 47
      match hexDecode (parts.headD []), keyPathToKeys (47 :: join parts.tail 47) with
      | some directs, some keys =>
        if keys.length = directs.length then some (directs.zip keys) else none
      | _, _ => none
    else none

def verifyTreePath (item : Option Bytes) (path : Bytes) (roothash : Option Bytes) : Bool :=
  match item, roothash with
  | some x, some root =>
    match parsePath path with
    | some steps => (steps.foldl stepHash (leafHash x)).bytes == root
    | none => false
  | _, _ => false

/-- The part of the path string for one step. -/
def pathPart (s : Side × Digest) : Bytes := lit "x:" ++ hexUpper s.2.bytes

lemma formatPath_eq_join (steps : List (Side × Digest)) :
    formatPath steps =
      47 :: join (hexLower (steps.map fun s => directOf s.1) :: steps.map pathPart) 47 := by
  rw [join_cons, List.map_map]
  rfl

lemma parsePath_formatPath {steps : List (Side × Digest)} (h : steps ≠ []) :
    parsePath (formatPath steps) = some (steps.map fun s => (directOf s.1, s.2.bytes)) := by
  have hpart : ∀ p ∈ steps.map pathPart, (47 : UInt8) ∉ p := by
    intro p hp
    obtain ⟨s, -, rfl⟩ := mem_map.mp hp
    rw [pathPart, mem_append, not_or]
    exact ⟨by decide, slash_notMem_hexUpper _⟩
  have hparts : split (join (hexLower (steps.map fun s => directOf s.1) :: steps.map pathPart) 47) 47
      = hexLower (steps.map fun s => directOf s.1) :: steps.map pathPart := by
    refine splitOn_intercalate 47 ?_ (by simp)
    intro p hp
    rcases mem_cons.mp hp with rfl | hp
    · exact slash_notMem_flatMap hexVal_lower _
    · exact hpart p hp
  have hkeys : keyPathToKeys (47 :: join (steps.map pathPart) 47) =
      some (steps.map fun s => s.2.bytes) := by
    have hsplit : split (join (steps.map pathPart) 47) 47 = steps.map pathPart :=
      splitOn_intercalate 47 hpart (by simpa using h)
    have hdecode : ∀ s, decodePart (pathPart s) = some s.2.bytes := by
      simp [decodePart, pathPart, lit]
    rw [keyPathToKeys, hsplit, mapM_map]
    simp only [Function.comp_def, hdecode]
    exact mapM_pure
  rw [formatPath_eq_join, parsePath]
  simp only [hparts, tail_cons, hkeys]
  simp [zip_map']

@[simp] lemma stepHash_directOf (h : Digest) (s : Side × Digest) :
    stepHash h (directOf s.1, s.2.bytes) = MerkleTree.climb SimpleMerkleTree.innerNode h s := by
  obtain ⟨side, d⟩ := s
  cases side <;> rfl

/-- A printed path is checked by climbing along its steps. -/
lemma verifyTreePath_formatPath {steps : List (Side × Digest)} (h : steps ≠ []) (x root : Bytes) :
    verifyTreePath (some x) (formatPath steps) (some root) = true ↔
      (steps.foldl (MerkleTree.climb SimpleMerkleTree.innerNode) (leafHash x)).bytes = root := by
  simp only [verifyTreePath, parsePath_formatPath h, foldl_map, stepHash_directOf, beq_iff_eq]

lemma simpleTree_node {a b : Bytes} {xs : List Bytes}
    (h : simpleTreeFromByteSlices (a :: b :: xs) = some t) : ∃ l r, t = .node l r := by
  simp only [simpleTreeFromByteSlices, some.injEq] at h
  exact ⟨_, _, h.symm⟩

lemma getPathByValue_isSome {x : Bytes} (h : x ∈ t.leaves) :
    (getPathByValue t x).isSome := by
  unfold getPathByValue
  split_ifs
  · rfl
  · have hmem : leafHash x ∈ t.leafTrails.map Prod.fst := by
      rw [SimpleMerkleTree.leafTrails, MerkleTree.trails_hashes]
      exact mem_map_of_mem h
    obtain ⟨tr, htr, he⟩ := mem_map.mp hmem
    rw [getPathByHash, isSome_map, find?_isSome]
    exact ⟨tr, htr, by simp [he]⟩

/-- The path of a leaf is the printed trail of a leaf with its hash. -/
lemma exists_trail_of_getPathByValue {x path : Bytes} (hx : x ≠ [])
    (h : getPathByValue t x = some path) :
    ∃ tr ∈ t.leafTrails, tr.1 = leafHash x ∧ path = formatPath tr.2 := by
  rw [getPathByValue, if_neg hx] at h
  obtain ⟨tr, htr, rfl⟩ := map_eq_some_iff.mp h
  exact ⟨tr, mem_of_find?_eq_some htr, by simpa using find?_some htr, rfl⟩

lemma verifyTreePath_getPathByValue {l r : SimpleMerkleTree} {x path : Bytes} (hx : x ≠ [])
    (h : getPathByValue (.node l r) x = some path) :
    verifyTreePath (some x) path
      (some (SimpleMerkleTree.computeRootHash (.node l r)).bytes) = true := by
  obtain ⟨tr, htr, hhash, rfl⟩ := exists_trail_of_getPathByValue hx h
  rw [verifyTreePath_formatPath (MerkleTree.trail_ne_nil _ _ l r tr htr), ← hhash,
    MerkleTree.foldl_climb_trail _ _ _ tr htr]
  rfl

/-- `TxMerkleTree`: one tree per bucket and the tree over their roots. -/
structure TxMerkleTree where
  rootTree : SimpleMerkleTree
  shardTrees : AssocMap Bytes SimpleMerkleTree

def TxMerkleTree.find (t : TxMerkleTree) (shardname : Bytes) : Option SimpleMerkleTree :=
  AssocMap.lookup shardname t.shardTrees

end ShardingBC
