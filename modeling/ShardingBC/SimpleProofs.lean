import ShardingBC.HeaderHash
import ShardingBC.TreePaths

/-!
# Merkle proofs

`SimpleProof` gives the aunts of a leaf with its index and the number of leaves, from which
`computeHashFromAunts` finds the sides. An accepted proof is for the item at its index, and a root
belongs to one list of items, unless two messages that are hashed collide.
-/
namespace ShardingBC

open List Option

open Consensus (simpleHashFromByteSlices hashCalls)
open MerkleTree (getSplitPoint)

structure SimpleProof where
  total : ℤ
  index : ℤ
  leafHash : Bytes
  aunts : List Bytes

/-- `computeHashFromAunts`, with the last aunt first; `none` is nil. -/
def hashFromAunts (leafHash : Bytes) : ℕ → ℕ → List Bytes → Option Bytes
  | index, total, innerHashes =>
    if total ≤ index then none
    else
      match innerHashes with
      | [] => if total = 1 then some leafHash else none
      | last :: rest =>
        if total = 1 then none
        else if index < getSplitPoint total then
          (hashFromAunts leafHash index (getSplitPoint total) rest).map fun left =>
            (innerHash left last).bytes
        else
          (hashFromAunts leafHash (index - getSplitPoint total) (total - getSplitPoint total)
            rest).map fun right => (innerHash last right).bytes

/-- What `computeHashFromAunts` hashes. -/
def auntCalls (leafHash : Bytes) : ℕ → ℕ → List Bytes → List Bytes
  | _, _, [] => []
  | index, total, last :: rest =>
    if index < getSplitPoint total then
      ((hashFromAunts leafHash index (getSplitPoint total) rest).elim [] fun left =>
        [1 :: (left ++ last)]) ++ auntCalls leafHash index (getSplitPoint total) rest
    else
      ((hashFromAunts leafHash (index - getSplitPoint total) (total - getSplitPoint total)
        rest).elim [] fun right => [1 :: (last ++ right)]) ++
        auntCalls leafHash (index - getSplitPoint total) (total - getSplitPoint total) rest

inductive ProofError where
  | negativeTotal
  | negativeIndex
  | invalidLeafHash
  | invalidRootHash
deriving DecidableEq

namespace SimpleProof

/-- `ComputeRootHash`; `none` is nil. -/
def computeRootHash (sp : SimpleProof) : Option Bytes :=
  if sp.total ≤ sp.index ∨ sp.index < 0 ∨ sp.total ≤ 0 then none
  else hashFromAunts sp.leafHash sp.index.toNat sp.total.toNat sp.aunts.reverse

/-- `Verify`; `none` is a nil error. -/
def verify (sp : SimpleProof) (rootHash leaf : Bytes) : Option ProofError :=
  if sp.total < 0 then some .negativeTotal
  else if sp.index < 0 then some .negativeIndex
  else if sp.leafHash ≠ (ShardingBC.leafHash leaf).bytes then some .invalidLeafHash
  else if sp.computeRootHash.getD [] ≠ rootHash then some .invalidRootHash
  else none

/-- What `Verify` hashes. -/
def calls (sp : SimpleProof) (leaf : Bytes) : List Bytes :=
  leafMsg leaf :: auntCalls sp.leafHash sp.index.toNat sp.total.toNat sp.aunts.reverse

end SimpleProof

/-- The proof of a trail and its index. -/
def LinkedTree.proofOfTrail (smt : LinkedTree) (trail : ℕ × ℕ) : Option SimpleProof :=
  (smt.nodes.flattenAunts smt.total (some trail.1)).map fun aunts =>
    { total := smt.total, index := trail.2, leafHash := smt.nodes.hashBytes trail.1,
      aunts := aunts.map Digest.bytes }

/-- `SimpleProofsFromByteSlices`; `none` is a nil dereference. -/
def simpleProofsFromByteSlices (items : List Bytes) : Option (Bytes × List SimpleProof) :=
  (linkedTreeFromByteSlices items).bind fun smt =>
    (smt.leaves.zipIdx.mapM smt.proofOfTrail).map fun proofs => (smt.computeRootHash, proofs)

/-- The proof of a trail. -/
def proofOf (total : ℕ) (trail : (Digest × List (Side × Digest)) × ℕ) : SimpleProof :=
  { total := total, index := trail.2, leafHash := trail.1.1.bytes,
    aunts := trail.1.2.map fun s => s.2.bytes }

section Aunts

variable {leafHash last : Bytes} {rest : List Bytes} {index total : ℕ}

lemma hashFromAunts_left (htotal : 2 ≤ total) (hindex : index < getSplitPoint total) :
    hashFromAunts leafHash index total (last :: rest) =
      (hashFromAunts leafHash index (getSplitPoint total) rest).map fun left =>
        (innerHash left last).bytes := by
  have hsplit := MerkleTree.getSplitPoint_bounds total htotal
  rw [hashFromAunts, if_neg (by omega), if_neg (by omega), if_pos hindex]

lemma hashFromAunts_right (htotal : 2 ≤ total) (hindex : index < total)
    (hsplit : getSplitPoint total ≤ index) :
    hashFromAunts leafHash index total (last :: rest) =
      (hashFromAunts leafHash (index - getSplitPoint total) (total - getSplitPoint total)
        rest).map fun right => (innerHash last right).bytes := by
  rw [hashFromAunts, if_neg (by omega), if_neg (by omega), if_neg (by omega)]

end Aunts

variable {t : SimpleMerkleTree} {items : List Bytes}

lemma balanced_simpleTree
    (h : simpleTreeFromByteSlices items = some t) : t.Balanced := by
  cases items with
  | nil => cases h
  | cons a xs =>
    cases h
    exact MerkleTree.balanced_build _ a xs le_rfl

/-- The trail of a leaf leads to the root. -/
lemma hashFromAunts_trail (ht : t.Balanced) {i : ℕ}
    {tr : Digest × List (Side × Digest)} (htr : t.leafTrails[i]? = some tr) :
    hashFromAunts tr.1.bytes i t.leaves.length (tr.2.map fun s => s.2.bytes).reverse =
      some t.computeRootHash.bytes := by
  induction t generalizing i tr with
  | leaf a =>
    obtain ⟨hi, htr⟩ := List.getElem?_eq_some_iff.mp htr
    obtain rfl : i = 0 := by simpa [SimpleMerkleTree.leafTrails, MerkleTree.trails] using hi
    subst htr
    rfl
  | node l r ihl ihr =>
    obtain ⟨hsplit, hl, hr⟩ := ht
    have hlpos := l.length_leaves_pos
    have hrpos := r.length_leaves_pos
    have hlcount : (l.trails leafHash SimpleMerkleTree.innerNode).length = l.leaves.length :=
      LinkedTree.length_leafTrails l
    have htotal : (MerkleTree.node l r).leaves.length = l.leaves.length + r.leaves.length :=
      length_append
    have hi := (List.getElem?_eq_some_iff.mp htr).1
    rw [LinkedTree.length_leafTrails] at hi
    rw [SimpleMerkleTree.leafTrails, MerkleTree.trails] at htr
    rw [htotal]
    by_cases hside : i < l.leaves.length
    · rw [getElem?_append_left (by rw [length_map, hlcount]; exact hside),
        getElem?_map, map_eq_some_iff] at htr
      obtain ⟨tr', htr', rfl⟩ := htr
      rw [map_append, reverse_append, map_singleton, reverse_singleton,
        singleton_append, hashFromAunts_left (by omega) (by omega), ← hsplit, ihl hl htr']
      rfl
    · rw [getElem?_append_right (by rw [length_map]; omega),
        getElem?_map, map_eq_some_iff, length_map] at htr
      obtain ⟨tr', htr', rfl⟩ := htr
      rw [hlcount] at htr'
      rw [map_append, reverse_append, map_singleton, reverse_singleton,
        singleton_append, hashFromAunts_right (by omega) (by omega) (by omega), ← hsplit,
        Nat.add_sub_cancel_left, ihr hr htr']
      rfl

lemma simpleProofs_eq
    (ht : simpleTreeFromByteSlices items = some t) :
    simpleProofsFromByteSlices items = some (simpleHashFromByteSlices items,
      t.leafTrails.zipIdx.map (proofOf items.length)) := by
  obtain ⟨smt, hsmt⟩ : ∃ smt, linkedTreeFromByteSlices items = some smt := by
    rw [linkedTreeFromByteSlices, ht]
    exact ⟨_, rfl⟩
  obtain ⟨t', ht', hrep⟩ := LinkedTree.represents_of_items hsmt
  obtain rfl : t = t' := some.inj (ht.symm.trans ht')
  have hroot : simpleHashFromByteSlices items = smt.computeRootHash := by
    rw [hrep.computeRootHash_eq, simpleHashFromByteSlices, ht]
    rfl
  have htotal : smt.total = items.length := by rw [hrep.total, leaves_simpleTree ht]
  have hshort : ∀ tr ∈ t.leafTrails, tr.2.length < smt.total := by
    rw [hrep.total]
    exact MerkleTree.length_trail_lt leafHash SimpleMerkleTree.innerNode t
  -- leaf by leaf, the aunts that the pointers give are those of the trail
  have hproofs : ∀ {leaves : List ℕ} {trs : List (Digest × List (Side × Digest))} (i : ℕ),
      (∀ tr ∈ trs, tr.2.length < smt.total) →
      List.Forall₂ (fun a tr => smt.nodes.hashAt a = some tr.1 ∧
        NodeHeap.Climbs smt.nodes 0 smt.nodes.length smt.root a tr.2) leaves trs →
      (leaves.zipIdx i).mapM smt.proofOfTrail =
        some ((trs.zipIdx i).map (proofOf items.length)) := by
    intro leaves trs i hshort hall
    induction hall generalizing i with
    | nil => rfl
    | cons hhead _ ih =>
      next a tr leaves trs _ =>
      have haunts := hhead.2.flattenAunts hrep.root rfl (hshort tr mem_cons_self)
      have hrest := ih (i + 1) fun tr htr => hshort tr (mem_cons_of_mem _ htr)
      have hproof : smt.proofOfTrail (a, i) = some (proofOf items.length (tr, i)) := by
        rw [LinkedTree.proofOfTrail, haunts, NodeHeap.hashBytes_eq hhead.1, htotal]
        simp [proofOf]
      rw [zipIdx_cons, mapM_cons, hproof, hrest]
      rfl
  rw [simpleProofsFromByteSlices, hsmt, bind_some, hproofs 0 hshort hrep.trails, hroot]
  rfl

/-- The proof of a trail is accepted for the item. -/
lemma verify_proofOf
    (ht : simpleTreeFromByteSlices items = some t) {i : ℕ} {item : Bytes}
    {tr : Digest × List (Side × Digest)} (htr : t.leafTrails[i]? = some tr)
    (hitem : items[i]? = some item) :
    (proofOf items.length (tr, i)).verify (simpleHashFromByteSlices items) item = none := by
  have hleaves := leaves_simpleTree ht
  have hhash : tr.1 = leafHash item := by
    have hhashes := congrArg (fun hs => hs[i]?)
      (MerkleTree.trails_hashes leafHash SimpleMerkleTree.innerNode t)
    simp only [getElem?_map, hleaves, hitem] at hhashes
    rw [show (t.trails leafHash SimpleMerkleTree.innerNode)[i]? = some tr from htr] at hhashes
    exact some.inj hhashes
  have hi : i < items.length := (List.getElem?_eq_some_iff.mp hitem).1
  have hroot := hashFromAunts_trail (balanced_simpleTree ht) htr
  rw [hleaves] at hroot
  have hcomputed : (proofOf items.length (tr, i)).computeRootHash =
      some (simpleHashFromByteSlices items) := by
    rw [SimpleProof.computeRootHash, if_neg (by simp only [proofOf]; omega)]
    simp only [proofOf, Int.toNat_natCast, hroot, simpleHashFromByteSlices, ht, elim_some]
  rw [SimpleProof.verify, if_neg (by simp [proofOf]), if_neg (by simp [proofOf]),
    if_neg (by simp [proofOf, hhash]), hcomputed, if_neg (by simp)]

lemma length_hashFromAunts {d : Digest} {index total : ℕ} {aunts : List Bytes} {bz : Bytes}
    (h : hashFromAunts d.bytes index total aunts = some bz) : bz.length = 32 := by
  cases aunts with
  | nil =>
    unfold hashFromAunts at h
    split_ifs at h
    cases h
    exact d.bytes_length
  | cons last rest =>
    unfold hashFromAunts at h
    split_ifs at h
    · obtain ⟨left, -, rfl⟩ := map_eq_some_iff.mp h
      exact Digest.bytes_length _
    · obtain ⟨right, -, rfl⟩ := map_eq_some_iff.mp h
      exact Digest.bytes_length _

lemma hashFromAunts_nil {leafHash : Bytes} {index total : ℕ} (h : 2 ≤ total) :
    hashFromAunts leafHash index total [] = none := by
  rw [hashFromAunts]
  split_ifs <;> first | rfl | omega

/-- A hash from which the aunts lead to the root is that of the leaf at the index, or two messages
collide. -/
lemma leaf_or_collide (ht : t.Balanced) {d : Digest} {index : ℕ}
    {aunts : List Bytes} (hindex : index < t.leaves.length)
    (h : hashFromAunts d.bytes index t.leaves.length aunts = some t.computeRootHash.bytes) :
    (∃ item, t.leaves[index]? = some item ∧ d = leafHash item) ∨
      CallsCollide (auntCalls d.bytes index t.leaves.length aunts) t.hashed := by
  induction t generalizing index aunts with
  | leaf a =>
    obtain rfl : index = 0 := by simpa [MerkleTree.leaves] using hindex
    cases aunts with
    | nil =>
      have heq : d = leafHash a := Digest.bytes_injective (some.inj h)
      exact .inl ⟨a, rfl, heq⟩
    | cons last rest => cases h
  | node l r ihl ihr =>
    obtain ⟨hsplit, hl, hr⟩ := ht
    have hlpos := l.length_leaves_pos
    have hrpos := r.length_leaves_pos
    have htotal : (MerkleTree.node l r).leaves.length = l.leaves.length + r.leaves.length :=
      length_append
    rw [htotal] at h hindex ⊢
    cases aunts with
    | nil =>
      rw [hashFromAunts_nil (by omega)] at h
      cases h
    | cons last rest =>
      by_cases hside : index < getSplitPoint (l.leaves.length + r.leaves.length)
      · rw [hashFromAunts_left (by omega) hside, map_eq_some_iff] at h
        obtain ⟨left, hleft, hroot⟩ := h
        have hroot := Digest.bytes_injective hroot
        rw [auntCalls, if_pos hside, hleft]
        by_cases hm : (1 :: (left ++ last) : Bytes) =
            nodeMsg (SimpleMerkleTree.computeRootHash l) (SimpleMerkleTree.computeRootHash r)
        · have hlefthash : left = (SimpleMerkleTree.computeRootHash l).bytes :=
            append_inj_left (cons.inj hm).2
              (by rw [length_hashFromAunts hleft, Digest.bytes_length])
          rw [← hsplit] at hleft hside ⊢
          rcases ihl hl hside (hlefthash ▸ hleft) with ⟨item, hitem, hd⟩ | hcol
          · exact .inl ⟨item, (getElem?_append_left hside).trans hitem, hd⟩
          · exact .inr (hcol.mono (subset_append_right _ _)
              (SimpleMerkleTree.hashed_left l r))
        · exact .inr ⟨_, by simp, _, mem_cons_self, hm, hroot⟩
      · have hle := not_lt.mp hside
        rw [hashFromAunts_right (by omega) hindex hle, map_eq_some_iff] at h
        obtain ⟨right, hright, hroot⟩ := h
        have hroot := Digest.bytes_injective hroot
        rw [auntCalls, if_neg hside, hright]
        by_cases hm : (1 :: (last ++ right) : Bytes) =
            nodeMsg (SimpleMerkleTree.computeRootHash l) (SimpleMerkleTree.computeRootHash r)
        · have hrighthash : right = (SimpleMerkleTree.computeRootHash r).bytes :=
            append_inj_right' (cons.inj hm).2
              (by rw [length_hashFromAunts hright, Digest.bytes_length])
          rw [← hsplit, Nat.add_sub_cancel_left] at hright ⊢
          rw [← hsplit] at hle
          rcases ihr hr (by omega) (hrighthash ▸ hright) with ⟨item, hitem, hd⟩ | hcol
          · exact .inl ⟨item, (getElem?_append_right hle).trans hitem, hd⟩
          · exact .inr (hcol.mono (subset_append_right _ _)
              (SimpleMerkleTree.hashed_right l r))
        · exact .inr ⟨_, by simp, _, mem_cons_self, hm, hroot⟩

/-- An accepted proof of as many leaves as items has the leaf at its index, or two messages
collide. -/
lemma getElem?_of_verify (hne : items ≠ []) {sp : SimpleProof}
    {leaf : Bytes} (htotal : sp.total = items.length)
    (h : sp.verify (simpleHashFromByteSlices items) leaf = none) :
    (0 ≤ sp.index ∧ items[sp.index.toNat]? = some leaf) ∨
      CallsCollide (sp.calls leaf) (hashCalls items) := by
  obtain ⟨t, ht⟩ := simpleTree_isSome hne
  have hleaves := leaves_simpleTree ht
  have hroot : simpleHashFromByteSlices items = t.computeRootHash.bytes := by
    rw [simpleHashFromByteSlices, ht]
    rfl
  unfold SimpleProof.verify at h
  split_ifs at h with h1 h2 hleaf hcomputed
  have hleaf := not_not.mp hleaf
  have hcomputed := not_not.mp hcomputed
  unfold SimpleProof.computeRootHash at hcomputed
  split_ifs at hcomputed with hrange
  · have hlen := congrArg length (hcomputed.trans hroot)
    simp at hlen
  · rw [hleaf, htotal, Int.toNat_natCast, hroot, ← hleaves] at hcomputed
    have hindex : sp.index.toNat < t.leaves.length := by
      rw [hleaves]
      omega
    cases hhash : hashFromAunts (leafHash leaf).bytes sp.index.toNat t.leaves.length
        sp.aunts.reverse with
    | none =>
      rw [hhash] at hcomputed
      have hlen := congrArg length hcomputed
      simp at hlen
    | some bz =>
      rw [hhash] at hcomputed
      obtain rfl : bz = t.computeRootHash.bytes := hcomputed
      have hcalls : hashCalls items = t.hashed := by
        rw [hashCalls, ht]
        rfl
      rw [hcalls, SimpleProof.calls, hleaf, htotal, ← hleaves]
      rcases leaf_or_collide (balanced_simpleTree ht) hindex hhash with
        ⟨item, hitem, heq⟩ | hcol
      · by_cases hmsg : leafMsg leaf = leafMsg item
        · exact .inl ⟨not_lt.mp h2, by rw [hitem, leafMsg_injective hmsg]⟩
        · refine .inr ⟨_, mem_cons_self, leafMsg item, ?_, hmsg, heq⟩
          exact leafMsg_mem_hashed (mem_of_getElem? hitem)
      · exact .inr (hcol.mono (subset_cons_self _ _) (List.Subset.refl _))

/-- Proofs of all items are accepted, and whatever is accepted is of an item at its index,
unless two messages have one hash. -/
theorem simpleProofs_complete_and_sound {items : List Bytes} (hne : items ≠ []) :
    (∃ proofs, simpleProofsFromByteSlices items = some (simpleHashFromByteSlices items, proofs) ∧
      proofs.length = items.length ∧
      ∀ (i : ℕ) proof item, proofs[i]? = some proof → items[i]? = some item →
        proof.verify (simpleHashFromByteSlices items) item = none) ∧
    ∀ (sp : SimpleProof) (leaf : Bytes), sp.total = items.length →
      sp.verify (simpleHashFromByteSlices items) leaf = none →
      (0 ≤ sp.index ∧ items[sp.index.toNat]? = some leaf) ∨
        CallsCollide (sp.calls leaf) (hashCalls items) := by
  obtain ⟨t, ht⟩ := simpleTree_isSome hne
  refine ⟨⟨_, simpleProofs_eq ht, ?_, ?_⟩, fun sp leaf => getElem?_of_verify hne⟩
  · rw [length_map, length_zipIdx, LinkedTree.length_leafTrails, leaves_simpleTree ht]
  · intro i proof item hproof hitem
    rw [getElem?_map, getElem?_zipIdx] at hproof
    obtain ⟨⟨tr, j⟩, htr, rfl⟩ := map_eq_some_iff.mp hproof
    obtain ⟨tr', htr', heq⟩ := map_eq_some_iff.mp htr
    cases heq
    rw [Nat.zero_add]
    exact verify_proofOf ht htr' hitem

/-- The proofs of three items. -/
theorem three_items_proved :
    ∃ proofs, simpleProofsFromByteSlices [lit "a", lit "b", lit "c"] =
        some (simpleHashFromByteSlices [lit "a", lit "b", lit "c"], proofs) ∧
      ∀ proof, proofs[2]? = some proof →
        proof.verify (simpleHashFromByteSlices [lit "a", lit "b", lit "c"]) (lit "c") = none := by
  have hne : [lit "a", lit "b", lit "c"] ≠ [] := cons_ne_nil _ _
  obtain ⟨proofs, hproofs, -, hverify⟩ := (simpleProofs_complete_and_sound hne).1
  exact ⟨proofs, hproofs, fun proof hproof => hverify 2 proof (lit "c") hproof rfl⟩

/-- Lists with the same root are the same, or two different messages of the two
computations have one hash. -/
theorem eq_or_collide_of_hash_eq {xs ys : List Bytes}
    (h : simpleHashFromByteSlices xs = simpleHashFromByteSlices ys) :
    xs = ys ∨ CallsCollide (hashCalls xs) (hashCalls ys) := by
  have hlength : ∀ (a : Bytes) (zs : List Bytes),
      simpleHashFromByteSlices (a :: zs) ≠ simpleHashFromByteSlices [] := by
    intro a zs heq
    have hlen : (simpleHashFromByteSlices (a :: zs)).length = 32 := Digest.bytes_length _
    rw [heq] at hlen
    cases hlen
  cases xs with
  | nil =>
    cases ys with
    | nil => exact .inl rfl
    | cons b ys => exact absurd h.symm (hlength b ys)
  | cons a xs =>
    cases ys with
    | nil => exact absurd h (hlength a xs)
    | cons b ys =>
      have hroot := Digest.bytes_injective h
      exact (MerkleTree.eq_or_messages_collide leafMsg_injective nodeMsg_inj
        leafMsg_ne_nodeMsg hroot).imp_left MerkleTree.build_injective

/-- The root of a list is its own. -/
theorem three_items_determined :
    [lit "a", lit "b", lit "c"] = [lit "a", lit "b", lit "c"] ∨
      CallsCollide (hashCalls [lit "a", lit "b", lit "c"])
        (hashCalls [lit "a", lit "b", lit "c"]) :=
  eq_or_collide_of_hash_eq rfl

end ShardingBC
