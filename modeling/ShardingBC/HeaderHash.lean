import ShardingBC.StoreWire

/-!
# What the hash of a header binds

`Header.Hash` is the root of a tree over the encoded fields but the last two. Headers with one hash
agree on the fields in the tree, unless the two computations collide.
-/
namespace ShardingBC.Consensus

open List

/-- What `SimpleHashFromByteSlices` hashes, in order. -/
def hashCalls (items : List Bytes) : List Bytes :=
  (simpleTreeFromByteSlices items).elim [] SimpleMerkleTree.hashed

/-- At one place the computations give different bytes one `tmhash`. -/
def Collision (calls calls' : List Bytes) : Prop :=
  ∃ p ∈ calls.zip calls', p.1 ≠ p.2 ∧ sha256 p.1 = sha256 p.2

lemma not_collision_self (items : List Bytes) :
    ¬ Collision (hashCalls items) (hashCalls items) := by
  cases items with
  | nil => simp [Collision, hashCalls, simpleTreeFromByteSlices]
  | cons a xs => exact MerkleTree.not_collide_self _

/-- Equally many items with one root are the same, or there is a collision. -/
lemma eq_or_collision {items items' : List Bytes} (hlen : items.length = items'.length)
    (h : simpleHashFromByteSlices items = simpleHashFromByteSlices items') :
    items = items' ∨ Collision (hashCalls items) (hashCalls items') := by
  cases items with
  | nil => exact .inl (length_eq_zero_iff.mp hlen.symm).symm
  | cons a xs =>
    cases items' with
    | nil => simp at hlen
    | cons b ys =>
      have hlen : xs.length = ys.length := by simpa using hlen
      have hshape : MerkleTree.SameShape (MerkleTree.build xs.length a xs)
          (MerkleTree.build ys.length b ys) := by
        rw [← hlen]
        exact MerkleTree.sameShape_build _ a b xs ys hlen
      exact (MerkleTree.eq_or_collide leafMsg_injective nodeMsg_inj hshape
        (Digest.bytes_injective h)).imp_left MerkleTree.build_injective

/-- Single values are determined by their encodings. -/
structure Amino.FieldsInjective (A : Amino) : Prop where
  version : Function.Injective A.version
  string : Function.Injective (cdcEncode A.string)
  int64 : Function.Injective A.int64
  time : Function.Injective A.time
  blockID : Function.Injective A.blockID
  hexBytes : Function.Injective (cdcEncode A.hexBytes)

section Binding

variable (A : Amino)

/-- The headers differ in `CrossMerkleRoot` or `CmRelation` alone. -/
def Header.DiffersInCross (h h' : Header) : Prop :=
  (h.crossMerkleRoot ≠ h'.crossMerkleRoot ∨ h.cmRelation ≠ h'.cmRelation) ∧
    { h with crossMerkleRoot := h'.crossMerkleRoot, cmRelation := h'.cmRelation } = h'

variable {A}

lemma Header.hash_eq {h : Header} (hv : h.validatorsHash ≠ []) :
    h.hash A = simpleHashFromByteSlices (h.items A) := if_neg hv

/-- The leaves determine every field but the last two. -/
lemma Header.eq_of_items_eq (hA : A.FieldsInjective) {h h' : Header}
    (hitems : h.items A = h'.items A) :
    { h with crossMerkleRoot := h'.crossMerkleRoot, cmRelation := h'.cmRelation } = h' := by
  simp only [items, cons.injEq, hA.version.eq_iff, hA.string.eq_iff, hA.int64.eq_iff,
    hA.time.eq_iff, hA.blockID.eq_iff, hA.hexBytes.eq_iff] at hitems
  simp_all

/-- The hash binds two headers unless they differ in the two fields alone. -/
theorem header_hash_binds_iff (hA : A.FieldsInjective) (h₁ h₂ : Header)
    (hv₁ : h₁.validatorsHash ≠ []) (hv₂ : h₂.validatorsHash ≠ []) :
    (h₁.hash A = h₂.hash A →
      h₁ = h₂ ∨ Collision (hashCalls (h₁.items A)) (hashCalls (h₂.items A))) ↔
      ¬ h₁.DiffersInCross h₂ := by
  rw [Header.hash_eq hv₁, Header.hash_eq hv₂]
  constructor
  · intro hbinds hd
    have hitems : h₁.items A = h₂.items A := by
      rw [← hd.2]
      rfl
    rw [hitems] at hbinds
    rcases hbinds rfl with heq | hcol
    · subst heq
      simp [Header.DiffersInCross] at hd
    · exact not_collision_self _ hcol
  · intro hd hhash
    have hlen : (h₁.items A).length = (h₂.items A).length := rfl
    rcases eq_or_collision hlen hhash with hitems | hcol
    · left
      have hrest := Header.eq_of_items_eq hA hitems
      by_contra hne
      refine hd ⟨?_, hrest⟩
      by_contra hsame
      push Not at hsame
      rw [← hsame.1, ← hsame.2] at hrest
      exact hne hrest
    · exact .inr hcol

end Binding

open Wire

/-- A string or a byte slice that is no field of a struct. -/
def lengthPrefixed (bz : Bytes) : Bytes := uvarint bz.length ++ bz

/-- `MarshalBinaryBare` of the values of a header: only the fields of a struct have keys. The other
types are not used here. -/
def wireAmino : Amino where
  version := fun v => varintField 8 v.block ++ varintField 16 v.app
  string := lengthPrefixed
  int64 := fun n => uvarint (ofInt n)
  time := Rotation.wireTime
  blockID := Rotation.wireBlockID
  hexBytes := lengthPrefixed
  commitSig := fun v => v.signature
  validator := fun v => v.pubKey
  hashedParams := fun _ => []
  evidenceOk := fun _ => true

lemma cdcEncode_lengthPrefixed_injective : Function.Injective (cdcEncode lengthPrefixed) := by
  have hread : Function.LeftInverse (fun bz => (readUvarint bz).2) (cdcEncode lengthPrefixed) := by
    intro bz
    unfold cdcEncode
    split_ifs with h
    · rw [h]
      rfl
    · simp [lengthPrefixed]
  exact hread.injective

lemma uvarint_ofInt_injective : Function.Injective fun n => uvarint (ofInt n) := by
  have hread : Function.LeftInverse (fun bz => toInt (readUvarint bz).1)
      fun n => uvarint (ofInt n) := by
    intro n
    have h := readUvarint_append (ofInt n) []
    rw [append_nil] at h
    simp only [h, toInt_ofInt]
  exact hread.injective

lemma wireAmino_fieldsInjective : wireAmino.FieldsInjective where
  version := by
    rintro ⟨block, app⟩ ⟨block', app'⟩ h
    obtain ⟨rfl, h⟩ := varintField_inj (varintField_head?_ne (by decide) _)
      (varintField_head?_ne (by decide) _) h
    obtain rfl : app = app' := varintField_injective 16 h
    rfl
  string := cdcEncode_lengthPrefixed_injective
  int64 := uvarint_ofInt_injective
  time := Function.LeftInverse.injective Rotation.readTime_wire
  blockID := Function.LeftInverse.injective Rotation.readBlockID_wire
  hexBytes := cdcEncode_lengthPrefixed_injective

def sampleHeader : Header where
  version := ⟨10, 1⟩
  chainID := lit "A"
  height := 3
  time := 1500000000000000000
  numTxs := 0
  totalTxs := 7
  lastBlockID := ⟨List.replicate tmhashSize 1, 1, List.replicate tmhashSize 2⟩
  lastCommitHash := List.replicate tmhashSize 3
  dataHash := []
  validatorsHash := List.replicate tmhashSize 4
  nextValidatorsHash := List.replicate tmhashSize 4
  consensusHash := List.replicate tmhashSize 5
  appHash := []
  lastResultsHash := []
  evidenceHash := []
  proposerAddress := List.replicate addressSize 7
  crossMerkleRoot := List.replicate tmhashSize 8
  cmRelation := []

/-- Another height does not escape the hash. -/
theorem height_bound :
    sampleHeader.hash wireAmino ≠ { sampleHeader with height := 4 }.hash wireAmino ∨
      Collision (hashCalls (sampleHeader.items wireAmino))
        (hashCalls ({ sampleHeader with height := 4 }.items wireAmino)) := by
  refine not_or_of_imp fun h => ?_
  have hbinds := (header_hash_binds_iff wireAmino_fieldsInjective sampleHeader
    { sampleHeader with height := 4 } (by decide) (by decide)).mpr
    (by simp [Header.DiffersInCross])
  exact (hbinds h).resolve_left (by simp [sampleHeader])

/-- Another root of outgoing messages does. -/
theorem crossMerkleRoot_unbound :
    wireAmino.FieldsInjective ∧ sampleHeader.validatorsHash ≠ [] ∧
      sampleHeader.hash wireAmino = { sampleHeader with crossMerkleRoot := [] }.hash wireAmino ∧
      sampleHeader ≠ { sampleHeader with crossMerkleRoot := [] } ∧
      ¬ Collision (hashCalls (sampleHeader.items wireAmino))
        (hashCalls ({ sampleHeader with crossMerkleRoot := [] }.items wireAmino)) := by
  refine ⟨wireAmino_fieldsInjective, by decide, rfl, by simp [sampleHeader, tmhashSize], ?_⟩
  exact not_collision_self _

end ShardingBC.Consensus
