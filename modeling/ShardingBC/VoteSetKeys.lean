import ShardingBC.Block
import ShardingBC.VoteTables
import ShardingBC.Wire

/-!
# The keys of block IDs

`BlockID.Key` is the hash followed by the amino form of the parts header, so a longer hash can have
the key of another block ID. Among validated votes it has not, so that tables with the block ID
itself as the key hold the same votes.
-/
namespace ShardingBC.Consensus

open Function List Option

open Wire (varintField bytesField)

def BlockID.key (x : BlockID) : Bytes :=
  x.hash ++ (varintField 8 x.partsHeader.total.toUInt64.toNat ++ bytesField 18 x.partsHeader.hash)

/-- Two block IDs of different hashes with the same key. -/
example : BlockID.key ⟨[], ⟨1, []⟩⟩ = BlockID.key ⟨[8, 1], .zero⟩ := by decide +kernel

lemma key_of_isZero {x : BlockID} (h : x.isZero = true) : x.key = [] := by
  simp only [BlockID.isZero, Bool.and_eq_true, decide_eq_true_eq, length_eq_zero_iff] at h
  obtain ⟨⟨hhash, htotal⟩, hparts⟩ := h
  rw [BlockID.key, hhash, htotal, hparts]
  rfl

lemma toUInt64_injective : Function.Injective Int64.toUInt64 := by
  rintro ⟨a⟩ ⟨b⟩ h
  exact congrArg Int64.ofUInt64 h

lemma eq_of_key_eq_of_length {x y : BlockID} (hlen : x.hash.length = y.hash.length)
    (h : x.key = y.key) : x = y := by
  obtain ⟨hhash, hparts⟩ := append_inj h hlen
  have hhead : ∀ z : BlockID, (bytesField 18 z.partsHeader.hash).head? ≠ some 8 :=
    fun z => Wire.bytesField_head?_ne (by decide) _
  obtain ⟨htotal, hrest⟩ := Wire.varintField_inj (hhead x) (hhead y) hparts
  have hpartsHash := Wire.bytesField_injective 18 hrest
  obtain ⟨hash, total, parts⟩ := x
  obtain ⟨hash', total', parts'⟩ := y
  simp only at hhash htotal hpartsHash
  have htotal' : total = total' := toUInt64_injective (UInt64.toNat_inj.mp htotal)
  rw [hhash, htotal', hpartsHash]

/-- The block IDs of validated votes. -/
def votable : Set BlockID := {x | x.isZero = true ∨ x.isComplete = true}

/-- With an empty hash a key is too short for a complete block ID. -/
lemma length_key_lt {x y : BlockID} (hx : x.isComplete = true) (hhash : y.hash = [])
    (hparts : y.partsHeader.hash.length ≤ tmhashSize) : y.key.length < x.key.length := by
  simp only [BlockID.isComplete, Bool.and_eq_true, decide_eq_true_eq] at hx
  have hvarint : (varintField 8 y.partsHeader.total.toUInt64.toNat).length ≤ 11 := by
    unfold Wire.varintField
    split_ifs
    · simp
    · have hbits := y.partsHeader.total.toUInt64.toNat_lt
      have := (Wire.length_uvarint_le_iff y.partsHeader.total.toUInt64.toNat 9).mpr (by omega)
      rw [length_cons]
      omega
  have hbytes : (bytesField 18 y.partsHeader.hash).length ≤ 36 := by
    have := Wire.length_bytesField_le 18 y.partsHeader.hash (by
      unfold tmhashSize at hparts
      omega)
    unfold tmhashSize at hparts
    omega
  have hpartsx : x.partsHeader.hash ≠ [] := by
    intro hnil
    rw [hnil] at hx
    exact absurd hx.2 (by decide)
  have hlast : (bytesField 18 x.partsHeader.hash).length = _ := Wire.length_bytesField hpartsx
  rw [BlockID.key, BlockID.key, length_append, length_append, length_append,
    length_append, hhash, hx.1.1, hlast, hx.2]
  unfold tmhashSize
  simp only [length_nil]
  omega

lemma eq_of_key_eq {x y : BlockID} (hx : x ∈ votable) (hy : y.validateBasic = true)
    (h : x.key = y.key) : x = y := by
  simp only [BlockID.validateBasic, validateHash, Bool.and_eq_true, Bool.or_eq_true,
    decide_eq_true_eq] at hy
  obtain ⟨⟨hhash, -⟩, hparts⟩ := hy
  rcases hx with hx | hx
  · have hzero : x.hash.length = 0 := by
      simp only [BlockID.isZero, Bool.and_eq_true, decide_eq_true_eq] at hx
      exact hx.1.1
    have hlen := congrArg List.length (h.symm.trans (key_of_isZero hx))
    rw [BlockID.key, length_append, length_nil] at hlen
    exact eq_of_key_eq_of_length (by omega) h
  · rcases hhash with hhash | hhash
    · have := length_key_lt hx (length_eq_zero_iff.mp hhash) (by omega)
      rw [h] at this
      exact absurd this (lt_irrefl _)
    · simp only [BlockID.isComplete, Bool.and_eq_true, decide_eq_true_eq] at hx
      exact eq_of_key_eq_of_length (hx.1.1.trans hhash.symm) h

lemma validateBasic_of_votable {x : BlockID} (hx : x ∈ votable) : x.validateBasic = true := by
  rcases hx with hx | hx
  · simp only [BlockID.isZero, Bool.and_eq_true, decide_eq_true_eq] at hx
    simp [BlockID.validateBasic, validateHash, hx]
  · simp only [BlockID.isComplete, Bool.and_eq_true, decide_eq_true_eq] at hx
    simp [BlockID.validateBasic, validateHash, hx, Int64.le_of_lt hx.1.2]

lemma key_injOn : Set.InjOn BlockID.key votable :=
  fun _ hx _ hy h => eq_of_key_eq hx (validateBasic_of_votable hy) h

lemma mem_votable {v : Vote} (h : v.validateBasic = true) : v.blockID ∈ votable := by
  simp only [Vote.validateBasic, Bool.and_eq_true, Bool.or_eq_true] at h
  exact h.1.1.1.1.2

end ShardingBC.Consensus
