import Mathlib.Data.List.Basic
import Mathlib.Data.List.Sort
import Mathlib.Tactic

/-!
# Byte strings and the text functions of the Go standard library

A Go `string` and a `[]byte` are both lists of bytes here. Printing, parsing, `strings.Split` and
`strings.Join` follow the documented behaviour of `strconv`, `encoding/hex`, `fmt` and `strings`.
-/
namespace ShardingBC

abbrev Bytes := List UInt8

instance bytes_lawfulBEq : LawfulBEq Bytes := inferInstance

/-- The bytes of an ASCII literal. -/
def lit (s : String) : Bytes := s.toList.map fun c => UInt8.ofNat c.toNat

abbrev Digest := Vector UInt8 32

namespace Digest

/-- A slice over the whole array, as `h[:]`. -/
def bytes (d : Digest) : Bytes := d.toList

@[simp] lemma bytes_length (d : Digest) : d.bytes.length = 32 := by simp [bytes]

lemma bytes_injective : Function.Injective bytes := by
  intro a b h
  exact Vector.toList_inj.mp h

def zero : Digest := Vector.replicate 32 0

end Digest

lemma mapM_isSome_iff {α β : Type} {f : α → Option β} {l : List α} :
    (l.mapM f).isSome ↔ ∀ a ∈ l, (f a).isSome := by
  induction l with
  | nil => simp
  | cons x xs ih =>
    rw [List.mapM_cons, List.forall_mem_cons, ← ih]
    cases f x with
    | none => simp
    | some y => cases xs.mapM f <;> simp

def digitByte (c : Char) : UInt8 := UInt8.ofNat c.toNat

def isDigit (b : UInt8) : Bool := 48 ≤ b && b ≤ 57

def digitVal (b : UInt8) : ℕ := b.toNat - 48

def formatNat (n : ℕ) : Bytes := (Nat.toDigits 10 n).map digitByte

def digitsVal (ds : Bytes) : ℕ := ds.foldl (fun n b => n * 10 + digitVal b) 0

/-- `strconv.FormatInt(i, 10)`, also `strconv.Itoa`. -/
def formatInt (i : Int64) : Bytes :=
  if i.toInt < 0 then 45 :: formatNat i.toInt.natAbs else formatNat i.toInt.natAbs

lemma digitByte_isDigit {c : Char} (h : c.isDigit) : isDigit (digitByte c) = true := by
  have hl : 48 ≤ c.toNat ∧ c.toNat ≤ 57 := by
    simp only [Char.isDigit, Bool.and_eq_true, decide_eq_true_eq] at h
    exact ⟨h.1, h.2⟩
  simp only [isDigit, Bool.and_eq_true, decide_eq_true_eq, UInt8.le_iff_toNat_le]
  constructor
  · change 48 ≤ c.toNat % 2 ^ 8
    omega
  · change c.toNat % 2 ^ 8 ≤ 57
    omega

lemma formatNat_isDigit (n : ℕ) : ∀ b ∈ formatNat n, isDigit b = true := by
  intro b hb
  obtain ⟨c, hc, rfl⟩ := List.mem_map.mp hb
  exact digitByte_isDigit (Nat.isDigit_of_mem_toDigits (by decide) (by decide) hc)

lemma formatNat_ne_nil (n : ℕ) : formatNat n ≠ [] := by
  simp [formatNat]

lemma digitVal_digitByte {c : Char} (h : c.isDigit) : digitVal (digitByte c) = c.toNat - 48 := by
  have hl : c.toNat ≤ 57 := by
    simp only [Char.isDigit, Bool.and_eq_true, decide_eq_true_eq] at h
    exact h.2
  simp only [digitVal, digitByte, UInt8.toNat_ofNat']
  omega

lemma foldl_digits (cs : List Char) (h : ∀ c ∈ cs, c.isDigit) (k : ℕ) :
    (cs.map digitByte).foldl (fun n b => n * 10 + digitVal b) k = Nat.ofDigitChars 10 cs k := by
  induction cs generalizing k with
  | nil => simp
  | cons c cs ih =>
    have hc := digitVal_digitByte (h c (by simp))
    simp only [List.map_cons, List.foldl_cons]
    rw [ih (fun x hx => h x (by simp [hx])), hc]
    rw [Nat.mul_comm]
    rfl

@[simp] lemma digitsVal_formatNat (n : ℕ) : digitsVal (formatNat n) = n := by
  have hd : ∀ c ∈ Nat.toDigits 10 n, c.isDigit := fun c hc =>
    Nat.isDigit_of_mem_toDigits (by decide) (by decide) hc
  rw [digitsVal, formatNat, foldl_digits _ hd, Nat.ofDigitChars_ten_toDigits]

lemma formatNat_injective : Function.Injective formatNat := by
  intro a b h
  have := congrArg digitsVal h
  simpa using this

lemma toDigits_head_ne_zero (n : ℕ) (hn : 0 < n) : (Nat.toDigits 10 n).head? ≠ some '0' := by
  induction n using Nat.strong_induction_on with
  | h n ih =>
    rw [Nat.toDigits_eq_if (by decide)]
    split_ifs with h
    · have hall : ∀ k, k < 10 → 0 < k → Nat.digitChar k ≠ '0' := by decide
      simpa using hall n h hn
    · have hlt : n / 10 < n := Nat.div_lt_self hn (by decide)
      have hpos : 0 < n / 10 := by omega
      have hh := ih (n / 10) hlt hpos
      rw [List.head?_append_of_ne_nil _ Nat.toDigits_ne_nil]
      exact hh

/-- A printed number has no leading zero. -/
lemma formatNat_head (n : ℕ) : formatNat n = [48] ∨ (formatNat n).head? ≠ some 48 := by
  rcases Nat.eq_zero_or_pos n with rfl | hn
  · left; rfl
  · right
    have hh := toDigits_head_ne_zero n hn
    have hd : ∀ c ∈ Nat.toDigits 10 n, c.isDigit := fun c hc =>
      Nat.isDigit_of_mem_toDigits (by decide) (by decide) hc
    rw [formatNat]
    cases hc : Nat.toDigits 10 n with
    | nil => exact absurd hc Nat.toDigits_ne_nil
    | cons c cs =>
      simp only [hc, List.head?_cons, ne_eq, Option.some.injEq] at hh
      have hcd := hd c (by simp [hc])
      simp only [Char.isDigit, Bool.and_eq_true, decide_eq_true_eq] at hcd
      have hle : c.toNat ≤ 57 := hcd.2
      simp only [List.map_cons, List.head?_cons, ne_eq, Option.some.injEq]
      intro he
      have hv : c.toNat = 48 := by
        have := congrArg UInt8.toNat he
        change c.toNat % 2 ^ 8 = 48 at this
        omega
      exact hh (Char.toNat_inj.mp (by rw [hv]; rfl))

/-- `strconv.ParseUint` from the value read so far: `none` is a syntax error; a value beyond 64
bits ends the scan with the largest one. -/
def parseUint : ℕ → Bytes → Option ℕ
  | n, [] => some n
  | n, b :: r =>
    if isDigit b then
      if n * 10 + digitVal b < 2 ^ 64 then parseUint (n * 10 + digitVal b) r
      else some (2 ^ 64 - 1)
    else none

/-- `strconv.Atoi` and whether the error is nil. A value out of range is clamped; a malformed one
is zero. -/
def atoi (s : Bytes) : Int64 × Bool :=
  let neg := decide (s.head? = some 45)
  let ds := if s.head? = some 45 ∨ s.head? = some 43 then s.tail else s
  if ds = [] then (0, false)
  else
    match parseUint 0 ds with
    | none => (0, false)
    | some n =>
      if neg then
        if n ≤ 2 ^ 63 then (Int64.ofInt (-(n : ℤ)), true) else (Int64.minValue, false)
      else
        if n < 2 ^ 63 then (Int64.ofInt n, true) else (Int64.maxValue, false)

lemma le_foldl_digits (ds : Bytes) (n : ℕ) :
    n ≤ ds.foldl (fun n b => n * 10 + digitVal b) n := by
  induction ds generalizing n with
  | nil => simp
  | cons b r ih =>
    have h := ih (n * 10 + digitVal b)
    simp only [List.foldl_cons]
    omega

lemma parseUint_digits (ds : Bytes) (hd : ∀ b ∈ ds, isDigit b = true) (n : ℕ)
    (h : ds.foldl (fun n b => n * 10 + digitVal b) n < 2 ^ 64) :
    parseUint n ds = some (ds.foldl (fun n b => n * 10 + digitVal b) n) := by
  induction ds generalizing n with
  | nil => rfl
  | cons b r ih =>
    have hb := hd b (by simp)
    have hlt := lt_of_le_of_lt (le_foldl_digits r (n * 10 + digitVal b)) h
    simp only [parseUint, hb, if_pos hlt]
    exact ih (fun c hc => hd c (by simp [hc])) _ h

lemma parseUint_formatNat (n : ℕ) (h : n < 2 ^ 64) : parseUint 0 (formatNat n) = some n := by
  have hv := digitsVal_formatNat n
  rw [digitsVal] at hv
  rw [parseUint_digits _ (formatNat_isDigit n) 0 (by rw [hv]; exact h), hv]

lemma formatNat_head_not_sign (n : ℕ) :
    (formatNat n).head? ≠ some 45 ∧ (formatNat n).head? ≠ some 43 := by
  have hd := formatNat_isDigit n
  cases h : formatNat n with
  | nil => exact absurd h (formatNat_ne_nil n)
  | cons b bs =>
    have hb := hd b (by simp [h])
    constructor
    · rintro ⟨⟩; exact absurd hb (by decide)
    · rintro ⟨⟩; exact absurd hb (by decide)

@[simp] lemma atoi_formatInt (i : Int64) : atoi (formatInt i) = (i, true) := by
  have hlo := i.le_toInt
  have hhi := i.toInt_lt
  have hparse := parseUint_formatNat i.toInt.natAbs (by omega)
  by_cases hneg : i.toInt < 0
  · have hval : -((i.toInt.natAbs : ℕ) : ℤ) = i.toInt := by omega
    have hle : i.toInt.natAbs ≤ 2 ^ 63 := by omega
    simp only [formatInt, if_pos hneg, atoi, List.head?_cons, List.tail_cons, decide_true,
      if_true, true_or, formatNat_ne_nil, hparse, if_pos hle, hval, Int64.ofInt_toInt, if_false]
  · have hval : ((i.toInt.natAbs : ℕ) : ℤ) = i.toInt := by omega
    have hlt : i.toInt.natAbs < 2 ^ 63 := by omega
    obtain ⟨h45, h43⟩ := formatNat_head_not_sign i.toInt.natAbs
    simp only [formatInt, if_neg hneg, atoi, h45, h43, or_self, if_false,
      formatNat_ne_nil, hparse, if_pos hlt, hval]
    simp

def hexUpperDigit (n : ℕ) : UInt8 := if n < 10 then UInt8.ofNat (48 + n) else UInt8.ofNat (55 + n)
def hexLowerDigit (n : ℕ) : UInt8 := if n < 10 then UInt8.ofNat (48 + n) else UInt8.ofNat (87 + n)

/-- `fmt.Sprintf("%X", bz)`. -/
def hexUpper (bz : Bytes) : Bytes :=
  bz.flatMap fun b => [hexUpperDigit (b.toNat / 16), hexUpperDigit (b.toNat % 16)]

/-- `fmt.Sprintf("%x", bz)`. -/
def hexLower (bz : Bytes) : Bytes :=
  bz.flatMap fun b => [hexLowerDigit (b.toNat / 16), hexLowerDigit (b.toNat % 16)]

def hexVal (c : UInt8) : Option ℕ :=
  if 48 ≤ c ∧ c ≤ 57 then some (c.toNat - 48)
  else if 65 ≤ c ∧ c ≤ 70 then some (c.toNat - 55)
  else if 97 ≤ c ∧ c ≤ 102 then some (c.toNat - 87)
  else none

/-- `hex.DecodeString`, of an even length and in either case. -/
def hexDecode : Bytes → Option Bytes
  | [] => some []
  | [_] => none
  | a :: b :: rest =>
    match hexVal a, hexVal b, hexDecode rest with
    | some x, some y, some bz => some (UInt8.ofNat (x * 16 + y) :: bz)
    | _, _, _ => none

/-- What `hex.DecodeString` returns next to its error. -/
def hexDecoded : Bytes → Bytes
  | a :: b :: rest =>
    match hexVal a, hexVal b with
    | some x, some y => UInt8.ofNat (x * 16 + y) :: hexDecoded rest
    | _, _ => []
  | _ => []

lemma hexDecoded_eq {s bz : Bytes} (h : hexDecode s = some bz) : hexDecoded s = bz := by
  fun_induction hexDecode s generalizing bz with
  | case1 =>
    cases h
    rfl
  | case2 => cases h
  | case3 a b rest x y bz' hrest hy hx ih =>
    cases h
    simp [hexDecoded, hx, hy, ih hrest]
  | case4 => cases h

lemma hexVal_upper : ∀ n < 16, hexVal (hexUpperDigit n) = some n := by decide

@[simp] lemma length_hexLower (bz : Bytes) : (hexLower bz).length = 2 * bz.length := by
  induction bz with
  | nil => rfl
  | cons b bz ih =>
    simp only [hexLower, List.flatMap_cons, List.length_append] at ih ⊢
    simp only [List.length_cons, List.length_nil]
    omega

lemma hexVal_lower : ∀ n < 16, hexVal (hexLowerDigit n) = some n := by decide

@[simp] lemma byte_of_nibbles (b : UInt8) : UInt8.ofNat (b.toNat / 16 * 16 + b.toNat % 16) = b := by
  rw [Nat.div_add_mod']
  exact UInt8.ofNat_toNat

section Digits

variable {digit : ℕ → UInt8} (hdigit : ∀ n < 16, hexVal (digit n) = some n) (bz : Bytes)

include hdigit

lemma hexDecode_flatMap :
    hexDecode (bz.flatMap fun b => [digit (b.toNat / 16), digit (b.toNat % 16)]) = some bz := by
  induction bz with
  | nil => rfl
  | cons b bz ih =>
    have h1 := hdigit (b.toNat / 16) (by have := b.toNat_lt; omega)
    have h2 := hdigit (b.toNat % 16) (by omega)
    simp only [List.flatMap_cons, List.cons_append, List.nil_append, hexDecode, h1, h2, ih,
      byte_of_nibbles]

lemma slash_notMem_flatMap :
    (47 : UInt8) ∉ bz.flatMap fun b => [digit (b.toNat / 16), digit (b.toNat % 16)] := by
  have hd : ∀ n < 16, 47 ≠ digit n := fun n hn h => by
    have hslash := h ▸ hdigit n hn
    cases hslash
  simp only [List.mem_flatMap, List.mem_cons, List.not_mem_nil, or_false, not_exists, not_and]
  rintro b - (h | h)
  · exact hd _ (by have := b.toNat_lt; omega) h
  · exact hd _ (by omega) h

end Digits

@[simp] lemma hexDecode_hexUpper (bz : Bytes) : hexDecode (hexUpper bz) = some bz :=
  hexDecode_flatMap hexVal_upper bz

@[simp] lemma hexDecode_hexLower (bz : Bytes) : hexDecode (hexLower bz) = some bz :=
  hexDecode_flatMap hexVal_lower bz

lemma hexUpper_injective : Function.Injective hexUpper := by
  intro a b h
  have := congrArg hexDecode h
  simpa using this

lemma slash_notMem_hexUpper (bz : Bytes) : (47 : UInt8) ∉ hexUpper bz :=
  slash_notMem_flatMap hexVal_upper bz

/-- `strings.Split(s, sep)` for a separator of one byte. -/
def split (s : Bytes) (sep : UInt8) : List Bytes := s.splitOn sep

/-- `strings.Join(parts, sep)` for a separator of one byte. -/
def join (parts : List Bytes) (sep : UInt8) : Bytes := [sep].intercalate parts

lemma join_cons (a : Bytes) (parts : List Bytes) (sep : UInt8) :
    join (a :: parts) sep = a ++ (parts.map fun p => sep :: p).flatten := by
  induction parts generalizing a with
  | nil => simp [join]
  | cons b parts ih =>
    have hstep : join (a :: b :: parts) sep = a ++ sep :: join (b :: parts) sep := by
      simp [join]
    rw [hstep, ih]
    simp

/-- `fmt.Sprintf("%v", bz)`. -/
def formatBytes (bz : Bytes) : Bytes :=
  91 :: (join (bz.map fun b => formatNat b.toNat) 32 ++ [93])

end ShardingBC
