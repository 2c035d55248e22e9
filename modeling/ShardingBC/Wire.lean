import ShardingBC.GoBytes

/-!
# Tagged fields on the wire

Base-128 numbers and the fields of a message, each with its key byte. A field with the
default value is left out. The readers undo the writers, which is how a message with
several fields is seen to determine them.
-/
namespace ShardingBC.Wire

open List Option

def uvarint (n : ℕ) : Bytes :=
  if n < 128 then [UInt8.ofNat n] else UInt8.ofNat (n % 128 + 128) :: uvarint (n / 128)
termination_by n

def readUvarint : Bytes → ℕ × Bytes
  | [] => (0, [])
  | b :: rest =>
    if b.toNat < 128 then (b.toNat, rest)
    else (b.toNat - 128 + 128 * (readUvarint rest).1, (readUvarint rest).2)

lemma uvarint_of_lt {n : ℕ} (h : n < 128) : uvarint n = [UInt8.ofNat n] := by
  rw [uvarint, if_pos h]

lemma uvarint_of_le {n : ℕ} (h : 128 ≤ n) :
    uvarint n = UInt8.ofNat (n % 128 + 128) :: uvarint (n / 128) := by
  rw [uvarint, if_neg (by omega)]

@[simp] lemma readUvarint_append (n : ℕ) (rest : Bytes) :
    readUvarint (uvarint n ++ rest) = (n, rest) := by
  induction n using Nat.strongRecOn with
  | ind n ih =>
    by_cases h : n < 128
    · have hbyte : (UInt8.ofNat n).toNat = n := by
        rw [UInt8.toNat_ofNat']
        omega
      rw [uvarint_of_lt h]
      simp [readUvarint, hbyte, h]
    · have hbyte : (UInt8.ofNat (n % 128 + 128)).toNat = n % 128 + 128 := by
        rw [UInt8.toNat_ofNat']
        omega
      rw [uvarint_of_le (by omega), cons_append, readUvarint, ih _ (by omega), if_neg (by omega)]
      simp only [Prod.mk.injEq, and_true]
      omega

lemma length_uvarint_le_iff (n k : ℕ) : (uvarint n).length ≤ k + 1 ↔ n < 128 ^ (k + 1) := by
  induction k generalizing n with
  | zero =>
    by_cases h : n < 128
    · rw [uvarint_of_lt h]
      simpa using h
    · have hrest : 0 < (uvarint (n / 128)).length := by
        rw [uvarint]
        split_ifs <;> simp
      rw [uvarint_of_le (by omega), length_cons]
      omega
  | succ k ih =>
    by_cases h : n < 128
    · have hpow : 128 ≤ 128 ^ (k + 1 + 1) := Nat.le_self_pow (by omega) 128
      rw [uvarint_of_lt h]
      simp only [length_cons, length_nil]
      omega
    · rw [uvarint_of_le (by omega), length_cons, Nat.add_le_add_iff_right, ih,
        Nat.div_lt_iff_lt_mul (by omega), ← pow_succ]

lemma length_uvarint_eq {n k : ℕ} (hlow : 128 ^ (k + 1) ≤ n) (hhigh : n < 128 ^ (k + 2)) :
    (uvarint n).length = k + 2 := by
  have hle := (length_uvarint_le_iff n (k + 1)).mpr hhigh
  have hgt := mt (length_uvarint_le_iff n k).mp (by omega)
  omega

def varintField (key : UInt8) (n : ℕ) : Bytes := if n = 0 then [] else key :: uvarint n

def bytesField (key : UInt8) (bz : Bytes) : Bytes :=
  if bz = [] then [] else key :: (uvarint bz.length ++ bz)

def readVarintField (key : UInt8) (bz : Bytes) : ℕ × Bytes :=
  if bz.head? = some key then readUvarint bz.tail else (0, bz)

def readBytesField (key : UInt8) (bz : Bytes) : Bytes × Bytes :=
  if bz.head? = some key then
    ((readUvarint bz.tail).2.take (readUvarint bz.tail).1,
      (readUvarint bz.tail).2.drop (readUvarint bz.tail).1)
  else ([], bz)

section Fields

variable {key : UInt8} {rest s t : Bytes}

@[simp] lemma head?_varintField (n : ℕ) :
    (varintField key n).head? = if n = 0 then none else some key := by
  unfold varintField
  split_ifs <;> rfl

@[simp] lemma head?_bytesField (bz : Bytes) :
    (bytesField key bz).head? = if bz = [] then none else some key := by
  unfold bytesField
  split_ifs <;> rfl

lemma varintField_head?_ne {key' : UInt8} (h : key ≠ key') (n : ℕ) :
    (varintField key n).head? ≠ some key' := by
  rw [head?_varintField]
  split_ifs
  · simp
  · simpa using h

lemma bytesField_head?_ne {key' : UInt8} (h : key ≠ key') (bz : Bytes) :
    (bytesField key bz).head? ≠ some key' := by
  rw [head?_bytesField]
  split_ifs
  · simp
  · simpa using h

lemma append_head?_ne {bz : Bytes} (h : bz.head? ≠ some key) (hr : rest.head? ≠ some key) :
    (bz ++ rest).head? ≠ some key := by
  cases bz with
  | nil => exact hr
  | cons b bz => exact h

lemma readVarintField_append (n : ℕ) (h : rest.head? ≠ some key) :
    readVarintField key (varintField key n ++ rest) = (n, rest) := by
  unfold readVarintField varintField
  by_cases hn : n = 0
  · simp [hn, h]
  · rw [if_neg hn, cons_append, head?_cons, if_pos rfl, tail_cons,
      readUvarint_append]

lemma readBytesField_append (bz : Bytes) (h : rest.head? ≠ some key) :
    readBytesField key (bytesField key bz ++ rest) = (bz, rest) := by
  unfold readBytesField bytesField
  by_cases hbz : bz = []
  · simp [hbz, h]
  · rw [if_neg hbz, cons_append, tail_cons,
      append_assoc, readUvarint_append]
    simp

lemma varintField_inj {n n' : ℕ} (hs : s.head? ≠ some key) (ht : t.head? ≠ some key)
    (h : varintField key n ++ s = varintField key n' ++ t) : n = n' ∧ s = t := by
  have hread := congrArg (readVarintField key) h
  rw [readVarintField_append n hs, readVarintField_append n' ht] at hread
  exact Prod.mk.inj hread

lemma bytesField_inj {bz bz' : Bytes} (hs : s.head? ≠ some key)
    (ht : t.head? ≠ some key) (h : bytesField key bz ++ s = bytesField key bz' ++ t) :
    bz = bz' ∧ s = t := by
  have hread := congrArg (readBytesField key) h
  rw [readBytesField_append bz hs, readBytesField_append bz' ht] at hread
  exact Prod.mk.inj hread

@[simp] lemma readVarintField_self (n : ℕ) :
    readVarintField key (varintField key n) = (n, []) := by
  have h := @readVarintField_append key [] n (by simp)
  rwa [append_nil] at h

@[simp] lemma readBytesField_self (bz : Bytes) :
    readBytesField key (bytesField key bz) = (bz, []) := by
  have h := @readBytesField_append key [] bz (by simp)
  rwa [append_nil] at h

end Fields

lemma varintField_injective (key : UInt8) : Function.Injective (varintField key) := by
  intro a b h
  exact (varintField_inj (s := []) (t := []) (by simp) (by simp) (by simpa using h)).1

lemma bytesField_injective (key : UInt8) : Function.Injective (bytesField key) := by
  intro a b h
  exact (bytesField_inj (s := []) (t := []) (by simp) (by simp) (by simpa using h)).1

/-- A field that is there even if it is empty. -/
def message (key : UInt8) (bz : Bytes) : Bytes := key :: (uvarint bz.length ++ bz)

def optional (key : UInt8) (bz : Option Bytes) : Bytes := bz.elim [] (message key)

def repeated (key : UInt8) (l : List Bytes) : Bytes := l.flatMap (message key)

def readMessage (bz : Bytes) : Bytes × Bytes :=
  ((readUvarint bz.tail).2.take (readUvarint bz.tail).1,
    (readUvarint bz.tail).2.drop (readUvarint bz.tail).1)

def readOptional (key : UInt8) (bz : Bytes) : Option Bytes × Bytes :=
  if bz.head? = some key then (some (readMessage bz).1, (readMessage bz).2) else (none, bz)

/-- At most so many messages. -/
def readRepeated (key : UInt8) : ℕ → Bytes → List Bytes × Bytes
  | 0, bz => ([], bz)
  | n + 1, bz =>
    if bz.head? = some key then
      ((readMessage bz).1 :: (readRepeated key n (readMessage bz).2).1,
        (readRepeated key n (readMessage bz).2).2)
    else ([], bz)

section Messages

variable {key key' : UInt8} {rest : Bytes}

lemma optional_head?_ne (h : key ≠ key') (bz : Option Bytes) :
    (optional key bz).head? ≠ some key' := by
  cases bz with
  | none => simp [optional]
  | some bz => simpa [optional, message] using h

@[simp]
lemma readMessage_append (bz : Bytes) : readMessage (message key bz ++ rest) = (bz, rest) := by
  rw [readMessage, message, cons_append, tail_cons, append_assoc,
    readUvarint_append]
  simp

lemma readOptional_append (bz : Option Bytes) (h : rest.head? ≠ some key) :
    readOptional key (optional key bz ++ rest) = (bz, rest) := by
  cases bz with
  | none => exact if_neg h
  | some bz =>
    have hread := @readMessage_append key rest bz
    simp only [optional, elim_some]
    rw [readOptional, hread]
    exact if_pos rfl

lemma readRepeated_append (l : List Bytes) (h : rest.head? ≠ some key) {n : ℕ}
    (hn : l.length ≤ n) : readRepeated key n (repeated key l ++ rest) = (l, rest) := by
  induction l generalizing n with
  | nil =>
    cases n with
    | zero => rfl
    | succ n => exact if_neg h
  | cons bz l ih =>
    obtain ⟨n, rfl⟩ : ∃ m, n = m + 1 := ⟨n - 1, by simp at hn; omega⟩
    have hsplit : repeated key (bz :: l) ++ rest =
        message key bz ++ (repeated key l ++ rest) := by
      simp [repeated]
    rw [hsplit, readRepeated, readMessage_append, ih (by simpa using hn)]
    exact if_pos rfl

@[simp] lemma readMessage_self (bz : Bytes) : readMessage (message key bz) = (bz, []) := by
  have h := @readMessage_append key [] bz
  rwa [append_nil] at h

lemma length_le_repeated (l : List Bytes) : l.length ≤ (repeated key l).length := by
  induction l with
  | nil => simp
  | cons bz l ih =>
    simp only [repeated, flatMap_cons, length_append, length_cons, message] at ih ⊢
    omega

lemma length_bytesField {bz : Bytes} (h : bz ≠ []) :
    (bytesField key bz).length = 1 + (uvarint bz.length).length + bz.length := by
  rw [bytesField, if_neg h]
  simp only [length_cons, length_append]
  omega

@[simp] lemma length_message (bz : Bytes) :
    (message key bz).length = 1 + (uvarint bz.length).length + bz.length := by
  simp only [message, length_cons, length_append]
  omega

lemma length_bytesField_le (key : UInt8) (bz : Bytes) (h : bz.length < 2 ^ 21) :
    (bytesField key bz).length ≤ bz.length + 4 := by
  by_cases hnil : bz = []
  · simp [hnil, bytesField]
  · have hlen := (length_uvarint_le_iff bz.length 2).mpr (by omega)
    rw [length_bytesField hnil]
    omega

end Messages

/-- An `int64` is written as the `uint64` of the same bits. Other integers have numbers
beyond these. -/
def ofInt (n : ℤ) : ℕ :=
  if 0 ≤ n ∧ n < 2 ^ 63 then n.toNat
  else if -2 ^ 63 ≤ n ∧ n < 0 then (n + 2 ^ 64).toNat
  else if 0 ≤ n then 2 * n.toNat
  else 2 * (-n).toNat + 1

def toInt (n : ℕ) : ℤ :=
  if n < 2 ^ 63 then n
  else if n < 2 ^ 64 then n - 2 ^ 64
  else if n % 2 = 0 then (n / 2 : ℕ)
  else -(n / 2 : ℕ)

@[simp] lemma toInt_ofInt (n : ℤ) : toInt (ofInt n) = n := by
  unfold ofInt
  split_ifs with h₁ h₂ h₃
  · rw [toInt]
    omega
  · rw [toInt]
    omega
  · rw [toInt]
    omega
  · rw [toInt]
    omega

lemma ofInt_ne_zero {n : ℤ} (h : n ≠ 0) : ofInt n ≠ 0 := by
  unfold ofInt
  split_ifs <;> omega

def intField (key : UInt8) (n : ℤ) : Bytes := varintField key (ofInt n)

def readIntField (key : UInt8) (bz : Bytes) : ℤ × Bytes :=
  (toInt (readVarintField key bz).1, (readVarintField key bz).2)

lemma readIntField_append {key : UInt8} {rest : Bytes} (n : ℤ) (h : rest.head? ≠ some key) :
    readIntField key (intField key n ++ rest) = (n, rest) := by
  rw [readIntField, intField, readVarintField_append _ h, toInt_ofInt]

@[simp] lemma readIntField_self {key : UInt8} (n : ℤ) :
    readIntField key (intField key n) = (n, []) := by
  have h := @readIntField_append key [] n (by simp)
  rwa [append_nil] at h

lemma intField_ne_nil {key : UInt8} {n : ℤ} (h : n ≠ 0) : intField key n ≠ [] := by
  rw [intField, varintField, if_neg (ofInt_ne_zero h)]
  exact cons_ne_nil _ _

lemma intField_head?_ne {key key' : UInt8} (h : key ≠ key') (n : ℤ) :
    (intField key n).head? ≠ some key' := varintField_head?_ne h _

/-- A number of 64 bits takes at most ten bytes. -/
lemma length_intField_le (key : UInt8) {n : ℤ} (hlow : -2 ^ 63 ≤ n)
    (hhigh : n < 2 ^ 63) : (intField key n).length ≤ 11 := by
  have hof : ofInt n < 2 ^ 64 := by
    unfold ofInt
    split_ifs <;> omega
  have hlen := (length_uvarint_le_iff (ofInt n) 9).mpr (hof.trans (by norm_num))
  unfold intField varintField
  split_ifs
  · simp
  · simp only [length_cons]
    omega

/-- The next field, if there is one, has a higher key. -/
def Above (key : UInt8) (bz : Bytes) : Prop := ∀ k, bz.head? = some k → key < k

namespace Above

variable {key key' : UInt8} {bz rest : Bytes}

lemma nil : Above key [] := by
  intro k hk
  cases hk

lemma head?_ne (h : Above key bz) : bz.head? ≠ some key := fun hkey =>
  absurd (h key hkey) (UInt8.lt_irrefl key)

lemma append (hkey : key < key') (hbz : ∀ k, bz.head? = some k → k = key')
    (hrest : Above key' rest) : Above key (bz ++ rest) := by
  intro k hk
  cases bz with
  | nil => exact UInt8.lt_trans hkey (hrest k hk)
  | cons b bz =>
    rw [hbz k hk]
    exact hkey

lemma varintField (key : UInt8) (hkey : key < key') (n : ℕ) (hrest : Above key' rest) :
    Above key (varintField key' n ++ rest) := by
  refine append hkey ?_ hrest
  intro k hk
  rw [head?_varintField] at hk
  split_ifs at hk
  exact (some.inj hk).symm

lemma intField (key : UInt8) (hkey : key < key') (n : ℤ) (hrest : Above key' rest) :
    Above key (intField key' n ++ rest) := varintField key hkey _ hrest

lemma bytesField (key : UInt8) (hkey : key < key') (bz : Bytes) (hrest : Above key' rest) :
    Above key (bytesField key' bz ++ rest) := by
  refine append hkey ?_ hrest
  intro k hk
  rw [head?_bytesField] at hk
  split_ifs at hk
  exact (some.inj hk).symm

lemma optional (key : UInt8) (hkey : key < key') (bz : Option Bytes)
    (hrest : Above key' rest) : Above key (optional key' bz ++ rest) := by
  refine append hkey ?_ hrest
  intro k hk
  cases bz with
  | none => cases hk
  | some bz => exact (some.inj hk).symm

lemma message (key : UInt8) (hkey : key < key') (bz : Bytes) (hrest : Above key' rest) :
    Above key (message key' bz ++ rest) := optional key hkey (some bz) hrest

end Above

end ShardingBC.Wire
