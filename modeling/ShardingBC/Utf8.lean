import ShardingBC.GoBytes

/-!
# UTF-8 sequences as Go reads and repairs them

`runeLen` is the width `utf8.DecodeRune` reports, zero for an invalid encoding. `toValid` replaces
each invalid byte by the replacement character, as `encoding/json` does. The counter of the
auxiliary functions is the rest of the current rune.
-/
namespace ShardingBC

open List

def isCont (b : UInt8) : Bool := 0x80 ≤ b && b ≤ 0xBF

/-- The accepted range of the second byte after the leading byte `a`. -/
def secondOk (a b : UInt8) : Bool :=
  if a = 0xE0 then 0xA0 ≤ b && b ≤ 0xBF
  else if a = 0xED then 0x80 ≤ b && b ≤ 0x9F
  else if a = 0xF0 then 0x90 ≤ b && b ≤ 0xBF
  else if a = 0xF4 then 0x80 ≤ b && b ≤ 0x8F
  else isCont b

/-- Width of the rune at the head, zero where the encoding is invalid. -/
def runeLen : Bytes → ℕ
  | [] => 0
  | a :: r =>
    if a < 0x80 then 1
    else if 0xC2 ≤ a ∧ a ≤ 0xDF then
      match r with
      | b :: _ => if isCont b then 2 else 0
      | [] => 0
    else if 0xE0 ≤ a ∧ a ≤ 0xEF then
      match r with
      | b :: c :: _ => if secondOk a b && isCont c then 3 else 0
      | _ => 0
    else if 0xF0 ≤ a ∧ a ≤ 0xF4 then
      match r with
      | b :: c :: d :: _ => if secondOk a b && isCont c && isCont d then 4 else 0
      | _ => 0
    else 0

lemma runeLen_ascii {a : UInt8} (h : a < 0x80) (r : Bytes) : runeLen (a :: r) = 1 := by
  simp [runeLen, h]

lemma isCont_not_ascii {b : UInt8} (h : isCont b = true) : 0x80 ≤ b := by
  simp only [isCont, Bool.and_eq_true, decide_eq_true_eq] at h
  exact h.1

lemma secondOk_not_ascii {a b : UInt8} (h : secondOk a b = true) : 0x80 ≤ b := by
  unfold secondOk at h
  split_ifs at h
  · grind
  · grind
  · grind
  · grind
  · exact isCont_not_ascii h

/-- The later bytes of a rune are not ASCII, and the width depends on the rune alone. -/
lemma runeLen_cases {a : UInt8} {r : Bytes} {n : ℕ} (h : runeLen (a :: r) = n + 1) :
    ∃ m rest, r = m ++ rest ∧ m.length = n ∧ (∀ c ∈ m, 0x80 ≤ c) ∧
      ∀ x, runeLen (a :: (m ++ x)) = n + 1 := by
  simp only [runeLen] at h ⊢
  split_ifs at h ⊢
  · obtain rfl : n = 0 := by omega
    exact ⟨[], r, rfl, rfl, by simp, fun _ => rfl⟩
  · rcases r with _ | ⟨b, r⟩
    · cases h
    · simp only [] at h
      split_ifs at h with hb
      obtain rfl : n = 1 := by omega
      exact ⟨[b], r, rfl, rfl, by simpa using isCont_not_ascii hb, fun x => by simp [hb]⟩
  · rcases r with _ | ⟨b, _ | ⟨c, r⟩⟩
    · cases h
    · cases h
    · simp only [] at h
      split_ifs at h with hb
      obtain rfl : n = 2 := by omega
      refine ⟨[b, c], r, rfl, rfl, ?_, fun x => by simp [hb]⟩
      rw [Bool.and_eq_true] at hb
      simpa using ⟨secondOk_not_ascii hb.1, isCont_not_ascii hb.2⟩
  · rcases r with _ | ⟨b, _ | ⟨c, _ | ⟨d, r⟩⟩⟩
    · cases h
    · cases h
    · cases h
    · simp only [] at h
      split_ifs at h with hb
      obtain rfl : n = 3 := by omega
      refine ⟨[b, c, d], r, rfl, rfl, ?_, fun x => by simp [hb]⟩
      rw [Bool.and_eq_true, Bool.and_eq_true] at hb
      simpa using ⟨secondOk_not_ascii hb.1.1, isCont_not_ascii hb.1.2, isCont_not_ascii hb.2⟩

lemma runeLen_le (a : UInt8) (r : Bytes) : runeLen (a :: r) ≤ r.length + 1 := by
  cases hn : runeLen (a :: r) with
  | zero => omega
  | succ n =>
    obtain ⟨m, rest, rfl, rfl, -⟩ := runeLen_cases hn
    rw [length_append]
    omega

lemma runeLen_take (a : UInt8) (r x : Bytes) (n : ℕ) (h : runeLen (a :: r) = n + 1) :
    runeLen (a :: (r.take n ++ x)) = n + 1 := by
  obtain ⟨m, rest, rfl, rfl, -, hx⟩ := runeLen_cases h
  rw [take_left]
  exact hx x

def toValidAux : ℕ → Bytes → Bytes
  | _, [] => []
  | k + 1, b :: r => b :: toValidAux k r
  | 0, b :: r =>
    match runeLen (b :: r) with
    | 0 => 0xEF :: 0xBF :: 0xBD :: toValidAux 0 r
    | n + 1 => b :: toValidAux n r

/-- `strings.ToValidUTF8(s, "�")`, one replacement for each invalid byte. -/
def toValid (s : Bytes) : Bytes := toValidAux 0 s

/-- A string that `encoding/json` reproduces byte for byte. -/
def ValidUtf8 (s : Bytes) : Prop := toValid s = s

instance (s : Bytes) : Decidable (ValidUtf8 s) := inferInstanceAs (Decidable (toValid s = s))

@[simp] lemma toValidAux_nil (k : ℕ) : toValidAux k [] = [] := by cases k <;> rfl

@[simp] lemma toValid_nil : toValid [] = [] := rfl

lemma toValidAux_take (k : ℕ) (s : Bytes) (h : k ≤ s.length) :
    toValidAux k s = s.take k ++ toValid (s.drop k) := by
  induction k generalizing s with
  | zero => simp [toValid]
  | succ k ih =>
    cases s with
    | nil => simp at h
    | cons b s => simp [toValidAux, ih s (by simpa using h)]

variable {b : UInt8}

lemma toValid_ascii (h : b < 0x80) (r : Bytes) :
    toValid (b :: r) = b :: toValid r := by
  simp [toValid, toValidAux, runeLen_ascii h]

lemma toValid_invalid {r : Bytes} (h : runeLen (b :: r) = 0) :
    toValid (b :: r) = 0xEF :: 0xBF :: 0xBD :: toValid r := by
  simp [toValid, toValidAux, h]

lemma toValid_rune {r : Bytes} {n : ℕ} (h : runeLen (b :: r) = n + 1) :
    toValid (b :: r) = b :: (r.take n ++ toValid (r.drop n)) := by
  have hn : n ≤ r.length := by have := runeLen_le b r; omega
  rw [← toValidAux_take n r hn]
  simp [toValid, toValidAux, h]

lemma toValid_append_rune {m x : Bytes} (h : runeLen (b :: m) = m.length + 1) :
    toValid (b :: (m ++ x)) = b :: (m ++ toValid x) := by
  have hx : runeLen (b :: (m ++ x)) = m.length + 1 := by
    have := runeLen_take b m x m.length h
    simpa using this
  rw [toValid_rune hx]
  simp

@[simp] lemma toValid_replacement (x : Bytes) :
    toValid (0xEF :: 0xBF :: 0xBD :: x) = 0xEF :: 0xBF :: 0xBD :: toValid x :=
  toValid_append_rune (b := 0xEF) (m := [0xBF, 0xBD]) (by decide)

/-- Repairing is idempotent, so every repaired string is valid. -/
lemma validUtf8_toValid (s : Bytes) : ValidUtf8 (toValid s) := by
  induction h : s.length using Nat.strong_induction_on generalizing s with
  | h len ih =>
    cases s with
    | nil => rfl
    | cons b r =>
      simp only [length_cons] at h
      cases hr : runeLen (b :: r) with
      | zero =>
        have hrec : ValidUtf8 (toValid r) := ih r.length (by omega) r rfl
        rw [ValidUtf8, toValid_invalid hr, toValid_replacement, hrec]
      | succ n =>
        have hn : n ≤ r.length := by have := runeLen_le b r; omega
        have hrec : ValidUtf8 (toValid (r.drop n)) :=
          ih (r.drop n).length (by simp; omega) (r.drop n) rfl
        have hlen : (r.take n).length = n := by simp [hn]
        have hm : runeLen (b :: r.take n) = (r.take n).length + 1 := by
          have := runeLen_take b r [] n hr
          simpa [hlen] using this
        rw [ValidUtf8, toValid_rune hr, toValid_append_rune hm, hrec]

lemma not_ascii_of_runeLen {a : UInt8} {r : Bytes} {n : ℕ} (h : runeLen (a :: r) = n + 1) :
    ∀ c ∈ r.take n, 0x80 ≤ c := by
  obtain ⟨m, rest, rfl, rfl, hm, -⟩ := runeLen_cases h
  rwa [take_left]

/-- A valid string begins with a whole rune. -/
lemma runeLen_of_validUtf8 {a : UInt8} {r : Bytes} (h : ValidUtf8 (a :: r)) :
    ∃ n, runeLen (a :: r) = n + 1 := by
  cases hr : runeLen (a :: r) with
  | succ n => exact ⟨n, rfl⟩
  | zero =>
    rw [ValidUtf8, toValid_invalid hr] at h
    rw [← h] at hr
    simp [runeLen, secondOk, isCont] at hr

/-- A valid string may be cut at an ASCII byte. -/
lemma ValidUtf8.of_append_ascii {p q : Bytes} (hb : b < 0x80)
    (h : ValidUtf8 (p ++ b :: q)) : ValidUtf8 p ∧ ValidUtf8 q := by
  induction hlen : p.length using Nat.strong_induction_on generalizing p with
  | h len ih =>
    cases p with
    | nil =>
      rw [nil_append, ValidUtf8, toValid_ascii hb] at h
      exact ⟨rfl, (cons.inj h).2⟩
    | cons a p =>
      rw [cons_append] at h
      obtain ⟨n, hn⟩ := runeLen_of_validUtf8 h
      have hnp : n ≤ p.length := by
        by_contra hlt
        have hmem : b ∈ (p ++ b :: q).take n := by
          obtain ⟨k, rfl⟩ : ∃ k, n = p.length + (k + 1) := ⟨n - p.length - 1, by omega⟩
          simp [take_append]
        exact absurd hb (UInt8.not_lt.mpr (not_ascii_of_runeLen hn b hmem))
      have hcut : p ++ b :: q = p.take n ++ (p.drop n ++ b :: q) := by
        rw [← append_assoc, take_append_drop]
      have hrune : runeLen (a :: p.take n) = (p.take n).length + 1 := by
        have htake := runeLen_take a (p ++ b :: q) [] n hn
        rw [append_nil, take_append_of_le_length hnp] at htake
        rw [htake, length_take_of_le hnp]
      rw [hcut, ValidUtf8, toValid_append_rune hrune] at h
      obtain ⟨hp, hq⟩ := ih (p.drop n).length (by simp at hlen ⊢; omega)
        (append_cancel_left (cons.inj h).2) rfl
      refine ⟨?_, hq⟩
      rw [← take_append_drop n p, ValidUtf8, toValid_append_rune hrune, hp]

/-- `utf8.EncodeRune`. Surrogates and numbers beyond the last rune become the replacement
character. -/
def encodeRune (r : ℕ) : Bytes :=
  if r < 0x80 then [UInt8.ofNat r]
  else if r < 0x800 then [UInt8.ofNat (0xC0 + r / 0x40), UInt8.ofNat (0x80 + r % 0x40)]
  else if 0xD800 ≤ r ∧ r < 0xE000 ∨ 0x110000 ≤ r then [0xEF, 0xBF, 0xBD]
  else if r < 0x10000 then
    [UInt8.ofNat (0xE0 + r / 0x1000), UInt8.ofNat (0x80 + r / 0x40 % 0x40),
      UInt8.ofNat (0x80 + r % 0x40)]
  else
    [UInt8.ofNat (0xF0 + r / 0x40000), UInt8.ofNat (0x80 + r / 0x1000 % 0x40),
      UInt8.ofNat (0x80 + r / 0x40 % 0x40), UInt8.ofNat (0x80 + r % 0x40)]

@[simp] lemma isCont_ofNat (n : ℕ) : isCont (UInt8.ofNat (0x80 + n % 0x40)) = true := by
  simp only [isCont, UInt8.le_iff_toNat_le, UInt8.toNat_ofNat', Bool.and_eq_true,
    decide_eq_true_eq, UInt8.toNat_ofNat]
  omega

lemma runeLen_three {a b c : UInt8} (ha : 0xE0 ≤ a ∧ a ≤ 0xEF) (hb : secondOk a b = true)
    (hc : isCont c = true) : runeLen [a, b, c] = 3 := by
  have h1 : ¬ a < 0x80 := by grind
  have h2 : ¬ (0xC2 ≤ a ∧ a ≤ 0xDF) := by grind
  simp [runeLen, h1, h2, ha, hb, hc]

lemma runeLen_four {a b c d : UInt8} (ha : 0xF0 ≤ a ∧ a ≤ 0xF4) (hb : secondOk a b = true)
    (hc : isCont c = true) (hd : isCont d = true) : runeLen [a, b, c, d] = 4 := by
  have h1 : ¬ a < 0x80 := by grind
  have h2 : ¬ (0xC2 ≤ a ∧ a ≤ 0xDF) := by grind
  have h3 : ¬ (0xE0 ≤ a ∧ a ≤ 0xEF) := by grind
  simp [runeLen, h1, h2, h3, ha, hb, hc, hd]

lemma runeLen_encodeRune (r : ℕ) :
    ∃ b m, encodeRune r = b :: m ∧ runeLen (b :: m) = m.length + 1 := by
  unfold encodeRune
  split_ifs with h1 h2 h3 h4
  · refine ⟨_, _, rfl, runeLen_ascii ?_ _⟩
    rw [UInt8.lt_iff_toNat_lt, UInt8.toNat_ofNat', Nat.mod_eq_of_lt (by omega)]
    exact h1
  · refine ⟨_, _, rfl, ?_⟩
    simp only [runeLen, isCont, UInt8.lt_iff_toNat_lt, UInt8.le_iff_toNat_le, UInt8.toNat_ofNat',
      UInt8.toNat_ofNat, Bool.and_eq_true, decide_eq_true_eq, length_cons, length_nil]
    split_ifs <;> omega
  · exact ⟨_, _, rfl, by decide⟩
  · refine ⟨_, _, rfl, runeLen_three ?_ ?_ (isCont_ofNat r)⟩
    · simp only [UInt8.le_iff_toNat_le, UInt8.toNat_ofNat', UInt8.toNat_ofNat]
      omega
    · simp only [secondOk, isCont, ← UInt8.toNat_inj, UInt8.le_iff_toNat_le, UInt8.toNat_ofNat',
        UInt8.toNat_ofNat, Bool.and_eq_true, decide_eq_true_eq, Bool.ite_eq_true_distrib]
      split_ifs <;> omega
  · refine ⟨_, _, rfl, runeLen_four ?_ ?_ (isCont_ofNat _) (isCont_ofNat r)⟩
    · simp only [UInt8.le_iff_toNat_le, UInt8.toNat_ofNat', UInt8.toNat_ofNat]
      omega
    · simp only [secondOk, isCont, ← UInt8.toNat_inj, UInt8.le_iff_toNat_le, UInt8.toNat_ofNat',
        UInt8.toNat_ofNat, Bool.and_eq_true, decide_eq_true_eq, Bool.ite_eq_true_distrib]
      split_ifs <;> omega

/-- The bytes pass through the repair unchanged, whatever follows. -/
def WholeRunes (m : Bytes) : Prop := ∀ x, toValid (m ++ x) = m ++ toValid x

lemma wholeRunes_of_runeLen {m : Bytes} (h : runeLen (b :: m) = m.length + 1) :
    WholeRunes (b :: m) := fun _ => toValid_append_rune h

lemma wholeRunes_encodeRune (r : ℕ) : WholeRunes (encodeRune r) := by
  obtain ⟨b, m, he, hlen⟩ := runeLen_encodeRune r
  rw [he]
  exact wholeRunes_of_runeLen hlen

end ShardingBC
