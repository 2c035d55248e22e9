import ShardingBC.JsonText

/-!
# Printed documents are read back

Scanning a printed document returns it with its strings repaired. Only the number literals have to
be literals; strings and keys are arbitrary bytes.
-/
namespace ShardingBC.Json

open List Option

lemma quoteAux_take (k : ℕ) (s : Bytes) (h : k ≤ s.length) :
    quoteAux k s = s.take k ++ quoteAux 0 (s.drop k) := by
  induction k generalizing s with
  | zero => simp
  | succ k ih =>
    cases s with
    | nil => simp at h
    | cons b s => simp [quoteAux, ih s (by simpa using h)]

@[simp] lemma scanBody_drop (m t : Bytes) : scanBody m.length 0 (m ++ t) = scanString t := by
  induction m with
  | nil => rfl
  | cons b m ih => simpa only [length_cons, cons_append, scanBody] using ih

@[simp] lemma scanBody_take (m t : Bytes) :
    scanBody 0 m.length (m ++ t) = prepend m (scanString t) := by
  induction m with
  | nil => cases h : scanString t <;> simp_all [prepend, scanString]
  | cons b m ih =>
    simp only [length_cons, cons_append, scanBody, ih]
    cases scanString t <;> simp [prepend]

/-- A backslash is followed by an escape of known meaning and length. -/
lemma scanString_escape (m t x : Bytes) (h : scanEscape (m ++ t) = some (x, m.length)) :
    scanString (92 :: (m ++ t)) = prepend x (scanString t) := by
  simp only [scanString, scanBody, h]
  simp [scanString]

lemma scanString_unicode (a b c d : UInt8) (t : Bytes) (r : ℕ) (h : hex4 a b c d = some r)
    (hs : isSurrogate r = false) :
    scanString (92 :: 117 :: a :: b :: c :: d :: t) = prepend (encodeRune r) (scanString t) :=
  scanString_escape [117, a, b, c, d] t _ (by simp [scanEscape, h, hs])

lemma scanString_escapeByte (b : UInt8) (hb : b < 0x80) (t : Bytes) :
    scanString (escapeByte b ++ t) = prepend [b] (scanString t) := by
  unfold escapeByte
  split_ifs with hs hq hn hr ht
  · simp only [htmlSafe, Bool.and_eq_true, decide_eq_true_eq, bne_iff_ne, ne_eq] at hs
    have h32 : ¬ b < 32 := UInt8.not_lt.mpr hs.1.1.1.1.1
    simp [scanString, scanBody, hs.1.1.1.1.2, hs.1.1.1.2, h32, runeLen_ascii hb]
  · rcases hq with rfl | rfl
    · exact scanString_escape [34] t [34] (by simp [scanEscape, simpleEscape])
    · exact scanString_escape [92] t [92] (by simp [scanEscape, simpleEscape])
  · subst hn; exact scanString_escape [110] t [10] (by simp [scanEscape, simpleEscape])
  · subst hr; exact scanString_escape [114] t [13] (by simp [scanEscape, simpleEscape])
  · subst ht; exact scanString_escape [116] t [9] (by simp [scanEscape, simpleEscape])
  · have hb' : b.toNat < 128 := hb
    have h0 : hexVal 48 = some 0 := by decide
    have h1 := hexVal_lower (b.toNat / 16) (by omega)
    have h2 := hexVal_lower (b.toNat % 16) (by omega)
    have hx : hex4 48 48 (hexLowerDigit (b.toNat / 16)) (hexLowerDigit (b.toNat % 16)) =
        some b.toNat := by
      simp only [hex4, h0, h1, h2, some.injEq]
      omega
    have hns : isSurrogate b.toNat = false := by simp [isSurrogate]; omega
    have he : encodeRune b.toNat = [b] := by simp [encodeRune, hb']
    rw [← he]
    exact scanString_unicode _ _ _ _ t _ hx hns

lemma scanString_fffd (t : Bytes) :
    scanString (lit "\\ufffd" ++ t) = prepend [0xEF, 0xBF, 0xBD] (scanString t) :=
  scanString_unicode 102 102 102 100 t 0xFFFD (by decide) (by decide)

lemma scanString_2028 (t : Bytes) :
    scanString (lit "\\u2028" ++ t) = prepend [0xE2, 0x80, 0xA8] (scanString t) :=
  scanString_unicode 50 48 50 56 t 0x2028 (by decide) (by decide)

lemma scanString_2029 (t : Bytes) :
    scanString (lit "\\u2029" ++ t) = prepend [0xE2, 0x80, 0xA9] (scanString t) :=
  scanString_unicode 50 48 50 57 t 0x2029 (by decide) (by decide)

variable {b : UInt8}

lemma not_ascii_scan (hb : ¬ b < 0x80) : b ≠ 34 ∧ b ≠ 92 ∧ ¬ b < 32 := by
  refine ⟨?_, ?_, ?_⟩
  · rintro rfl; exact hb (by decide)
  · rintro rfl; exact hb (by decide)
  · intro h; exact hb (UInt8.lt_trans h (by decide))

/-- A whole multi-byte rune is copied by the scanner. -/
lemma scanString_rune (hb : ¬ b < 0x80) (m t : Bytes)
    (h : runeLen (b :: (m ++ t)) = m.length + 1) :
    scanString (b :: (m ++ t)) = prepend (b :: m) (scanString t) := by
  obtain ⟨h34, h92, h32⟩ := not_ascii_scan hb
  simp only [scanString, scanBody, h]
  rw [scanBody_take]
  cases h' : scanString t <;> simp_all [prepend, scanString]

lemma quoteAux_rune {r : Bytes} {n : ℕ} (hb : ¬ b < 0x80)
    (hr : runeLen (b :: r) = n + 1)
    (h28 : ∀ r', b :: r ≠ 0xE2 :: 0x80 :: 0xA8 :: r')
    (h29 : ∀ r', b :: r ≠ 0xE2 :: 0x80 :: 0xA9 :: r') :
    quoteAux 0 (b :: r) = b :: (r.take n ++ quoteAux 0 (r.drop n)) := by
  have hn : n ≤ r.length := by have := runeLen_le b r; omega
  rw [← quoteAux_take n r hn]
  match r with
  | [] => simp [quoteAux, hb, hr]
  | [c] => simp [quoteAux, hb, hr]
  | c :: d :: r =>
    have h1 : ¬ (b = 0xE2 ∧ c = 0x80 ∧ d = 0xA8) := by
      rintro ⟨rfl, rfl, rfl⟩; exact h28 r rfl
    have h2 : ¬ (b = 0xE2 ∧ c = 0x80 ∧ d = 0xA9) := by
      rintro ⟨rfl, rfl, rfl⟩; exact h29 r rfl
    rw [quoteAux]
    simp only [hb, if_false, hr, h1, h2]

/-- The induction is on the length, one rune at a time. -/
@[simp] lemma scanString_quoteAux (s t : Bytes) :
    scanString (quoteAux 0 s ++ 34 :: t) = some (toValid s, t) := by
  induction h : s.length using Nat.strong_induction_on generalizing s with
  | h len ih =>
    cases s with
    | nil => simp [quoteAux, scanString, scanBody]
    | cons b r =>
      simp only [length_cons] at h
      by_cases hb : b < 0x80
      · have hrec := ih r.length (by omega) r rfl
        have hq : quoteAux 0 (b :: r) = escapeByte b ++ quoteAux 0 r := by simp [quoteAux, hb]
        rw [hq, append_assoc, scanString_escapeByte b hb, hrec, toValid_ascii hb]
        rfl
      · cases hr : runeLen (b :: r) with
        | zero =>
          have hrec := ih r.length (by omega) r rfl
          have hq : quoteAux 0 (b :: r) = lit "\\ufffd" ++ quoteAux 0 r := by
            simp [quoteAux, hb, hr]
          rw [hq, append_assoc, scanString_fffd, hrec, toValid_invalid hr]
          rfl
        | succ n =>
          by_cases h28 : ∃ r', b :: r = 0xE2 :: 0x80 :: 0xA8 :: r'
          · obtain ⟨r', he⟩ := h28
            obtain ⟨rfl, rfl⟩ := cons_eq_cons.mp he
            have hrec := ih r'.length (by simp at h; omega) r' rfl
            have hq : quoteAux 0 (0xE2 :: 0x80 :: 0xA8 :: r') =
                lit "\\u2028" ++ quoteAux 0 r' := by
              simp [quoteAux, hr]
            rw [hq, append_assoc, scanString_2028, hrec,
              show (0xE2 :: 0x80 :: 0xA8 :: r' : Bytes) = 0xE2 :: ([0x80, 0xA8] ++ r') from rfl,
              toValid_append_rune (by decide)]
            rfl
          by_cases h29 : ∃ r', b :: r = 0xE2 :: 0x80 :: 0xA9 :: r'
          · obtain ⟨r', he⟩ := h29
            obtain ⟨rfl, rfl⟩ := cons_eq_cons.mp he
            have hrec := ih r'.length (by simp at h; omega) r' rfl
            have hq : quoteAux 0 (0xE2 :: 0x80 :: 0xA9 :: r') =
                lit "\\u2029" ++ quoteAux 0 r' := by
              simp [quoteAux, hr]
            rw [hq, append_assoc, scanString_2029, hrec,
              show (0xE2 :: 0x80 :: 0xA9 :: r' : Bytes) = 0xE2 :: ([0x80, 0xA9] ++ r') from rfl,
              toValid_append_rune (by decide)]
            rfl
          have hn : n ≤ r.length := by have := runeLen_le b r; omega
          have hrec := ih (r.drop n).length (by simp; omega) (r.drop n) rfl
          have hlen : (r.take n).length = n := by simp [hn]
          rw [quoteAux_rune hb hr (fun r' he => h28 ⟨r', he⟩) (fun r' he => h29 ⟨r', he⟩),
            cons_append, append_assoc,
            scanString_rune hb _ _ (by rw [hlen]; exact runeLen_take b r _ n hr), hrec,
            toValid_rune hr]
          rfl

lemma quote_append (s t : Bytes) : quote s ++ t = 34 :: (quoteAux 0 s ++ 34 :: t) := by
  simp [quote]

/-- What follows a value inside a printed document. -/
def Closes (r : Bytes) : Prop :=
  r = [] ∨ r.head? = some 44 ∨ r.head? = some 93 ∨ r.head? = some 125

/-- A literal that the scanner takes whole, whatever follows. -/
def NumOk (raw : Bytes) : Prop := ∀ r, Closes r → scanNumber (raw ++ r) = some (raw, r)

lemma closes_cons (h : b = 44 ∨ b = 93 ∨ b = 125) (r : Bytes) : Closes (b :: r) := by
  simpa [Closes] using h

lemma closes_not_digit {r : Bytes} (h : Closes (b :: r)) :
    isDigit b = false ∧ b ≠ 46 ∧ b ≠ 101 ∧ b ≠ 69 := by
  simp only [Closes, reduceCtorEq, head?_cons, some.injEq, false_or] at h
  rcases h with rfl | rfl | rfl <;> decide

lemma spanDigits_append (ds r : Bytes) (hd : ∀ b ∈ ds, isDigit b = true) (hr : Closes r) :
    spanDigits (ds ++ r) = (ds, r) := by
  induction ds with
  | nil =>
    cases r with
    | nil => rfl
    | cons b r => simp [spanDigits, (closes_not_digit hr).1]
  | cons b ds ih =>
    have hb := hd b (by simp)
    simp [spanDigits, hb, ih (fun x hx => hd x (by simp [hx]))]

lemma scanInt_formatNat (n : ℕ) (r : Bytes) (hr : Closes r) :
    scanInt (formatNat n ++ r) = some (formatNat n, r) := by
  have hd := formatNat_isDigit n
  rcases formatNat_head n with h | h
  · simp [h, scanInt]
  · cases hf : formatNat n with
    | nil => exact absurd hf (formatNat_ne_nil n)
    | cons b ds =>
      have h48 : b ≠ 48 := by simpa [hf] using h
      have hb := hd b (by simp [hf])
      have hs := spanDigits_append ds r (fun x hx => hd x (by simp [hf, hx])) hr
      simp [scanInt, h48, hb, hs]

lemma scanUnsigned_formatNat (n : ℕ) (r : Bytes) (hr : Closes r) :
    scanUnsigned (formatNat n ++ r) = some (formatNat n, r) := by
  have hfe : scanFrac r = some ([], r) ∧ scanExp r = some ([], r) := by
    cases r with
    | nil => exact ⟨rfl, rfl⟩
    | cons b r =>
      obtain ⟨_, h46, h101, h69⟩ := closes_not_digit hr
      simp [scanFrac, scanExp, h46, h101, h69]
  simp [scanUnsigned, scanInt_formatNat n r hr, hfe.1, hfe.2]

lemma numOk_formatNat (n : ℕ) : NumOk (formatNat n) := by
  intro r hr
  have h := scanUnsigned_formatNat n r hr
  cases hf : formatNat n with
  | nil => exact absurd hf (formatNat_ne_nil n)
  | cons b ds =>
    have h45 : b ≠ 45 := by simpa [hf] using (formatNat_head_not_sign n).1
    rw [hf, cons_append] at h
    simp [scanNumber, h45, h]

lemma numOk_formatInt (i : Int64) : NumOk (formatInt i) := by
  intro r hr
  unfold formatInt
  split_ifs
  · simp [scanNumber, scanUnsigned_formatNat _ r hr]
  · exact numOk_formatNat _ r hr

lemma NumOk.head {raw : Bytes} (h : NumOk raw) : ∃ b ds, raw = b :: ds ∧ isBlank b = false ∧
    b ∉ [34, 91, 93, 123, 125, 110, 116, 102] := by
  have h0 := h [] (Or.inl rfl)
  cases raw with
  | nil => simp [scanNumber] at h0
  | cons b ds =>
    refine ⟨b, ds, rfl, ?_⟩
    by_contra hb
    have hdigit : isDigit b = false ∧ b ≠ 45 ∧ b ≠ 48 := by
      simp only [isBlank, not_and_or, Bool.not_eq_false, Bool.or_eq_true, beq_iff_eq, not_not,
        mem_cons, not_mem_nil, or_false] at hb
      rcases hb with (((rfl | rfl) | rfl) | rfl) | rfl | rfl | rfl | rfl | rfl | rfl | rfl | rfl <;>
        decide
    simp [scanNumber, scanUnsigned, scanInt, hdigit] at h0

mutual

/-- Every number of the document is a literal. -/
def NumsOk : Json → Prop
  | null => True
  | bool _ => True
  | num raw => NumOk raw
  | str _ => True
  | arr xs => NumsOkElems xs
  | obj kvs => NumsOkMembers kvs

def NumsOkElems : List Json → Prop
  | [] => True
  | x :: xs => NumsOk x ∧ NumsOkElems xs

def NumsOkMembers : List (Bytes × Json) → Prop
  | [] => True
  | (_, v) :: kvs => NumsOk v ∧ NumsOkMembers kvs

end

mutual

/-- The document with its strings and keys repaired. -/
def repair : Json → Json
  | null => null
  | bool b => bool b
  | num raw => num raw
  | str s => str (toValid s)
  | arr xs => arr (repairElems xs)
  | obj kvs => obj (repairMembers kvs)

def repairElems : List Json → List Json
  | [] => []
  | x :: xs => repair x :: repairElems xs

def repairMembers : List (Bytes × Json) → List (Bytes × Json)
  | [] => []
  | (k, v) :: kvs => (toValid k, repair v) :: repairMembers kvs

end

lemma print_arr (x : Json) (xs : List Json) :
    print (arr (x :: xs)) = 91 :: (print x ++ printElems xs) := by rw [print]

lemma print_obj (k : Bytes) (v : Json) (kvs : List (Bytes × Json)) :
    print (obj ((k, v) :: kvs)) = 123 :: (quote k ++ 58 :: (print v ++ printMembers kvs)) := by
  rw [print]

lemma print_head (v : Json) (h : NumsOk v) :
    ∃ b t, print v = b :: t ∧ isBlank b = false ∧ b ≠ 93 ∧ b ≠ 125 := by
  match v with
  | null => exact ⟨110, lit "ull", rfl, by decide⟩
  | bool true => exact ⟨116, lit "rue", rfl, by decide⟩
  | bool false => exact ⟨102, lit "alse", rfl, by decide⟩
  | num raw =>
    obtain ⟨b, ds, rfl, hblank, hb⟩ := h.head
    exact ⟨b, ds, by rw [print], hblank, by rintro rfl; simp at hb, by rintro rfl; simp at hb⟩
  | str s => exact ⟨34, quoteAux 0 s ++ [34], by rfl, by decide⟩
  | arr [] => exact ⟨91, [93], by rfl, by decide⟩
  | arr (x :: xs) => exact ⟨91, print x ++ printElems xs, print_arr x xs, by decide⟩
  | obj [] => exact ⟨123, [125], by rw [print], by decide⟩
  | obj ((k, v) :: kvs) => exact ⟨123, _, print_obj k v kvs, by decide⟩

lemma skipBlanks_cons (h : isBlank b = false) (r : Bytes) :
    skipBlanks (b :: r) = b :: r := by simp [skipBlanks, h]

lemma expect_cons (h : isBlank b = false) (r : Bytes) :
    expect b (b :: r) = some r := by simp [expect, skipBlanks_cons h]

lemma closes_printElems (xs : List Json) (r : Bytes) : Closes (printElems xs ++ r) := by
  cases xs <;> (exact closes_cons (by decide) _)

lemma closes_printMembers (kvs : List (Bytes × Json)) (r : Bytes) :
    Closes (printMembers kvs ++ r) := by
  match kvs with
  | [] => exact closes_cons (by decide) _
  | (k, v) :: kvs => exact closes_cons (by decide) _

lemma parseValue_num (n : ℕ) (raw r : Bytes) (h : NumOk raw) (hr : Closes r) :
    parseValue (n + 1) (raw ++ r) = some (num raw, r) := by
  have hs := h r hr
  obtain ⟨b, ds, rfl, hbl, hb⟩ := h.head
  simp only [mem_cons, not_or] at hb
  rw [cons_append] at hs ⊢
  simp only [parseValue, skipBlanks_cons hbl, hb, if_false, hs, map_some]

mutual

lemma parseValue_print : ∀ (v : Json) (n : ℕ) (r : Bytes), NumsOk v →
    (print v).length ≤ n → Closes r → parseValue n (print v ++ r) = some (repair v, r)
  | v, 0, _, h, hn, _ => by
      obtain ⟨b, t, hp, -⟩ := print_head v h
      simp [hp] at hn
  | null, n + 1, r, _, _, _ => by
      change parseValue (n + 1) (110 :: 117 :: 108 :: 108 :: r) = _
      simp [parseValue, skipBlanks, isBlank, expectLit, lit, repair]
  | bool true, n + 1, r, _, _, _ => by
      change parseValue (n + 1) (116 :: 114 :: 117 :: 101 :: r) = _
      simp [parseValue, skipBlanks, isBlank, expectLit, lit, repair]
  | bool false, n + 1, r, _, _, _ => by
      change parseValue (n + 1) (102 :: 97 :: 108 :: 115 :: 101 :: r) = _
      simp [parseValue, skipBlanks, isBlank, expectLit, lit, repair]
  | num raw, n + 1, r, h, _, hr => by
      rw [NumsOk] at h
      rw [print, repair]
      exact parseValue_num n raw r h hr
  | str s, n + 1, r, _, _, _ => by
      rw [print, quote_append, repair]
      simp [parseValue, skipBlanks, isBlank]
  | arr [], n + 1, r, _, _, _ => by
      rw [print, repair, repairElems]
      change parseValue (n + 1) (91 :: 93 :: r) = _
      simp [parseValue, skipBlanks, isBlank]
  | arr (x :: xs), n + 1, r, h, hn, hr => by
      rw [NumsOk, NumsOkElems] at h
      rw [print_arr, length_cons, length_append] at hn
      obtain ⟨b, t, hp, hbl, h93, _⟩ := print_head x h.1
      have hx := parseValue_print x n (printElems xs ++ r) h.1 (by omega) (closes_printElems xs r)
      have hxs := parseElems_print xs n r h.2 (by omega) hr
      rw [hp, cons_append] at hx
      rw [print_arr, repair, repairElems, hp]
      simp only [cons_append, append_assoc, parseValue,
        skipBlanks_cons (show isBlank 91 = false by decide), skipBlanks_cons hbl, h93, if_false, hx]
      simp [hxs]
  | obj [], n + 1, r, _, _, _ => by
      rw [print, repair, repairMembers]
      simp [parseValue, skipBlanks, isBlank]
  | obj ((k, v) :: kvs), n + 1, r, h, hn, hr => by
      rw [NumsOk, NumsOkMembers] at h
      simp only [print_obj, length_cons, length_append] at hn
      have hv := parseValue_print v n (printMembers kvs ++ r) h.1 (by omega)
        (closes_printMembers kvs r)
      have hkvs := parseMembers_print kvs n r h.2 (by omega) hr
      rw [print_obj, repair, repairMembers]
      simp only [cons_append, append_assoc, quote_append, parseValue,
        skipBlanks_cons (show isBlank 123 = false by decide),
        skipBlanks_cons (show isBlank 34 = false by decide), scanString_quoteAux]
      simp [expect_cons (show isBlank 58 = false by decide), hv, hkvs]

lemma parseElems_print : ∀ (xs : List Json) (n : ℕ) (r : Bytes), NumsOkElems xs →
    (printElems xs).length ≤ n → Closes r → parseElems n (printElems xs ++ r) = some (repairElems xs, r)
  | xs, 0, _, _, hn, _ => by
      cases xs <;> simp [printElems] at hn
  | [], n + 1, r, _, _, _ => by
      rw [printElems, repairElems]
      simp [parseElems, skipBlanks, isBlank]
  | x :: xs, n + 1, r, h, hn, hr => by
      rw [NumsOkElems] at h
      simp only [printElems, length_cons, length_append] at hn
      have hx := parseValue_print x n (printElems xs ++ r) h.1 (by omega) (closes_printElems xs r)
      have hxs := parseElems_print xs n r h.2 (by omega) hr
      rw [printElems, repairElems]
      simp only [cons_append, append_assoc, parseElems,
        skipBlanks_cons (show isBlank 44 = false by decide), hx]
      simp [hxs]

lemma parseMembers_print : ∀ (kvs : List (Bytes × Json)) (n : ℕ) (r : Bytes),
    NumsOkMembers kvs → (printMembers kvs).length ≤ n → Closes r →
    parseMembers n (printMembers kvs ++ r) = some (repairMembers kvs, r)
  | kvs, 0, _, _, hn, _ => by
      cases kvs <;> simp [printMembers] at hn
  | [], n + 1, r, _, _, _ => by
      rw [printMembers, repairMembers]
      simp [parseMembers, skipBlanks, isBlank]
  | (k, v) :: kvs, n + 1, r, h, hn, hr => by
      simp only [printMembers, length_cons, length_append] at hn
      have hv := parseValue_print v n (printMembers kvs ++ r) h.1 (by omega)
        (closes_printMembers kvs r)
      have hkvs := parseMembers_print kvs n r h.2 (by omega) hr
      rw [printMembers, repairMembers]
      simp only [cons_append, append_assoc, quote_append, parseMembers,
        skipBlanks_cons (show isBlank 44 = false by decide),
        expect_cons (show isBlank 34 = false by decide)]
      simp [expect_cons (show isBlank 58 = false by decide), hv, hkvs]

end

/-- `json.Unmarshal` reads what `json.Marshal` wrote. -/
lemma parse_print (v : Json) (h : NumsOk v) : parse (print v) = some (repair v) := by
  have hv := parseValue_print v ((print v).length + 1) [] h
    (Nat.le_succ _) (Or.inl rfl)
  rw [append_nil] at hv
  simp [parse, hv, skipBlanks]

end ShardingBC.Json
