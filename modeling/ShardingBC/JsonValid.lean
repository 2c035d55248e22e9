import ShardingBC.JsonDecode

/-!
# Parsed strings are valid

The scanner copies whole runes and replaces whatever is no rune, so the strings and keys of a parsed
document are valid UTF-8. Such a document is its own repaired form.
-/
namespace ShardingBC.Json

open List Option

lemma wholeRunes_simpleEscape {e c : UInt8} (h : simpleEscape e = some c) : WholeRunes [c] := by
  have hc : c < 0x80 := by
    unfold simpleEscape at h
    split_ifs at h with h1
    · cases h
      rcases h1 with rfl | rfl | rfl <;> decide
    all_goals cases h; decide
  exact wholeRunes_of_runeLen (runeLen_ascii hc [])

lemma wholeRunes_scanEscape {s x : Bytes} {n : ℕ} (h : scanEscape s = some (x, n)) :
    WholeRunes x := by
  have hbad : WholeRunes [0xEF, 0xBF, 0xBD] := wholeRunes_of_runeLen (by decide)
  unfold scanEscape at h
  split at h
  · cases h
  · split_ifs at h with he
    · split at h
      · split at h
        · cases h
        · split_ifs at h with hs
          · split at h
            · cases h
              exact hbad
            · split at h
              · cases h
                exact wholeRunes_encodeRune _
              · cases h
                exact hbad
          · cases h
            exact wholeRunes_encodeRune _
      · cases h
    · obtain ⟨c, hc, he⟩ := map_eq_some_iff.mp h
      cases he
      exact wholeRunes_simpleEscape hc

lemma prepend_eq_some {x y t : Bytes} {o : Option (Bytes × Bytes)}
    (h : prepend x o = some (y, t)) : ∃ z, o = some (z, t) ∧ y = x ++ z := by
  obtain ⟨⟨z, t'⟩, ho, he⟩ := map_eq_some_iff.mp h
  cases he
  exact ⟨z, ho, rfl⟩

@[simp] lemma scanBody_skip (n : ℕ) (s : Bytes) : scanBody n 0 s = scanString (s.drop n) := by
  induction n generalizing s with
  | zero => rfl
  | succ n ih =>
    cases s with
    | nil => rfl
    | cons b s => simpa [scanBody] using ih s

lemma validUtf8_of_scanString {s x t : Bytes} (h : scanString s = some (x, t)) : ValidUtf8 x := by
  induction hlen : s.length using Nat.strong_induction_on generalizing s x with
  | h len ih =>
    -- what follows a piece of whole runes is scanned from a shorter text
    have hstep : ∀ {m r : Bytes}, WholeRunes m → r.length < len →
        prepend m (scanString r) = some (x, t) → ValidUtf8 x := by
      intro m r hm hr hp
      obtain ⟨z, hz, rfl⟩ := prepend_eq_some hp
      rw [ValidUtf8, hm, ih r.length hr hz rfl]
    cases s with
    | nil => simp [scanString, scanBody] at h
    | cons b r =>
      simp only [length_cons] at hlen
      simp only [scanString, scanBody] at h
      split_ifs at h with h1 h2 h3
      · cases h
        rfl
      · split at h
        · cases h
        · rename_i e n he
          rw [scanBody_skip] at h
          exact hstep (wholeRunes_scanEscape he) (by simp; omega) h
      · split at h
        · exact hstep (wholeRunes_of_runeLen (b := 0xEF) (m := [0xBF, 0xBD]) (by decide))
            (by omega) h
        · rename_i n hr
          have hn : n ≤ r.length := by have := runeLen_le b r; omega
          have hsplit : scanBody 0 n r = prepend (r.take n) (scanString (r.drop n)) := by
            have := scanBody_take (r.take n) (r.drop n)
            rwa [take_append_drop, length_take, Nat.min_eq_left hn] at this
          have hwhole : WholeRunes (b :: r.take n) := by
            refine wholeRunes_of_runeLen ?_
            have := runeLen_take b r [] n hr
            simpa [hn] using this
          rw [hsplit] at h
          refine hstep hwhole (r := r.drop n) (by simp; omega) ?_
          obtain ⟨z, hz, rfl⟩ := prepend_eq_some h
          obtain ⟨z', hz', rfl⟩ := prepend_eq_some hz
          simp [prepend, hz']

lemma repair_of_parse_fuel (n : ℕ) :
    (∀ s v t, parseValue n s = some (v, t) → repair v = v) ∧
    (∀ s xs t, parseElems n s = some (xs, t) → repairElems xs = xs) ∧
    ∀ s kvs t, parseMembers n s = some (kvs, t) → repairMembers kvs = kvs := by
  induction n with
  | zero => simp [parseValue, parseElems, parseMembers]
  | succ n ih =>
    obtain ⟨ihv, ihe, ihm⟩ := ih
    refine ⟨?_, ?_, ?_⟩
    · intro s v t h
      simp only [parseValue] at h
      split at h
      · cases h
      · split_ifs at h
        · obtain ⟨p, hp, he⟩ := map_eq_some_iff.mp h
          cases he
          rw [repair, validUtf8_of_scanString hp]
        · split at h
          · cases h
          · split_ifs at h
            · cases h
              rfl
            · obtain ⟨x, hx, h⟩ := bind_eq_some_iff.mp h
              obtain ⟨xs, hxs, h⟩ := bind_eq_some_iff.mp h
              cases h
              rw [repair, repairElems, ihv _ _ _ hx, ihe _ _ _ hxs]
        · split at h
          · cases h
          · split_ifs at h
            · cases h
              rfl
            · obtain ⟨k, hk, h⟩ := bind_eq_some_iff.mp h
              obtain ⟨u, hu, h⟩ := bind_eq_some_iff.mp h
              obtain ⟨x, hx, h⟩ := bind_eq_some_iff.mp h
              obtain ⟨kvs, hkvs, h⟩ := bind_eq_some_iff.mp h
              cases h
              rw [repair, repairMembers, validUtf8_of_scanString hk, ihv _ _ _ hx,
                ihm _ _ _ hkvs]
        all_goals
          obtain ⟨p, hp, he⟩ := map_eq_some_iff.mp h
          cases he
          rfl
    · intro s xs t h
      simp only [parseElems] at h
      split at h
      · cases h
      · split_ifs at h
        · cases h
          rfl
        · obtain ⟨x, hx, h⟩ := bind_eq_some_iff.mp h
          obtain ⟨ys, hys, h⟩ := bind_eq_some_iff.mp h
          cases h
          rw [repairElems, ihv _ _ _ hx, ihe _ _ _ hys]
    · intro s kvs t h
      simp only [parseMembers] at h
      split at h
      · cases h
      · split_ifs at h
        · cases h
          rfl
        · obtain ⟨q, hq, h⟩ := bind_eq_some_iff.mp h
          obtain ⟨k, hk, h⟩ := bind_eq_some_iff.mp h
          obtain ⟨u, hu, h⟩ := bind_eq_some_iff.mp h
          obtain ⟨x, hx, h⟩ := bind_eq_some_iff.mp h
          obtain ⟨ys, hys, h⟩ := bind_eq_some_iff.mp h
          cases h
          rw [repairMembers, validUtf8_of_scanString hk, ihv _ _ _ hx, ihm _ _ _ hys]

lemma repair_of_parse {s : Bytes} {v : Json} (h : parse s = some v) : repair v = v := by
  unfold parse at h
  split at h
  · rename_i v' rest hv
    split_ifs at h
    cases h
    exact (repair_of_parse_fuel _).1 _ _ _ hv
  · cases h

lemma mem_of_lookup {σ : Type} {fields : List (FieldDecoder σ)} {k : Bytes} {d : Decoder σ}
    (h : lookup fields k = some d) : ∃ f ∈ fields, f.2 = d := by
  unfold lookup at h
  split at h
  · rename_i f hf
    cases h
    exact ⟨f, mem_of_find?_eq_some hf, rfl⟩
  · obtain ⟨f, hf, he⟩ := map_eq_some_iff.mp h
    exact ⟨f, mem_of_find?_eq_some hf, he⟩

/-- What every field keeps of a valid document, the struct keeps. -/
lemma decodeMembers_invariant {σ : Type} {fields : List (FieldDecoder σ)} (P : σ → Prop)
    (hstep : ∀ f ∈ fields, ∀ s v, repair v = v → P s → P (f.2 s v).1) {kvs : List (Bytes × Json)}
    (hkvs : repairMembers kvs = kvs) {s : σ} (hs : P s) : P (decodeMembers fields s kvs).1 := by
  induction kvs generalizing s with
  | nil => exact hs
  | cons kv kvs ih =>
    obtain ⟨k, v⟩ := kv
    simp only [repairMembers, cons.injEq, Prod.mk.injEq] at hkvs
    unfold decodeMembers
    cases hd : lookup fields k with
    | none => exact ih hkvs.2 hs
    | some d =>
      obtain ⟨f, hf, rfl⟩ := mem_of_lookup hd
      exact ih hkvs.2 (hstep f hf s v hkvs.1.2 hs)

lemma validUtf8_decodeString {old : Bytes} {v : Json} (hold : toValid old = old)
    (hv : repair v = v) : toValid (decodeString old v).1 = (decodeString old v).1 := by
  cases v with
  | str s => simpa [repair, decodeString] using hv
  | _ => exact hold

end ShardingBC.Json
