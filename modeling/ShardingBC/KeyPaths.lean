import ShardingBC.SimpleTree

/-!
# Key paths

`KeyPath.String` writes each key URL-encoded or, after `x:`, in hexadecimal. A URL-encoded key that
begins with this mark is read by `KeyPathToKeys` as a hexadecimal one.
-/
namespace ShardingBC

open List Option

/-- `shouldEscape` for a path segment. -/
def shouldEscape (c : UInt8) : Bool :=
  !(97 ≤ c && c ≤ 122 || 65 ≤ c && c ≤ 90 || 48 ≤ c && c ≤ 57 ||
    c ∈ lit "-_.~" || c ∈ lit "$&+:=@")

def escapeByte (c : UInt8) : Bytes :=
  if shouldEscape c then [37, hexUpperDigit (c.toNat / 16), hexUpperDigit (c.toNat % 16)] else [c]

def pathEscape (s : Bytes) : Bytes := s.flatMap escapeByte

lemma pathUnescape_cons {c : UInt8} (hc : c ≠ 37) (r : Bytes) :
    pathUnescape (c :: r) = (pathUnescape r).map (c :: ·) := by
  rw [pathUnescape]
  · rintro a b r' rfl
    exact absurd rfl hc
  · rintro rfl
    exact absurd rfl hc

@[simp] lemma pathUnescape_escapeByte (c : UInt8) (r : Bytes) :
    pathUnescape (escapeByte c ++ r) = (pathUnescape r).map (c :: ·) := by
  unfold escapeByte
  split_ifs with h
  · have h1 := hexVal_upper (c.toNat / 16) (by have := c.toNat_lt; omega)
    have h2 := hexVal_upper (c.toNat % 16) (by omega)
    rw [cons_append, cons_append, cons_append, nil_append, pathUnescape, h1, h2]
    cases pathUnescape r with
    | none => rfl
    | some s => simp only [byte_of_nibbles, map_some]
  · exact pathUnescape_cons (by rintro rfl; exact h (by decide)) r

@[simp] lemma pathUnescape_pathEscape (s : Bytes) : pathUnescape (pathEscape s) = some s := by
  induction s with
  | nil => rfl
  | cons c s ih =>
    rw [pathEscape, flatMap_cons, pathUnescape_escapeByte]
    rw [pathEscape] at ih
    rw [ih, map_some]

lemma slash_notMem_pathEscape (s : Bytes) : (47 : UInt8) ∉ pathEscape s := by
  have hd : ∀ n < 16, hexUpperDigit n ≠ 47 := by decide
  intro hmem
  obtain ⟨c, -, hc⟩ := mem_flatMap.mp hmem
  unfold escapeByte at hc
  split_ifs at hc with h
  · simp only [mem_cons, not_mem_nil, or_false] at hc
    rcases hc with hc | hc | hc
    · cases hc
    · exact hd _ (by have := c.toNat_lt; omega) hc.symm
    · exact hd _ (by omega) hc.symm
  · rw [← mem_singleton.mp hc] at h
    exact h (by decide)

/-- What has no escaped byte is unchanged. -/
lemma pathEscape_eq_self {s : Bytes} (h : (37 : UInt8) ∉ pathEscape s) : pathEscape s = s := by
  induction s with
  | nil => rfl
  | cons c s ih =>
    rw [pathEscape, flatMap_cons, mem_append, not_or] at h
    have hc : escapeByte c = [c] := by
      unfold escapeByte at h ⊢
      split_ifs at h ⊢
      · exact absurd mem_cons_self h.1
      · rfl
    rw [pathEscape, flatMap_cons, hc]
    exact congrArg (c :: ·) (ih h.2)

inductive KeyEncoding where
  | url
  | hex
deriving DecidableEq

structure Key where
  name : Bytes
  enc : KeyEncoding

/-- How a key is written, behind its slash. -/
def Key.part (key : Key) : Bytes :=
  match key.enc with
  | .url => pathEscape key.name
  | .hex => lit "x:" ++ hexUpper key.name

abbrev KeyPath := List Key

namespace KeyPath

def string (pth : KeyPath) : Bytes := (pth.map fun key => 47 :: key.part).flatten

def keys (pth : KeyPath) : List Bytes := pth.map Key.name

/-- No URL-encoded key begins with the mark of the hexadecimal ones. -/
def Unmarked (pth : KeyPath) : Prop := ∀ key ∈ pth, key.enc = .url → key.name.take 2 ≠ lit "x:"

instance decidableUnmarked (pth : KeyPath) : Decidable pth.Unmarked :=
  inferInstanceAs (Decidable (∀ key ∈ pth, key.enc = .url → key.name.take 2 ≠ lit "x:"))

end KeyPath

lemma Key.slash_notMem_part (key : Key) : (47 : UInt8) ∉ key.part := by
  unfold Key.part
  split
  · exact slash_notMem_pathEscape _
  · rw [mem_append, not_or]
    exact ⟨by decide, slash_notMem_hexUpper _⟩

lemma escapeByte_cases (c : UInt8) :
    escapeByte c = [c] ∨ shouldEscape c = true ∧ ∃ a b, escapeByte c = [37, a, b] := by
  unfold escapeByte
  split_ifs with h
  · exact .inr ⟨h, _, _, rfl⟩
  · exact .inl rfl

lemma take_pathEscape (s : Bytes) :
    (pathEscape s).take 2 = lit "x:" ↔ s.take 2 = lit "x:" := by
  have hmark : lit "x:" = [120, 58] := by decide
  rw [hmark]
  match s with
  | [] => rfl
  | [a] =>
    rcases escapeByte_cases a with ha | ⟨-, b, c, ha⟩ <;> simp [pathEscape, ha]
  | a :: b :: r =>
    rcases escapeByte_cases a with ha | ⟨ha', d, e, ha⟩
    · rcases escapeByte_cases b with hb | ⟨hb', d, e, hb⟩
      · simp [pathEscape, ha, hb]
      · have hne : b ≠ 58 := by
          rintro rfl
          exact absurd hb' (by decide)
        simp [pathEscape, ha, hb, hne]
    · have hne : a ≠ 120 := by
        rintro rfl
        exact absurd ha' (by decide)
      simp [pathEscape, ha, hne]

lemma hexDecode_eq_some {s bz : Bytes} (h : hexDecode s = some bz) :
    s.length = 2 * bz.length ∧ (37 : UInt8) ∉ s := by
  have hpercent : hexVal 37 = none := by decide
  fun_induction hexDecode s generalizing bz with
  | case1 =>
    cases h
    exact ⟨rfl, not_mem_nil⟩
  | case2 => cases h
  | case3 a b rest x y bz' hrest hy hx ih =>
    cases h
    obtain ⟨hlen, hmem⟩ := ih hrest
    refine ⟨by simp only [length_cons]; omega, ?_⟩
    rw [mem_cons, mem_cons, not_or, not_or]
    refine ⟨?_, ?_, hmem⟩
    · rintro rfl
      cases hpercent.symm.trans hx
    · rintro rfl
      cases hpercent.symm.trans hy
  | case4 => cases h

/-- A key is read back unless it is URL-encoded and begins with the mark. -/
lemma Key.decodePart_part (key : Key) :
    decodePart key.part = some key.name ↔ (key.enc = .url → key.name.take 2 ≠ lit "x:") := by
  obtain ⟨name, enc⟩ := key
  cases enc with
  | hex => simp [Key.part, decodePart, lit]
  | url =>
    simp only [Key.part, decodePart, take_pathEscape, forall_const]
    split_ifs with hmark
    · refine iff_of_false (fun h => ?_) (not_not.mpr hmark)
      obtain ⟨r, rfl⟩ : ∃ r, name = 120 :: 58 :: r := by
        refine ⟨name.drop 2, ?_⟩
        rw [← take_append_drop 2 name, hmark]
        rfl
      -- the rest would be hexadecimal, hence unescaped, and is too short for that
      obtain ⟨hlen, hmem⟩ := hexDecode_eq_some (s := pathEscape r) h
      rw [pathEscape_eq_self hmem] at hlen
      simp only [length_cons] at hlen
      omega
    · exact iff_of_true (pathUnescape_pathEscape name) hmark

lemma mapM_eq_some_map_iff {α β : Type} {f : α → Option β} {g : α → β} {l : List α} :
    l.mapM f = some (l.map g) ↔ ∀ a ∈ l, f a = some (g a) := by
  induction l with
  | nil => simp
  | cons a l ih =>
    rw [mapM_cons, forall_mem_cons, ← ih]
    cases hf : f a with
    | none => simp
    | some b =>
      cases hl : l.mapM f with
      | none => simp
      | some bs => simp

lemma keyPathToKeys_string {pth : KeyPath} (hne : pth ≠ []) :
    keyPathToKeys pth.string = (pth.map Key.part).mapM decodePart := by
  obtain ⟨key, rest, rfl⟩ := exists_cons_of_ne_nil hne
  have hstring : KeyPath.string (key :: rest) = 47 :: join ((key :: rest).map Key.part) 47 := by
    rw [map_cons, join_cons, List.map_map]
    rfl
  have hsplit : split (join ((key :: rest).map Key.part) 47) 47 = (key :: rest).map Key.part := by
    refine splitOn_intercalate 47 ?_ (by simp)
    intro part hpart
    obtain ⟨key', -, rfl⟩ := mem_map.mp hpart
    exact key'.slash_notMem_part
  rw [hstring, keyPathToKeys, if_pos rfl, hsplit]

lemma keyPathToKeys_string_iff {pth : KeyPath} (hne : pth ≠ []) :
    keyPathToKeys pth.string = some pth.keys ↔ pth.Unmarked := by
  rw [keyPathToKeys_string hne, mapM_map, KeyPath.keys, mapM_eq_some_map_iff]
  exact forall₂_congr fun key _ => key.decodePart_part

/-- Key paths are read back as they were, and those with one string have the same keys,
exactly if no URL-encoded key begins with the mark. -/
theorem keyPaths_roundTrip_iff (pth pth' : KeyPath) (hne : pth ≠ []) (hne' : pth' ≠ []) :
    (keyPathToKeys pth.string = some pth.keys ∧ keyPathToKeys pth'.string = some pth'.keys ∧
      (pth.string = pth'.string → pth.keys = pth'.keys)) ↔ pth.Unmarked ∧ pth'.Unmarked := by
  rw [keyPathToKeys_string_iff hne, keyPathToKeys_string_iff hne']
  constructor
  · rintro ⟨h, h', -⟩
    exact ⟨h, h'⟩
  · rintro ⟨h, h'⟩
    refine ⟨h, h', fun hstring => some.inj ?_⟩
    rw [← (keyPathToKeys_string_iff hne).mpr h, hstring, (keyPathToKeys_string_iff hne').mpr h']

/-- A path with keys of both kinds, and the same keys in hexadecimal. -/
theorem app_keys_roundTrip :
    keyPathToKeys (KeyPath.string [⟨lit "App", .url⟩, ⟨[1, 2, 3], .hex⟩]) =
        some [lit "App", [1, 2, 3]] ∧
      keyPathToKeys (KeyPath.string [⟨lit "App", .hex⟩, ⟨[1, 2, 3], .url⟩]) =
        some [lit "App", [1, 2, 3]] := by
  obtain ⟨h, h', -⟩ := (keyPaths_roundTrip_iff [⟨lit "App", .url⟩, ⟨[1, 2, 3], .hex⟩]
    [⟨lit "App", .hex⟩, ⟨[1, 2, 3], .url⟩] (cons_ne_nil _ _) (cons_ne_nil _ _)).mpr
    ⟨by decide, by decide⟩
  exact ⟨h, h'⟩

/-- The URL-encoded key `x:41` has the string of the hexadecimal key `A`. -/
theorem marked_key_misread :
    keyPathToKeys (KeyPath.string [⟨lit "x:41", .url⟩]) = some [lit "A"] ∧
      KeyPath.string [⟨lit "x:41", .url⟩] = KeyPath.string [⟨lit "A", .hex⟩] ∧
      lit "x:41" ≠ lit "A" := by
  decide

end ShardingBC
