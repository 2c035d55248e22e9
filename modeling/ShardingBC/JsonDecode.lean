import ShardingBC.Base64
import ShardingBC.JsonRoundTrip

/-!
# Storing a JSON document in a Go value

A decoder takes the stored value and returns the new one with a flag that is false when
`json.Unmarshal` reports an error. A member of the wrong type keeps the stored value, and the rest
is still stored. A key goes to the field with that name, else to the first equal to it up to case.
Elements of a slice beyond its old length start from the zero value.
-/
namespace ShardingBC.Json

open List

abbrev Decoder (α : Type) := α → Json → α × Bool

def decodeString : Decoder Bytes
  | _, str s => (s, true)
  | old, null => (old, true)
  | old, _ => (old, false)

def decodeInt : Decoder Int64
  | old, num raw => if (atoi raw).2 then ((atoi raw).1, true) else (old, false)
  | old, null => (old, true)
  | old, _ => (old, false)

def decodeBool : Decoder Bool
  | _, bool b => (b, true)
  | old, null => (old, true)
  | old, _ => (old, false)

def decodeByte : Decoder UInt8
  | old, num raw =>
    if raw.all isDigit ∧ digitsVal raw < 256 then (UInt8.ofNat (digitsVal raw), true)
    else (old, false)
  | old, null => (old, true)
  | old, _ => (old, false)

def decodeElems {α : Type} (d : Decoder α) (zero : α) : List α → List Json → List α × Bool
  | _, [] => ([], true)
  | olds, x :: xs =>
    let r := d (olds.headD zero) x
    let rs := decodeElems d zero olds.tail xs
    (r.1 :: rs.1, r.2 && rs.2)

/-- A slice; `none` is the nil slice. -/
def decodeSlice {α : Type} (d : Decoder α) (zero : α) : Decoder (Option (List α))
  | old, arr xs =>
    let r := decodeElems d zero (old.getD []) xs
    (some r.1, r.2)
  | _, null => (none, true)
  | old, _ => (old, false)

/-- A `[]byte`: base64 text, or an array of small numbers. -/
def decodeBytes : Decoder (Option Bytes)
  | old, str s =>
    match Base64.decode s with
    | some bz => (some bz, true)
    | none => (old, false)
  | old, v => decodeSlice decodeByte 0 old v

/-- A `[32]byte`: elements past the end are skipped, missing ones are zero. -/
def decodeDigest : Decoder Digest
  | old, arr xs =>
    let r := decodeElems decodeByte 0 old.bytes (xs.take 32)
    (Vector.ofFn fun i => r.1.getD i 0, r.2)
  | old, null => (old, true)
  | old, _ => (old, false)

def upper (c : UInt8) : UInt8 := if 97 ≤ c ∧ c ≤ 122 then c - 32 else c

def sameLetter (a b : UInt8) : Bool := upper a == upper b

/-- Equality up to case of an ASCII field name and a key; outside ASCII only the long s and the
Kelvin sign have an ASCII case partner. -/
def foldEq : Bytes → Bytes → Bool
  | [], t => t.isEmpty
  | _ :: _, [] => false
  | c :: s, 0xC5 :: 0xBF :: t => (c == 115 || c == 83) && foldEq s t
  | c :: s, 0xE2 :: 0x84 :: 0xAA :: t => (c == 107 || c == 75) && foldEq s t
  | c :: s, b :: t => sameLetter c b && foldEq s t

abbrev FieldDecoder (σ : Type) := Bytes × Decoder σ

def field {σ α : Type} (name : String) (get : σ → α) (set : σ → α → σ) (d : Decoder α) :
    FieldDecoder σ :=
  (lit name, fun s v =>
    let r := d (get s) v
    (set s r.1, r.2))

def lookup {σ : Type} (fields : List (FieldDecoder σ)) (key : Bytes) : Option (Decoder σ) :=
  match fields.find? (fun f => f.1 == key) with
  | some f => some f.2
  | none => (fields.find? fun f => foldEq f.1 key).map (·.2)

def decodeMembers {σ : Type} (fields : List (FieldDecoder σ)) : σ → List (Bytes × Json) → σ × Bool
  | s, [] => (s, true)
  | s, (k, v) :: kvs =>
    match lookup fields k with
    | none => decodeMembers fields s kvs
    | some d =>
      let r := d s v
      let rs := decodeMembers fields r.1 kvs
      (rs.1, r.2 && rs.2)

def decodeStruct {σ : Type} (fields : List (FieldDecoder σ)) : Decoder σ
  | old, obj kvs => decodeMembers fields old kvs
  | old, null => (old, true)
  | old, _ => (old, false)

/-- `json.Unmarshal`: a text that is no document leaves the value alone. -/
def unmarshal {α : Type} (d : Decoder α) (old : α) (data : Bytes) : α × Bool :=
  match parse data with
  | none => (old, false)
  | some v => d old v

/-! ## Keys up to case

When the names of the fields differ in capitals, a key selects a field by its
capitals alone. Two structs can then be compared key by key. -/

/-- A key in capitals. -/
def normKey : Bytes → Bytes
  | [] => []
  | 0xC5 :: 0xBF :: t => 83 :: normKey t
  | 0xE2 :: 0x84 :: 0xAA :: t => 75 :: normKey t
  | b :: t => upper b :: normKey t

lemma upper_eq_iff {u : UInt8} (hu : 65 ≤ u ∧ u ≤ 90) (c : UInt8) :
    upper c = u ↔ c = u + 32 ∨ c = u := by
  unfold upper
  split_ifs with h
  · grind
  · grind

lemma foldEq_iff (s k : Bytes) : foldEq s k = true ↔ s.map upper = normKey k := by
  fun_induction foldEq s k with
  | case1 t =>
    cases t with
    | nil => simp [normKey]
    | cons b t =>
      unfold normKey
      split <;> simp_all
  | case2 => simp [normKey]
  | case3 c s t ih => simp [normKey, ih, upper_eq_iff (u := 83) (by decide)]
  | case4 c s t ih => simp [normKey, ih, upper_eq_iff (u := 75) (by decide)]
  | case5 c s b t h1 h2 ih =>
    have hn : normKey (b :: t) = upper b :: normKey t := by
      simp only [normKey]
    simp [hn, sameLetter, ih]


lemma lookup_eq_find {σ : Type} {fields : List (FieldDecoder σ)}
    (hname : ∀ f ∈ fields, f.1.map upper = normKey f.1)
    (hnodup : (fields.map fun f => f.1.map upper).Nodup) (key : Bytes) :
    lookup fields key = (fields.find? fun f => f.1.map upper == normKey key).map (·.2) := by
  have hfold : (fun f : FieldDecoder σ => foldEq f.1 key) =
      fun f => f.1.map upper == normKey key := by
    funext f
    rw [Bool.eq_iff_iff, foldEq_iff, beq_iff_eq]
  unfold lookup
  rw [hfold]
  cases hf : fields.find? (fun f => f.1 == key) with
  | none => rfl
  | some f =>
    have hmem := mem_of_find?_eq_some hf
    have hkey : f.1 = key := by simpa using find?_some hf
    have hnorm : f.1.map upper = normKey key := hkey ▸ hname f hmem
    cases hg : fields.find? (fun f => f.1.map upper == normKey key) with
    | none =>
      have := find?_eq_none.mp hg f hmem
      simp [hnorm] at this
    | some g =>
      have hgkey : g.1.map upper = normKey key := by simpa using find?_some hg
      have := inj_on_of_nodup_map hnodup (mem_of_find?_eq_some hg) hmem
        (hgkey.trans hnorm.symm)
      simp [this]

/-- A struct with some of the fields of another gets in them what the other gets. -/
lemma decodeMembers_map {σ τ : Type} (p : σ → τ) {fields : List (FieldDecoder σ)}
    {fields' : List (FieldDecoder τ)}
    (hstep : ∀ k s v, match lookup fields' k with
      | none => ∀ d ∈ lookup fields k, p (d s v).1 = p s
      | some d' => ∃ d ∈ lookup fields k, (d s v).2 = true → d' (p s) v = (p (d s v).1, true))
    (s : σ) (kvs : List (Bytes × Json)) (hok : (decodeMembers fields s kvs).2 = true) :
    decodeMembers fields' (p s) kvs = (p (decodeMembers fields s kvs).1, true) := by
  induction kvs generalizing s with
  | nil => rfl
  | cons kv kvs ih =>
    obtain ⟨k, v⟩ := kv
    have hs := hstep k s v
    unfold decodeMembers at hok ⊢
    cases h' : lookup fields' k with
    | none =>
      rw [h'] at hs
      cases h : lookup fields k with
      | none =>
        rw [h] at hok
        exact ih s hok
      | some d =>
        rw [h, Bool.and_eq_true] at hok
        rw [← hs d h]
        exact ih _ hok.2
    | some d' =>
      rw [h'] at hs
      obtain ⟨d, hd, hs⟩ := hs
      rw [Option.mem_def.mp hd, Bool.and_eq_true] at hok
      rw [Option.mem_def.mp hd]
      simp only
      rw [hs hok.1, ih _ hok.2]
      rfl

lemma field_map {σ τ α : Type} (p : σ → τ) {name name' : String} {get : σ → α} {set : σ → α → σ}
    {get' : τ → α} {set' : τ → α → τ} (d : Decoder α) (s : σ) (v : Json)
    (hget : get' (p s) = get s) (hset : ∀ x, set' (p s) x = p (set s x))
    (hok : ((field name get set d).2 s v).2 = true) :
    (field name' get' set' d).2 (p s) v = (p ((field name get set d).2 s v).1, true) := by
  simp only [field] at hok ⊢
  rw [hget, hset, hok]

def encodeInt (i : Int64) : Json := num (formatInt i)

def encodeByte (b : UInt8) : Json := num (formatNat b.toNat)

def encodeDigest (d : Digest) : Json := arr (d.bytes.map encodeByte)

def encodeBytes : Option Bytes → Json
  | none => null
  | some bz => str (Base64.encode bz)

def encodeSlice {α : Type} (e : α → Json) : Option (List α) → Json
  | none => null
  | some xs => arr (xs.map e)

lemma numsOkElems_map {α : Type} (e : α → Json) (h : ∀ x, NumsOk (e x)) (xs : List α) :
    NumsOkElems (xs.map e) := by
  induction xs with
  | nil => trivial
  | cons x xs ih => exact ⟨h x, ih⟩

@[simp] lemma numsOk_encodeInt (i : Int64) : NumsOk (encodeInt i) := numOk_formatInt i

@[simp] lemma numsOk_encodeDigest (d : Digest) : NumsOk (encodeDigest d) :=
  numsOkElems_map encodeByte (fun b => numOk_formatNat b.toNat) d.bytes

@[simp] lemma numsOk_encodeBytes (o : Option Bytes) : NumsOk (encodeBytes o) := by
  cases o <;> trivial

lemma numsOk_encodeSlice {α : Type} (e : α → Json) (h : ∀ x, NumsOk (e x))
    (o : Option (List α)) : NumsOk (encodeSlice e o) := by
  cases o with
  | none => trivial
  | some xs => exact numsOkElems_map e h xs

/-! ## Round trips

What a decoder stores for an encoded value does not depend on the old one. -/

lemma toValid_of_ascii (s : Bytes) (h : ∀ c ∈ s, c < 0x80) : toValid s = s := by
  induction s with
  | nil => rfl
  | cons b r ih =>
    rw [toValid_ascii (h b (by simp)), ih (fun c hc => h c (by simp [hc]))]

@[simp] lemma decodeInt_encodeInt (old i : Int64) :
    decodeInt old (repair (encodeInt i)) = (i, true) := by
  simp [encodeInt, repair, decodeInt]

@[simp] lemma decodeByte_encodeByte (old b : UInt8) :
    decodeByte old (repair (encodeByte b)) = (b, true) := by
  have hd : (formatNat b.toNat).all isDigit = true :=
    all_eq_true.mpr (formatNat_isDigit b.toNat)
  have hb := b.toNat_lt
  simp only [encodeByte, repair, decodeByte, hd, digitsVal_formatNat, true_and]
  rw [if_pos (by omega)]
  simp

@[simp] lemma decodeBytes_encodeBytes (old o : Option Bytes) :
    decodeBytes old (repair (encodeBytes o)) = (o, true) := by
  cases o with
  | none => simp [encodeBytes, repair, decodeBytes, decodeSlice]
  | some bz =>
    -- the alphabet is ASCII, so the repair of a JSON string leaves it alone
    have hascii := Base64.encode_forall (· < 0x80) (by decide) (by decide) bz
    simp [encodeBytes, repair, decodeBytes, toValid_of_ascii _ hascii]

lemma decodeElems_map {α : Type} (d : Decoder α) (zero : α) (e : α → Json) (g : α → α)
    (h : ∀ old x, d old (repair (e x)) = (g x, true)) (xs olds : List α) :
    decodeElems d zero olds (repairElems (xs.map e)) = (xs.map g, true) := by
  induction xs generalizing olds with
  | nil => rfl
  | cons x xs ih => simp [repairElems, decodeElems, h, ih]

lemma decodeSlice_encodeSlice {α : Type} (d : Decoder α) (zero : α) (e : α → Json) (g : α → α)
    (h : ∀ old x, d old (repair (e x)) = (g x, true)) (old o : Option (List α)) :
    decodeSlice d zero old (repair (encodeSlice e o)) = (o.map (List.map g), true) := by
  cases o with
  | none => rfl
  | some xs => simp [encodeSlice, repair, decodeSlice, decodeElems_map d zero e g h]

@[simp] lemma repairElems_eq_map (xs : List Json) : repairElems xs = xs.map repair := by
  induction xs with
  | nil => rfl
  | cons x xs ih => simp [repairElems, ih]

@[simp] lemma decodeDigest_encodeDigest (old d : Digest) :
    decodeDigest old (repair (encodeDigest d)) = (d, true) := by
  have htake : (repairElems (d.bytes.map encodeByte)).take 32 =
      repairElems (d.bytes.map encodeByte) := by
    simp
  have helems := decodeElems_map decodeByte 0 encodeByte id
    (fun old b => decodeByte_encodeByte old b) d.bytes old.bytes
  have hpad : (Vector.ofFn fun i : Fin 32 => d.bytes.getD i 0) = d := by
    simp [Digest.bytes]
  simp only [encodeDigest, repair, decodeDigest, htake, helems, map_id, hpad]

/-- A member that its field decoder accepts updates that field. -/
lemma decodeMembers_field {σ α : Type} {fields : List (FieldDecoder σ)} {s : σ} {k : Bytes}
    {v : Json} {kvs : List (Bytes × Json)} {name : String} {get : σ → α} {set : σ → α → σ}
    {d : Decoder α} {x : α} (hk : lookup fields k = some (field name get set d).2)
    (hd : d (get s) v = (x, true)) :
    decodeMembers fields s ((k, v) :: kvs) = decodeMembers fields (set s x) kvs := by
  simp [decodeMembers, hk, field, hd]

lemma unmarshal_print {α : Type} (d : Decoder α) (old : α) (v : Json) (h : NumsOk v) :
    unmarshal d old (print v) = d old (repair v) := by
  rw [unmarshal, parse_print v h]

end ShardingBC.Json
