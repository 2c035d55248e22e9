import ShardingBC.GoBytes

/-!
# Standard base64 with padding

The encoding of a `[]byte` in `encoding/json`. As in `base64.StdEncoding`, the decoder drops line
breaks, requires the padding and ignores the unused trailing bits.
-/
namespace ShardingBC.Base64

def encodeSextet (n : ℕ) : UInt8 :=
  if n < 26 then UInt8.ofNat (65 + n)
  else if n < 52 then UInt8.ofNat (71 + n)
  else if n < 62 then UInt8.ofNat (n - 4)
  else if n = 62 then 43
  else 47

def decodeSextet (c : UInt8) : Option ℕ :=
  if 65 ≤ c ∧ c ≤ 90 then some (c.toNat - 65)
  else if 97 ≤ c ∧ c ≤ 122 then some (c.toNat - 71)
  else if 48 ≤ c ∧ c ≤ 57 then some (c.toNat + 4)
  else if c = 43 then some 62
  else if c = 47 then some 63
  else none

def encode : Bytes → Bytes
  | [] => []
  | [a] => [encodeSextet (a.toNat / 4), encodeSextet (a.toNat % 4 * 16), 61, 61]
  | [a, b] => [encodeSextet (a.toNat / 4), encodeSextet (a.toNat % 4 * 16 + b.toNat / 16),
      encodeSextet (b.toNat % 16 * 4), 61]
  | a :: b :: c :: rest =>
    encodeSextet (a.toNat / 4) :: encodeSextet (a.toNat % 4 * 16 + b.toNat / 16) ::
      encodeSextet (b.toNat % 16 * 4 + c.toNat / 64) :: encodeSextet (c.toNat % 64) :: encode rest

def decodeQuads : Bytes → Option Bytes
  | [] => some []
  | w :: x :: y :: z :: rest =>
    match decodeSextet w, decodeSextet x with
    | some p, some q =>
      if y = 61 then
        if z = 61 ∧ rest = [] then some [UInt8.ofNat (p * 4 + q / 16)] else none
      else
        match decodeSextet y with
        | none => none
        | some r =>
          if z = 61 then
            if rest = [] then
              some [UInt8.ofNat (p * 4 + q / 16), UInt8.ofNat (q % 16 * 16 + r / 4)]
            else none
          else
            match decodeSextet z, decodeQuads rest with
            | some s, some bz =>
              some (UInt8.ofNat (p * 4 + q / 16) :: UInt8.ofNat (q % 16 * 16 + r / 4) ::
                UInt8.ofNat (r % 4 * 64 + s) :: bz)
            | _, _ => none
    | _, _ => none
  | _ => none

def decode (s : Bytes) : Option Bytes := decodeQuads (s.filter fun c => c != 10 && c != 13)

lemma decodeSextet_encodeSextet : ∀ n < 64, decodeSextet (encodeSextet n) = some n := by decide

lemma encodeSextet_ne_pad : ∀ n < 64, encodeSextet n ≠ 61 := by decide

@[simp] lemma decodeQuads_encode (bz : Bytes) : decodeQuads (encode bz) = some bz := by
  induction bz using encode.induct with
  | case1 => rfl
  | case2 a =>
    have ha := a.toNat_lt
    have h1 := decodeSextet_encodeSextet (a.toNat / 4) (by omega)
    have h2 := decodeSextet_encodeSextet (a.toNat % 4 * 16) (by omega)
    simp only [encode, decodeQuads, h1, h2]
    have hv : a.toNat / 4 * 4 + a.toNat % 4 * 16 / 16 = a.toNat := by omega
    rw [hv]
    simp
  | case3 a b =>
    have ha := a.toNat_lt
    have hb := b.toNat_lt
    have h1 := decodeSextet_encodeSextet (a.toNat / 4) (by omega)
    have h2 := decodeSextet_encodeSextet (a.toNat % 4 * 16 + b.toNat / 16) (by omega)
    have h3 := decodeSextet_encodeSextet (b.toNat % 16 * 4) (by omega)
    have hn := encodeSextet_ne_pad (b.toNat % 16 * 4) (by omega)
    simp only [encode, decodeQuads, h1, h2, h3, hn]
    have hv : a.toNat / 4 * 4 + (a.toNat % 4 * 16 + b.toNat / 16) / 16 = a.toNat := by omega
    have hw : (a.toNat % 4 * 16 + b.toNat / 16) % 16 * 16 + b.toNat % 16 * 4 / 4 = b.toNat := by
      omega
    rw [hv, hw]
    simp
  | case4 a b c rest ih =>
    have ha := a.toNat_lt
    have hb := b.toNat_lt
    have hc := c.toNat_lt
    have h1 := decodeSextet_encodeSextet (a.toNat / 4) (by omega)
    have h2 := decodeSextet_encodeSextet (a.toNat % 4 * 16 + b.toNat / 16) (by omega)
    have h3 := decodeSextet_encodeSextet (b.toNat % 16 * 4 + c.toNat / 64) (by omega)
    have h4 := decodeSextet_encodeSextet (c.toNat % 64) (by omega)
    have hn := encodeSextet_ne_pad (b.toNat % 16 * 4 + c.toNat / 64) (by omega)
    have hm := encodeSextet_ne_pad (c.toNat % 64) (by omega)
    simp only [encode, decodeQuads, h1, h2, h3, h4, hn, hm, ih]
    have hv : a.toNat / 4 * 4 + (a.toNat % 4 * 16 + b.toNat / 16) / 16 = a.toNat := by omega
    have hw : (a.toNat % 4 * 16 + b.toNat / 16) % 16 * 16 + (b.toNat % 16 * 4 + c.toNat / 64) / 4 =
        b.toNat := by omega
    have hx : (b.toNat % 16 * 4 + c.toNat / 64) % 4 * 64 + c.toNat % 64 = c.toNat := by omega
    rw [hv, hw, hx]
    simp

lemma encode_forall (P : UInt8 → Prop) (hs : ∀ n < 64, P (encodeSextet n)) (hp : P 61)
    (bz : Bytes) : ∀ c ∈ encode bz, P c := by
  induction bz using encode.induct with
  | case1 => simp [encode]
  | case2 a =>
    have ha := a.toNat_lt
    simp only [encode, List.forall_mem_cons]
    exact ⟨hs _ (by omega), hs _ (by omega), hp, hp, by simp⟩
  | case3 a b =>
    have ha := a.toNat_lt
    have hb := b.toNat_lt
    simp only [encode, List.forall_mem_cons]
    exact ⟨hs _ (by omega), hs _ (by omega), hs _ (by omega), hp, by simp⟩
  | case4 a b c rest ih =>
    have ha := a.toNat_lt
    have hb := b.toNat_lt
    have hc := c.toNat_lt
    simp only [encode, List.forall_mem_cons]
    exact ⟨hs _ (by omega), hs _ (by omega), hs _ (by omega), hs _ (by omega), ih⟩

@[simp] lemma decode_encode (bz : Bytes) : decode (encode bz) = some bz := by
  have h : ∀ c ∈ encode bz, (c != 10 && c != 13) = true :=
    encode_forall (fun c => (c != 10 && c != 13) = true) (by decide) (by decide) bz
  rw [decode, List.filter_eq_self.mpr h, decodeQuads_encode]

end ShardingBC.Base64
