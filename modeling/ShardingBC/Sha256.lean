import ShardingBC.GoBytes

/-!
# SHA-256

`crypto/sha256.Sum256` on byte strings. Words are naturals below `2 ^ 32`, so the
function can be evaluated in proofs; no argument about the repository unfolds it.
-/
namespace ShardingBC

namespace Sha256

def roundConstants : List ℕ :=
  [0x428a2f98, 0x71374491, 0xb5c0fbcf, 0xe9b5dba5, 0x3956c25b, 0x59f111f1, 0x923f82a4, 0xab1c5ed5,
   0xd807aa98, 0x12835b01, 0x243185be, 0x550c7dc3, 0x72be5d74, 0x80deb1fe, 0x9bdc06a7, 0xc19bf174,
   0xe49b69c1, 0xefbe4786, 0x0fc19dc6, 0x240ca1cc, 0x2de92c6f, 0x4a7484aa, 0x5cb0a9dc, 0x76f988da,
   0x983e5152, 0xa831c66d, 0xb00327c8, 0xbf597fc7, 0xc6e00bf3, 0xd5a79147, 0x06ca6351, 0x14292967,
   0x27b70a85, 0x2e1b2138, 0x4d2c6dfc, 0x53380d13, 0x650a7354, 0x766a0abb, 0x81c2c92e, 0x92722c85,
   0xa2bfe8a1, 0xa81a664b, 0xc24b8b70, 0xc76c51a3, 0xd192e819, 0xd6990624, 0xf40e3585, 0x106aa070,
   0x19a4c116, 0x1e376c08, 0x2748774c, 0x34b0bcb5, 0x391c0cb3, 0x4ed8aa4a, 0x5b9cca4f, 0x682e6ff3,
   0x748f82ee, 0x78a5636f, 0x84c87814, 0x8cc70208, 0x90befffa, 0xa4506ceb, 0xbef9a3f7, 0xc67178f2]

structure State where
  a : ℕ
  b : ℕ
  c : ℕ
  d : ℕ
  e : ℕ
  f : ℕ
  g : ℕ
  h : ℕ

def initial : State :=
  ⟨0x6a09e667, 0xbb67ae85, 0x3c6ef372, 0xa54ff53a, 0x510e527f, 0x9b05688c, 0x1f83d9ab, 0x5be0cd19⟩

def rotr (x n : ℕ) : ℕ := (x >>> n ||| x <<< (32 - n)) % 2 ^ 32

def round (s : State) (kw : ℕ × ℕ) : State :=
  let s1 := rotr s.e 6 ^^^ rotr s.e 11 ^^^ rotr s.e 25
  let ch := (s.e &&& s.f) ^^^ ((2 ^ 32 - 1 - s.e) &&& s.g)
  let t1 := s.h + s1 + ch + kw.1 + kw.2
  let s0 := rotr s.a 2 ^^^ rotr s.a 13 ^^^ rotr s.a 22
  let maj := (s.a &&& s.b) ^^^ (s.a &&& s.c) ^^^ (s.b &&& s.c)
  ⟨(t1 + s0 + maj) % 2 ^ 32, s.a, s.b, s.c, (s.d + t1) % 2 ^ 32, s.e, s.f, s.g⟩

/-- The message schedule with the latest word first. -/
def schedule : ℕ → List ℕ → List ℕ
  | 0, ws => ws
  | n + 1, ws =>
    let w2 := ws.getD 1 0
    let w15 := ws.getD 14 0
    let s1 := rotr w2 17 ^^^ rotr w2 19 ^^^ w2 >>> 10
    let s0 := rotr w15 7 ^^^ rotr w15 18 ^^^ w15 >>> 3
    schedule n ((ws.getD 15 0 + s0 + ws.getD 6 0 + s1) % 2 ^ 32 :: ws)

def compress (s : State) (block : List ℕ) : State :=
  let t := (roundConstants.zip (schedule 48 block.reverse).reverse).foldl round s
  ⟨(s.a + t.a) % 2 ^ 32, (s.b + t.b) % 2 ^ 32, (s.c + t.c) % 2 ^ 32, (s.d + t.d) % 2 ^ 32,
   (s.e + t.e) % 2 ^ 32, (s.f + t.f) % 2 ^ 32, (s.g + t.g) % 2 ^ 32, (s.h + t.h) % 2 ^ 32⟩

def bigEndian (w : ℕ) : Bytes :=
  [UInt8.ofNat (w / 2 ^ 24), UInt8.ofNat (w / 2 ^ 16), UInt8.ofNat (w / 2 ^ 8), UInt8.ofNat w]

def words : Bytes → List ℕ
  | a :: b :: c :: d :: r =>
    (a.toNat * 2 ^ 24 + b.toNat * 2 ^ 16 + c.toNat * 2 ^ 8 + d.toNat) :: words r
  | _ => []

/-- The message, the bit one, zeros, and the bit length. -/
def pad (m : Bytes) : Bytes :=
  let bits := m.length * 8 % 2 ^ 64
  m ++ 0x80 :: List.replicate ((119 - m.length % 64) % 64) 0 ++
    bigEndian (bits / 2 ^ 32) ++ bigEndian (bits % 2 ^ 32)

def blocks : ℕ → List ℕ → State → State
  | 0, _, s => s
  | n + 1, ws, s => blocks n (ws.drop 16) (compress s (ws.take 16))

def digest (s : State) : Digest :=
  Vector.ofFn fun i =>
    (bigEndian s.a ++ bigEndian s.b ++ bigEndian s.c ++ bigEndian s.d ++ bigEndian s.e ++
      bigEndian s.f ++ bigEndian s.g ++ bigEndian s.h).getD i 0

end Sha256

/-- `sha256.Sum256`. -/
@[irreducible] def sha256 (m : Bytes) : Digest :=
  let ws := Sha256.words (Sha256.pad m)
  Sha256.digest (Sha256.blocks (ws.length / 16) ws Sha256.initial)

example : hexLower (sha256 (lit "abc")).bytes =
    lit "ba7816bf8f01cfea414140de5dae2223b00361a396177a9cb410ff61f20015ad" := by
  decide +kernel

end ShardingBC
