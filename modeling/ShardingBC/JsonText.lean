import ShardingBC.Utf8

/-!
# JSON documents as `encoding/json` prints and scans them

`print` follows `json.Marshal` (HTML characters are escaped, no blanks), `parse` the scanner of
`json.Unmarshal`: blanks, every escape, surrogate pairs, and repaired UTF-8. A number keeps its
literal, since its range is checked against the Go type it is stored in. The length of the text
bounds the recursion of the parser.
-/
namespace ShardingBC

inductive Json where
  | null
  | bool (b : Bool)
  | num (raw : Bytes)
  | str (s : Bytes)
  | arr (xs : List Json)
  | obj (kvs : List (Bytes × Json))

namespace Json

def htmlSafe (b : UInt8) : Bool :=
  32 ≤ b && b != 34 && b != 92 && b != 60 && b != 62 && b != 38

/-- Escape of one ASCII byte. -/
def escapeByte (b : UInt8) : Bytes :=
  if htmlSafe b then [b]
  else if b = 34 ∨ b = 92 then [92, b]
  else if b = 10 then [92, 110]
  else if b = 13 then [92, 114]
  else if b = 9 then [92, 116]
  else [92, 117, 48, 48, hexLowerDigit (b.toNat / 16), hexLowerDigit (b.toNat % 16)]

def quoteAux : ℕ → Bytes → Bytes
  | _, [] => []
  | k + 1, b :: r => b :: quoteAux k r
  | 0, b :: r =>
    if b < 0x80 then escapeByte b ++ quoteAux 0 r
    else
      match runeLen (b :: r) with
      | 0 => lit "\\ufffd" ++ quoteAux 0 r
      | n + 1 =>
        match r with
        | c :: d :: r' =>
          if b = 0xE2 ∧ c = 0x80 ∧ d = 0xA8 then lit "\\u2028" ++ quoteAux 0 r'
          else if b = 0xE2 ∧ c = 0x80 ∧ d = 0xA9 then lit "\\u2029" ++ quoteAux 0 r'
          else b :: quoteAux n (c :: d :: r')
        | r => b :: quoteAux n r

/-- A string literal with its quotes. -/
def quote (s : Bytes) : Bytes := 34 :: (quoteAux 0 s ++ [34])

mutual

def print : Json → Bytes
  | null => lit "null"
  | bool true => lit "true"
  | bool false => lit "false"
  | num raw => raw
  | str s => quote s
  | arr [] => lit "[]"
  | arr (x :: xs) => 91 :: (print x ++ printElems xs)
  | obj [] => [123, 125]
  | obj ((k, v) :: kvs) => 123 :: (quote k ++ 58 :: (print v ++ printMembers kvs))

def printElems : List Json → Bytes
  | [] => [93]
  | x :: xs => 44 :: (print x ++ printElems xs)

def printMembers : List (Bytes × Json) → Bytes
  | [] => [125]
  | (k, v) :: kvs => 44 :: (quote k ++ 58 :: (print v ++ printMembers kvs))

end

def isBlank (b : UInt8) : Bool := b == 32 || b == 9 || b == 13 || b == 10

def skipBlanks : Bytes → Bytes
  | [] => []
  | b :: r => if isBlank b then skipBlanks r else b :: r

def spanDigits : Bytes → Bytes × Bytes
  | [] => ([], [])
  | b :: r =>
    if isDigit b then
      let s := spanDigits r
      (b :: s.1, s.2)
    else ([], b :: r)

/-- A single zero, or digits without a leading zero. -/
def scanInt (s : Bytes) : Option (Bytes × Bytes) :=
  match s with
  | [] => none
  | b :: r =>
    if b = 48 then some ([48], r)
    else if isDigit b then
      let t := spanDigits r
      some (b :: t.1, t.2)
    else none

/-- The optional fraction. -/
def scanFrac (s : Bytes) : Option (Bytes × Bytes) :=
  match s with
  | [] => some ([], [])
  | b :: r =>
    if b = 46 then
      let t := spanDigits r
      if t.1 = [] then none else some (46 :: t.1, t.2)
    else some ([], b :: r)

/-- The optional exponent. -/
def scanExp (s : Bytes) : Option (Bytes × Bytes) :=
  match s with
  | [] => some ([], [])
  | b :: r =>
    if b = 101 ∨ b = 69 then
      let sign := r.take 1
      if sign = [43] ∨ sign = [45] then
        let t := spanDigits (r.drop 1)
        if t.1 = [] then none else some (b :: (sign ++ t.1), t.2)
      else
        let t := spanDigits r
        if t.1 = [] then none else some (b :: t.1, t.2)
    else some ([], b :: r)

def scanUnsigned (s : Bytes) : Option (Bytes × Bytes) := do
  let i ← scanInt s
  let f ← scanFrac i.2
  let e ← scanExp f.2
  some (i.1 ++ f.1 ++ e.1, e.2)

def scanNumber (s : Bytes) : Option (Bytes × Bytes) :=
  match s with
  | [] => none
  | b :: r =>
    if b = 45 then (scanUnsigned r).map fun p => (45 :: p.1, p.2)
    else scanUnsigned (b :: r)

/-- The four hexadecimal digits of a `\u` escape. -/
def hex4 (a b c d : UInt8) : Option ℕ :=
  match hexVal a, hexVal b, hexVal c, hexVal d with
  | some w, some x, some y, some z => some (w * 4096 + x * 256 + y * 16 + z)
  | _, _, _, _ => none

def isSurrogate (r : ℕ) : Bool := 0xD800 ≤ r && r < 0xE000

/-- `utf16.DecodeRune` for a proper pair. -/
def surrogatePair (hi lo : ℕ) : Option ℕ :=
  if 0xD800 ≤ hi ∧ hi < 0xDC00 ∧ 0xDC00 ≤ lo ∧ lo < 0xE000 then
    some ((hi - 0xD800) * 0x400 + (lo - 0xDC00) + 0x10000)
  else none

/-- A second `\u` escape right behind the first. -/
def lowSurrogate (s : Bytes) : Option ℕ :=
  match s with
  | a :: b :: g1 :: g2 :: g3 :: g4 :: _ =>
    if a = 92 ∧ b = 117 then hex4 g1 g2 g3 g4 else none
  | _ => none

def simpleEscape (e : UInt8) : Option UInt8 :=
  if e = 34 ∨ e = 92 ∨ e = 47 then some e
  else if e = 98 then some 8
  else if e = 102 then some 12
  else if e = 110 then some 10
  else if e = 114 then some 13
  else if e = 116 then some 9
  else none

def prepend (x : Bytes) (o : Option (Bytes × Bytes)) : Option (Bytes × Bytes) :=
  o.map fun p => (x ++ p.1, p.2)

/-- The bytes that an escape denotes, and its length. A surrogate that starts no pair denotes the
replacement character. -/
def scanEscape (s : Bytes) : Option (Bytes × ℕ) :=
  match s with
  | [] => none
  | e :: r =>
    if e = 117 then
      match r with
      | h1 :: h2 :: h3 :: h4 :: r2 =>
        match hex4 h1 h2 h3 h4 with
        | none => none
        | some hi =>
          if isSurrogate hi then
            match lowSurrogate r2 with
            | none => some ([0xEF, 0xBF, 0xBD], 5)
            | some lo =>
              match surrogatePair hi lo with
              | some p => some (encodeRune p, 11)
              | none => some ([0xEF, 0xBF, 0xBD], 5)
          else some (encodeRune hi, 5)
      | _ => none
    else (simpleEscape e).map fun c => ([c], 1)

/-- The rest of a string literal: the string and the text behind the closing quote. The first
counter is the rest of an escape already read, the second that of a rune being copied. -/
def scanBody : ℕ → ℕ → Bytes → Option (Bytes × Bytes)
  | _, _, [] => none
  | d + 1, k, _ :: r => scanBody d k r
  | 0, k + 1, b :: r => prepend [b] (scanBody 0 k r)
  | 0, 0, b :: r =>
    if b = 34 then some ([], r)
    else if b = 92 then
      match scanEscape r with
      | none => none
      | some (x, n) => prepend x (scanBody n 0 r)
    else if b < 32 then none
    else
      match runeLen (b :: r) with
      | 0 => prepend [0xEF, 0xBF, 0xBD] (scanBody 0 0 r)
      | n + 1 => prepend [b] (scanBody 0 n r)

def scanString (s : Bytes) : Option (Bytes × Bytes) := scanBody 0 0 s

/-- The text behind an expected byte, blanks skipped. -/
def expect (b : UInt8) (s : Bytes) : Option Bytes :=
  match skipBlanks s with
  | c :: r => if c = b then some r else none
  | [] => none

/-- The text behind a literal such as `null`. -/
def expectLit (w s : Bytes) : Option Bytes :=
  if s.take w.length = w then some (s.drop w.length) else none

mutual

def parseValue : ℕ → Bytes → Option (Json × Bytes)
  | 0, _ => none
  | n + 1, s =>
    match skipBlanks s with
    | [] => none
    | b :: r =>
      if b = 34 then (scanString r).map fun p => (str p.1, p.2)
      else if b = 91 then
        match skipBlanks r with
        | [] => none
        | c :: r' =>
          if c = 93 then some (arr [], r')
          else do
            let x ← parseValue n (c :: r')
            let xs ← parseElems n x.2
            some (arr (x.1 :: xs.1), xs.2)
      else if b = 123 then
        match skipBlanks r with
        | [] => none
        | c :: r' =>
          if c = 125 then some (obj [], r')
          else if c = 34 then do
            let k ← scanString r'
            let t ← expect 58 k.2
            let v ← parseValue n t
            let kvs ← parseMembers n v.2
            some (obj ((k.1, v.1) :: kvs.1), kvs.2)
          else none
      else if b = 110 then (expectLit (lit "null") (b :: r)).map fun t => (null, t)
      else if b = 116 then (expectLit (lit "true") (b :: r)).map fun t => (bool true, t)
      else if b = 102 then (expectLit (lit "false") (b :: r)).map fun t => (bool false, t)
      else (scanNumber (b :: r)).map fun p => (num p.1, p.2)

def parseElems : ℕ → Bytes → Option (List Json × Bytes)
  | 0, _ => none
  | n + 1, s =>
    match skipBlanks s with
    | [] => none
    | b :: r =>
      if b = 93 then some ([], r)
      else if b = 44 then do
        let x ← parseValue n r
        let xs ← parseElems n x.2
        some (x.1 :: xs.1, xs.2)
      else none

def parseMembers : ℕ → Bytes → Option (List (Bytes × Json) × Bytes)
  | 0, _ => none
  | n + 1, s =>
    match skipBlanks s with
    | [] => none
    | b :: r =>
      if b = 125 then some ([], r)
      else if b = 44 then do
        let q ← expect 34 r
        let k ← scanString q
        let t ← expect 58 k.2
        let v ← parseValue n t
        let kvs ← parseMembers n v.2
        some ((k.1, v.1) :: kvs.1, kvs.2)
      else none

end

/-- The whole text is one value, with blanks around it. -/
def parse (s : Bytes) : Option Json :=
  match parseValue (s.length + 1) s with
  | some (v, rest) => if skipBlanks rest = [] then some v else none
  | none => none

end Json

end ShardingBC
