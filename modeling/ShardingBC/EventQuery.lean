import ShardingBC.AssocMap
import ShardingBC.GoBytes

/-!
# Event queries

`Conditions` and `Matches` of a parsed query. The places the parser gives count characters,
and the text is cut at these places by bytes. `none` is a panic.
-/
namespace ShardingBC.EventQuery

open List Option

inductive Operator where
  | lessEqual | greaterEqual | less | greater | equal | contains

inductive Kind where
  | value | number | time | date

/-- The tokens of a condition, with begin and end of the tag and of the operand. -/
structure Token where
  tag : ℕ × ℕ
  op : Operator
  kind : Kind
  operand : ℕ × ℕ

/-- `buffer` is the query in quotes. -/
structure Query where
  buffer : Bytes
  tokens : List Token

inductive Operand (F T : Type) where
  | string (s : Bytes)
  | float (x : F)
  | int (n : Int64)
  | time (t : T)

/-- `strconv.ParseFloat`, the conversion of `float64` to `int64`, and `time.Parse` with both
layouts. -/
structure Conversions (F T : Type) where
  parseFloat : Bytes → Option F
  toInt : F → Int64
  parseTime : Bytes → Option T
  parseDate : Bytes → Option T

def parseInt (s : Bytes) : Option Int64 := if (atoi s).2 then some (atoi s).1 else none

def Operator.compare {α : Type} [LE α] [LT α] [BEq α] [DecidableLE α] [DecidableLT α]
    (op : Operator) (v operand : α) : Bool :=
  match op with
  | lessEqual => v ≤ operand
  | greaterEqual => v ≥ operand
  | less => v < operand
  | greater => v > operand
  | equal => v == operand
  | contains => false

def Operator.compareText (op : Operator) (v operand : Bytes) : Bool :=
  match op with
  | equal => v = operand
  | contains => operand <:+: v
  | _ => false

def slice (buffer : Bytes) (place : ℕ × ℕ) : Bytes := (buffer.take place.2).drop place.1

variable {F T : Type} [LE F] [LT F] [BEq F] [DecidableLE F] [DecidableLT F] [LinearOrder T]
  (C : Conversions F T)

/-- The operand of a condition, without single quotes. -/
def Token.parse (buffer : Bytes) (t : Token) : Option (Operand F T) :=
  let text := slice buffer t.operand
  match t.kind with
  | .value => some (.string (slice buffer (t.operand.1 + 1, t.operand.2 - 1)))
  | .number => if 46 ∈ text then (C.parseFloat text).map .float else (parseInt text).map .int
  | .time => (C.parseTime text).map .time
  | .date => (C.parseDate text).map .time

def Conversions.asTime (value : Bytes) : Option T :=
  if 84 ∈ value then C.parseTime value else C.parseDate value

def Conversions.asInt (value : Bytes) : Option Int64 :=
  if 46 ∈ value then (C.parseFloat value).map C.toInt else parseInt value

/-- `match`, once the tag is found. -/
def matchValue (op : Operator) (value : Bytes) : Operand F T → Option Bool
  | .time t => (C.asTime value).map (op.compare · t)
  | .float x => (C.parseFloat value).map (op.compare · x)
  | .int n => (C.asInt value).map (op.compare · n)
  | .string s => some (op.compareText value s)

def matchTag (tag : Bytes) (op : Operator) (operand : Operand F T) (tags : AssocMap Bytes Bytes) :
    Option Bool :=
  (tags.lookup tag).elim (some false) fun value => matchValue C op value operand

namespace Query

def conditions (q : Query) : Option (List (Bytes × Operator × Operand F T)) :=
  q.tokens.mapM fun t => (t.parse C q.buffer).map fun operand =>
    (slice q.buffer t.tag, t.op, operand)

def matchAll (buffer : Bytes) (tags : AssocMap Bytes Bytes) : List Token → Option Bool
  | [] => some true
  | t :: rest => do
    let operand ← t.parse C buffer
    if ← matchTag C (slice buffer t.tag) t.op operand tags then matchAll buffer tags rest
    else some false

def matchesTags (q : Query) (tags : AssocMap Bytes Bytes) : Option Bool :=
  if tags = [] then some false else matchAll C q.buffer tags q.tokens

end Query

/-- The tag value can be converted to the kind of the operand. -/
def Operand.Accepts (value : Bytes) : Operand F T → Prop
  | time _ => (C.asTime value).isSome
  | float _ => (C.parseFloat value).isSome
  | int _ => (C.asInt value).isSome
  | string _ => True

variable (buffer : Bytes) (tags : AssocMap Bytes Bytes)

namespace Token

/-- The value of the tag can be converted, if there is one. -/
def Convertible (t : Token) : Prop :=
  ∀ operand ∈ t.parse C buffer, ∀ value ∈ tags.lookup (slice buffer t.tag), operand.Accepts C value

/-- The condition holds; it does not if something cannot be converted. -/
def Holds (t : Token) : Prop :=
  ∃ operand ∈ t.parse C buffer, true ∈ matchTag C (slice buffer t.tag) t.op operand tags

end Token

/-- The values can be converted up to the first condition that does not hold. -/
def Readable : List Token → Prop
  | [] => True
  | t :: rest => t.Convertible C buffer tags ∧ (t.Holds C buffer tags → Readable rest)

variable {C buffer tags}

lemma Token.convertible_iff {t : Token} {operand : Operand F T}
    (ho : t.parse C buffer = some operand) : t.Convertible C buffer tags ↔
      (matchTag C (slice buffer t.tag) t.op operand tags).isSome := by
  simp only [Convertible, ho, mem_some_iff, matchTag]
  cases tags.lookup (slice buffer t.tag) with
  | none => simp
  | some value => cases operand <;> simp [matchValue, Operand.Accepts]

lemma Token.holds_iff {t : Token} {operand : Operand F T}
    (ho : t.parse C buffer = some operand) : t.Holds C buffer tags ↔
      matchTag C (slice buffer t.tag) t.op operand tags = some true := by
  simp [Holds, ho]

lemma matchAll_spec (tags : AssocMap Bytes Bytes) {ts : List Token}
    (hparse : ∀ t ∈ ts, (t.parse C buffer).isSome) :
    ((Query.matchAll C buffer tags ts).isSome ↔ Readable C buffer tags ts) ∧
      ∀ b ∈ Query.matchAll C buffer tags ts, b = true ↔ ∀ t ∈ ts, t.Holds C buffer tags := by
  induction ts with
  | nil => simp [Query.matchAll, Readable]
  | cons t rest ih =>
    rw [forall_mem_cons] at hparse
    obtain ⟨operand, ho⟩ := isSome_iff_exists.mp hparse.1
    have ih := ih hparse.2
    simp only [Query.matchAll, Readable, Token.convertible_iff ho, Token.holds_iff ho, ho,
      forall_mem_cons, Option.bind_eq_bind, bind_some]
    cases hm : matchTag C (slice buffer t.tag) t.op operand tags with
    | none => simp
    | some b =>
      cases b with
      | false => simp
      | true => simpa using ih

/-- A query is evaluated just if its operands can be converted, and the tag values up to the
first condition that does not hold. -/
theorem evaluation_total_iff (C : Conversions F T) (q : Query) (tags : AssocMap Bytes Bytes) :
    ((q.conditions C).isSome ∧ ∃ b, q.matchesTags C tags = some b ∧
      (b = true ↔ tags ≠ [] ∧ ∀ t ∈ q.tokens, t.Holds C q.buffer tags)) ↔
    (∀ t ∈ q.tokens, (t.parse C q.buffer).isSome) ∧
      (tags ≠ [] → Readable C q.buffer tags q.tokens) := by
  simp only [Query.conditions, mapM_isSome_iff, isSome_map]
  refine and_congr_right fun hparse => ?_
  have hspec := matchAll_spec tags hparse
  unfold Query.matchesTags
  split_ifs with htags
  · simp [htags]
  · simp only [ne_eq, htags, not_false_eq_true, true_and, forall_const, ← hspec.1,
      isSome_iff_exists]
    exact exists_congr fun b => and_iff_left_of_imp (hspec.2 b)

/-- A number that is no `int64`; a number after a tag of one character and two bytes, whose place
is a blank; a tag value that is no number. -/
theorem unconvertible_panics : ¬ ∃ C : Conversions ℚ ℤ,
    ((⟨lit "\"n=9223372036854775808\"", [⟨(1, 2), .equal, .number, (3, 22)⟩]⟩ :
      Query).conditions C).isSome ∨
    ((⟨[34, 0xC3, 0xA9, 61, 32, 53, 34], [⟨(1, 2), .equal, .number, (4, 5)⟩]⟩ :
      Query).conditions C).isSome ∨
    ((⟨lit "\"n=5\"", [⟨(1, 2), .equal, .number, (3, 4)⟩]⟩ :
      Query).matchesTags C [(lit "n", lit "x")]).isSome := by
  rintro ⟨C, h | h | h⟩
  · cases h
  · cases h
  · cases h

end ShardingBC.EventQuery
