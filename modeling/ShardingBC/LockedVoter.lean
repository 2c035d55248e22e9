import Mathlib.Data.Prod.Lex
import Mathlib.Order.Basic
import Mathlib.Tactic.Common

/-!
# A voter with a lock

A voter goes through heights, rounds and steps and casts votes at some of them. It learns of polkas,
names of values that most of the others prevoted in a round, and locks a value that the polka of its
round names.
-/
namespace LockedVoting

open Option

/-- A polka may be for no value. The alarms are the heights and rounds of timeouts. -/
structure Voter (V N : Type*) where
  height : ℤ
  round : ℤ
  step : ℕ
  lockedRound : ℤ
  locked : Option V
  validRound : ℤ
  valid : Option V
  polka : ℤ → Option (Option N)
  alarms : List (ℤ × ℤ)

namespace Voter

variable {V N : Type*}

/-- Height, round and step, in this order. -/
abbrev Place := ℤ ×ₗ ℤ ×ₗ ℕ

def place (v : Voter V N) : Place := toLex (v.height, toLex (v.round, v.step))

/-- What a voter does between its votes. Its locked and valid values change without a vote only if
values are changed in place. A lock on the value of a polka is not moved. -/
inductive Move (name : V → N) (inPlace : Prop) : Voter V N → Voter V N → Prop
  | stay (v : Voter V N) : Move name inPlace v v
  | enter (v : Voter V N) {round : ℤ} {step : ℕ}
      (later : v.round < round ∨ v.round = round ∧ v.step ≤ step) :
      Move name inPlace v { v with round := round, step := step }
  | schedule (v : Voter V N) : Move name inPlace v { v with alarms := (v.height, v.round) :: v.alarms }
  | learn (v : Voter V N) {polka : ℤ → Option (Option N)}
      (grows : ∀ r x, v.polka r = some x → polka r = some x) :
      Move name inPlace v { v with polka := polka }
  | unlock (v : Voter V N) {r : ℤ} {x : Option N} (polka : v.polka r = some x) (past : r ≤ v.round)
      (later : v.lockedRound < r ∨ r = v.round)
      (other : ∀ b, v.locked = some b → x ≠ some (name b)) :
      Move name inPlace v { v with lockedRound := -1, locked := none }
  | lock (v : Voter V N) {b : V} (polka : v.polka v.round = some (some (name b)))
      (same : ∀ b', v.locked = some b' → name b' = name b → b' = b) :
      Move name inPlace v { v with lockedRound := v.round, locked := some b }
  | validate (v : Voter V N) {b : V} (polka : v.polka v.round = some (some (name b))) :
      Move name inPlace v { v with validRound := v.round, valid := some b }
  | next (v : Voter V N) (step : ℕ) : Move name inPlace v
      { height := v.height + 1, round := 0, step := step, lockedRound := -1, locked := none
        validRound := -1, valid := none, polka := fun _ => none, alarms := v.alarms }
  | overwrite (v : Voter V N) (hin : inPlace) (locked valid : Option V) :
      Move name inPlace v { v with locked := locked, valid := valid }

/-- A vote takes the voter to the step of the vote. -/
inductive Casts : Voter V N → Place → Voter V N → Prop
  | cast (v : Voter V N) {step : ℕ} (later : v.step < step) :
      Casts v (toLex (v.height, toLex (v.round, step))) { v with step := step }

variable {name : V → N} {inPlace : Prop} {v v' v'' : Voter V N} {p : Place}

lemma Move.place_le (h : Move name inPlace v v') : v.place ≤ v'.place := by
  cases h with
  | enter later =>
    exact Prod.Lex.toLex_le_toLex.mpr (.inr ⟨rfl, Prod.Lex.toLex_le_toLex.mpr later⟩)
  | next step => exact Prod.Lex.toLex_le_toLex.mpr (.inl (Int.lt_succ v.height))
  | _ => exact le_rfl

lemma Casts.place_lt (h : Casts v p v') : v.place < p ∧ p ≤ v'.place := by
  obtain ⟨later⟩ := h
  refine ⟨Prod.Lex.toLex_lt_toLex.mpr (.inr ⟨rfl, ?_⟩), le_rfl⟩
  exact Prod.Lex.toLex_lt_toLex.mpr (.inr ⟨rfl, later⟩)

/-- Nothing lies in the future. -/
structure Bounded (v : Voter V N) : Prop where
  round : 0 ≤ v.round
  lockedRound : v.lockedRound ≤ v.round
  validRound : v.validRound ≤ v.round
  alarms : ∀ a ∈ v.alarms, a.1 < v.height ∨ a.1 = v.height ∧ a.2 ≤ v.round

lemma Bounded.move (h : v.Bounded) (hmove : Move name inPlace v v') : v'.Bounded := by
  cases hmove with
  | stay => exact h
  | enter later =>
    have hle : v.round ≤ _ := later.elim le_of_lt fun h => h.1.le
    exact ⟨h.round.trans hle, h.lockedRound.trans hle, h.validRound.trans hle,
      fun a ha => (h.alarms a ha).imp_right fun ha => ⟨ha.1, ha.2.trans hle⟩⟩
  | schedule =>
    exact { h with alarms := List.forall_mem_cons.mpr ⟨.inr ⟨rfl, le_rfl⟩, h.alarms⟩ }
  | learn grows => exact { h with }
  | unlock polka past later other => exact { h with lockedRound := by have := h.round; simp; omega }
  | lock polka same => exact { h with lockedRound := le_rfl }
  | validate polka => exact { h with validRound := le_rfl }
  | next step =>
    refine ⟨le_rfl, Int.negSucc_le_zero 0, Int.negSucc_le_zero 0, fun a ha => .inl ?_⟩
    rcases h.alarms a ha with hlt | ⟨heq, -⟩
    · exact hlt.trans (Int.lt_succ _)
    · exact heq.trans_lt (Int.lt_succ _)
  | overwrite hin locked valid => exact { h with }

lemma Bounded.casts (h : v.Bounded) (hcast : Casts v p v') : v'.Bounded := by
  obtain ⟨later⟩ := hcast
  exact { h with }

variable (name) in
/-- The locked and the valid value had a polka in their rounds. -/
structure Justified (v : Voter V N) : Prop where
  locked : ∀ b, v.locked = some b → v.polka v.lockedRound = some (some (name b))
  valid : ∀ b, v.valid = some b → v.polka v.validRound = some (some (name b))

lemma Justified.move (h : v.Justified name) (hmove : Move name False v v') :
    v'.Justified name := by
  cases hmove with
  | stay => exact h
  | enter later => exact { h with }
  | schedule => exact { h with }
  | learn grows =>
    exact ⟨fun b hb => grows _ _ (h.locked b hb), fun b hb => grows _ _ (h.valid b hb)⟩
  | unlock polka past later other => exact { h with locked := nofun }
  | lock polka same =>
    refine { h with locked := fun b hb => ?_ }
    rw [← some.inj hb]
    exact polka
  | validate polka =>
    refine { h with valid := fun b hb => ?_ }
    rw [← some.inj hb]
    exact polka
  | next step => exact ⟨nofun, nofun⟩
  | overwrite hin => exact hin.elim

lemma Justified.casts (h : v.Justified name) (hcast : Casts v p v') : v'.Justified name := by
  obtain ⟨later⟩ := hcast
  exact { h with }

variable (name) in
/-- As long as the height is the same, a lock is kept or was given up for a later polka
for something else. -/
structure Yields (v v' : Voter V N) : Prop where
  height : v.height ≤ v'.height
  round : v'.height = v.height → v.round ≤ v'.round
  polka : v'.height = v.height → ∀ r x, v.polka r = some x → v'.polka r = some x
  lock : v'.height = v.height → ∀ b, v.locked = some b →
    v'.locked = some b ∧ v.lockedRound ≤ v'.lockedRound ∨
      ∃ r x, v.lockedRound < r ∧ r ≤ v'.round ∧ v'.polka r = some x ∧ x ≠ some (name b)

lemma Yields.refl (name : V → N) (v : Voter V N) : Yields name v v :=
  ⟨le_rfl, fun _ => le_rfl, fun _ _ _ h => h, fun _ _ hb => .inl ⟨hb, le_rfl⟩⟩

lemma Yields.trans (h : Yields name v v') (h' : Yields name v' v'') : Yields name v v'' := by
  have hmid : v''.height = v.height → v'.height = v.height ∧ v''.height = v'.height := by
    have := h.height
    have := h'.height
    omega
  refine ⟨h.height.trans h'.height, fun heq => ?_, fun heq r x hx => ?_, fun heq b hb => ?_⟩
  · exact (h.round (hmid heq).1).trans (h'.round (hmid heq).2)
  · exact h'.polka (hmid heq).2 r x (h.polka (hmid heq).1 r x hx)
  · obtain ⟨heq₁, heq₂⟩ := hmid heq
    rcases h.lock heq₁ b hb with ⟨hb', hle⟩ | ⟨r, x, hlt, hr, hx, hne⟩
    · rcases h'.lock heq₂ b hb' with ⟨hb'', hle'⟩ | ⟨r, x, hlt, hr, hx, hne⟩
      · exact .inl ⟨hb'', hle.trans hle'⟩
      · exact .inr ⟨r, x, hle.trans_lt hlt, hr, hx, hne⟩
    · exact .inr ⟨r, x, hlt, hr.trans (h'.round heq₂), h'.polka heq₂ r x hx, hne⟩

lemma Justified.lockedRound_lt (hjust : v.Justified name) (hbound : v.Bounded) {b : V}
    {x : Option N} (hb : v.locked = some b) (hx : v.polka v.round = some x)
    (hne : x ≠ some (name b)) :
    v.lockedRound < v.round := by
  refine lt_of_le_of_ne hbound.lockedRound fun heq => hne ?_
  have hown := hjust.locked b hb
  rw [heq] at hown
  exact some.inj (hx.symm.trans hown)

lemma Move.yields (h : Move name False v v') (hjust : v.Justified name) (hbound : v.Bounded) :
    Yields name v v' := by
  cases h with
  | stay => exact .refl name v
  | enter later =>
    have hle : v.round ≤ _ := later.elim le_of_lt fun h => h.1.le
    exact ⟨le_rfl, fun _ => hle, fun _ _ _ h => h, fun _ _ hb => .inl ⟨hb, le_rfl⟩⟩
  | schedule => exact { Yields.refl name v with }
  | learn grows => exact ⟨le_rfl, fun _ => le_rfl, fun _ => grows, fun _ _ hb => .inl ⟨hb, le_rfl⟩⟩
  | unlock polka past later other =>
    refine { Yields.refl name v with lock := fun _ b hb => .inr ⟨_, _, ?_, past, polka, other b hb⟩ }
    rcases later with hlt | rfl
    · exact hlt
    · exact hjust.lockedRound_lt hbound hb polka (other b hb)
  | @lock b polka same =>
    refine { Yields.refl name v with lock := fun _ b' hb' => ?_ }
    by_cases heq : some (name b) = some (name b')
    · rw [same b' hb' (some.inj heq).symm]
      exact .inl ⟨rfl, hbound.lockedRound⟩
    · exact .inr ⟨v.round, some (name b), hjust.lockedRound_lt hbound hb' polka heq, le_rfl, polka,
        heq⟩
  | validate polka => exact { Yields.refl name v with }
  | next step =>
    have hne : v.height + 1 ≠ v.height := by omega
    exact ⟨(Int.lt_succ _).le, fun h => absurd h hne, fun h => absurd h hne,
      fun h => absurd h hne⟩
  | overwrite hin => exact hin.elim

lemma Casts.yields (h : Casts v p v') : Yields name v v' := by
  obtain ⟨later⟩ := h
  exact { Yields.refl name v with }

end Voter

end LockedVoting
