import Mathlib.Data.List.Pairwise
import Mathlib.Order.Basic
import ShardingBC.Runs

/-!
# Computations with a log

A computation writes entries to a log and comes to a result or fails; what was written stays. What
it does to a state is a path of moves, which leave no entry, and of calls, which leave one.
-/

structure Logged (ε α : Type) where
  log : List ε
  result : Option α

namespace Logged

open List

variable {ε α β γ : Type}

instance monadLogged : Monad (Logged ε) where
  pure a := ⟨[], some a⟩
  bind x f :=
    match x.result with
    | none => ⟨x.log, none⟩
    | some a => ⟨x.log ++ (f a).log, (f a).result⟩

/-- A computation without entries. -/
def lift (o : Option α) : Logged ε α := ⟨[], o⟩

/-- An entry for a computation without entries of its own. -/
def entry (e : ε) (o : Option α) : Logged ε α := ⟨[e], o⟩

@[simp] lemma result_bind (x : Logged ε α) (f : α → Logged ε β) :
    (x >>= f).result = x.result.bind fun a => (f a).result := by
  obtain ⟨l, r⟩ := x
  cases r <;> rfl

lemma map_result_bind {x : Logged ε α} {f : α → Logged ε β} {o : Option γ} {g : γ → Option γ}
    {p : α → γ} {q : β → γ} (hx : x.result.map p = o)
    (hf : ∀ a, x.result = some a → (f a).result.map q = g (p a)) :
    (x >>= f).result.map q = o.bind g := by
  rw [result_bind, ← hx]
  cases h : x.result with
  | none => rfl
  | some a => exact hf a h

section Ensures

/-- All entries are as asked for, and so is the result, if any. -/
structure Ensures (Q : ε → Prop) (post : α → Prop) (x : Logged ε α) : Prop where
  log : ∀ e ∈ x.log, Q e
  result : ∀ a, x.result = some a → post a

variable {Q : ε → Prop} {post : α → Prop} {post' : β → Prop}

lemma Ensures.pure {a : α} (h : post a) : Ensures Q post (Pure.pure a : Logged ε α) :=
  ⟨nofun, fun _ ha => Option.some.inj ha ▸ h⟩

lemma Ensures.fails : Ensures Q post (lift none : Logged ε α) := ⟨nofun, nofun⟩

lemma Ensures.entry {e : ε} {a : α} (he : Q e) (h : post a) :
    Ensures Q post (Logged.entry e (some a)) :=
  ⟨by simpa [Logged.entry] using he, fun _ ha => Option.some.inj ha ▸ h⟩

lemma Ensures.bind {x : Logged ε α} {f : α → Logged ε β} (hx : Ensures Q post x)
    (hf : ∀ a, post a → Ensures Q post' (f a)) : Ensures Q post' (x >>= f) := by
  obtain ⟨l, r⟩ := x
  cases r with
  | none => exact ⟨hx.log, nofun⟩
  | some a =>
    have hfa := hf a (hx.result a rfl)
    exact ⟨forall_mem_append.mpr ⟨hx.log, hfa.log⟩, hfa.result⟩

end Ensures

section Path

variable {σ : Type} (move : σ → σ → Prop) (call : σ → ε → σ → Prop)

/-- What happens to a state: the entries of the calls and the last state, if any. -/
inductive Path : σ → List ε → Option σ → Prop
  | fails (s : σ) : Path s [] none
  | ends (s : σ) : Path s [] (some s)
  | moves {s s' : σ} {l : List ε} {r : Option σ} : move s s' → Path s' l r → Path s l r
  | calls {s s' : σ} {e : ε} {l : List ε} {r : Option σ} : call s e s' → Path s' l r →
      Path s (e :: l) r

/-- The computation takes the state along a path. -/
def Takes (s : σ) (x : Logged ε σ) : Prop := Path move call s x.log x.result

variable {move call} {s s' t : σ} {l l' : List ε} {r : Option σ}

lemma Path.trans (h : Path move call s l (some s')) (h' : Path move call s' l' r) :
    Path move call s (l ++ l') r := by
  generalize hend : some s' = o at h
  induction h with
  | fails s => cases hend
  | ends s =>
    cases hend
    exact h'
  | moves hmove _ ih => exact .moves hmove (ih hend)
  | calls hcall _ ih => exact .calls hcall (ih hend)

lemma Takes.pure (s : σ) : Takes move call s (Pure.pure s) := .ends s

lemma Takes.fails (s : σ) : Takes move call s (lift none) := Path.fails s

lemma Takes.moves {x : Logged ε σ} (h : move s s') (hx : Takes move call s' x) :
    Takes move call s x :=
  Path.moves h hx

lemma Takes.bind {x : Logged ε σ} {f : σ → Logged ε σ} (hx : Takes move call s x)
    (hf : ∀ s', x.result = some s' → Takes move call s' (f s')) :
    Takes move call s (x >>= f) := by
  obtain ⟨l, r⟩ := x
  cases r with
  | none => exact hx
  | some s' => exact Path.trans hx (hf s' rfl)

lemma Takes.lift_bind {α : Type} {o : Option α} {f : α → Logged ε σ}
    (hf : ∀ a, o = some a → Takes move call s (f a)) : Takes move call s (lift o >>= f) := by
  cases o with
  | none => exact .fails s
  | some a => exact hf a rfl

lemma Path.invariant {P : σ → Prop} (hmove : ∀ s s', P s → move s s' → P s')
    (hcall : ∀ s e s', P s → call s e s' → P s') (h : Path move call s l (some t)) (hs : P s) :
    P t := by
  generalize hend : some t = o at h
  induction h with
  | fails s => cases hend
  | ends s =>
    cases hend
    exact hs
  | moves hm _ ih => exact ih (hmove _ _ hs hm) hend
  | calls hc _ ih => exact ih (hcall _ _ _ hs hc) hend

lemma Path.imp {move' : σ → σ → Prop} {call' : σ → ε → σ → Prop} {P : σ → Prop}
    (hmove : ∀ s s', P s → move s s' → move' s s' ∧ P s')
    (hcall : ∀ s e s', P s → call s e s' → call' s e s' ∧ P s') (h : Path move call s l r)
    (hs : P s) : Path move' call' s l r := by
  induction h with
  | fails s => exact .fails s
  | ends s => exact .ends s
  | moves hm _ ih => exact .moves (hmove _ _ hs hm).1 (ih (hmove _ _ hs hm).2)
  | calls hc _ ih => exact .calls (hcall _ _ _ hs hc).1 (ih (hcall _ _ _ hs hc).2)

lemma Path.forall_mem_log {Q : ε → Prop} (hcall : ∀ s e s', call s e s' → Q e)
    (h : Path move call s l r) : ∀ e ∈ l, Q e := by
  induction h with
  | fails s => nofun
  | ends s => nofun
  | moves _ _ ih => exact ih
  | calls hc _ ih => exact forall_mem_cons.mpr ⟨hcall _ _ _ hc, ih⟩

/-- On a path that climbs and calls on the way up, no two calls are from one place. -/
lemma Path.pairwise_log {A : Type*} [Preorder A] {place : σ → A} {placeOf : ε → A}
    (hmove : ∀ s s', move s s' → place s ≤ place s')
    (hcall : ∀ s e s', call s e s' → place s < placeOf e ∧ placeOf e ≤ place s')
    (h : Path move call s l r) :
    l.Pairwise (fun e e' => placeOf e < placeOf e') ∧ ∀ e ∈ l, place s < placeOf e := by
  induction h with
  | fails s => exact ⟨.nil, nofun⟩
  | ends s => exact ⟨.nil, nofun⟩
  | moves hm _ ih => exact ⟨ih.1, fun e he => (hmove _ _ hm).trans_lt (ih.2 e he)⟩
  | calls hc _ ih =>
    obtain ⟨hlt, hle⟩ := hcall _ _ _ hc
    have hrest : ∀ e' ∈ _, placeOf _ < placeOf e' := fun e' he' => hle.trans_lt (ih.2 e' he')
    exact ⟨pairwise_cons.mpr ⟨hrest, ih.1⟩,
      forall_mem_cons.mpr ⟨hlt, fun e' he' => hlt.trans (hrest e' he')⟩⟩

end Path

section Run

open Runs

variable {σ η : Type} (step : σ → η → Logged ε σ)

/-- Event after event, as long as none of them fails. -/
def runAll : σ → List η → Logged ε σ
  | s, [] => pure s
  | s, e :: es => step s e >>= fun s' => runAll s' es

variable {step} {move : σ → σ → Prop} {call : σ → ε → σ → Prop}

lemma takes_runAll {P : σ → Prop} {guard : σ → η → Prop}
    (hstep : ∀ s e, P s → guard s e → Takes move call s (step s e))
    (hkeep : ∀ s s' x, P s → Takes move call s x → x.result = some s' → P s') {s : σ} (hs : P s)
    {es : List η} (hg : Guarded (fun s e => (step s e).result) guard s es) :
    Takes move call s (runAll step s es) := by
  induction es generalizing s with
  | nil => exact .pure s
  | cons e es ih =>
    have htakes := hstep s e hs hg.1
    exact htakes.bind fun s' hs' => ih (hkeep s s' _ hs htakes hs') (hg.2 s' hs')

end Run

end Logged
