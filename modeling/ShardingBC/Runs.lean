import Mathlib.Data.Option.Basic
import Mathlib.Data.List.Basic

/-!
# Runs of a partial step function

A system takes an event and either moves to a new state or cannot move. A guard
restricts the events that a run may contain, with the state they occur in.
-/
namespace Runs

variable {σ ε : Type*}

/-- The state after the events, if all of them can happen. -/
def run (step : σ → ε → Option σ) : σ → List ε → Option σ
  | s, [] => some s
  | s, e :: es => (step s e).bind fun s' => run step s' es

/-- Every event of the run meets the guard in the state it occurs in. -/
def Guarded (step : σ → ε → Option σ) (guard : σ → ε → Prop) : σ → List ε → Prop
  | _, [] => True
  | s, e :: es => guard s e ∧ ∀ s' ∈ step s e, Guarded step guard s' es

instance (step : σ → ε → Option σ) (guard : σ → ε → Prop) [∀ s e, Decidable (guard s e)] :
    ∀ s es, Decidable (Guarded step guard s es) := decideGuarded
where
  decideGuarded : ∀ s es, Decidable (Guarded step guard s es)
    | _, [] => isTrue trivial
    | s, e :: es =>
      have : DecidablePred fun s' => Guarded step guard s' es := fun s' => decideGuarded s' es
      inferInstanceAs (Decidable (guard s e ∧ ∀ s' ∈ step s e, Guarded step guard s' es))

variable {step : σ → ε → Option σ} {guard : σ → ε → Prop} {s t : σ} {es : List ε}

@[simp] lemma run_cons {e : ε} :
    run step s (e :: es) = some t ↔ ∃ s', step s e = some s' ∧ run step s' es = some t := by
  rw [run, Option.bind_eq_some_iff]

@[simp] lemma run_append {es fs : List ε} :
    run step s (es ++ fs) = (run step s es).bind fun s' => run step s' fs := by
  induction es generalizing s with
  | nil => rfl
  | cons e es ih =>
    rw [List.cons_append, run, run, Option.bind_assoc]
    exact congrArg _ (funext fun s' => ih)

/-- A result with a property that can be computed. -/
lemma exists_of_any {α : Type*} {o : Option α} {P : α → Prop} [DecidablePred P]
    (h : o.any (fun a => decide (P a)) = true) : ∃ a, o = some a ∧ P a := by
  simpa using (Option.any_eq_true ..).mp h

/-- A fold whose steps fail for some elements succeeds just on the lists without them. -/
lemma isSome_foldlM_iff {p : ε → Prop} (h : ∀ s e, (step s e).isSome ↔ p e) :
    (es.foldlM step s).isSome ↔ ∀ e ∈ es, p e := by
  induction es generalizing s with
  | nil => simp
  | cons e es ih =>
    rw [List.foldlM_cons, List.forall_mem_cons, ← h s e]
    cases step s e with
    | none => simp
    | some s' => simpa using ih

lemma Guarded.mono {guard' : σ → ε → Prop} (himp : ∀ s e, guard s e → guard' s e)
    (hg : Guarded step guard s es) : Guarded step guard' s es := by
  induction es generalizing s with
  | nil => trivial
  | cons e es ih => exact ⟨himp s e hg.1, fun s' hs' => ih (hg.2 s' hs')⟩

lemma Guarded.of_forall (h : ∀ s e, guard s e) (es : List ε) : Guarded step guard s es := by
  induction es generalizing s with
  | nil => trivial
  | cons e es ih => exact ⟨h s e, fun s' _ => ih⟩

lemma invariant {P : σ → Prop} (hstep : ∀ s e s', P s → step s e = some s' → P s')
    (hrun : run step s es = some t) (hs : P s) : P t := by
  induction es generalizing s with
  | nil =>
    cases hrun
    exact hs
  | cons e es ih =>
    obtain ⟨s', he, hrest⟩ := run_cons.mp hrun
    exact ih hrest (hstep s e s' hs he)

lemma Guarded.invariant {P : σ → Prop}
    (hstep : ∀ s e s', P s → guard s e → step s e = some s' → P s')
    (hg : Guarded step guard s es) (hrun : run step s es = some t) (hs : P s) : P t := by
  induction es generalizing s with
  | nil =>
    cases hrun
    exact hs
  | cons e es ih =>
    obtain ⟨s', he, hrest⟩ := run_cons.mp hrun
    exact ih (hg.2 s' he) hrest (hstep s e s' hs hg.1 he)

lemma Guarded.exists_run {P : σ → Prop}
    (hstep : ∀ s e, P s → guard s e → ∃ s', step s e = some s' ∧ P s') (hs : P s)
    (hg : Guarded step guard s es) : ∃ t, run step s es = some t ∧ P t := by
  induction es generalizing s with
  | nil => exact ⟨s, rfl, hs⟩
  | cons e es ih =>
    obtain ⟨s', he, hs'⟩ := hstep s e hs hg.1
    obtain ⟨t, hrun, ht⟩ := ih hs' (hg.2 s' he)
    exact ⟨t, run_cons.mpr ⟨s', he, hrun⟩, ht⟩

/-- An invariant of the guarded steps may strengthen their guard. -/
lemma Guarded.imp {guard' : σ → ε → Prop} {P : σ → Prop}
    (hstep : ∀ s e s', P s → guard s e → step s e = some s' → P s')
    (himp : ∀ s e, P s → guard s e → guard' s e) (hs : P s)
    (hg : Guarded step guard s es) : Guarded step guard' s es := by
  induction es generalizing s with
  | nil => trivial
  | cons e es ih =>
    refine ⟨himp s e hs hg.1, fun s' hs' => ?_⟩
    exact ih (hstep s e s' hs hg.1 hs') (hg.2 s' hs')

/-- A property that just the guarded steps keep holds all along a run exactly when all its steps
are guarded. -/
lemma forall_take_iff_guarded {P : σ → Prop} (hnone : ∀ s e, step s e = none → guard s e)
    (hstep : ∀ s e s', P s → step s e = some s' → (P s' ↔ guard s e)) (hs : P s) :
    (∀ n t, run step s (es.take n) = some t → P t) ↔ Guarded step guard s es := by
  induction es generalizing s with
  | nil =>
    refine ⟨fun _ => trivial, fun _ n t h => ?_⟩
    rw [List.take_nil] at h
    cases h
    exact hs
  | cons e es ih =>
    constructor
    · intro h
      cases he : step s e with
      | none => exact ⟨hnone s e he, by simp [he]⟩
      | some s' =>
        have hs' : P s' := h 1 s' (by simp [run, he])
        refine ⟨(hstep s e s' hs he).mp hs', fun u hu => ?_⟩
        obtain rfl := Option.some.inj (he.symm.trans hu)
        exact (ih hs').mp fun n t ht => h (n + 1) t (run_cons.mpr ⟨s', he, ht⟩)
    · rintro ⟨hg, hrest⟩ n t ht
      cases n with
      | zero =>
        cases ht
        exact hs
      | succ n =>
        obtain ⟨s', he, hrun⟩ := run_cons.mp ht
        have hs' := (hstep s e s' hs he).mpr hg
        exact (ih hs').mpr (hrest s' he) n t hrun

end Runs
