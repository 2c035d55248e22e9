import Mathlib.Data.List.Basic

/-!
# Programs that share a state

A program works on a shared state in single actions, between which other programs may act. `Does`
follows a program that nobody disturbs and gives a guarantee for each of its actions, `Reads`
follows one that only reads while others act. A loop is a body that returns the point at which it
goes on.
-/
namespace Interleaving

inductive Prog (σ α : Type) where
  | ret (a : α)
  | act (f : σ → Option σ) (k : σ → Prog σ α)

variable {σ α β κ : Type}

namespace Prog

def bind : Prog σ α → (α → Prog σ β) → Prog σ β
  | ret a, g => g a
  | act f k, g => act f fun s => (k s).bind g

instance : Monad (Prog σ) where
  pure := ret
  bind := bind

@[simp] lemma bind_eq (p : Prog σ α) (g : α → Prog σ β) : p >>= g = p.bind g := rfl

@[simp] lemma bind_assoc {γ : Type} (p : Prog σ α) (g : α → Prog σ β) (k : β → Prog σ γ) :
    (p.bind g).bind k = p.bind fun a => (g a).bind k := by
  induction p with
  | ret a => rfl
  | act f c ih =>
    simp only [bind]
    congr 1
    funext s
    exact ih s

/-- A single action: crashes when the test fails, else replaces the state and returns what it
read. -/
def action (test : σ → Bool) (f : σ → σ) (g : σ → α) : Prog σ α :=
  act (fun s => if test s then some (f s) else none) fun s => ret (g s)

/-- Reads a part of the state. -/
def read (g : σ → α) : Prog σ α := action (fun _ => true) id g

section Does

variable (G : σ → σ → Prop)

/-- Undisturbed, the program ends in a state with `Q`, and each of its actions is a step of `G`. -/
def Does (Q : α → σ → Prop) : Prog σ α → σ → Prop
  | ret a, s => Q a s
  | act f k, s => ∃ s', f s = some s' ∧ G s s' ∧ Does Q (k s) s'

variable {G} {Q Q' : α → σ → Prop} {p : Prog σ α} {s : σ}

lemma Does.mono (h : Does G Q p s) (himp : ∀ a s', Q a s' → Q' a s') : Does G Q' p s := by
  induction p generalizing s with
  | ret a => exact himp a s h
  | act f k ih =>
    obtain ⟨s', hf, hG, hk⟩ := h
    exact ⟨s', hf, hG, ih s hk⟩

/-- An undisturbed program has one result and one last state. -/
lemma Does.exact (h : Does G Q p s) :
    ∃ a s', Q a s' ∧ Does G (fun b t => b = a ∧ t = s') p s := by
  induction p generalizing s with
  | ret a => exact ⟨a, s, h, rfl, rfl⟩
  | act f k ih =>
    obtain ⟨s', hf, hG, hk⟩ := h
    obtain ⟨a, t, hQ, hexact⟩ := ih s hk
    exact ⟨a, t, hQ, s', hf, hG, hexact⟩

lemma does_bind {g : α → Prog σ β} {Q : β → σ → Prop} :
    Does G Q (p.bind g) s ↔ Does G (fun a s' => Does G Q (g a) s') p s := by
  induction p generalizing s with
  | ret a => exact Iff.rfl
  | act f k ih => simp only [bind, Does, ih]

@[simp] lemma does_action {test : σ → Bool} {f : σ → σ} {g : σ → β} {k : β → Prog σ α} :
    Does G Q ((action test f g).bind k) s ↔
      test s = true ∧ G s (f s) ∧ Does G Q (k (g s)) (f s) := by
  cases ht : test s <;> simp [action, bind, Does, ht]

@[simp] lemma does_read {g : σ → β} {k : β → Prog σ α} :
    Does G Q ((read g).bind k) s ↔ G s s ∧ Does G Q (k (g s)) s := by
  simp [read]

end Does

section Reads

variable (R : σ → σ → Prop)

/-- Whatever steps of `R` the others take, the program changes nothing, does not crash and ends
with `Q`. -/
def Reads (Q : α → σ → Prop) : Prog σ α → σ → Prop
  | ret a, s => Q a s
  | act f k, s => ∀ s', R s s' → f s' = some s' ∧ Reads Q (k s') s'

variable {R} {Q Q' : α → σ → Prop} {p : Prog σ α} {s s' : σ}

lemma Reads.step (htrans : ∀ {a b c}, R a b → R b c → R a c)
    (hQ : ∀ a s s', Q a s → R s s' → Q a s') (h : Reads R Q p s) (hs : R s s') :
    Reads R Q p s' := by
  cases p with
  | ret a => exact hQ a s s' h hs
  | act f k => exact fun s'' hs' => h s'' (htrans hs hs')

lemma reads_action {test : σ → Bool} {g : σ → β} {k : β → Prog σ α}
    (h : ∀ s', R s s' → test s' = true ∧ Reads R Q (k (g s')) s') :
    Reads R Q ((action test id g).bind k) s :=
  fun s' hs => ⟨by simp [(h s' hs).1], (h s' hs).2⟩

lemma reads_read {g : σ → β} {k : β → Prog σ α}
    (h : ∀ s', R s s' → Reads R Q (k (g s')) s') : Reads R Q ((read g).bind k) s :=
  reads_action fun s' hs => ⟨rfl, h s' hs⟩

end Reads

end Prog

/-- The loop, run alone from a point, gives the result and the state. -/
inductive Finishes (body : κ → Prog σ (κ ⊕ β)) (G : σ → σ → Prop) : κ → σ → β → σ → Prop
  | done {c s r s₁} :
      (body c).Does G (fun o s' => o = .inr r ∧ s' = s₁) s → Finishes body G c s r s₁
  | again {c s c' s₁ r s₂} :
      (body c).Does G (fun o s' => o = .inl c' ∧ s' = s₁) s →
      Finishes body G c' s₁ r s₂ → Finishes body G c s r s₂

section Loops

variable {body : κ → Prog σ (κ ⊕ β)} {G : σ → σ → Prop}

/-- The rest of a loop, alone, gives the result and the state. -/
def Ends (body : κ → Prog σ (κ ⊕ β)) (G : σ → σ → Prop) (p : Prog σ (κ ⊕ β)) (s : σ) (r : β)
    (s₂ : σ) : Prop :=
  p.Does G (fun o s₁ => (o = .inr r ∧ s₁ = s₂) ∨ ∃ c, o = .inl c ∧ Finishes body G c s₁ r s₂) s

lemma Finishes.ends {c : κ} {s s₂ : σ} {r : β} (h : Finishes body G c s r s₂) :
    Ends body G (body c) s r s₂ := by
  cases h with
  | done h => exact h.mono fun o s' ho => Or.inl ho
  | again h hrest =>
    refine h.mono fun o s' ho => Or.inr ⟨_, ho.1, ?_⟩
    rw [ho.2]
    exact hrest

lemma Ends.of_loop {c : κ} {s s₂ : σ} {r : β} (h : Ends body G (.ret (.inl c)) s r s₂) :
    Ends body G (body c) s r s₂ := by
  rcases h with ⟨ho, -⟩ | ⟨c', ho, hfin⟩
  · cases ho
  · cases ho
    exact hfin.ends

lemma Ends.of_ret {r' : β} {s s₂ : σ} {r : β} (h : Ends body G (.ret (.inr r')) s r s₂) :
    r' = r ∧ s = s₂ := by
  rcases h with ⟨ho, hs⟩ | ⟨c', ho, -⟩
  · cases ho
    exact ⟨rfl, hs⟩
  · cases ho

end Loops

end Interleaving
