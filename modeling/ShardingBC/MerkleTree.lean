import Mathlib.Data.List.Basic
import Mathlib.Tactic

/-!
# Merkle trees over an arbitrary hash

A tree is hashed with one function on its leaves and one on pairs of hashes. The
trail of a leaf is its hash with the sibling hashes met on the way to the root.
-/
namespace ShardingBC

open Function List

/-- The side of a node on which its sibling stands. -/
inductive Side where
  | right
  | left
deriving DecidableEq, Repr

inductive MerkleTree (α : Type) where
  | leaf (a : α)
  | node (l r : MerkleTree α)
deriving DecidableEq

namespace MerkleTree

variable {α β : Type}

def leaves : MerkleTree α → List α
  | leaf a => [a]
  | node l r => l.leaves ++ r.leaves

lemma length_leaves_pos (t : MerkleTree α) : 0 < t.leaves.length := by
  induction t with
  | leaf a => exact Nat.one_pos
  | node l r hl hr =>
    rw [leaves, length_append]
    omega

/-- The largest power of two below a length of at least two. -/
def getSplitPoint (n : ℕ) : ℕ :=
  if 2 ^ Nat.log2 n = n then 2 ^ Nat.log2 n / 2 else 2 ^ Nat.log2 n

/-- The tree over a non-empty list; the first argument bounds the depth. -/
def build : ℕ → α → List α → MerkleTree α
  | 0, a, _ => leaf a
  | _ + 1, a, [] => leaf a
  | n + 1, a, b :: xs =>
    let k := getSplitPoint (xs.length + 2) - 1
    let rest := (b :: xs).drop k
    node (build n a ((b :: xs).take k)) (build n (rest.headD a) rest.tail)

section Hash

variable (lf : α → β) (nd : β → β → β)

def hash : MerkleTree α → β
  | leaf a => lf a
  | node l r => nd l.hash r.hash

/-- One step towards the root. -/
def climb (h : β) (s : Side × β) : β :=
  match s.1 with
  | Side.right => nd h s.2
  | Side.left => nd s.2 h

def trails : MerkleTree α → List (β × List (Side × β))
  | leaf a => [(lf a, [])]
  | node l r =>
    l.trails.map (fun t => (t.1, t.2 ++ [(Side.right, r.hash lf nd)])) ++
      r.trails.map (fun t => (t.1, t.2 ++ [(Side.left, l.hash lf nd)]))

@[simp]
lemma trails_hashes (t : MerkleTree α) : (t.trails lf nd).map Prod.fst = t.leaves.map lf := by
  induction t with
  | leaf a => rfl
  | node l r hl hr => simp [trails, leaves, comp_def, ← hl, ← hr]

/-- Climbing along a trail of the tree ends at its root. -/
lemma foldl_climb_trail (t : MerkleTree α) :
    ∀ tr ∈ t.trails lf nd, tr.2.foldl (climb nd) tr.1 = t.hash lf nd := by
  induction t with
  | leaf a => simp [trails, hash]
  | node l r hl hr =>
    intro tr htr
    simp only [trails, mem_append, mem_map] at htr
    rcases htr with ⟨s, hs, rfl⟩ | ⟨s, hs, rfl⟩
    · simp [hl s hs, climb, hash]
    · simp [hr s hs, climb, hash]

lemma trail_ne_nil (l r : MerkleTree α) :
    ∀ tr ∈ (node l r).trails lf nd, tr.2 ≠ [] := by
  intro tr htr
  simp only [trails, mem_append, mem_map] at htr
  rcases htr with ⟨s, -, rfl⟩ | ⟨s, -, rfl⟩ <;> simp

lemma length_trail_lt (t : MerkleTree α) :
    ∀ tr ∈ t.trails lf nd, tr.2.length < t.leaves.length := by
  induction t with
  | leaf a => simp [trails, leaves]
  | node l r hl hr =>
    intro tr htr
    have hl0 := l.length_leaves_pos
    have hr0 := r.length_leaves_pos
    simp only [trails, mem_append, mem_map] at htr
    rw [leaves]
    rcases htr with ⟨s, hs, rfl⟩ | ⟨s, hs, rfl⟩
    · have := hl s hs
      simp only [length_append, length_singleton]
      omega
    · have := hr s hs
      simp only [length_append, length_singleton]
      omega

/-- Different leaves have different ways to the root. -/
lemma nodup_trail_steps (t : MerkleTree α) : ((t.trails lf nd).map Prod.snd).Nodup := by
  induction t with
  | leaf a => simp [trails]
  | node l r hl hr =>
    have happend : ∀ s : Side × β, Function.Injective fun steps : List (Side × β) => steps ++ [s] :=
      fun s => append_left_injective [s]
    simp only [trails, map_append, map_map]
    rw [nodup_append']
    refine ⟨?_, ?_, ?_⟩
    · have := hl.map (happend (Side.right, r.hash lf nd))
      rwa [map_map] at this
    · have := hr.map (happend (Side.left, l.hash lf nd))
      rwa [map_map] at this
    · intro steps hleft hright
      obtain ⟨tr, -, rfl⟩ := mem_map.mp hleft
      obtain ⟨tr', -, heq⟩ := mem_map.mp hright
      have hlast := congrArg getLast? heq
      simp at hlast

end Hash

lemma getSplitPoint_bounds (n : ℕ) (hn : 2 ≤ n) :
    1 ≤ getSplitPoint n ∧ getSplitPoint n < n := by
  have hle : 2 ^ Nat.log2 n ≤ n := Nat.log2_self_le (by omega)
  have hpos : 0 < 2 ^ Nat.log2 n := Nat.two_pow_pos _
  unfold getSplitPoint
  split_ifs with h
  · omega
  · omega

lemma build_cons (n : ℕ) (a b : α) (xs : List α) : ∃ ys c zs, b :: xs = ys ++ c :: zs ∧
    ys.length + 1 = getSplitPoint (xs.length + 2) ∧
    build (n + 1) a (b :: xs) = node (build n a ys) (build n c zs) := by
  obtain ⟨hk1, hk2⟩ := getSplitPoint_bounds (xs.length + 2) (by omega)
  have hlt : getSplitPoint (xs.length + 2) - 1 < (b :: xs).length := by
    rw [length_cons]
    omega
  have hdrop := drop_eq_getElem_cons hlt
  refine ⟨_, _, _, (hdrop ▸ take_append_drop _ _).symm, ?_, by rw [build, hdrop]; rfl⟩
  rw [length_take]
  omega

lemma leaves_build (n : ℕ) (a : α) (xs : List α) (h : xs.length ≤ n) :
    (build n a xs).leaves = a :: xs := by
  induction n generalizing a xs with
  | zero =>
    have hx : xs = [] := length_eq_zero_iff.mp (by omega)
    subst hx
    rfl
  | succ n ih =>
    cases xs with
    | nil => rfl
    | cons b xs =>
      obtain ⟨ys, c, zs, hsplit, -, hbuild⟩ := build_cons n a b xs
      have hlen := congrArg length hsplit
      simp only [length_cons, length_append] at h hlen
      rw [hbuild, leaves, ih a ys (by omega), ih c zs (by omega), hsplit, cons_append]

lemma build_injective {a b : α} {xs ys : List α}
    (h : build xs.length a xs = build ys.length b ys) : a :: xs = b :: ys := by
  have hleaves := congrArg leaves h
  rwa [leaves_build _ _ _ le_rfl, leaves_build _ _ _ le_rfl] at hleaves

/-- Every node splits its leaves at the largest power of two below their number. -/
def Balanced : MerkleTree α → Prop
  | leaf _ => True
  | node l r => l.leaves.length = getSplitPoint (l.leaves.length + r.leaves.length) ∧
      l.Balanced ∧ r.Balanced

lemma balanced_build (n : ℕ) (a : α) (xs : List α) (h : xs.length ≤ n) :
    (build n a xs).Balanced := by
  induction n generalizing a xs with
  | zero => trivial
  | succ n ih =>
    cases xs with
    | nil => trivial
    | cons b xs =>
      obtain ⟨ys, c, zs, hsplit, hpoint, hbuild⟩ := build_cons n a b xs
      have hlen := congrArg length hsplit
      simp only [length_cons, length_append] at h hlen
      rw [hbuild]
      refine ⟨?_, ih _ _ (by omega), ih _ _ (by omega)⟩
      rw [leaves_build _ _ _ (by omega), leaves_build _ _ _ (by omega), length_cons, hpoint,
        length_cons]
      congr 1
      omega

/-- Trees that differ in their leaves only. -/
def SameShape : MerkleTree α → MerkleTree α → Prop
  | leaf _, leaf _ => True
  | node l r, node l' r' => SameShape l l' ∧ SameShape r r'
  | leaf _, node _ _ | node _ _, leaf _ => False

lemma sameShape_build (n : ℕ) (a b : α) (xs ys : List α) (h : xs.length = ys.length) :
    SameShape (build n a xs) (build n b ys) := by
  induction n generalizing a b xs ys with
  | zero => trivial
  | succ n ih =>
    cases xs with
    | nil =>
      obtain rfl : ys = [] := length_eq_zero_iff.mp h.symm
      trivial
    | cons x xs =>
      cases ys with
      | nil => simp at h
      | cons y ys =>
        obtain h : xs.length = ys.length := by simpa using h
        exact ⟨ih _ _ _ _ (by simp [h]), ih _ _ _ _ (by simp [h])⟩

/-! ## Binding

The hash is now a function of an encoding. Where it does not collide on the encodings
that occur, a root determines its tree and every way down. -/

section Binding

variable {γ : Type} (H : γ → β) (leafMsg : α → γ) (nodeMsg : β → β → γ)

/-- The root of a tree that is hashed by way of an encoding. -/
abbrev root (t : MerkleTree α) : β := t.hash (fun a => H (leafMsg a)) fun x y => H (nodeMsg x y)

/-- What is hashed to get the root. -/
def messages : MerkleTree α → List γ
  | leaf a => [leafMsg a]
  | node l r =>
    nodeMsg (l.hash (fun a => H (leafMsg a)) fun x y => H (nodeMsg x y))
        (r.hash (fun a => H (leafMsg a)) fun x y => H (nodeMsg x y)) ::
      (l.messages ++ r.messages)

/-- What is hashed in one step towards the root. -/
def stepMsg (h : β) (s : Side × β) : γ :=
  match s.1 with
  | Side.right => nodeMsg h s.2
  | Side.left => nodeMsg s.2 h

/-- What is hashed on the way to the root. -/
def climbMessages (h : β) : List (Side × β) → List γ
  | [] => []
  | s :: steps =>
    stepMsg nodeMsg h s :: climbMessages (climb (fun x y => H (nodeMsg x y)) h s) steps

/-- The leaves with the way to the root. -/
def ways (lf : α → β) (nd : β → β → β) : MerkleTree α → List (α × List (Side × β))
  | leaf a => [(a, [])]
  | node l r =>
    (ways lf nd l).map (fun w => (w.1, w.2 ++ [(Side.right, r.hash lf nd)])) ++
      (ways lf nd r).map (fun w => (w.1, w.2 ++ [(Side.left, l.hash lf nd)]))

lemma trails_eq_map_ways (lf : α → β) (nd : β → β → β) (t : MerkleTree α) :
    t.trails lf nd = (t.ways lf nd).map fun w => (lf w.1, w.2) := by
  induction t with
  | leaf a => rfl
  | node l r hl hr => simp [trails, ways, hl, hr, comp_def]

@[simp] lemma map_fst_ways (lf : α → β) (nd : β → β → β) (t : MerkleTree α) :
    (t.ways lf nd).map Prod.fst = t.leaves := by
  induction t with
  | leaf a => rfl
  | node l r hl hr => simp [ways, leaves, comp_def, ← hl, ← hr]

lemma climb_eq (h : β) (s : Side × β) :
    climb (fun x y => H (nodeMsg x y)) h s = H (stepMsg nodeMsg h s) := by
  obtain ⟨side, d⟩ := s
  cases side <;> rfl

@[simp] lemma climbMessages_concat (h : β) (steps : List (Side × β)) (s : Side × β) :
    climbMessages H nodeMsg h (steps ++ [s]) = climbMessages H nodeMsg h steps ++
      [stepMsg nodeMsg (steps.foldl (climb fun x y => H (nodeMsg x y)) h) s] := by
  induction steps generalizing h with
  | nil => rfl
  | cons s' steps ih => simp [climbMessages, ih]

variable {H leafMsg nodeMsg}

/-- Trees with one root are the same, or two messages of theirs collide. -/
lemma eq_or_messages_collide (hleaf : Function.Injective leafMsg)
    (hnode : ∀ {a b c d}, nodeMsg a b = nodeMsg c d → a = c ∧ b = d)
    (hdisj : ∀ a x y, leafMsg a ≠ nodeMsg x y) {t t' : MerkleTree α}
    (h : t.root H leafMsg nodeMsg = t'.root H leafMsg nodeMsg) :
    t = t' ∨ ∃ m ∈ t.messages H leafMsg nodeMsg, ∃ m' ∈ t'.messages H leafMsg nodeMsg,
      m ≠ m' ∧ H m = H m' := by
  induction t generalizing t' with
  | leaf a =>
    cases t' with
    | leaf b =>
      by_cases hm : leafMsg a = leafMsg b
      · exact .inl (congrArg leaf (hleaf hm))
      · exact .inr ⟨_, mem_singleton_self _, _, mem_singleton_self _, hm, h⟩
    | node l r =>
      exact .inr ⟨_, mem_singleton_self _, _, mem_cons_self, hdisj _ _ _, h⟩
  | node l r hl hr =>
    cases t' with
    | leaf b =>
      exact .inr ⟨_, mem_cons_self, _, mem_singleton_self _, (hdisj _ _ _).symm, h⟩
    | node l' r' =>
      by_cases hm : nodeMsg (l.root H leafMsg nodeMsg) (r.root H leafMsg nodeMsg) =
        nodeMsg (l'.root H leafMsg nodeMsg) (r'.root H leafMsg nodeMsg)
      · obtain ⟨h1, h2⟩ := hnode hm
        rcases hl h1 with rfl | ⟨m, hmem, m', hmem', hcol⟩
        · rcases hr h2 with rfl | ⟨m, hmem, m', hmem', hcol⟩
          · exact .inl rfl
          · exact .inr ⟨m, by simp [messages, hmem], m', by simp [messages, hmem'], hcol⟩
        · exact .inr ⟨m, by simp [messages, hmem], m', by simp [messages, hmem'], hcol⟩
      · exact .inr ⟨_, mem_cons_self, _, mem_cons_self, hm, h⟩

variable {S : Set γ} (hinj : Set.InjOn H S)
  (hleaf : Function.Injective leafMsg)
  (hnode : ∀ {a b c d}, nodeMsg a b = nodeMsg c d → a = c ∧ b = d)
  (hdisj : ∀ a x y, leafMsg a ≠ nodeMsg x y)

include hinj hleaf hnode hdisj

lemma eq_of_hash_eq {t t' : MerkleTree α} (ht : ∀ m ∈ t.messages H leafMsg nodeMsg, m ∈ S)
    (ht' : ∀ m ∈ t'.messages H leafMsg nodeMsg, m ∈ S)
    (h : t.root H leafMsg nodeMsg = t'.root H leafMsg nodeMsg) : t = t' := by
  rcases eq_or_messages_collide hleaf hnode hdisj h with heq | ⟨m, hm, m', hm', hne, heq⟩
  · exact heq
  · exact absurd (hinj (ht m hm) (ht' m' hm') heq) hne

/-- Whoever climbs to the root has started at a leaf and used its way. -/
lemma mem_ways_of_climb {t : MerkleTree α} {x : α} {steps : List (Side × β)}
    (ht : ∀ m ∈ t.messages H leafMsg nodeMsg, m ∈ S) (hx : leafMsg x ∈ S)
    (hsteps : ∀ m ∈ climbMessages H nodeMsg (H (leafMsg x)) steps, m ∈ S)
    (h : steps.foldl (climb fun x y => H (nodeMsg x y)) (H (leafMsg x)) = t.root H leafMsg nodeMsg) :
    (x, steps) ∈ t.ways (fun a => H (leafMsg a)) fun x y => H (nodeMsg x y) := by
  induction t generalizing steps with
  | leaf a =>
    have ha := ht (leafMsg a) (by simp [messages])
    induction steps using reverseRecOn with
    | nil =>
      rw [hleaf (hinj hx ha h)]
      simp [ways]
    | append_singleton steps s _ =>
      rw [climbMessages_concat] at hsteps
      rw [foldl_append, foldl_cons, climb_eq] at h
      have he := hinj (hsteps _ (by simp)) ha h
      obtain ⟨side, d⟩ := s
      cases side <;> exact absurd he.symm (hdisj _ _ _)
  | node l r hl hr =>
    have hn := ht _ (mem_cons_self)
    induction steps using reverseRecOn with
    | nil => exact absurd (hinj hx hn h) (hdisj _ _ _)
    | append_singleton steps s _ =>
      rw [climbMessages_concat] at hsteps
      rw [foldl_append, foldl_cons, climb_eq] at h
      have he := hinj (hsteps _ (by simp)) hn h
      obtain ⟨side, d⟩ := s
      cases side with
      | right =>
        obtain ⟨h1, rfl⟩ := hnode he
        have := hl (fun m hm => ht m (by simp [messages, hm]))
          (fun m hm => hsteps m (by simp [hm])) h1
        exact mem_append_left _ (mem_map.mpr ⟨_, this, rfl⟩)
      | left =>
        obtain ⟨rfl, h2⟩ := hnode he
        have := hr (fun m hm => ht m (by simp [messages, hm]))
          (fun m hm => hsteps m (by simp [hm])) h2
        exact mem_append_right _ (mem_map.mpr ⟨_, this, rfl⟩)

end Binding

section Collisions

variable {γ : Type} (H : γ → β) (leafMsg : α → γ) (nodeMsg : β → β → γ)

/-- At some place the two trees hash different messages to one value. -/
def Collide (t t' : MerkleTree α) : Prop :=
  ∃ p ∈ (t.messages H leafMsg nodeMsg).zip (t'.messages H leafMsg nodeMsg),
    p.1 ≠ p.2 ∧ H p.1 = H p.2

variable {H leafMsg nodeMsg}

lemma not_collide_self (t : MerkleTree α) : ¬ Collide H leafMsg nodeMsg t t := by
  rintro ⟨p, hmem, hne, -⟩
  obtain ⟨i, hi, rfl⟩ := mem_iff_getElem.mp hmem
  simp at hne

lemma SameShape.length_messages {t t' : MerkleTree α} (hs : SameShape t t') :
    (t.messages H leafMsg nodeMsg).length = (t'.messages H leafMsg nodeMsg).length := by
  induction t generalizing t' with
  | leaf a =>
    cases t' with
    | leaf b => rfl
    | node l r => exact hs.elim
  | node l r hl hr =>
    cases t' with
    | leaf b => exact hs.elim
    | node l' r' => simp [messages, hl hs.1, hr hs.2]

/-- Trees of one shape with the same root are the same or collide. -/
lemma eq_or_collide (hleaf : Function.Injective leafMsg)
    (hnode : ∀ {a b c d}, nodeMsg a b = nodeMsg c d → a = c ∧ b = d) {t t' : MerkleTree α}
    (hs : SameShape t t') (h : t.root H leafMsg nodeMsg = t'.root H leafMsg nodeMsg) :
    t = t' ∨ Collide H leafMsg nodeMsg t t' := by
  induction t generalizing t' with
  | leaf a =>
    cases t' with
    | leaf b =>
      by_cases hm : leafMsg a = leafMsg b
      · exact .inl (congrArg leaf (hleaf hm))
      · exact .inr ⟨(leafMsg a, leafMsg b), by simp [messages], hm, h⟩
    | node l r => exact hs.elim
  | node l r hl hr =>
    cases t' with
    | leaf b => exact hs.elim
    | node l' r' =>
      have hzip : ∀ p, p ∈ (l.messages H leafMsg nodeMsg).zip (l'.messages H leafMsg nodeMsg) ∨
          p ∈ (r.messages H leafMsg nodeMsg).zip (r'.messages H leafMsg nodeMsg) →
          p ∈ ((node l r).messages H leafMsg nodeMsg).zip
            ((node l' r').messages H leafMsg nodeMsg) := by
        intro p hp
        rw [messages, messages, zip_cons_cons, zip_append hs.1.length_messages]
        exact mem_cons_of_mem _ (mem_append.mpr hp)
      by_cases hm : nodeMsg (l.root H leafMsg nodeMsg) (r.root H leafMsg nodeMsg) =
        nodeMsg (l'.root H leafMsg nodeMsg) (r'.root H leafMsg nodeMsg)
      · obtain ⟨h1, h2⟩ := hnode hm
        rcases hl hs.1 h1 with rfl | ⟨p, hp, hcol⟩
        · rcases hr hs.2 h2 with rfl | ⟨p, hp, hcol⟩
          · exact .inl rfl
          · exact .inr ⟨p, hzip p (.inr hp), hcol⟩
        · exact .inr ⟨p, hzip p (.inl hp), hcol⟩
      · exact .inr ⟨(_, _), mem_cons_self, hm, h⟩

end Collisions

end MerkleTree

end ShardingBC
