import Mathlib.Data.List.Basic
import Mathlib.Data.Option.Basic
import Mathlib.Logic.Function.Basic
import Mathlib.Tactic

/-!
# The concurrent list

`CList` of `libs/clist`, a doubly linked list whose elements stay usable after they have left it.
Elements are numbered in the order of their creation. A wait group that is finished a second time
panics, which is `none`, as are the checks of `Remove`. No list reaches the maximal length.
-/
namespace ShardingBC

open Function List Option

structure CElement (α : Type) where
  prev : Option ℕ
  prevWaiting : Bool
  next : Option ℕ
  nextWaiting : Bool
  removed : Bool
  value : α

namespace CElement

variable {α : Type}

def setNext (e : CElement α) (next : Option ℕ) : Option (CElement α) :=
  match e.next, next with
  | some _, none => some { e with next := none, nextWaiting := true }
  | none, some i =>
    if e.nextWaiting then some { e with next := some i, nextWaiting := false } else none
  | _, _ => some { e with next := next }

def setPrev (e : CElement α) (prev : Option ℕ) : Option (CElement α) :=
  match e.prev, prev with
  | some _, none => some { e with prev := none, prevWaiting := true }
  | none, some i =>
    if e.prevWaiting then some { e with prev := some i, prevWaiting := false } else none
  | _, _ => some { e with prev := prev }

def setRemoved (e : CElement α) : Option (CElement α) :=
  if (e.prev = none ∧ e.prevWaiting = false) ∨ (e.next = none ∧ e.nextWaiting = false) then none
  else some { e with
    removed := true
    prevWaiting := if e.prev = none then false else e.prevWaiting
    nextWaiting := if e.next = none then false else e.nextWaiting }

/-- The element is in a list between the two neighbours. -/
structure Linked (e : CElement α) (p n : Option ℕ) : Prop where
  prev : e.prev = p
  next : e.next = n
  prevWaiting : e.prevWaiting = p.isNone
  nextWaiting : e.nextWaiting = n.isNone
  removed : e.removed = false

variable {e : CElement α} {p n : Option ℕ}

lemma Linked.setNext (h : e.Linked p n) (n' : Option ℕ) :
    ∃ e', e.setNext n' = some e' ∧ e'.Linked p n' ∧ e'.value = e.value := by
  refine ⟨{ e with next := n', nextWaiting := n'.isNone }, ?_,
    ⟨h.prev, rfl, h.prevWaiting, rfl, h.removed⟩, rfl⟩
  have hnext := h.next
  have hwait := h.nextWaiting
  cases n <;> cases n' <;> simp_all [CElement.setNext]

lemma Linked.setPrev (h : e.Linked p n) (p' : Option ℕ) :
    ∃ e', e.setPrev p' = some e' ∧ e'.Linked p' n ∧ e'.value = e.value := by
  refine ⟨{ e with prev := p', prevWaiting := p'.isNone }, ?_,
    ⟨rfl, h.next, rfl, h.nextWaiting, h.removed⟩, rfl⟩
  have hprev := h.prev
  have hwait := h.prevWaiting
  cases p <;> cases p' <;> simp_all [CElement.setPrev]

lemma Linked.setRemoved (h : e.Linked p n) :
    ∃ e', e.setRemoved = some e' ∧ e'.value = e.value := by
  unfold CElement.setRemoved
  rw [if_neg]
  · exact ⟨_, rfl, rfl⟩
  · rw [h.prev, h.next, h.prevWaiting, h.nextWaiting]
    rintro (⟨rfl, hf⟩ | ⟨rfl, hf⟩) <;> cases hf

end CElement

structure CList (α : Type) where
  elements : ℕ → Option (CElement α)
  created : ℕ
  waiting : Bool
  head : Option ℕ
  tail : Option ℕ
  len : ℤ

namespace CList

variable {α : Type}

def new : CList α := ⟨fun _ => none, 0, true, none, none, 0⟩

def modify (l : CList α) (i : ℕ) (f : CElement α → Option (CElement α)) : Option (CList α) := do
  let e ← l.elements i
  let e' ← f e
  some { l with elements := Function.update l.elements i (some e') }

/-- `PushBack`, with the new element. -/
def pushBack (l : CList α) (v : α) : Option (CList α × ℕ) :=
  if l.len = 0 ∧ l.waiting = false then none
  else
    let i := l.created
    let l := { l with
      elements := Function.update l.elements i (some ⟨none, true, none, true, false, v⟩)
      created := i + 1
      waiting := if l.len = 0 then false else l.waiting
      len := l.len + 1 }
    match l.tail with
    | none => some ({ l with head := some i, tail := some i }, i)
    | some t => do
        let l ← l.modify i fun e => e.setPrev (some t)
        let l ← l.modify t fun e => e.setNext (some i)
        some ({ l with tail := some i }, i)

def linkNext (l : CList α) (prev next : Option ℕ) : Option (CList α) :=
  match prev with
  | none => some { l with head := next }
  | some p => l.modify p fun e => e.setNext next

def linkPrev (l : CList α) (next prev : Option ℕ) : Option (CList α) :=
  match next with
  | none => some { l with tail := prev }
  | some n => l.modify n fun e => e.setPrev prev

def remove (l : CList α) (i : ℕ) : Option (CList α) := do
  let e ← l.elements i
  if l.head = none ∨ l.tail = none ∨ (e.prev = none ∧ l.head ≠ some i) ∨
      (e.next = none ∧ l.tail ≠ some i) then none
  else
    let l := { l with
      waiting := if l.len = 1 then true else l.waiting
      len := l.len - 1 }
    let l ← l.linkNext e.prev e.next
    let l ← l.linkPrev e.next e.prev
    l.modify i CElement.setRemoved

def value (l : CList α) (i : ℕ) : Option α := (l.elements i).map CElement.value

/-- Writes through the value, which is a pointer. -/
def setValue (l : CList α) (i : ℕ) (f : α → α) : Option (CList α) :=
  l.modify i fun e => some { e with value := f e.value }

/-- The elements from one on, along `Next`. -/
def walk (l : CList α) : ℕ → Option ℕ → List ℕ
  | 0, _ => []
  | _, none => []
  | fuel + 1, some i => i :: l.walk fuel ((l.elements i).bind CElement.next)

/-- The loop from `Front` along `Next`; no element is visited twice. -/
def traverse (l : CList α) : List ℕ := l.walk l.created l.head

/-- The elements are linked in this order, between the two neighbours. -/
def Seg (elements : ℕ → Option (CElement α)) : Option ℕ → List ℕ → Option ℕ → Prop
  | _, [], _ => True
  | p, i :: is, n =>
    (∃ e, elements i = some e ∧ e.Linked p (is.head?.or n)) ∧ Seg elements (some i) is n

variable {elements elements' : ℕ → Option (CElement α)} {p n : Option ℕ} {is js : List ℕ}

lemma Seg.imp (h : Seg elements p is n)
    (he : ∀ i ∈ is, ∀ e p n, elements i = some e → e.Linked p n →
      ∃ e', elements' i = some e' ∧ e'.Linked p n) : Seg elements' p is n := by
  induction is generalizing p with
  | nil => trivial
  | cons i is ih =>
    obtain ⟨⟨e, hi, hlinked⟩, hrest⟩ := h
    exact ⟨he i (by simp) e _ _ hi hlinked, ih hrest fun j hj => he j (by simp [hj])⟩

lemma Seg.congr (h : Seg elements p is n) (he : ∀ i ∈ is, elements' i = elements i) :
    Seg elements' p is n :=
  h.imp fun i hi e _ _ heq hlinked => ⟨e, (he i hi).trans heq, hlinked⟩

lemma Seg.exists (h : Seg elements p is n) {i : ℕ} (hi : i ∈ is) : ∃ e, elements i = some e := by
  induction is generalizing p with
  | nil => simp at hi
  | cons j is ih =>
    obtain ⟨⟨e, hj, -⟩, hrest⟩ := h
    rcases mem_cons.1 hi with rfl | hi
    · exact ⟨e, hj⟩
    · exact ih hrest hi

lemma Seg.update (h : Seg elements p is n) {i : ℕ} (hi : i ∉ is) (e : Option (CElement α)) :
    Seg (Function.update elements i e) p is n := by
  apply h.congr
  intro j hj
  exact update_of_ne (fun he : j = i => hi (he ▸ hj)) _ _

lemma seg_append : Seg elements p (is ++ js) n ↔
    Seg elements p is (js.head?.or n) ∧ Seg elements (is.getLast?.or p) js n := by
  induction is generalizing p with
  | nil => simp [Seg]
  | cons i is ih =>
    rw [cons_append, Seg, Seg, ih, and_assoc]
    have hhead : (is ++ js).head?.or n = is.head?.or (js.head?.or n) := by
      cases is <;> rfl
    have hlast : (i :: is).getLast?.or p = is.getLast?.or (some i) := by
      cases is with
      | nil => rfl
      | cons j is => simp [getLast?_cons]
    rw [hhead, hlast]

lemma seg_concat {t : ℕ} : Seg elements p (is ++ [t]) n ↔
    Seg elements p is (some t) ∧ ∃ e, elements t = some e ∧ e.Linked (is.getLast?.or p) n := by
  rw [seg_append]
  simp [Seg]

/-- The list has these elements, in this order. -/
structure Holds (l : CList α) (is : List ℕ) : Prop where
  nodup : is.Nodup
  created : ∀ i ∈ is, i < l.created
  seg : Seg l.elements none is none
  head : l.head = is.head?
  tail : l.tail = is.getLast?
  len : l.len = is.length
  waiting : l.waiting = decide (is = [])

variable {l : CList α}

lemma modify_eq {i : ℕ} {e e' : CElement α} {f : CElement α → Option (CElement α)}
    (hi : l.elements i = some e) (hf : f e = some e') :
    l.modify i f = some { l with elements := Function.update l.elements i (some e') } := by
  simp [modify, hi, hf]

lemma map_value_update {i : ℕ} {e e' : CElement α} (hi : elements i = some e)
    (he : e'.value = e.value) (j : ℕ) :
    (Function.update elements i (some e') j).map CElement.value =
      (elements j).map CElement.value := by
  by_cases hj : j = i
  · subst hj
    rw [update_self, hi, map_some, map_some, he]
  · rw [update_of_ne hj]

lemma Holds.setValue (h : l.Holds is) {i : ℕ} (hi : i ∈ is) (f : α → α) :
    ∃ l', l.setValue i f = some l' ∧ l'.Holds is ∧ l'.created = l.created ∧
      ∀ j, l'.value j = if j = i then (l.value j).map f else l.value j := by
  obtain ⟨e, he⟩ := h.seg.exists hi
  rw [CList.setValue, modify_eq (f := fun x => some { x with value := f x.value }) he rfl]
  refine ⟨_, rfl, ⟨h.nodup, h.created, ?_, h.head, h.tail, h.len, h.waiting⟩, rfl, ?_⟩
  · apply h.seg.imp
    intro j _ x p n hx hlinked
    by_cases hj : j = i
    · subst hj
      rw [he] at hx
      cases hx
      exact ⟨_, update_self ..,
        hlinked.prev, hlinked.next, hlinked.prevWaiting, hlinked.nextWaiting, hlinked.removed⟩
    · exact ⟨x, (update_of_ne hj _ _).trans hx, hlinked⟩
  · intro j
    unfold value
    by_cases hj : j = i
    · subst hj
      simp [he]
    · simp [hj]

lemma Seg.walk (h : Seg l.elements p is none) {fuel : ℕ} (hfuel : is.length ≤ fuel) :
    l.walk fuel is.head? = is := by
  induction is generalizing p fuel with
  | nil => cases fuel <;> rfl
  | cons i is ih =>
    cases fuel with
    | zero => simp at hfuel
    | succ fuel =>
      obtain ⟨⟨e, hi, hlinked⟩, hrest⟩ := h
      simp only [length_cons, Nat.add_le_add_iff_right] at hfuel
      rw [head?_cons, CList.walk, hi, bind_some, hlinked.next, or_none,
        ih hrest hfuel]

lemma Holds.traverse (h : l.Holds is) : l.traverse = is := by
  have hsub : is ⊆ range l.created := fun i hi => mem_range.2 (h.created i hi)
  have hlen := (h.nodup.subperm hsub).length_le
  rw [length_range] at hlen
  rw [CList.traverse, h.head, h.seg.walk hlen]

lemma Holds.pushBack (h : l.Holds is) (v : α) :
    ∃ l', l.pushBack v = some (l', l.created) ∧ l'.Holds (is ++ [l.created]) ∧
      ∀ j, l'.value j = if j = l.created then some v else l.value j := by
  have hfresh : l.created ∉ is := fun hmem => lt_irrefl _ (h.created _ hmem)
  have hnodup : (is ++ [l.created]).Nodup := by
    simp only [nodup_append, h.nodup, true_and, nodup_singleton, mem_singleton]
    rintro i hi j rfl rfl
    exact hfresh hi
  have hcreated : ∀ i ∈ is ++ [l.created], i < l.created + 1 := by
    intro i hi
    rcases mem_append.1 hi with hi | hi
    · exact lt_trans (h.created i hi) (Nat.lt_succ_self _)
    · exact mem_singleton.1 hi ▸ Nat.lt_succ_self _
  have hlen : l.len + 1 = ((is ++ [l.created]).length : ℤ) := by
    simp [h.len]
  have hwaits : ¬(l.len = 0 ∧ l.waiting = false) := by
    rintro ⟨hzero, hwait⟩
    rw [h.waiting] at hwait
    simp_all
  have hdone : (if l.len = 0 then false else l.waiting) = decide (is ++ [l.created] = []) := by
    rw [h.waiting, h.len]
    cases is <;> simp
  rcases is.eq_nil_or_concat' with rfl | ⟨as, t, rfl⟩
  · have htail : l.tail = none := h.tail
    rw [CList.pushBack, if_neg hwaits]
    simp only [htail]
    refine ⟨_, rfl, ?_, ?_⟩
    · refine ⟨hnodup, hcreated, ?_, rfl, rfl, hlen, hdone⟩
      exact ⟨⟨_, update_self .., rfl, rfl, rfl, rfl, rfl⟩, trivial⟩
    · intro j
      unfold value
      by_cases hj : j = l.created
      · subst hj
        simp
      · simp [hj]
  · have htail : l.tail = some t := by
      rw [h.tail, getLast?_concat]
    have hne : t ≠ l.created := by
      rintro rfl
      simp at hfresh
    have has : l.created ∉ as := fun hmem => hfresh (mem_append_left _ hmem)
    have ht : t ∉ as := fun hmem => by
      have := nodup_append.1 h.nodup
      exact this.2.2 t hmem t (by simp) rfl
    obtain ⟨hseg, e, he, hlinked⟩ := seg_concat.1 h.seg
    have hnew : (CElement.mk none true none true false v).Linked none none :=
      ⟨rfl, rfl, rfl, rfl, rfl⟩
    obtain ⟨x, hx, hxlinked, hxv⟩ := hnew.setPrev (some t)
    obtain ⟨y, hy, hylinked, hyv⟩ := hlinked.setNext (some l.created)
    have hc := update_self l.created
      (some (CElement.mk none true none true false v)) l.elements
    have het : update (update l.elements l.created
        (some (CElement.mk none true none true false v))) l.created (some x) t = some e := by
      rw [update_of_ne hne, update_of_ne hne, he]
    rw [CList.pushBack, if_neg hwaits]
    simp only [htail]
    rw [modify_eq (f := fun e => e.setPrev _) hc hx]
    simp only [bind_eq_bind, bind_some]
    rw [modify_eq (f := fun e => e.setNext _) het hy]
    refine ⟨_, rfl, ?_, ?_⟩
    · refine ⟨hnodup, hcreated, ?_, ?_, ?_, hlen, hdone⟩
      · rw [seg_concat, seg_concat]
        refine ⟨⟨?_, y, update_self .., hylinked⟩, x, ?_, ?_⟩
        · exact ((hseg.update has _).update has _).update ht _
        · exact (update_of_ne hne.symm _ _).trans (update_self ..)
        · simpa using hxlinked
      · simp [h.head]
      · simp
    · intro j
      unfold value
      rw [map_value_update het hyv, map_value_update hc hxv]
      by_cases hj : j = l.created
      · subst hj
        simp
      · simp [hj]

variable {i : ℕ} {as bs : List ℕ}

lemma linkNext_spec (bs : List ℕ) (hseg : Seg l.elements none as (some i)) (hnodup : as.Nodup)
    (hhead : l.head = (as ++ [i]).head?) :
    ∃ elements',
      l.linkNext as.getLast? bs.head? =
        some { l with elements := elements', head := (as ++ bs).head? } ∧
      Seg elements' none as bs.head? ∧ (∀ j, j ∉ as → elements' j = l.elements j) ∧
      ∀ j, (elements' j).map CElement.value = (l.elements j).map CElement.value := by
  rcases as.eq_nil_or_concat' with rfl | ⟨as, t, rfl⟩
  · exact ⟨l.elements, rfl, trivial, fun _ _ => rfl, fun _ => rfl⟩
  · have ht : t ∉ as := fun hmem => (nodup_append.1 hnodup).2.2 t hmem t (by simp) rfl
    obtain ⟨hseg, e, he, hlinked⟩ := seg_concat.1 hseg
    obtain ⟨y, hy, hylinked, hyv⟩ := hlinked.setNext bs.head?
    refine ⟨update l.elements t (some y), ?_, ?_, ?_, map_value_update he hyv⟩
    · rw [getLast?_concat, linkNext, modify_eq (f := fun e => e.setNext _) he hy]
      simp [hhead]
    · exact seg_concat.2 ⟨hseg.update ht _, y, update_self .., hylinked⟩
    · intro j hj
      exact update_of_ne (fun h : j = t => hj (by simp [h])) _ _

lemma linkPrev_spec (as : List ℕ) (hseg : Seg l.elements (some i) bs none) (hnodup : bs.Nodup)
    (htail : l.tail = (i :: bs).getLast?) :
    ∃ elements',
      l.linkPrev bs.head? as.getLast? =
        some { l with elements := elements', tail := (as ++ bs).getLast? } ∧
      Seg elements' as.getLast? bs none ∧ (∀ j, j ∉ bs → elements' j = l.elements j) ∧
      ∀ j, (elements' j).map CElement.value = (l.elements j).map CElement.value := by
  cases bs with
  | nil =>
    refine ⟨l.elements, ?_, trivial, fun _ _ => rfl, fun _ => rfl⟩
    simp [linkPrev]
  | cons n bs =>
    obtain ⟨⟨e, he, hlinked⟩, hseg⟩ := hseg
    obtain ⟨y, hy, hylinked, hyv⟩ := hlinked.setPrev as.getLast?
    refine ⟨update l.elements n (some y), ?_, ?_, ?_, map_value_update he hyv⟩
    · rw [head?_cons, linkPrev, modify_eq (f := fun e => e.setPrev _) he hy]
      simp [htail, getLast?_cons]
    · exact ⟨⟨y, update_self .., hylinked⟩, hseg.update (nodup_cons.1 hnodup).1 _⟩
    · intro j hj
      exact update_of_ne (fun h : j = n => hj (by simp [h])) _ _

lemma Holds.remove (h : l.Holds (as ++ i :: bs)) :
    ∃ l', l.remove i = some l' ∧ l'.Holds (as ++ bs) ∧ l'.created = l.created ∧
      ∀ j, l'.value j = l.value j := by
  have hnodup : (as ++ bs).Nodup :=
    h.nodup.sublist (List.Sublist.append_left (sublist_cons_self i bs) as)
  obtain ⟨has, hibs, hdisjoint⟩ := nodup_append.1 h.nodup
  obtain ⟨hi, hbs⟩ := nodup_cons.1 hibs
  have hias : i ∉ as := fun hmem => hdisjoint i hmem i (by simp) rfl
  obtain ⟨hleft, ⟨e, he, hlinked⟩, hright⟩ := seg_append.1 h.seg
  simp only [or_none] at hleft hlinked
  have hchecks : ¬(l.head = none ∨ l.tail = none ∨ (e.prev = none ∧ l.head ≠ some i) ∨
      (e.next = none ∧ l.tail ≠ some i)) := by
    rw [h.head, h.tail, hlinked.prev, hlinked.next]
    simp only [head?_eq_none_iff, getLast?_eq_none_iff, append_eq_nil_iff]
    rintro (⟨-, hf⟩ | ⟨-, hf⟩ | ⟨rfl, hf⟩ | ⟨rfl, hf⟩)
    · cases hf
    · cases hf
    · exact hf rfl
    · simp at hf
  have hhead : l.head = (as ++ [i]).head? := by
    rw [h.head]
    cases as <;> rfl
  have htail : l.tail = (i :: bs).getLast? := by
    rw [h.tail, getLast?_append]
    simp [getLast?_cons]
  obtain ⟨els, hels, hleft, hframe, hvalue⟩ := linkNext_spec (l := { l with
    waiting := if l.len = 1 then true else l.waiting
    len := l.len - 1 }) bs hleft has hhead
  have hright' : Seg els (some i) bs none :=
    hright.congr fun j hj => hframe j fun hmem => hdisjoint j hmem j (by simp [hj]) rfl
  obtain ⟨els', hels', hright', hframe', hvalue'⟩ := linkPrev_spec (l := CList.mk els l.created
    (if l.len = 1 then true else l.waiting) (as ++ bs).head? l.tail (l.len - 1)) as hright' hbs htail
  have hleft' : Seg els' none as bs.head? :=
    hleft.congr fun j hj => hframe' j fun hmem => hdisjoint j hj j (by simp [hmem]) rfl
  have hei : els' i = some e := by
    rw [hframe' i hi]
    exact (hframe i hias).trans he
  obtain ⟨e', he', hev⟩ := hlinked.setRemoved
  rw [CList.remove, he]
  simp only [bind_eq_bind, bind_some]
  rw [if_neg hchecks, hlinked.prev, hlinked.next, hels]
  simp only [bind_some]
  rw [hels']
  simp only [bind_some]
  rw [modify_eq hei he']
  refine ⟨_, rfl, ⟨hnodup, ?_, ?_, rfl, rfl, ?_, ?_⟩, rfl, ?_⟩
  · intro j hj
    exact h.created j (by simp at hj ⊢; tauto)
  · have hseg : Seg els' none (as ++ bs) none := by
      rw [seg_append, or_none, or_none]
      exact ⟨hleft', hright'⟩
    exact hseg.update (by simp [hi, hias]) _
  · have := h.len
    simp only [length_append, length_cons] at this ⊢
    omega
  · have hlen := h.len
    simp only [length_append, length_cons] at hlen
    have hone : l.len = 1 ↔ as ++ bs = [] := by
      rw [append_eq_nil_iff, ← length_eq_zero_iff, ← length_eq_zero_iff]
      omega
    rw [h.waiting]
    by_cases hnil : as ++ bs = []
    · simp [hone.2 hnil, hnil]
    · simp [hnil, mt hone.1 hnil]
  · intro j
    exact (map_value_update hei hev j).trans ((hvalue' j).trans (hvalue j))

lemma Holds.foldlM_remove (h : l.Holds is) (hnodup : js.Nodup) (hsub : js ⊆ is) :
    ∃ l', js.foldlM CList.remove l = some l' ∧ l'.Holds (is.filter fun i => i ∉ js) ∧
      ∀ j, l'.value j = l.value j := by
  induction js generalizing l is with
  | nil => exact ⟨l, rfl, by simpa using h, fun _ => rfl⟩
  | cons i js ih =>
    obtain ⟨hi, hjs⟩ := nodup_cons.1 hnodup
    obtain ⟨as, bs, rfl⟩ := append_of_mem (hsub (mem_cons_self ..))
    obtain ⟨l1, hl1, hholds, -, hvalue⟩ := h.remove
    have hsub' : js ⊆ as ++ bs := by
      intro j hj
      have hmem := hsub (mem_cons_of_mem i hj)
      have hne : j ≠ i := fun he => hi (he ▸ hj)
      simpa [hne] using hmem
    obtain ⟨l2, hl2, hholds2, hvalue2⟩ := ih hholds hjs hsub'
    refine ⟨l2, ?_, ?_, fun j => (hvalue2 j).trans (hvalue j)⟩
    · rw [foldlM_cons, hl1]
      exact hl2
    · have hmid := nodup_middle.1 h.nodup
      have hlist : (as ++ i :: bs).filter (fun j => j ∉ i :: js) =
          (as ++ bs).filter fun j => j ∉ js := by
        have hkeep : ∀ j ∈ as ++ bs, decide (j ∉ i :: js) = decide (j ∉ js) := by
          intro j hj
          have hne : j ≠ i := fun he => (nodup_cons.1 hmid).1 (he ▸ hj)
          simp [hne]
        rw [filter_append, filter_cons_of_neg (by simp), ← filter_append, filter_congr hkeep]
      rw [hlist]
      exact hholds2

variable {l' : CList α}

lemma modify_frame {f : CElement α → Option (CElement α)} (h : l.modify i f = some l') :
    l'.len = l.len ∧ l'.created = l.created := by
  obtain ⟨e, -, h⟩ := bind_eq_some_iff.mp h
  obtain ⟨e', -, h⟩ := bind_eq_some_iff.mp h
  cases h
  exact ⟨rfl, rfl⟩

lemma linkNext_frame (h : l.linkNext p n = some l') :
    l'.len = l.len ∧ l'.created = l.created := by
  cases p with
  | none =>
    cases h
    exact ⟨rfl, rfl⟩
  | some i => exact modify_frame h

lemma linkPrev_frame (h : l.linkPrev n p = some l') :
    l'.len = l.len ∧ l'.created = l.created := by
  cases n with
  | none =>
    cases h
    exact ⟨rfl, rfl⟩
  | some i => exact modify_frame h

lemma created_pushBack {v : α} {r : CList α × ℕ} (h : l.pushBack v = some r) :
    r.1.created = l.created + 1 := by
  unfold CList.pushBack at h
  split at h
  · cases h
  cases htail : l.tail with
  | none =>
    simp only [htail, some.injEq] at h
    rw [← h]
  | some t =>
    simp only [htail] at h
    obtain ⟨l₁, h₁, h⟩ := bind_eq_some_iff.mp h
    obtain ⟨l₂, h₂, h⟩ := bind_eq_some_iff.mp h
    cases h
    exact (modify_frame h₂).2.trans (modify_frame h₁).2

/-- Every removal counts, also of an element that has left the list. -/
lemma remove_frame (h : l.remove i = some l') :
    l'.len = l.len - 1 ∧ l'.created = l.created := by
  obtain ⟨e, -, h⟩ := bind_eq_some_iff.mp h
  split at h
  · cases h
  obtain ⟨l₁, h₁, h⟩ := bind_eq_some_iff.mp h
  obtain ⟨l₂, h₂, h⟩ := bind_eq_some_iff.mp h
  rw [(modify_frame h).1, (modify_frame h).2, (linkPrev_frame h₂).1, (linkPrev_frame h₂).2]
  exact linkNext_frame h₁

lemma foldlM_remove_frame (h : js.foldlM CList.remove l = some l') :
    l'.len = l.len - js.length ∧ l'.created = l.created := by
  induction js generalizing l with
  | nil =>
    cases h
    simp
  | cons j js ih =>
    obtain ⟨l₁, h₁, h⟩ := bind_eq_some_iff.mp h
    obtain ⟨hlen, hcreated⟩ := remove_frame h₁
    rw [(ih h).1, (ih h).2, hlen, hcreated, length_cons]
    refine ⟨?_, rfl⟩
    push_cast
    ring

end CList

end ShardingBC
