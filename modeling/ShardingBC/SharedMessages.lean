import ShardingBC.Interleaving
import ShardingBC.Receipts

/-!
# The pending messages in memory

`cmDB.CrossMessages` is a slice of pointers that the consensus goroutine and the handlers of RPC and
gossip use without a lock. The three functions on it are given action by action: each load of the
slice header, each load and store of a cell of a backing array, each access to an entry. Appending
grows the backing array as the runtime chooses.
-/
namespace ShardingBC.SharedMessages

open Interleaving List
open Interleaving.Prog (action read)

/-- A slice header; address 0 is the nil pointer. -/
structure Slice where
  arr : ℕ
  off : ℕ
  len : ℕ
  cap : ℕ
deriving DecidableEq

/-- The backing arrays, the number of addresses in use, the entries that the pointers point to, and
the header `mem.cmDB.CrossMessages`. -/
structure Heap where
  cells : ℕ → ℕ → Option ℕ
  arrays : ℕ
  entries : List CrossMessage
  slice : Slice

namespace Heap

def setCell (a i : ℕ) (p : Option ℕ) (h : Heap) : Heap :=
  { h with cells := fun b j => if b = a ∧ j = i then p else h.cells b j }

/-- What a pointer points to. -/
def load (h : Heap) (p : Option ℕ) : Option CrossMessage := p.bind fun q => h.entries[q]?

def setHeight (p : Option ℕ) (height : Int64) (h : Heap) : Heap :=
  { h with entries := h.entries.mapIdx fun q e =>
      if p = some q then { e with height := height } else e }

/-- The entries of the slice. -/
def list (h : Heap) : List CrossMessage :=
  (List.range h.slice.len).filterMap fun i => h.load (h.cells h.slice.arr (h.slice.off + i))

end Heap

def header : Prog Heap Slice := read Heap.slice

def setHeader (s : Slice) : Prog Heap Unit :=
  action (fun _ => true) (fun h => { h with slice := s }) fun _ => ()

def loadCell (a i : ℕ) : Prog Heap (Option ℕ) := read fun h => h.cells a i

def storeCell (a i : ℕ) (p : Option ℕ) : Prog Heap Unit :=
  action (fun _ => true) (Heap.setCell a i p) fun _ => ()

/-- A new backing array, of which nothing is used yet. -/
def newArray : Prog Heap ℕ :=
  action (fun _ => true) (fun h => { h with arrays := h.arrays + 1 }) Heap.arrays

def newEntry (e : CrossMessage) : Prog Heap ℕ :=
  action (fun _ => true) (fun h => { h with entries := h.entries ++ [e] }) fun h =>
    h.entries.length

/-- The cell of a loaded header; an index out of range panics. -/
def fetch (s : Slice) (i : ℕ) : Prog Heap (Option ℕ) :=
  action (fun _ => i < s.len) id fun h => h.cells s.arr (s.off + i)

/-- `mem.cmDB.CrossMessages[i]`. -/
def index (i : ℕ) : Prog Heap (Option ℕ) := do
  let s ← header
  fetch s i

/-- The entry behind a pointer; nil panics. -/
def deref (p : Option ℕ) : Prog Heap CrossMessage :=
  action (fun h => (h.load p).isSome) id fun h => (h.load p).getD ⟨CrossMessages.zero, 0⟩

def entryAt (i : ℕ) : Prog Heap CrossMessage := do
  let p ← index i
  deref p

def storeHeight (p : Option ℕ) (height : Int64) : Prog Heap Unit :=
  action (fun h => (h.load p).isSome) (Heap.setHeight p height) fun _ => ()

/-- `s[lo:hi]` of a loaded header; bounds out of range panic. -/
def reslice (s : Slice) (lo hi : ℕ) : Prog Heap Slice :=
  action (fun _ => lo ≤ hi && hi ≤ s.cap) id fun _ => ⟨s.arr, s.off + lo, hi - lo, s.cap - lo⟩

/-- Copies the cells one after the other, in rising order. -/
def copyCells (src : Slice) (a start : ℕ) : List ℕ → Prog Heap Unit
  | [] => pure ()
  | k :: ks => do
      let p ← loadCell src.arr (src.off + k)
      storeCell a (start + k) p
      copyCells src a start ks

section Grow

/- The capacity that the runtime chooses for an old capacity and the length it needs. -/
variable (grow : ℕ → ℕ → ℕ)

/-- `append(front, p)`. -/
def appendOne (front : Slice) (p : ℕ) : Prog Heap Slice :=
  if front.len + 1 ≤ front.cap then do
    storeCell front.arr (front.off + front.len) (some p)
    return { front with len := front.len + 1 }
  else do
    let a ← newArray
    copyCells front a 0 (List.range front.len)
    storeCell a front.len (some p)
    return ⟨a, 0, front.len + 1, grow front.cap (front.len + 1)⟩

/-- `append(front, back...)`. -/
def appendSlice (front back : Slice) : Prog Heap Slice :=
  if front.len + back.len ≤ front.cap then do
    copyCells back front.arr (front.off + front.len) (List.range back.len)
    return { front with len := front.len + back.len }
  else do
    let a ← newArray
    copyCells front a 0 (List.range front.len)
    copyCells back a front.len (List.range back.len)
    return ⟨a, 0, front.len + back.len, grow front.cap (front.len + back.len)⟩

/-- Where a function goes on: `AddCrossMessagesDB`, the scan of `RemoveCrossMessagesDB` for the
first of the packages left, and the loop of `UpdatecmDB` with the messages collected. -/
inductive Point where
  | add (tcm : CrossMessages)
  | remove (packs : List Package) (i : ℕ)
  | update (i : ℕ) (scm : List CrossMessages)

/-- One pass of a function from a point to the next or to its result. -/
def body : Point → Prog Heap (Point ⊕ List CrossMessages)
  | .add tcm => do
      let cm ← newEntry ⟨tcm, 0⟩
      let s ← header
      let s' ← appendOne grow s cm
      setHeader s'
      return .inr []
  | .remove [] _ => return .inr []
  | .remove (pack :: packs) i => do
      let s ← header
      if i < s.len then
        let e ← entryAt i
        if e.content.height = pack.height then
          let e ← entryAt i
          if e.content.crossMerkleRoot.getD [] = pack.crossMerkleRoot.getD [] then
            -- the identifier and the time stamp for the log
            let _ ← entryAt i
            let _ ← entryAt i
            let s ← header
            let front ← reslice s 0 i
            let s ← header
            let back ← reslice s (i + 1) s.len
            let s' ← appendSlice grow front back
            setHeader s'
            return .inl (.remove packs 0)
          else return .inl (.remove (pack :: packs) (i + 1))
        else return .inl (.remove (pack :: packs) (i + 1))
      else return .inl (.remove packs 0)
  | .update i scm => do
      let s ← header
      if i < s.len then
        let s ← header
        if s.arr ≠ 0 then
          let e ← entryAt i
          if e.height = 0 then
            let e ← entryAt i
            let p ← index i
            let x ← deref p
            storeHeight p (x.height + 1)
            return .inl (.update (i + 1) (scm ++ [e.content]))
          else
            let e ← entryAt i
            if e.height = 20 then
              let e ← entryAt i
              let p ← index i
              storeHeight p 1
              return .inl (.update (i + 1) (scm ++ [e.content]))
            else
              let p ← index i
              let x ← entryAt i
              storeHeight p (x.height + 1)
              return .inl (.update (i + 1) scm)
        else return .inl (.update (i + 1) scm)
      else return .inr scm

end Grow

namespace Heap

/-- What the pointer points to, for valid pointers. -/
def entry (h : Heap) (q : ℕ) : CrossMessage := (h.load (some q)).getD ⟨CrossMessages.zero, 0⟩

/-- The messages of the slice without their counters. -/
def contents (h : Heap) : List CrossMessages := h.list.map CrossMessage.content

/-- The slice holds these pointers, each to an entry of its own. -/
structure Holds (h : Heap) (ps : List ℕ) : Prop where
  off : h.slice.off = 0
  len : h.slice.len = ps.length
  cap : ps.length ≤ h.slice.cap
  cell : ∀ i < ps.length, h.cells h.slice.arr i = ps[i]?
  nodup : ps.Nodup
  valid : ∀ q ∈ ps, q < h.entries.length
  nonnil : 0 < h.slice.cap → h.slice.arr ≠ 0
  used : h.slice.arr < h.arrays
  fresh : ∀ a, h.arrays ≤ a → ∀ i, h.cells a i = none

variable {h h' : Heap} {ps : List ℕ} {q : ℕ}

lemma load_of_lt (hq : q < h.entries.length) : h.load (some q) = some (h.entry q) := by
  simp [entry, load, getElem?_eq_getElem hq]

lemma isSome_load (hq : q < h.entries.length) : (h.load (some q)).isSome = true := by
  rw [load_of_lt hq]
  rfl

lemma Holds.list_eq (hh : h.Holds ps) : h.list = ps.map h.entry := by
  have hload : ∀ i ∈ range ps.length,
      h.load (h.cells h.slice.arr (h.slice.off + i)) =
        some ((ps.map h.entry).getD i ⟨CrossMessages.zero, 0⟩) := by
    intro i hi
    have hi : i < ps.length := mem_range.mp hi
    rw [hh.off, Nat.zero_add, hh.cell i hi, getElem?_eq_getElem hi,
      load_of_lt (hh.valid _ (getElem_mem hi))]
    simp [hi]
  rw [list, hh.len, filterMap_congr hload]
  apply ext_getElem
  · simp
  · intro i hi _
    simp at hi
    simp [hi]

lemma Holds.contents_eq (hh : h.Holds ps) : h.contents = ps.map fun q => (h.entry q).content := by
  rw [contents, hh.list_eq, map_map]
  rfl

lemma Holds.length_contents (hh : h.Holds ps) : h.contents.length = ps.length := by
  simp [hh.contents_eq]

lemma Holds.cell_eq (hh : h.Holds ps) {i : ℕ} (hi : i < ps.length) :
    h.cells h.slice.arr (h.slice.off + i) = some ps[i] := by
  rw [hh.off, Nat.zero_add, hh.cell i hi, getElem?_eq_getElem hi]

lemma Holds.get_lt (hh : h.Holds ps) {i : ℕ} (hi : i < ps.length) :
    ps[i] < h.entries.length := hh.valid _ (getElem_mem hi)

end Heap

/-- The cells that a reader may have a header for and the entries stay, and the slice is at most
extended. -/
structure Rely (h h' : Heap) : Prop where
  cells : ∀ a i q, (a ≠ h.slice.arr ∨ i < h.slice.len) → h.cells a i = some q →
    h'.cells a i = some q ∧ (a ≠ h'.slice.arr ∨ i < h'.slice.len)
  entries : ∀ q < h.entries.length,
    q < h'.entries.length ∧ (h'.entry q).content = (h.entry q).content
  contents : h.contents <+: h'.contents

lemma Rely.refl (h : Heap) : Rely h h :=
  ⟨fun _ _ _ ha hc => ⟨hc, ha⟩, fun _ hq => ⟨hq, rfl⟩, prefix_rfl⟩

lemma Rely.trans {h₁ h₂ h₃ : Heap} (h12 : Rely h₁ h₂) (h23 : Rely h₂ h₃) : Rely h₁ h₃ where
  cells a i q ha hc := by
    obtain ⟨hc', ha'⟩ := h12.cells a i q ha hc
    exact h23.cells a i q ha' hc'
  entries q hq := by
    obtain ⟨hq', he⟩ := h12.entries q hq
    obtain ⟨hq'', he'⟩ := h23.entries q hq'
    exact ⟨hq'', he'.trans he⟩
  contents := h12.contents.trans h23.contents

/-- What a consensus call alone keeps with each action; the slice is extended by the given messages
at most. -/
structure Guarantee (extras : List CrossMessages) (h h' : Heap) : Prop where
  rely : Rely h h'
  holds : ∃ ps, h'.Holds ps
  only : ∀ c ∈ h'.contents, c ∈ h.contents ∨ c ∈ extras

section Steps

variable {h : Heap} {ps : List ℕ} {extras : List CrossMessages}

/-- An action that leaves the pointers of the slice as they are. -/
lemma guarantee_of_same {h' : Heap} (hh : h.Holds ps) (hh' : h'.Holds ps)
    (hslice : h'.slice = h.slice)
    (hcells : ∀ a i q, (a ≠ h.slice.arr ∨ i < h.slice.len) → h.cells a i = some q →
      h'.cells a i = some q)
    (hentries : ∀ q < h.entries.length,
      q < h'.entries.length ∧ (h'.entry q).content = (h.entry q).content) :
    Guarantee extras h h' := by
  have hcontents : h'.contents = h.contents := by
    rw [hh.contents_eq, hh'.contents_eq]
    exact map_congr_left fun q hq => (hentries q (hh.valid q hq)).2
  refine ⟨⟨?_, hentries, ?_⟩, ⟨ps, hh'⟩, ?_⟩
  · intro a i q ha hc
    rw [hslice]
    exact ⟨hcells a i q ha hc, ha⟩
  · rw [hcontents]
  · intro c hc
    rw [hcontents] at hc
    exact Or.inl hc

lemma guarantee_refl (hh : h.Holds ps) : Guarantee extras h h :=
  ⟨Rely.refl h, ⟨ps, hh⟩, fun _ => Or.inl⟩

lemma holds_newEntry (hh : h.Holds ps) (e : CrossMessage) :
    ({ h with entries := h.entries ++ [e] } : Heap).Holds ps :=
  { hh with
    valid := by
      intro q hq
      have := hh.valid q hq
      simp
      omega }

lemma entry_newEntry (e : CrossMessage) {q : ℕ} (hq : q < h.entries.length) :
    ({ h with entries := h.entries ++ [e] } : Heap).entry q = h.entry q := by
  simp [Heap.entry, Heap.load, getElem?_append_left hq]

lemma guarantee_newEntry (hh : h.Holds ps) (e : CrossMessage) :
    Guarantee extras h { h with entries := h.entries ++ [e] } := by
  refine guarantee_of_same hh (holds_newEntry hh e) rfl (fun _ _ _ _ hc => hc) fun q hq => ?_
  rw [entry_newEntry e hq]
  simp
  omega

/-- A store to a cell that no reader has a header for. -/
lemma holds_setCell (hh : h.Holds ps) {a i : ℕ} {p : Option ℕ} (ha : a < h.arrays)
    (hfree : a = h.slice.arr → ps.length ≤ i) : (h.setCell a i p).Holds ps :=
  { hh with
    cell := by
      intro j hj
      show (if h.slice.arr = a ∧ j = i then p else h.cells h.slice.arr j) = _
      rw [if_neg ?_]
      · exact hh.cell j hj
      · omega
    fresh := by
      intro b hb j
      show (if b = a ∧ j = i then p else h.cells b j) = none
      rw [if_neg ?_]
      · exact hh.fresh b hb j
      · rintro ⟨rfl, -⟩
        exact absurd hb (not_le.mpr ha) }

lemma guarantee_setCell (hh : h.Holds ps) {a i : ℕ} {p : Option ℕ} (ha : a < h.arrays)
    (hfree : a = h.slice.arr → ps.length ≤ i) (hnone : a ≠ h.slice.arr → h.cells a i = none) :
    Guarantee extras h (h.setCell a i p) := by
  refine guarantee_of_same hh (holds_setCell hh ha hfree) rfl ?_ fun q hq => ⟨hq, rfl⟩
  intro b j q hb hc
  show (if b = a ∧ j = i then p else h.cells b j) = some q
  rw [if_neg ?_]
  · exact hc
  · rintro ⟨rfl, rfl⟩
    rcases hb with hb | hj
    · rw [hnone hb] at hc
      cases hc
    · by_cases hb : b = h.slice.arr
      · have := hh.len
        omega
      · rw [hnone hb] at hc
        cases hc

lemma holds_newArray (hh : h.Holds ps) : ({ h with arrays := h.arrays + 1 } : Heap).Holds ps :=
  { hh with
    used := Nat.lt_succ_of_lt hh.used
    fresh := fun a ha => hh.fresh a (Nat.le_of_succ_le ha) }

end Steps

end ShardingBC.SharedMessages
