import ShardingBC.SharedMessages

/-!
# The functions on the pending messages, alone and beside others

Undisturbed, the three functions do to the slice what their sequential models do to the list. While
adding and updating, each action leaves what a reader may have a header for; so a removal whose
packages name nothing can run beside them.
-/
namespace ShardingBC.SharedMessages

open Interleaving List Option

/-! ## Actions on a heap that nobody disturbs -/

section Actions

variable {h : Heap} {ps : List ℕ} {G : Heap → Heap → Prop} {α : Type} {Q : α → Heap → Prop}

lemma does_index (hh : h.Holds ps) (hG : G h h) {i : ℕ} (hi : i < ps.length)
    {k : Option ℕ → Prog Heap α} (hk : (k (some ps[i])).Does G Q h) :
    ((index i).bind k).Does G Q h := by
  rw [Prog.does_bind, index, Prog.bind_eq, header, Prog.does_read]
  refine ⟨hG, ?_⟩
  rw [← Prog.does_bind, fetch, Prog.does_action, hh.cell_eq hi]
  exact ⟨by simpa [hh.len] using hi, hG, hk⟩

lemma does_deref (hG : G h h) {q : ℕ} (hq : q < h.entries.length)
    {k : CrossMessage → Prog Heap α} (hk : (k (h.entry q)).Does G Q h) :
    ((deref (some q)).bind k).Does G Q h := by
  rw [deref, Prog.does_action]
  exact ⟨Heap.isSome_load hq, hG, hk⟩

lemma does_entryAt (hh : h.Holds ps) (hG : G h h) {i : ℕ} (hi : i < ps.length)
    {k : CrossMessage → Prog Heap α} (hk : (k (h.entry ps[i])).Does G Q h) :
    ((entryAt i).bind k).Does G Q h := by
  rw [Prog.does_bind]
  apply does_index hh hG hi
  exact does_deref hG (hh.get_lt hi) hk

end Actions

/-! ## `AddCrossMessagesDB` -/

section Add

variable {h : Heap} {ps : List ℕ} {extras : List CrossMessages}

/-- The heap after the pointers from the `k`-th on are copied to a new array. -/
def copied (h : Heap) (a k n : ℕ) : Heap :=
  { h with cells := fun b j =>
      if b = a ∧ k ≤ j ∧ j < k + n then h.cells h.slice.arr j else h.cells b j }

lemma cells_copied (h : Heap) (a k n b j : ℕ) : (copied h a k n).cells b j =
    if b = a ∧ k ≤ j ∧ j < k + n then h.cells h.slice.arr j else h.cells b j := rfl

@[simp] lemma copied_zero (h : Heap) (a k : ℕ) : copied h a k 0 = h := by
  have hcells : (copied h a k 0).cells = h.cells := by
    funext b j
    exact if_neg (by omega)
  rw [copied] at hcells ⊢
  rw [show (fun b j => _) = h.cells from hcells]

lemma copied_setCell {a : ℕ} (hne : a ≠ h.slice.arr) (k n : ℕ) :
    copied (h.setCell a k (h.cells h.slice.arr k)) a (k + 1) n = copied h a k (n + 1) := by
  unfold copied Heap.setCell
  congr 1
  funext b j
  dsimp only
  have hsrc : ¬ (h.slice.arr = a ∧ j = k) := fun h => hne h.1.symm
  rw [if_neg hsrc]
  by_cases hk : b = a ∧ j = k
  · obtain ⟨rfl, rfl⟩ := hk
    rw [if_neg (by omega), if_pos ⟨rfl, rfl⟩, if_pos ⟨rfl, le_rfl, by omega⟩]
  · rw [if_neg hk]
    have hiff : (b = a ∧ k + 1 ≤ j ∧ j < k + 1 + n) ↔ (b = a ∧ k ≤ j ∧ j < k + (n + 1)) := by omega
    simp only [hiff]

lemma holds_copied (hh : h.Holds ps) {a : ℕ} (k n : ℕ) (ha : a < h.arrays)
    (hne : a ≠ h.slice.arr) : (copied h a k n).Holds ps :=
  { hh with
    cell := by
      intro j hj
      rw [cells_copied,
        if_neg fun h => hne h.1.symm]
      exact hh.cell j hj
    fresh := by
      intro b hb j
      have hba : b ≠ a := fun he => absurd hb (by rw [he]; exact not_le.mpr ha)
      rw [cells_copied, if_neg fun h => hba h.1]
      exact hh.fresh b hb j }

lemma does_copyCells (hh : h.Holds ps) {a k n : ℕ} (ha : a < h.arrays) (hne : a ≠ h.slice.arr)
    (hnone : ∀ j, k ≤ j → h.cells a j = none) :
    (copyCells h.slice a 0 (List.range' k n)).Does (Guarantee extras)
      (fun _ h' => h' = copied h a k n) h := by
  induction n generalizing k h with
  | zero => exact (copied_zero h a k).symm
  | succ n ih =>
    have hfree : a = h.slice.arr → ps.length ≤ k := fun h => absurd h hne
    rw [range'_succ, copyCells, Prog.bind_eq, loadCell, Prog.does_read]
    refine ⟨guarantee_refl hh, ?_⟩
    rw [Prog.bind_eq, storeCell, Prog.does_action, hh.off, Nat.zero_add]
    refine ⟨rfl, guarantee_setCell hh ha hfree fun _ => hnone k le_rfl, ?_⟩
    rw [← copied_setCell hne]
    refine ih (holds_setCell hh ha hfree) ha hne ?_
    intro j hj
    show (if a = a ∧ j = k then _ else h.cells a j) = none
    rw [if_neg (by omega)]
    exact hnone j (by omega)

/-- The header of a slice with one more pointer is stored. -/
lemma holds_setHeader (hh : h.Holds ps) {s : Slice} {q : ℕ} (hoff : s.off = 0)
    (hlen : s.len = ps.length + 1) (hcap : ps.length + 1 ≤ s.cap)
    (hcell : ∀ i ≤ ps.length, h.cells s.arr i = (ps ++ [q])[i]?) (hq : q < h.entries.length)
    (hnew : q ∉ ps) (hused : s.arr ≠ 0 ∧ s.arr < h.arrays) :
    ({ h with slice := s } : Heap).Holds (ps ++ [q]) where
  off := hoff
  len := by simpa using hlen
  cap := by simpa using hcap
  cell i hi := hcell i (by simp at hi; omega)
  nodup := by
    rw [nodup_append]
    refine ⟨hh.nodup, by simp, ?_⟩
    intro x hx y hy
    rw [mem_singleton.mp hy]
    rintro rfl
    exact hnew hx
  valid p hp := by
    rcases mem_append.mp hp with hp | hp
    · exact hh.valid p hp
    · rw [mem_singleton.mp hp]
      exact hq
  nonnil _ := hused.1
  used := hused.2
  fresh := hh.fresh

lemma guarantee_setHeader (hh : h.Holds ps) {s : Slice} {q : ℕ}
    (hh' : ({ h with slice := s } : Heap).Holds (ps ++ [q]))
    (hnone : s.arr ≠ h.slice.arr → ∀ j, ps.length < j → h.cells s.arr j = none) :
    Guarantee [(h.entry q).content] h { h with slice := s } := by
  have hcontents : ({ h with slice := s } : Heap).contents = h.contents ++ [(h.entry q).content] := by
    rw [hh'.contents_eq, hh.contents_eq, map_append]
    rfl
  refine ⟨⟨?_, fun p hp => ⟨hp, rfl⟩, ?_⟩, ⟨_, hh'⟩, ?_⟩
  · intro a i p ha hc
    refine ⟨hc, ?_⟩
    by_cases harr : a = s.arr
    · right
      have hlen := hh'.len
      simp only [length_append, length_singleton] at hlen
      by_cases hsame : s.arr = h.slice.arr
      · rcases ha with ha | hi
        · exact absurd (harr.trans hsame) ha
        · have := hh.len
          show i < s.len
          omega
      · by_contra hi
        rw [harr, hnone hsame i (by dsimp only at hlen hi; omega)] at hc
        cases hc
    · exact Or.inl harr
  · rw [hcontents]
    exact prefix_append _ _
  · intro c hc
    rw [hcontents] at hc
    exact mem_append.mp hc

variable {grow : ℕ → ℕ → ℕ}

lemma does_appendOne (hgrow : ∀ cap n, n ≤ grow cap n) (hh : h.Holds ps) {q : ℕ}
    (hq : q < h.entries.length) (hnew : q ∉ ps) :
    (appendOne grow h.slice q).Does (Guarantee extras)
      (fun s h' => h'.Holds ps ∧ h'.entries = h.entries ∧
        ({ h' with slice := s } : Heap).Holds (ps ++ [q]) ∧
        (s.arr ≠ h'.slice.arr → ∀ j, ps.length < j → h'.cells s.arr j = none)) h := by
  unfold appendOne
  split_ifs with hcap
  · rw [Prog.bind_eq, storeCell, Prog.does_action, hh.off, Nat.zero_add, hh.len]
    have hfree : h.slice.arr = h.slice.arr → ps.length ≤ ps.length := fun _ => le_rfl
    have hh₁ : (h.setCell h.slice.arr ps.length (some q)).Holds ps := holds_setCell hh hh.used hfree
    refine ⟨rfl, guarantee_setCell hh hh.used hfree fun hne => absurd rfl hne, hh₁, rfl, ?_,
      fun hne => absurd rfl hne⟩
    refine holds_setHeader hh₁ rfl rfl (by rw [← hh.len]; exact hcap) ?_ hq hnew
      ⟨hh.nonnil (by omega), hh.used⟩
    intro i hi
    show (if h.slice.arr = h.slice.arr ∧ i = ps.length then some q else h.cells h.slice.arr i) = _
    rcases Nat.lt_or_eq_of_le hi with hi | rfl
    · rw [if_neg (by omega), hh.cell i hi, getElem?_append_left hi]
    · simp
  · rw [Prog.bind_eq, newArray, Prog.does_action]
    refine ⟨rfl, guarantee_of_same hh (holds_newArray hh) rfl (fun _ _ _ _ hc => hc)
      fun _ hq => ⟨hq, rfl⟩, ?_⟩
    have hh₁ := holds_newArray hh
    have hne : h.arrays ≠ h.slice.arr := (Nat.ne_of_lt hh.used).symm
    have ha : h.arrays < h.arrays + 1 := Nat.lt_succ_self _
    rw [Prog.bind_eq, Prog.does_bind, hh.len, range_eq_range']
    refine (does_copyCells hh₁ ha hne fun j _ => hh.fresh _ le_rfl j).mono fun _ h₂ hcopied => ?_
    have hh₂ : h₂.Holds ps := hcopied ▸ holds_copied hh₁ 0 ps.length ha hne
    have harrays : h₂.arrays = h.arrays + 1 := by rw [hcopied]; rfl
    have hentries : h₂.entries = h.entries := by rw [hcopied]; rfl
    -- the new array holds the copied pointers and nothing else
    have hcell : ∀ j, h₂.cells h.arrays j = ps[j]? := by
      intro j
      rw [hcopied]
      show (if h.arrays = h.arrays ∧ 0 ≤ j ∧ j < 0 + ps.length then h.cells h.slice.arr j
        else h.cells h.arrays j) = _
      by_cases hj : j < ps.length
      · rw [if_pos (by omega), hh.cell j hj]
      · rw [if_neg (by omega), hh.fresh _ le_rfl j, getElem?_eq_none (not_lt.mp hj)]
    have ha₂ : h.arrays < h₂.arrays := by omega
    have hfree : h.arrays = h₂.slice.arr → ps.length ≤ ps.length := fun _ => le_rfl
    rw [Prog.bind_eq, storeCell, Prog.does_action]
    refine ⟨rfl, guarantee_setCell hh₂ ha₂ hfree fun _ => by rw [hcell]; simp,
      holds_setCell hh₂ ha₂ hfree, hentries, ?_, ?_⟩
    · refine holds_setHeader (holds_setCell hh₂ ha₂ hfree) rfl rfl (hgrow _ _) ?_
        (by show q < h₂.entries.length; rw [hentries]; exact hq) hnew
        ⟨(Nat.zero_lt_of_lt hh.used).ne', ha₂⟩
      intro i hi
      show (if h.arrays = h.arrays ∧ i = ps.length then some q else h₂.cells h.arrays i) = _
      rcases Nat.lt_or_eq_of_le hi with hi | rfl
      · rw [if_neg (by omega), hcell, getElem?_append_left hi]
      · simp
    · intro _ j hj
      show (if h.arrays = h.arrays ∧ j = ps.length then some q else h₂.cells h.arrays j) = none
      rw [if_neg (by omega), hcell, getElem?_eq_none hj.le]

lemma finishes_add (hgrow : ∀ cap n, n ≤ grow cap n) (hh : h.Holds ps) (tcm : CrossMessages) :
    ∃ h' ps', Finishes (body grow) (Guarantee [tcm]) (.add tcm) h [] h' ∧ h'.Holds ps' ∧
      h'.list = addCrossMessagesDB tcm h.list := by
  let e : CrossMessage := ⟨tcm, 0⟩
  let h₁ : Heap := { h with entries := h.entries ++ [e] }
  have hh₁ : h₁.Holds ps := holds_newEntry hh e
  have hq : h.entries.length < h₁.entries.length := by simp [h₁]
  have hnew : h.entries.length ∉ ps := fun hmem => absurd (hh.valid _ hmem) (lt_irrefl _)
  have hdoes : (body grow (.add tcm)).Does (Guarantee [tcm])
      (fun o h' => o = .inr [] ∧ h'.Holds (ps ++ [h.entries.length]) ∧
        h'.list = addCrossMessagesDB tcm h.list) h := by
    rw [body, Prog.bind_eq, newEntry, Prog.does_action]
    refine ⟨rfl, guarantee_newEntry hh e, ?_⟩
    rw [Prog.bind_eq, header, Prog.does_read]
    refine ⟨guarantee_refl hh₁, ?_⟩
    rw [Prog.bind_eq, Prog.does_bind]
    refine (does_appendOne hgrow hh₁ hq hnew).mono fun s h₂ hs => ?_
    obtain ⟨hh₂, hentries, hh₃, hnone⟩ := hs
    have hentry : ∀ q, h₂.entry q = h₁.entry q := by
      intro q
      rw [Heap.entry, Heap.load, hentries]
      rfl
    have hlast : h₂.entry h.entries.length = e := by
      rw [hentry]
      simp [h₁, Heap.entry, Heap.load]
    have hguarantee := guarantee_setHeader hh₂ hh₃ hnone
    rw [hlast] at hguarantee
    rw [Prog.bind_eq, setHeader, Prog.does_action]
    refine ⟨rfl, hguarantee, rfl, hh₃, ?_⟩
    rw [hh₃.list_eq, hh.list_eq, map_append]
    congr 1
    · refine map_congr_left fun q hmem => (hentry q).trans ?_
      exact entry_newEntry e (hh.valid q hmem)
    · exact congrArg (fun x => [x]) hlast
  obtain ⟨o, h', ⟨rfl, hh', hlist⟩, hexact⟩ := hdoes.exact
  exact ⟨h', _, .done hexact, hh', hlist⟩

end Add

/-! ## `UpdatecmDB` -/

section Update

variable {h : Heap} {ps : List ℕ} {extras : List CrossMessages}

lemma entry_setHeight {q r : ℕ} (height : Int64) (hr : r < h.entries.length) :
    (h.setHeight (some q) height).entry r =
      if q = r then { h.entry r with height := height } else h.entry r := by
  simp only [Heap.entry, Heap.load, Heap.setHeight, bind_some, getElem?_mapIdx,
    getElem?_eq_getElem hr, map_some, getD_some, some.injEq]

lemma holds_setHeight (hh : h.Holds ps) (p : Option ℕ) (height : Int64) :
    (h.setHeight p height).Holds ps :=
  { hh with
    valid := by
      intro q hq
      simpa [Heap.setHeight] using hh.valid q hq }

lemma guarantee_setHeight (hh : h.Holds ps) (q : ℕ) (height : Int64) :
    Guarantee extras h (h.setHeight (some q) height) := by
  refine guarantee_of_same hh (holds_setHeight hh _ _) rfl (fun _ _ _ _ hc => hc) fun r hr => ?_
  rw [entry_setHeight height hr]
  refine ⟨by simpa [Heap.setHeight] using hr, ?_⟩
  split_ifs <;> rfl

lemma does_storeHeight {G : Heap → Heap → Prop} {α : Type} {Q : α → Heap → Prop} {q : ℕ}
    (hq : q < h.entries.length) {height : Int64} (hG : G h (h.setHeight (some q) height))
    {k : Unit → Prog Heap α} (hk : (k ()).Does G Q (h.setHeight (some q) height)) :
    ((storeHeight (some q) height).bind k).Does G Q h := by
  rw [storeHeight, Prog.does_action]
  exact ⟨Heap.isSome_load hq, hG, hk⟩

variable {grow : ℕ → ℕ → ℕ}

/-- One pass of the loop. -/
lemma does_update (hh : h.Holds ps) {i : ℕ} (hi : i < ps.length) (scm : List CrossMessages) :
    (body grow (.update i scm)).Does (Guarantee extras)
      (fun o h' => o = .inl (.update (i + 1)
          (scm ++ if (h.entry ps[i]).due then [(h.entry ps[i]).content] else [])) ∧
        h' = h.setHeight (some ps[i]) (h.entry ps[i]).tick.height) h := by
  have hG : Guarantee extras h h := guarantee_refl hh
  have hq := hh.get_lt hi
  have hset : ∀ height, Guarantee extras h (h.setHeight (some ps[i]) height) :=
    guarantee_setHeight hh ps[i]
  have hlen : i < h.slice.len := by rw [hh.len]; exact hi
  have harr : h.slice.arr ≠ 0 := hh.nonnil (by have := hh.cap; omega)
  rw [body, Prog.bind_eq, header, Prog.does_read]
  refine ⟨hG, ?_⟩
  rw [if_pos hlen, Prog.bind_eq, Prog.does_read]
  refine ⟨hG, ?_⟩
  rw [if_pos harr]
  apply does_entryAt hh hG hi
  by_cases h0 : (h.entry ps[i]).height = 0
  · rw [if_pos h0]
    apply does_entryAt hh hG hi
    apply does_index hh hG hi
    apply does_deref hG hq
    apply does_storeHeight hq (hset _)
    refine ⟨?_, ?_⟩
    · simp [CrossMessage.due, h0]
    · simp [CrossMessage.tick, h0]
  · rw [if_neg h0]
    apply does_entryAt hh hG hi
    by_cases h20 : (h.entry ps[i]).height = 20
    · rw [if_pos h20]
      apply does_entryAt hh hG hi
      apply does_index hh hG hi
      apply does_storeHeight hq (hset _)
      refine ⟨?_, ?_⟩
      · simp [CrossMessage.due, h20]
      · simp [CrossMessage.tick, h20]
    · rw [if_neg h20]
      apply does_index hh hG hi
      apply does_entryAt hh hG hi
      apply does_storeHeight hq (hset _)
      refine ⟨?_, ?_⟩
      · simp [CrossMessage.due, h0, h20]
      · simp [CrossMessage.tick, h20]

/-- The loop from an index on. -/
lemma finishes_update_from (front rest : List ℕ) (hh : h.Holds (front ++ rest))
    (scm : List CrossMessages) :
    ∃ h', Finishes (body grow) (Guarantee extras) (.update front.length scm) h
        (scm ++ ((rest.map h.entry).filter CrossMessage.due).map CrossMessage.content) h' ∧
      h'.Holds (front ++ rest) ∧ (∀ q ∈ front, h'.entry q = h.entry q) ∧
      ∀ q ∈ rest, h'.entry q = (h.entry q).tick := by
  induction rest generalizing front h scm with
  | nil =>
    refine ⟨h, .done ?_, hh, fun _ _ => rfl, fun _ hq => absurd hq (by simp)⟩
    have hlen : ¬ front.length < h.slice.len := by rw [hh.len]; simp
    rw [body, Prog.bind_eq, header, Prog.does_read, if_neg hlen]
    exact ⟨guarantee_refl hh, by simp, rfl⟩
  | cons q rest ih =>
    have hi : front.length < (front ++ q :: rest).length := by simp
    have hget : (front ++ q :: rest)[front.length] = q := by simp
    have hpass : (body grow (.update front.length scm)).Does (Guarantee extras) _ h :=
      does_update hh hi scm
    rw [hget] at hpass
    have hnodup : q ∉ front ∧ q ∉ rest := by
      have := nodup_middle.mp hh.nodup
      rw [nodup_cons] at this
      simpa [not_or] using this.1
    have hvalid : ∀ r ∈ front ++ q :: rest, r < h.entries.length := hh.valid
    let h₁ := h.setHeight (some q) (h.entry q).tick.height
    have hentry : ∀ r ∈ front ++ q :: rest, h₁.entry r =
        if q = r then { h.entry r with height := (h.entry q).tick.height } else h.entry r :=
      fun r hr => entry_setHeight _ (hvalid r hr)
    have hh₁ : h₁.Holds ((front ++ [q]) ++ rest) := by
      simpa using holds_setHeight hh (some q) (h.entry q).tick.height
    obtain ⟨h', hfin, hh', hfront, hrest⟩ := ih (front ++ [q]) hh₁
      (scm ++ if (h.entry q).due then [(h.entry q).content] else [])
    have hsame : ∀ r ∈ front ++ q :: rest, q ≠ r → h₁.entry r = h.entry r := by
      intro r hr hne
      rw [hentry r hr, if_neg hne]
    have hcollected : rest.map h₁.entry = rest.map h.entry :=
      map_congr_left fun r hr => hsame r (by simp [hr]) fun he => hnodup.2 (he ▸ hr)
    have hresult : (scm ++ if (h.entry q).due then [(h.entry q).content] else []) ++
        ((rest.map h.entry).filter CrossMessage.due).map CrossMessage.content =
        scm ++ (((q :: rest).map h.entry).filter CrossMessage.due).map CrossMessage.content := by
      rw [map_cons, filter_cons]
      split_ifs <;> simp
    rw [length_append, hcollected, hresult] at hfin
    refine ⟨h', .again hpass hfin, by simpa using hh', ?_, ?_⟩
    · intro r hr
      rw [hfront r (by simp [hr])]
      exact hsame r (by simp [hr]) fun he => hnodup.1 (he ▸ hr)
    · intro r hr
      rcases mem_cons.mp hr with rfl | hr
      · rw [hfront r (by simp), hentry r (by simp), if_pos rfl]
        rfl
      · rw [hrest r hr, hsame r (by simp [hr]) fun he => hnodup.2 (he ▸ hr)]

lemma finishes_update (hh : h.Holds ps) :
    ∃ h', Finishes (body grow) (Guarantee extras) (.update 0 []) h (updatecmDB h.list).1 h' ∧
      h'.Holds ps ∧ h'.list = (updatecmDB h.list).2 := by
  rw [updatecmDB_eq, hh.list_eq]
  obtain ⟨h', hfin, hh', -, hticked⟩ := finishes_update_from [] ps hh []
  refine ⟨h', hfin, hh', ?_⟩
  rw [hh'.list_eq, List.map_map]
  exact map_congr_left hticked

end Update

/-! ## `RemoveCrossMessagesDB` -/

section Remove

variable {h : Heap} {ps : List ℕ} {grow : ℕ → ℕ → ℕ} {pack : Package} {packs : List Package}

/-- Any step. -/
def Anything (_ _ : Heap) : Prop := True

/-- The heap after the cells from `lo` on are moved down by one. -/
def shifted (h : Heap) (a lo n : ℕ) : Heap :=
  { h with cells := fun b j =>
      if b = a ∧ lo ≤ j ∧ j < lo + n then h.cells a (j + 1) else h.cells b j }

lemma cells_shifted (h : Heap) (a lo n b j : ℕ) : (shifted h a lo n).cells b j =
    if b = a ∧ lo ≤ j ∧ j < lo + n then h.cells a (j + 1) else h.cells b j := rfl

@[simp] lemma shifted_zero (h : Heap) (a lo : ℕ) : shifted h a lo 0 = h := by
  have hcells : (shifted h a lo 0).cells = h.cells := by
    funext b j
    exact if_neg (by omega)
  rw [shifted] at hcells ⊢
  rw [show (fun b j => _) = h.cells from hcells]

lemma shifted_setCell (h : Heap) (a lo n : ℕ) :
    shifted (h.setCell a lo (h.cells a (lo + 1))) a (lo + 1) n = shifted h a lo (n + 1) := by
  unfold shifted Heap.setCell
  congr 1
  funext b j
  dsimp only
  by_cases hlo : b = a ∧ j = lo
  · obtain ⟨rfl, rfl⟩ := hlo
    rw [if_neg (by omega), if_pos ⟨rfl, rfl⟩, if_pos ⟨rfl, le_rfl, by omega⟩]
  · rw [if_neg hlo]
    by_cases hin : b = a ∧ lo + 1 ≤ j ∧ j < lo + 1 + n
    · rw [if_pos hin, if_neg (by omega), if_pos (by omega)]
    · rw [if_neg hin, if_neg (by omega)]

lemma does_copyCells_down (a i k n len cap : ℕ) :
    (copyCells ⟨a, i + 1, len, cap⟩ a i (List.range' k n)).Does Anything
      (fun _ h' => h' = shifted h a (i + k) n) h := by
  induction n generalizing k h with
  | zero => exact (shifted_zero h a (i + k)).symm
  | succ n ih =>
    rw [range'_succ, copyCells, Prog.bind_eq, loadCell, Prog.does_read]
    refine ⟨trivial, ?_⟩
    rw [Prog.bind_eq, storeCell, Prog.does_action]
    refine ⟨rfl, trivial, ?_⟩
    rw [← shifted_setCell, show i + 1 + k = i + k + 1 by omega]
    exact ih (k + 1)

lemma holds_erased (hh : h.Holds ps) {i : ℕ} (hi : i < ps.length) :
    ({ shifted h h.slice.arr i (ps.length - (i + 1)) with
      slice := ⟨h.slice.arr, 0, ps.length - 1, h.slice.cap⟩ } : Heap).Holds (ps.eraseIdx i) where
  off := rfl
  len := by simp [length_eraseIdx, hi]
  cap := by
    have := hh.cap
    rw [length_eraseIdx, if_pos hi]
    dsimp only
    omega
  cell j hj := by
    rw [length_eraseIdx, if_pos hi] at hj
    dsimp only
    rw [cells_shifted, getElem?_eraseIdx]
    by_cases hji : j < i
    · rw [if_neg (by omega), if_pos hji, hh.cell j (by omega)]
    · rw [if_pos (by omega), if_neg hji, hh.cell (j + 1) (by omega)]
  nodup := hh.nodup.sublist (eraseIdx_sublist ps i)
  valid q hq := hh.valid q ((eraseIdx_sublist ps i).subset hq)
  nonnil := hh.nonnil
  used := hh.used
  fresh a ha j := by
    have hne : a ≠ h.slice.arr := fun he => absurd ha (by rw [he]; exact not_le.mpr hh.used)
    rw [cells_shifted, if_neg fun h => hne h.1]
    exact hh.fresh a ha j

/-- The scan finds an entry for the package. -/
lemma does_remove_hit (hh : h.Holds ps) {i : ℕ} (hi : i < ps.length)
    (hmatch : (h.entry ps[i]).Matches pack) :
    (body grow (.remove (pack :: packs) i)).Does Anything
      (fun o h' => o = .inl (.remove packs 0) ∧ h'.Holds (ps.eraseIdx i) ∧
        h'.entries = h.entries) h := by
  have hlen : i < h.slice.len := by rw [hh.len]; exact hi
  have hcap := hh.cap
  have hlength := hh.len
  rw [body, Prog.bind_eq, header, Prog.does_read]
  refine ⟨trivial, ?_⟩
  rw [if_pos hlen]
  apply does_entryAt hh trivial hi
  rw [if_pos hmatch.1]
  apply does_entryAt hh trivial hi
  rw [if_pos hmatch.2]
  apply does_entryAt hh trivial hi
  apply does_entryAt hh trivial hi
  rw [Prog.bind_eq, Prog.does_read]
  refine ⟨trivial, ?_⟩
  rw [Prog.bind_eq, reslice, Prog.does_action]
  refine ⟨by simp; omega, trivial, ?_⟩
  rw [Prog.bind_eq, Prog.does_read]
  refine ⟨trivial, ?_⟩
  rw [Prog.bind_eq, reslice, Prog.does_action]
  refine ⟨by simp; omega, trivial, ?_⟩
  rw [Prog.bind_eq, Prog.does_bind, appendSlice, if_pos (by simp; omega), Prog.bind_eq,
    Prog.does_bind, range_eq_range']
  dsimp only [id]
  rw [hh.off, Nat.zero_add, Nat.zero_add, Nat.zero_add, Nat.sub_zero]
  refine (does_copyCells_down h.slice.arr i 0 _ _ _).mono fun _ h' hh' => ?_
  show Prog.Does _ _ ((setHeader _).bind _) _
  rw [setHeader, Prog.does_action]
  refine ⟨rfl, trivial, rfl, ?_, by rw [hh']; rfl⟩
  rw [hh', hh.len, show i + (ps.length - (i + 1)) = ps.length - 1 by omega]
  exact holds_erased hh hi

lemma does_remove_miss (hh : h.Holds ps) {i : ℕ} (hi : i < ps.length)
    (hmatch : ¬ (h.entry ps[i]).Matches pack) :
    (body grow (.remove (pack :: packs) i)).Does Anything
      (fun o h' => o = .inl (.remove (pack :: packs) (i + 1)) ∧ h' = h) h := by
  have hlen : i < h.slice.len := by rw [hh.len]; exact hi
  rw [body, Prog.bind_eq, header, Prog.does_read]
  refine ⟨trivial, ?_⟩
  rw [if_pos hlen]
  apply does_entryAt hh trivial hi
  by_cases hheight : (h.entry ps[i]).content.height = pack.height
  · rw [if_pos hheight]
    apply does_entryAt hh trivial hi
    rw [if_neg fun hroot => hmatch ⟨hheight, hroot⟩]
    exact ⟨rfl, rfl⟩
  · rw [if_neg hheight]
    exact ⟨rfl, rfl⟩

lemma does_remove_end (hh : h.Holds ps) :
    (body grow (.remove (pack :: packs) ps.length)).Does Anything
      (fun o h' => o = .inl (.remove packs 0) ∧ h' = h) h := by
  rw [body, Prog.bind_eq, header, Prog.does_read, if_neg (by rw [hh.len]; exact lt_irrefl _)]
  exact ⟨trivial, rfl, rfl⟩

/-- The scan for one package from an index on. -/
lemma finishes_scan (front rest : List ℕ) (hh : h.Holds (front ++ rest)) :
    ∃ h' ps', h'.Holds ps' ∧
      h'.list = front.map h.entry ++ (rest.map h.entry).eraseP (fun e => e.Matches pack) ∧
      ∀ r h₂, Finishes (body grow) Anything (.remove packs 0) h' r h₂ →
        Finishes (body grow) Anything (.remove (pack :: packs) front.length) h r h₂ := by
  induction rest generalizing front with
  | nil =>
    rw [append_nil] at hh
    refine ⟨h, front, hh, ?_, fun r h₂ hfin => .again (does_remove_end hh) hfin⟩
    rw [hh.list_eq]
    simp
  | cons q rest ih =>
    have hi : front.length < (front ++ q :: rest).length := by simp
    have hget : (front ++ q :: rest)[front.length] = q := by simp
    by_cases hmatch : (h.entry q).Matches pack
    · have hhit : (body grow (.remove (pack :: packs) front.length)).Does Anything _ h :=
        does_remove_hit hh hi (by rw [hget]; exact hmatch)
      obtain ⟨o, h', ⟨rfl, hh', hentries⟩, hexact⟩ := hhit.exact
      refine ⟨h', _, hh', ?_, fun r h₂ hfin => .again hexact hfin⟩
      have hentry : h'.entry = h.entry := by
        funext r
        rw [Heap.entry, Heap.load, hentries]
        rfl
      rw [hh'.list_eq, hentry, map_cons, eraseP_cons_of_pos (by simpa using hmatch)]
      simp [eraseIdx_append_of_length_le]
    · have hmiss : (body grow (.remove (pack :: packs) front.length)).Does Anything _ h :=
        does_remove_miss hh hi (by rw [hget]; exact hmatch)
      obtain ⟨h', ps', hh', hlist, hfin⟩ := ih (front ++ [q]) (by simpa using hh)
      refine ⟨h', ps', hh', ?_, fun r h₂ hrest => .again hmiss ?_⟩
      · rw [hlist, map_cons, eraseP_cons_of_neg (by simpa using hmatch)]
        simp
      · have := hfin r h₂ hrest
        rwa [length_append] at this

lemma finishes_remove (hh : h.Holds ps) (packs : List Package) :
    ∃ h' ps', Finishes (body grow) Anything (.remove packs 0) h [] h' ∧ h'.Holds ps' ∧
      h'.list = packs.foldl (fun db pack => db.eraseP fun e => e.Matches pack) h.list := by
  induction packs generalizing h ps with
  | nil => exact ⟨h, ps, .done ⟨rfl, rfl⟩, hh, rfl⟩
  | cons pack packs ih =>
    obtain ⟨h₁, ps₁, hh₁, hlist₁, hscan⟩ := finishes_scan [] ps hh
    obtain ⟨h', ps', hfin, hh', hlist⟩ := ih hh₁
    refine ⟨h', ps', hscan [] h' hfin, hh', ?_⟩
    rw [hlist, hlist₁, hh.list_eq]
    rfl

end Remove

/-! ## Acknowledgements that name nothing -/

/-- The comparison of `RemoveCrossMessagesDB` with a message. -/
def Names (pack : Package) (c : CrossMessages) : Prop :=
  (⟨c, 0⟩ : CrossMessage).Matches pack

instance (pack : Package) (c : CrossMessages) : Decidable (Names pack c) :=
  inferInstanceAs (Decidable (CrossMessage.Matches _ _))

/-- The slice holds no message that one of the packages names. -/
structure Unnamed (packs : List Package) (h : Heap) : Prop where
  holds : ∃ ps, h.Holds ps
  none_named : ∀ c ∈ h.contents, ∀ pack ∈ packs, ¬ Names pack c

/-- The steps of others while a removal only reads. -/
def Calm (packs : List Package) (h h' : Heap) : Prop := Rely h h' ∧ Unnamed packs h'

section Calm

variable {packs : List Package} {h h' : Heap}

lemma Calm.trans {h₁ h₂ h₃ : Heap} (h12 : Calm packs h₁ h₂) (h23 : Calm packs h₂ h₃) :
    Calm packs h₁ h₃ := ⟨h12.1.trans h23.1, h23.2⟩

lemma getElem?_of_initial {α : Type} {l l' : List α} (hpre : l <+: l') {i : ℕ} {a : α}
    (ha : l[i]? = some a) : l'[i]? = some a := by
  obtain ⟨rest, rfl⟩ := hpre
  rw [getElem?_append_left (List.getElem?_eq_some_iff.mp ha).1]
  exact ha

lemma reads_entryAt {α : Type} {Q : α → Heap → Prop} {i : ℕ} {c : CrossMessages}
    (hc : h.contents[i]? = some c) {k : CrossMessage → Prog Heap α}
    (hk : ∀ h' e, Calm packs h h' → e.content = c → (k e).Reads (Calm packs) Q h') :
    ((entryAt i).bind k).Reads (Calm packs) Q h := by
  rw [entryAt, index, Prog.bind_eq, Prog.bind_eq, Prog.bind_assoc, Prog.bind_assoc]
  apply Prog.reads_read
  intro h₁ hcalm₁
  apply Prog.reads_action
  intro h₂ hcalm₂
  -- the cell under the loaded header and the message behind it stay
  obtain ⟨ps, hh₁⟩ := hcalm₁.2.holds
  have hc₁ : h₁.contents[i]? = some c := getElem?_of_initial hcalm₁.1.contents hc
  have hi : i < ps.length := by
    rw [← hh₁.length_contents]
    exact (List.getElem?_eq_some_iff.mp hc₁).1
  have hcontent : (h₁.entry ps[i]).content = c := by
    rw [hh₁.contents_eq, getElem?_map, getElem?_eq_getElem hi] at hc₁
    exact some.inj hc₁
  have hlen : i < h₁.slice.len := by rw [hh₁.len]; exact hi
  have hcell : h₂.cells h₁.slice.arr (h₁.slice.off + i) = some ps[i] :=
    (hcalm₂.1.cells _ _ _ (Or.inr (by rw [hh₁.off, Nat.zero_add]; exact hlen))
      (hh₁.cell_eq hi)).1
  refine ⟨by simpa using hlen, ?_⟩
  rw [hcell]
  apply Prog.reads_action
  intro h₃ hcalm₃
  obtain ⟨hq, he⟩ := (hcalm₂.1.trans hcalm₃.1).entries _ (hh₁.get_lt hi)
  exact ⟨Heap.isSome_load hq, hk h₃ _ (hcalm₁.trans (hcalm₂.trans hcalm₃)) (he.trans hcontent)⟩

/-- A removal at one of its points, with packages among the given ones, or at its end. -/
def Removing (packs : List Package) (o : Point ⊕ List CrossMessages) (_ : Heap) : Prop :=
  o = .inr [] ∨ ∃ packs' i, o = .inl (.remove packs' i) ∧ packs' ⊆ packs

/-- A removal whose packages name nothing only reads. -/
lemma reads_remove (grow : ℕ → ℕ → ℕ) {packs' : List Package} (hsub : packs' ⊆ packs) (i : ℕ) :
    (body grow (.remove packs' i)).Reads (Calm packs) (Removing packs) h := by
  cases packs' with
  | nil => exact Or.inl rfl
  | cons pack rest =>
    have hrest : Removing packs (.inl (.remove rest 0)) h :=
      Or.inr ⟨rest, 0, rfl, fun p hp => hsub (mem_cons_of_mem _ hp)⟩
    have hnext : Removing packs (.inl (.remove (pack :: rest) (i + 1))) h :=
      Or.inr ⟨_, _, rfl, hsub⟩
    apply Prog.reads_read
    intro h₁ hcalm₁
    split_ifs with hi
    · obtain ⟨ps, hh₁⟩ := hcalm₁.2.holds
      have hlt : i < h₁.contents.length := by
        rw [hh₁.length_contents, ← hh₁.len]
        exact hi
      have hunnamed : ¬ Names pack h₁.contents[i] :=
        hcalm₁.2.none_named _ (getElem_mem hlt) pack (hsub (mem_cons_self ..))
      refine reads_entryAt (getElem?_eq_getElem hlt) fun h₂ e hcalm₂ he => ?_
      split_ifs with hheight
      · refine reads_entryAt (getElem?_of_initial hcalm₂.1.contents
          (getElem?_eq_getElem hlt)) fun h₃ e' hcalm₃ he' => ?_
        rw [if_neg]
        · exact hnext
        · intro hroot
          rw [he] at hheight
          rw [he'] at hroot
          exact hunnamed ⟨hheight, hroot⟩
      · exact hnext
    · exact hrest

end Calm

end ShardingBC.SharedMessages
