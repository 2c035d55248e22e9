import Mathlib.Algebra.BigOperators.Fin
import Mathlib.Algebra.Order.BigOperators.Group.Finset
import ShardingBC.GoBytes
import ShardingBC.Runs

/-!
# Reconfiguration of the shards

`FillReconfiguration` moves the selected nodes of each shard to random slots of other shards. The
random numbers are a list that the loops consume; `none` is a list that ends before them.
-/
namespace ShardingBC.Reconfiguration

open Function List Option Runs

/-! ## Nodes -/

structure Nodeinfo where
  shardName : Bytes
  coordinate : Bytes
  nodeName : Bytes
  peerId : Bytes
  neighbor : List ℤ
deriving DecidableEq

/-- A shard and a position in it. -/
abbrev Slot (S N : ℕ) := Fin S × Fin N

structure Table (S N : ℕ) where
  nodes : Slot S N → Nodeinfo
  distinct : Function.Injective fun x => (nodes x).peerId

/-- `FillArea`: the positions of each shard that are to be exchanged. -/
structure Plan (S N M : ℕ) where
  fillArea : Fin S → List (Fin N)
  length_eq : ∀ i, (fillArea i).length = M
  nodup : ∀ i, (fillArea i).Nodup
  moveCount_le : M ≤ N

/-! ## Random numbers -/

def intn (n : ℕ) : List ℕ → Option (Fin n × List ℕ)
  | [] => none
  | r :: rs => if h : r < n then some (⟨r, h⟩, rs) else none

/-- `GenerateCredibleFillArea`, from the positions that are there. -/
def generateCredibleFillArea (N M : ℕ) : List (Fin N) → List ℕ → Option (List (Fin N) × List ℕ)
  | area, [] => if area.length < M then none else some (area, [])
  | area, r :: rs =>
    if area.length < M then
      if h : r < N then
        if ⟨r, h⟩ ∈ area then generateCredibleFillArea N M area rs
        else generateCredibleFillArea N M (area ++ [⟨r, h⟩]) rs
      else none
    else some (area, r :: rs)

/-- Once enough different numbers have come up, as many positions are selected. -/
lemma generateCredibleFillArea_spec {N M : ℕ} {area : List (Fin N)} {rs : List ℕ}
    (hlen : area.length ≤ M) (hnodup : area.Nodup) (hrs : ∀ r ∈ rs, r < N)
    (hmany : M ≤ (area.map Fin.val ++ rs).toFinset.card) :
    ∃ area' rs', generateCredibleFillArea N M area rs = some (area', rs') ∧
      area'.length = M ∧ area'.Nodup := by
  induction rs generalizing area with
  | nil =>
    have hle := toFinset_card_le (area.map Fin.val)
    rw [append_nil] at hmany
    rw [length_map] at hle
    exact ⟨area, [], by rw [generateCredibleFillArea, if_neg (by omega)], by omega, hnodup⟩
  | cons r rs ih =>
    obtain ⟨hr, hrs⟩ := forall_mem_cons.mp hrs
    unfold generateCredibleFillArea
    split_ifs with hlt hmem
    · -- A number that came up before adds none.
      have hseen : r ∈ area.map Fin.val := mem_map.mpr ⟨_, hmem, rfl⟩
      refine ih hlen hnodup hrs (hmany.trans_eq (congrArg Finset.card ?_))
      ext x
      by_cases hx : x = r <;> simp_all
    · refine ih ?_ (nodup_append.mpr ⟨hnodup, nodup_singleton _, ?_⟩) hrs (by simpa using hmany)
      · rw [length_append, length_singleton]
        omega
      · rintro a ha b hb rfl
        exact hmem (mem_singleton.mp hb ▸ ha)
    · exact ⟨area, r :: rs, rfl, by omega, hnodup⟩

theorem generateCredibleFillArea_selects {N M : ℕ} {rs : List ℕ} (hrs : ∀ r ∈ rs, r < N)
    (hmany : M ≤ rs.toFinset.card) :
    ∃ area rs', generateCredibleFillArea N M [] rs = some (area, rs') ∧
      area.length = M ∧ area.Nodup :=
  generateCredibleFillArea_spec (by simp) nodup_nil hrs hmany

theorem two_of_four_selected :
    ∃ area rs', generateCredibleFillArea 4 2 [] [3, 3, 1, 0] = some (area, rs') ∧
      area.length = 2 ∧ area.Nodup :=
  generateCredibleFillArea_selects (by decide) (by decide)

/-! ## The state of the loop -/

/-- `fillArea` is the copy that loses the filled positions. -/
structure Filling (S N : ℕ) where
  fillArea : Fin S → List (Fin N)
  nodesinfo : Slot S N → Nodeinfo
  count : Fin S → ℕ
  sendNodes : Fin S → List Nodeinfo

variable {S N M : ℕ}

/-- The selected node that is moved in the round. -/
def Plan.position (P : Plan S N M) (i : Fin S) (j : Fin M) : Fin N :=
  (P.fillArea i).get (j.cast (P.length_eq i).symm)

def addFullShard (fillArea : Fin S → List (Fin N)) : List (Fin S) :=
  (List.finRange S).filter fun i => decide ((fillArea i).length = 0)

def watchShard (belongShard : Fin S) (fullShard : List (Fin S)) (shard : Fin S) : Bool :=
  decide (belongShard ∈ fullShard) || decide (belongShard = shard)

namespace Filling

/-- Some shard before the last one is not filled. -/
def watchError (M : ℕ) (s : Filling S N) : Bool :=
  decide (∃ i : Fin S, i.val + 1 < S ∧ s.count i ≠ M)

/-- Draws until the shard need not be drawn again. -/
def belongShardLoop (again : Fin S → Bool) : Fin S → List ℕ → Option (Fin S × List ℕ)
  | b, [] => if again b then none else some (b, [])
  | b, r :: rs =>
    if again b then
      if h : r < S then belongShardLoop again ⟨r, h⟩ rs else none
    else some (b, r :: rs)

/-- `BelongShard` before it counts; `none` inside is -1. -/
def belongShard (M : ℕ) (s : Filling S N) (fullShard : List (Fin S)) (i : Fin S) (rs : List ℕ) :
    Option (Option (Fin S) × List ℕ) :=
  (intn S rs).bind fun r =>
    (belongShardLoop (fun b => watchShard b fullShard i && s.watchError M) r.1 r.2).map fun b =>
      (if s.watchError M then some b.1 else none, b.2)

/-- The node of the slot was not in the shard before. -/
def judgeElement (s : Filling S N) (T : Table S N) (shard : Fin S) (target : Slot S N) : Bool :=
  decide (∀ n, (s.nodesinfo target).peerId ≠ (T.nodes (shard, n)).peerId)

/-- `ReFill` draws a shard and then positions in it until one is admissible. -/
def reFill (P : Plan S N M) (T : Table S N) (s : Filling S N) (shard : Fin S) :
    Option (Fin S) → List ℕ → Option (Slot S N × List ℕ)
  | _, [] => none
  | none, r :: rs =>
    if h : r < S then
      if ⟨r, h⟩ = shard ∨ (P.fillArea ⟨r, h⟩).length = 0 then reFill P T s shard none rs
      else reFill P T s shard (some ⟨r, h⟩) rs
    else none
  | some t, r :: rs =>
    if h : r < (P.fillArea t).length then
      if s.judgeElement T shard (t, (P.fillArea t).get ⟨r, h⟩) then
        some ((t, (P.fillArea t).get ⟨r, h⟩), rs)
      else reFill P T s shard (some t) rs
    else none

/-- `DeleteExistElement`: after a deletion the next element is skipped. -/
def deleteExistElement (peerId : Bytes) : List Nodeinfo → List Nodeinfo
  | [] => []
  | [x] => if x.peerId = peerId then [] else [x]
  | x :: y :: rest =>
    if x.peerId = peerId then y :: deleteExistElement peerId rest
    else x :: deleteExistElement peerId (y :: rest)

def setPeer (nodesinfo : Slot S N → Nodeinfo) (x : Slot S N) (peerId : Bytes) :
    Slot S N → Nodeinfo :=
  Function.update nodesinfo x { nodesinfo x with peerId := peerId }

/-- The position is taken from the area of the shard. -/
def deleteElement (s : Filling S N) (b : Fin S) (c : Fin (s.fillArea b).length) :
    Fin S → List (Fin N) :=
  Function.update s.fillArea b ((s.fillArea b).eraseIdx c)

/-- The selected node is put into a slot of another shard. -/
def place (P : Plan S N M) (T : Table S N) (s : Filling S N) (i : Fin S) (j : Fin M) (b : Fin S)
    (c : Fin (s.fillArea b).length) : Filling S N where
  fillArea := s.deleteElement b c
  nodesinfo := setPeer s.nodesinfo (b, (s.fillArea b).get c) (T.nodes (i, P.position i j)).peerId
  count := Function.update s.count b (s.count b + 1)
  sendNodes := Function.update s.sendNodes b (s.sendNodes b ++
    [setPeer s.nodesinfo (b, (s.fillArea b).get c) (T.nodes (i, P.position i j)).peerId
      (b, (s.fillArea b).get c)])

/-- The node of the target goes to the slot of the shard, and the node at position `j` to the
target. -/
def exchanged (P : Plan S N M) (T : Table S N) (s : Filling S N) (i : Fin S) (j : Fin M)
    (target : Slot S N) (n : Fin N) : Slot S N → Nodeinfo :=
  setPeer (setPeer s.nodesinfo (i, n) (s.nodesinfo target).peerId) target
    (T.nodes (i, j.castLE P.moveCount_le)).peerId

/-- The branch of -1. -/
def exchange (P : Plan S N M) (T : Table S N) (s : Filling S N) (i : Fin S) (j : Fin M)
    (target : Slot S N) (c : Fin (s.fillArea i).length) : Filling S N where
  fillArea := s.deleteElement i c
  nodesinfo := s.exchanged P T i j target ((s.fillArea i).get c)
  count := Function.update s.count i (s.count i + 1)
  sendNodes :=
    let deleted := Function.update s.sendNodes target.1
      (deleteExistElement (s.nodesinfo target).peerId (s.sendNodes target.1))
    let nodes := s.exchanged P T i j target ((s.fillArea i).get c)
    let own := Function.update deleted i (deleted i ++ [nodes (i, (s.fillArea i).get c)])
    Function.update own target.1 (own target.1 ++ [nodes target])

end Filling

/-! ## The loops -/

/-- One round of the inner loop. -/
def fillStep (P : Plan S N M) (T : Table S N) (s : Filling S N × List ℕ) (e : Fin S × Fin M) :
    Option (Filling S N × List ℕ) :=
  (s.1.belongShard M (addFullShard s.1.fillArea) e.1 s.2).bind fun r =>
    match r.1 with
    | some b => (intn (s.1.fillArea b).length r.2).map fun c => (s.1.place P T e.1 e.2 b c.1, c.2)
    | none =>
      (s.1.reFill P T e.1 none r.2).bind fun t =>
        (intn (s.1.fillArea e.1).length t.2).map fun c =>
          (s.1.exchange P T e.1 e.2 t.1 c.1, c.2)

/-- The rounds in their order. -/
def rounds (S M : ℕ) : List (Fin S × Fin M) :=
  (List.finRange S).flatMap fun i => (List.finRange M).map fun j => (i, j)

def Filling.start (P : Plan S N M) (T : Table S N) (sendNodes : Fin S → List Nodeinfo) :
    Filling S N :=
  ⟨P.fillArea, T.nodes, fun _ => 0, sendNodes⟩

def fillReconfiguration (P : Plan S N M) (T : Table S N) (sendNodes : Fin S → List Nodeinfo)
    (rs : List ℕ) : Option (Filling S N) :=
  (run (fillStep P T) (.start P T sendNodes, rs) (rounds S M)).map fun s =>
    { s.1 with count := fun _ => 0 }

/-! ## What one round does -/

section Step

variable {P : Plan S N M} {T : Table S N} {s s' : Filling S N} {i : Fin S} {j : Fin M}
  {rs rs' : List ℕ}

lemma belongShardLoop_eq_some {again : Fin S → Bool} {b b' : Fin S}
    (h : Filling.belongShardLoop again b rs = some (b', rs')) : again b' = false := by
  induction rs generalizing b with
  | nil =>
    unfold Filling.belongShardLoop at h
    split_ifs at h with hagain
    cases h
    simpa using hagain
  | cons r rs ih =>
    unfold Filling.belongShardLoop at h
    split_ifs at h with hagain
    · exact ih h
    · cases h
      simpa using hagain

lemma watchShard_eq_false {b : Fin S} {full : List (Fin S)} (h : watchShard b full i = false) :
    b ≠ i := by
  simp only [watchShard, Bool.or_eq_false_iff, decide_eq_false_iff_not] at h
  exact h.2

/-- The target is an admissible selected slot of another shard. -/
lemma reFill_eq_some {t : Option (Fin S)} {target : Slot S N} (ht : ∀ b ∈ t, b ≠ i)
    (h : s.reFill P T i t rs = some (target, rs')) :
    target.1 ≠ i ∧ target.2 ∈ P.fillArea target.1 ∧ s.judgeElement T i target = true := by
  induction rs generalizing t with
  | nil =>
    cases t <;> cases h
  | cons r rs ih =>
    cases t with
    | none =>
      unfold Filling.reFill at h
      split_ifs at h with hr hskip
      · exact ih (by simp) h
      · refine ih ?_ h
        intro b hb
        rw [← some.inj hb]
        exact fun heq => hskip (.inl heq)
    | some b =>
      unfold Filling.reFill at h
      split_ifs at h with hr hjudge
      · cases h
        exact ⟨ht b rfl, get_mem _ _, hjudge⟩
      · exact ih ht h

/-- A round places the node in another shard, or exchanges it if all shards before the last are
filled. -/
lemma fillStep_cases (h : fillStep P T (s, rs) (i, j) = some (s', rs')) :
    (s.watchError M = true ∧ ∃ b c, b ≠ i ∧ s' = s.place P T i j b c) ∨
      s.watchError M = false ∧ ∃ target c, target.1 ≠ i ∧ target.2 ∈ P.fillArea target.1 ∧
        s.judgeElement T i target = true ∧ s' = s.exchange P T i j target c := by
  obtain ⟨r, hbelong, h⟩ := bind_eq_some_iff.mp h
  obtain ⟨r₀, -, hbelong⟩ := bind_eq_some_iff.mp hbelong
  obtain ⟨b, hloop, rfl⟩ := map_eq_some_iff.mp hbelong
  have hagain := belongShardLoop_eq_some hloop
  cases hwatch : s.watchError M with
  | true =>
    simp only [hwatch, Bool.and_true] at h hagain
    obtain ⟨c, -, hs'⟩ := map_eq_some_iff.mp h
    exact .inl ⟨rfl, b.1, c.1, watchShard_eq_false hagain, (Prod.mk.inj hs').1.symm⟩
  | false =>
    simp only [hwatch] at h
    obtain ⟨t, hfill, h⟩ := bind_eq_some_iff.mp h
    obtain ⟨c, -, hs'⟩ := map_eq_some_iff.mp h
    obtain ⟨hne, hmem, hjudge⟩ := reFill_eq_some (by simp) hfill
    exact .inr ⟨rfl, t.1, c.1, hne, hmem, hjudge, (Prod.mk.inj hs').1.symm⟩

end Step

/-! ## Sums -/

/-- One value of a family is replaced. -/
lemma sum_update {ι α A : Type*} [Fintype ι] [DecidableEq ι] [AddCommMonoid A] (g : ι → α → A)
    (f : ι → α) (b : ι) (v : α) :
    ∑ x, g x (Function.update f b v x) + g b (f b) = ∑ x, g x (f x) + g b v := by
  have hrest : ∑ x ∈ Finset.univ.erase b, g x (update f b v x) =
      ∑ x ∈ Finset.univ.erase b, g x (f x) := by
    refine Finset.sum_congr rfl fun x hx => ?_
    rw [update_of_ne (Finset.ne_of_mem_erase hx)]
  rw [← Finset.add_sum_erase _ (fun x => g x (update f b v x)) (Finset.mem_univ b),
    ← Finset.add_sum_erase _ (fun x => g x (f x)) (Finset.mem_univ b), hrest,
    update_self]
  abel

/-- The peers of a table. -/
def peers (nodesinfo : Slot S N → Nodeinfo) : Multiset Bytes :=
  Finset.univ.val.map fun x => (nodesinfo x).peerId

lemma peers_eq_sum (nodesinfo : Slot S N → Nodeinfo) :
    peers nodesinfo = ∑ x, {(nodesinfo x).peerId} := by
  rw [peers, ← Multiset.sum_map_singleton (Finset.univ.val.map _), Multiset.map_map]
  rfl

lemma peers_setPeer (nodesinfo : Slot S N → Nodeinfo) (x : Slot S N) (peerId : Bytes) :
    peers (Filling.setPeer nodesinfo x peerId) + {(nodesinfo x).peerId} =
      peers nodesinfo + {peerId} := by
  rw [peers_eq_sum, peers_eq_sum]
  exact sum_update (fun _ node => ({node.peerId} : Multiset Bytes)) nodesinfo x _

/-- The peers that the positions of the areas had at the start. -/
def areaPeers (T : Table S N) (fillArea : Fin S → List (Fin N)) : Multiset Bytes :=
  ∑ b, ((fillArea b).map fun n => (T.nodes (b, n)).peerId : List Bytes)

/-- The positions that are not filled. -/
def Filling.left (s : Filling S N) : ℕ := ∑ b, (s.fillArea b).length

lemma areaPeers_deleteElement (T : Table S N) (s : Filling S N) (b : Fin S)
    (c : Fin (s.fillArea b).length) :
    areaPeers T (s.deleteElement b c) + {(T.nodes (b, (s.fillArea b).get c)).peerId} =
      areaPeers T s.fillArea := by
  have hsum := sum_update (fun b (l : List (Fin N)) =>
    ((l.map fun n => (T.nodes (b, n)).peerId : List Bytes) : Multiset Bytes)) s.fillArea b
    ((s.fillArea b).eraseIdx c)
  have hperm := (getElem_cons_eraseIdx_perm c.isLt).map fun n => (T.nodes (b, n)).peerId
  have hsplit := Multiset.coe_eq_coe.mpr hperm
  rw [map_cons, ← Multiset.cons_coe, ← Multiset.singleton_add] at hsplit
  simp only [← hsplit] at hsum
  rw [← add_assoc] at hsum
  exact add_right_cancel hsum

@[simp] lemma left_deleteElement (s : Filling S N) (b : Fin S) (c : Fin (s.fillArea b).length) :
    ∑ x, (s.deleteElement b c x).length + 1 = s.left := by
  have hsum := sum_update (fun _ (l : List (Fin N)) => l.length) s.fillArea b
    ((s.fillArea b).eraseIdx c)
  have hlen := length_eraseIdx_of_lt c.isLt
  have hpos := c.pos
  unfold Filling.left Filling.deleteElement
  omega

/-! ## What every round keeps -/

section Kept

variable {k : ℕ} {P : Plan (k + 2) N M} {T : Table (k + 2) N} {s s' : Filling (k + 2) N}
  {i b : Fin (k + 2)} {j : Fin M}

/-- The filled slots have nodes of other shards; the others have their own. -/
structure Kept (P : Plan (k + 2) N M) (T : Table (k + 2) N) (s : Filling (k + 2) N) : Prop where
  sublist : ∀ b, (s.fillArea b).Sublist (P.fillArea b)
  counts : ∀ b, s.count b + (s.fillArea b).length = M
  own : ∀ x : Slot (k + 2) N, x.2 ∈ s.fillArea x.1 ∨ x.2 ∉ P.fillArea x.1 →
    s.nodesinfo x = T.nodes x
  foreign : ∀ x : Slot (k + 2) N, x.2 ∈ P.fillArea x.1 → x.2 ∉ s.fillArea x.1 →
    ∀ n, (s.nodesinfo x).peerId ≠ (T.nodes (x.1, n)).peerId

lemma kept_start (P : Plan (k + 2) N M) (T : Table (k + 2) N)
    (sendNodes : Fin (k + 2) → List Nodeinfo) : Kept P T (.start P T sendNodes) where
  sublist b := List.Sublist.refl _
  counts b := by
    rw [Filling.start, P.length_eq, Nat.zero_add]
  own _ _ := rfl
  foreign _ hmem hnot := absurd hmem hnot

lemma watchError_eq_false_iff :
    s.watchError M = false ↔ ∀ b, b ≠ Fin.last (k + 1) → s.count b = M := by
  simp only [Filling.watchError, decide_eq_false_iff_not, not_exists, not_and, not_not]
  refine forall_congr' fun b => ?_
  have hlast : b.val + 1 < k + 2 ↔ b ≠ Fin.last (k + 1) := by
    rw [ne_eq, Fin.ext_iff, Fin.val_last]
    omega
  rw [hlast]

namespace Kept

lemma fillArea_eq_nil_iff (h : Kept P T s) (b : Fin (k + 2)) :
    s.fillArea b = [] ↔ s.count b = M := by
  have hcount := h.counts b
  rw [← length_eq_zero_iff]
  omega

lemma mem_deleteElement (h : Kept P T s) (c : Fin (s.fillArea b).length)
    (x : Slot (k + 2) N) :
    x.2 ∈ s.deleteElement b c x.1 ↔ x.2 ∈ s.fillArea x.1 ∧ x ≠ (b, (s.fillArea b).get c) := by
  unfold Filling.deleteElement
  by_cases hb : x.1 = b
  · have hnodup := (P.nodup b).sublist (h.sublist b)
    have herase := hnodup.erase_getElem c c.isLt
    rw [hb, update_self, ← herase, hnodup.mem_erase_iff, and_comm]
    simp [Prod.ext_iff, hb]
  · simp [Prod.ext_iff, hb]

lemma sublist_deleteElement (h : Kept P T s) (c : Fin (s.fillArea b).length) :
    ∀ b', (s.deleteElement b c b').Sublist (P.fillArea b') :=
  (forall_update_iff s.fillArea fun b' l => l.Sublist (P.fillArea b')).mpr
    ⟨(eraseIdx_sublist _ _).trans (h.sublist b), fun b' _ => h.sublist b'⟩

lemma counts_deleteElement (h : Kept P T s) (c : Fin (s.fillArea b).length)
    (b' : Fin (k + 2)) :
    Function.update s.count b (s.count b + 1) b' + (s.deleteElement b c b').length = M := by
  unfold Filling.deleteElement
  by_cases hb : b' = b
  · have hcount := h.counts b
    have hlen := length_eraseIdx_of_lt c.isLt
    have hpos := c.pos
    rw [hb, update_self, update_self]
    omega
  · rw [update_of_ne hb, update_of_ne hb]
    exact h.counts b'

lemma fill (h : Kept P T s) (c : Fin (s.fillArea b).length) {nodes : Slot (k + 2) N → Nodeinfo}
    (hslot : ∀ n, (nodes (b, (s.fillArea b).get c)).peerId ≠ (T.nodes (b, n)).peerId)
    (hother : ∀ x, x ≠ (b, (s.fillArea b).get c) → nodes x = s.nodesinfo x ∨
      x.2 ∈ P.fillArea x.1 ∧ x.2 ∉ s.fillArea x.1 ∧
        ∀ n, (nodes x).peerId ≠ (T.nodes (x.1, n)).peerId)
    (sendNodes : Fin (k + 2) → List Nodeinfo) :
    Kept P T ⟨s.deleteElement b c, nodes, Function.update s.count b (s.count b + 1),
      sendNodes⟩ where
  sublist := h.sublist_deleteElement c
  counts := h.counts_deleteElement c
  own x hx := by
    have hold : x.2 ∈ s.fillArea x.1 ∨ x.2 ∉ P.fillArea x.1 :=
      hx.imp_left fun hx => ((h.mem_deleteElement c x).mp hx).1
    have hne : x ≠ (b, (s.fillArea b).get c) := by
      rcases hx with hx | hx
      · exact ((h.mem_deleteElement c x).mp hx).2
      · rintro rfl
        exact hx ((h.sublist b).subset (get_mem _ _))
    rcases hother x hne with heq | ⟨hmem, hnot, -⟩
    · exact heq.trans (h.own x hold)
    · exact absurd hold (not_or.mpr ⟨hnot, not_not.mpr hmem⟩)
  foreign x hmem hnot := by
    by_cases hx : x = (b, (s.fillArea b).get c)
    · rw [hx]
      exact hslot
    · rcases hother x hx with heq | ⟨-, -, hforeign⟩
      · dsimp only
        rw [heq]
        exact h.foreign x hmem fun hin => hnot ((h.mem_deleteElement c x).mpr ⟨hin, hx⟩)
      · exact hforeign

lemma place (h : Kept P T s) (hb : b ≠ i) (c : Fin (s.fillArea b).length) :
    Kept P T (s.place P T i j b c) := by
  refine h.fill c (fun n heq => ?_) (fun x hx => .inl (update_of_ne hx ..)) _
  rw [Filling.setPeer, update_self] at heq
  exact hb (congrArg Prod.fst (T.distinct heq)).symm

/-- Nodes are exchanged with a shard that is filled. -/
lemma exchange (h : Kept P T s) {target : Slot (k + 2) N} (htarget : target.1 ≠ i)
    (hmem : target.2 ∈ P.fillArea target.1) (hfull : s.fillArea target.1 = [])
    (hjudge : s.judgeElement T i target = true) (c : Fin (s.fillArea i).length) :
    Kept P T (s.exchange P T i j target c) := by
  have hne : (i, (s.fillArea i).get c) ≠ target := fun heq =>
    htarget (congrArg Prod.fst heq).symm
  refine h.fill c (fun n => ?_) (fun x hx => ?_) _
  · simp only [Filling.judgeElement, decide_eq_true_eq] at hjudge
    simp only [Filling.exchanged, Filling.setPeer, update_of_ne hne, update_self]
    exact hjudge n
  · by_cases htx : x = target
    · subst htx
      refine .inr ⟨hmem, by simp [hfull], fun n heq => ?_⟩
      simp only [Filling.exchanged, Filling.setPeer, update_self] at heq
      exact htarget (congrArg Prod.fst (T.distinct heq)).symm
    · exact .inl ((update_of_ne htx ..).trans (update_of_ne hx ..))

end Kept

/-! ## Which peers there are -/

/-- The selected nodes of the rounds. -/
def selectedPeers (P : Plan (k + 2) N M) (T : Table (k + 2) N) (es : List (Fin (k + 2) × Fin M)) :
    Multiset Bytes :=
  (es.map fun e => (T.nodes (e.1, P.position e.1 e.2)).peerId : List Bytes)

/-- The nodes of the last shard that the exchanges of these rounds should move. -/
def rightPeers (P : Plan (k + 2) N M) (T : Table (k + 2) N) (W : Multiset (Fin M)) :
    Multiset Bytes :=
  W.map fun j => (T.nodes (Fin.last _, P.position (Fin.last _) j)).peerId

/-- The nodes that they do move. -/
def exchangedPeers (P : Plan (k + 2) N M) (T : Table (k + 2) N) (W : Multiset (Fin M)) :
    Multiset Bytes :=
  W.map fun j => (T.nodes (Fin.last _, j.castLE P.moveCount_le)).peerId

/-- The rounds to come and the exchanges so far account for the peers. -/
def Balanced (P : Plan (k + 2) N M) (T : Table (k + 2) N) (s : Filling (k + 2) N)
    (es : List (Fin (k + 2) × Fin M)) (W : Multiset (Fin M)) : Prop :=
  peers s.nodesinfo + selectedPeers P T es + rightPeers P T W =
    peers T.nodes + areaPeers T s.fillArea + exchangedPeers P T W

variable {es : List (Fin (k + 2) × Fin M)} {W : Multiset (Fin M)}

lemma selectedPeers_cons (P : Plan (k + 2) N M) (T : Table (k + 2) N)
    (e : Fin (k + 2) × Fin M) (es : List (Fin (k + 2) × Fin M)) :
    selectedPeers P T (e :: es) =
      {(T.nodes (e.1, P.position e.1 e.2)).peerId} + selectedPeers P T es := by
  rw [selectedPeers, map_cons, ← Multiset.cons_coe, Multiset.singleton_add, selectedPeers]

lemma Balanced.place (hbal : Balanced P T s ((i, j) :: es) W) (h : Kept P T s)
    (c : Fin (s.fillArea b).length) : Balanced P T (s.place P T i j b c) es W := by
  have hpeers := peers_setPeer s.nodesinfo (b, (s.fillArea b).get c)
    (T.nodes (i, P.position i j)).peerId
  have harea := areaPeers_deleteElement T s b c
  rw [h.own (b, (s.fillArea b).get c) (.inl (get_mem _ _))] at hpeers
  rw [Balanced, selectedPeers_cons] at hbal
  refine Multiset.ext.mpr fun a => ?_
  have h₁ := congrArg (Multiset.count a) hpeers
  have h₂ := congrArg (Multiset.count a) harea
  have h₃ := congrArg (Multiset.count a) hbal
  simp only [Filling.place, Multiset.count_add] at h₁ h₂ h₃ ⊢
  omega

lemma peers_exchanged (h : Kept P T s) {target : Slot (k + 2) N} (htarget : target.1 ≠ i)
    (c : Fin (s.fillArea i).length) :
    peers (s.exchanged P T i j target ((s.fillArea i).get c)) +
        {(T.nodes (i, (s.fillArea i).get c)).peerId} =
      peers s.nodesinfo + {(T.nodes (i, j.castLE P.moveCount_le)).peerId} := by
  have hne : target ≠ (i, (s.fillArea i).get c) := fun heq => htarget (congrArg Prod.fst heq)
  have hfirst := peers_setPeer s.nodesinfo (i, (s.fillArea i).get c) (s.nodesinfo target).peerId
  have hsecond := peers_setPeer (Filling.setPeer s.nodesinfo (i, (s.fillArea i).get c)
    (s.nodesinfo target).peerId) target (T.nodes (i, j.castLE P.moveCount_le)).peerId
  rw [h.own (i, (s.fillArea i).get c) (.inl (get_mem _ _))] at hfirst
  have hsame : Filling.setPeer s.nodesinfo (i, (s.fillArea i).get c) (s.nodesinfo target).peerId
      target = s.nodesinfo target := update_of_ne hne _ _
  rw [hsame] at hsecond
  refine Multiset.ext.mpr fun a => ?_
  have h₁ := congrArg (Multiset.count a) hfirst
  have h₂ := congrArg (Multiset.count a) hsecond
  simp only [Filling.exchanged, Multiset.count_add] at h₁ h₂ ⊢
  omega

lemma Balanced.exchange (hbal : Balanced P T s ((Fin.last _, j) :: es) W) (h : Kept P T s)
    {target : Slot (k + 2) N} (htarget : target.1 ≠ Fin.last _)
    (c : Fin (s.fillArea (Fin.last _)).length) :
    Balanced P T (s.exchange P T (Fin.last _) j target c) es (j ::ₘ W) := by
  have hpeers := peers_exchanged (j := j) h htarget c
  have harea := areaPeers_deleteElement T s (Fin.last _) c
  rw [Balanced, selectedPeers_cons] at hbal
  have hright : rightPeers P T (j ::ₘ W) =
      {(T.nodes (Fin.last _, P.position (Fin.last _) j)).peerId} + rightPeers P T W :=
    Multiset.map_cons ..
  have hexchanged : exchangedPeers P T (j ::ₘ W) =
      {(T.nodes (Fin.last _, j.castLE P.moveCount_le)).peerId} + exchangedPeers P T W :=
    Multiset.map_cons ..
  rw [Balanced, hright, hexchanged]
  refine Multiset.ext.mpr fun a => ?_
  have h₁ := congrArg (Multiset.count a) hpeers
  have h₂ := congrArg (Multiset.count a) harea
  have h₃ := congrArg (Multiset.count a) hbal
  simp only [Filling.exchange, Multiset.count_add] at h₁ h₂ h₃ ⊢
  omega

/-! ## The shards before the last one -/

/-- The rounds of the shards before the last one. -/
def firstRounds (k M : ℕ) : List (Fin (k + 2) × Fin M) :=
  (List.finRange (k + 1)).flatMap fun i => (List.finRange M).map fun j => (i.castSucc, j)

def lastRounds (k : ℕ) (js : List (Fin M)) : List (Fin (k + 2) × Fin M) :=
  js.map fun j => (Fin.last _, j)

lemma rounds_eq (k M : ℕ) :
    rounds (k + 2) M = firstRounds k M ++ lastRounds k (List.finRange M) := by
  rw [rounds, finRange_succ_last, flatMap_append, flatMap_map,
    flatMap_singleton]
  rfl

lemma ne_last_of_mem_firstRounds {e : Fin (k + 2) × Fin M} (h : e ∈ firstRounds k M) :
    e.1 ≠ Fin.last _ := by
  simp only [firstRounds, mem_flatMap, List.mem_map] at h
  obtain ⟨i, -, j, -, rfl⟩ := h
  exact Fin.castSucc_ne_last i

lemma left_eq (s : Filling (k + 2) N) :
    s.left = ∑ b : Fin (k + 1), (s.fillArea b.castSucc).length +
      (s.fillArea (Fin.last _)).length := Fin.sum_univ_castSucc _

lemma Kept.length_le (h : Kept P T s) (b : Fin (k + 2)) : (s.fillArea b).length ≤ M := by
  have := h.counts b
  omega

lemma Kept.left_of_watchError (h : Kept P T s) (hwatch : s.watchError M = false) :
    s.left = (s.fillArea (Fin.last _)).length := by
  rw [left_eq, Nat.add_eq_right]
  refine Finset.sum_eq_zero fun b _ => ?_
  have hcount := watchError_eq_false_iff.mp hwatch b.castSucc (Fin.castSucc_ne_last b)
  rw [(h.fillArea_eq_nil_iff _).mpr hcount, length_nil]

lemma Kept.lt_left_of_watchError (h : Kept P T s) (hwatch : s.watchError M = true) :
    ∃ b, b ≠ Fin.last _ ∧ s.fillArea b ≠ [] ∧ (s.fillArea (Fin.last _)).length < s.left := by
  have hexists : ∃ b, b ≠ Fin.last (k + 1) ∧ s.count b ≠ M := by
    by_contra hnone
    push Not at hnone
    rw [watchError_eq_false_iff.mpr hnone] at hwatch
    cases hwatch
  obtain ⟨b, hb, hcount⟩ := hexists
  have hne : s.fillArea b ≠ [] := fun hnil => hcount ((h.fillArea_eq_nil_iff b).mp hnil)
  refine ⟨b, hb, hne, ?_⟩
  obtain ⟨b', rfl⟩ := Fin.exists_castSucc_eq.mpr hb
  have hle := Finset.single_le_sum (f := fun b : Fin (k + 1) => (s.fillArea b.castSucc).length)
    (fun _ _ => Nat.zero_le _) (Finset.mem_univ b')
  have hpos := length_pos_iff.mpr hne
  rw [left_eq]
  omega

lemma left_place (c : Fin (s.fillArea b).length) :
    (s.place P T i j b c).left + 1 = s.left := left_deleteElement s b c

lemma left_exchange (target : Slot (k + 2) N) (c : Fin (s.fillArea i).length) :
    (s.exchange P T i j target c).left + 1 = s.left := left_deleteElement s i c

/-- The rounds of the first shards place every node. -/
lemma run_firstRounds {ls : List (Fin (k + 2) × Fin M)} (hes : ∀ e ∈ es, e.1 ≠ Fin.last _)
    (h : Kept P T s) (hbal : Balanced P T s (es ++ ls) W) (hleft : s.left = es.length + M)
    {rs rs' : List ℕ} (hrun : run (fillStep P T) (s, rs) es = some (s', rs')) :
    Kept P T s' ∧ Balanced P T s' ls W ∧ s'.left = M ∧ ∀ Q : Filling (k + 2) N → Prop,
      (∀ e ∈ es, ∀ s b c, b ≠ e.1 → Q s → Q (s.place P T e.1 e.2 b c)) → Q s → Q s' := by
  induction es generalizing s rs with
  | nil =>
    cases hrun
    exact ⟨h, hbal, by simpa using hleft, fun _ _ hQ => hQ⟩
  | cons e es ih =>
    obtain ⟨t, hstep, hrest⟩ := run_cons.mp hrun
    obtain ⟨i, j⟩ := e
    obtain ⟨t, rs₁⟩ := t
    rw [length_cons] at hleft
    rcases fillStep_cases hstep with ⟨-, b, c, hb, rfl⟩ | ⟨hwatch, -⟩
    · have hle := left_place (P := P) (T := T) (i := i) (j := j) c
      obtain ⟨hkept, hbal', hleft', hQ⟩ := ih
        (fun e he => hes e (mem_cons_of_mem _ he)) (h.place hb c) (hbal.place h c)
        (by omega) hrest
      refine ⟨hkept, hbal', hleft', fun Q hplace hs => ?_⟩
      exact hQ Q (fun e he => hplace e (mem_cons_of_mem _ he))
        (hplace (i, j) mem_cons_self s b c hb hs)
    · have hall := h.left_of_watchError hwatch
      have hle := h.length_le (Fin.last _)
      omega

/-! ## The last shard -/

/-- The last rounds place nodes until the other shards are filled, and then exchange. -/
lemma run_lastRounds {js : List (Fin M)} {d : ℕ} (h : Kept P T s)
    (hbal : Balanced P T s (lastRounds k js) W) (hleft : s.left = js.length)
    (hlast : (s.fillArea (Fin.last _)).length = min d js.length)
    {rs rs' : List ℕ} (hrun : run (fillStep P T) (s, rs) (lastRounds k js) = some (s', rs')) :
    Kept P T s' ∧ s'.left = 0 ∧ Balanced P T s' [] (↑(js.drop (js.length - d)) + W) := by
  induction js generalizing s rs W with
  | nil =>
    cases hrun
    refine ⟨h, hleft, ?_⟩
    rw [drop_nil, Multiset.coe_nil, zero_add]
    exact hbal
  | cons j js ih =>
    obtain ⟨t, hstep, hrest⟩ := run_cons.mp hrun
    obtain ⟨t, rs₁⟩ := t
    rw [length_cons] at hleft hlast
    rcases fillStep_cases hstep with ⟨hwatch, b, c, hb, rfl⟩ |
      ⟨hwatch, target, c, htarget, hmem, hjudge, rfl⟩
    · obtain ⟨-, -, -, hlt⟩ := h.lt_left_of_watchError hwatch
      have hle := left_place (P := P) (T := T) (i := Fin.last (k + 1)) (j := j) c
      have harea : (s.place P T (Fin.last _) j b c).fillArea (Fin.last _) =
          s.fillArea (Fin.last _) := update_of_ne hb.symm _ _
      obtain ⟨hkept, hleft', hbal'⟩ := ih (h.place hb c) (hbal.place h c) (by omega)
        (by rw [harea]; omega) hrest
      refine ⟨hkept, hleft', ?_⟩
      rw [length_cons, show js.length + 1 - d = js.length - d + 1 by omega]
      exact hbal'
    · have hall := h.left_of_watchError hwatch
      have hle := left_exchange (P := P) (T := T) (i := Fin.last (k + 1)) (j := j)
        target c
      have hfull : s.fillArea target.1 = [] :=
        (h.fillArea_eq_nil_iff _).mpr (watchError_eq_false_iff.mp hwatch _ htarget)
      have harea : ((s.exchange P T (Fin.last _) j target c).fillArea (Fin.last _)).length =
          (s.fillArea (Fin.last _)).length - 1 := by
        simp only [Filling.exchange, Filling.deleteElement, update_self]
        exact length_eraseIdx_of_lt c.isLt
      obtain ⟨hkept, hleft', hbal'⟩ := ih (h.exchange htarget hmem hfull hjudge c)
        (hbal.exchange h htarget c) (by omega) (by omega) hrest
      refine ⟨hkept, hleft', ?_⟩
      rw [length_cons, show js.length + 1 - d = 0 by omega, drop_zero]
      rw [show js.length - d = 0 by omega] at hbal'
      rw [← Multiset.cons_coe, Multiset.cons_add, ← Multiset.add_cons]
      exact hbal'

/-! ## The result -/


@[simp] lemma map_position (P : Plan S N M) (i : Fin S) :
    (List.finRange M).map (P.position i) = P.fillArea i := by
  refine ext_getElem (by simp [P.length_eq]) fun n h₁ h₂ => ?_
  simp [Plan.position]

lemma selectedPeers_rounds (P : Plan (k + 2) N M) (T : Table (k + 2) N) :
    selectedPeers P T (rounds (k + 2) M) = areaPeers T P.fillArea := by
  have hmap : ∀ i, (finRange M).map (fun j => (T.nodes (i, P.position i j)).peerId) =
      (P.fillArea i).map fun n => (T.nodes (i, n)).peerId := by
    intro i
    conv_rhs => rw [← map_position P i, List.map_map]
    rfl
  rw [selectedPeers, rounds, map_flatMap, ← Multiset.coe_bind, areaPeers, Fin.sum_univ_def]
  simp only [List.map_map, comp_def, hmap]
  rfl

@[simp] lemma length_firstRounds (k M : ℕ) : (firstRounds k M).length = (k + 1) * M := by
  simp [firstRounds]

lemma left_start (P : Plan (k + 2) N M) (T : Table (k + 2) N)
    (sendNodes : Fin (k + 2) → List Nodeinfo) :
    (Filling.start P T sendNodes).left = (firstRounds k M).length + M := by
  simp only [Filling.left, Filling.start, P.length_eq, Finset.sum_const, Finset.card_univ,
    Fintype.card_fin, length_firstRounds]
  ring

/-- The peers are the same, and just the selected nodes are in another shard. -/
structure Permuted (P : Plan S N M) (T : Table S N) (nodesinfo : Slot S N → Nodeinfo) : Prop where
  peers_eq : peers nodesinfo = peers T.nodes
  moved : ∀ x : Slot S N, x.2 ∈ P.fillArea x.1 →
    ∃ y : Slot S N, (nodesinfo y).peerId = (T.nodes x).peerId ∧ y.1 ≠ x.1
  stays : ∀ x : Slot S N, x.2 ∉ P.fillArea x.1 → nodesinfo x = T.nodes x

lemma Kept.fillArea_of_left (hleft : s.left = 0) (b : Fin (k + 2)) : s.fillArea b = [] := by
  have hzero := Finset.sum_eq_zero_iff.mp hleft b (Finset.mem_univ b)
  exact length_eq_zero_iff.mp hzero

/-- If all slots are filled, the peers decide. -/
lemma Kept.permuted_iff (h : Kept P T s) (hleft : s.left = 0) :
    Permuted P T s.nodesinfo ↔ peers s.nodesinfo = peers T.nodes := by
  refine ⟨Permuted.peers_eq, fun hpeers => ⟨hpeers, ?_, fun x hx => h.own x (.inr hx)⟩⟩
  intro x hx
  have hmem : (T.nodes x).peerId ∈ peers s.nodesinfo := by
    rw [hpeers]
    exact Multiset.mem_map_of_mem _ (Finset.mem_univ x)
  obtain ⟨y, -, hy⟩ := Multiset.mem_map.mp hmem
  refine ⟨y, hy, fun hshard => ?_⟩
  by_cases hsel : y.2 ∈ P.fillArea y.1
  · have hforeign := h.foreign y hsel (by rw [Kept.fillArea_of_left hleft]; simp) x.2
    rw [hshard] at hforeign
    exact hforeign hy
  · rw [h.own y (.inr hsel)] at hy
    rw [T.distinct hy] at hsel
    exact hsel hx

/-- The exchanged positions are the selected ones, in some order. -/
def RightExchanges (P : Plan (k + 2) N M) (W : Multiset (Fin M)) : Prop :=
  W.map (P.position (Fin.last _)) = W.map (Fin.castLE P.moveCount_le)

lemma rightPeers_eq_iff (P : Plan (k + 2) N M) (T : Table (k + 2) N) (W : Multiset (Fin M)) :
    rightPeers P T W = exchangedPeers P T W ↔ RightExchanges P W := by
  have hinj : Function.Injective fun n => (T.nodes (Fin.last (k + 1), n)).peerId := fun a b hab =>
    congrArg Prod.snd (T.distinct hab)
  have hright : rightPeers P T W = (W.map (P.position (Fin.last _))).map
      fun n => (T.nodes (Fin.last (k + 1), n)).peerId := by
    rw [Multiset.map_map]
    rfl
  have hexchanged : exchangedPeers P T W = (W.map (Fin.castLE P.moveCount_le)).map
      fun n => (T.nodes (Fin.last (k + 1), n)).peerId := by
    rw [Multiset.map_map]
    rfl
  rw [hright, hexchanged, (Multiset.map_injective hinj).eq_iff, RightExchanges]

section Result

variable {sendNodes : Fin (k + 2) → List Nodeinfo} {s₁ s₂ : Filling (k + 2) N}
  {rs rs₁ rs₂ : List ℕ}

lemma spec_firstRounds
    (hfirst : run (fillStep P T) (.start P T sendNodes, rs) (firstRounds k M) = some (s₁, rs₁)) :
    Kept P T s₁ ∧ Balanced P T s₁ (lastRounds k (List.finRange M)) 0 ∧ s₁.left = M ∧
      (k = 0 → (s₁.fillArea (Fin.last _)).length = 0) := by
  have hbal : Balanced P T (.start P T sendNodes) (rounds (k + 2) M) 0 := by
    simp only [Balanced, Filling.start, selectedPeers_rounds, rightPeers, exchangedPeers,
      Multiset.map_zero]
  rw [rounds_eq] at hbal
  obtain ⟨hkept, hbal', hleft, hplace⟩ := run_firstRounds
    (fun e he => ne_last_of_mem_firstRounds he) (kept_start P T sendNodes) hbal
    (left_start P T sendNodes) hfirst
  refine ⟨hkept, hbal', hleft, ?_⟩
  rintro rfl
  have hfirst : ∀ e ∈ firstRounds 0 M, e.1 = 0 := by
    intro e he
    have hne := ne_last_of_mem_firstRounds he
    rw [ne_eq, Fin.ext_iff, Fin.val_last] at hne
    refine Fin.ext ?_
    rw [Fin.val_zero]
    omega
  have hzero : s₁.fillArea 0 = P.fillArea 0 := by
    refine hplace (fun s => s.fillArea 0 = P.fillArea 0) ?_ rfl
    intro e he s b c hb hs
    rw [hfirst e he] at hb
    exact (update_of_ne hb.symm _ _).trans hs
  rw [left_eq, Fin.sum_univ_one, Fin.castSucc_zero, hzero, P.length_eq] at hleft
  omega

/-- The exchanges are those of the last rounds, as many as the last shard has slots left. -/
lemma permuted_iff_of_run
    (hfirst : run (fillStep P T) (.start P T sendNodes, rs) (firstRounds k M) = some (s₁, rs₁))
    (hlast : run (fillStep P T) (s₁, rs₁) (lastRounds k (List.finRange M)) = some (s₂, rs₂)) :
    Permuted P T s₂.nodesinfo ↔ RightExchanges P
      (((List.finRange M).drop (M - (s₁.fillArea (Fin.last _)).length) : List (Fin M)) :
        Multiset (Fin M)) := by
  obtain ⟨hkept, hbal, hleft, -⟩ := spec_firstRounds hfirst
  have hle := hkept.length_le (Fin.last _)
  obtain ⟨hkept', hleft', hbal'⟩ := run_lastRounds (d := (s₁.fillArea (Fin.last _)).length) hkept
    hbal (by rw [hleft, length_finRange]) (by rw [length_finRange]; omega) hlast
  have harea : areaPeers T s₂.fillArea = 0 := Finset.sum_eq_zero fun b _ => by
    rw [Kept.fillArea_of_left hleft']
    rfl
  rw [hkept'.permuted_iff hleft', ← rightPeers_eq_iff P T]
  rw [length_finRange, add_zero, Balanced, harea] at hbal'
  have hnone : selectedPeers P T [] = 0 := rfl
  rw [hnone, add_zero, add_zero] at hbal'
  constructor
  · intro heq
    rw [heq] at hbal'
    exact add_left_cancel hbal'
  · intro heq
    rw [heq] at hbal'
    exact add_right_cancel hbal'

end Result

end Kept

end ShardingBC.Reconfiguration
