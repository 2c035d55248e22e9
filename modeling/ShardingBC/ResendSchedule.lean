import ShardingBC.ConcurrentCalls

/-!
# When a pending message is sent again

Each pending entry is followed by the position of the call that added it. It is returned by the
first update after that and by every twentieth update since, whatever is added and removed around
it.
-/
namespace ShardingBC.Resend

open List

open SharedMessages (Call sequential sequential_append sequential_concat length_sequential)

/-- An entry with the position of the call that has added it. -/
abbrev Dated := ℕ × CrossMessage

/-- The sequential meaning of a call on dated entries. -/
def step (n : ℕ) (l : List Dated) : Call → List Dated
  | .add tcm => l ++ [(n, ⟨tcm, 0⟩)]
  | .remove tcm =>
    (tcm.packages.getD []).foldl (fun db pack => db.eraseP fun x => x.2.Matches pack) l
  | .update => l.map fun x => (x.1, x.2.tick)

/-- The dated entries after the calls, starting with none. -/
def dated (calls : List Call) : List Dated :=
  (calls.foldl (fun s c => (s.1 + 1, step s.1 s.2 c)) (0, [])).2

/-- The updates among the calls after a position. -/
def updatesSince (n : ℕ) (calls : List Call) : ℕ := (calls.drop (n + 1)).count .update

lemma dated_concat (calls : List Call) (c : Call) :
    dated (calls ++ [c]) = step calls.length (dated calls) c := by
  have hlength : ∀ (s : ℕ × List Dated),
      (calls.foldl (fun s c => (s.1 + 1, step s.1 s.2 c)) s).1 = s.1 + calls.length := by
    induction calls with
    | nil => simp
    | cons d calls ih =>
      intro s
      rw [foldl_cons, ih, length_cons]
      omega
  rw [dated, foldl_append, foldl_cons, hlength, Nat.zero_add]
  rfl

lemma map_snd_step (n : ℕ) (l : List Dated) (c : Call) :
    (step n l c).map Prod.snd = (c.apply (l.map Prod.snd)).2 := by
  cases c with
  | add tcm => simp [step, Call.apply, addCrossMessagesDB]
  | remove tcm =>
    simp only [step, Call.apply, removeCrossMessagesDB]
    induction tcm.packages.getD [] generalizing l with
    | nil => rfl
    | cons pack packs ih =>
      rw [foldl_cons, foldl_cons, ih, eraseP_map]
      rfl
  | update =>
    rw [Call.apply, updatecmDB_eq]
    simp [step]

@[simp] lemma map_snd_dated (calls : List Call) :
    (dated calls).map Prod.snd = (sequential calls []).2 := by
  induction calls using reverseRecOn with
  | nil => rfl
  | append_singleton calls c ih => rw [dated_concat, map_snd_step, ih, sequential_concat]

/-- The counter of an entry that has seen so many updates. -/
def counter (u : ℕ) : Int64 := if u = 0 then 0 else Int64.ofNat ((u - 1) % 20 + 1)

lemma counter_succ (v : ℕ) : counter (v + 1) = Int64.ofNat (v % 20 + 1) := by
  simp [counter]

lemma tick_counter (u : ℕ) :
    (if counter u = 20 then 1 else counter u + 1) = counter (u + 1) := by
  cases u with
  | zero => decide
  | succ v =>
    have hround : ∀ r < 20, (if Int64.ofNat (r + 1) = 20 then 1 else Int64.ofNat (r + 1) + 1) =
        Int64.ofNat ((r + 1) % 20 + 1) := by decide
    rw [counter_succ, counter_succ, hround _ (Nat.mod_lt _ (by omega)), Nat.mod_add_mod]

lemma counter_bounds (u : ℕ) : 0 ≤ counter u ∧ counter u ≤ 20 := by
  cases u with
  | zero => decide
  | succ v =>
    have hround : ∀ r < 20, 0 ≤ Int64.ofNat (r + 1) ∧ Int64.ofNat (r + 1) ≤ 20 := by decide
    exact hround _ (Nat.mod_lt _ (by omega))

lemma counter_due_iff (u : ℕ) : (counter u = 0 ∨ counter u = 20) ↔ 20 ∣ u := by
  cases u with
  | zero => decide
  | succ v =>
    have hround : ∀ r < 20, (Int64.ofNat (r + 1) = 0 ∨ Int64.ofNat (r + 1) = 20) ↔ r = 19 := by
      decide
    rw [counter_succ, hround _ (Nat.mod_lt _ (by omega))]
    omega

variable {calls : List Call}

lemma updatesSince_concat {n : ℕ} (hn : n < calls.length) (c : Call) :
    updatesSince n (calls ++ [c]) = updatesSince n calls + if c = .update then 1 else 0 := by
  rw [updatesSince, drop_append_of_le_length (by omega), updatesSince]
  simp [count_singleton]

/-- What is known of a dated entry after the calls. -/
structure Timely (calls : List Call) (x : Dated) : Prop where
  added : calls[x.1]? = some (.add x.2.content)
  height : x.2.height = counter (updatesSince x.1 calls)

lemma Timely.lt {x : Dated} (h : Timely calls x) : x.1 < calls.length :=
  (List.getElem?_eq_some_iff.mp h.added).1

lemma Timely.keep {x : Dated} (h : Timely calls x) {c : Call}
    (hc : c ≠ .update) : Timely (calls ++ [c]) x := by
  refine ⟨?_, ?_⟩
  · rw [getElem?_append_left h.lt]
    exact h.added
  · rw [updatesSince_concat h.lt, if_neg hc]
    exact h.height

lemma Timely.tick {x : Dated} (h : Timely calls x) :
    Timely (calls ++ [.update]) (x.1, x.2.tick) := by
  refine ⟨?_, ?_⟩
  · rw [getElem?_append_left h.lt]
    exact h.added
  · rw [updatesSince_concat h.lt, if_pos rfl, ← tick_counter, ← h.height]
    rfl

lemma foldl_eraseP_sublist (packs : List Package) (l : List Dated) :
    (packs.foldl (fun db pack => db.eraseP fun x => x.2.Matches pack) l).Sublist l := by
  induction packs generalizing l with
  | nil => exact List.Sublist.refl l
  | cons pack packs ih => exact (ih _).trans eraseP_sublist

lemma dated_timely (calls : List Call) :
    (∀ x ∈ dated calls, Timely calls x) ∧ ((dated calls).map Prod.fst).Pairwise (· < ·) := by
  induction calls using reverseRecOn with
  | nil => exact ⟨by simp [dated], by simp [dated]⟩
  | append_singleton calls c ih =>
    obtain ⟨htimely, horder⟩ := ih
    rw [dated_concat]
    cases c with
    | add tcm =>
      constructor
      · intro x hx
        rcases mem_append.mp hx with hx | hx
        · exact (htimely x hx).keep (by simp)
        · rw [mem_singleton.mp hx]
          refine ⟨by simp, ?_⟩
          simp [updatesSince, counter]
      · rw [step, map_append, pairwise_append]
        refine ⟨horder, by simp, ?_⟩
        intro i hi j hj
        obtain ⟨x, hx, rfl⟩ := mem_map.mp hi
        simp only [map_cons, map_nil, mem_singleton] at hj
        rw [hj]
        exact (htimely x hx).lt
    | remove tcm =>
      have hsub := foldl_eraseP_sublist (tcm.packages.getD []) (dated calls)
      exact ⟨fun x hx => (htimely x (hsub.subset hx)).keep (by simp),
        horder.sublist (hsub.map Prod.fst)⟩
    | update =>
      constructor
      · intro x hx
        obtain ⟨y, hy, rfl⟩ := mem_map.mp hx
        exact (htimely y hy).tick
      · rw [step, map_map]
        exact horder

lemma Timely.due_iff {x : Dated} (h : Timely calls x) :
    x.2.due = true ↔ 20 ∣ updatesSince x.1 calls := by
  rw [← counter_due_iff, ← h.height]
  simp [CrossMessage.due]

/-- In every sequence of calls, at every point: an entry stands for one earlier addition,
the entries are in the order of the additions, the counters lie between 0 and 20, and the
next update returns, in this order and each once, the entries for which the number of
updates since their addition is a multiple of 20. -/
theorem updatecmDB_schedule (before after : List Call) :
    (dated before).map Prod.snd = (sequential before []).2 ∧
    ((dated before).map Prod.fst).Pairwise (· < ·) ∧
    (∀ x ∈ dated before, before[x.1]? = some (.add x.2.content) ∧
      0 ≤ x.2.height ∧ x.2.height ≤ 20) ∧
    (sequential (before ++ .update :: after) []).1[before.length]? =
      some (((dated before).filter fun x => 20 ∣ updatesSince x.1 before).map
        fun x => x.2.content) := by
  obtain ⟨htimely, horder⟩ := dated_timely before
  refine ⟨map_snd_dated before, horder, ?_, ?_⟩
  · intro x hx
    have hheight := (htimely x hx).height
    refine ⟨(htimely x hx).added, ?_, ?_⟩
    · rw [hheight]
      exact (counter_bounds _).1
    · rw [hheight]
      exact (counter_bounds _).2
  · have hdue : (dated before).filter (fun x => 20 ∣ updatesSince x.1 before) =
        (dated before).filter fun x => x.2.due := by
      refine filter_congr fun x hx => ?_
      rw [Bool.eq_iff_iff, (htimely x hx).due_iff, decide_eq_true_iff]
    rw [sequential_append, getElem?_append_right (by rw [length_sequential]),
      length_sequential, Nat.sub_self, hdue, ← map_snd_dated, sequential, Call.apply, updatecmDB_eq,
      filter_map, map_map]
    rfl

end ShardingBC.Resend
