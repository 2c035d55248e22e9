import ShardingBC.ConcurrentCalls

/-!
# Concurrent acknowledgements

A removal that names a pending message must be alone on the slice, else a message added meanwhile
disappears or an index goes out of range; other calls may overlap.
-/
namespace ShardingBC.SharedMessages

open Interleaving List Option

lemma Thread.result_eq_some_iff (t : Thread) (r : List CrossMessages) :
    t.result = some r ↔ t.prog = .ret (.inr r) := by
  unfold Thread.result
  split
  · next r' hp => simp [hp]
  · next hp => simpa using fun h => hp r h

/-- The system with the rest of one call and another heap. -/
def System.put (s : System) (k : ℕ) (t : Thread) (p : Prog Heap (Point ⊕ List CrossMessages))
    (h : Heap) : System :=
  { s with heap := h, threads := s.threads.set k { t with prog := p } }

/-- The call takes its next action. -/
def System.Acts (grow : ℕ → ℕ → ℕ) (s : System) (k : ℕ) (t : Thread) (s' : System) : Prop :=
  (∃ c, t.prog = .ret (.inl c) ∧ s' = s.put k t (body grow c) s.heap) ∨
    ∃ f rest, t.prog = .act f rest ∧
      (f s.heap = none ∨ ∃ h, f s.heap = some h ∧ s' = s.put k t (rest s.heap) h)

lemma next_step_cases {grow : ℕ → ℕ → ℕ} {s s' : System} {k : ℕ} (halive : s.crashed = false)
    (hnext : s.next grow (.step k) = some s') :
    ∃ t, s.threads[k]? = some t ∧ t.result = none ∧ s.Acts grow k t s' := by
  rw [System.next, if_neg (by simp [halive])] at hnext
  cases ht : s.threads[k]? with
  | none =>
    rw [ht] at hnext
    cases hnext
  | some t =>
    simp only [ht] at hnext
    refine ⟨t, rfl, ?_⟩
    cases hp : t.prog with
    | ret o =>
      cases o with
      | inl c =>
        simp only [hp] at hnext
        exact ⟨by simp [Thread.result, hp], Or.inl ⟨c, hp, (some.inj hnext).symm⟩⟩
      | inr r =>
        simp only [hp] at hnext
        cases hnext
    | act f rest =>
      refine ⟨by simp [Thread.result, hp], Or.inr ⟨f, rest, hp, ?_⟩⟩
      simp only [hp] at hnext
      cases hf : f s.heap with
      | none => exact Or.inl rfl
      | some h =>
        simp only [hf] at hnext
        exact Or.inr ⟨h, rfl, (some.inj hnext).symm⟩

section Put

variable {grow : ℕ → ℕ → ℕ} {cmDB l : List CrossMessage} {s : System} {log : List ℕ} {k : ℕ}
  {t : Thread} {p : Prog Heap (Point ⊕ List CrossMessages)} {h : Heap}

lemma System.Acts.ends {s' : System} {G : Heap → Heap → Prop} {r : List CrossMessages} {h' : Heap}
    (hacts : s.Acts grow k t s') (hends : Ends (body grow) G t.prog s.heap r h')
    (hrefl : G s.heap s.heap) :
    ∃ p h, s' = s.put k t p h ∧ G s.heap h ∧ Ends (body grow) G p h r h' := by
  rcases hacts with ⟨c, hp, rfl⟩ | ⟨f, rest, hp, hf⟩
  · rw [hp] at hends
    exact ⟨_, _, rfl, hrefl, hends.of_loop⟩
  · rw [hp] at hends
    obtain ⟨h₁, hf₁, hG, hrest⟩ := hends
    rw [hf₁] at hf
    rcases hf with hf | ⟨h, hf, rfl⟩
    · cases hf
    · cases hf
      exact ⟨_, _, rfl, hG, hrest⟩

lemma getElem?_put (ht : s.threads[k]? = some t) (j : ℕ) :
    (s.put k t p h).threads[j]? = if j = k then some { t with prog := p } else s.threads[j]? := by
  have hk := (List.getElem?_eq_some_iff.mp ht).1
  by_cases hj : j = k
  · subst hj
    rw [if_pos rfl]
    exact getElem?_set_self hk
  · rw [if_neg hj]
    exact getElem?_set_ne (Ne.symm hj)

lemma forall_put {P : ℕ → Thread → Prop} (ht : s.threads[k]? = some t)
    (hself : P k { t with prog := p }) (hother : ∀ j u, j ≠ k → s.threads[j]? = some u → P j u) :
    ∀ j u, (s.put k t p h).threads[j]? = some u → P j u := by
  intro j u hu
  rw [getElem?_put ht] at hu
  split_ifs at hu with hj
  · cases hu
    exact hj ▸ hself
  · exact hother j u hj hu

lemma call?_put (ht : s.threads[k]? = some t) (j : ℕ) : (s.put k t p h).call? j = s.call? j := by
  rw [System.call?, getElem?_put ht, System.call?]
  split_ifs with hj
  · rw [hj, ht]
    rfl
  · rfl

lemma isConsensus_put (ht : s.threads[k]? = some t) (j : ℕ) :
    (s.put k t p h).isConsensus j = s.isConsensus j := by
  rw [System.isConsensus, call?_put ht, System.isConsensus]

lemma Serial.put (hs : Serial cmDB s log l) (ht : s.threads[k]? = some t)
    (hsame : k ∈ log → ({ t with prog := p } : Thread).result.getD [] = t.result.getD []) :
    Serial cmDB (s.put k t p h) log l := by
  refine hs.congr (by simp [System.put]) (fun j _ => call?_put ht j) fun j hj => ?_
  rw [System.answer?, getElem?_put ht, System.answer?]
  split_ifs with hjk
  · subst hjk
    rw [ht, map_some, map_some, hsame hj]
  · rfl

lemma Working.put {j : ℕ} {u : Thread} (hworking : Working grow s log l j u)
    (ht : s.threads[k]? = some t) (hactive : t.result = none)
    {p' : Prog Heap (Point ⊕ List CrossMessages)}
    (hends : ∃ r h' ps', Ends (body grow) (Guarantee u.call.added) p' h r h' ∧ h'.Holds ps' ∧
      (r, h'.list) = u.call.apply l) :
    Working grow (s.put k t p h) log l j { u with prog := p' } := by
  refine ⟨hworking.pending, fun i hi => hworking.latest i ?_, fun v hv hvactive => ?_, hends⟩
  · rwa [isConsensus_put ht] at hi
  · rcases mem_or_eq_of_mem_set hv with hv | rfl
    · exact hworking.unrelated v hv hvactive
    · exact hworking.unrelated t (mem_of_getElem? ht) hactive

/-- The consensus goroutine has one call under way. -/
lemma Shared.working_unique (hs : Shared grow cmDB s log l) (ht : s.threads[k]? = some t)
    (hactive : t.result = none) (hcons : t.call.consensus = true) {j : ℕ} {u : Thread}
    (hu : s.threads[j]? = some u) (huactive : u.result = none) (hucons : u.call.consensus = true) :
    j = k :=
  le_antisymm
    ((hs.working k t ht hactive hcons).latest j
      (by simpa [System.isConsensus, System.call?, hu] using hucons))
    ((hs.working j u hu huactive hucons).latest k
      (by simpa [System.isConsensus, System.call?, ht] using hcons))

/-- A removal that only reads takes an action. -/
lemma Shared.put_reading (hs : Shared grow cmDB s log l) (ht : s.threads[k]? = some t)
    (hactive : t.result = none) (hremove : t.call.consensus = false)
    (hreads : p.Reads (Calm t.call.packs) (Removing t.call.packs) s.heap) :
    Shared grow cmDB (s.put k t p s.heap) log l := by
  have hreading := hs.reading k t ht hactive hremove
  have hresult : ({ t with prog := p } : Thread).result.getD [] = [] := by
    cases hr : ({ t with prog := p } : Thread).result with
    | none => rfl
    | some r =>
      rw [Thread.result_eq_some_iff] at hr
      dsimp only at hr
      rw [hr] at hreads
      rcases hreads with h | ⟨packs', i, h, -⟩
      · exact Sum.inr.inj h
      · cases h
  refine ⟨hs.serial.put ht fun _ => by rw [hresult, hactive]; rfl, hs.alive, hs.holds, hs.grown,
    ?_, ?_, ?_, ?_⟩
  · intro hidle
    refine hs.idle ((consensusBusy_eq_false_iff s).mpr fun j u hu hcons => ?_)
    refine (consensusBusy_eq_false_iff _).mp hidle j u ?_ hcons
    rw [getElem?_put ht, if_neg, hu]
    rintro rfl
    rw [ht] at hu
    cases hu
    rw [hremove] at hcons
    cases hcons
  · exact forall_put ht (fun _ => hreading.logged) fun j u _ hu => hs.done j u hu
  · refine forall_put ht (fun _ _ => ⟨hreading.logged, hreading.unnamed, hreads⟩) ?_
    intro j u _ hu huactive huremove
    have hother := hs.reading j u hu huactive huremove
    exact ⟨hother.logged, hother.unnamed, hother.reads⟩
  · refine forall_put ht (fun _ hcons => absurd (hremove.symm.trans hcons) (by simp)) ?_
    intro j u _ hu huactive hcons
    have hworking := hs.working j u hu huactive hcons
    exact hworking.put ht hactive hworking.ends

lemma Reading.put {j : ℕ} {u : Thread} (hreading : Reading s log j u)
    (hG : Guarantee t.call.added s.heap h)
    (hunrelated : ∀ pack ∈ u.call.packs, ∀ cm ∈ t.call.added, ¬ Names pack cm) {log' : List ℕ}
    (hlog : log ⊆ log') : Reading (s.put k t p h) log' j u := by
  have hunnamed : Unnamed u.call.packs h := by
    refine ⟨hG.holds, fun cm hcm pack hpack => ?_⟩
    rcases hG.only cm hcm with hold | hnew
    · exact hreading.unnamed.none_named cm hold pack hpack
    · exact hunrelated pack hpack cm hnew
  refine ⟨hlog hreading.logged, hunnamed, ?_⟩
  exact hreading.reads.step Calm.trans (fun _ _ _ hQ _ => hQ) ⟨hG.rely, hunnamed⟩

lemma shared_of_done (hs : Serial cmDB s log l) (halive : s.crashed = false) {ps : List ℕ}
    (hh : s.heap.Holds ps) (hlist : s.heap.list = l)
    (hdone : ∀ j u, s.threads[j]? = some u → u.result ≠ none ∧ j ∈ log) :
    Shared grow cmDB s log l where
  serial := hs
  alive := halive
  holds := ⟨ps, hh⟩
  grown := by
    rw [← hlist]
    exact prefix_rfl
  idle _ := hlist
  done j u hu _ := (hdone j u hu).2
  reading j u hu hactive _ := absurd hactive (hdone j u hu).1
  working j u hu hactive _ := absurd hactive (hdone j u hu).1

/-- A call of the consensus goroutine takes an action and goes on. -/
lemma Shared.put_working (hs : Shared grow cmDB s log l) (ht : s.threads[k]? = some t)
    (hactive : t.result = none) (hcons : t.call.consensus = true)
    (hG : Guarantee t.call.added s.heap h) (hgoes : ({ t with prog := p } : Thread).result = none)
    (hends : ∃ r h' ps', Ends (body grow) (Guarantee t.call.added) p h r h' ∧ h'.Holds ps' ∧
      (r, h'.list) = t.call.apply l) :
    Shared grow cmDB (s.put k t p h) log l := by
  have hworking := hs.working k t ht hactive hcons
  refine ⟨hs.serial.put ht fun _ => by rw [hgoes, hactive], hs.alive, hG.holds,
    hs.grown.trans hG.rely.contents, ?_, ?_, ?_, ?_⟩
  · intro hidle
    have := (consensusBusy_eq_false_iff _).mp hidle k { t with prog := p }
      (by rw [getElem?_put ht, if_pos rfl]) hcons
    exact absurd hgoes this
  · exact forall_put ht (absurd hgoes) fun j u _ hu => hs.done j u hu
  · refine forall_put ht (fun _ hremove => absurd (hcons.symm.trans hremove) (by simp)) ?_
    intro j u _ hu huactive huremove
    exact (hs.reading j u hu huactive huremove).put hG
      (hworking.unrelated u (mem_of_getElem? hu) huactive) (List.Subset.refl _)
  · refine forall_put ht (fun _ _ => hworking.put ht hactive hends) ?_
    intro j u hj hu huactive hucons
    exact absurd (hs.working_unique ht hactive hcons hu huactive hucons) hj

lemma Shared.put_returned (hs : Shared grow cmDB s log l) (ht : s.threads[k]? = some t)
    (hactive : t.result = none) (hcons : t.call.consensus = true)
    (hG : Guarantee t.call.added s.heap h) {r : List CrossMessages}
    (hret : ({ t with prog := p } : Thread).result = some r) (happly : (r, h.list) = t.call.apply l) :
    Shared grow cmDB (s.put k t p h) (log ++ [k]) h.list := by
  have hworking := hs.working k t ht hactive hcons
  have hself : (s.put k t p h).threads[k]? = some { t with prog := p } := by
    rw [getElem?_put ht, if_pos rfl]
  have hserial : Serial cmDB (s.put k t p h) log l :=
    hs.serial.put ht fun hmem => absurd hmem hworking.pending
  refine ⟨hserial.concat hself hworking.pending ?_ ?_, hs.alive, hG.holds, prefix_rfl,
    fun _ => rfl, ?_, ?_, ?_⟩
  · rw [hret]
    exact happly.symm
  · intro _ j hj hjcons
    rw [isConsensus_put ht] at hjcons
    refine lt_of_le_of_ne (hworking.latest j hjcons) ?_
    rintro rfl
    exact hworking.pending hj
  · exact forall_put ht (by simp) fun j u _ hu hdone => mem_append_left _ (hs.done j u hu hdone)
  · refine forall_put ht (by simp [hret]) fun j u _ hu huactive huremove => ?_
    exact (hs.reading j u hu huactive huremove).put hG
      (hworking.unrelated u (mem_of_getElem? hu) huactive) (subset_append_left _ _)
  · refine forall_put ht (by simp [hret]) fun j u hj hu huactive hucons => ?_
    exact absurd (hs.working_unique ht hactive hcons hu huactive hucons) hj

end Put

section Runs

variable {grow : ℕ → ℕ → ℕ} {cmDB l : List CrossMessage} {s s' : System} {log : List ℕ} {k : ℕ}
  {t : Thread}

lemma Shared.step (hs : Shared grow cmDB s log l) (hnext : s.next grow (.step k) = some s') :
    Kept grow cmDB s' := by
  obtain ⟨t, ht, hactive, hcases⟩ := next_step_cases hs.alive hnext
  obtain ⟨ps, hh⟩ := hs.holds
  cases hcons : t.call.consensus with
  | false =>
    have hreading := hs.reading k t ht hactive hcons
    have hreads := hreading.reads
    rcases hcases with ⟨c, hp, rfl⟩ | ⟨f, rest, hp, hf⟩
    · rw [hp] at hreads
      rcases hreads with h | ⟨packs', i, h, hsub⟩
      · cases h
      · cases h
        exact ⟨log, l, Or.inl (hs.put_reading ht hactive hcons (reads_remove grow hsub i))⟩
    · rw [hp] at hreads
      obtain ⟨hsame, hrest⟩ := hreads s.heap ⟨Rely.refl _, hreading.unnamed⟩
      rcases hf with hf | ⟨h, hf, rfl⟩
      · rw [hf] at hsame
        cases hsame
      · rw [hsame] at hf
        cases hf
        exact ⟨log, l, Or.inl (hs.put_reading ht hactive hcons hrest)⟩
  | true =>
    obtain ⟨r, h', ps', hends, hh', happly⟩ := (hs.working k t ht hactive hcons).ends
    obtain ⟨p, h, rfl, hG, hrest⟩ := hcases.ends hends (guarantee_refl hh)
    cases hresult : ({ t with prog := p } : Thread).result with
    | none =>
      exact ⟨log, l, Or.inl (hs.put_working ht hactive hcons hG hresult
        ⟨r, h', ps', hrest, hh', happly⟩)⟩
    | some r' =>
      have hp : p = .ret (.inr r') := (Thread.result_eq_some_iff _ r').mp hresult
      rw [hp] at hrest
      obtain ⟨rfl, rfl⟩ := hrest.of_ret
      exact ⟨_, _, Or.inl (hs.put_returned ht hactive hcons hG hresult happly)⟩

lemma Alone.step (hs : Alone grow cmDB s log l k t) {j : ℕ}
    (hnext : s.next grow (.step j) = some s') : Kept grow cmDB s' := by
  obtain ⟨u, hu, huactive, hcases⟩ := next_step_cases hs.alive hnext
  have hjk : j = k := by
    by_contra hne
    exact (hs.done j u hu hne).1 huactive
  subst hjk
  rw [hs.thread] at hu
  cases hu
  obtain ⟨tcm, h', ps', hcall, hends, hh', hlist⟩ := hs.ends
  obtain ⟨p, h, rfl, -, hrest⟩ := hcases.ends hends trivial
  have hserial : Serial cmDB (s.put j t p h) log l :=
    hs.serial.put hs.thread fun hmem => absurd hmem hs.pending
  have hself : (s.put j t p h).threads[j]? = some { t with prog := p } := by
    rw [getElem?_put hs.thread, if_pos rfl]
  have hothers : ∀ i u, (s.put j t p h).threads[i]? = some u → i ≠ j → u.result ≠ none ∧ i ∈ log := by
    intro i u hu hne
    rw [getElem?_put hs.thread, if_neg hne] at hu
    exact hs.done i u hu hne
  cases hresult : ({ t with prog := p } : Thread).result with
  | none =>
    exact ⟨log, l, Or.inr ⟨j, _, hserial, hs.alive, hself, hresult, hs.named, hs.pending, hothers,
      tcm, h', ps', hcall, hrest, hh', hlist⟩⟩
  | some r' =>
    have hp : p = .ret (.inr r') := (Thread.result_eq_some_iff _ r').mp hresult
    rw [hp] at hrest
    obtain ⟨rfl, rfl⟩ := hrest.of_ret
    refine ⟨log ++ [j], removeCrossMessagesDB tcm l, Or.inl (shared_of_done ?_ hs.alive hh' hlist ?_)⟩
    · refine hserial.concat hself hs.pending ?_ ?_
      · rw [hresult, show ({ t with prog := p } : Thread).call = .remove tcm from hcall]
        rfl
      · intro hcons
        rw [show ({ t with prog := p } : Thread).call = .remove tcm from hcall] at hcons
        cases hcons
    · intro i u hu
      by_cases hi : i = j
      · subst hi
        rw [hself] at hu
        cases hu
        exact ⟨by rw [hresult]; simp, by simp⟩
      · obtain ⟨hdone, hlogged⟩ := hothers i u hu hi
        exact ⟨hdone, mem_append_left _ hlogged⟩

/-- One event of a run. -/
lemma Kept.next (hgrow : ∀ cap n, n ≤ grow cap n) (hs : Kept grow cmDB s) {e : Event}
    (hapart : s.Apart e) (hnext : s.next grow e = some s') : Kept grow cmDB s' := by
  obtain ⟨log, l, hshared | ⟨k, t, halone⟩⟩ := hs
  · cases e with
    | step k => exact hshared.step hnext
    | call c =>
      rw [System.next] at hnext
      split_ifs at hnext with hbusy
      cases hnext
      change Kept grow cmDB (s.push c)
      simp only [Bool.or_eq_true, Bool.and_eq_true, not_or, not_and] at hbusy
      cases c with
      | remove tcm =>
        cases hnamed : (Call.remove tcm).named s.heap with
        | false => exact ⟨_, _, Or.inl (hshared.push_reading rfl hnamed hapart)⟩
        | true => exact ⟨_, _, Or.inr ⟨_, _, hshared.push_alone rfl hnamed hapart⟩⟩
      | _ =>
        have hfree : s.consensusBusy = false := by simpa using hbusy.2 rfl
        exact ⟨_, _, Or.inl (hshared.push_consensus hgrow rfl hfree hapart)⟩
  · cases e with
    | step j => exact halone.step hnext
    | call c =>
      have := (hapart t (mem_of_getElem? halone.thread) halone.active).1
      rw [halone.named] at this
      cases this

lemma kept_start {h : Heap} {ps : List ℕ} (hh : h.Holds ps) :
    Kept grow h.list (System.start h) :=
  ⟨[], h.list, Or.inl (shared_of_done ⟨nodup_nil, by simp, by simp, rfl⟩ rfl hh rfl
    (by simp [System.start]))⟩

/-- In a quiescent system every call has had its effect. -/
lemma Kept.serialized (hs : Kept grow cmDB s) (hquiet : s.Quiescent) : s.Serialized cmDB := by
  obtain ⟨log, l, hshared | ⟨k, t, halone⟩⟩ := hs
  · have hreturned : ∀ (k : ℕ) (t : Thread), s.threads[k]? = some t → t.result ≠ none :=
      fun k t ht => isSome_iff_ne_none.mp (hquiet t (mem_of_getElem? ht))
    refine ⟨log, ?_, hshared.serial.order, ?_⟩
    · rw [perm_ext_iff_of_nodup hshared.serial.nodup nodup_range]
      intro k
      rw [mem_range]
      constructor
      · exact hshared.serial.bound k
      · intro hk
        have ht := getElem?_eq_getElem hk
        exact hshared.done k _ ht (hreturned k _ ht)
    · rw [hshared.idle ((consensusBusy_eq_false_iff s).mpr fun k t ht _ => hreturned k t ht)]
      exact hshared.serial.seq
  · have := hquiet t (mem_of_getElem? halone.thread)
    rw [halone.active] at this
    cases this

/-- In every run in which calls overlap only when they have nothing to do with each other, no index
goes out of range, and at the end the pending messages and the results are those of a sequential
order of the calls. -/
theorem apart_runs_serialize (hgrow : ∀ cap n, n ≤ grow cap n) {h : Heap} {ps : List ℕ}
    (hh : h.Holds ps) {events : List Event}
    (hapart : Runs.Guarded (System.next grow) System.Apart (.start h) events)
    (hrun : Runs.run (System.next grow) (.start h) events = some s) :
    s.crashed = false ∧ (s.Quiescent → s.Serialized h.list) := by
  have hkept : Kept grow h.list s :=
    hapart.invariant (fun _ _ _ hs he hnext => hs.next hgrow he hnext) hrun (kept_start hh)
  refine ⟨?_, hkept.serialized⟩
  obtain ⟨log, l, hshared | ⟨k, t, halone⟩⟩ := hkept
  · exact hshared.alive
  · exact halone.alive

end Runs

def messageAt (height : Int64) : CrossMessages :=
  { CrossMessages.zero with height := height, crossMerkleRoot := some [1] }

/-- An acknowledgement of the message of that height. -/
def ackAt (height : Int64) : CrossMessages := acknowledgementOf (messageAt height)

/-- Two pending messages in an array with room for four. -/
def twoPending : Heap where
  cells a i := if a = 1 ∧ i < 2 then some i else none
  arrays := 2
  entries := [⟨messageAt 1, 1⟩, ⟨messageAt 2, 1⟩]
  slice := ⟨1, 0, 2, 4⟩

/-- The capacities of the runtime for short slices. -/
def doubling (cap n : ℕ) : ℕ := max (2 * cap) n

lemma holds_twoPending : twoPending.Holds [0, 1] where
  off := rfl
  len := rfl
  cap := by decide
  cell i hi := by
    have hi : i < 2 := hi
    rcases i with _ | _ | i
    · rfl
    · rfl
    · omega
  nodup := by decide
  valid := by decide
  nonnil _ := by decide
  used := by decide
  fresh a ha i := if_neg fun h => by
    have ha : 2 ≤ a := ha
    omega

/-- A message is added while an acknowledgement that names nothing reads. -/
def lateAck : List Event :=
  [.call (.remove (ackAt 7)), .step 0, .step 0, .call (.add (messageAt 3)), .step 1, .step 1,
    .step 1, .step 0, .step 0, .step 1, .step 1] ++ List.replicate 14 (.step 0)

theorem late_ack_serializes :
    Runs.Guarded (System.next doubling) System.Apart (.start twoPending) lateAck ∧
    ∃ s, Runs.run (System.next doubling) (.start twoPending) lateAck = some s ∧
      s.crashed = false ∧ s.threads.length = 2 ∧ s.Serialized twoPending.list := by
  refine (and_iff_left_of_imp fun hguarded => ?_).mpr (by decide +kernel)
  have hend : (Runs.run (System.next doubling) (.start twoPending) lateAck).any
      (fun s => s.threads.all (fun t => t.result.isSome) && s.threads.length == 2) = true := by
    decide +kernel
  obtain ⟨s, hrun, hs⟩ := (any_eq_true _ _).mp hend
  simp only [Bool.and_eq_true, List.all_eq_true, beq_iff_eq] at hs
  have hgrow : ∀ cap n, n ≤ doubling cap n := fun cap n => le_max_right _ _
  obtain ⟨halive, hserial⟩ := apart_runs_serialize hgrow holds_twoPending hguarded hrun
  exact ⟨s, hrun, halive, hs.2, hserial hs.1⟩

/-- A message is added when the acknowledgement of the first has moved the second down and not yet
stored the header. -/
def lostAdd : List Event :=
  [.call (.remove (ackAt 1))] ++ List.replicate 20 (.step 0) ++
    [.call (.add (messageAt 3))] ++ List.replicate 5 (.step 1) ++ List.replicate 2 (.step 0)

/-- The first message is removed while the slice is updated. -/
def shrunk : List Event :=
  [.call .update] ++ List.replicate 17 (.step 0) ++ [.call (.remove (ackAt 1))] ++
    List.replicate 21 (.step 1) ++ List.replicate 3 (.step 0)

/-- The added message is lost, which no order of the two calls does; and an index goes
out of range. -/
theorem acknowledgement_loses_message :
    (∃ s, Runs.run (System.next doubling) (.start twoPending) lostAdd = some s ∧ s.Quiescent ∧
      s.heap.contents = [messageAt 2] ∧ ¬ s.Serialized twoPending.list) ∧
    ∃ s, Runs.run (System.next doubling) (.start twoPending) shrunk = some s ∧ s.crashed = true := by
  have hend : (Runs.run (System.next doubling) (.start twoPending) lostAdd).any
      (fun s => s.threads.all (fun t => t.result.isSome) &&
        (s.threads.map Thread.call == [.remove (ackAt 1), .add (messageAt 3)] &&
          s.heap.list == [⟨messageAt 2, 1⟩])) = true := by
    decide +kernel
  refine ⟨?_, Runs.exists_of_any (by decide +kernel)⟩
  obtain ⟨s, hrun, hs⟩ := (any_eq_true _ _).mp hend
  simp only [Bool.and_eq_true, List.all_eq_true, beq_iff_eq] at hs
  obtain ⟨hquiet, hcalls, hlist⟩ := hs
  refine ⟨s, hrun, hquiet, by rw [Heap.contents, hlist]; rfl, ?_⟩
  rintro ⟨order, hperm, -, hseq⟩
  have hcall : ∀ k, s.call? k =
      [Call.remove (ackAt 1), .add (messageAt 3)][k]? := by
    intro k
    rw [System.call?, ← getElem?_map, hcalls]
  have hlength : s.threads.length = 2 := by
    rw [← length_map (f := Thread.call), hcalls]
    rfl
  rw [hlength] at hperm
  have horder : order = [0, 1] ∨ order = [1, 0] := perm_pair.mp hperm
  have hlost : (sequential (order.filterMap s.call?) twoPending.list).2 = [⟨messageAt 2, 1⟩] := by
    rw [hseq, ← hlist]
  rcases horder with rfl | rfl
  · simp only [hcall] at hlost
    revert hlost
    decide +kernel
  · simp only [hcall] at hlost
    revert hlost
    decide +kernel

end ShardingBC.SharedMessages
