import ShardingBC.Runs
import ShardingBC.SharedMessageRuns

/-!
# Calls on the pending messages

The consensus goroutine adds and updates, one call after the other; the handlers of RPC and gossip
remove, each in a goroutine of its own. Where calls overlap only when they have nothing to do with
each other, a consensus call takes effect when it returns, a removal that names nothing when it is
made, and one that names something is alone.
-/
namespace ShardingBC.SharedMessages

open Interleaving List

inductive Call where
  | add (tcm : CrossMessages)
  | remove (tcm : CrossMessages)
  | update
deriving DecidableEq

namespace Call

def start : Call → Point
  | add tcm => .add tcm
  | remove tcm => .remove (tcm.packages.getD []) 0
  | update => .update 0 []

/-- Made by the consensus goroutine. -/
def consensus : Call → Bool
  | remove _ => false
  | add _ => true
  | update => true

/-- The packages that a call looks for. -/
def packs : Call → List Package
  | remove tcm => tcm.packages.getD []
  | add _ => []
  | update => []

/-- The messages that a call puts into the slice. -/
def added : Call → List CrossMessages
  | add tcm => [tcm]
  | remove _ => []
  | update => []

/-- A package of the call names a message of the slice. -/
def named (h : Heap) (c : Call) : Bool :=
  c.packs.any fun pack => h.contents.any fun cm => decide (Names pack cm)

/-- The sequential meaning of a call. -/
def apply (cmDB : List CrossMessage) : Call → List CrossMessages × List CrossMessage
  | add tcm => ([], addCrossMessagesDB tcm cmDB)
  | remove tcm => ([], removeCrossMessagesDB tcm cmDB)
  | update => updatecmDB cmDB

/-- No package of one call names a message that the other adds. -/
def Unrelated (c d : Call) : Prop :=
  (∀ pack ∈ c.packs, ∀ cm ∈ d.added, ¬ Names pack cm) ∧
    ∀ pack ∈ d.packs, ∀ cm ∈ c.added, ¬ Names pack cm

instance (c d : Call) : Decidable (c.Unrelated d) := inferInstanceAs (Decidable (_ ∧ _))

end Call

/-- The calls one after the other, with their results. -/
def sequential : List Call → List CrossMessage → List (List CrossMessages) × List CrossMessage
  | [], cmDB => ([], cmDB)
  | c :: cs, cmDB =>
    ((c.apply cmDB).1 :: (sequential cs (c.apply cmDB).2).1, (sequential cs (c.apply cmDB).2).2)

/-- A call with the rest of its program, and whether it named a pending message when it was made. -/
structure Thread where
  call : Call
  named : Bool
  prog : Prog Heap (Point ⊕ List CrossMessages)

/-- The result of a call that has returned. -/
def Thread.result (t : Thread) : Option (List CrossMessages) :=
  match t.prog with
  | .ret (.inr r) => some r
  | _ => none

structure System where
  heap : Heap
  threads : List Thread
  crashed : Bool

inductive Event where
  | call (c : Call)
  | step (k : ℕ)

namespace System

/-- A call of the consensus goroutine that has not returned. -/
def consensusBusy (s : System) : Bool :=
  s.threads.any fun t => t.call.consensus && t.result.isNone

/-- A new call, or one action of a call under way. -/
def next (grow : ℕ → ℕ → ℕ) (s : System) : Event → Option System
  | .call c =>
    if s.crashed || c.consensus && s.consensusBusy then none
    else some { s with threads := s.threads ++ [⟨c, c.named s.heap, .ret (.inl c.start)⟩] }
  | .step k =>
    if s.crashed then none
    else
      match s.threads[k]? with
      | none => none
      | some t =>
        match t.prog with
        | .ret (.inr _) => none
        | .ret (.inl c) =>
          some { s with threads := s.threads.set k { t with prog := body grow c } }
        | .act f rest =>
          match f s.heap with
          | none => some { s with crashed := true }
          | some h =>
            some { s with
              heap := h
              threads := s.threads.set k { t with prog := rest s.heap } }

def start (h : Heap) : System := ⟨h, [], false⟩

/-- All calls have returned. -/
def Quiescent (s : System) : Prop := ∀ t ∈ s.threads, t.result.isSome

def call? (s : System) (k : ℕ) : Option Call := (s.threads[k]?).map Thread.call

def answer? (s : System) (k : ℕ) : Option (List CrossMessages) :=
  (s.threads[k]?).map fun t => t.result.getD []

def isConsensus (s : System) (k : ℕ) : Bool := (s.call? k).any Call.consensus

/-- The slice and the results are those of a sequential order that keeps the one of the consensus
goroutine. -/
def Serialized (cmDB : List CrossMessage) (s : System) : Prop :=
  ∃ order : List ℕ, order.Perm (List.range s.threads.length) ∧
    (order.filter s.isConsensus).Pairwise (· < ·) ∧
    sequential (order.filterMap s.call?) cmDB = (order.filterMap s.answer?, s.heap.list)

/-- A call is made only beside calls that named nothing; it then names nothing itself and has
nothing to do with what is being added. -/
def Apart (s : System) : Event → Prop
  | .call c => ∀ t ∈ s.threads, t.result = none →
      t.named = false ∧ c.named s.heap = false ∧ c.Unrelated t.call
  | .step _ => True

instance (s : System) : ∀ e, Decidable (s.Apart e)
  | .call c => inferInstanceAs (Decidable (∀ t ∈ s.threads, t.result = none →
      t.named = false ∧ c.named s.heap = false ∧ c.Unrelated t.call))
  | .step _ => inferInstanceAs (Decidable True)

end System

lemma sequential_append (cs ds : List Call) (cmDB : List CrossMessage) :
    sequential (cs ++ ds) cmDB =
      ((sequential cs cmDB).1 ++ (sequential ds (sequential cs cmDB).2).1,
        (sequential ds (sequential cs cmDB).2).2) := by
  induction cs generalizing cmDB with
  | nil => rfl
  | cons c cs ih =>
    rw [cons_append, sequential, ih]
    rfl

@[simp] lemma sequential_concat (cs : List Call) (c : Call) (cmDB : List CrossMessage) :
    sequential (cs ++ [c]) cmDB =
      ((sequential cs cmDB).1 ++ [(c.apply (sequential cs cmDB).2).1],
        (c.apply (sequential cs cmDB).2).2) :=
  sequential_append cs [c] cmDB

@[simp] lemma length_sequential (cs : List Call) (cmDB : List CrossMessage) :
    (sequential cs cmDB).1.length = cs.length := by
  induction cs generalizing cmDB with
  | nil => rfl
  | cons c cs ih => rw [sequential, length_cons, ih, length_cons]

lemma named_eq_false_iff (h : Heap) (c : Call) :
    c.named h = false ↔ ∀ cm ∈ h.contents, ∀ pack ∈ c.packs, ¬ Names pack cm := by
  simp only [Call.named, any_eq_false, any_eq_true, decide_eq_true_eq]
  constructor
  · intro hno cm hcm pack hpack hmatch
    exact hno pack hpack ⟨cm, hcm, hmatch⟩
  · rintro hno pack hpack ⟨cm, hcm, hmatch⟩
    exact hno cm hcm pack hpack hmatch

section Start

variable {grow : ℕ → ℕ → ℕ} {h : Heap} {ps : List ℕ}

lemma ends_consensus (hgrow : ∀ cap n, n ≤ grow cap n) (hh : h.Holds ps) {c : Call}
    (hc : c.consensus = true) :
    ∃ r h' ps', Ends (body grow) (Guarantee c.added) (.ret (.inl c.start)) h r h' ∧ h'.Holds ps' ∧
      (r, h'.list) = c.apply h.list := by
  cases c with
  | add tcm =>
    obtain ⟨h', ps', hfin, hh', hlist⟩ := finishes_add hgrow hh tcm
    exact ⟨[], h', ps', Or.inr ⟨_, rfl, hfin⟩, hh', by rw [hlist]; rfl⟩
  | remove tcm => cases hc
  | update =>
    obtain ⟨h', hfin, hh', hlist⟩ := finishes_update hh
    exact ⟨_, h', ps, Or.inr ⟨_, rfl, hfin⟩, hh', by rw [hlist]; rfl⟩

lemma ends_remove (hh : h.Holds ps) (tcm : CrossMessages) :
    ∃ h' ps', Ends (body grow) Anything (.ret (.inl (Call.remove tcm).start)) h [] h' ∧
      h'.Holds ps' ∧ h'.list = removeCrossMessagesDB tcm h.list := by
  obtain ⟨h', ps', hfin, hh', hlist⟩ := finishes_remove hh (tcm.packages.getD [])
  exact ⟨h', ps', Or.inr ⟨_, rfl, hfin⟩, hh', hlist⟩

end Start

/-- The calls with an effect so far lead to the entries `l`. -/
structure Serial (cmDB : List CrossMessage) (s : System) (log : List ℕ) (l : List CrossMessage) :
    Prop where
  nodup : log.Nodup
  bound : ∀ k ∈ log, k < s.threads.length
  order : (log.filter s.isConsensus).Pairwise (· < ·)
  seq : sequential (log.filterMap s.call?) cmDB = (log.filterMap s.answer?, l)

/-- A consensus call under way, which takes effect when it returns. -/
structure Working (grow : ℕ → ℕ → ℕ) (s : System) (log : List ℕ) (l : List CrossMessage) (k : ℕ)
    (t : Thread) : Prop where
  pending : k ∉ log
  latest : ∀ j, s.isConsensus j = true → j ≤ k
  unrelated : ∀ u ∈ s.threads, u.result = none → ∀ pack ∈ u.call.packs, ∀ cm ∈ t.call.added,
    ¬ Names pack cm
  ends : ∃ r h' ps', Ends (body grow) (Guarantee t.call.added) t.prog s.heap r h' ∧ h'.Holds ps' ∧
    (r, h'.list) = t.call.apply l

/-- A removal under way that names nothing, which took effect when it was made. -/
structure Reading (s : System) (log : List ℕ) (k : ℕ) (t : Thread) : Prop where
  logged : k ∈ log
  unnamed : Unnamed t.call.packs s.heap
  reads : t.prog.Reads (Calm t.call.packs) (Removing t.call.packs) s.heap

/-- No removal that names something is under way. -/
structure Shared (grow : ℕ → ℕ → ℕ) (cmDB : List CrossMessage) (s : System) (log : List ℕ)
    (l : List CrossMessage) : Prop where
  serial : Serial cmDB s log l
  alive : s.crashed = false
  holds : ∃ ps, s.heap.Holds ps
  grown : l.map CrossMessage.content <+: s.heap.contents
  idle : s.consensusBusy = false → s.heap.list = l
  done : ∀ k t, s.threads[k]? = some t → t.result ≠ none → k ∈ log
  reading : ∀ k t, s.threads[k]? = some t → t.result = none → t.call.consensus = false →
    Reading s log k t
  working : ∀ k t, s.threads[k]? = some t → t.result = none → t.call.consensus = true →
    Working grow s log l k t

/-- A removal that names something is under way, and nothing else. -/
structure Alone (grow : ℕ → ℕ → ℕ) (cmDB : List CrossMessage) (s : System) (log : List ℕ)
    (l : List CrossMessage) (k : ℕ) (t : Thread) : Prop where
  serial : Serial cmDB s log l
  alive : s.crashed = false
  thread : s.threads[k]? = some t
  active : t.result = none
  named : t.named = true
  pending : k ∉ log
  done : ∀ j u, s.threads[j]? = some u → j ≠ k → u.result ≠ none ∧ j ∈ log
  ends : ∃ tcm h' ps', t.call = .remove tcm ∧ Ends (body grow) Anything t.prog s.heap [] h' ∧
    h'.Holds ps' ∧ h'.list = removeCrossMessagesDB tcm l

/-- The invariant of the runs. -/
def Kept (grow : ℕ → ℕ → ℕ) (cmDB : List CrossMessage) (s : System) : Prop :=
  ∃ log l, Shared grow cmDB s log l ∨ ∃ k t, Alone grow cmDB s log l k t

section Bookkeeping

variable {cmDB l : List CrossMessage} {s s' : System} {log : List ℕ}

lemma Serial.congr (hs : Serial cmDB s log l) (hlen : s.threads.length ≤ s'.threads.length)
    (hcall : ∀ k ∈ log, s'.call? k = s.call? k) (hanswer : ∀ k ∈ log, s'.answer? k = s.answer? k) :
    Serial cmDB s' log l where
  nodup := hs.nodup
  bound k hk := (hs.bound k hk).trans_le hlen
  order := by
    rw [filter_congr fun k hk => show s'.isConsensus k = s.isConsensus k by
      rw [System.isConsensus, hcall k hk]; rfl]
    exact hs.order
  seq := by
    rw [filterMap_congr hcall, filterMap_congr hanswer]
    exact hs.seq

/-- One more call takes effect. -/
lemma Serial.concat (hs : Serial cmDB s log l) {k : ℕ} {t : Thread} {l' : List CrossMessage}
    (ht : s.threads[k]? = some t) (hnew : k ∉ log) (happly : t.call.apply l = (t.result.getD [], l'))
    (hlast : t.call.consensus = true → ∀ j ∈ log, s.isConsensus j = true → j < k) :
    Serial cmDB s (log ++ [k]) l' where
  nodup := by
    rw [nodup_append]
    refine ⟨hs.nodup, by simp, ?_⟩
    intro i hi j hj
    rw [mem_singleton.mp hj]
    rintro rfl
    exact hnew hi
  bound j hj := by
    rcases mem_append.mp hj with hj | hj
    · exact hs.bound j hj
    · rw [mem_singleton.mp hj]
      exact (List.getElem?_eq_some_iff.mp ht).1
  order := by
    rw [filter_append, pairwise_append]
    refine ⟨hs.order, List.Pairwise.filter _ (pairwise_singleton _ _), ?_⟩
    intro i hi j hj
    obtain ⟨hi, hic⟩ := mem_filter.mp hi
    obtain ⟨hj, hjc⟩ := mem_filter.mp hj
    rw [mem_singleton.mp hj] at hjc ⊢
    have hcons : t.call.consensus = true := by
      simpa [System.isConsensus, System.call?, ht] using hjc
    exact hlast hcons i hi hic
  seq := by
    have hcall : s.call? k = some t.call := by rw [System.call?, ht]; rfl
    have hanswer : s.answer? k = some (t.result.getD []) := by rw [System.answer?, ht]; rfl
    rw [filterMap_append, filterMap_append, filterMap_cons_some hcall,
      filterMap_cons_some hanswer, filterMap_nil, filterMap_nil, sequential_concat,
      hs.seq]
    rw [happly]

end Bookkeeping

lemma consensusBusy_eq_false_iff (s : System) :
    s.consensusBusy = false ↔
      ∀ (k : ℕ) (t : Thread), s.threads[k]? = some t → t.call.consensus = true → t.result ≠ none := by
  simp only [System.consensusBusy, any_eq_false, Bool.and_eq_true, Option.isNone_iff_eq_none,
    not_and]
  constructor
  · exact fun h k t ht => h t (mem_of_getElem? ht)
  · intro h t ht
    obtain ⟨k, hk⟩ := mem_iff_getElem?.mp ht
    exact h k t hk

/-- The system with one more call. -/
def System.push (s : System) (c : Call) : System :=
  { s with threads := s.threads ++ [⟨c, c.named s.heap, .ret (.inl c.start)⟩] }

section Push

variable {grow : ℕ → ℕ → ℕ} {cmDB l : List CrossMessage} {s : System} {log : List ℕ} {c : Call}

lemma getElem?_push {k : ℕ} {t : Thread} (ht : (s.push c).threads[k]? = some t) :
    s.threads[k]? = some t ∨
      k = s.threads.length ∧ t = ⟨c, c.named s.heap, .ret (.inl c.start)⟩ := by
  rcases lt_or_ge k s.threads.length with hk | hk
  · left
    rwa [System.push, getElem?_append_left hk] at ht
  · right
    rw [System.push, getElem?_append_right hk, getElem?_singleton] at ht
    split_ifs at ht with h0
    exact ⟨by omega, (Option.some.inj ht).symm⟩

@[simp] lemma push_last : (s.push c).threads[s.threads.length]? =
    some ⟨c, c.named s.heap, .ret (.inl c.start)⟩ := by
  simp [System.push]

lemma Serial.push (hs : Serial cmDB s log l) (c : Call) : Serial cmDB (s.push c) log l := by
  have hsame : ∀ k ∈ log, (s.push c).threads[k]? = s.threads[k]? := fun k hk =>
    getElem?_append_left (hs.bound k hk)
  refine hs.congr (by simp [System.push]) ?_ ?_
  · intro k hk
    rw [System.call?, hsame k hk]
    rfl
  · intro k hk
    rw [System.answer?, hsame k hk]
    rfl

lemma isConsensus_push {j : ℕ} (hj : (s.push c).isConsensus j = true) :
    s.isConsensus j = true ∨ j = s.threads.length ∧ c.consensus = true := by
  cases ht : (s.push c).threads[j]? with
  | none => simp [System.isConsensus, System.call?, ht] at hj
  | some t =>
    have hcons : t.call.consensus = true := by
      simpa [System.isConsensus, System.call?, ht] using hj
    rcases getElem?_push ht with hold | ⟨hk, rfl⟩
    · left
      simpa [System.isConsensus, System.call?, hold] using hcons
    · exact Or.inr ⟨hk, hcons⟩

lemma isConsensus_lt {j : ℕ} (hj : s.isConsensus j = true) : j < s.threads.length := by
  by_contra hge
  simp [System.isConsensus, System.call?, getElem?_eq_none (not_lt.mp hge)] at hj

lemma Shared.push_consensus (hgrow : ∀ cap n, n ≤ grow cap n) (hs : Shared grow cmDB s log l)
    (hc : c.consensus = true) (hfree : s.consensusBusy = false) (hapart : s.Apart (.call c)) :
    Shared grow cmDB (s.push c) log l := by
  have hnone := (consensusBusy_eq_false_iff s).mp hfree
  refine ⟨hs.serial.push c, hs.alive, hs.holds, hs.grown, ?_, ?_, ?_, ?_⟩
  · intro hidle
    have hlast := (consensusBusy_eq_false_iff _).mp hidle _ _ push_last hc
    exact absurd rfl hlast
  · intro k t ht hdone
    rcases getElem?_push ht with hold | ⟨-, rfl⟩
    · exact hs.done k t hold hdone
    · exact absurd rfl hdone
  · intro k t ht hactive hremove
    rcases getElem?_push ht with hold | ⟨-, rfl⟩
    · have hreading := hs.reading k t hold hactive hremove
      exact ⟨hreading.logged, hreading.unnamed, hreading.reads⟩
    · rw [hc] at hremove
      cases hremove
  · intro k t ht hactive hcons
    rcases getElem?_push ht with hold | ⟨rfl, rfl⟩
    · exact absurd hactive (hnone k t hold hcons)
    · obtain ⟨ps, hh⟩ := hs.holds
      refine ⟨fun hmem => absurd (hs.serial.bound _ hmem) (lt_irrefl _), ?_, ?_, ?_⟩
      · intro j hj
        rcases isConsensus_push hj with hj | ⟨rfl, -⟩
        · exact (isConsensus_lt hj).le
        · exact le_rfl
      · intro u hu huactive
        rcases mem_append.mp hu with hu | hu
        · exact (hapart u hu huactive).2.2.2
        · rw [mem_singleton.mp hu]
          cases c with
          | remove tcm => cases hc
          | add tcm => exact fun pack hpack => absurd hpack (by simp [Call.packs])
          | update => exact fun pack hpack => absurd hpack (by simp [Call.packs])
      · rw [← hs.idle hfree]
        exact ends_consensus hgrow hh hc

lemma Shared.push_reading (hs : Shared grow cmDB s log l) {tcm : CrossMessages}
    (hc : c = .remove tcm) (hunnamed : c.named s.heap = false) (hapart : s.Apart (.call c)) :
    Shared grow cmDB (s.push c) (log ++ [s.threads.length]) l := by
  have hno := (named_eq_false_iff s.heap c).mp hunnamed
  have hcons : c.consensus = false := by rw [hc]; rfl
  have hnotin : s.threads.length ∉ log := fun hmem => absurd (hs.serial.bound _ hmem) (lt_irrefl _)
  refine ⟨?_, hs.alive, hs.holds, hs.grown, ?_, ?_, ?_, ?_⟩
  · refine (hs.serial.push c).concat push_last hnotin ?_ ?_
    · have hsame : removeCrossMessagesDB tcm l = l := by
        rw [removeCrossMessagesDB_eq_self_iff]
        rintro ⟨pack, hpack, e, he, hmatch⟩
        refine hno e.content (hs.grown.subset (mem_map_of_mem he)) pack ?_ hmatch
        rw [hc]
        exact hpack
      rw [show (⟨c, _, _⟩ : Thread).call = .remove tcm from hc, Call.apply, hsame]
      rfl
    · intro htrue
      rw [hcons] at htrue
      cases htrue
  · intro hidle
    refine hs.idle ((consensusBusy_eq_false_iff s).mpr fun k t ht => ?_)
    refine (consensusBusy_eq_false_iff _).mp hidle k t ?_
    exact (getElem?_append_left (List.getElem?_eq_some_iff.mp ht).1).trans ht
  · intro k t ht hdone
    rcases getElem?_push ht with hold | ⟨-, rfl⟩
    · exact mem_append_left _ (hs.done k t hold hdone)
    · exact absurd rfl hdone
  · intro k t ht hactive hremove
    rcases getElem?_push ht with hold | ⟨rfl, rfl⟩
    · have hreading := hs.reading k t hold hactive hremove
      exact ⟨mem_append_left _ hreading.logged, hreading.unnamed, hreading.reads⟩
    · refine ⟨by simp, ⟨hs.holds, hno⟩, Or.inr ⟨c.packs, 0, ?_, List.Subset.refl _⟩⟩
      rw [hc]
      rfl
  · intro k t ht hactive htrue
    rcases getElem?_push ht with hold | ⟨-, rfl⟩
    · have hworking := hs.working k t hold hactive htrue
      have hk := (List.getElem?_eq_some_iff.mp hold).1
      refine ⟨?_, ?_, ?_, hworking.ends⟩
      · rw [mem_append, not_or]
        exact ⟨hworking.pending, by simp; omega⟩
      · intro j hj
        rcases isConsensus_push hj with hj | ⟨-, hj⟩
        · exact hworking.latest j hj
        · rw [hcons] at hj
          cases hj
      · intro u hu huactive
        rcases mem_append.mp hu with hu | hu
        · exact hworking.unrelated u hu huactive
        · rw [mem_singleton.mp hu]
          exact (hapart t (mem_of_getElem? hold) hactive).2.2.1
    · rw [hcons] at htrue
      cases htrue

/-- A removal that names something, when nothing else is under way. -/
lemma Shared.push_alone (hs : Shared grow cmDB s log l) {tcm : CrossMessages}
    (hc : c = .remove tcm) (hnamed : c.named s.heap = true) (hapart : s.Apart (.call c)) :
    Alone grow cmDB (s.push c) log l s.threads.length
      ⟨c, c.named s.heap, .ret (.inl c.start)⟩ := by
  have hdone : ∀ (k : ℕ) (t : Thread), s.threads[k]? = some t → t.result ≠ none := by
    intro k t ht hactive
    have := (hapart t (mem_of_getElem? ht) hactive).2.1
    rw [hnamed] at this
    cases this
  have hidle : s.heap.list = l :=
    hs.idle ((consensusBusy_eq_false_iff s).mpr fun k t ht _ => hdone k t ht)
  obtain ⟨ps, hh⟩ := hs.holds
  refine ⟨hs.serial.push c, hs.alive, push_last, rfl, hnamed,
    fun hmem => absurd (hs.serial.bound _ hmem) (lt_irrefl _), ?_, ?_⟩
  · intro j u hu hne
    rcases getElem?_push hu with hold | ⟨rfl, -⟩
    · exact ⟨hdone j u hold, hs.done j u hold (hdone j u hold)⟩
    · exact absurd rfl hne
  · obtain ⟨h', ps', hends, hh', hlist⟩ := ends_remove hh tcm
    rw [← hidle, hc]
    exact ⟨tcm, h', ps', rfl, hends, hh', hlist⟩

end Push

end ShardingBC.SharedMessages
