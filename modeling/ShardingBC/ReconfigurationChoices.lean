import ShardingBC.Reconfiguration

/-!
# Random choices of the reconfiguration

From every state of the loop of `FillReconfiguration` some random numbers lead to its end. Each
number of nodes can be sent to the last shard before its own rounds; the rounds after that exchange
nodes.
-/
namespace ShardingBC.Reconfiguration

open Function List Option Runs

variable {N M k : ℕ} {P : Plan (k + 2) N M} {T : Table (k + 2) N} {s s' : Filling (k + 2) N}
  {i b : Fin (k + 2)} {j : Fin M} {es : List (Fin (k + 2) × Fin M)}

/-- Some random numbers lead through the rounds. -/
def CanRun (P : Plan (k + 2) N M) (T : Table (k + 2) N) (s : Filling (k + 2) N)
    (es : List (Fin (k + 2) × Fin M)) (s' : Filling (k + 2) N) : Prop :=
  ∃ rs, ∀ rest, run (fillStep P T) (s, rs ++ rest) es = some (s', rest)

lemma CanRun.nil : CanRun P T s [] s := ⟨[], fun _ => rfl⟩

lemma CanRun.append {es' : List (Fin (k + 2) × Fin M)} {s'' : Filling (k + 2) N}
    (h : CanRun P T s es s') (h' : CanRun P T s' es' s'') : CanRun P T s (es ++ es') s'' := by
  obtain ⟨rs, hrs⟩ := h
  obtain ⟨rs', hrs'⟩ := h'
  refine ⟨rs ++ rs', fun rest => ?_⟩
  rw [run_append, append_assoc, hrs, bind_some, hrs']

lemma CanRun.of_step {e : Fin (k + 2) × Fin M} (rs : List ℕ)
    (h : ∀ rest, fillStep P T (s, rs ++ rest) e = some (s', rest)) : CanRun P T s [e] s' := by
  refine ⟨rs, fun rest => ?_⟩
  rw [run, h]
  rfl

lemma intn_cons {n r : ℕ} (h : r < n) (rs : List ℕ) : intn n (r :: rs) = some (⟨r, h⟩, rs) :=
  dif_pos h

lemma canRun_place (hwatch : s.watchError M = true) (hb : b ≠ i) (hne : s.fillArea b ≠ []) :
    ∃ c, CanRun P T s [(i, j)] (s.place P T i j b c) := by
  have hpos : 0 < (s.fillArea b).length := length_pos_iff.mpr hne
  have hagain : watchShard b (addFullShard s.fillArea) i = false := by
    simp [watchShard, addFullShard, hb, hne]
  refine ⟨⟨0, hpos⟩, CanRun.of_step [b.val, 0] fun rest => ?_⟩
  have hbelong : s.belongShard M (addFullShard s.fillArea) i (b.val :: 0 :: rest) =
      some (some b, 0 :: rest) := by
    rw [Filling.belongShard, intn_cons b.isLt]
    simp [Filling.belongShardLoop, hagain, hwatch]
  rw [fillStep]
  simp only [cons_append, nil_append, hbelong, bind_some, intn_cons hpos,
    map_some]

lemma canRun_exchange (hwatch : s.watchError M = false) {t : Fin (k + 2)} (ht : t ≠ i)
    (r : Fin (P.fillArea t).length)
    (hjudge : s.judgeElement T i (t, (P.fillArea t).get r) = true) (hne : s.fillArea i ≠ []) :
    ∃ c, CanRun P T s [(i, j)] (s.exchange P T i j (t, (P.fillArea t).get r) c) := by
  have hpos : 0 < (s.fillArea i).length := length_pos_iff.mpr hne
  refine ⟨⟨0, hpos⟩, CanRun.of_step [0, t.val, r.val, 0] fun rest => ?_⟩
  have hbelong : s.belongShard M (addFullShard s.fillArea) i (0 :: t.val :: r.val :: 0 :: rest) =
      some (none, t.val :: r.val :: 0 :: rest) := by
    rw [Filling.belongShard, intn_cons (Nat.succ_pos _)]
    simp [Filling.belongShardLoop, hwatch]
  have hfill : s.reFill P T i none (t.val :: r.val :: 0 :: rest) =
      some ((t, (P.fillArea t).get r), 0 :: rest) := by
    have hlen : ¬ (P.fillArea t).length = 0 := by
      have := r.isLt
      omega
    rw [Filling.reFill, dif_pos t.isLt, if_neg (by simpa [ht] using hlen), Filling.reFill,
      dif_pos r.isLt, if_pos hjudge]
  rw [fillStep]
  simp only [cons_append, nil_append, hbelong, bind_some, hfill, intn_cons hpos,
    map_some]

def lastNodes (T : Table (k + 2) N) (s : Filling (k + 2) N) : Finset (Slot (k + 2) N) :=
  {x | x.1 ≠ Fin.last _ ∧ ∃ n, (s.nodesinfo x).peerId = (T.nodes (Fin.last _, n)).peerId}

/-- A change of one slot outside the last shard adds at most one. -/
lemma card_lastNodes_le {x : Slot (k + 2) N}
    (hsame : ∀ y : Slot (k + 2) N, y.1 ≠ Fin.last _ → y ≠ x → s'.nodesinfo y = s.nodesinfo y) :
    (lastNodes T s').card ≤ (lastNodes T s).card + 1 := by
  have hsub : lastNodes T s' ⊆ insert x (lastNodes T s) := by
    intro y hy
    rw [Finset.mem_insert]
    by_cases hyx : y = x
    · exact .inl hyx
    · simp only [lastNodes, Finset.mem_filter, Finset.mem_univ, true_and] at hy ⊢
      rw [hsame y hy.1 hyx] at hy
      exact .inr hy
  exact (Finset.card_le_card hsub).trans (Finset.card_insert_le _ _)

lemma card_lastNodes_place (c : Fin (s.fillArea b).length) :
    (lastNodes T (s.place P T i j b c)).card ≤ (lastNodes T s).card + 1 :=
  card_lastNodes_le (x := (b, (s.fillArea b).get c)) fun _ _ hne => update_of_ne hne _ _

lemma card_lastNodes_exchange (target : Slot (k + 2) N)
    (c : Fin (s.fillArea (Fin.last _)).length) :
    (lastNodes T (s.exchange P T (Fin.last _) j target c)).card ≤ (lastNodes T s).card + 1 := by
  refine card_lastNodes_le (x := target) fun y hy hne => ?_
  have hown : y ≠ (Fin.last _, (s.fillArea (Fin.last _)).get c) := fun heq =>
    hy (congrArg Prod.fst heq)
  simp only [Filling.exchange, Filling.exchanged, Filling.setPeer, update_of_ne hne,
    update_of_ne hown]

/-- A shard has an admissible slot while fewer nodes than are moved came from the last one. -/
lemma exists_admissible (P : Plan (k + 2) N M) (hcard : (lastNodes T s).card < M)
    {t : Fin (k + 2)} (ht : t ≠ Fin.last _) :
    ∃ r : Fin (P.fillArea t).length,
      s.judgeElement T (Fin.last _) (t, (P.fillArea t).get r) = true := by
  by_contra hnone
  push Not at hnone
  have hsub : (P.fillArea t).toFinset.image (fun n => (t, n)) ⊆ lastNodes T s := by
    intro x hx
    obtain ⟨n, hn, rfl⟩ := Finset.mem_image.mp hx
    obtain ⟨r, rfl⟩ := get_of_mem (mem_toFinset.mp hn)
    simpa [lastNodes, ht, Filling.judgeElement] using hnone r
  have hle := Finset.card_le_card hsub
  rw [Finset.card_image_of_injective _ (Prod.mk_right_injective t),
    toFinset_card_of_nodup (P.nodup t), P.length_eq] at hle
  omega

/-- At most as many nodes of the last shard are in others as it has had rounds. -/
structure OnTrack (P : Plan (k + 2) N M) (T : Table (k + 2) N) (s : Filling (k + 2) N) : Prop where
  kept : Kept P T s
  moved : (lastNodes T s).card ≤ M - s.left

/-- In a round of the last shard the others may be filled, but not with its nodes alone. -/
lemma OnTrack.cases (h : OnTrack P T s) (hround : i = Fin.last _ ↔ s.left ≤ M)
    (hpos : 0 < s.left) :
    (s.watchError M = true ∧ ∃ b, b ≠ i ∧ s.fillArea b ≠ []) ∨
      s.watchError M = false ∧ i = Fin.last _ ∧ s.fillArea i ≠ [] ∧ ∀ t, t ≠ i →
        ∃ r : Fin (P.fillArea t).length,
          s.judgeElement T i (t, (P.fillArea t).get r) = true := by
  cases hwatch : s.watchError M with
  | true =>
    refine .inl ⟨rfl, ?_⟩
    by_cases hi : i = Fin.last _
    · obtain ⟨b, hb, hne, -⟩ := h.kept.lt_left_of_watchError hwatch
      exact ⟨b, hi ▸ hb, hne⟩
    · by_contra hnone
      push Not at hnone
      have hleft : s.left = (s.fillArea i).length :=
        Finset.sum_eq_single i (fun b _ hb => by rw [hnone b hb, length_nil]) (by simp)
      exact hi (hround.mpr (hleft ▸ h.kept.length_le i))
  | false =>
    have hall := h.kept.left_of_watchError hwatch
    obtain rfl := hround.mpr (hall ▸ h.kept.length_le _)
    refine .inr ⟨rfl, rfl, length_pos_iff.mp (by omega), fun t ht => ?_⟩
    exact exists_admissible P (by have := h.moved; omega) ht

lemma OnTrack.canRun (h : OnTrack P T s) (hround : i = Fin.last _ ↔ s.left ≤ M)
    (hpos : 0 < s.left) (j : Fin M) : ∃ s', CanRun P T s [(i, j)] s' := by
  rcases h.cases hround hpos with ⟨hwatch, b, hb, hne⟩ | ⟨hwatch, rfl, hne, hfree⟩
  · obtain ⟨c, hstep⟩ := canRun_place (P := P) (T := T) (j := j) hwatch hb hne
    exact ⟨_, hstep⟩
  · have h0 : (0 : Fin (k + 2)) ≠ Fin.last _ := Fin.ne_of_val_ne (by simp)
    obtain ⟨r, hjudge⟩ := hfree 0 h0
    obtain ⟨c, hstep⟩ := canRun_exchange (j := j) hwatch h0 r hjudge hne
    exact ⟨_, hstep⟩

lemma OnTrack.step (h : OnTrack P T s) (hround : i = Fin.last _ ↔ s.left ≤ M) {rs rs' : List ℕ}
    (hstep : fillStep P T (s, rs) (i, j) = some (s', rs')) :
    OnTrack P T s' ∧ s'.left + 1 = s.left := by
  have hmoved := h.moved
  rcases fillStep_cases hstep with ⟨-, b, c, hb, rfl⟩ |
    ⟨hwatch, target, c, htarget, hmem, hjudge, rfl⟩
  · have hone := left_place (P := P) (T := T) (i := i) (j := j) c
    refine ⟨⟨h.kept.place hb c, ?_⟩, hone⟩
    by_cases hi : i = Fin.last _
    · have hadd := card_lastNodes_place (P := P) (T := T) (i := i) (j := j) c
      omega
    · -- the node is not one of the last shard
      have hsub : lastNodes T (s.place P T i j b c) ⊆ lastNodes T s := by
        intro x hx
        simp only [lastNodes, Finset.mem_filter, Finset.mem_univ, true_and] at hx ⊢
        obtain ⟨hlast, n, hn⟩ := hx
        refine ⟨hlast, n, ?_⟩
        simp only [Filling.place, Filling.setPeer] at hn
        by_cases hx : x = (b, (s.fillArea b).get c)
        · rw [hx, update_self] at hn
          exact absurd (congrArg Prod.fst (T.distinct hn)) hi
        · rwa [update_of_ne hx] at hn
      have := Finset.card_le_card hsub
      omega
  · have hall := h.kept.left_of_watchError hwatch
    obtain rfl := hround.mpr (hall ▸ h.kept.length_le _)
    have hfull : s.fillArea target.1 = [] :=
      (h.kept.fillArea_eq_nil_iff _).mpr (watchError_eq_false_iff.mp hwatch _ htarget)
    have hone := left_exchange (P := P) (T := T) (i := Fin.last (k + 1)) (j := j) target c
    have hadd := card_lastNodes_exchange (P := P) (T := T) (j := j) target c
    exact ⟨⟨h.kept.exchange htarget hmem hfull hjudge c, by omega⟩, hone⟩

lemma OnTrack.run (h : OnTrack P T s)
    (hes : ∀ n e, es[n]? = some e → (e.1 = Fin.last _ ↔ s.left ≤ M + n)) {rs rs' : List ℕ}
    (hrun : Runs.run (fillStep P T) (s, rs) es = some (s', rs')) :
    OnTrack P T s' ∧ s'.left + es.length = s.left := by
  induction es generalizing s rs with
  | nil =>
    cases hrun
    exact ⟨h, rfl⟩
  | cons e es ih =>
    obtain ⟨⟨s₁, rs₁⟩, hstep, hrest⟩ := run_cons.mp hrun
    obtain ⟨h₁, hleft⟩ := h.step (hes 0 e rfl) hstep
    obtain ⟨h', hleft'⟩ := ih h₁ (fun n e' he' => by rw [hes (n + 1) e' he']; omega) hrest
    exact ⟨h', by rw [length_cons]; omega⟩

lemma canRun_lastRounds (js : List (Fin M)) (h : OnTrack P T s) (hleft : s.left = js.length)
    (hle : js.length ≤ M) : ∃ s', CanRun P T s (lastRounds k js) s' := by
  induction js generalizing s with
  | nil => exact ⟨s, .nil⟩
  | cons j js ih =>
    rw [length_cons] at hleft hle
    have hround : Fin.last (k + 1) = Fin.last _ ↔ s.left ≤ M := iff_of_true rfl (by omega)
    obtain ⟨s₁, hone⟩ := h.canRun hround (by omega) j
    obtain ⟨rs, hrs⟩ := id hone
    obtain ⟨⟨t, rs₁⟩, hstep, hrest⟩ := run_cons.mp (hrs [])
    cases hrest
    obtain ⟨h₁, hleft₁⟩ := h.step hround hstep
    obtain ⟨s', hrest⟩ := ih h₁ (by omega) (by omega)
    exact ⟨s', hone.append hrest⟩

lemma getElem?_rounds {n : ℕ} {e : Fin (k + 2) × Fin M}
    (he : (rounds (k + 2) M)[n]? = some e) :
    n < (k + 1) * M + M ∧ (e.1 = Fin.last _ ↔ (k + 1) * M ≤ n) := by
  rw [rounds_eq] at he
  have hlen := (List.getElem?_eq_some_iff.mp he).1
  rw [length_append, length_firstRounds, lastRounds, length_map, length_finRange] at hlen
  refine ⟨hlen, ?_⟩
  rcases lt_or_ge n (firstRounds k M).length with hn | hn
  · rw [getElem?_append_left hn] at he
    rw [length_firstRounds] at hn
    exact iff_of_false (ne_last_of_mem_firstRounds (mem_of_getElem? he)) (not_le.mpr hn)
  · rw [getElem?_append_right hn] at he
    rw [length_firstRounds] at hn
    obtain ⟨j, -, rfl⟩ := List.mem_map.mp (mem_of_getElem? he)
    exact iff_of_true rfl hn

lemma onTrack_of_run {sendNodes : Fin (k + 2) → List Nodeinfo} {n : ℕ} {rs rs' : List ℕ}
    (hn : n ≤ (rounds (k + 2) M).length)
    (hrun : run (fillStep P T) (.start P T sendNodes, rs) ((rounds (k + 2) M).take n) =
      some (s, rs')) : OnTrack P T s ∧ s.left + n = (k + 1) * M + M := by
  have hleft := left_start P T sendNodes
  rw [length_firstRounds] at hleft
  have hnone : lastNodes T (.start P T sendNodes) = ∅ := by
    rw [lastNodes, Finset.filter_eq_empty_iff]
    rintro x - ⟨hx, m, hm⟩
    exact hx (congrArg Prod.fst (T.distinct hm))
  have hstart : OnTrack P T (.start P T sendNodes) :=
    ⟨kept_start P T sendNodes, by rw [hnone]; exact Nat.zero_le _⟩
  obtain ⟨h, hleft'⟩ := hstart.run (by
    intro m e he
    rw [getElem?_take] at he
    split_ifs at he
    rw [(getElem?_rounds he).2]
    omega) hrun
  rw [length_take, min_eq_left hn] at hleft'
  exact ⟨h, hleft'.trans hleft⟩

/-- In every round that a run comes to, some choices end the loops that draw again. -/
theorem reconfiguration_never_stuck (P : Plan (k + 2) N M) (T : Table (k + 2) N)
    (sendNodes : Fin (k + 2) → List Nodeinfo) (n : ℕ) (i : Fin (k + 2)) (j : Fin M)
    (rs rs' : List ℕ) (s : Filling (k + 2) N) (hround : (rounds (k + 2) M)[n]? = some (i, j))
    (hrun : run (fillStep P T) (.start P T sendNodes, rs) ((rounds (k + 2) M).take n) =
      some (s, rs')) :
    (∀ b, s.count b + (s.fillArea b).length = M) ∧
    (i ≠ Fin.last _ → s.watchError M = true ∧ ∃ b, b ≠ i ∧ s.fillArea b ≠ []) ∧
    (i = Fin.last _ → (s.watchError M = true ∧ ∃ b, b ≠ i ∧ s.fillArea b ≠ []) ∨
      s.watchError M = false ∧
      (∀ r rs, r < k + 2 →
        s.belongShard M (addFullShard s.fillArea) i (r :: rs) = some (none, rs)) ∧
      ∀ t, t ≠ i → ∃ r : Fin (P.fillArea t).length,
        s.judgeElement T i (t, (P.fillArea t).get r) = true) ∧
    ∃ s', CanRun P T s [(i, j)] s' := by
  obtain ⟨hlt, hlast⟩ := getElem?_rounds hround
  obtain ⟨h, hleft⟩ := onTrack_of_run (List.getElem?_eq_some_iff.mp hround).1.le hrun
  have hnow : i = Fin.last _ ↔ s.left ≤ M := by
    rw [hlast]
    omega
  have hcases := h.cases hnow (by omega)
  refine ⟨h.kept.counts, fun hi => ?_, fun _ => hcases.imp_right ?_, h.canRun hnow (by omega) j⟩
  · exact hcases.resolve_right fun hfull => hi hfull.2.1
  · rintro ⟨hwatch, -, -, hfree⟩
    refine ⟨hwatch, fun r rs hr => ?_, hfree⟩
    rw [Filling.belongShard, intn_cons hr]
    cases rs <;> simp [Filling.belongShardLoop, hwatch]

/-- Nodes of a shard are all sent to one other shard. -/
lemma canRun_send (js : List (Fin M)) (h : Kept P T s) (hb : b ≠ i)
    (hroom : js.length ≤ (s.fillArea b).length) (hleft : js.length + M ≤ s.left) :
    ∃ s', CanRun P T s (js.map fun j => (i, j)) s' ∧ Kept P T s' ∧
      s'.left + js.length = s.left ∧
      (s'.fillArea b).length + js.length = (s.fillArea b).length ∧
      ∀ b', b' ≠ b → s'.fillArea b' = s.fillArea b' := by
  induction js generalizing s with
  | nil => exact ⟨s, .nil, h, rfl, rfl, fun _ _ => rfl⟩
  | cons j js ih =>
    rw [length_cons] at hroom hleft
    have hwatch : s.watchError M = true := by
      by_contra hfalse
      have hall := h.left_of_watchError (Bool.eq_false_iff.mpr hfalse)
      have hle := h.length_le (Fin.last _)
      omega
    have hne : s.fillArea b ≠ [] := fun hnil => by
      rw [hnil, length_nil] at hroom
      omega
    obtain ⟨c, hstep⟩ := canRun_place (P := P) (T := T) (j := j) hwatch hb hne
    have hone := left_place (P := P) (T := T) (i := i) (j := j) c
    have hlen : ((s.place P T i j b c).fillArea b).length + 1 = (s.fillArea b).length := by
      simp only [Filling.place, Filling.deleteElement, update_self,
        length_eraseIdx_of_lt c.isLt]
      omega
    obtain ⟨s', hrest, hkept, hleft', hlen', hother⟩ := ih (h.place (j := j) hb c) (by omega)
      (by omega)
    refine ⟨s', hstep.append hrest, hkept, ?_, ?_, ?_⟩
    · rw [length_cons]
      omega
    · rw [length_cons]
      omega
    · intro b' hb'
      rw [hother b' hb']
      exact update_of_ne hb' _ _

/-- Every shard of a list sends its nodes to the next one. -/
lemma canRun_shift (is : List (Fin k)) (h : Kept P T s) (hnodup : is.Nodup)
    (hroom : ∀ i ∈ is, (s.fillArea i.succ.castSucc).length = M)
    (hleft : is.length * M + M ≤ s.left) :
    ∃ s', CanRun P T s (is.flatMap fun i => (List.finRange M).map fun j =>
        (i.castSucc.castSucc, j)) s' ∧ Kept P T s' ∧ s'.left + is.length * M = s.left ∧
      ∀ b, (∀ i ∈ is, b ≠ i.succ.castSucc) → s'.fillArea b = s.fillArea b := by
  induction is generalizing s with
  | nil => exact ⟨s, .nil, h, by simp, fun _ _ => rfl⟩
  | cons i is ih =>
    obtain ⟨hnot, hrest⟩ := nodup_cons.mp hnodup
    rw [length_cons, Nat.succ_mul] at hleft
    have hne : i.succ.castSucc ≠ i.castSucc.castSucc := Fin.ne_of_val_ne (by simp)
    obtain ⟨s₁, hsend, hkept, hleft', -, hother⟩ := canRun_send (finRange M) h hne
      (by rw [hroom i mem_cons_self, length_finRange])
      (by rw [length_finRange]; omega)
    rw [length_finRange] at hleft'
    have hnext : ∀ i' ∈ is, i'.succ.castSucc ≠ i.succ.castSucc := by
      intro i' hi' heq
      exact hnot (Fin.succ_injective _ (Fin.castSucc_injective _ heq) ▸ hi')
    obtain ⟨s', hrun, hkept', hleft'', hother'⟩ := ih hkept hrest
      (fun i' hi' => by
        rw [hother _ (hnext i' hi')]
        exact hroom i' (mem_cons_of_mem _ hi'))
      (by omega)
    refine ⟨s', hsend.append hrun, hkept', ?_, ?_⟩
    · rw [length_cons, Nat.succ_mul]
      omega
    · intro b hb
      rw [hother' b fun i' hi' => hb i' (mem_cons_of_mem _ hi')]
      exact hother b (hb i mem_cons_self)

/-- With three shards or more the first ones can send any number of nodes to the last. -/
lemma canRun_firstRounds (hk : k ≠ 0) (P : Plan (k + 2) N M) (T : Table (k + 2) N)
    (sendNodes : Fin (k + 2) → List Nodeinfo) {q : ℕ} (hq : q ≤ M) :
    ∃ s₁, CanRun P T (.start P T sendNodes) (firstRounds k M) s₁ ∧
      (s₁.fillArea (Fin.last _)).length = M - q := by
  have hleft := left_start P T sendNodes
  rw [length_firstRounds] at hleft
  have hsplit : firstRounds k M = ((finRange k).flatMap fun i =>
      (finRange M).map fun j => (i.castSucc.castSucc, j)) ++
      ((finRange M).take q).map (fun j => ((Fin.last k).castSucc, j)) ++
      ((finRange M).drop q).map (fun j => ((Fin.last k).castSucc, j)) := by
    rw [firstRounds, finRange_succ_last, flatMap_append, flatMap_map,
      flatMap_singleton, append_assoc, ← map_append, take_append_drop]
  obtain ⟨s₁, hshift, hkept₁, hleft₁, hother₁⟩ := canRun_shift (finRange k)
    (kept_start P T sendNodes) (nodup_finRange k) (fun i _ => P.length_eq _)
    (by rw [length_finRange, hleft, Nat.succ_mul]; omega)
  rw [length_finRange, hleft, Nat.succ_mul] at hleft₁
  have hlast₁ : s₁.fillArea (Fin.last _) = P.fillArea (Fin.last _) :=
    hother₁ _ fun i _ => (Fin.castSucc_ne_last _).symm
  have hzero₁ : s₁.fillArea 0 = P.fillArea 0 :=
    hother₁ _ fun i _ => Fin.ne_of_val_ne (by simp)
  have htake : ((finRange M).take q).length = q := by
    rw [length_take, length_finRange, Nat.min_eq_left hq]
  have hdrop : ((finRange M).drop q).length = M - q := by
    rw [length_drop, length_finRange]
  obtain ⟨s₂, hto, hkept₂, hleft₂, hlen₂, hother₂⟩ := canRun_send
    ((finRange M).take q) hkept₁ (i := (Fin.last k).castSucc) (b := Fin.last _)
    (Fin.castSucc_ne_last _).symm (by rw [htake, hlast₁, P.length_eq]; exact hq)
    (by omega)
  have hzero₂ : s₂.fillArea 0 = P.fillArea 0 := by
    rw [hother₂ 0 (Fin.ne_of_val_ne (by simp)), hzero₁]
  have hne : (0 : Fin (k + 2)) ≠ (Fin.last k).castSucc := Fin.ne_of_val_ne (by simpa using hk.symm)
  obtain ⟨s₃, hback, -, -, -, hother₃⟩ := canRun_send ((finRange M).drop q) hkept₂ hne
    (by rw [hzero₂, P.length_eq]; omega) (by omega)
  refine ⟨s₃, ?_, ?_⟩
  · rw [hsplit]
    exact (hshift.append hto).append hback
  · rw [hother₃ _ (Fin.ne_of_val_ne (by simp))]
    rw [hlast₁, P.length_eq] at hlen₂
    omega

lemma position_eq_of_rightExchanges {q : Fin M}
    (hafter : ∀ j, q < j → P.position (Fin.last _) j = j.castLE P.moveCount_le)
    (h : RightExchanges P (((List.finRange M).drop q : List (Fin M)) : Multiset (Fin M))) :
    P.position (Fin.last _) q = q.castLE P.moveCount_le := by
  have hdrop : (finRange M).drop q = q :: (finRange M).drop (q + 1) := by
    rw [drop_eq_getElem_cons (by simp)]
    simp
  have hrest : ∀ j ∈ (finRange M).drop (q + 1), q < j := by
    intro j hj
    obtain ⟨n, hn, rfl⟩ := getElem_of_mem hj
    rw [getElem_drop, getElem_finRange]
    exact Nat.lt_of_lt_of_le (Nat.lt_succ_self _) (Nat.le_add_right _ _)
  have hsame : ((finRange M).drop (q + 1)).map (P.position (Fin.last _)) =
      ((finRange M).drop (q + 1)).map (Fin.castLE P.moveCount_le) :=
    map_congr_left fun j hj => hafter j (hrest j hj)
  rw [RightExchanges, hdrop, ← Multiset.cons_coe, Multiset.map_cons, Multiset.map_cons,
    Multiset.map_coe, Multiset.map_coe, hsame, Multiset.cons_inj_left] at h
  exact h

/-- Every run that ends permutes the nodes exactly if there are two shards, or if the selected
positions of the last shard are the first ones in their order. -/
theorem reconfiguration_permutes_iff (P : Plan (k + 2) N M) (T : Table (k + 2) N)
    (sendNodes : Fin (k + 2) → List Nodeinfo) :
    (∀ rs s, fillReconfiguration P T sendNodes rs = some s → Permuted P T s.nodesinfo) ↔
      k = 0 ∨ ∀ j, P.position (Fin.last _) j = j.castLE P.moveCount_le := by
  constructor
  · intro hall
    by_contra hnot
    push Not at hnot
    obtain ⟨hk, j₀, hj₀⟩ := hnot
    -- the last round whose position is not its own number
    obtain ⟨q, hq⟩ := (Finset.univ.filter fun j =>
      P.position (Fin.last _) j ≠ j.castLE P.moveCount_le).exists_maximal
        ⟨j₀, by simpa using hj₀⟩
    have hwrong : P.position (Fin.last _) q ≠ q.castLE P.moveCount_le := by
      simpa using hq.prop
    have hafter : ∀ j, q < j → P.position (Fin.last _) j = j.castLE P.moveCount_le := by
      intro j hj
      by_contra hne
      exact hq.not_gt (by simpa using hne) hj
    obtain ⟨s₁, ⟨rs₁, hfirst⟩, hlen⟩ := canRun_firstRounds hk P T sendNodes q.isLt.le
    obtain ⟨htrack, hleft⟩ := onTrack_of_run (P := P) (T := T) (n := (firstRounds k M).length)
      (by rw [rounds_eq, length_append]; omega) (by rw [rounds_eq, take_left]; exact hfirst [])
    rw [length_firstRounds] at hleft
    obtain ⟨s₂, rs₂, hlast⟩ := canRun_lastRounds (finRange M) htrack
      (by rw [length_finRange]; omega) length_finRange.le
    have hrun : run (fillStep P T) (.start P T sendNodes, rs₁ ++ (rs₂ ++ [])) (rounds (k + 2) M) =
        some (s₂, []) := by
      rw [rounds_eq, run_append, hfirst, bind_some, hlast]
    have hpermuted := hall (rs₁ ++ (rs₂ ++ [])) { s₂ with count := fun _ => 0 } (by
      rw [fillReconfiguration, hrun]
      rfl)
    have hright := (permuted_iff_of_run (hfirst (rs₂ ++ [])) (hlast [])).mp hpermuted
    rw [hlen, show M - (M - q.val) = q.val by omega] at hright
    exact hwrong (position_eq_of_rightExchanges hafter hright)
  · intro hcond rs s hrun
    obtain ⟨⟨s₂, rs₂⟩, hrounds, rfl⟩ := map_eq_some_iff.mp hrun
    rw [rounds_eq, run_append] at hrounds
    obtain ⟨⟨s₁, rs₁⟩, hfirst, hlast⟩ := bind_eq_some_iff.mp hrounds
    refine (permuted_iff_of_run hfirst hlast).mpr ?_
    rcases hcond with hk | hpos
    · obtain ⟨-, -, -, hfull⟩ := spec_firstRounds hfirst
      rw [hfull hk, drop_eq_nil_of_le (by simp)]
      rfl
    · exact Multiset.map_congr rfl fun j _ => hpos j

/-- Three shards of two nodes. -/
def smallTable : Table 3 2 where
  nodes x := ⟨formatNat x.1, formatNat x.2, lit "node", formatNat (2 * x.1 + x.2), []⟩
  distinct := by decide +kernel

/-- The second node of each shard is selected. -/
def smallPlan : Plan 3 2 1 where
  fillArea _ := [1]
  length_eq _ := rfl
  nodup _ := by decide
  moveCount_le := by decide

/-- When the last shard has its round, both other shards are filled. -/
theorem last_round_not_stuck :
    ∃ s rs', run (fillStep smallPlan smallTable) (.start smallPlan smallTable (fun _ => []),
        [1, 0, 0, 0]) ((rounds 3 1).take 2) = some (s, rs') ∧ s.watchError 1 = false ∧
      ∃ s', CanRun smallPlan smallTable s [(2, 0)] s' := by
  obtain ⟨⟨s, rs'⟩, hrun, hwatch⟩ : ∃ r, run (fillStep smallPlan smallTable)
      (.start smallPlan smallTable (fun _ => []), [1, 0, 0, 0]) ((rounds 3 1).take 2) = some r ∧
        r.1.watchError 1 = false := Runs.exists_of_any (by decide +kernel)
  obtain ⟨-, -, -, hcan⟩ := reconfiguration_never_stuck smallPlan smallTable (fun _ => []) 2 2 0
    _ rs' s (by decide +kernel) hrun
  exact ⟨s, rs', hrun, hwatch, hcan⟩

/-- The second node of the last shard is nowhere, and its first node is there twice. -/
theorem second_node_lost :
    ∃ s, fillReconfiguration smallPlan smallTable (fun _ => []) [1, 0, 0, 0, 0, 0, 0, 0] = some s ∧
      (∀ x, (s.nodesinfo x).peerId ≠ (smallTable.nodes (2, 1)).peerId) ∧
      (s.nodesinfo (2, 0)).peerId = (smallTable.nodes (2, 0)).peerId ∧
      (s.nodesinfo (0, 1)).peerId = (smallTable.nodes (2, 0)).peerId :=
  Runs.exists_of_any (by decide +kernel)

end ShardingBC.Reconfiguration
