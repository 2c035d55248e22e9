import ShardingBC.MempoolRuns

/-!
# Rechecking after a commit

`Update` asks the application again about the transactions left, without those of type `configtx`,
while `resCbRecheck` moves its cursor along the whole list. The answers come in the order of the
requests.
-/
namespace ShardingBC

open List Option

def isConfigTx (tx : Bytes) : Bool := (newTX tx).any fun t => t.txtype == lit "configtx"

/-- A pool with the open recheck requests, and the flag that a reap waits for. -/
structure RecheckPool where
  pool : Pool
  rechecking : Int32
  requests : List Bytes

namespace RecheckPool

/-- `Update`, with the requests that `recheckTxs` sends. -/
def update (s : RecheckPool) (env : Env) (db : DB) (height : Int64) (txs : List Bytes)
    (preCheck postCheck : Option Int64) : Option RecheckPool := do
  let r ← ShardingBC.update env (s.pool.mem, db) height txs preCheck postCheck
  let pool ← s.pool.update env db height txs preCheck postCheck
  if pool.mem.config.recheck ∧ r.2 ≠ [] then some ⟨pool, 1, s.requests ++ r.2⟩
  else some ⟨pool, s.rechecking, s.requests⟩

/-- `globalCb`. The flag falls when the cursor has passed the end. -/
def globalCb (s : RecheckPool) (tx : Bytes) (res : CheckTxResponse) : Option RecheckPool :=
  (s.pool.globalCb tx res).map fun pool =>
    { s with
      pool := pool
      rechecking :=
        if s.pool.recheckCursor ≠ none ∧ pool.recheckCursor = none then 0 else s.rechecking }

/-- The application answers the oldest request. -/
def answer (s : RecheckPool) (res : CheckTxResponse) : Option RecheckPool :=
  match s.requests with
  | [] => none
  | tx :: requests => { s with requests := requests }.globalCb tx res

def answers (s : RecheckPool) (ress : List CheckTxResponse) : Option RecheckPool :=
  ress.foldlM answer s

/-- No recheck is going on. -/
structure Idle (s : RecheckPool) : Prop where
  recheckCursor : s.pool.recheckCursor = none
  rechecking : s.rechecking = 0
  requests : s.requests = []

/-- Whatever the application answers, each answer is for the transaction at the cursor, and
after the last one no recheck is going on, so that answers about new transactions are
taken. -/
structure Finishes (s : RecheckPool) : Prop where
  matched : ∀ ress s' tx requests, s.answers ress = some s' → s'.requests = tx :: requests →
    ∃ i, s'.pool.recheckCursor = some i ∧ s'.pool.valueOf i = some tx
  idle : ∀ ress, ress.length = s.requests.length → ∃ s', s.answers ress = some s' ∧ s'.Idle ∧
    ∀ i res, i < s'.pool.pending.length → (s'.pool.reqResCb i res).isSome

lemma Idle.reqResCb_isSome {s : RecheckPool} (h : s.Idle) {i : ℕ} (res : CheckTxResponse)
    (hi : i < s.pool.pending.length) : (s.pool.reqResCb i res).isSome := by
  rw [Pool.reqResCb, getElem?_eq_getElem hi, h.recheckCursor]
  rfl

end RecheckPool

namespace TxList

variable {l : TxList} {kept rest : List MempoolTx} {x : MempoolTx}

lemma elem_ne_of_split (h : l.elems = kept ++ x :: rest) {y : MempoolTx} (hy : y ∈ kept ++ rest) :
    y.elem ≠ x.elem := by
  have hnodup := l.nodup
  rw [h, map_append, map_cons, nodup_middle, nodup_cons, ← map_append]
    at hnodup
  exact fun he => hnodup.1 (he ▸ mem_map_of_mem hy)

lemma node_of_split (h : l.elems = kept ++ x :: rest) : l.node x.elem = some x := by
  have hkept : kept.find? (fun y => y.elem = x.elem) = none :=
    find?_eq_none.mpr fun y hy => by simpa using elem_ne_of_split h (mem_append_left _ hy)
  simp [node, h, hkept]

lemma nextOf_of_split (h : l.elems = kept ++ x :: rest) :
    l.nextOf x.elem = rest.head?.map MempoolTx.elem := by
  have hdrop : l.elems.dropWhile (fun y => y.elem ≠ x.elem) = x :: rest := by
    rw [h, dropWhile_append_of_pos fun y hy => by
      simpa using elem_ne_of_split h (mem_append_left _ hy)]
    simp
  rw [nextOf, hdrop, tail_cons]

lemma remove_of_split (h : l.elems = kept ++ x :: rest) :
    (l.remove x.elem).elems = kept ++ rest := by
  have hkeep : ∀ y ∈ kept ++ rest, decide (y.elem ≠ x.elem) = true := fun y hy => by
    simpa using elem_ne_of_split h hy
  simp only [remove, h, filter_append, filter_cons]
  rw [filter_eq_self.mpr fun y hy => hkeep y (mem_append_left _ hy),
    filter_eq_self.mpr fun y hy => hkeep y (mem_append_right _ hy)]
  simp

end TxList

namespace RecheckPool

variable {s s' : RecheckPool} {kept rest : List MempoolTx} {x : MempoolTx}

/-- The cursor is at the first remaining element, and the requests for these are open. -/
structure Walking (s : RecheckPool) (kept rest : List MempoolTx) : Prop where
  elems : s.pool.mem.txs.elems = kept ++ rest
  requests : s.requests = (rest.filter fun x => !isConfigTx x.tx).map MempoolTx.tx
  recheckCursor : s.pool.recheckCursor = rest.head?.map MempoolTx.elem
  recheckEnd : rest ≠ [] → s.pool.recheckEnd = rest.getLast?.map MempoolTx.elem
  rechecking : s.rechecking = if rest = [] then 0 else 1

lemma Walking.valueOf (h : s.Walking kept (x :: rest)) : s.pool.valueOf x.elem = some x.tx := by
  rw [Pool.valueOf, TxList.node_of_split h.elems]

lemma Walking.next (h : s.Walking kept (x :: rest)) :
    (if s.pool.recheckEnd = some x.elem then none else s.pool.nextOf x.elem) =
      rest.head?.map MempoolTx.elem := by
  have hnext : s.pool.nextOf x.elem = rest.head?.map MempoolTx.elem := by
    rw [Pool.nextOf, TxList.node_of_split h.elems]
    exact TxList.nextOf_of_split h.elems
  rw [h.recheckEnd (by simp), hnext]
  cases rest with
  | nil => simp
  | cons y rest =>
    rw [if_neg]
    rw [getLast?_eq_getLast_of_ne_nil (by simp), map_some,
      some.injEq]
    exact TxList.elem_ne_of_split h.elems (mem_append_right _ (getLast_mem _))

/-- One answer about a transaction that was asked about. -/
lemma Walking.answer (h : s.Walking kept (x :: rest)) (hx : isConfigTx x.tx = false)
    (res : CheckTxResponse) : ∃ s' kept', s.answer res = some s' ∧ s'.Walking kept' rest := by
  have hrequests : s.requests =
      x.tx :: (rest.filter fun x => !isConfigTx x.tx).map MempoolTx.tx := by
    rw [h.requests, filter_cons_of_pos (by simp [hx]), map_cons]
  have hcursor : s.pool.recheckCursor = some x.elem := h.recheckCursor
  have hend : rest ≠ [] → s.pool.recheckEnd = rest.getLast?.map MempoolTx.elem := by
    intro hne
    rw [h.recheckEnd (by simp)]
    cases rest with
    | nil => exact absurd rfl hne
    | cons y rest => rw [getLast?_cons_cons]
  have hflag : (if s.pool.recheckCursor ≠ none ∧ rest.head?.map MempoolTx.elem = none then 0
      else s.rechecking) = if rest = [] then 0 else 1 := by
    rw [h.rechecking, hcursor]
    cases rest <;> simp
  simp only [RecheckPool.answer, globalCb, hrequests, Pool.globalCb, hcursor, Pool.resCbRecheck,
    h.valueOf, h.next, ne_eq]
  by_cases hacc : s.pool.mem.Accepts res
  · rw [if_pos hacc]
    refine ⟨_, kept ++ [x], rfl, ?_, rfl, rfl, hend, ?_⟩
    · rw [append_assoc]
      exact h.elems
    · rw [← hflag, hcursor]
  · rw [if_neg hacc, TxList.node_of_split h.elems]
    refine ⟨_, kept, rfl, TxList.remove_of_split h.elems, rfl, rfl, hend, ?_⟩
    rw [← hflag, hcursor]

/-- The cursor does not pass an element that was not asked about. -/
lemma Walking.answer_eq_none (h : s.Walking kept (x :: rest)) (hx : isConfigTx x.tx = true)
    (res : CheckTxResponse) : s.answer res = none := by
  unfold RecheckPool.answer
  split
  · rfl
  · rename_i tx requests hreq
    have hmem : tx ∈ s.requests := by simp [hreq]
    rw [h.requests, List.mem_map] at hmem
    obtain ⟨y, hy, rfl⟩ := hmem
    have hne : x.tx ≠ y.tx := by
      intro he
      rw [he] at hx
      simp [hx] at hy
    have hcursor : s.pool.recheckCursor = some x.elem := h.recheckCursor
    simp [globalCb, Pool.globalCb, hcursor, Pool.resCbRecheck, h.valueOf, hne]

@[simp] lemma answers_cons (res : CheckTxResponse) (ress : List CheckTxResponse) :
    s.answers (res :: ress) = (s.answer res).bind fun s' => s'.answers ress := rfl

lemma Walking.answers {front : List MempoolTx} (h : s.Walking kept (front ++ rest))
    (hfront : ∀ x ∈ front, isConfigTx x.tx = false) {ress : List CheckTxResponse}
    (hlen : ress.length = front.length) :
    ∃ s' kept', s.answers ress = some s' ∧ s'.Walking kept' rest := by
  induction front generalizing s kept ress with
  | nil =>
    obtain rfl := length_eq_zero_iff.mp hlen
    exact ⟨s, kept, rfl, h⟩
  | cons x front ih =>
    obtain ⟨res, ress, rfl⟩ := exists_cons_of_length_pos (by rw [hlen]; simp)
    rw [forall_mem_cons] at hfront
    obtain ⟨s₁, kept₁, hs₁, hwalk⟩ := h.answer hfront.1 res
    obtain ⟨s', kept', hs', hwalk'⟩ := ih hwalk hfront.2 (by simpa using hlen)
    exact ⟨s', kept', by rw [answers_cons, hs₁]; exact hs', hwalk'⟩

lemma length_requests_of_answers {ress : List CheckTxResponse} (h : s.answers ress = some s') :
    s.requests.length = ress.length + s'.requests.length := by
  induction ress generalizing s with
  | nil =>
    cases h
    simp
  | cons res ress ih =>
    obtain ⟨s₁, hs₁, hrest⟩ := bind_eq_some_iff.mp h
    have hlen := ih hrest
    unfold RecheckPool.answer at hs₁
    split at hs₁
    · cases hs₁
    · rename_i tx requests hreq
      obtain ⟨pool, -, rfl⟩ := map_eq_some_iff.mp hs₁
      rw [hreq, length_cons, length_cons]
      dsimp only at hlen
      omega

/-- All requests are answered just when no element that was not asked about stands before
one that was. -/
lemma Walking.answers_isSome_iff (h : s.Walking kept rest) {ress : List CheckTxResponse}
    (hlen : ress.length = s.requests.length) :
    (s.answers ress).isSome ↔
      rest.Pairwise fun x y => isConfigTx x.tx = true → isConfigTx y.tx = true := by
  induction rest generalizing s kept ress with
  | nil =>
    rw [h.requests] at hlen
    obtain rfl := length_eq_zero_iff.mp hlen
    simp [RecheckPool.answers]
  | cons x rest ih =>
    rw [pairwise_cons]
    cases hx : isConfigTx x.tx with
    | false =>
      rw [h.requests, filter_cons_of_pos (by simp [hx])] at hlen
      obtain ⟨res, ress, rfl⟩ := exists_cons_of_length_pos (by rw [hlen]; simp)
      obtain ⟨s₁, kept₁, hs₁, hwalk⟩ := h.answer hx res
      rw [answers_cons, hs₁, bind_some, ih hwalk (by simpa [hwalk.requests] using hlen)]
      simp
    | true =>
      have hasked : s.requests = [] ↔ ∀ y ∈ rest, isConfigTx y.tx = true := by
        rw [h.requests, map_eq_nil_iff, filter_eq_nil_iff]
        simp [hx]
      cases ress with
      | nil =>
        have hall := hasked.mp (length_eq_zero_iff.mp hlen.symm)
        simp only [RecheckPool.answers, forall_const]
        exact iff_of_true rfl ⟨hall, pairwise_of_forall_mem_list fun y _ z hz _ => hall z hz⟩
      | cons res ress =>
        rw [answers_cons, h.answer_eq_none hx, bind_none]
        refine iff_of_false (by simp) fun hp => ?_
        rw [hasked.mpr fun y hy => hp.1 y hy rfl] at hlen
        simp at hlen

lemma Idle.finishes (h : s.Idle) : s.Finishes := by
  constructor
  · intro ress s' tx requests hs' htx
    have hlen := length_requests_of_answers hs'
    rw [h.requests, htx, length_nil, length_cons] at hlen
    omega
  · intro ress hlen
    rw [h.requests] at hlen
    obtain rfl := length_eq_zero_iff.mp hlen
    exact ⟨s, rfl, h, fun i res => h.reqResCb_isSome res⟩

lemma Walking.finishes (h : s.Walking kept rest) (hrest : ∀ x ∈ rest, isConfigTx x.tx = false) :
    s.Finishes := by
  have hrequests : s.requests = rest.map MempoolTx.tx := by
    rw [h.requests, filter_eq_self.mpr (by simpa using hrest)]
  constructor
  · intro ress s' tx requests hs' htx
    have hlen := length_requests_of_answers hs'
    rw [hrequests, htx, length_map, length_cons] at hlen
    have hsplit : s.Walking kept (rest.take ress.length ++ rest.drop ress.length) := by
      rwa [take_append_drop]
    have htake : ress.length = (rest.take ress.length).length := by
      rw [length_take]
      omega
    obtain ⟨s₁, kept', hs₁, hwalk⟩ := hsplit.answers
      (fun x hx => hrest x (mem_of_mem_take hx)) htake
    obtain rfl := some.inj (hs'.symm.trans hs₁)
    obtain ⟨x, rest', hx⟩ := exists_cons_of_length_pos
      (show 0 < (rest.drop ress.length).length by simp; omega)
    rw [hx] at hwalk
    have hxrest : x ∈ rest := mem_of_mem_drop (hx ▸ mem_cons_self)
    have hreq := hwalk.requests
    rw [htx, filter_cons_of_pos (by simp [hrest x hxrest]), map_cons,
      cons.injEq] at hreq
    exact ⟨x.elem, hwalk.recheckCursor, hreq.1 ▸ hwalk.valueOf⟩
  · intro ress hlen
    have hsplit : s.Walking kept (rest ++ []) := by rwa [append_nil]
    obtain ⟨s', kept', hs', hwalk⟩ := hsplit.answers hrest (by simpa [hrequests] using hlen)
    have hidle : s'.Idle := ⟨hwalk.recheckCursor, hwalk.rechecking, hwalk.requests⟩
    exact ⟨s', hs', hidle, fun i res => hidle.reqResCb_isSome res⟩

/-- A recheck that passes an element that was not asked about. -/
lemma Walking.not_finishes (h : s.Walking kept rest) {c : MempoolTx} (hc : c ∈ rest)
    (hconfig : isConfigTx c.tx = true) : ¬s.Finishes := by
  -- the cursor stops at the first such element
  obtain ⟨c, hfind⟩ := isSome_iff_exists.mp
    ((find?_isSome (p := fun x : MempoolTx => isConfigTx x.tx)).mpr ⟨c, hc, hconfig⟩)
  obtain ⟨hconfig, front, rest', rfl, hfront⟩ := find?_eq_some_iff_append.mp hfind
  intro hfin
  obtain ⟨s', kept', hs', hwalk⟩ := h.answers (by simpa using hfront)
    (length_map fun _ => (⟨true, 0⟩ : CheckTxResponse))
  cases hreq : s'.requests with
  | nil =>
    have hlen := length_requests_of_answers hs'
    rw [hreq] at hlen
    obtain ⟨s₁, hs₁, hidle, -⟩ := hfin.idle _ hlen.symm
    obtain rfl := some.inj (hs'.symm.trans hs₁)
    have hcursor := hwalk.recheckCursor
    rw [hidle.recheckCursor] at hcursor
    cases hcursor
  | cons tx requests =>
    obtain ⟨i, hi, hvalue⟩ := hfin.matched _ s' tx requests hs' hreq
    rw [hwalk.recheckCursor, head?_cons, map_some, some.injEq] at hi
    rw [← hi, hwalk.valueOf, some.injEq] at hvalue
    have hmem : tx ∈ s'.requests := by simp [hreq]
    rw [hwalk.requests, List.mem_map] at hmem
    obtain ⟨y, hy, rfl⟩ := hmem
    rw [mem_filter, ← hvalue, hconfig] at hy
    exact absurd hy.2 (by simp)

end RecheckPool

/-- The block does not remove the element: it is no message with a row of the height, and not
committed in the form that `removeTxs` looks for. -/
def Stays (env : Env) (m : Mempool) (height : Int64) (txs : List Bytes) (x : MempoolTx) : Prop :=
  packed (rowKeys m.rlDB height) x = false ∧
    x.tx ∉ ((ownTxs env txs).getD []).map (committedForm env)

instance (env : Env) (m : Mempool) (height : Int64) (txs : List Bytes) (x : MempoolTx) :
    Decidable (Stays env m height txs x) :=
  inferInstanceAs (Decidable (_ ∧ _))

section Update

variable {env : Env} {m m' : Mempool} {db db' : DB} {height : Int64} {txs left : List Bytes}
  {pre post : Option Int64} (h : update env (m, db) height txs pre post = some ((m', db'), left))

include h

lemma mem_update (x : MempoolTx) :
    x ∈ m'.txs.elems ↔ x ∈ m.txs.elems ∧ Stays env m height txs x := by
  obtain ⟨m0, m1, htxs, hrows, -, hcm, hrm⟩ := update_cases h
  obtain ⟨own, hown, -⟩ := removeTxs_elems hrm
  rw [mem_removeTxs hrm, mem_removeCm hcm, Stays, htxs, hrows, hown, and_assoc]
  simp

/-- A property of the pairs that the block leaves in the list. -/
lemma pairwise_update (R : MempoolTx → MempoolTx → Prop) :
    m'.txs.elems.Pairwise R ↔ m.txs.elems.Pairwise fun x y =>
      Stays env m height txs x → Stays env m height txs y → R x y := by
  have hmem := mem_update h
  obtain ⟨p, hp⟩ : ∃ p, m'.txs.elems = m.txs.elems.filter p := by
    obtain ⟨m0, m1, htxs, -, -, hcm, hrm⟩ := update_cases h
    obtain ⟨own, -, helems, -⟩ := removeTxs_elems hrm
    rw [removeCm_elems hcm, List.filter_filter] at helems
    exact ⟨_, htxs ▸ helems⟩
  rw [hp] at hmem ⊢
  have hiff : ∀ x ∈ m.txs.elems, p x = true ↔ Stays env m height txs x := fun x hx => by
    simpa [hx] using hmem x
  rw [pairwise_filter]
  exact Pairwise.iff_of_mem fun {x y} hx hy => by rw [hiff x hx, hiff y hy]

lemma update_left :
    left = (m'.txs.elems.filter fun x => !isConfigTx x.tx).map MempoolTx.tx := by
  obtain ⟨m0, m1, -, -, -, -, hrm⟩ := update_cases h
  obtain ⟨own, -, -, hleft⟩ := removeTxs_elems hrm
  exact hleft

lemma update_config : m'.config = m.config := by
  simp only [update, bind_eq_bind, bind_eq_some_iff] at h
  obtain ⟨own, -, ⟨m1, db1⟩, hcm, ⟨m2, left'⟩, htx, he⟩ := h
  obtain ⟨⟨rfl, -⟩, -⟩ := he
  obtain ⟨_, _, _, hm'⟩ := removeTxs_frame htx
  obtain ⟨_, _, _, _, hm1⟩ := removeCm_frame hcm
  rw [hm']
  exact (congrArg Mempool.config hm1 :)

end Update

lemma Pool.update_cases {p p' : Pool} {env : Env} {db : DB} {height : Int64} {txs : List Bytes}
    {pre post : Option Int64} (h : p.update env db height txs pre post = some p') :
    ∃ db' left, ShardingBC.update env (p.mem, db) height txs pre post =
        some ((p'.mem, db'), left) ∧
      if p'.mem.config.recheck ∧ left ≠ [] then
        p'.recheckCursor = p'.mem.txs.front ∧ p'.recheckEnd = p'.mem.txs.back
      else p'.recheckCursor = p.recheckCursor := by
  simp only [Pool.update, bind_eq_bind, bind_eq_some_iff] at h
  obtain ⟨packed, -, ⟨⟨mem, db'⟩, left⟩, hup, h⟩ := h
  refine ⟨db', left, ?_⟩
  by_cases hask : mem.config.recheck ∧ left ≠ []
  · rw [if_pos hask] at h
    cases h
    exact ⟨hup, by rw [if_pos hask]; exact ⟨rfl, rfl⟩⟩
  · rw [if_neg hask] at h
    cases h
    exact ⟨hup, by rw [if_neg hask]⟩

namespace RecheckPool

variable {s s' : RecheckPool} {env : Env} {db : DB} {height : Int64} {txs : List Bytes}
  {pre post : Option Int64}

/-- After an update nothing was asked, or the cursor is at the front of the list. -/
lemma update_walking (hrequests : s.requests = [])
    (h : s.update env db height txs pre post = some s') :
    (∃ db' left, ShardingBC.update env (s.pool.mem, db) height txs pre post =
        some ((s'.pool.mem, db'), left)) ∧
      ((s'.requests = [] ∧ s'.pool.recheckCursor = s.pool.recheckCursor ∧
          s'.rechecking = s.rechecking ∧ (s.pool.mem.config.recheck = true →
            ∀ x ∈ s'.pool.mem.txs.elems, isConfigTx x.tx = true)) ∨
        (s.pool.mem.config.recheck = true ∧ s'.Walking [] s'.pool.mem.txs.elems ∧
          ∃ x ∈ s'.pool.mem.txs.elems, isConfigTx x.tx = false)) := by
  simp only [RecheckPool.update, bind_eq_bind, bind_eq_some_iff] at h
  obtain ⟨⟨⟨mem, db₁⟩, left₁⟩, hup₁, pool, hpool, h⟩ := h
  obtain ⟨db', left, hup, hcursor⟩ := Pool.update_cases hpool
  obtain ⟨⟨rfl, rfl⟩, rfl⟩ : (mem = pool.mem ∧ db₁ = db') ∧ left₁ = left := by
    simpa using hup₁.symm.trans hup
  have hconfig := congrArg MempoolConfig.recheck (update_config hup)
  have hleft := update_left hup
  by_cases hask : pool.mem.config.recheck = true ∧ left₁ ≠ []
  · rw [if_pos hask] at h hcursor
    cases h
    obtain ⟨tx, htx⟩ := exists_mem_of_ne_nil _ hask.2
    rw [hleft] at htx
    obtain ⟨x, hx, -⟩ := mem_map.mp htx
    obtain ⟨hx, hasked⟩ := mem_filter.mp hx
    have hne : pool.mem.txs.elems ≠ [] := ne_nil_of_mem hx
    refine ⟨⟨_, _, hup⟩, .inr ⟨hconfig.symm.trans hask.1,
      ⟨rfl, ?_, hcursor.1, fun _ => hcursor.2, ?_⟩, x, hx, by simpa using hasked⟩⟩
    · rw [hrequests, nil_append, hleft]
    · rw [if_neg hne]
  · rw [if_neg hask] at h hcursor
    cases h
    refine ⟨⟨_, _, hup⟩, .inl ⟨hrequests, hcursor, rfl, fun hrecheck x hx => ?_⟩⟩
    have hnil : left₁ = [] := by
      by_contra hne
      exact hask ⟨hconfig.trans hrecheck, hne⟩
    rw [hnil, eq_comm, map_eq_nil_iff, filter_eq_nil_iff] at hleft
    simpa using hleft x hx

/-- A recheck finishes just when the block leaves no `configtx` in the pool or nothing
else. -/
theorem recheck_finishes_iff (hidle : s.Idle) (hrecheck : s.pool.mem.config.recheck = true)
    (h : s.update env db height txs pre post = some s') :
    s'.Finishes ↔
      (∀ x ∈ s.pool.mem.txs.elems, Stays env s.pool.mem height txs x → isConfigTx x.tx = false) ∨
        ∀ x ∈ s.pool.mem.txs.elems, Stays env s.pool.mem height txs x → isConfigTx x.tx = true := by
  obtain ⟨⟨db', left, hup⟩, hstate⟩ := update_walking hidle.requests h
  have hmem := mem_update hup
  have hstays : ∀ b, (∀ x ∈ s.pool.mem.txs.elems, Stays env s.pool.mem height txs x →
      isConfigTx x.tx = b) ↔ ∀ x ∈ s'.pool.mem.txs.elems, isConfigTx x.tx = b :=
    fun b => ⟨fun hall x hx => hall x ((hmem x).mp hx).1 ((hmem x).mp hx).2,
      fun hall x hx hstay => hall x ((hmem x).mpr ⟨hx, hstay⟩)⟩
  rw [hstays, hstays]
  rcases hstate with ⟨hreq, hcursor, hflag, hall⟩ | ⟨-, hwalk, x, hx, hasked⟩
  · have hidle' : s'.Idle := ⟨hcursor.trans hidle.recheckCursor, hflag.trans hidle.rechecking, hreq⟩
    exact ⟨fun _ => .inr (hall hrecheck), fun _ => hidle'.finishes⟩
  · constructor
    · intro hfin
      left
      intro y hy
      by_contra hconfig
      exact hwalk.not_finishes hy (by simpa using hconfig) hfin
    · rintro (hnone | hall)
      · exact hwalk.finishes hnone
      · rw [hall x hx] at hasked
        cases hasked

/-- A pool that rechecks, with no recheck going on. -/
def holding (items : List TX) : RecheckPool :=
  let pool := Pool.new ⟨1000, 1000000, true⟩ 1000 1
  ⟨{ pool with mem := items.foldl (fun m t => m.addTx t.data 1 0) pool.mem }, 0, []⟩

/-- A transaction that changes the configuration. -/
def configTx : TX := { transfer with txtype := lit "configtx" }

theorem two_transactions_rechecked :
    ∃ s', (holding [transfer, relayToB, relayToC]).update (plainEnv "A") (fun _ => none) 1
        [relayToB.data] none none = some s' ∧
      s'.requests = [transfer.data, relayToC.data] ∧ s'.Finishes := by
  have hrequests : ((holding [transfer, relayToB, relayToC]).update (plainEnv "A") (fun _ => none) 1
      [relayToB.data] none none).map RecheckPool.requests =
        some [transfer.data, relayToC.data] := by
    decide +kernel
  obtain ⟨s', h, hreq⟩ := map_eq_some_iff.mp hrequests
  have hplain : ∀ x ∈ (holding [transfer, relayToB, relayToC]).pool.mem.txs.elems,
      isConfigTx x.tx = false := by
    decide +kernel
  exact ⟨s', h, hreq, (recheck_finishes_iff ⟨rfl, rfl, rfl⟩ rfl h).mpr
    (.inl fun x hx _ => hplain x hx)⟩

/-- The requests and, after an accepting answer, the cursor and the flag. -/
def afterAnswer (s : RecheckPool) : List Bytes × Option (Option ℕ × Int32) :=
  (s.requests, (s.answer ⟨true, 1⟩).map fun s' => (s'.pool.recheckCursor, s'.rechecking))

/-- With a `configtx` in front the answer is for another transaction than the one at the
cursor; with one at the end the cursor never leaves it. -/
theorem configtx_not_passed :
    (∃ s', (holding [configTx, transfer]).update (plainEnv "A") (fun _ => none) 1 [] none none =
        some s' ∧ s'.requests = [transfer.data] ∧ s'.answers [⟨true, 1⟩] = none) ∧
      ∃ s₁ s₂, (holding [transfer, configTx]).update (plainEnv "A") (fun _ => none) 1 [] none none =
          some s₁ ∧ s₁.requests = [transfer.data] ∧ s₁.answers [⟨true, 1⟩] = some s₂ ∧
        s₂.requests = [] ∧ s₂.pool.recheckCursor = some 1 ∧ s₂.rechecking = 1 := by
  constructor
  · have hrun : ((holding [configTx, transfer]).update (plainEnv "A") (fun _ => none) 1 [] none
        none).map afterAnswer = some ([transfer.data], none) := by
      decide +kernel
    obtain ⟨s', hs', hafter⟩ := map_eq_some_iff.mp hrun
    obtain ⟨hreq, hpanic⟩ := Prod.mk.inj hafter
    refine ⟨s', hs', hreq, ?_⟩
    rw [answers_cons, map_eq_none_iff.mp hpanic, bind_none]
  · have hrun : ((holding [transfer, configTx]).update (plainEnv "A") (fun _ => none) 1 [] none
        none).map afterAnswer = some ([transfer.data], some (some 1, 1)) := by
      decide +kernel
    obtain ⟨s₁, hs₁, hafter⟩ := map_eq_some_iff.mp hrun
    obtain ⟨hreq, hlast⟩ := Prod.mk.inj hafter
    obtain ⟨s₂, hs₂, hstuck⟩ := map_eq_some_iff.mp hlast
    obtain ⟨hcursor, hflag⟩ := Prod.mk.inj hstuck
    have hanswers : s₁.answers [⟨true, 1⟩] = some s₂ := by rw [answers_cons, hs₂]; rfl
    have hlen := length_requests_of_answers hanswers
    rw [hreq] at hlen
    exact ⟨s₁, s₂, hs₁, hreq, hanswers, length_eq_zero_iff.mp (by simpa using hlen), hcursor,
      hflag⟩

end RecheckPool

end ShardingBC
