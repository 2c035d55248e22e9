import ShardingBC.Reap
import ShardingBC.Runs

/-!
# What the mempool keeps along a run

The transactions are kept three times: in the list, in the map from keys to the nodes of the list,
and as a number of bytes. Requests to the application are answered later and in any order, and after
a commit the rest is checked again along the list. The three agree as long as no listed transaction
is accepted again, which the cache is to prevent.
-/
namespace ShardingBC

open List Option

/-! ## Nodes -/

namespace TxList

/-- The node, if it is in the list. -/
def node (l : TxList) (i : ℕ) : Option MempoolTx := l.elems.find? fun x => x.elem = i

/-- `Next` of a node in the list. -/
def nextOf (l : TxList) (i : ℕ) : Option ℕ :=
  (l.elems.dropWhile fun x => x.elem ≠ i).tail.head?.map MempoolTx.elem

def front (l : TxList) : Option ℕ := l.elems.head?.map MempoolTx.elem

def back (l : TxList) : Option ℕ := l.elems.getLast?.map MempoolTx.elem

lemma fresh_nil (l : TxList) : ∀ x ∈ ([] : List MempoolTx), x.elem < l.next := by simp

/-- The list without its nodes; a later node is still a fresh one. -/
def clear (l : TxList) : TxList := ⟨[], l.next, nodup_nil, l.fresh_nil⟩

end TxList

/-- What a node that has left the list still holds. -/
structure Detached where
  tx : Bytes
  next : Option ℕ

/-- The nodes that leave the list are detached; nobody changes their `next` any more. -/
def detach (l l' : TxList) (detached : ℕ → Option Detached) (i : ℕ) : Option Detached :=
  match l.node i, l'.node i with
  | some x, none => some ⟨x.tx, l.nextOf i⟩
  | _, _ => detached i

/-! ## Requests and answers -/

namespace TxCache

def reset : TxCache → TxCache
  | map size _ => map size []
  | nop => nop

def Holds (k : Digest) : TxCache → Prop
  | map _ list => k ∈ list
  | nop => False

instance (k : Digest) : ∀ c : TxCache, Decidable (c.Holds k)
  | map _ list => inferInstanceAs (Decidable (k ∈ list))
  | nop => inferInstanceAs (Decidable False)

lemma not_holds_of_push {k : Digest} {c : TxCache} (h : (c.push k).1 = true) : ¬ c.Holds k := by
  cases c with
  | map size list =>
    intro hk
    rw [push, if_pos (show k ∈ list from hk)] at h
    cases h
  | nop => exact id

end TxCache

namespace Mempool

/-- The application and the filter after it take the transaction. -/
def Accepts (m : Mempool) (res : CheckTxResponse) : Prop :=
  res.ok = true ∧ (m.postCheck.all fun maxGas => postCheckMaxGas maxGas res) = true

instance (m : Mempool) (res : CheckTxResponse) : Decidable (m.Accepts res) :=
  inferInstanceAs (Decidable (_ ∧ _))

def flush (m : Mempool) : Mempool :=
  { m with cache := m.cache.reset, txs := m.txs.clear, txsMap := [], txsBytes := 0 }

end Mempool

/-- A mempool with the open requests and the walk along the list during a recheck. -/
structure Pool where
  mem : Mempool
  pending : List (Bytes × UInt16)
  recheckCursor : Option ℕ
  recheckEnd : Option ℕ
  detached : ℕ → Option Detached

inductive PoolEvent where
  | checkTx (env : Env) (db : DB) (tx : Bytes) (peer : UInt16) (checkdb appError : Bool)
  | answer (i : ℕ) (res : CheckTxResponse)
  | update (env : Env) (db : DB) (height : Int64) (txs : List Bytes)
      (preCheck postCheck : Option Int64)
  | recheck (tx : Bytes) (res : CheckTxResponse)
  | flush

namespace Pool

def new (config : MempoolConfig) (cacheSize height : Int64) : Pool :=
  ⟨newMempool config cacheSize height, [], none, none, fun _ => none⟩

/-- `CheckTxWithInfo`: a transaction that passes waits for the application, unless the
connection has an error. -/
def checkTxWithInfo (p : Pool) (env : Env) (db : DB) (tx : Bytes) (peer : UInt16)
    (checkdb appError : Bool) : Pool :=
  let r := p.mem.requestCheck env db tx peer checkdb
  { p with
    mem := r.2
    pending := if r.1 = .ok ∧ appError = false then p.pending ++ [(tx, peer)] else p.pending }

/-- `reqResCb`, which panics during a recheck. -/
def reqResCb (p : Pool) (i : ℕ) (res : CheckTxResponse) : Option Pool :=
  match p.pending[i]?, p.recheckCursor with
  | some (tx, peer), none =>
    some { p with
      mem := p.mem.resCbFirstTime tx peer res
      pending := p.pending.eraseIdx i }
  | _, _ => none

/-- `Update`, with the list between its two removals, and `recheckTxs`. -/
def update (p : Pool) (env : Env) (db : DB) (height : Int64) (txs : List Bytes)
    (preCheck postCheck : Option Int64) : Option Pool := do
  let packed ← removeCm (p.mem, db) height
  let r ← ShardingBC.update env (p.mem, db) height txs preCheck postCheck
  let mem := r.1.1
  let p := { p with
    mem := mem
    detached := detach packed.1.txs mem.txs (detach p.mem.txs packed.1.txs p.detached) }
  if mem.config.recheck ∧ r.2 ≠ [] then
    some { p with recheckCursor := mem.txs.front, recheckEnd := mem.txs.back }
  else some p

def valueOf (p : Pool) (i : ℕ) : Option Bytes :=
  match p.mem.txs.node i with
  | some x => some x.tx
  | none => (p.detached i).map Detached.tx

def nextOf (p : Pool) (i : ℕ) : Option ℕ :=
  match p.mem.txs.node i with
  | some _ => p.mem.txs.nextOf i
  | none => (p.detached i).bind Detached.next

/-- `resCbRecheck` at the cursor. An answer for another transaction panics, as does the removal of
a node that has left the list. -/
def resCbRecheck (p : Pool) (i : ℕ) (tx : Bytes) (res : CheckTxResponse) : Option Pool :=
  let cursor := if p.recheckEnd = some i then none else p.nextOf i
  if p.valueOf i ≠ some tx then none
  else if p.mem.Accepts res then some { p with recheckCursor := cursor }
  else
    (p.mem.txs.node i).map fun x =>
      { p with
        mem := p.mem.removeTx x true
        detached := detach p.mem.txs (p.mem.txs.remove i) p.detached
        recheckCursor := cursor }

def globalCb (p : Pool) (tx : Bytes) (res : CheckTxResponse) : Option Pool :=
  match p.recheckCursor with
  | none => some p
  | some i => p.resCbRecheck i tx res

def flush (p : Pool) : Pool :=
  { p with mem := p.mem.flush, detached := detach p.mem.txs p.mem.txs.clear p.detached }

def step (p : Pool) : PoolEvent → Option Pool
  | .checkTx env db tx peer checkdb appError =>
    some (p.checkTxWithInfo env db tx peer checkdb appError)
  | .answer i res => p.reqResCb i res
  | .update env db height txs preCheck postCheck =>
    p.update env db height txs preCheck postCheck
  | .recheck tx res => p.globalCb tx res
  | .flush => some p.flush

end Pool

/-! ## The three agree -/

namespace Mempool

/-- The bytes of the listed transactions. -/
def listedBytes (m : Mempool) : ℕ := (m.txs.elems.map fun x => x.tx.length).sum

/-- The list, the map and the number of bytes agree. -/
structure Represented (m : Mempool) : Prop where
  nodup : (m.txs.elems.map MempoolTx.tx).Nodup
  txsMap : ∀ k i, AssocMap.lookup k m.txsMap = some i ↔
    ∃ x ∈ m.txs.elems, txKey x.tx = k ∧ x.elem = i
  txsBytes : m.txsBytes.toInt = m.listedBytes

variable {m m' : Mempool} {x y : MempoolTx}

lemma Represented.eq_of_key (h : m.Represented) (hx : x ∈ m.txs.elems) (hy : y ∈ m.txs.elems)
    (hkey : txKey x.tx = txKey y.tx) : x = y := by
  have hlx := (h.txsMap (txKey x.tx) x.elem).mpr ⟨x, hx, rfl, rfl⟩
  have hly := (h.txsMap (txKey x.tx) y.elem).mpr ⟨y, hy, hkey.symm, rfl⟩
  exact inj_on_of_nodup_map m.txs.nodup hx hy (some.inj (hlx.symm.trans hly))

/-- Only the identities and the transactions of the nodes matter. -/
lemma Represented.congr (h : m.Represented)
    (hnodes : m'.txs.elems.map (fun x => (x.elem, x.tx)) = m.txs.elems.map fun x => (x.elem, x.tx))
    (hmap : m'.txsMap = m.txsMap) (hbytes : m'.txsBytes = m.txsBytes) : m'.Represented := by
  have hmem : ∀ (f : ℕ × Bytes → Prop), (∃ x ∈ m'.txs.elems, f (x.elem, x.tx)) ↔
      ∃ x ∈ m.txs.elems, f (x.elem, x.tx) := by
    intro f
    have := congrArg (fun l => ∃ q ∈ l, f q) hnodes
    simpa using this
  have htx : m'.txs.elems.map MempoolTx.tx = m.txs.elems.map MempoolTx.tx := by
    have := congrArg (map Prod.snd) hnodes
    rw [List.map_map, List.map_map] at this
    exact this
  have hlen : m'.listedBytes = m.listedBytes := by
    have := congrArg (fun l => (l.map length).sum) htx
    simpa [listedBytes, Function.comp_def] using this
  refine ⟨htx ▸ h.nodup, fun k i => ?_, by rw [hbytes, hlen, h.txsBytes]⟩
  rw [hmap, h.txsMap k i]
  exact (hmem fun q => txKey q.2 = k ∧ q.1 = i).symm

lemma sum_filter_elem (l : List MempoolTx) (hl : (l.map MempoolTx.elem).Nodup) (hx : x ∈ l)
    (f : MempoolTx → ℕ) :
    ((l.filter fun y => y.elem ≠ x.elem).map f).sum + f x = (l.map f).sum := by
  induction l with
  | nil => simp at hx
  | cons y l ih =>
    rw [map_cons, nodup_cons] at hl
    rcases mem_cons.mp hx with rfl | hx
    · have hrest : (l.filter fun y => y.elem ≠ x.elem) = l := by
        rw [filter_eq_self]
        intro z hz
        have : z.elem ≠ x.elem := fun he => hl.1 (he ▸ mem_map_of_mem hz)
        simpa using this
      rw [filter_cons_of_neg (by simp), hrest, map_cons, sum_cons, add_comm]
    · have hne : y.elem ≠ x.elem := fun he => hl.1 (he ▸ mem_map_of_mem hx)
      rw [filter_cons_of_pos (by simpa using hne), map_cons, map_cons,
        sum_cons, sum_cons, ← ih hl.2 hx]
      omega

lemma Represented.removeTx (h : m.Represented) (hx : x ∈ m.txs.elems) (removeFromCache : Bool) :
    (m.removeTx x removeFromCache).Represented := by
  have helems : (m.removeTx x removeFromCache).txs.elems =
      m.txs.elems.filter fun y => y.elem ≠ x.elem := rfl
  refine ⟨?_, fun k i => ?_, ?_⟩
  · exact h.nodup.sublist (filter_sublist.map _)
  · rw [show (m.removeTx x removeFromCache).txsMap = AssocMap.delete (txKey x.tx) m.txsMap from rfl,
      AssocMap.lookup_delete, helems]
    by_cases hk : txKey x.tx = k
    · rw [if_pos hk]
      constructor
      · intro hf
        cases hf
      · rintro ⟨y, hy, hyk, -⟩
        obtain ⟨hy, hne⟩ := mem_filter.mp hy
        obtain rfl := h.eq_of_key hx hy (hk.trans hyk.symm)
        simp at hne
    · rw [if_neg hk, h.txsMap]
      refine exists_congr fun y => and_congr_left fun hy => ?_
      rw [mem_filter]
      refine ⟨fun hmem => ⟨hmem, ?_⟩, And.left⟩
      have hne : y.elem ≠ x.elem := by
        intro he
        obtain rfl := inj_on_of_nodup_map m.txs.nodup hmem hx he
        exact hk hy.1
      simpa using hne
  · have hsum := sum_filter_elem m.txs.elems m.txs.nodup hx fun y => y.tx.length
    have hlt := m.txsBytes.toInt_lt
    have hbytes := h.txsBytes
    have hnew : (m.removeTx x removeFromCache).listedBytes + x.tx.length = m.listedBytes := hsum
    rw [show (m.removeTx x removeFromCache).txsBytes = m.txsBytes - Int64.ofNat x.tx.length from rfl,
      Int64.toInt_sub, Int64.toInt_ofNat_of_lt (by omega), Int.bmod_eq_of_le (by omega) (by omega)]
    omega

/-- A new node keeps the three when its key is new and the bytes do not overflow. -/
lemma represented_addTx_iff (h : m.Represented) (tx : Bytes) (gasWanted : Int64)
    (peer : UInt16) :
    (m.addTx tx gasWanted peer).Represented ↔
      (∀ x ∈ m.txs.elems, txKey x.tx ≠ txKey tx) ∧ m.listedBytes + tx.length < 2 ^ 63 := by
  have helems : (m.addTx tx gasWanted peer).txs.elems =
      m.txs.elems ++ [⟨m.txs.next, m.height, gasWanted, tx, [peer]⟩] := rfl
  have hmap : ∀ k, AssocMap.lookup k (m.addTx tx gasWanted peer).txsMap =
      if txKey tx = k then some m.txs.next else AssocMap.lookup k m.txsMap :=
    fun k => AssocMap.lookup_set ..
  have hlisted : (m.addTx tx gasWanted peer).listedBytes = m.listedBytes + tx.length := by
    simp [listedBytes, helems]
  constructor
  · intro h'
    refine ⟨fun x hx hkey => ?_, ?_⟩
    · -- The map has the new node for the key, so the old one would be the new one.
      have hlookup := (h'.txsMap (txKey tx) x.elem).mpr
        ⟨x, by rw [helems]; simp [hx], hkey, rfl⟩
      rw [hmap, if_pos rfl, some.injEq] at hlookup
      have := m.txs.fresh x hx
      omega
    · have hbytes := h'.txsBytes
      have hlt := (m.addTx tx gasWanted peer).txsBytes.toInt_lt
      omega
  · rintro ⟨hnew, hlt⟩
    refine ⟨?_, fun k i => ?_, ?_⟩
    · rw [helems, map_append, nodup_append]
      refine ⟨h.nodup, by simp, fun a ha b hb => ?_⟩
      obtain ⟨x, hx, rfl⟩ := mem_map.mp ha
      obtain rfl : b = tx := by simpa using hb
      exact fun he => hnew x hx (congrArg txKey he)
    · rw [hmap, helems]
      by_cases hk : txKey tx = k
      · subst hk
        rw [if_pos rfl, some.injEq]
        refine ⟨fun hi => ⟨_, mem_append_right _ (mem_singleton.mpr rfl), rfl, hi⟩, ?_⟩
        rintro ⟨x, hx, hkey, rfl⟩
        rcases mem_append.mp hx with hx | hx
        · exact absurd hkey (hnew x hx)
        · rw [mem_singleton.mp hx]
      · rw [if_neg hk, h.txsMap]
        refine exists_congr fun x => and_congr_left fun hx => ?_
        rw [mem_append, mem_singleton]
        refine ⟨Or.inl, fun hor => hor.resolve_right ?_⟩
        rintro rfl
        exact hk hx.1
    · rw [show (m.addTx tx gasWanted peer).txsBytes = m.txsBytes + Int64.ofNat tx.length from rfl,
        Int64.toInt_add, Int64.toInt_ofNat_of_lt (by omega), h.txsBytes,
        Int.bmod_eq_of_le (by omega) (by omega)]
      omega

variable {env : Env} {db db' : DB} {tx : Bytes} {peer : UInt16}

lemma Represented.requestCheck (h : m.Represented) (checkdb : Bool) :
    (m.requestCheck env db tx peer checkdb).2.Represented := by
  obtain ⟨cache, txs, cmDB, heq, hnodes, -⟩ := requestCheck_frame env db m tx peer checkdb
  rw [heq]
  exact h.congr hnodes rfl rfl

/-- Nodes of the list can be removed one after the other. -/
lemma mem_removeTx_of_ne (removeFromCache : Bool) (hy : y ∈ m.txs.elems)
    (hne : y.elem ≠ x.elem) : y ∈ (m.removeTx x removeFromCache).txs.elems :=
  mem_filter.mpr ⟨hy, by simpa using hne⟩

lemma Represented.foldl_removeTx {l : List MempoolTx} (h : m.Represented)
    (hl : ∀ x ∈ l, x ∈ m.txs.elems) (hnodup : (l.map MempoolTx.elem).Nodup) :
    (l.foldl (fun m x => m.removeTx x false) m).Represented := by
  induction l generalizing m with
  | nil => exact h
  | cons x l ih =>
    rw [map_cons, nodup_cons] at hnodup
    refine ih (h.removeTx (hl x (by simp)) false) (fun y hy => ?_) hnodup.2
    refine mem_removeTx_of_ne false (hl y (by simp [hy])) fun he => hnodup.1 ?_
    rw [← he]
    exact mem_map_of_mem hy

lemma Represented.foldlM_removeCmStep {keys : List Bytes} {s s' : Mempool × DB}
    {l : List MempoolTx} (h : s.1.Represented) (hl : ∀ x ∈ l, x ∈ s.1.txs.elems)
    (hnodup : (l.map MempoolTx.elem).Nodup) (hrun : l.foldlM (removeCmStep keys) s = some s') :
    s'.1.Represented := by
  induction l generalizing s with
  | nil =>
    cases hrun
    exact h
  | cons x l ih =>
    rw [map_cons, nodup_cons] at hnodup
    obtain ⟨s₁, hstep, hrest⟩ := bind_eq_some_iff.mp hrun
    rcases removeCmStep_cases hstep with ⟨-, rfl⟩ | ⟨cm, -, -, rfl⟩
    · exact ih h (fun y hy => hl y (by simp [hy])) hnodup.2 hrest
    · refine ih ?_ (fun y hy => ?_) hnodup.2 hrest
      · exact (h.removeTx (hl x (by simp)) false).congr rfl rfl rfl
      · refine mem_removeTx_of_ne false (hl y (by simp [hy])) fun he => hnodup.1 ?_
        rw [← he]
        exact mem_map_of_mem hy

lemma Represented.update {height : Int64} {txs left : List Bytes} {pre post : Option Int64}
    (h : m.Represented)
    (hup : ShardingBC.update env (m, db) height txs pre post = some ((m', db'), left)) :
    m'.Represented := by
  simp only [ShardingBC.update, bind_eq_bind, bind_eq_some_iff] at hup
  obtain ⟨own, -, ⟨m₁, db₁⟩, hcm, ⟨m₂, left'⟩, htxs, he⟩ := hup
  obtain ⟨⟨rfl, -⟩, -⟩ := he
  have h₁ : m₁.Represented :=
    Represented.foldlM_removeCmStep (h.congr rfl rfl rfl) (fun _ hx => hx) m.txs.nodup hcm
  obtain ⟨own', -, he⟩ := map_eq_some_iff.mp htxs
  cases he
  exact h₁.foldl_removeTx (fun x hx => mem_of_mem_filter hx)
    (m₁.txs.nodup.sublist (filter_sublist.map _))

lemma represented_flush (m : Mempool) : m.flush.Represented :=
  ⟨by simp [flush, TxList.clear], by simp [flush, TxList.clear, AssocMap.lookup],
    by simp [flush, TxList.clear, listedBytes]⟩

end Mempool

/-! ## One step -/

namespace Pool

variable {p p' : Pool} {e : PoolEvent}

lemma globalCb_cases {tx : Bytes} {res : CheckTxResponse} (h : p.globalCb tx res = some p') :
    p'.pending = p.pending ∧
      (p'.mem = p.mem ∨ ∃ x ∈ p.mem.txs.elems, p'.mem = p.mem.removeTx x true) := by
  simp only [globalCb] at h
  split at h
  · cases h
    exact ⟨rfl, .inl rfl⟩
  · rename_i i _
    unfold resCbRecheck at h
    by_cases hvalue : p.valueOf i ≠ some tx
    · rw [if_pos hvalue] at h
      cases h
    · rw [if_neg hvalue] at h
      by_cases hacc : p.mem.Accepts res
      · rw [if_pos hacc] at h
        cases h
        exact ⟨rfl, .inl rfl⟩
      · rw [if_neg hacc] at h
        obtain ⟨x, hx, rfl⟩ := map_eq_some_iff.mp h
        exact ⟨rfl, .inr ⟨x, mem_of_find?_eq_some hx, rfl⟩⟩

/-- The transaction that the event puts into the list. -/
def accepted (p : Pool) : PoolEvent → Option Bytes
  | .answer i res =>
    if p.recheckCursor = none ∧ p.mem.Accepts res then p.pending[i]?.map Prod.fst else none
  | _ => none

/-- What the event adds is not listed, and its bytes can be counted. -/
def AcceptsNew (p : Pool) (e : PoolEvent) : Prop :=
  ∀ tx ∈ p.accepted e, (∀ x ∈ p.mem.txs.elems, txKey x.tx ≠ txKey tx) ∧
    p.mem.listedBytes + tx.length < 2 ^ 63

lemma step_represented_iff (h : p.mem.Represented) (hstep : p.step e = some p') :
    p'.mem.Represented ↔ p.AcceptsNew e := by
  -- Only an accepted answer adds to the list.
  have hkeep : p.accepted e = none → p'.mem.Represented →
      (p'.mem.Represented ↔ p.AcceptsNew e) := by
    intro hnone hrep
    refine ⟨fun _ => ?_, fun _ => hrep⟩
    simp [AcceptsNew, hnone]
  cases e with
  | checkTx env db tx peer checkdb appError =>
    cases hstep
    exact hkeep rfl (h.requestCheck checkdb)
  | answer i res =>
    simp only [step, reqResCb] at hstep
    split at hstep
    · rename_i tx peer hpending hcursor
      cases hstep
      by_cases hacc : p.mem.Accepts res
      · have hadd : p.mem.resCbFirstTime tx peer res = p.mem.addTx tx res.gasWanted peer :=
          if_pos hacc
        simp only [hadd, Mempool.represented_addTx_iff h, AcceptsNew, accepted, hcursor, hacc,
          hpending, and_self, if_true, map_some, mem_def, some.injEq,
          forall_eq']
      · have hrej : p.mem.resCbFirstTime tx peer res =
            { p.mem with cache := p.mem.cache.remove (txKey tx) } := if_neg hacc
        refine hkeep (by simp [accepted, hacc]) ?_
        rw [hrej]
        exact h.congr rfl rfl rfl
    · cases hstep
  | update env db height txs preCheck postCheck =>
    simp only [step, update, bind_eq_bind, bind_eq_some_iff] at hstep
    obtain ⟨packed, -, ⟨⟨m', db'⟩, left⟩, hup, hlast⟩ := hstep
    have hrep := h.update hup
    refine hkeep rfl ?_
    split_ifs at hlast <;> obtain rfl := some.inj hlast <;> exact hrep
  | recheck tx res =>
    refine hkeep rfl ?_
    obtain ⟨-, hmem | ⟨x, hx, hmem⟩⟩ := globalCb_cases hstep
    · exact hmem ▸ h
    · exact hmem ▸ h.removeTx hx true
  | flush =>
    cases hstep
    exact hkeep rfl (Mempool.represented_flush _)

lemma acceptsNew_of_step_eq_none (h : p.step e = none) : p.AcceptsNew e := by
  have hnone : p.accepted e = none := by
    cases e with
    | answer i res =>
      simp only [step, reqResCb] at h
      split at h
      · cases h
      · rename_i hno
        simp only [accepted]
        split_ifs with hacc
        · cases hp : p.pending[i]? with
          | none => rfl
          | some q => exact absurd hacc.1 (hno q.1 q.2 hp)
        · rfl
    | _ => rfl
  simp [AcceptsNew, hnone]

/-! ## The part of the cache -/

def keys (p : Pool) : List Digest :=
  (p.mem.txs.elems.map fun x => txKey x.tx) ++ p.pending.map fun q => txKey q.1

/-- A transaction that is checked again while listed or waiting is in the cache, and the bytes of
what is accepted can be counted. -/
def Remembers (p : Pool) : PoolEvent → Prop
  | .checkTx _ _ tx _ _ _ => txKey tx ∈ p.keys → p.mem.cache.Holds (txKey tx)
  | e => ∀ tx ∈ p.accepted e, p.mem.listedBytes + tx.length < 2 ^ 63

lemma nodup_keys_of_sublist (h : p.keys.Nodup) (hpending : p'.pending = p.pending)
    (hlist : (p'.mem.txs.elems).Sublist p.mem.txs.elems) : p'.keys.Nodup := by
  refine h.sublist ?_
  unfold keys
  rw [hpending]
  exact (hlist.map _).append (List.Sublist.refl _)

lemma update_sublist {env : Env} {m m' : Mempool} {db db' : DB} {height : Int64}
    {txs left : List Bytes} {pre post : Option Int64}
    (h : ShardingBC.update env (m, db) height txs pre post = some ((m', db'), left)) :
    (m'.txs.elems).Sublist m.txs.elems := by
  obtain ⟨m₀, m₁, hm₀, -, -, hcm, htxs⟩ := update_cases h
  obtain ⟨own, -, he⟩ := map_eq_some_iff.mp htxs
  cases he
  have hfirst : (m₁.txs.elems).Sublist m.txs.elems := by
    rw [removeCm_elems hcm, ← hm₀]
    exact filter_sublist
  rw [foldl_removeTx_elems]
  exact filter_sublist.trans hfirst

lemma step_nodup_keys (h : p.keys.Nodup) (hg : p.Remembers e) (hstep : p.step e = some p') :
    p'.keys.Nodup := by
  cases e with
  | checkTx env db tx peer checkdb appError =>
    cases hstep
    obtain ⟨cache, txs, cmDB, heq, hnodes, -, hnew⟩ :=
      requestCheck_frame env db p.mem tx peer checkdb
    have hlisted : ((p.mem.requestCheck env db tx peer checkdb).2.txs.elems.map fun x =>
        txKey x.tx) = p.mem.txs.elems.map fun x => txKey x.tx := by
      have := congrArg (map fun q => txKey q.2) hnodes
      rw [List.map_map, List.map_map] at this
      rw [heq]
      exact this
    unfold keys checkTxWithInfo
    dsimp only
    rw [hlisted]
    split_ifs with hok
    · rw [map_append, ← append_assoc]
      refine List.Nodup.append h (by simp) ?_
      intro k hk hk'
      obtain rfl : k = txKey tx := by simpa using hk'
      exact TxCache.not_holds_of_push (hnew hok.1).1 (hg hk)
    · exact h
  | answer i res =>
    simp only [step, reqResCb] at hstep
    split at hstep
    · rename_i tx peer hpending _
      cases hstep
      -- The answered request is first in some order of those that wait.
      obtain ⟨hi, hget⟩ := List.getElem?_eq_some_iff.mp hpending
      have hperm : ((tx, peer) :: p.pending.eraseIdx i).Perm p.pending := by
        rw [← hget]
        exact getElem_cons_eraseIdx_perm hi
      have hall : ((p.mem.txs.elems.map fun x => txKey x.tx) ++
          txKey tx :: (p.pending.eraseIdx i).map fun q => txKey q.1).Nodup :=
        (List.Perm.nodup_iff ((hperm.map fun q => txKey q.1).append_left _)).mpr h
      unfold keys
      unfold Mempool.resCbFirstTime
      split_ifs
      · rw [show (p.mem.addTx tx res.gasWanted peer).txs.elems = p.mem.txs.elems ++
          [⟨p.mem.txs.next, p.mem.height, res.gasWanted, tx, [peer]⟩] from rfl,
          map_append, append_assoc]
        exact hall
      · exact hall.sublist ((sublist_cons_self _ _).append_left _)
    · cases hstep
  | update env db height txs preCheck postCheck =>
    simp only [step, update, bind_eq_bind, bind_eq_some_iff] at hstep
    obtain ⟨packed, -, ⟨⟨m', db'⟩, left⟩, hup, hlast⟩ := hstep
    have hsub := update_sublist hup
    split_ifs at hlast <;> cases hlast
    · exact nodup_keys_of_sublist h rfl hsub
    · exact nodup_keys_of_sublist h rfl hsub
  | recheck tx res =>
    obtain ⟨hpending, hmem | ⟨x, -, hmem⟩⟩ := globalCb_cases hstep
    · exact nodup_keys_of_sublist h hpending (hmem ▸ List.Sublist.refl _)
    · exact nodup_keys_of_sublist h hpending (hmem ▸ filter_sublist)
  | flush =>
    cases hstep
    exact nodup_keys_of_sublist h rfl (nil_sublist _)

lemma acceptsNew_of_remembers (h : p.keys.Nodup) (hg : p.Remembers e) : p.AcceptsNew e := by
  cases e with
  | answer i res =>
    intro tx htx
    refine ⟨fun x hx hkey => ?_, hg tx htx⟩
    simp only [accepted] at htx
    split_ifs at htx
    · obtain ⟨q, hq, rfl⟩ := map_eq_some_iff.mp htx
      have hdisjoint := (nodup_append.mp h).2.2
      exact hdisjoint _ (mem_map_of_mem hx) _
        (mem_map_of_mem (mem_of_getElem? hq)) hkey
    · cases htx
  | _ => exact fun tx htx => by cases htx

lemma represented_new (config : MempoolConfig) (cacheSize height : Int64) :
    (new config cacheSize height).mem.Represented :=
  ⟨by simp [new, newMempool, TxList.empty],
    by simp [new, newMempool, TxList.empty, AssocMap.lookup],
    by simp [new, newMempool, TxList.empty, Mempool.listedBytes]⟩

/-! ## Runs -/

/-- List, map and number of bytes agree all along a run exactly when every accepted transaction is
new to the list, as when the cache still remembers whatever is submitted again while it is listed
or waits. -/
theorem represented_iff (config : MempoolConfig) (cacheSize height : Int64)
    (es : List PoolEvent) :
    ((∀ n p, Runs.run step (new config cacheSize height) (es.take n) = some p →
        p.mem.Represented) ↔
      Runs.Guarded step AcceptsNew (new config cacheSize height) es) ∧
    (Runs.Guarded step Remembers (new config cacheSize height) es →
      Runs.Guarded step AcceptsNew (new config cacheSize height) es) := by
  constructor
  · exact Runs.forall_take_iff_guarded (P := fun p => p.mem.Represented)
      (fun p e => acceptsNew_of_step_eq_none)
      (fun p e p' => step_represented_iff) (represented_new config cacheSize height)
  · exact Runs.Guarded.imp (P := fun p => p.keys.Nodup)
      (fun p e p' h hg hstep => step_nodup_keys h hg hstep)
      (fun p e h hg => acceptsNew_of_remembers h hg) nodup_nil

/-- Two transactions and a cache for one: the first is listed twice. -/
def firstTx : Bytes := lit "\x7b\"TxType\":\"addtx\"\x7d"

def secondTx : Bytes := lit "\x7b\"TxType\":\"checkpoint\"\x7d"

def submitted (tx : Bytes) : List PoolEvent :=
  [.checkTx (plainEnv "A") (fun _ => none) tx unknownPeerID false false, .answer 0 ⟨true, 1⟩]

theorem evicted_tx_listed_twice :
    ∃ p, Runs.run step (new ⟨1000, 1000000, false⟩ 1 1)
        (submitted firstTx ++ submitted secondTx ++ submitted firstTx) = some p ∧
      p.mem.txs.elems.map MempoolTx.tx = [firstTx, secondTx, firstTx] ∧ ¬ p.mem.Represented := by
  have hrun : (Runs.run step (new ⟨1000, 1000000, false⟩ 1 1)
      (submitted firstTx ++ submitted secondTx ++ submitted firstTx)).map
        (fun p => p.mem.txs.elems.map MempoolTx.tx) = some [firstTx, secondTx, firstTx] := by
    decide +kernel
  obtain ⟨p, hp, hlist⟩ := map_eq_some_iff.mp hrun
  refine ⟨p, hp, hlist, fun h => ?_⟩
  have hnodup := h.nodup
  rw [hlist] at hnodup
  simp at hnodup

end Pool

end ShardingBC
