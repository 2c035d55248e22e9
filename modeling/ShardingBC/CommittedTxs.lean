import ShardingBC.Consumption
import ShardingBC.Routing

/-!
# Committed transactions and the mempool

A block is built from a reap, with every transaction parsed, rewritten and printed again. `Update`
undoes the rewriting and looks for the bytes in the mempool, so it finds a transaction only in the
spelling of the printer.
-/
namespace ShardingBC

open List Option

/-- The elements whose transactions `ReapMaxBytesMaxGas` returns. -/
def reapedElems (env : Env) (maxBytes maxGas : Int64) :
    Int64 → Int64 → List MempoolTx → List MempoolTx
  | _, _, [] => []
  | totalBytes, totalGas, memTx :: rest =>
    let totalBytes' := totalBytes + (Int64.ofNat memTx.tx.length + computeAminoOverhead memTx.tx)
    let totalGas' := totalGas + memTx.gasWanted
    if (parseData memTx.tx).join.any fun cm => (cm.transactions env.gzip).isNone then
      reapedElems env maxBytes maxGas totalBytes totalGas rest
    else if overBytes maxBytes totalBytes memTx.tx then []
    else if overGas maxGas totalGas' then []
    else memTx :: reapedElems env maxBytes maxGas totalBytes' totalGas' rest

/-- The transactions that a block gets from an element. -/
def blockTxs (env : Env) (x : MempoolTx) : List Bytes :=
  match parseData x.tx with
  | some (some cm) => ((cm.transactions env.gzip).bind relayTxs).getD []
  | _ => [x.tx]

variable {txs : List Bytes} {env : Env}

/-- A reap returns the transactions of the elements it takes, with a row for every message. -/
lemma reapLoop_spec {maxBytes maxGas height : Int64} {xs : List MempoolTx}
    {totalBytes totalGas : Int64} {rows : List RelationTable}
    (h : reapLoop env maxBytes maxGas height totalBytes totalGas xs = some (txs, rows)) :
    txs = (reapedElems env maxBytes maxGas totalBytes totalGas xs).flatMap (blockTxs env) ∧
      ∀ x ∈ reapedElems env maxBytes maxGas totalBytes totalGas xs, ∀ cm, IsMessage x cm →
        RelationTable.ofMessage cm height ∈ rows := by
  induction xs generalizing totalBytes totalGas txs rows with
  | nil =>
    cases h
    simp [reapedElems]
  | cons y ys ih =>
    simp only [reapLoop] at h
    simp only [reapedElems]
    split at h
    · cases h
    · rename_i cm hcm
      split at h
      · next htl => simpa [hcm, htl] using ih h
      · rename_i txlist htl
        split at h
        · cases h
        · rename_i relays hrel
          rw [if_neg (by simp [hcm, htl])]
          split_ifs at h ⊢
          · cases h
            simp
          · cases h
            simp
          · obtain ⟨⟨txs', rows'⟩, hrest, he⟩ := map_eq_some_iff.mp h
            cases he
            obtain ⟨htxs, hrows⟩ := ih hrest
            rw [flatMap_cons, ← htxs, forall_mem_cons]
            refine ⟨by simp [blockTxs, hcm, htl, hrel], fun cm' hcm' => ?_,
              fun x hx cm' hcm' => mem_cons_of_mem _ (hrows x hx cm' hcm')⟩
            obtain rfl := some.inj (some.inj (hcm.symm.trans hcm'))
            exact mem_cons_self
    · rename_i hcm
      rw [if_neg (by simp [hcm])]
      split_ifs at h ⊢
      · cases h
        simp
      · cases h
        simp
      · obtain ⟨⟨txs', rows'⟩, hrest, he⟩ := map_eq_some_iff.mp h
        cases he
        obtain ⟨htxs, hrows⟩ := ih hrest
        rw [flatMap_cons, ← htxs, forall_mem_cons]
        exact ⟨by simp [blockTxs, hcm], by simp [IsMessage, hcm], hrows⟩

/-- The transaction is listed as `Update` will look for it: printed, no relay to this shard, and no
relay from this shard that is marked as sent. -/
def Recognised (shard : Bytes) (raw : Bytes) : Prop :=
  ∃ t, newTX raw = some t ∧ raw = t.data ∧
    (t.txtype = lit "relaytx" → t.receiver ≠ shard ∧ (t.sender = shard → t.operate = 0)) ∧
    (shard = [] → shardKey t ≠ [])

lemma addtx_ne_relaytx : lit "addtx" ≠ lit "relaytx" := by decide

lemma updateTx_cases (shard : Bytes) (t : TX) :
    (t.txtype = lit "relaytx" ∧ t.receiver = shard ∧
      (t.updateTx shard).txtype = lit "addtx") ∨
    (t.txtype = lit "relaytx" ∧ t.receiver ≠ shard ∧ t.sender = shard ∧
      t.updateTx shard = { t with operate := 1 }) ∨
    (¬ (t.txtype = lit "relaytx" ∧ (t.receiver = shard ∨ t.sender = shard)) ∧
      t.updateTx shard = t) := by
  unfold TX.updateTx
  grind

/-- `DetectTx` finds nothing in a block. -/
lemma detectTx_updated {t : TX}
    (ht : t ∈ updatedTxs env.shard txs) : detectTx env t.data = some false := by
  rw [detectTx, newTX_data_of_updated ht, map_some, some.injEq,
    decide_eq_false_iff_not]
  obtain ⟨raw, -, hraw⟩ := mem_filterMap.mp ht
  obtain ⟨u, -, rfl⟩ := map_eq_some_iff.mp hraw
  rintro ⟨hty, hrec⟩
  rcases updateTx_cases env.shard u with ⟨-, -, hadd⟩ | ⟨-, hne, -, he⟩ | ⟨hno, he⟩
  · exact addtx_ne_relaytx (hadd.symm.trans hty)
  · rw [he] at hrec
    exact hne hrec
  · rw [he] at hty hrec
    exact hno ⟨hty, Or.inl hrec⟩

@[simp] lemma ownTxs_handleSortTx (env : Env) (txs : List Bytes) :
    ownTxs env (handleSortTx env.shard txs) = some (handleSortTx env.shard txs) := by
  have hown : ∀ l : List Bytes, (∀ raw ∈ l, detectTx env raw = some false) →
      ownTxs env l = some l := by
    intro l hl
    induction l with
    | nil => rfl
    | cons raw l ih =>
      rw [ownTxs, hl raw (by simp), ih fun raw h => hl raw (mem_cons_of_mem _ h)]
      rfl
  refine hown _ fun raw hraw => ?_
  obtain ⟨t, ht, rfl, -⟩ := (mem_handleSortTx_iff _ _ _).mp hraw
  exact detectTx_updated ht

lemma committedForm_sent {t : TX} (h : newTX t.data = some t)
    (hop : t.operate = 1) (hty : t.txtype = lit "relaytx") (hsend : t.sender = env.shard) :
    committedForm env t.data = ({ t with operate := 0 } : TX).data := by
  rw [committedForm, h]
  exact if_pos ⟨hop, hty, hsend⟩

lemma committedForm_other {t : TX} (h : newTX t.data = some t)
    (hno : ¬ (t.txtype = lit "relaytx" ∧ t.sender = env.shard)) :
    committedForm env t.data = t.data := by
  rw [committedForm, h]
  exact if_neg fun h => hno h.2

lemma recognised_committedForm {t : TX}
    (ht : t ∈ updatedTxs env.shard txs) (hkey : env.shard = [] → shardKey t ≠ []) :
    Recognised env.shard (committedForm env t.data) := by
  have hnew := newTX_data_of_updated ht
  obtain ⟨raw, -, hraw⟩ := mem_filterMap.mp ht
  obtain ⟨u, hu, rfl⟩ := map_eq_some_iff.mp hraw
  have hvalid := TX.repair_operate (TX.repair_of_newTX hu) 0
  rcases updateTx_cases env.shard u with ⟨-, -, hadd⟩ | ⟨hty, hrec, hsend, he⟩ | ⟨hno, he⟩
  · have hty : (u.updateTx env.shard).txtype ≠ lit "relaytx" := hadd ▸ addtx_ne_relaytx
    rw [committedForm_other hnew fun h => hty h.1]
    exact ⟨_, hnew, rfl, fun h => absurd h hty, hkey⟩
  · rw [he] at hnew hkey ⊢
    rw [committedForm_sent hnew rfl hty hsend]
    refine ⟨{ u with operate := 0 }, ?_, rfl, fun _ => ⟨hrec, fun _ => rfl⟩, hkey⟩
    rw [TX.newTX_data, hvalid]
  · rw [he] at hnew hkey ⊢
    rw [committedForm_other hnew fun h => hno ⟨h.1, Or.inr h.2⟩]
    exact ⟨u, hnew, rfl, fun hty => ⟨fun h => hno ⟨hty, Or.inl h⟩,
      fun h => absurd ⟨hty, Or.inr h⟩ hno⟩, hkey⟩

/-- A committed transaction is found just when it is spelled as printed and its rewriting can be
undone. -/
lemma mem_committedForm_iff (env : Env) {raw : Bytes} (hraw : raw ∈ txs) :
    raw ∈ (handleSortTx env.shard txs).map (committedForm env) ↔ Recognised env.shard raw := by
  constructor
  · intro h
    obtain ⟨form, hform, rfl⟩ := mem_map.mp h
    obtain ⟨t, ht, rfl, hkey⟩ := (mem_handleSortTx_iff _ _ _).mp hform
    exact recognised_committedForm ht hkey
  · rintro ⟨t, hnew, rfl, hrelay, hkey⟩
    have hup : t.updateTx env.shard ∈ updatedTxs env.shard txs :=
      mem_filterMap.mpr ⟨t.data, hraw, by rw [hnew, map_some]⟩
    rw [List.mem_map]
    rcases updateTx_cases env.shard t with ⟨hty, hrec, -⟩ | ⟨hty, hrec, hsend, he⟩ | ⟨hno, he⟩
    · exact absurd hrec (hrelay hty).1
    · rw [he] at hup
      refine ⟨_, (mem_handleSortTx_iff _ _ _).mpr ⟨_, hup, rfl, hkey⟩, ?_⟩
      have hback : ({ ({ t with operate := 1 } : TX) with operate := 0 } : TX) = t := by
        rw [← (hrelay hty).2 hsend]
      rw [committedForm_sent (newTX_data_of_updated hup) rfl hty hsend, hback]
    · rw [he] at hup
      refine ⟨_, (mem_handleSortTx_iff _ _ _).mpr ⟨_, hup, rfl, hkey⟩, ?_⟩
      exact committedForm_other hnew fun h => hno ⟨h.1, Or.inr h.2⟩

section Commit

variable {env : Env} {m m1 m2 : Mempool} {db db' : DB} {maxBytes maxGas height : Int64}
  {txs left : List Bytes} {pre post : Option Int64}

/-- The reap took the element, or returned its bytes as a relay of a message. -/
def Returned (env : Env) (m : Mempool) (maxBytes maxGas : Int64) (txs : List Bytes)
    (x : MempoolTx) : Prop :=
  x ∈ reapedElems env maxBytes maxGas 0 0 m.txs.elems ∨
    parseData x.tx = some none ∧ x.tx ∈ txs

/-- After the block of a reap is committed, an element that the reap returned has left the mempool
just when it is a message or is recognised. -/
theorem departed_iff_recognised
    (hreap : m.reapMaxBytesMaxGas env maxBytes maxGas height = some (txs, m1))
    (hupd : update env (m1, db) height (handleSortTx env.shard txs) pre post =
      some ((m2, db'), left)) {x : MempoolTx} (hx : x ∈ m.txs.elems)
    (hret : Returned env m maxBytes maxGas txs x) :
    x ∉ m2.txs.elems ↔ (∃ cm, IsMessage x cm) ∨ Recognised env.shard x.tx := by
  obtain ⟨⟨txs', rows⟩, hloop, he⟩ := map_eq_some_iff.mp hreap
  cases he
  obtain ⟨m0, ma, htxs0, hrl0, -, hcm, hrm⟩ := update_cases hupd
  have hx0 : x ∈ m0.txs.elems := htxs0 ▸ hx
  rw [mem_removeTxs hrm, mem_removeCm hcm, ownTxs_handleSortTx]
  by_cases hmsg : ∃ cm, IsMessage x cm
  · obtain ⟨cm, hxcm⟩ := hmsg
    have htaken : x ∈ reapedElems env maxBytes maxGas 0 0 m.txs.elems := by
      refine hret.resolve_right fun h => ?_
      rw [IsMessage, h.1] at hxcm
      exact absurd hxcm (by simp)
    have hrow : cmID cm ∈ rowKeys m0.rlDB height := by
      rw [hrl0, mem_rowKeys]
      exact ⟨_, mem_append_right _ ((reapLoop_spec hloop).2 _ htaken _ hxcm), rfl, rfl⟩
    have hpacked := (packed_iff (rowKeys m0.rlDB height) x).mpr ⟨cm, hxcm, hrow⟩
    simp only [hpacked, Bool.true_eq_false, and_false, false_and, not_false_eq_true, true_iff]
    exact Or.inl ⟨cm, hxcm⟩
  · have hplain : packed (rowKeys m0.rlDB height) x = false := by
      by_contra hp
      obtain ⟨cm, hxcm, -⟩ := (packed_iff _ _).mp (Bool.not_eq_false _ ▸ hp)
      exact hmsg ⟨cm, hxcm⟩
    have hmem : x.tx ∈ txs' := by
      rcases hret with htaken | h
      · rw [(reapLoop_spec hloop).1]
        refine mem_flatMap.mpr ⟨x, htaken, ?_⟩
        unfold blockTxs
        split
        · next cm hxcm => exact absurd ⟨cm, hxcm⟩ hmsg
        · simp
      · exact h.2
    simp only [hx0, hplain, true_and, some.injEq, exists_eq_left', not_not, hmsg,
      false_or]
    exact mem_committedForm_iff env hmem

end Commit

/-- A mempool with one transaction. -/
def poolWith (t : TX) : Mempool := plainMempool.addTx t.data 1 0

/-- Reaps everything at height 1 and commits the block of it. -/
def reapAndCommit (env : Env) (m : Mempool) :
    Option ((List Bytes × Mempool) × ((Mempool × DB) × List Bytes)) :=
  (m.reapMaxBytesMaxGas env (-1) (-1) 1).bind fun r =>
    (update env (r.2, fun _ => none) 1 (handleSortTx env.shard r.1) none none).map fun s => (r, s)

lemma reapAndCommit_spec (env : Env) (m : Mempool) (h : (reapAndCommit env m).isSome) :
    ∃ txs m1 m2 db' left, m.reapMaxBytesMaxGas env (-1) (-1) 1 = some (txs, m1) ∧
      update env (m1, fun _ => none) 1 (handleSortTx env.shard txs) none none =
        some ((m2, db'), left) := by
  obtain ⟨p, hp⟩ := isSome_iff_exists.mp h
  obtain ⟨⟨txs, m1⟩, hreap, hmap⟩ := bind_eq_some_iff.mp hp
  obtain ⟨⟨⟨m2, db'⟩, left⟩, hupd, -⟩ := map_eq_some_iff.mp hmap
  exact ⟨txs, m1, m2, db', left, hreap, hupd⟩

/-- A new relay from shard A leaves the mempool. -/
theorem new_relay_departs :
    ∃ txs m1 m2 db' left,
      (poolWith relayToB).reapMaxBytesMaxGas (plainEnv "A") (-1) (-1) 1 = some (txs, m1) ∧
      update (plainEnv "A") (m1, fun _ => none) 1 (handleSortTx (lit "A") txs) none none =
        some ((m2, db'), left) ∧
      ∀ x ∈ (poolWith relayToB).txs.elems, x ∉ m2.txs.elems := by
  obtain ⟨txs, m1, m2, db', left, hreap, hupd⟩ :=
    reapAndCommit_spec (plainEnv "A") (poolWith relayToB) (by decide +kernel)
  refine ⟨txs, m1, m2, db', left, hreap, hupd, fun x hx => ?_⟩
  have htx : x.tx = relayToB.data := by
    rw [show x = ⟨0, 1, 1, relayToB.data, [0]⟩ from mem_singleton.mp hx]
  have hparse : parseData relayToB.data = some none := by decide +kernel
  have htxs : ((poolWith relayToB).reapMaxBytesMaxGas (plainEnv "A") (-1) (-1) 1).map Prod.fst =
      some [relayToB.data] := by decide +kernel
  rw [hreap] at htxs
  obtain rfl : txs = [relayToB.data] := some.inj htxs
  have hrec : Recognised (lit "A") relayToB.data := by
    refine ⟨relayToB, TX.newTX_data relayToB, rfl, fun _ => ⟨?_, fun _ => rfl⟩, ?_⟩ <;> decide
  apply (departed_iff_recognised hreap hupd hx ?_).mpr
  · rw [htx]
    exact Or.inr hrec
  · rw [Returned, htx]
    exact Or.inr ⟨hparse, mem_singleton.mpr rfl⟩

/-- A relay marked as sent is in the block and stays in the mempool. -/
theorem marked_relay_stays :
    (reapAndCommit (plainEnv "A") (poolWith { relayToB with operate := 1 })).map
      (fun p => (p.1.1, p.2.1.1.txs.elems.map MempoolTx.tx)) =
    some ([{ relayToB with operate := 1 }.data], [{ relayToB with operate := 1 }.data]) := by
  decide +kernel

end ShardingBC
