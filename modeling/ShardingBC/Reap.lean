import ShardingBC.Mempool

/-!
# Proposing and committing blocks

`ReapMaxBytesMaxGas` with the rows it adds to the relation table, the block that
`CreateProposalBlock` builds from it, and `Update` with the removal of packed messages. `none` is a
nil dereference on what does not parse.
-/
namespace ShardingBC

open List Option

/-- The relay transactions of a message, in order. -/
def relayTxs : List Bytes → Option (List Bytes)
  | [] => some []
  | raw :: rest =>
    match newTX raw, relayTxs rest with
    | some t, some r => some (if t.txtype = lit "relaytx" then raw :: r else r)
    | _, _ => none

/-- The size limit of a reap, which keeps 1500000 bytes free. -/
def overBytes (maxBytes totalBytes : Int64) (tx : Bytes) : Bool :=
  decide (maxBytes > -1) &&
    decide (totalBytes + Int64.ofNat tx.length + computeAminoOverhead tx > maxBytes - 1500000)

def overGas (maxGas newTotalGas : Int64) : Bool := decide (maxGas > -1) && decide (newTotalGas > maxGas)

/-- The loop of `ReapMaxBytesMaxGas` from the given totals on. The row of a message is added before
its gas is checked. -/
def reapLoop (env : Env) (maxBytes maxGas height : Int64) :
    Int64 → Int64 → List MempoolTx → Option (List Bytes × List RelationTable)
  | _, _, [] => some ([], [])
  | totalBytes, totalGas, memTx :: rest =>
    let totalBytes' := totalBytes + (Int64.ofNat memTx.tx.length + computeAminoOverhead memTx.tx)
    let totalGas' := totalGas + memTx.gasWanted
    match parseData memTx.tx with
    | none => none
    | some (some cm) =>
      match cm.transactions env.gzip with
      | none => reapLoop env maxBytes maxGas height totalBytes totalGas rest
      | some txlist =>
        match relayTxs txlist with
        | none => none
        | some relays =>
          if overBytes maxBytes totalBytes memTx.tx then some ([], [])
          else if overGas maxGas totalGas' then
            some ([], [RelationTable.ofMessage cm height])
          else
            (reapLoop env maxBytes maxGas height totalBytes' totalGas' rest).map fun r =>
              (relays ++ r.1, RelationTable.ofMessage cm height :: r.2)
    | some none =>
      if (newTX memTx.tx).isNone then none
      else if overBytes maxBytes totalBytes memTx.tx then some ([], [])
      else if overGas maxGas totalGas' then some ([], [])
      else
        (reapLoop env maxBytes maxGas height totalBytes' totalGas' rest).map fun r =>
          (memTx.tx :: r.1, r.2)

namespace Mempool

def reapMaxBytesMaxGas (env : Env) (m : Mempool) (maxBytes maxGas height : Int64) :
    Option (List Bytes × Mempool) :=
  (reapLoop env maxBytes maxGas height 0 0 m.txs.elems).map fun r =>
    (r.1, { m with rlDB := m.rlDB ++ r.2 })

def syncRelationTable (m : Mempool) (pack : Package) (height : Int64) : Mempool :=
  { m with rlDB := m.rlDB ++ [RelationTable.ofPackage pack height] }

end Mempool

/-- The transactions of a block and, as JSON, the packed messages. -/
structure Proposal where
  txs : List Bytes
  cmRelation : Bytes

/-- The packages that the nodes read from a block. -/
def Proposal.packages (b : Proposal) : List Package := (parsePackages b.cmRelation).getD []

/-- The header field that `MakeBlock` fills; an empty list is nil. -/
def marshalPackages (packs : List Package) : Bytes :=
  Json.print (Json.encodeSlice Package.toJson (if packs = [] then none else some packs))

/-- `CreateProposalBlock`, without a buffered configuration. -/
def createProposalBlock (env : Env) (m : Mempool) (maxBytes maxGas height : Int64) :
    Option (Proposal × Mempool) :=
  (m.reapMaxBytesMaxGas env maxBytes maxGas height).map fun r =>
    (⟨handleSortTx env.shard r.1, marshalPackages (searchRelationTable r.2.rlDB height)⟩, r.2)

/-- `JudgeBlockPakcages`, in a prevote of a node that is not the leader. -/
def judgeBlockPakcages (m : Mempool) (b : Proposal) (height : Int64) : Mempool :=
  b.packages.foldl (fun m pack => m.syncRelationTable pack height) m

/-- `DetectTx`: a relay that reaches this shard. -/
def detectTx (env : Env) (tx : Bytes) : Option Bool :=
  (newTX tx).map fun t => decide (t.txtype = lit "relaytx" ∧ t.receiver = env.shard)

/-- The committed transactions that `Update` looks at. -/
def ownTxs (env : Env) : List Bytes → Option (List Bytes)
  | [] => some []
  | tx :: rest =>
    match detectTx env tx, ownTxs env rest with
    | some d, some r => some (if d then r else tx :: r)
    | _, _ => none

/-- In `RemoveCm` a packed message leaves the list and its row becomes a record. -/
def removeCmStep (keys : List Bytes) (s : Mempool × DB) (memTx : MempoolTx) : Option (Mempool × DB) :=
  match parseData memTx.tx with
  | none => none
  | some none => some s
  | some (some cm) =>
    if cmID cm ∈ keys then
      let m := s.1.removeTx memTx false
      let r := removeRelationTable (cmID cm) m.rlDB s.2
      some ({ m with rlDB := r.1 }, r.2)
    else some s

def removeCm (s : Mempool × DB) (height : Int64) : Option (Mempool × DB) :=
  s.1.txs.elems.foldlM (removeCmStep (rowKeys s.1.rlDB height)) s

/-- What `removeTxs` looks for: an outgoing relay as submitted, anything else as committed. -/
def committedForm (env : Env) (tx : Bytes) : Bytes :=
  match newTX tx with
  | none => tx
  | some t =>
    if t.operate = 1 ∧ t.txtype = lit "relaytx" ∧ t.sender = env.shard then
      ({ t with operate := 0 } : TX).data
    else tx

/-- `removeTxs`: the new state and the transactions left to recheck. -/
def removeTxs (env : Env) (m : Mempool) (txs : List Bytes) : Option (Mempool × List Bytes) :=
  (ownTxs env txs).map fun own =>
    let gone (x : MempoolTx) : Bool := x.tx ∈ own.map (committedForm env)
    ((m.txs.elems.filter gone).foldl (fun m x => m.removeTx x false) m,
      ((m.txs.elems.filter fun x => !gone x).filter fun x =>
        !((newTX x.tx).any fun t => t.txtype == lit "configtx")).map MempoolTx.tx)

/-- `Update` up to `recheckTxs`, which gets the last component; `RecheckPool.update` goes on
from there. -/
def update (env : Env) (s : Mempool × DB) (height : Int64) (txs : List Bytes)
    (preCheck postCheck : Option Int64) : Option ((Mempool × DB) × List Bytes) := do
  let m := { s.1 with
    height := if 0 < s.1.height then height else s.1.height
    preCheck := preCheck.or s.1.preCheck
    postCheck := postCheck.or s.1.postCheck }
  let own ← ownTxs env txs
  let m := { m with cache := own.foldl (fun c tx => (c.push (txKey tx)).2) m.cache }
  let s ← removeCm (m, s.2) height
  let r ← removeTxs env s.1 txs
  some ((r.1, s.2), r.2)

@[simp] lemma parsePackages_marshal (packs : List Package) :
    parsePackages (marshalPackages packs) =
      if packs = [] then none else some (packs.map Package.repair) := by
  have hnum := Json.numsOk_encodeSlice Package.toJson Package.numsOk_toJson
    (if packs = [] then none else some packs)
  rw [parsePackages, marshalPackages, Json.unmarshal_print _ _ _ hnum, decodePackages_encode]
  cases packs with
  | nil => rfl
  | cons p ps => rfl

@[simp] lemma packages_marshal (txs : List Bytes) (packs : List Package) :
    (Proposal.mk txs (marshalPackages packs)).packages = packs.map Package.repair := by
  rw [Proposal.packages, parsePackages_marshal]
  split_ifs with h
  · rw [h]
    rfl
  · rfl

lemma judgeBlockPakcages_eq (m : Mempool) (b : Proposal) (height : Int64) :
    judgeBlockPakcages m b height =
      { m with rlDB := m.rlDB ++ b.packages.map fun p => RelationTable.ofPackage p height } := by
  have hfold : ∀ (packs : List Package) (m : Mempool),
      packs.foldl (fun m pack => m.syncRelationTable pack height) m =
        { m with rlDB := m.rlDB ++ packs.map fun p => RelationTable.ofPackage p height } := by
    intro packs
    induction packs with
    | nil => simp
    | cons p ps ih =>
      intro m
      rw [foldl_cons, ih]
      simp [Mempool.syncRelationTable]
  exact hfold b.packages m

/-- The element is a message. -/
def IsMessage (x : MempoolTx) (cm : CrossMessages) : Prop := parseData x.tx = some (some cm)

lemma IsMessage.mem_join {x : MempoolTx} {cm : CrossMessages} (h : IsMessage x cm) :
    cm ∈ (parseData x.tx).join := by
  rw [IsMessage] at h
  simp [h]

/-- The element is a message with one of the identifiers. -/
def packed (keys : List Bytes) (x : MempoolTx) : Bool :=
  match parseData x.tx with
  | some (some cm) => decide (cmID cm ∈ keys)
  | _ => false

lemma packed_iff (keys : List Bytes) (x : MempoolTx) :
    packed keys x = true ↔ ∃ cm, parseData x.tx = some (some cm) ∧ cmID cm ∈ keys := by
  unfold packed
  split
  · next cm h => simp [h]
  · rename_i h
    constructor
    · intro hf
      exact absurd hf (by simp)
    · rintro ⟨cm, hcm, -⟩
      exact absurd hcm (h cm)

section RemoveCm

variable {keys : List Bytes} {s s' : Mempool × DB} {x : MempoolTx}

lemma removeCmStep_cases (h : removeCmStep keys s x = some s') :
    (packed keys x = false ∧ s' = s) ∨
    ∃ cm, parseData x.tx = some (some cm) ∧ cmID cm ∈ keys ∧
      s' = ({ s.1.removeTx x false with rlDB := (removeRelationTable (cmID cm) s.1.rlDB s.2).1 },
        (removeRelationTable (cmID cm) s.1.rlDB s.2).2) := by
  unfold removeCmStep at h
  split at h
  · exact absurd h (by simp)
  · rename_i hp
    left
    exact ⟨by simp [packed, hp], (some.inj h).symm⟩
  · rename_i cm hp
    split_ifs at h with hk
    · right
      exact ⟨cm, hp, hk, (some.inj h).symm⟩
    · left
      exact ⟨by simp [packed, hp, hk], (some.inj h).symm⟩

variable {l : List MempoolTx}

lemma removeCm_frame (h : l.foldlM (removeCmStep keys) s = some s') : ∃ txs txsMap txsBytes rlDB,
    s'.1 = { s.1 with txs := txs, txsMap := txsMap, txsBytes := txsBytes, rlDB := rlDB } := by
  induction l generalizing s with
  | nil =>
    cases h
    exact ⟨_, _, _, _, rfl⟩
  | cons x l ih =>
    obtain ⟨s1, h1, h2⟩ := bind_eq_some_iff.mp h
    obtain ⟨txs, txsMap, txsBytes, rlDB, hs'⟩ := ih h2
    rcases removeCmStep_cases h1 with ⟨-, rfl⟩ | ⟨cm, -, -, rfl⟩
    · exact ⟨_, _, _, _, hs'⟩
    · exact ⟨_, _, _, _, hs'⟩

/-- Removing one element after the other removes all of them. -/
lemma filter_removeTx (m : Mempool) (x : MempoolTx) (gone : List MempoolTx) :
    ((m.removeTx x false).txs.elems.filter fun y => y.elem ∉ gone.map MempoolTx.elem) =
      m.txs.elems.filter fun y => y.elem ∉ (x :: gone).map MempoolTx.elem := by
  simp only [Mempool.removeTx, TxList.remove, List.filter_filter]
  congr 1
  funext y
  rw [map_cons, Bool.and_comm]
  simp [not_or]

/-- The list loses the packed elements of the traversed part. -/
lemma removeCm_elems (h : l.foldlM (removeCmStep keys) s = some s') :
    s'.1.txs.elems = s.1.txs.elems.filter fun y =>
      y.elem ∉ (l.filter (packed keys)).map MempoolTx.elem := by
  induction l generalizing s with
  | nil =>
    cases h
    simp
  | cons x l ih =>
    obtain ⟨s1, h1, h2⟩ := bind_eq_some_iff.mp h
    rw [ih h2]
    rcases removeCmStep_cases h1 with ⟨hp, rfl⟩ | ⟨cm, hcm, hk, rfl⟩
    · rw [filter_cons_of_neg (by simp [hp])]
    · have hp : packed keys x = true := (packed_iff keys x).mpr ⟨cm, hcm, hk⟩
      rw [filter_cons_of_pos hp]
      exact filter_removeTx s.1 x _

/-- No old record is lost, and there is a new one for each packed element with a row. -/
lemma removeCm_search_iff (h : l.foldlM (removeCmStep keys) s = some s') {k : Bytes} :
    (CheckDB.search s'.2 k).isSome ↔ (CheckDB.search s.2 k).isSome ∨
      k ∈ keys ∧ (∃ r ∈ s.1.rlDB, rlID r = k) ∧ ∃ x ∈ l, ∃ cm, IsMessage x cm ∧ cmID cm = k := by
  induction l generalizing s with
  | nil =>
    cases h
    simp
  | cons x l ih =>
    obtain ⟨s1, h1, h2⟩ := bind_eq_some_iff.mp h
    rw [ih h2, exists_mem_cons_iff]
    rcases removeCmStep_cases h1 with ⟨hp, rfl⟩ | ⟨cm, hcm, hmem, rfl⟩
    · have hx : k ∈ keys → ¬ ∃ cm, IsMessage x cm ∧ cmID cm = k := by
        rintro hk ⟨cm, hcm, rfl⟩
        simp [(packed_iff keys x).mpr ⟨cm, hcm, hk⟩] at hp
      exact or_congr_right (and_congr_right fun hk => and_congr_right fun _ =>
        (or_iff_right (hx hk)).symm)
    · have hx : (∃ cm', IsMessage x cm' ∧ cmID cm' = k) ↔ k = cmID cm := by
        refine ⟨?_, fun he => ⟨cm, hcm, he.symm⟩⟩
        rintro ⟨cm', hcm', rfl⟩
        rw [some.inj (some.inj (hcm.symm.trans hcm'))]
      rw [isSome_search_removeRelationTable, hx]
      by_cases he : k = cmID cm
      · simp only [he, hmem, true_and, true_or, and_true]
        refine or_iff_left_of_imp fun hrest => .inr (hrest.1.imp fun r hr => ?_)
        exact ⟨removeRelationTable_subset hr.1, hr.2⟩
      · simp only [he, false_and, or_false, false_or]
        refine or_congr_right (and_congr_right fun _ => and_congr_left fun _ => ?_)
        refine exists_congr fun r => and_congr_left fun hid => ⟨fun hr => removeRelationTable_subset hr, fun hr => ?_⟩
        exact mem_removeRelationTable_other hr (hid ▸ he)

end RemoveCm

lemma mem_removeCm {s s' : Mempool × DB} {height : Int64} (h : removeCm s height = some s')
    (x : MempoolTx) :
    x ∈ s'.1.txs.elems ↔
      x ∈ s.1.txs.elems ∧ packed (rowKeys s.1.rlDB height) x = false := by
  rw [removeCm_elems h, mem_filter]
  refine and_congr_right fun hx => ?_
  simp only [List.mem_map, mem_filter, decide_eq_true_eq, not_exists, not_and, and_imp]
  constructor
  · intro hn
    by_contra hp
    exact hn x hx (by simpa using hp) rfl
  · intro hp y hy hyp he
    have hxy : y = x := inj_on_of_nodup_map s.1.txs.nodup hy hx he
    rw [hxy, hp] at hyp
    exact absurd hyp (by simp)

lemma foldl_removeTx_elems (l : List MempoolTx) (m : Mempool) :
    (l.foldl (fun m y => m.removeTx y false) m).txs.elems =
      m.txs.elems.filter fun x => x.elem ∉ l.map MempoolTx.elem := by
  induction l generalizing m with
  | nil => simp
  | cons y l ih =>
    rw [foldl_cons, ih]
    exact filter_removeTx m y l

lemma foldl_removeTx_frame (l : List MempoolTx) (m : Mempool) : ∃ txs txsMap txsBytes,
    l.foldl (fun m y => m.removeTx y false) m =
      { m with txs := txs, txsMap := txsMap, txsBytes := txsBytes } := by
  induction l generalizing m with
  | nil => exact ⟨_, _, _, rfl⟩
  | cons y l ih => exact ih (m.removeTx y false)

variable {txs left : List Bytes}

/-- `removeTxs` keeps what is not committed, and asks about what of that is no `configtx`. -/
lemma removeTxs_elems {env : Env} {m m' : Mempool}
    (h : removeTxs env m txs = some (m', left)) :
    ∃ own, ownTxs env txs = some own ∧
      m'.txs.elems = m.txs.elems.filter (fun x => x.tx ∉ own.map (committedForm env)) ∧
      left = (m'.txs.elems.filter fun x =>
        !((newTX x.tx).any fun t => t.txtype == lit "configtx")).map MempoolTx.tx := by
  obtain ⟨own, hown, hm⟩ := map_eq_some_iff.mp h
  cases hm
  have helems : (((m.txs.elems.filter fun x => x.tx ∈ own.map (committedForm env)).foldl
      (fun m x => m.removeTx x false) m).txs.elems) =
        m.txs.elems.filter fun x => x.tx ∉ own.map (committedForm env) := by
    rw [foldl_removeTx_elems]
    refine filter_congr fun x hx => ?_
    rw [decide_eq_decide, not_iff_not]
    constructor
    · intro hmem
      obtain ⟨y, hy, he⟩ := mem_map.mp hmem
      obtain ⟨hy, hcommitted⟩ := mem_filter.mp hy
      rw [← inj_on_of_nodup_map m.txs.nodup hy hx he]
      exact of_decide_eq_true hcommitted
    · intro hcommitted
      exact mem_map_of_mem (mem_filter.mpr ⟨hx, decide_eq_true hcommitted⟩)
  refine ⟨own, hown, helems, ?_⟩
  rw [helems]
  simp only [decide_not]

lemma removeTxs_frame {env : Env} {m m' : Mempool}
    (h : removeTxs env m txs = some (m', left)) : ∃ txs txsMap txsBytes,
      m' = { m with txs := txs, txsMap := txsMap, txsBytes := txsBytes } := by
  obtain ⟨own, -, he⟩ := map_eq_some_iff.mp h
  cases he
  exact foldl_removeTx_frame _ m

lemma mem_removeTxs {env : Env} {m m' : Mempool}
    (h : removeTxs env m txs = some (m', left)) (x : MempoolTx) :
    x ∈ m'.txs.elems ↔ x ∈ m.txs.elems ∧
      ∃ own, ownTxs env txs = some own ∧ x.tx ∉ own.map (committedForm env) := by
  obtain ⟨own, hown, helems, -⟩ := removeTxs_elems h
  rw [helems, mem_filter, hown]
  simp

/-- `Update` is `RemoveCm` followed by `removeTxs`, on the list and rows of before. -/
lemma update_cases {env : Env} {m m' : Mempool} {db db' : DB} {height : Int64}
    {pre post : Option Int64}
    (h : update env (m, db) height txs pre post = some ((m', db'), left)) :
    ∃ m0 m1, m0.txs = m.txs ∧ m0.rlDB = m.rlDB ∧ m0.cmDB = m.cmDB ∧
      removeCm (m0, db) height = some (m1, db') ∧ removeTxs env m1 txs = some (m', left) := by
  simp only [update, bind_eq_bind, bind_eq_some_iff] at h
  obtain ⟨own, -, ⟨m1, db1⟩, hcm, ⟨m2, left'⟩, htx, he⟩ := h
  simp only [some.injEq, Prod.mk.injEq] at he
  obtain ⟨⟨rfl, rfl⟩, rfl⟩ := he
  refine ⟨_, m1, ?_, ?_, ?_, hcm, htx⟩ <;> rfl

lemma update_cmDB {env : Env} {m m' : Mempool} {db db' : DB} {height : Int64}
    {pre post : Option Int64}
    (h : update env (m, db) height txs pre post = some ((m', db'), left)) : m'.cmDB = m.cmDB := by
  obtain ⟨m0, m1, -, -, hm0, hcm, hrm⟩ := update_cases h
  obtain ⟨_, _, _, hm'⟩ := removeTxs_frame hrm
  obtain ⟨_, _, _, _, hm1⟩ := removeCm_frame hcm
  rw [hm', ← hm0]
  exact (congrArg Mempool.cmDB hm1 :)

end ShardingBC
