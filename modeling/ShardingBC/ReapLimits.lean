import ShardingBC.CommittedTxs
import ShardingBC.MempoolPanics
import ShardingBC.SortedBlocks

/-!
# The limits of a reap

`ReapMaxBytesMaxGas` charges an element with its stored size and its gas, in 64-bit
arithmetic, and returns the transactions that the element carries. The totals here are
exact.
-/
namespace ShardingBC

open List Option

/-- Length and amino overhead of a transaction in a block. -/
def txSize (tx : Bytes) : ℕ := tx.length + (uvarintSize (1 * 8 + 2) + uvarintSize tx.length)

def txsSize (txs : List Bytes) : ℕ := (txs.map txSize).sum

/-- What a reap charges for the elements. -/
def storedSize (p : List MempoolTx) : ℕ := txsSize (p.map MempoolTx.tx)

def gasTotal (p : List MempoolTx) : ℤ := (p.map fun x => x.gasWanted.toInt).sum

@[simp] lemma storedSize_nil : storedSize [] = 0 := rfl

@[simp] lemma storedSize_cons (x : MempoolTx) (p : List MempoolTx) :
    storedSize (x :: p) = txSize x.tx + storedSize p := by
  simp [storedSize, txsSize]

@[simp] lemma gasTotal_nil : gasTotal [] = 0 := rfl

@[simp] lemma gasTotal_cons (x : MempoolTx) (p : List MempoolTx) :
    gasTotal (x :: p) = x.gasWanted.toInt + gasTotal p := by
  simp [gasTotal]

@[simp] lemma storedSize_append (p q : List MempoolTx) :
    storedSize (p ++ q) = storedSize p + storedSize q := by
  simp [storedSize, txsSize]

/-- The message of the element can be unpacked, if it is one. -/
def opens (env : Env) (x : MempoolTx) : Bool :=
  !(parseData x.tx).join.any fun cm => (cm.transactions env.gzip).isNone

/-- Both budgets admit the elements one after the other, in the arithmetic of the reap. -/
def Admitted (maxBytes maxGas : Int64) (bytes : ℕ) (gas : ℤ) (p : List MempoolTx) : Prop :=
  ∀ q, q <+: p → q ≠ [] → Int64.ofNat (bytes + storedSize q) ≤ maxBytes - 1500000 ∧
    Int64.ofInt (gas + gasTotal q) ≤ maxGas

lemma admitted_nil (maxBytes maxGas : Int64) (bytes : ℕ) (gas : ℤ) :
    Admitted maxBytes maxGas bytes gas [] :=
  fun _ hq hne => absurd (prefix_nil.mp hq) hne

variable {maxBytes maxGas : Int64}

@[simp] lemma admitted_cons {bytes : ℕ} {gas : ℤ} {x : MempoolTx}
    {p : List MempoolTx} :
    Admitted maxBytes maxGas bytes gas (x :: p) ↔
      (Int64.ofNat (bytes + txSize x.tx) ≤ maxBytes - 1500000 ∧
        Int64.ofInt (gas + x.gasWanted.toInt) ≤ maxGas) ∧
      Admitted maxBytes maxGas (bytes + txSize x.tx) (gas + x.gasWanted.toInt) p := by
  constructor
  · intro h
    have hhead := h [x] ⟨p, rfl⟩ (by simp)
    refine ⟨by simpa using hhead, fun q hq _ => ?_⟩
    have hq' := h (x :: q) ((prefix_cons_inj x).mpr hq) (by simp)
    simpa [Nat.add_assoc, Int.add_assoc] using hq'
  · rintro ⟨hhead, hrest⟩ q hq hne
    obtain ⟨y, q, rfl⟩ := exists_cons_of_ne_nil hne
    obtain ⟨rfl, hq'⟩ := cons_prefix_cons.mp hq
    by_cases hq0 : q = []
    · subst hq0
      simpa using hhead
    · simpa [Nat.add_assoc, Int.add_assoc] using hrest q hq' hq0

lemma overBytes_eq_false_iff {maxBytes : Int64} (h : 0 ≤ maxBytes) (bytes : ℕ) (tx : Bytes) :
    overBytes maxBytes (Int64.ofNat bytes) tx = false ↔
      Int64.ofNat (bytes + txSize tx) ≤ maxBytes - 1500000 := by
  have hlimit : -1 < maxBytes := Int64.lt_of_lt_of_le (by decide) h
  simp only [overBytes, hlimit, decide_true, Bool.true_and, decide_eq_false_iff_not,
    Int64.not_lt, computeAminoOverhead, txSize, Int64.ofNat_add, Int64.add_assoc]

lemma overGas_eq_false_iff {maxGas : Int64} (h : 0 ≤ maxGas) (gas : ℤ) (wanted : Int64) :
    overGas maxGas (Int64.ofInt gas + wanted) = false ↔
      Int64.ofInt (gas + wanted.toInt) ≤ maxGas := by
  have hlimit : -1 < maxGas := Int64.lt_of_lt_of_le (by decide) h
  simp only [overGas, hlimit, decide_true, Bool.true_and, decide_eq_false_iff_not,
    Int64.not_lt, Int64.ofInt_add, Int64.ofInt_toInt]

lemma reapedElems_cons {env : Env} (hbytes : 0 ≤ maxBytes)
    (hgas : 0 ≤ maxGas) (bytes : ℕ) (gas : ℤ) (x : MempoolTx) (elems : List MempoolTx) :
    reapedElems env maxBytes maxGas (Int64.ofNat bytes) (Int64.ofInt gas) (x :: elems) =
      if opens env x then
        if Int64.ofNat (bytes + txSize x.tx) ≤ maxBytes - 1500000 ∧
            Int64.ofInt (gas + x.gasWanted.toInt) ≤ maxGas then
          x :: reapedElems env maxBytes maxGas (Int64.ofNat (bytes + txSize x.tx))
            (Int64.ofInt (gas + x.gasWanted.toInt)) elems
        else []
      else reapedElems env maxBytes maxGas (Int64.ofNat bytes) (Int64.ofInt gas) elems := by
  have hb := overBytes_eq_false_iff hbytes bytes x.tx
  have hg := overGas_eq_false_iff hgas gas x.gasWanted
  have hsize : Int64.ofNat bytes + (Int64.ofNat x.tx.length + computeAminoOverhead x.tx) =
      Int64.ofNat (bytes + txSize x.tx) := by
    simp only [computeAminoOverhead, txSize, Int64.ofNat_add]
  have htotal : Int64.ofInt gas + x.gasWanted = Int64.ofInt (gas + x.gasWanted.toInt) := by
    rw [Int64.ofInt_add, Int64.ofInt_toInt]
  simp only [reapedElems, hsize]
  by_cases hopen : opens env x = true
  · rw [if_pos hopen, if_neg (by simpa [opens] using hopen)]
    by_cases hover : overBytes maxBytes (Int64.ofNat bytes) x.tx = true
    · rw [if_pos hover, if_neg fun h => by simp [hb.mpr h.1] at hover]
    · rw [if_neg hover]
      rw [Bool.not_eq_true] at hover
      by_cases hover' : overGas maxGas (Int64.ofInt gas + x.gasWanted) = true
      · rw [if_pos hover', if_neg fun h => by simp [hg.mpr h.2] at hover']
      · rw [if_neg hover', if_pos ⟨hb.mp hover, hg.mp (by simpa using hover')⟩, htotal]
  · rw [if_neg hopen, if_pos (by simpa [opens] using hopen)]

/-- The longest run that both budgets admit; a message that cannot be unpacked is passed over. -/
structure LongestAdmitted (env : Env) (maxBytes maxGas : Int64) (bytes : ℕ) (gas : ℤ)
    (elems p : List MempoolTx) : Prop where
  initial : p <+: elems.filter (opens env)
  admitted : Admitted maxBytes maxGas bytes gas p
  longest : ∀ q, q <+: elems.filter (opens env) → Admitted maxBytes maxGas bytes gas q → q <+: p

/-- A reap takes the longest admitted run. -/
lemma longestAdmitted_reapedElems {env : Env} (hbytes : 0 ≤ maxBytes)
    (hgas : 0 ≤ maxGas) (bytes : ℕ) (gas : ℤ) (elems : List MempoolTx) :
    LongestAdmitted env maxBytes maxGas bytes gas elems
      (reapedElems env maxBytes maxGas (Int64.ofNat bytes) (Int64.ofInt gas) elems) := by
  induction elems generalizing bytes gas with
  | nil => exact ⟨prefix_rfl, admitted_nil _ _ _ _, fun q hq _ => hq⟩
  | cons x elems ih =>
    rw [reapedElems_cons hbytes hgas]
    by_cases hopen : opens env x = true
    · rw [if_pos hopen]
      by_cases hhead : Int64.ofNat (bytes + txSize x.tx) ≤ maxBytes - 1500000 ∧
          Int64.ofInt (gas + x.gasWanted.toInt) ≤ maxGas
      · obtain ⟨hinitial, hadm, hlongest⟩ :=
          ih (bytes + txSize x.tx) (gas + x.gasWanted.toInt)
        rw [if_pos hhead]
        constructor
        · rw [filter_cons_of_pos hopen]
          exact (prefix_cons_inj x).mpr hinitial
        · exact admitted_cons.mpr ⟨hhead, hadm⟩
        · intro q hq hqadm
          rw [filter_cons_of_pos hopen] at hq
          cases q with
          | nil => exact nil_prefix
          | cons y q =>
            obtain ⟨rfl, hq'⟩ := cons_prefix_cons.mp hq
            exact (prefix_cons_inj y).mpr (hlongest q hq' (admitted_cons.mp hqadm).2)
      · rw [if_neg hhead]
        refine ⟨ nil_prefix, admitted_nil _ _ _ _, fun q hq hqadm => ?_⟩
        rw [filter_cons_of_pos hopen] at hq
        cases q with
        | nil => exact nil_prefix
        | cons y q =>
          obtain ⟨rfl, -⟩ := cons_prefix_cons.mp hq
          exact absurd (admitted_cons.mp hqadm).1 hhead
    · obtain ⟨hinitial, hadm, hlongest⟩ := ih bytes gas
      rw [if_neg hopen]
      have hfilter : (x :: elems).filter (opens env) = elems.filter (opens env) :=
        filter_cons_of_neg hopen
      exact ⟨hfilter ▸ hinitial, hadm, fun q hq => hlongest q (hfilter ▸ hq)⟩

lemma exists_longestAdmitted (env : Env) (hbytes : 0 ≤ maxBytes)
    (hgas : 0 ≤ maxGas) (elems : List MempoolTx) :
    ∃ p, LongestAdmitted env maxBytes maxGas 0 0 elems p :=
  ⟨_, longestAdmitted_reapedElems hbytes hgas 0 0 elems⟩

/-- By how much the transactions of the elements exceed the elements. -/
def growth (env : Env) (p : List MempoolTx) : ℤ :=
  txsSize (p.flatMap (blockTxs env)) - storedSize p

/-- The same for the transactions as the block carries them. -/
def blockGrowth (env : Env) (p : List MempoolTx) : ℤ :=
  txsSize (carriedTxs env.shard (p.flatMap (blockTxs env))) - storedSize p

/-- The returned transactions, the gas of their elements and the block built from them respect the
limits. -/
structure WithinLimits (env : Env) (m : Mempool) (maxBytes maxGas : Int64) (txs : List Bytes) :
    Prop where
  bytes : (txsSize txs : ℤ) ≤ maxBytes.toInt
  gas : gasTotal (reapedElems env maxBytes maxGas 0 0 m.txs.elems) ≤ maxGas.toInt
  block : (txsSize (handleSortTx env.shard txs) : ℤ) ≤ maxBytes.toInt

section Limits
variable {env : Env} {m m' : Mempool} {maxBytes maxGas height : Int64} {txs : List Bytes}

lemma toInt_nonneg {n : Int64} (h : 0 ≤ n) : 0 ≤ n.toInt := by
  simpa using Int64.le_iff_toInt_le.mp h

lemma ofNat_le_sub_iff (hbytes : 0 ≤ maxBytes) {n : ℕ} (hn : n < 2 ^ 63) :
    Int64.ofNat n ≤ maxBytes - 1500000 ↔ (n : ℤ) + 1500000 ≤ maxBytes.toInt := by
  have h0 := toInt_nonneg hbytes
  have hlt := maxBytes.toInt_lt
  have hsub : (maxBytes - 1500000).toInt = maxBytes.toInt - 1500000 := by
    rw [Int64.toInt_sub]
    exact Int.bmod_eq_of_le (by simp; omega) (by simp; omega)
  rw [Int64.le_iff_toInt_le, Int64.toInt_ofNat_of_lt hn]
  omega

/-- The gas total stays below the limit unless it leaves the 64-bit range. -/
lemma gasTotal_le_iff (hgas : 0 ≤ maxGas) {p : List MempoolTx}
    (hp : Admitted maxBytes maxGas 0 0 p) : gasTotal p ≤ maxGas.toInt ↔ gasTotal p < 2 ^ 63 := by
  have h0 := toInt_nonneg hgas
  have hlt := maxGas.toInt_lt
  constructor
  · omega
  · intro hrange
    by_cases hlow : gasTotal p < 0
    · omega
    cases p with
    | nil => simpa using h0
    | cons x p =>
      have hadm := (hp _ prefix_rfl (by simp)).2
      rw [Int.zero_add, Int64.le_iff_toInt_le, Int64.toInt_ofInt_of_le (by omega) hrange] at hadm
      exact hadm

lemma withinLimits_iff (hbytes : 0 ≤ maxBytes) (hgas : 0 ≤ maxGas)
    (h : m.reapMaxBytesMaxGas env maxBytes maxGas height = some (txs, m')) {p : List MempoolTx}
    (hp : LongestAdmitted env maxBytes maxGas 0 0 m.txs.elems p) :
    WithinLimits env m maxBytes maxGas txs ↔
      growth env p ≤ maxBytes.toInt - storedSize p ∧
        blockGrowth env p ≤ maxBytes.toInt - storedSize p ∧ gasTotal p < 2 ^ 63 := by
  have htaken : reapedElems env maxBytes maxGas 0 0 m.txs.elems = p := by
    have hr : LongestAdmitted env maxBytes maxGas 0 0 m.txs.elems _ :=
      longestAdmitted_reapedElems hbytes hgas 0 0 m.txs.elems
    exact (hp.longest _ hr.initial hr.admitted).eq_of_length_le
      (hr.longest p hp.initial hp.admitted).length_le
  have htxs : txs = p.flatMap (blockTxs env) := by
    obtain ⟨r, hr, he⟩ := map_eq_some_iff.mp h
    rw [← htaken, ← (reapLoop_spec hr).1]
    exact (congrArg Prod.fst he).symm
  have hblock : txsSize (handleSortTx env.shard txs) =
      txsSize (carriedTxs env.shard (p.flatMap (blockTxs env))) :=
    htxs ▸ ((perm_handleSortTx env.shard txs).map txSize).sum_nat
  rw [← gasTotal_le_iff hgas hp.admitted, growth, blockGrowth, ← htxs]
  constructor
  · rintro ⟨hb, hg, hk⟩
    rw [htaken] at hg
    rw [hblock, ← htxs] at hk
    exact ⟨by omega, by omega, hg⟩
  · rintro ⟨hb, hk, hg⟩
    refine ⟨by omega, htaken ▸ hg, ?_⟩
    rw [hblock, ← htxs]
    omega

lemma storedSize_mono {p q : List MempoolTx} (h : p <+: q) :
    storedSize p ≤ storedSize q := by
  obtain ⟨r, rfl⟩ := h
  rw [storedSize_append]
  omega

lemma storedSize_filter_le (f : MempoolTx → Bool) (p : List MempoolTx) :
    storedSize (p.filter f) ≤ storedSize p := by
  induction p with
  | nil => rfl
  | cons x p ih =>
    rw [filter_cons]
    split_ifs
    · simpa using ih
    · rw [storedSize_cons]
      omega

lemma storedSize_le_of_initial {elems p : List MempoolTx} (h : p <+: elems.filter (opens env)) :
    storedSize p ≤ storedSize elems :=
  (storedSize_mono h).trans (storedSize_filter_le _ _)

lemma txSize_pos (tx : Bytes) : 0 < txSize tx := by
  unfold txSize uvarintSize
  omega

lemma toInt_leastLimit {elems p : List MempoolTx} (hsize : storedSize elems + 1500000 < 2 ^ 63)
    (hp : p <+: elems.filter (opens env)) :
    (Int64.ofNat (storedSize p + 1500000)).toInt = storedSize p + 1500000 ∧
      0 ≤ Int64.ofNat (storedSize p + 1500000) := by
  have hple := storedSize_le_of_initial hp
  have hlimit : (Int64.ofNat (storedSize p + 1500000)).toInt = storedSize p + 1500000 := by
    rw [Int64.toInt_ofNat_of_lt (by omega)]
    rfl
  rw [Int64.le_iff_toInt_le, Int64.toInt_zero]
  omega

lemma longestAdmitted_leastLimit {elems p : List MempoolTx}
    (hsize : storedSize elems + 1500000 < 2 ^ 63) (hp : p <+: elems.filter (opens env)) :
    LongestAdmitted env (Int64.ofNat (storedSize p + 1500000)) Int64.maxValue 0 0 elems p := by
  obtain ⟨hlimit, hpos⟩ := toInt_leastLimit hsize hp
  have hfits : ∀ q, q <+: elems.filter (opens env) →
      (Int64.ofNat (0 + storedSize q) ≤ Int64.ofNat (storedSize p + 1500000) - 1500000 ↔
        storedSize q ≤ storedSize p) := by
    intro q hq
    have hqle := storedSize_le_of_initial hq
    rw [ofNat_le_sub_iff hpos (by omega)]
    omega
  refine ⟨hp, fun q hq _ => ?_, fun q hq hadm => ?_⟩
  · exact ⟨(hfits q (hq.trans hp)).mpr (storedSize_mono hq), Int64.le_maxValue _⟩
  · rcases prefix_or_prefix_of_prefix hq hp with hqp | ⟨r, rfl⟩
    · exact hqp
    · cases r with
      | nil => simp
      | cons x r =>
        have hle := (hfits _ hq).mp (hadm _ prefix_rfl (by simp)).1
        have hx := txSize_pos x.tx
        rw [storedSize_append, storedSize_cons] at hle
        omega

end Limits

/-- What a reap returns respects both limits, as a list and in the block, just when the
run of elements that the budgets admit grows by no more than the byte limit leaves and
its gas does not leave the 64-bit range. A pool respects all limits just when no run of
its elements grows by more than the reserve of 1500000 bytes or leaves that range. -/
theorem reap_within_limits_iff (env : Env) (m : Mempool) (height : Int64)
    (hpool : ∀ x ∈ m.txs.elems, Reapable env x) :
    (∀ maxBytes maxGas : Int64, 0 ≤ maxBytes → 0 ≤ maxGas →
      ∃ txs m', m.reapMaxBytesMaxGas env maxBytes maxGas height = some (txs, m') ∧
        (WithinLimits env m maxBytes maxGas txs ↔
          ∀ p, LongestAdmitted env maxBytes maxGas 0 0 m.txs.elems p →
            growth env p ≤ maxBytes.toInt - storedSize p ∧
              blockGrowth env p ≤ maxBytes.toInt - storedSize p ∧ gasTotal p < 2 ^ 63)) ∧
    (storedSize m.txs.elems + 1500000 < 2 ^ 63 →
      ((∀ maxBytes maxGas : Int64, 0 ≤ maxBytes → 0 ≤ maxGas → ∀ txs m',
          m.reapMaxBytesMaxGas env maxBytes maxGas height = some (txs, m') →
            WithinLimits env m maxBytes maxGas txs) ↔
        ∀ p, p <+: m.txs.elems.filter (opens env) →
          growth env p ≤ 1500000 ∧ blockGrowth env p ≤ 1500000 ∧ gasTotal p < 2 ^ 63)) := by
  have hreap : ∀ maxBytes maxGas : Int64,
      ∃ txs m', m.reapMaxBytesMaxGas env maxBytes maxGas height = some (txs, m') := by
    intro maxBytes maxGas
    obtain ⟨⟨txs, m'⟩, h⟩ := isSome_iff_exists.mp
      (reap_isSome_iff.mpr hpool maxBytes maxGas height)
    exact ⟨txs, m', h⟩
  constructor
  · intro maxBytes maxGas hbytes hgas
    obtain ⟨txs, m', h⟩ := hreap maxBytes maxGas
    refine ⟨txs, m', h, fun hwithin p hp => (withinLimits_iff hbytes hgas h hp).mp hwithin, ?_⟩
    intro hroom
    obtain ⟨p, hp⟩ := exists_longestAdmitted env hbytes hgas m.txs.elems
    exact (withinLimits_iff hbytes hgas h hp).mpr (hroom p hp)
  · intro hsize
    constructor
    · intro hwithin p hp
      obtain ⟨hlimit, hpos⟩ := toInt_leastLimit hsize hp
      obtain ⟨txs, m', h⟩ := hreap (Int64.ofNat (storedSize p + 1500000)) Int64.maxValue
      have hlongest := longestAdmitted_leastLimit hsize hp
      have hroom := (withinLimits_iff hpos (by decide) h hlongest).mp
        (hwithin _ _ hpos (by decide) txs m' h)
      exact ⟨by omega, by omega, hroom.2.2⟩
    · intro hroom maxBytes maxGas hbytes hgas txs m' h
      obtain ⟨p, hp⟩ := exists_longestAdmitted env hbytes hgas m.txs.elems
      rw [withinLimits_iff hbytes hgas h hp]
      obtain ⟨hgrowth, hblock, hrange⟩ := hroom p hp.initial
      by_cases hnil : p = []
      · subst hnil
        have h0 := toInt_nonneg hbytes
        exact ⟨by simpa [growth, txsSize] using h0,
          by simpa [blockGrowth, carriedTxs, updatedTxs, txsSize] using h0, hrange⟩
      · have hle := storedSize_le_of_initial hp.initial
        have hfits := (hp.admitted p prefix_rfl hnil).1
        rw [ofNat_le_sub_iff hbytes (by omega)] at hfits
        exact ⟨by omega, by omega, hrange⟩

lemma elems_poolWith (t : TX) : (poolWith t).txs.elems = [⟨0, 1, 1, t.data, [0]⟩] := rfl

/-- A pool with one relay respects all limits. -/
theorem one_relay_within_limits :
    ∃ txs m', (poolWith relayToB).reapMaxBytesMaxGas (plainEnv "A") 1600000 5 1 = some (txs, m') ∧
      txs = [relayToB.data] ∧ WithinLimits (plainEnv "A") (poolWith relayToB) 1600000 5 txs := by
  have hplain : parseData relayToB.data = some none := by decide +kernel
  have hpool : ∀ x ∈ (poolWith relayToB).txs.elems, Reapable (plainEnv "A") x := by
    intro x hx
    obtain rfl : x = ⟨0, 1, 1, relayToB.data, [0]⟩ := by simpa [elems_poolWith] using hx
    refine ⟨by simp [hplain], fun _ => by simp, fun cm hcm => ?_⟩
    simp [IsMessage, hplain] at hcm
  have hsizes : ∀ p ∈ ([[], (poolWith relayToB).txs.elems] : List (List MempoolTx)),
      growth (plainEnv "A") p ≤ 1500000 ∧ blockGrowth (plainEnv "A") p ≤ 1500000 ∧
        gasTotal p < 2 ^ 63 := by
    decide +kernel
  have hall := ((reap_within_limits_iff (plainEnv "A") (poolWith relayToB) 1 hpool).2
    (by decide +kernel)).mpr fun p hp => hsizes p (by
      have hopen : opens (plainEnv "A") ⟨0, 1, 1, relayToB.data, [0]⟩ = true := by
        simp [opens, hplain]
      rw [elems_poolWith, filter_cons_of_pos hopen, prefix_cons_iff] at hp
      simpa [elems_poolWith] using hp)
  have htxs : ((poolWith relayToB).reapMaxBytesMaxGas (plainEnv "A") 1600000 5 1).map Prod.fst =
      some [relayToB.data] := by
    decide +kernel
  obtain ⟨⟨txs, m'⟩, h, rfl⟩ := map_eq_some_iff.mp htxs
  exact ⟨_, m', h, rfl, hall 1600000 5 (by decide) (by decide) _ m' h⟩

def manyRelays (n : ℕ) : List Bytes := List.replicate n relayToB.data

def manyText (n : ℕ) : Bytes := Json.print (Json.encodeSlice encodeTx (some (manyRelays n)))

/-- The message that carries the relays, and its compressed form. -/
def manyMessage (n : ℕ) : CrossMessages :=
  { CrossMessages.zero with crossMerkleRoot := some [], txlist := some (manyRelays n) }

/-- As many bytes as `gzip` needs for 10000 relays. -/
def manyBytes : Bytes := 1 :: List.replicate 10499 0

def manyPacked : CrossMessages :=
  { CrossMessages.zero with
    crossMerkleRoot := some [], isCompressed := true, compressedData := some manyBytes }

def manyGzip (n : ℕ) : Gzip where
  compress bz := if bz = manyText n then manyBytes else 0 :: bz
  decompress bz :=
    if bz = manyBytes then some (manyText n)
    else if bz.head? = some 0 then some bz.tail
    else none
  decompress_compress bz := by
    by_cases h : bz = manyText n
    · rw [if_pos h, if_pos rfl, h]
    · have hother : 0 :: bz ≠ manyBytes := fun h => absurd (cons.inj h).1 (by decide)
      rw [if_neg h, if_neg hother, head?_cons, if_pos rfl, tail_cons]

def manyEnv (n : ℕ) : Env := { plainEnv "B" with gzip := manyGzip n }

lemma transactions_manyPacked (n : ℕ) :
    manyPacked.transactions (manyEnv n).gzip = some (manyRelays n) := by
  have hpack : (manyMessage n).compress (manyGzip n) = manyPacked := by
    simp only [CrossMessages.compress, manyMessage, manyGzip, manyText]
    rfl
  have hopen := CrossMessages.transactions_compress (manyGzip n) (manyMessage n) rfl
  rw [hpack] at hopen
  exact hopen

lemma relayTxs_manyRelays (n : ℕ) : relayTxs (manyRelays n) = some (manyRelays n) := by
  have hrelay : relayToB.repair.txtype = lit "relaytx" := by decide
  rw [manyRelays]
  induction n with
  | zero => rfl
  | succ n ih => simp [replicate_succ, relayTxs, ih, hrelay]

lemma txsSize_manyRelays (n : ℕ) : txsSize (manyRelays n) = n * txSize relayToB.data := by
  simp [txsSize, manyRelays]

/-- The pool of a shard that has received the message. -/
def manyPool : Mempool := plainMempool.addTx manyPacked.data 1 0

lemma length_manyPacked : manyPacked.data.length = 14291 := by
  decide +kernel

lemma elems_manyPool : manyPool.txs.elems = [⟨0, 1, 1, manyPacked.data, [0]⟩] := by
  unfold manyPool
  generalize manyPacked.data = tx
  rfl

lemma reapLoop_singleton {env : Env} {maxBytes maxGas height totalBytes totalGas : Int64}
    {x : MempoolTx} {cm : CrossMessages} {txlist relays : List Bytes} (hparse : IsMessage x cm)
    (htransactions : cm.transactions env.gzip = some txlist)
    (hrelays : relayTxs txlist = some relays) (hbytes : overBytes maxBytes totalBytes x.tx = false)
    (hgas : overGas maxGas (totalGas + x.gasWanted) = false) :
    reapLoop env maxBytes maxGas height totalBytes totalGas [x] =
      some (relays, [RelationTable.ofMessage cm height]) := by
  unfold IsMessage at hparse
  simp only [reapLoop, hparse, htransactions, hrelays, hbytes, hgas, Bool.false_eq_true, if_false,
    map_some, append_nil]

lemma reapLoop_manyPool (n : ℕ) :
    reapLoop (manyEnv n) 1600000 5 1 0 0 manyPool.txs.elems =
      some (manyRelays n, [RelationTable.ofMessage manyPacked 1]) := by
  have hbytes : overBytes 1600000 0 manyPacked.data = false := by
    rw [overBytes, computeAminoOverhead, length_manyPacked]
    decide +kernel
  rw [elems_manyPool]
  exact reapLoop_singleton (parseData_data manyPacked nofun) (transactions_manyPacked n)
    (relayTxs_manyRelays n) hbytes (by decide)

/-- Two relays that each want 2 ^ 62 gas. -/
def costlyPool : Mempool :=
  (plainMempool.addTx relayToB.data (2 ^ 62) 0).addTx relayToC.data (2 ^ 62) 0

/-- A message of less than 15000 bytes brings over 1800000 into a block of 1600000, and the gas
of two transactions passes the largest limit there is. -/
theorem reap_exceeds_limits :
    (∃ txs m', manyPool.reapMaxBytesMaxGas (manyEnv 10000) 1600000 5 1 = some (txs, m') ∧
        storedSize manyPool.txs.elems < 15000 ∧ 1800000 < txsSize txs ∧
        ¬WithinLimits (manyEnv 10000) manyPool 1600000 5 txs) ∧
      ∃ txs m', costlyPool.reapMaxBytesMaxGas (plainEnv "A") 1600000 Int64.maxValue 1 =
          some (txs, m') ∧
        gasTotal (reapedElems (plainEnv "A") 1600000 Int64.maxValue 0 0 costlyPool.txs.elems) =
          2 ^ 63 ∧
        ¬WithinLimits (plainEnv "A") costlyPool 1600000 Int64.maxValue txs := by
  constructor
  · have hsize := txsSize_manyRelays 10000
    have htx : 180 < txSize relayToB.data := by decide +kernel
    refine ⟨manyRelays 10000, _, congrArg (Option.map _) (reapLoop_manyPool 10000),
      by decide +kernel, by omega, fun h => ?_⟩
    have hle := h.bytes
    have hlimit : (1600000 : Int64).toInt = 1600000 := by decide
    omega
  · have hgas : gasTotal
        (reapedElems (plainEnv "A") 1600000 Int64.maxValue 0 0 costlyPool.txs.elems) = 2 ^ 63 := by
      decide +kernel
    have hsome :
        (costlyPool.reapMaxBytesMaxGas (plainEnv "A") 1600000 Int64.maxValue 1).isSome := by
      decide +kernel
    obtain ⟨⟨txs, m'⟩, h⟩ := isSome_iff_exists.mp hsome
    refine ⟨txs, m', h, hgas, fun hwithin => ?_⟩
    have hle := hwithin.gas
    rw [hgas] at hle
    exact absurd hle (by decide)

end ShardingBC
