import ShardingBC.Interpolation
import ShardingBC.Votes

/-!
# Threshold signatures

The polynomial behind the keys of a shard, the shares that its values sign, and
`SignatureRecovery`, which interpolates the signature of the group from shares.
-/
namespace ShardingBC.Bls

open List Option

open Consensus (PartSig)
open Interpolation

/-- There are more scalars than differences of identifiers. -/
def LargeOrder (F : Type) [Field F] : Prop := ∀ n : ℤ, n.natAbs ≤ 2 ^ 63 → (n : F) = 0 → n = 0

/-- The group of the signatures, written additively, over its scalars, a prime field. A point is
encoded in a fixed number of bytes. -/
structure Suite (F G : Type) [Field F] [AddCommGroup G] [Module F G] where
  hash : Bytes → G
  marshalBinary : G → Bytes
  unmarshalBinary : Bytes → Option G
  unmarshal_marshal : ∀ p, unmarshalBinary (marshalBinary p) = some p
  unmarshal_nil : unmarshalBinary [] = none
  order_large : LargeOrder F

section Scalars

variable (F : Type) [Field F]

def setInt64 (x : Int64) : F := (x.toInt : ℤ)

/-- A non-empty list of coefficients; the first is the key of the group. -/
structure Polynome where
  master : F
  others : List F

end Scalars

variable {F G : Type} [Field F] [AddCommGroup G] [Module F G]

namespace Polynome

/-- The loop of `GetValue`. -/
def getValueLoop (x : F) : F → F → List F → F
  | _, res, [] => res
  | base, res, c :: cs => getValueLoop x (base * x) (res + c * (base * x)) cs

def getValue (p : Polynome F) (idx : Int64) : F :=
  getValueLoop (setInt64 F idx) 1 p.master p.others

noncomputable def toPolynomial (p : Polynome F) : Polynomial F := ofCoeffs (p.master :: p.others)

lemma getValueLoop_eq (x base res : F) (cs : List F) :
    getValueLoop x base res cs = res + base * x * (ofCoeffs cs).eval x := by
  induction cs generalizing base res with
  | nil => simp [getValueLoop, ofCoeffs]
  | cons c cs ih =>
    rw [getValueLoop, ih, ofCoeffs]
    simp only [Polynomial.eval_add, Polynomial.eval_C, Polynomial.eval_mul, Polynomial.eval_X]
    ring

lemma getValue_eq_eval (p : Polynome F) (idx : Int64) :
    p.getValue idx = p.toPolynomial.eval (setInt64 F idx) := by
  rw [getValue, getValueLoop_eq, toPolynomial, ofCoeffs]
  simp

@[simp] lemma eval_zero (p : Polynome F) : p.toPolynomial.eval 0 = p.master := by
  simp [toPolynomial, ofCoeffs]

end Polynome

inductive RecoveryError where
  | lengthsDiffer
  | empty
  | tooFew (expected actual : ℕ)
  | badSignature (number : ℕ)
  | equalIds
deriving DecidableEq

variable (S : Suite F G)

/-- The share of a member on a message. -/
def share (p : Polynome F) (id : Int64) (msg : Bytes) : Bytes :=
  S.marshalBinary (p.getValue id • S.hash msg)

def groupSignature (p : Polynome F) (msg : Bytes) : Bytes :=
  S.marshalBinary (p.master • S.hash msg)

variable (F) in
/-- The inner loop of `recovery`: the factors of `b_i` from index `j` on. -/
def denominator (i : ℕ) (x : Int64) : ℕ → List Int64 → F → Except RecoveryError F
  | _, [], b => .ok b
  | j, x' :: xs, b =>
    if i = j then denominator i x (j + 1) xs b
    else if x' = x then .error .equalIds
    else denominator i x (j + 1) xs (b * setInt64 F (x' - x))

/-- The outer loop of `recovery`: the summands from index `i` on. -/
def recoveryLoop (xs : List Int64) (a : F) :
    ℕ → List (Int64 × Bytes) → G → Except RecoveryError G
  | _, [], res => .ok res
  | i, (x, y) :: rest, res =>
    match S.unmarshalBinary y with
    | none => .error (.badSignature (i + 1))
    | some point => do
        let b ← denominator F i x 0 xs (setInt64 F x)
        -- `Div` differs at zero, which only the identifier zero leads to; no vote set collects it
        recoveryLoop xs a (i + 1) rest (res + (a / b) • point)

def recovery (ys : List Bytes) (xs : List Int64) : Except RecoveryError Bytes := do
  let a := xs.foldl (fun a x => a * setInt64 F x) 1
  let res ← recoveryLoop S xs a 0 (xs.zip ys) 0
  .ok (S.marshalBinary res)

def signatureRecovery (threshold : ℕ) (sigs : List Bytes) (ids : List Int64) :
    Except RecoveryError Bytes :=
  if ids.length ≠ sigs.length then .error .lengthsDiffer
  else if ids.length = 0 ∨ sigs.length = 0 then .error .empty
  else if sigs.length ≤ threshold then .error (.tooFew threshold sigs.length)
  else
    match sigs with
    | [sig] => .ok sig
    | _ => recovery S sigs ids

variable (F) in
/-- The weight `a / b_i` of an identifier. -/
def weight (xs : List Int64) (x : Int64) : F :=
  (xs.map (setInt64 F)).prod /
    (setInt64 F x * ((xs.filter (· ≠ x)).map fun x' => setInt64 F (x' - x)).prod)

variable {S} {xs : List Int64}

/-- The inner loop returns unless another identifier is the same. -/
lemma denominator_eq_ok_iff {i j : ℕ} {x : Int64} {b b' : F}
    (hi : ∀ q ∈ xs.zipIdx j, q.2 = i → q.1 = x) :
    denominator F i x j xs b = .ok b' ↔ (∀ q ∈ xs.zipIdx j, q.1 = x → q.2 = i) ∧
      b' = b * ((xs.filter (· ≠ x)).map fun x' => setInt64 F (x' - x)).prod := by
  induction xs generalizing j b with
  | nil => simp [denominator, eq_comm]
  | cons x' xs ih =>
    rw [zipIdx_cons, forall_mem_cons] at hi
    rw [denominator]
    split_ifs with hij hx
    · have hx : x' = x := hi.1 hij.symm
      rw [ih hi.2]
      simp [hij.symm, hx]
    · simp [hx, Ne.symm hij]
    · rw [ih hi.2]
      simp [hx, mul_assoc]

/-- The weighted sum of points. -/
def combine (xs : List Int64) (points : List (Int64 × G)) : G :=
  (points.map fun z => weight F xs z.1 • z.2).sum

/-- The outer loop returns unless a share does not decode or an identifier occurs
twice. -/
lemma recoveryLoop_eq_ok_iff {i : ℕ} {zs : List (Int64 × Bytes)} {res r : G}
    (hz : ∀ z ∈ zs.zipIdx i, (z.1.1, z.2) ∈ xs.zipIdx) :
    recoveryLoop S xs (xs.map (setInt64 F)).prod i zs res = .ok r ↔
      (∀ z ∈ zs.zipIdx i, ∀ q ∈ xs.zipIdx, q.1 = z.1.1 → q.2 = z.2) ∧
        ∃ points, zs.mapM (fun z => (S.unmarshalBinary z.2).map (z.1, ·)) = some points ∧
          r = res + combine (F := F) xs points := by
  induction zs generalizing i res with
  | nil => simp [recoveryLoop, combine, eq_comm]
  | cons z zs ih =>
    obtain ⟨x, y⟩ := z
    rw [zipIdx_cons, forall_mem_cons] at hz
    rw [recoveryLoop, zipIdx_cons, forall_mem_cons, mapM_cons]
    cases hy : S.unmarshalBinary y with
    | none => simp
    | some point =>
      have hi : ∀ q ∈ xs.zipIdx, q.2 = i → q.1 = x := by
        intro q hq hqi
        have hx := mem_zipIdx_iff_getElem?.mp hz.1
        have hq := mem_zipIdx_iff_getElem?.mp hq
        rw [hqi, hx] at hq
        exact (some.inj hq).symm
      cases hden : denominator F i x 0 xs (setInt64 F x) with
      | error e =>
        refine iff_of_false nofun fun h => ?_
        cases hden.symm.trans ((denominator_eq_ok_iff hi).mpr ⟨h.1.1, rfl⟩)
      | ok b =>
        obtain ⟨hdistinct, rfl⟩ := (denominator_eq_ok_iff hi).mp hden
        show recoveryLoop S xs _ (i + 1) zs (res + weight F xs x • point) = .ok r ↔ _
        rw [ih hz.2]
        constructor
        · rintro ⟨hrest, points, hpoints, rfl⟩
          refine ⟨⟨hdistinct, hrest⟩, (x, point) :: points, by simp [hpoints], ?_⟩
          simp [combine, add_assoc]
        · rintro ⟨⟨-, hrest⟩, points, hpoints, rfl⟩
          obtain ⟨ps, hps, rfl⟩ : ∃ ps, zs.mapM (fun z =>
              (S.unmarshalBinary z.2).map (z.1, ·)) = some ps ∧ (x, point) :: ps = points := by
            simpa [bind_eq_some_iff] using hpoints
          exact ⟨hrest, ps, hps, by simp [combine, add_assoc]⟩

/-- The shares with their identifiers, decoded. -/
def decode (S : Suite F G) (shares : List PartSig) : Option (List (Int64 × G)) :=
  shares.mapM fun s => (S.unmarshalBinary s.peerCrossSig).map (s.id, ·)

/-- `SignatureRecovery` of collected shares. -/
def recover (S : Suite F G) (threshold : ℕ) (shares : List PartSig) : Except RecoveryError Bytes :=
  signatureRecovery S threshold (shares.map PartSig.peerCrossSig) (shares.map PartSig.id)

lemma nodup_iff_zipIdx :
    xs.Nodup ↔ ∀ p ∈ xs.zipIdx, ∀ q ∈ xs.zipIdx, q.1 = p.1 → q.2 = p.2 := by
  constructor
  · intro hnodup p hp q hq heq
    have hp := mem_zipIdx_iff_getElem?.mp hp
    have hq := mem_zipIdx_iff_getElem?.mp hq
    obtain ⟨hlt, -⟩ := List.getElem?_eq_some_iff.mp hq
    exact (getElem?_inj hlt hnodup).mp (by rw [hp, hq, heq])
  · intro h
    refine nodup_iff_getElem?_ne_getElem?.mpr fun i j hij hj heq => ?_
    have hx := getElem?_eq_getElem hj
    have hi : (xs[j], i) ∈ xs.zipIdx := mem_zipIdx_iff_getElem?.mpr (heq.trans hx)
    have hj : (xs[j], j) ∈ xs.zipIdx := mem_zipIdx_iff_getElem?.mpr hx
    exact hij.ne (h _ hj _ hi rfl)

variable {shares : List PartSig}

lemma recovery_eq_ok_iff {bz : Bytes} :
    recovery S (shares.map PartSig.peerCrossSig) (shares.map PartSig.id) = .ok bz ↔
      (shares.map PartSig.id).Nodup ∧ ∃ points, decode S shares = some points ∧
        bz = S.marshalBinary (combine (F := F) (shares.map PartSig.id) points) := by
  have hprod : (shares.map PartSig.id).foldl (fun a x => a * setInt64 F x) 1 =
      ((shares.map PartSig.id).map (setInt64 F)).prod := by
    rw [prod_eq_foldl, foldl_map (f := setInt64 F)]
  let pair := fun s : PartSig => (s.id, s.peerCrossSig)
  have hids : (shares.map PartSig.id).zipIdx =
      ((shares.map pair).zipIdx).map fun z => (z.1.1, z.2) := by
    simp [zipIdx_map, pair, Function.comp_def]
  have hloop : ∀ res, recoveryLoop S (shares.map PartSig.id)
      ((shares.map PartSig.id).map (setInt64 F)).prod 0 (shares.map pair) 0 = .ok res ↔ _ :=
    fun res => recoveryLoop_eq_ok_iff fun z hz => by
      rw [hids]
      exact mem_map_of_mem hz
  have hnodup : (shares.map PartSig.id).Nodup ↔ ∀ z ∈ (shares.map pair).zipIdx,
      ∀ q ∈ (shares.map PartSig.id).zipIdx, q.1 = z.1.1 → q.2 = z.2 := by
    rw [nodup_iff_zipIdx]
    nth_rewrite 1 [hids]
    rw [List.forall_mem_map]
  have hdecode : (shares.map pair).mapM (fun z => (S.unmarshalBinary z.2).map (z.1, ·)) =
      decode S shares := by
    rw [mapM_map]
    rfl
  have hrecovery : recovery S (shares.map PartSig.peerCrossSig) (shares.map PartSig.id) =
      (recoveryLoop S (shares.map PartSig.id) ((shares.map PartSig.id).map (setInt64 F)).prod 0
        (shares.map pair) 0 >>= fun res => .ok (S.marshalBinary res)) := by
    unfold recovery
    rw [hprod, zip_map']
  rw [hrecovery]
  constructor
  · intro h
    cases hres : recoveryLoop S (shares.map PartSig.id)
      ((shares.map PartSig.id).map (setInt64 F)).prod 0 (shares.map pair) 0 with
    | error e =>
      rw [hres] at h
      cases h
    | ok res =>
      obtain ⟨hdistinct, points, hpoints, rfl⟩ := (hloop res).mp hres
      rw [hres] at h
      rw [hdecode] at hpoints
      refine ⟨hnodup.mpr hdistinct, points, hpoints, ?_⟩
      cases h
      rw [zero_add]
  · rintro ⟨hdistinct, points, hpoints, rfl⟩
    rw [← hdecode] at hpoints
    rw [(hloop _).mpr ⟨hnodup.mp hdistinct, points, hpoints, rfl⟩, zero_add]
    rfl

lemma recover_eq_ok_iff {threshold : ℕ} {bz : Bytes} :
    recover S threshold shares = .ok bz ↔ threshold < shares.length ∧
      ((∃ id, shares = [⟨bz, id⟩]) ∨ 2 ≤ shares.length ∧ (shares.map PartSig.id).Nodup ∧
        ∃ points, decode S shares = some points ∧
          bz = S.marshalBinary (combine (F := F) (shares.map PartSig.id) points)) := by
  unfold recover signatureRecovery
  rw [if_neg (by simp)]
  cases shares with
  | nil => simp
  | cons s shares =>
    rw [if_neg (by simp)]
    cases shares with
    | nil =>
      obtain ⟨sig, id⟩ := s
      by_cases hle : 1 ≤ threshold
      · simp [hle]
        omega
      · have hlt : threshold < 1 := by omega
        simp [hle, hlt]
    | cons s' shares =>
      by_cases hle : (s :: s' :: shares).length ≤ threshold
      · rw [if_pos (by simpa using hle)]
        exact iff_of_false nofun fun h => absurd h.1 (not_lt.mpr hle)
      · rw [if_neg (by simpa using hle)]
        show recovery S ((s :: s' :: shares).map _) _ = _ ↔ _
        rw [recovery_eq_ok_iff]
        have hlen : 2 ≤ (s :: s' :: shares).length := by simp
        have hone : ¬ ∃ id, s :: s' :: shares = [⟨bz, id⟩] := by simp
        simp only [not_le.mp hle, hlen, hone, true_and, false_or]

/-- Decoding keeps the identifiers and needs every share. -/
lemma decode_eq_some {points : List (Int64 × G)}
    (h : decode S shares = some points) :
    points.map Prod.fst = shares.map PartSig.id ∧
      ∀ s ∈ shares, S.unmarshalBinary s.peerCrossSig ≠ none := by
  induction shares generalizing points with
  | nil =>
    cases h
    exact ⟨rfl, by simp⟩
  | cons s shares ih =>
    rw [decode, mapM_cons] at h
    obtain ⟨z, hz, h⟩ := bind_eq_some_iff.mp h
    obtain ⟨zs, hzs, h⟩ := bind_eq_some_iff.mp h
    obtain ⟨point, hpoint, rfl⟩ := map_eq_some_iff.mp hz
    obtain ⟨hids, hall⟩ := ih hzs
    cases h
    refine ⟨by rw [map_cons, map_cons, hids], ?_⟩
    rw [forall_mem_cons, hpoint]
    exact ⟨some_ne_none point, hall⟩

lemma not_recovered {threshold : ℕ} (htwo : 2 ≤ shares.length)
    (hbad : (∃ s ∈ shares, S.unmarshalBinary s.peerCrossSig = none) ∨
      ¬ (shares.map PartSig.id).Nodup) (bz : Bytes) : recover S threshold shares ≠ .ok bz := by
  intro h
  obtain ⟨-, ⟨id, rfl⟩ | ⟨-, hnodup, points, hpoints, -⟩⟩ := recover_eq_ok_iff.mp h
  · simp at htwo
  · rcases hbad with ⟨s, hs, hnone⟩ | hdup
    · exact (decode_eq_some hpoints).2 s hs hnone
    · exact hdup hnodup

lemma not_recovered_of_nil {threshold : ℕ} (htwo : 2 ≤ shares.length)
    (hnil : ∃ s ∈ shares, s.peerCrossSig = []) (bz : Bytes) :
    recover S threshold shares ≠ .ok bz := by
  obtain ⟨s, hs, hsig⟩ := hnil
  exact not_recovered htwo (.inl ⟨s, hs, hsig ▸ S.unmarshal_nil⟩) bz

section Deviation

variable (p : Polynome F)

/-- What the weights of the identifiers miss the key of the group by. -/
def missing (xs : List Int64) : F :=
  p.master - (xs.map fun x => weight F xs x * p.getValue x).sum

/-- The weighted sum of what the points miss the shares of a message by. -/
def deviation (S : Suite F G) (msg : Bytes) (xs : List Int64) (points : List (Int64 × G)) : G :=
  (points.map fun z => weight F xs z.1 • (z.2 - p.getValue z.1 • S.hash msg)).sum

lemma combine_eq_add (msg : Bytes) (xs : List Int64) (points : List (Int64 × G)) :
    combine (F := F) xs points = deviation p S msg xs points +
      ((points.map Prod.fst).map fun x => weight F xs x * p.getValue x).sum • S.hash msg := by
  unfold combine deviation
  induction points with
  | nil => simp
  | cons z points ih =>
    simp only [map_cons, sum_cons, ih, smul_sub, add_smul, mul_smul]
    abel

end Deviation

/-- Identifiers that interpolate: different from each other and from 0, and so close that no
difference overflows. -/
structure ProperIds (xs : List Int64) : Prop where
  nodup : xs.Nodup
  ne_zero : ∀ x ∈ xs, x ≠ 0
  near : ∀ x ∈ xs, ∀ x' ∈ xs, (x' - x).toInt = x'.toInt - x.toInt

namespace ProperIds

variable {xs : List Int64} {x x' : Int64}

lemma natAbs_toInt_le (x : Int64) : x.toInt.natAbs ≤ 2 ^ 63 := by
  have h1 := x.le_toInt
  have h2 := x.toInt_lt
  omega

variable (horder : LargeOrder F)

include horder in
lemma setInt64_ne_zero (h : ProperIds xs) (hx : x ∈ xs) : setInt64 F x ≠ 0 := by
  intro h0
  have hzero : x.toInt = 0 := horder _ (natAbs_toInt_le x) h0
  exact h.ne_zero x hx (Int64.toInt_inj.mp (hzero.trans rfl))

lemma setInt64_sub (h : ProperIds xs) (hx : x ∈ xs) (hx' : x' ∈ xs) :
    setInt64 F (x' - x) = setInt64 F x' - setInt64 F x := by
  rw [setInt64, h.near x hx x' hx', Int.cast_sub]
  rfl

include horder in
lemma setInt64_inj (h : ProperIds xs) (hx : x ∈ xs) (hx' : x' ∈ xs) :
    setInt64 F x' = setInt64 F x ↔ x' = x := by
  refine ⟨fun heq => ?_, congrArg _⟩
  have h0 : setInt64 F (x' - x) = 0 := by rw [h.setInt64_sub hx hx', heq, sub_self]
  have hzero : (x' - x).toInt = 0 := horder _ (natAbs_toInt_le _) h0
  rw [h.near x hx x' hx'] at hzero
  exact Int64.toInt_inj.mp (by omega)

include horder in
lemma nodup_map (h : ProperIds xs) : (xs.map (setInt64 F)).Nodup :=
  h.nodup.map_on fun _ hx' _ hx => (h.setInt64_inj horder hx hx').mp

include horder in
lemma map_ne_zero (h : ProperIds xs) : ∀ y ∈ xs.map (setInt64 F), y ≠ 0 := by
  intro y hy
  obtain ⟨x, hx, rfl⟩ := mem_map.mp hy
  exact h.setInt64_ne_zero horder hx

variable [DecidableEq F]

include horder in
lemma weight_eq (h : ProperIds xs) (hx : x ∈ xs) :
    weight F xs x = Interpolation.weight (xs.map (setInt64 F)) (setInt64 F x) := by
  rw [weight, Interpolation.weight, List.filter_map, List.map_map]
  have hfilter : xs.filter (fun x' => x' ≠ x) =
      xs.filter ((fun y => decide (y ≠ setInt64 F x)) ∘ setInt64 F) :=
    filter_congr fun x' hx' => by simp [h.setInt64_inj horder hx hx']
  rw [← hfilter]
  congr 3
  refine map_congr_left fun x' hx' => ?_
  exact h.setInt64_sub hx (mem_of_mem_filter hx')

include horder in
lemma weight_ne_zero (h : ProperIds xs) (hx : x ∈ xs) : weight F xs x ≠ 0 := by
  rw [h.weight_eq horder hx]
  exact Interpolation.weight_ne_zero (h.nodup_map horder) (mem_map_of_mem hx) (h.map_ne_zero horder)

include horder in
/-- More identifiers than the degree miss nothing. -/
lemma missing_eq_zero_of_degree (h : ProperIds xs) {p : Polynome F}
    (hdeg : p.toPolynomial.degree < xs.length) : missing p xs = 0 := by
  have hdeg : p.toPolynomial.degree < (xs.map (setInt64 F)).length := by rwa [length_map]
  have hsum := sum_weight_mul_eval (h.nodup_map horder) (h.map_ne_zero horder) hdeg
  rw [List.map_map, p.eval_zero] at hsum
  rw [missing, sub_eq_zero, ← hsum]
  refine congrArg sum (map_congr_left fun x hx => ?_)
  rw [Function.comp_apply, h.weight_eq horder hx, p.getValue_eq_eval]

include horder in
lemma missing_eq_zero (h : ProperIds xs) {p : Polynome F} (hlen : p.others.length < xs.length) :
    missing p xs = 0 := by
  refine h.missing_eq_zero_of_degree horder ((degree_ofCoeffs_lt _).trans_le ?_)
  exact Nat.cast_le.mpr hlen

end ProperIds

lemma properIds_of_pos (hnodup : xs.Nodup) (hpos : ∀ x ∈ xs, 0 < x) :
    ProperIds xs where
  nodup := hnodup
  ne_zero := by
    rintro x hx rfl
    exact absurd (hpos 0 hx) (by decide)
  near := by
    intro x hx x' hx'
    have h1 : 0 < x.toInt := Int64.lt_iff_toInt_lt.mp (hpos x hx)
    have h2 : 0 < x'.toInt := Int64.lt_iff_toInt_lt.mp (hpos x' hx')
    have h3 := x.toInt_lt
    have h4 := x'.toInt_lt
    rw [Int64.toInt_sub]
    exact Int.bmod_eq_of_le (by omega) (by omega)

/-- The points `p(id) • P` combine to `p(0) • P` if nothing is missing. -/
lemma combine_values (p : Polynome F) (point : G) (xs : List Int64) :
    combine (F := F) xs (xs.map fun x => (x, p.getValue x • point)) =
      (p.master - missing p xs) • point := by
  rw [missing, sub_sub_cancel, combine, List.map_map, sum_smul, List.map_map]
  refine congrArg sum (map_congr_left fun x _ => ?_)
  exact (mul_smul _ _ _).symm

section Recovered

variable (p : Polynome F) (S : Suite F G) (threshold : ℕ) (msg : Bytes)

/-- The shares decode, their identifiers differ, and what they miss the right shares by
makes up for what the weights miss. A single share is taken as it is. -/
def Fits (shares : List PartSig) : Prop :=
  threshold < shares.length ∧
    ((∃ id, shares = [⟨groupSignature S p msg, id⟩]) ∨
      2 ≤ shares.length ∧ (shares.map PartSig.id).Nodup ∧ ∃ points, decode S shares = some points ∧
        deviation p S msg (shares.map PartSig.id) points =
          missing p (shares.map PartSig.id) • S.hash msg)

/-- The share is the right one for its identifier. -/
def IsShare (s : PartSig) : Prop := s.peerCrossSig = share S p s.id msg

variable {p S threshold msg} {shares : List PartSig}

@[simp] lemma marshal_inj {x y : G} : S.marshalBinary x = S.marshalBinary y ↔ x = y := by
  refine ⟨fun h => ?_, congrArg _⟩
  have hdecoded := congrArg S.unmarshalBinary h
  rw [S.unmarshal_marshal, S.unmarshal_marshal] at hdecoded
  exact some.inj hdecoded

lemma recover_groupSignature_iff :
    recover S threshold shares = .ok (groupSignature S p msg) ↔ Fits p S threshold msg shares := by
  rw [recover_eq_ok_iff]
  refine and_congr_right fun _ => or_congr_right (and_congr_right fun _ => and_congr_right fun _ => ?_)
  refine exists_congr fun points => and_congr_right fun hpoints => ?_
  rw [groupSignature, marshal_inj, eq_comm, combine_eq_add p msg, (decode_eq_some hpoints).1,
    missing, sub_smul, eq_sub_iff_add_eq]

/-- The point of a right share. -/
def sharePoint (p : Polynome F) (S : Suite F G) (msg : Bytes) (s : PartSig) : Int64 × G :=
  (s.id, p.getValue s.id • S.hash msg)

lemma decode_of_isShare (h : ∀ s ∈ shares, IsShare p S msg s) :
    decode S shares = some (shares.map (sharePoint p S msg)) := by
  induction shares with
  | nil => rfl
  | cons s shares ih =>
    have hs : S.unmarshalBinary s.peerCrossSig = some (p.getValue s.id • S.hash msg) := by
      rw [h s (by simp), share, S.unmarshal_marshal]
    have hrest := ih fun s hs => h s (by simp [hs])
    rw [decode] at hrest ⊢
    rw [mapM_cons, hs, hrest]
    rfl

variable (p S msg) in
@[simp] lemma deviation_sharePoint (xs : List Int64) (shares : List PartSig) :
    deviation p S msg xs (shares.map (sharePoint p S msg)) = 0 := by
  rw [deviation, List.map_map]
  refine sum_eq_zero fun g hg => ?_
  obtain ⟨s, -, rfl⟩ := mem_map.mp hg
  simp [sharePoint]

section Proper

variable [DecidableEq F] (hids : ProperIds (shares.map PartSig.id))
  (hdegree : p.others.length ≤ threshold)

include hids hdegree

lemma recover_of_isShare (hcount : threshold < shares.length)
    (h : ∀ s ∈ shares, IsShare p S msg s) :
    recover S threshold shares = .ok (groupSignature S p msg) := by
  rw [recover_groupSignature_iff]
  refine ⟨hcount, ?_⟩
  by_cases htwo : 2 ≤ shares.length
  · refine .inr ⟨htwo, hids.nodup, _, decode_of_isShare h, ?_⟩
    rw [deviation_sharePoint, hids.missing_eq_zero S.order_large (by simp; omega), zero_smul]
  · -- A single share is that of a constant polynomial.
    obtain ⟨s, rfl⟩ := length_eq_one_iff.mp (show shares.length = 1 by omega)
    have hothers : p.others = [] := length_eq_zero_iff.mp (by omega)
    have hs := h s (by simp)
    refine .inl ⟨s.id, ?_⟩
    rw [IsShare, share, Polynome.getValue, hothers] at hs
    rw [groupSignature, ← show _ = S.marshalBinary (p.master • S.hash msg) from hs]

/-- One wrong share among right ones spoils the result. -/
lemma isShare_of_recover {before after : List PartSig} {s : PartSig}
    (hshares : shares = before ++ s :: after) (hrest : ∀ t ∈ before ++ after, IsShare p S msg t)
    (h : recover S threshold shares = .ok (groupSignature S p msg)) :
    S.unmarshalBinary s.peerCrossSig = some (p.getValue s.id • S.hash msg) := by
  obtain ⟨hcount, hsingle | ⟨htwo, -, points, hpoints, hdev⟩⟩ := recover_groupSignature_iff.mp h
  · -- With one share the threshold is 0 and the polynomial constant.
    obtain ⟨id, hid⟩ := hsingle
    rw [hshares] at hid hcount
    obtain ⟨rfl, rfl, rfl⟩ : before = [] ∧ s = ⟨groupSignature S p msg, id⟩ ∧ after = [] := by
      cases before <;> simp_all
    have hothers : p.others = [] := length_eq_zero_iff.mp (by simp at hcount; omega)
    rw [Polynome.getValue, hothers]
    exact S.unmarshal_marshal _
  · rw [hids.missing_eq_zero S.order_large (by simp; omega), zero_smul] at hdev
    have hb := decode_of_isShare fun t ht => hrest t (mem_append_left _ ht)
    have ha := decode_of_isShare fun t ht => hrest t (mem_append_right _ ht)
    have hweight : weight F (shares.map PartSig.id) s.id ≠ 0 :=
      hids.weight_ne_zero S.order_large (by simp [hshares])
    rw [hshares, decode, mapM_append, mapM_cons] at hpoints
    rw [decode] at hb ha
    simp only [hb, ha, bind_eq_bind, bind_some,
      bind_eq_some_iff, map_eq_some_iff] at hpoints
    obtain ⟨_, ⟨_, ⟨point, hpoint, rfl⟩, hcons⟩, happend⟩ := hpoints
    cases hcons
    cases happend
    have hbefore := deviation_sharePoint p S msg (shares.map PartSig.id) before
    have hafter := deviation_sharePoint p S msg (shares.map PartSig.id) after
    -- Only the weighted error of this share is left of the deviation.
    rw [deviation] at hbefore hafter hdev
    rw [map_append, map_cons, sum_append, sum_cons, hbefore, hafter, zero_add,
      add_zero, smul_eq_zero] at hdev
    exact hpoint.trans (congrArg some (sub_eq_zero.mp (hdev.resolve_left hweight)))

end Proper

end Recovered

end ShardingBC.Bls
