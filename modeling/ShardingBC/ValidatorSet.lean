import ShardingBC.GoBytes

/-!
# Validator sets with proposer priorities

`IncrementProposerPriority` and `UpdateWithChangeSet` on values: the list of validators in the order
of their addresses, and the proposer as it was chosen. An `int64` is an integer; a sum that the
source does not clip is wrapped. `none` is a panic.
-/
namespace ShardingBC.Rotation

def maxInt64 : ℤ := 2 ^ 63 - 1
def minInt64 : ℤ := -2 ^ 63

/-- An `int64` that may have overflowed. -/
def wrap (x : ℤ) : ℤ := x.bmod (2 ^ 64)

def safeAddClip (a b : ℤ) : ℤ :=
  if 0 < b ∧ maxInt64 - b < a then maxInt64
  else if b < 0 ∧ a < minInt64 - b then minInt64
  else a + b

def safeSubClip (a b : ℤ) : ℤ :=
  if 0 < b ∧ a < minInt64 + b then minInt64
  else if b < 0 ∧ maxInt64 + b < a then maxInt64
  else a - b

def maxTotalVotingPower : ℤ := 2 ^ 60 - 1

def IsInt64 (x : ℤ) : Prop := minInt64 ≤ x ∧ x ≤ maxInt64

lemma isInt64_of_abs {x : ℤ} (h : |x| ≤ 8 * maxTotalVotingPower) : IsInt64 x := by
  unfold IsInt64 minInt64 maxInt64
  unfold maxTotalVotingPower at h
  have := abs_le.mp h
  omega

lemma wrap_eq {x : ℤ} (h : IsInt64 x) : wrap x = x := by
  unfold IsInt64 minInt64 maxInt64 at h
  exact Int.bmod_eq_of_le (by omega) (by omega)

lemma safeAddClip_eq {a b : ℤ} (h : IsInt64 (a + b)) : safeAddClip a b = a + b := by
  unfold IsInt64 at h
  rw [safeAddClip, if_neg (by omega), if_neg (by omega)]

lemma safeSubClip_eq {a b : ℤ} (h : IsInt64 (a - b)) : safeSubClip a b = a - b := by
  unfold IsInt64 at h
  rw [safeSubClip, if_neg (by omega), if_neg (by omega)]

def priorityWindowSizeFactor : ℤ := 2

structure Validator where
  address : Bytes
  pubKey : Bytes
  votingPower : ℤ
  proposerPriority : ℤ
deriving DecidableEq

namespace Validator

def withPriority (v : Validator) (p : ℤ) : Validator := { v with proposerPriority := p }

@[simp] lemma withPriority_proposerPriority (v : Validator) (p : ℤ) :
    (v.withPriority p).proposerPriority = p := rfl

@[simp] lemma withPriority_votingPower (v : Validator) (p : ℤ) :
    (v.withPriority p).votingPower = v.votingPower := rfl

@[simp] lemma withPriority_address (v : Validator) (p : ℤ) :
    (v.withPriority p).address = v.address := rfl

/-- `CompareProposerPriority`: whether the result is the validator itself. -/
def compareProposerPriority (v other : Validator) : Option Bool :=
  if other.proposerPriority < v.proposerPriority then some true
  else if v.proposerPriority < other.proposerPriority then some false
  else if v.address < other.address then some true
  else if other.address < v.address then some false
  else none

end Validator

/-- The loop of `getValWithMostPriority`, with the best one so far. -/
def mostPriority (best : ℕ) (b : Validator) (i : ℕ) : List Validator → Option ℕ
  | [] => some best
  | v :: vs =>
    (b.compareProposerPriority v).bind fun keep =>
      if keep then mostPriority best b (i + 1) vs else mostPriority i v (i + 1) vs

/-- `getValWithMostPriority` returns the validator at this place. -/
def getValWithMostPriority : List Validator → Option ℕ
  | [] => none
  | v :: vs => mostPriority 0 v 1 vs

/-- `updateTotalVotingPower`. The sum is computed anew when the set has changed or was decoded. -/
def totalVotingPower (vals : List Validator) : Option ℤ :=
  vals.foldlM (fun sum v =>
    if maxTotalVotingPower < safeAddClip sum v.votingPower then none
    else some (safeAddClip sum v.votingPower)) 0

def maxPriority (vals : List Validator) : ℤ :=
  (vals.map Validator.proposerPriority).foldl max minInt64

def minPriority (vals : List Validator) : ℤ :=
  (vals.map Validator.proposerPriority).foldl min maxInt64

def computeMaxMinPriorityDiff (vals : List Validator) : ℤ :=
  if wrap (maxPriority vals - minPriority vals) < 0 then
    wrap (-wrap (maxPriority vals - minPriority vals))
  else wrap (maxPriority vals - minPriority vals)

/-- What the priorities are divided by if they are too far apart. -/
def rescaleRatio (diffMax : ℤ) (vals : List Validator) : ℤ :=
  (wrap (computeMaxMinPriorityDiff vals + diffMax - 1)).tdiv diffMax

def rescalePriorities (diffMax : ℤ) (vals : List Validator) : Option (List Validator) :=
  if vals = [] then none
  else if diffMax ≤ 0 then some vals
  else if diffMax < computeMaxMinPriorityDiff vals then
    if rescaleRatio diffMax vals = 0 then none
    else some (vals.map fun v =>
      v.withPriority (v.proposerPriority.tdiv (rescaleRatio diffMax vals)))
  else some vals

def computeAvgProposerPriority (vals : List Validator) : ℤ :=
  (vals.map Validator.proposerPriority).sum / vals.length

def shiftByAvgProposerPriority (vals : List Validator) : List Validator :=
  vals.map fun v =>
    v.withPriority (safeSubClip v.proposerPriority (computeAvgProposerPriority vals))

/-- Every priority grows by the voting power. -/
def raise (vals : List Validator) : List Validator :=
  vals.map fun v => v.withPriority (safeAddClip v.proposerPriority v.votingPower)

/-- The validator at a place pays for its turn. -/
def pay (total : ℤ) (vals : List Validator) (i : ℕ) : List Validator :=
  vals.modify i fun v => v.withPriority (safeSubClip v.proposerPriority total)

/-- `incrementProposerPriority`, with the place of the proposer. -/
def incrementOnce (total : ℤ) (vals : List Validator) : Option (List Validator × ℕ) :=
  (getValWithMostPriority (raise vals)).map fun i => (pay total (raise vals) i, i)

def incrementTimes (total : ℤ) : ℕ → List Validator → ℕ → Option (List Validator × ℕ)
  | 0, vals, i => some (vals, i)
  | n + 1, vals, _ => (incrementOnce total vals).bind fun r => incrementTimes total n r.1 r.2

structure ValidatorSet where
  validators : List Validator
  proposer : Option Validator
deriving DecidableEq

namespace ValidatorSet

def empty : ValidatorSet := ⟨[], none⟩

/-- `RescalePriorities` and the shift. -/
def center (vals : List Validator) : Option (List Validator) := do
  let total ← totalVotingPower vals
  let rescaled ← rescalePriorities (priorityWindowSizeFactor * total) vals
  some (shiftByAvgProposerPriority rescaled)

def incrementProposerPriority (vs : ValidatorSet) (times : ℤ) : Option ValidatorSet :=
  if vs.validators = [] then none
  else if times ≤ 0 then none
  else do
    let total ← totalVotingPower vs.validators
    let centered ← center vs.validators
    let (vals, i) ← incrementTimes total times.toNat centered 0
    some ⟨vals, vals[i]?⟩

end ValidatorSet

inductive ChangeError where
  | duplicate
  | negativePower
  | powerTooHigh
  | deletesNotAllowed
  | notFound
  | totalTooHigh
  | emptySet
  /-- No error is returned. -/
  | panics
deriving DecidableEq

/-- The loop of `processChanges`, in the order of the addresses. -/
def scanChanges (prevAddr : Bytes) :
    List Validator → Except ChangeError (List Validator × List Validator)
  | [] => .ok ([], [])
  | v :: vs =>
    if v.address = prevAddr then .error .duplicate
    else if v.votingPower < 0 then .error .negativePower
    else if maxTotalVotingPower < v.votingPower then .error .powerTooHigh
    else (scanChanges v.address vs).map fun r =>
      if v.votingPower = 0 then (r.1, v :: r.2) else (v :: r.1, r.2)

/-- Updates and removals. -/
def processChanges (changes : List Validator) :
    Except ChangeError (List Validator × List Validator) :=
  scanChanges [] (changes.insertionSort fun a b => a.address ≤ b.address)

def getByAddress (vals : List Validator) (address : Bytes) : Option Validator :=
  vals.find? fun v => v.address = address

def verifyRemovals (vals deletes : List Validator) : Bool :=
  deletes.all fun d => (getByAddress vals d.address).isSome

/-- One update: the total and the number of new validators so far. -/
def verifyUpdate (vals : List Validator) (acc : ℤ × ℕ) (u : Validator) :
    Except ChangeError (ℤ × ℕ) :=
  let next := match getByAddress vals u.address with
    | none => (acc.1 + u.votingPower, acc.2 + 1)
    | some v => (acc.1 + (u.votingPower - v.votingPower), acc.2)
  if maxTotalVotingPower < next.1 then .error .totalTooHigh else .ok next

def verifyUpdates (vals updates : List Validator) (total : ℤ) : Except ChangeError (ℤ × ℕ) :=
  updates.foldlM (verifyUpdate vals) (total, 0)

/-- A new validator starts behind all others. -/
def newPriority (updatedTotal : ℤ) : ℤ := -(updatedTotal + updatedTotal / 8)

def computeNewPriorities (vals updates : List Validator) (updatedTotal : ℤ) : List Validator :=
  updates.map fun u => u.withPriority
    ((getByAddress vals u.address).elim (newPriority updatedTotal) Validator.proposerPriority)

/-- The loop of `applyUpdates` up to the first validator of the set. -/
def mergeUpdates (e : Validator) (rest : List Validator → List Validator) :
    List Validator → List Validator
  | [] => e :: rest []
  | u :: us =>
    if e.address < u.address then e :: rest (u :: us)
    else if e.address = u.address then u :: rest us
    else u :: mergeUpdates e rest us

def applyUpdates : List Validator → List Validator → List Validator
  | [], updates => updates
  | e :: es, updates => mergeUpdates e (applyUpdates es) updates

def applyRemovals : List Validator → List Validator → Option (List Validator)
  | existing, [] => some existing
  | [], _ :: _ => none
  | e :: es, d :: ds =>
    if e.address = d.address then applyRemovals es ds
    else (applyRemovals es (d :: ds)).map (e :: ·)

namespace ValidatorSet

/-- The new list of validators, centred. -/
def applyChanges (vals updates deletes : List Validator) (updatedTotal : ℤ) :
    Option (List Validator) := do
  let changed ← applyRemovals (applyUpdates vals (computeNewPriorities vals updates updatedTotal))
    deletes
  center changed

def updateWithChanges (vs : ValidatorSet) (changes : List Validator) (allowDeletes : Bool) :
    Except ChangeError ValidatorSet :=
  if changes = [] then .ok vs
  else do
    let (updates, deletes) ← processChanges changes
    if !allowDeletes ∧ deletes ≠ [] then .error .deletesNotAllowed
    else if !verifyRemovals vs.validators deletes then .error .notFound
    else match totalVotingPower vs.validators with
      | none => .error .panics
      | some total => do
        let (updatedTotal, numNew) ← verifyUpdates vs.validators updates total
        if numNew = 0 ∧ vs.validators.length = deletes.length then .error .emptySet
        else match applyChanges vs.validators updates deletes updatedTotal with
          | none => .error .panics
          | some vals => .ok ⟨vals, vs.proposer⟩

def updateWithChangeSet (vs : ValidatorSet) (changes : List Validator) :
    Except ChangeError ValidatorSet := vs.updateWithChanges changes true

end ValidatorSet

/-- `NewValidatorSet`, which panics if the changes are not accepted. -/
def newValidatorSet (valz : List Validator) : Option ValidatorSet :=
  match ValidatorSet.empty.updateWithChanges valz false with
  | .error _ => none
  | .ok vs => if valz = [] then some vs else vs.incrementProposerPriority 1

end ShardingBC.Rotation
