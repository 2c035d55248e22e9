import ShardingBC.LightClient

/-!
# The trusted store of the light client

`DBProvider` keeps the signed headers and validator sets of all chains in one database, under keys
that end in `/sh` and `/vs`, and goes through the keys in their order as byte strings. The values
are kept decoded.
-/
namespace ShardingBC.Consensus

open List Option

/-- `fmt.Sprintf("%010d", height)`. -/
def formatHeight (height : ℤ) : Bytes :=
  let ds := formatNat height.natAbs
  if height < 0 then 45 :: (List.replicate (9 - ds.length) 48 ++ ds)
  else List.replicate (10 - ds.length) 48 ++ ds

def chainKey (chainID : Bytes) (height : ℤ) (part : Bytes) : Bytes :=
  chainID ++ 47 :: (formatHeight height ++ 47 :: part)

def signedHeaderKey (chainID : Bytes) (height : ℤ) : Bytes := chainKey chainID height (lit "sh")

def validatorSetKey (chainID : Bytes) (height : ℤ) : Bytes := chainKey chainID height (lit "vs")

/-- `parseKey`: the pattern `^([^/]+)/([0-9]*)/(.*)$` and `strconv.Atoi` of the height. -/
def parseKey (key : Bytes) : Option (Bytes × ℤ × Bytes) :=
  let chainID := key.takeWhile (· ≠ 47)
  match key.dropWhile (· ≠ 47) with
  | [] => none
  | _ :: rest =>
    let height := atoi (rest.takeWhile isDigit)
    match rest.dropWhile isDigit with
    | 47 :: part =>
      if chainID = [] ∨ 10 ∈ part ∨ height.2 = false then none
      else some (chainID, height.1.toInt, part)
    | _ => none

def isSignedHeaderKey (key : Bytes) : Bool := (parseKey key).any fun p => p.2.2 = lit "sh"

/-- The database of a `DBProvider`. -/
structure LiteDB where
  headers : AssocMap Bytes SignedHeader
  valsets : AssocMap Bytes (List Validator)

namespace LiteDB

/-- The keys from `start` to before `stop`, the greatest first. -/
def reverseIterator (db : LiteDB) (start stop : Bytes) : List Bytes :=
  ((db.headers.keys ++ db.valsets.keys).filter fun key => start ≤ key ∧ key < stop).insertionSort
    fun a b => b ≤ a

def getValidatorSet (db : LiteDB) (chainID : Bytes) (height : ℤ) :
    Except LiteError (List Validator) :=
  match db.valsets.lookup (validatorSetKey chainID height) with
  | none => .error .unknownValidators
  | some vals => .ok vals

def fillFullCommit (db : LiteDB) (sh : SignedHeader) : Except LiteError FullCommit := do
  let vals ← db.getValidatorSet sh.header.chainID sh.header.height
  let nextVals ← db.getValidatorSet sh.header.chainID (sh.header.height + 1)
  return ⟨sh, vals, nextVals⟩

def latestFullCommit (chainID : Bytes) (db : LiteDB) (minHeight maxHeight : ℤ) :
    Except LiteError FullCommit :=
  let minHeight := if minHeight ≤ 0 then 1 else minHeight
  let maxHeight := if maxHeight = 0 then 2 ^ 63 - 1 else maxHeight
  let keys := db.reverseIterator (signedHeaderKey chainID minHeight)
    (signedHeaderKey chainID maxHeight ++ [0])
  match (keys.find? isSignedHeaderKey).bind db.headers.lookup with
  | none => .error .commitNotFound
  | some sh => db.fillFullCommit sh

def delete (db : LiteDB) (key : Bytes) : LiteDB :=
  ⟨db.headers.delete key, db.valsets.delete key⟩

/-- The loop of `deleteAfterN`, with the last height and the number of heights seen. It
stops at a key it cannot parse. -/
def deleteLoop (after : ℕ) : List Bytes → ℤ → ℕ → LiteDB → LiteDB
  | [], _, _, db => db
  | key :: rest, lastHeight, numSeen, db =>
    match parseKey key with
    | none => db
    | some (_, height, _) =>
      let lower := height < lastHeight
      let numSeen := if lower then numSeen + 1 else numSeen
      deleteLoop after rest (if lower then height else lastHeight) numSeen
        (if after < numSeen then db.delete key else db)

def deleteAfterN (db : LiteDB) (chainID : Bytes) (after : ℕ) : LiteDB :=
  let keys := db.reverseIterator (signedHeaderKey chainID 1)
    (signedHeaderKey chainID (2 ^ 63 - 1) ++ [0])
  deleteLoop after keys (2 ^ 63 - 1) 0 db

/-- The batch that `SaveFullCommit` writes. -/
def write (db : LiteDB) (fc : FullCommit) : LiteDB :=
  let chainID := fc.signedHeader.header.chainID
  { headers := db.headers.set (signedHeaderKey chainID fc.height) fc.signedHeader
    valsets := (db.valsets.set (validatorSetKey chainID fc.height) fc.validators).set
      (validatorSetKey chainID (fc.height + 1)) fc.nextValidators }

/-- `SaveFullCommit`; a limit of zero is none. -/
def saveFullCommit (limit : ℕ) (db : LiteDB) (fc : FullCommit) : LiteDB :=
  if 0 < limit then (db.write fc).deleteAfterN fc.signedHeader.header.chainID limit
  else db.write fc

end LiteDB

@[simp] lemma foldl_digits_replicate (k : ℕ) (ds : Bytes) :
    digitsVal (List.replicate k 48 ++ ds) = digitsVal ds := by
  induction k with
  | zero => simp
  | succ k ih => simpa [replicate_succ, digitsVal, digitVal] using ih

lemma formatHeight_isDigit {height : ℤ} (h : 0 ≤ height) :
    ∀ b ∈ formatHeight height, isDigit b = true := by
  intro b hb
  simp only [formatHeight, if_neg (not_lt.mpr h), mem_append, mem_replicate] at hb
  rcases hb with ⟨-, rfl⟩ | hb
  · decide
  · exact formatNat_isDigit _ b hb

lemma digitsVal_formatHeight {height : ℤ} (h : 0 ≤ height) :
    digitsVal (formatHeight height) = height.natAbs := by
  rw [formatHeight, if_neg (not_lt.mpr h), foldl_digits_replicate, digitsVal_formatNat]

lemma formatHeight_of_neg {height : ℤ} (h : height < 0) :
    ∃ ds, formatHeight height = 45 :: ds ∧ digitsVal ds = height.natAbs ∧
      ∀ b ∈ ds, isDigit b = true := by
  refine ⟨_, by rw [formatHeight, if_pos h], ?_, ?_⟩
  · rw [foldl_digits_replicate, digitsVal_formatNat]
  · intro b hb
    rcases mem_append.mp hb with hb | hb
    · rw [(mem_replicate.mp hb).2]
      decide
    · exact formatNat_isDigit _ b hb

lemma slash_notMem_formatHeight (height : ℤ) : 47 ∉ formatHeight height := by
  intro hmem
  rcases lt_or_ge height 0 with h | h
  · obtain ⟨ds, hds, -, hdigits⟩ := formatHeight_of_neg h
    rw [hds, mem_cons] at hmem
    rcases hmem with hmem | hmem
    · cases hmem
    · exact absurd (hdigits _ hmem) (by decide)
  · exact absurd (formatHeight_isDigit h _ hmem) (by decide)

lemma formatHeight_injective : Function.Injective formatHeight := by
  -- a negative height is the one with a sign
  have hsign : ∀ {a b : ℤ}, a < 0 → 0 ≤ b → formatHeight a ≠ formatHeight b := by
    intro a b ha hb heq
    obtain ⟨ds, hds, -⟩ := formatHeight_of_neg ha
    have hmem : (45 : UInt8) ∈ formatHeight b := by rw [← heq, hds]; exact mem_cons_self
    exact absurd (formatHeight_isDigit hb _ hmem) (by decide)
  intro a b heq
  rcases lt_or_ge a 0 with ha | ha <;> rcases lt_or_ge b 0 with hb | hb
  · obtain ⟨ds, hds, hval, -⟩ := formatHeight_of_neg ha
    obtain ⟨ds', hds', hval', -⟩ := formatHeight_of_neg hb
    have heq' : ds = ds' := by
      rw [hds, hds'] at heq
      exact (cons.inj heq).2
    rw [heq'] at hval
    omega
  · exact absurd heq (hsign ha hb)
  · exact absurd heq.symm (hsign hb ha)
  · have hval := congrArg digitsVal heq
    rw [digitsVal_formatHeight ha, digitsVal_formatHeight hb] at hval
    omega

/-- The height stands between the last two slashes. -/
lemma height_eq_of_validatorSetKey {c c' : Bytes} {h h' : ℤ}
    (heq : validatorSetKey c h = validatorSetKey c' h') : h = h' := by
  have hrev := congrArg reverse heq
  simp only [validatorSetKey, chainKey, reverse_append, reverse_cons,
    append_assoc, singleton_append] at hrev
  have hrev' := append_cancel_left hrev
  simp only [cons_append, cons.injEq, true_and] at hrev'
  have htake : ∀ height rest, ((formatHeight height).reverse ++ 47 :: rest).takeWhile (· ≠ 47) =
      (formatHeight height).reverse := by
    intro height rest
    rw [takeWhile_append_of_pos]
    · simp
    · intro b hb
      have hne : b ≠ 47 := by
        rintro rfl
        exact slash_notMem_formatHeight height (mem_reverse.mp hb)
      simpa using hne
  have hfront := congrArg (takeWhile (· ≠ 47)) hrev'
  rw [htake, htake] at hfront
  exact formatHeight_injective (reverse_injective hfront)

namespace LiteDB

/-- All that is in the one is in the other. -/
structure Within (db db' : LiteDB) : Prop where
  headers : ∀ key sh, db.headers.lookup key = some sh → db'.headers.lookup key = some sh
  valsets : ∀ key vals, db.valsets.lookup key = some vals → db'.valsets.lookup key = some vals

lemma Within.trans {a b c : LiteDB} (h : a.Within b) (h' : b.Within c) : a.Within c :=
  ⟨fun key sh hsh => h'.headers key sh (h.headers key sh hsh),
    fun key vals hvals => h'.valsets key vals (h.valsets key vals hvals)⟩

lemma lookup_of_lookup_delete {ν : Type} {m : AssocMap Bytes ν} {key k : Bytes} {v : ν}
    (h : (m.delete key).lookup k = some v) : m.lookup k = some v := by
  rw [AssocMap.lookup_delete] at h
  split_ifs at h
  exact h

lemma delete_within (db : LiteDB) (key : Bytes) : (db.delete key).Within db :=
  ⟨fun _ _ => lookup_of_lookup_delete, fun _ _ => lookup_of_lookup_delete⟩

lemma deleteLoop_within (after : ℕ) (keys : List Bytes) (lastHeight : ℤ) (numSeen : ℕ)
    (db : LiteDB) : (deleteLoop after keys lastHeight numSeen db).Within db := by
  induction keys generalizing lastHeight numSeen db with
  | nil => exact ⟨fun _ _ => id, fun _ _ => id⟩
  | cons key rest ih =>
    rw [deleteLoop]
    split
    · exact ⟨fun _ _ => id, fun _ _ => id⟩
    · rename_i height _ _
      refine (ih _ _ _).trans ?_
      by_cases hafter : after < if height < lastHeight then numSeen + 1 else numSeen
      · rw [if_pos hafter]
        exact db.delete_within key
      · rw [if_neg hafter]
        exact ⟨fun _ _ => id, fun _ _ => id⟩

/-- For a header in the database, the set it has for the next height. -/
def HoldsOnly (P : ℤ → List Validator → Prop) (db : LiteDB) : Prop :=
  ∀ key sh vals, db.headers.lookup key = some sh →
    db.valsets.lookup (validatorSetKey sh.header.chainID (sh.header.height + 1)) = some vals →
    P (sh.header.height + 1) vals

variable {P : ℤ → List Validator → Prop} {db db' : LiteDB} {fc : FullCommit}

lemma HoldsOnly.within (h : HoldsOnly P db) (hw : db'.Within db) : HoldsOnly P db' :=
  fun key sh vals hsh hvals => h key sh vals (hw.headers key sh hsh) (hw.valsets _ vals hvals)

lemma HoldsOnly.write (h : HoldsOnly P db) (hvals : P fc.height fc.validators)
    (hnext : P (fc.height + 1) fc.nextValidators) : HoldsOnly P (db.write fc) := by
  intro key sh vals hsh hset
  simp only [LiteDB.write, AssocMap.lookup_set] at hsh hset
  by_cases h1 : validatorSetKey fc.signedHeader.header.chainID (fc.height + 1) =
      validatorSetKey sh.header.chainID (sh.header.height + 1)
  · rw [if_pos h1, some.injEq] at hset
    rw [← height_eq_of_validatorSetKey h1, ← hset]
    exact hnext
  rw [if_neg h1] at hset
  by_cases h2 : validatorSetKey fc.signedHeader.header.chainID fc.height =
      validatorSetKey sh.header.chainID (sh.header.height + 1)
  · rw [if_pos h2, some.injEq] at hset
    rw [← height_eq_of_validatorSetKey h2, ← hset]
    exact hvals
  rw [if_neg h2] at hset
  split_ifs at hsh with hkey
  · -- the saved header itself comes with its next validators
    cases hsh
    exact absurd rfl h1
  · exact h key sh vals hsh hset

lemma HoldsOnly.saveFullCommit (limit : ℕ) (h : HoldsOnly P db)
    (hvals : P fc.height fc.validators) (hnext : P (fc.height + 1) fc.nextValidators) :
    HoldsOnly P (LiteDB.saveFullCommit limit db fc) := by
  have hwrite := h.write hvals hnext
  rw [LiteDB.saveFullCommit]
  split_ifs
  · exact hwrite.within (deleteLoop_within ..)
  · exact hwrite

lemma HoldsOnly.latestFullCommit {chainID : Bytes} {min max : ℤ} (h : HoldsOnly P db)
    (hlatest : db.latestFullCommit chainID min max = .ok fc) :
    P (fc.height + 1) fc.nextValidators := by
  rw [LiteDB.latestFullCommit] at hlatest
  split at hlatest
  · cases hlatest
  next sh hsh =>
  obtain ⟨key, -, hkey⟩ := bind_eq_some_iff.mp hsh
  rw [fillFullCommit] at hlatest
  cases hvals : db.getValidatorSet sh.header.chainID sh.header.height with
  | error err => rw [hvals] at hlatest; cases hlatest
  | ok vals =>
    cases hnext : db.getValidatorSet sh.header.chainID (sh.header.height + 1) with
    | error err => rw [hvals, hnext] at hlatest; cases hlatest
    | ok nextVals =>
      rw [hvals, hnext] at hlatest
      cases hlatest
      rw [getValidatorSet] at hnext
      split at hnext
      · cases hnext
      · rename_i hlookup
        cases hnext
        exact h key sh nextVals hkey hlookup

end LiteDB

/-- A `DBProvider` with a limit. -/
def dbProvider (chainID : Bytes) (limit : ℕ) : TrustedStore where
  State := LiteDB
  latestFullCommit := LiteDB.latestFullCommit chainID
  saveFullCommit := fun db fc => (db.saveFullCommit limit fc, none)
  HoldsOnly := LiteDB.HoldsOnly
  mono := fun hPQ h key sh vals hsh hvals => hPQ _ _ (h key sh vals hsh hvals)
  latest := LiteDB.HoldsOnly.latestFullCommit
  save := fun h hvals hnext => h.saveFullCommit limit hvals hnext

end ShardingBC.Consensus
