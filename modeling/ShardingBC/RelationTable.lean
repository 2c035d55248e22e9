import ShardingBC.CheckDB
import ShardingBC.Sha256

/-!
# The relation table

A row says that the block at a height of this shard packed a message of another shard. Rows and
messages are identified by one string, made of the message's height and Merkle root.
-/
namespace ShardingBC

/-- The common form of `CmID` and `RlID`. -/
def heightRootID (height : Int64) (root : Option Bytes) : Bytes :=
  hexUpper ((sha256 (formatInt height)).bytes ++ root.getD [])

def cmID (cm : CrossMessages) : Bytes := heightRootID cm.height cm.crossMerkleRoot

/-- A row; its identifier is that of its height and hash. -/
structure RelationTable where
  csHeight : Int64
  cmHeight : Int64
  cmHash : Option Bytes
  cmID : Digest
  rlID : Bytes
  rlID_eq : rlID = heightRootID cmHeight cmHash
  packages : Option Bytes
  comfirmPackSig : Option Bytes
  srcZone : Bytes
  desZone : Bytes
  srcIndex : Bytes
  timestamp : Int64
deriving DecidableEq

def rlID (rl : RelationTable) : Bytes := heightRootID rl.cmHeight rl.cmHash

lemma heightRootID_eq_iff (h h' : Int64) (r r' : Option Bytes) :
    heightRootID h r = heightRootID h' r' ↔
      sha256 (formatInt h) = sha256 (formatInt h') ∧ r.getD [] = r'.getD [] := by
  constructor
  · intro he
    obtain ⟨h1, h2⟩ := List.append_inj (hexUpper_injective he) (by simp)
    exact ⟨Digest.bytes_injective h1, h2⟩
  · rintro ⟨h1, h2⟩
    rw [heightRootID, heightRootID, h1, h2]

namespace RelationTable

/-- The row that `AddRelationTable` appends. -/
def ofMessage (cm : CrossMessages) (height : Int64) : RelationTable :=
  { csHeight := height, cmHeight := cm.height, cmHash := cm.crossMerkleRoot, cmID := cm.id
    rlID := ShardingBC.cmID cm, rlID_eq := rfl, packages := none, comfirmPackSig := none
    srcZone := cm.srcZone, desZone := cm.desZone, srcIndex := cm.srcIndex, timestamp := cm.timestamp }

/-- The row that `SyncRelationTable` appends; it has no source index. -/
def ofPackage (pack : Package) (height : Int64) : RelationTable :=
  { csHeight := height, cmHeight := pack.height, cmHash := pack.crossMerkleRoot, cmID := pack.cmID
    rlID := heightRootID pack.height pack.crossMerkleRoot, rlID_eq := rfl, packages := none
    comfirmPackSig := none, srcZone := pack.srcZone, desZone := pack.desZone, srcIndex := [], timestamp := pack.timestamp }

def toPackage (r : RelationTable) : Package :=
  { crossMerkleRoot := r.cmHash, height := r.cmHeight, cmID := r.cmID, srcZone := r.srcZone
    desZone := r.desZone, srcIndex := r.srcIndex, timestamp := r.timestamp }

/-- The message stored for a row when it is removed. -/
def toRecord (r : RelationTable) : CrossMessages :=
  { id := Digest.zero, txlist := none, sig := none, pubkeys := none, crossMerkleRoot := r.cmHash
    treePath := [], srcZone := r.srcZone, desZone := r.desZone, height := r.cmHeight
    packages := parsePackages (r.packages.getD []), confirmPackSigs := r.comfirmPackSig
    srcIndex := r.srcIndex, timestamp := r.timestamp, compressedData := none, isCompressed := false }

end RelationTable

def searchRelationTable (rlDB : List RelationTable) (height : Int64) : List Package :=
  (rlDB.filter fun r => r.csHeight = height).map RelationTable.toPackage

def modifyRelationTable (packages confirmPackSig : Option Bytes) (height : Int64)
    (rlDB : List RelationTable) : List RelationTable :=
  rlDB.map fun r =>
    if r.csHeight = height then
      { r with packages := packages, comfirmPackSig := confirmPackSig }
    else r

/-- `RemoveRelationTable`: the first row with the identifier, of whatever height,
is stored and dropped. -/
def removeRelationTable (rlid : Bytes) : List RelationTable → DB → List RelationTable × DB
  | [], db => ([], db)
  | r :: rs, db =>
    if r.rlID = rlid then (rs, CheckDB.save db (cmID r.toRecord) r.toRecord)
    else
      let p := removeRelationTable rlid rs db
      (r :: p.1, p.2)

/-- Identifiers of the rows of one height, the keys of `CmsMap` in `RemoveCm`. -/
def rowKeys (rlDB : List RelationTable) (height : Int64) : List Bytes :=
  (rlDB.filter fun r => r.csHeight = height).map rlID

@[simp] lemma mem_rowKeys {rlDB : List RelationTable} {height : Int64} {k : Bytes} :
    k ∈ rowKeys rlDB height ↔ ∃ r ∈ rlDB, r.csHeight = height ∧ rlID r = k := by
  simp [rowKeys, and_assoc]

@[simp] lemma rowKeys_modify (packages confirmPackSig : Option Bytes) (height height' : Int64)
    (rlDB : List RelationTable) :
    rowKeys (modifyRelationTable packages confirmPackSig height rlDB) height' =
      rowKeys rlDB height' := by
  simp only [rowKeys, modifyRelationTable, List.filter_map, List.map_map, Function.comp_def]
  have hcs : ∀ r : RelationTable, (if r.csHeight = height then
      { r with packages := packages, comfirmPackSig := confirmPackSig } else r).csHeight =
        r.csHeight := by
    intro r
    split_ifs <;> rfl
  have hid : ∀ r : RelationTable, rlID (if r.csHeight = height then
      { r with packages := packages, comfirmPackSig := confirmPackSig } else r) = rlID r := by
    intro r
    split_ifs <;> rfl
  simp only [hcs, hid]

section Remove

variable {rlid : Bytes} {rlDB : List RelationTable} {db : DB}

lemma removeRelationTable_subset : (removeRelationTable rlid rlDB db).1 ⊆ rlDB := by
  induction rlDB with
  | nil => simp [removeRelationTable]
  | cons r rs ih =>
    unfold removeRelationTable
    split_ifs
    · exact List.subset_cons_self r rs
    · exact List.cons_subset_cons r ih

/-- A removed row leaves a record behind, and no record is lost. -/
@[simp] lemma isSome_search_removeRelationTable (k : Bytes) :
    (CheckDB.search (removeRelationTable rlid rlDB db).2 k).isSome ↔
      (CheckDB.search db k).isSome ∨ k = rlid ∧ ∃ r ∈ rlDB, rlID r = k := by
  induction rlDB with
  | nil => simp [removeRelationTable]
  | cons r rs ih =>
    have hid : rlID r = r.rlID := r.rlID_eq.symm
    unfold removeRelationTable
    split_ifs with h
    · rw [show cmID r.toRecord = rlid from hid.trans h]
      by_cases hk : k = rlid
      · simp [hk, hid, h]
      · simp [hk, CheckDB.search_save_other db _ hk]
    · grind

lemma mem_removeRelationTable_other {r : RelationTable} (hr : r ∈ rlDB) (hne : rlID r ≠ rlid) :
    r ∈ (removeRelationTable rlid rlDB db).1 := by
  induction rlDB with
  | nil => exact absurd hr (by simp)
  | cons r' rs ih =>
    unfold removeRelationTable
    rcases List.mem_cons.mp hr with rfl | hr
    · rw [if_neg fun he => hne (r.rlID_eq.symm.trans he)]
      simp
    · split_ifs
      · exact hr
      · exact List.mem_cons_of_mem _ (ih hr)

end Remove

end ShardingBC
