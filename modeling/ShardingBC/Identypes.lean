import ShardingBC.JsonValid

/-!
# Transactions and cross-shard messages

The types of package `identypes` with their JSON form, the rewriting of a relay, and the compression
of a message. Go strings and byte slices are byte lists; a slice that the code compares with nil is
an option.
-/
namespace ShardingBC
open Json

structure TX where
  txtype : Bytes
  sender : Bytes
  receiver : Bytes
  id : Digest
  content : Bytes
  txSignature : Bytes
  operate : Int64
  height : Int64
deriving DecidableEq

namespace TX

def zero : TX := ⟨[], [], [], Digest.zero, [], [], 0, 0⟩

def fields : List (FieldDecoder TX) :=
  [field "Txtype" txtype (fun t x => { t with txtype := x }) decodeString,
   field "Sender" sender (fun t x => { t with sender := x }) decodeString,
   field "Receiver" receiver (fun t x => { t with receiver := x }) decodeString,
   field "ID" id (fun t x => { t with id := x }) decodeDigest,
   field "Content" content (fun t x => { t with content := x }) decodeString,
   field "TxSignature" txSignature (fun t x => { t with txSignature := x }) decodeString,
   field "Operate" operate (fun t x => { t with operate := x }) decodeInt,
   field "Height" height (fun t x => { t with height := x }) decodeInt]

def toJson (t : TX) : Json :=
  obj [(lit "Txtype", str t.txtype), (lit "Sender", str t.sender),
    (lit "Receiver", str t.receiver), (lit "ID", encodeDigest t.id),
    (lit "Content", str t.content), (lit "TxSignature", str t.txSignature),
    (lit "Operate", encodeInt t.operate), (lit "Height", encodeInt t.height)]

/-- `TX.Data`; marshalling this struct cannot fail. -/
def data (t : TX) : Bytes := print t.toJson

/-- The transaction with its strings as JSON carries them. -/
def repair (t : TX) : TX :=
  { t with
    txtype := toValid t.txtype, sender := toValid t.sender, receiver := toValid t.receiver
    content := toValid t.content, txSignature := toValid t.txSignature }

/-- `TX.UpdateTx`: a relay leaving the shard gets operate 1, one reaching it becomes an `addtx`. -/
def updateTx (shard : Bytes) (t : TX) : TX :=
  let t' := if t.txtype = lit "relaytx" ∧ t.sender = shard then { t with operate := 1 } else t
  if t'.txtype = lit "relaytx" ∧ t'.receiver = shard then { t' with txtype := lit "addtx" } else t'

end TX

/-- `NewTX`; `none` is the error. -/
def newTX (data : Bytes) : Option TX :=
  let r := unmarshal (decodeStruct TX.fields) TX.zero data
  if r.2 then some r.1 else none

namespace TX

lemma numsOk_toJson (t : TX) : NumsOk t.toJson := by
  simp [toJson, NumsOk, NumsOkMembers]

@[simp] lemma decode_toJson (t : TX) :
    decodeStruct fields zero (Json.repair t.toJson) = (t.repair, true) := by
  simp only [decodeStruct]
  iterate 3 refine (decodeMembers_field rfl rfl).trans ?_
  refine (decodeMembers_field rfl (decodeDigest_encodeDigest _ _)).trans ?_
  refine (decodeMembers_field rfl rfl).trans ?_
  refine (decodeMembers_field rfl rfl).trans ?_
  refine (decodeMembers_field rfl (decodeInt_encodeInt _ _)).trans ?_
  exact (decodeMembers_field rfl (decodeInt_encodeInt _ _)).trans rfl

@[simp] lemma newTX_data (t : TX) : newTX t.data = some t.repair := by
  rw [newTX, data, unmarshal_print _ _ _ (numsOk_toJson t), decode_toJson]
  rfl

lemma repair_of_newTX {raw : Bytes} {t : TX} (h : newTX raw = some t) : t.repair = t := by
  simp only [newTX, Option.ite_none_right_eq_some, Option.some.injEq] at h
  obtain ⟨hok, rfl⟩ := h
  unfold unmarshal at hok ⊢
  cases hp : parse raw with
  | none => rfl
  | some v =>
    have hv := repair_of_parse hp
    cases v with
    | obj kvs =>
      refine decodeMembers_invariant (fun t : TX => t.repair = t) ?_
        (by simpa [Json.repair] using hv) rfl
      intro f hf s v hv hs
      obtain ⟨txtype, sender, receiver, id, content, txSignature, operate, height⟩ := s
      simp only [TX.repair, TX.mk.injEq, and_true, true_and] at hs
      obtain ⟨h1, h2, h3, h4, h5⟩ := hs
      simp only [TX.fields, List.mem_cons, List.not_mem_nil, or_false] at hf
      rcases hf with rfl | rfl | rfl | rfl | rfl | rfl | rfl | rfl
      · simp [field, TX.repair, h2, h3, h4, h5, validUtf8_decodeString h1 hv]
      · simp [field, TX.repair, h1, h3, h4, h5, validUtf8_decodeString h2 hv]
      · simp [field, TX.repair, h1, h2, h4, h5, validUtf8_decodeString h3 hv]
      · simp [field, TX.repair, h1, h2, h3, h4, h5]
      · simp [field, TX.repair, h1, h2, h3, h5, validUtf8_decodeString h4 hv]
      · simp [field, TX.repair, h1, h2, h3, h4, validUtf8_decodeString h5 hv]
      · simp [field, TX.repair, h1, h2, h3, h4, h5]
      · simp [field, TX.repair, h1, h2, h3, h4, h5]
    | _ => rfl

lemma repair_operate {t : TX} (h : t.repair = t) (o : Int64) :
    ({ t with operate := o } : TX).repair = { t with operate := o } := by
  obtain ⟨txtype, sender, receiver, id, content, txSignature, operate, height⟩ := t
  simpa only [repair, TX.mk.injEq, and_true, true_and] using h

lemma repair_updateTx {t : TX} (h : t.repair = t) (shard : Bytes) :
    (t.updateTx shard).repair = t.updateTx shard := by
  have hadd : toValid (lit "addtx") = lit "addtx" := by decide
  have hkeep : ∀ u : TX, u.repair = u →
      (if u.txtype = lit "relaytx" ∧ u.receiver = shard then { u with txtype := lit "addtx" }
        else u).repair =
      if u.txtype = lit "relaytx" ∧ u.receiver = shard then { u with txtype := lit "addtx" }
        else u := by
    intro u hu
    split_ifs
    · obtain ⟨txtype, sender, receiver, id, content, txSignature, operate, height⟩ := u
      simp only [repair, TX.mk.injEq] at hu ⊢
      exact ⟨hadd, hu.2⟩
    · exact hu
  refine hkeep _ ?_
  split_ifs
  · exact repair_operate h 1
  · exact h

end TX

/-- The acknowledgement of one message. -/
structure Package where
  crossMerkleRoot : Option Bytes
  height : Int64
  cmID : Digest
  srcZone : Bytes
  desZone : Bytes
  srcIndex : Bytes
  timestamp : Int64
deriving DecidableEq

namespace Package

def zero : Package := ⟨none, 0, Digest.zero, [], [], [], 0⟩

def fields : List (FieldDecoder Package) :=
  [field "CrossMerkleRoot" crossMerkleRoot (fun p x => { p with crossMerkleRoot := x }) decodeBytes,
   field "Height" height (fun p x => { p with height := x }) decodeInt,
   field "CmID" cmID (fun p x => { p with cmID := x }) decodeDigest,
   field "SrcZone" srcZone (fun p x => { p with srcZone := x }) decodeString,
   field "DesZone" desZone (fun p x => { p with desZone := x }) decodeString,
   field "SrcIndex" srcIndex (fun p x => { p with srcIndex := x }) decodeString,
   field "Timestamp" timestamp (fun p x => { p with timestamp := x }) decodeInt]

def toJson (p : Package) : Json :=
  obj [(lit "CrossMerkleRoot", encodeBytes p.crossMerkleRoot), (lit "Height", encodeInt p.height),
    (lit "CmID", encodeDigest p.cmID), (lit "SrcZone", str p.srcZone),
    (lit "DesZone", str p.desZone), (lit "SrcIndex", str p.srcIndex),
    (lit "Timestamp", encodeInt p.timestamp)]

def repair (p : Package) : Package :=
  { p with
    srcZone := toValid p.srcZone, desZone := toValid p.desZone, srcIndex := toValid p.srcIndex }

lemma numsOk_toJson (p : Package) : NumsOk p.toJson := by
  simp [toJson, NumsOk, NumsOkMembers]

@[simp] lemma decode_toJson (old p : Package) :
    decodeStruct fields old (Json.repair p.toJson) = (p.repair, true) := by
  simp only [decodeStruct]
  refine (decodeMembers_field rfl (decodeBytes_encodeBytes _ _)).trans ?_
  refine (decodeMembers_field rfl (decodeInt_encodeInt _ _)).trans ?_
  refine (decodeMembers_field rfl (decodeDigest_encodeDigest _ _)).trans ?_
  iterate 3 refine (decodeMembers_field rfl rfl).trans ?_
  exact (decodeMembers_field rfl (decodeInt_encodeInt _ _)).trans rfl

end Package

def decodePackages : Decoder (Option (List Package)) :=
  decodeSlice (decodeStruct Package.fields) Package.zero

@[simp] lemma decodePackages_encode (old o : Option (List Package)) :
    decodePackages old (Json.repair (encodeSlice Package.toJson o)) =
      (o.map (List.map Package.repair), true) :=
  decodeSlice_encodeSlice _ _ _ _ Package.decode_toJson _ _

/-- `ParsePackages`: errors are only logged, and an empty list is nil. -/
def parsePackages (data : Bytes) : Option (List Package) :=
  match (unmarshal decodePackages none data).1 with
  | some (p :: ps) => some (p :: ps)
  | _ => none

structure CrossMessages where
  id : Digest
  txlist : Option (List Bytes)
  sig : Option Bytes
  pubkeys : Option Bytes
  crossMerkleRoot : Option Bytes
  treePath : Bytes
  srcZone : Bytes
  desZone : Bytes
  height : Int64
  packages : Option (List Package)
  confirmPackSigs : Option Bytes
  srcIndex : Bytes
  timestamp : Int64
  compressedData : Option Bytes
  isCompressed : Bool
deriving DecidableEq

/-- One element of a transaction list; a nil element is an empty one. -/
def decodeTx : Decoder Bytes := fun old v =>
  let r := decodeBytes (some old) v
  (r.1.getD [], r.2)

def encodeTx (tx : Bytes) : Json := encodeBytes (some tx)

def decodeTxlist : Decoder (Option (List Bytes)) := decodeSlice decodeTx []

lemma numsOk_encodeTx (tx : Bytes) : NumsOk (encodeTx tx) := numsOk_encodeBytes (some tx)

@[simp] lemma decodeTxlist_encode (old o : Option (List Bytes)) :
    decodeTxlist old (Json.repair (encodeSlice encodeTx o)) = (o, true) := by
  rw [decodeTxlist, decodeSlice_encodeSlice decodeTx [] encodeTx id
    (fun old tx => by simp [decodeTx, encodeTx]) old o]
  simp

namespace CrossMessages

def zero : CrossMessages :=
  { id := Digest.zero, txlist := none, sig := none, pubkeys := none, crossMerkleRoot := none
    treePath := [], srcZone := [], desZone := [], height := 0, packages := none
    confirmPackSigs := none, srcIndex := [], timestamp := 0, compressedData := none
    isCompressed := false }

def fields : List (FieldDecoder CrossMessages) :=
  [field "ID" id (fun m x => { m with id := x }) decodeDigest,
   field "Txlist" txlist (fun m x => { m with txlist := x }) decodeTxlist,
   field "Sig" sig (fun m x => { m with sig := x }) decodeBytes,
   field "Pubkeys" pubkeys (fun m x => { m with pubkeys := x }) decodeBytes,
   field "CrossMerkleRoot" crossMerkleRoot (fun m x => { m with crossMerkleRoot := x }) decodeBytes,
   field "TreePath" treePath (fun m x => { m with treePath := x }) decodeString,
   field "SrcZone" srcZone (fun m x => { m with srcZone := x }) decodeString,
   field "DesZone" desZone (fun m x => { m with desZone := x }) decodeString,
   field "Height" height (fun m x => { m with height := x }) decodeInt,
   field "Packages" packages (fun m x => { m with packages := x }) decodePackages,
   field "ConfirmPackSigs" confirmPackSigs (fun m x => { m with confirmPackSigs := x }) decodeBytes,
   field "SrcIndex" srcIndex (fun m x => { m with srcIndex := x }) decodeString,
   field "Timestamp" timestamp (fun m x => { m with timestamp := x }) decodeInt,
   field "CompressedData" compressedData (fun m x => { m with compressedData := x }) decodeBytes,
   field "IsCompressed" isCompressed (fun m x => { m with isCompressed := x }) decodeBool]

def toJson (m : CrossMessages) : Json :=
  obj [(lit "ID", encodeDigest m.id), (lit "Txlist", encodeSlice encodeTx m.txlist),
    (lit "Sig", encodeBytes m.sig), (lit "Pubkeys", encodeBytes m.pubkeys),
    (lit "CrossMerkleRoot", encodeBytes m.crossMerkleRoot), (lit "TreePath", str m.treePath),
    (lit "SrcZone", str m.srcZone), (lit "DesZone", str m.desZone),
    (lit "Height", encodeInt m.height), (lit "Packages", encodeSlice Package.toJson m.packages),
    (lit "ConfirmPackSigs", encodeBytes m.confirmPackSigs), (lit "SrcIndex", str m.srcIndex),
    (lit "Timestamp", encodeInt m.timestamp),
    (lit "CompressedData", encodeBytes m.compressedData),
    (lit "IsCompressed", bool m.isCompressed)]

def data (m : CrossMessages) : Bytes := print m.toJson

def repair (m : CrossMessages) : CrossMessages :=
  { m with
    treePath := toValid m.treePath, srcZone := toValid m.srcZone, desZone := toValid m.desZone
    packages := m.packages.map (List.map Package.repair), srcIndex := toValid m.srcIndex }

lemma numsOk_toJson (m : CrossMessages) : NumsOk m.toJson := by
  simp [toJson, NumsOk, NumsOkMembers, numsOk_encodeSlice encodeTx numsOk_encodeTx,
    numsOk_encodeSlice Package.toJson Package.numsOk_toJson]

@[simp] lemma decode_toJson (old m : CrossMessages) :
    decodeStruct fields old (Json.repair m.toJson) = (m.repair, true) := by
  simp only [decodeStruct]
  refine (decodeMembers_field rfl (decodeDigest_encodeDigest _ _)).trans ?_
  refine (decodeMembers_field rfl (decodeTxlist_encode _ _)).trans ?_
  iterate 3 refine (decodeMembers_field rfl (decodeBytes_encodeBytes _ _)).trans ?_
  iterate 3 refine (decodeMembers_field rfl rfl).trans ?_
  refine (decodeMembers_field rfl (decodeInt_encodeInt _ _)).trans ?_
  refine (decodeMembers_field rfl (decodePackages_encode _ _)).trans ?_
  refine (decodeMembers_field rfl (decodeBytes_encodeBytes _ _)).trans ?_
  refine (decodeMembers_field rfl rfl).trans ?_
  refine (decodeMembers_field rfl (decodeInt_encodeInt _ _)).trans ?_
  refine (decodeMembers_field rfl (decodeBytes_encodeBytes _ _)).trans ?_
  exact (decodeMembers_field rfl rfl).trans rfl

end CrossMessages

/-- `ParseData`. The outer `none` is the nil dereference on `null`; the inner one is nil, for
anything without a Merkle root. -/
def parseData (data : Bytes) : Option (Option CrossMessages) :=
  match parse data with
  | none => some none
  | some null => none
  | some v =>
    let m := (decodeStruct CrossMessages.fields CrossMessages.zero v).1
    some (if m.crossMerkleRoot = none then none else some m)

lemma parseData_data (m : CrossMessages) (h : m.crossMerkleRoot ≠ none) :
    parseData m.data = some (some m.repair) := by
  have hr : m.repair.crossMerkleRoot ≠ none := h
  rw [parseData, CrossMessages.data, parse_print _ m.numsOk_toJson]
  change some (if (decodeStruct CrossMessages.fields CrossMessages.zero
      (Json.repair m.toJson)).1.crossMerkleRoot = none then none else
    some (decodeStruct CrossMessages.fields CrossMessages.zero (Json.repair m.toJson)).1) = _
  rw [CrossMessages.decode_toJson, if_neg hr]

/-- `compress/gzip` as it is used: the writer is flushed but not closed, and for the reader an
unexpected end of file is no error; `none` is any other error. -/
structure Gzip where
  compress : Bytes → Bytes
  decompress : Bytes → Option Bytes
  decompress_compress : ∀ bz, decompress (compress bz) = some bz

namespace CrossMessages

/-- `CrossMessages.Compress`; it cannot fail on a transaction list. -/
def compress (z : Gzip) (m : CrossMessages) : CrossMessages :=
  if m.isCompressed then m
  else
    { m with
      isCompressed := true
      compressedData := some (z.compress (print (encodeSlice encodeTx m.txlist)))
      txlist := none }

/-- `CrossMessages.Decompression`: its answer and the message it leaves. -/
def decompression (z : Gzip) (m : CrossMessages) : Bool × CrossMessages :=
  if m.isCompressed = false then (true, m)
  else
    match z.decompress (m.compressedData.getD []) with
    | none => (false, m)
    | some bz =>
      let r := unmarshal decodeTxlist m.txlist bz
      if r.2 then
        (true, { m with txlist := r.1, compressedData := none, isCompressed := false })
      else (false, { m with txlist := r.1 })

/-- The transactions that decompression yields; `none` when it fails. -/
def transactions (z : Gzip) (m : CrossMessages) : Option (List Bytes) :=
  if (m.decompression z).1 then some ((m.decompression z).2.txlist.getD []) else none

lemma decompression_compress (z : Gzip) (m : CrossMessages) (hc : m.isCompressed = false) :
    ((m.compress z).decompression z) =
      (true, { m with compressedData := none, isCompressed := false }) := by
  have hnum := numsOk_encodeSlice encodeTx numsOk_encodeTx m.txlist
  have hun : unmarshal decodeTxlist none (print (encodeSlice encodeTx m.txlist)) =
      (m.txlist, true) := by
    rw [unmarshal_print _ _ _ hnum, decodeTxlist_encode]
  simp [compress, decompression, hc, z.decompress_compress, hun]

@[simp] lemma transactions_compress (z : Gzip) (m : CrossMessages)
    (hc : m.isCompressed = false) : (m.compress z).transactions z = some (m.txlist.getD []) := by
  simp [transactions, decompression_compress z m hc]

/-- Decompression touches nothing but the three fields it is about. -/
lemma decompression_frame (z : Gzip) (m : CrossMessages) :
    ∃ txlist data flag, (m.decompression z).2 =
      { m with txlist := txlist, compressedData := data, isCompressed := flag } := by
  unfold decompression
  split_ifs
  · exact ⟨_, _, _, rfl⟩
  · split
    · exact ⟨_, _, _, rfl⟩
    · dsimp only
      split_ifs <;> exact ⟨_, _, _, rfl⟩

end CrossMessages

/-- `NewCrossMessage` of the node with the given `TASKINDEX`. -/
def newCrossMessage (index : Bytes) (txs : List Bytes) (signature pubkey root treepath srcZone
    desZone : Bytes) (height t : Int64) : CrossMessages :=
  { id := Digest.zero, txlist := some txs, sig := some signature, pubkeys := some pubkey
    crossMerkleRoot := some root, treePath := treepath, srcZone := srcZone, desZone := desZone
    height := height, packages := some [], confirmPackSigs := none, srcIndex := index
    timestamp := t, compressedData := none, isCompressed := false }

end ShardingBC
