import ShardingBC.EraseFirst
import ShardingBC.TxUtils

/-!
# Pending outgoing messages

`CrossMessagesDB` holds the messages that wait for their acknowledgement, a list of packages of
which each erases the first pending message with its height and Merkle root. All messages of one
block share both.
-/
namespace ShardingBC

structure CrossMessage where
  content : CrossMessages
  height : Int64
deriving DecidableEq

def addCrossMessagesDB (tcm : CrossMessages) (cmDB : List CrossMessage) : List CrossMessage :=
  cmDB ++ [⟨tcm, 0⟩]

/-- The comparison of `RemoveCrossMessagesDB`; to `bytes.Equal` nil is an empty slice. -/
def CrossMessage.Matches (e : CrossMessage) (pack : Package) : Prop :=
  e.content.height = pack.height ∧ e.content.crossMerkleRoot.getD [] = pack.crossMerkleRoot.getD []

instance (e : CrossMessage) (pack : Package) : Decidable (e.Matches pack) :=
  inferInstanceAs (Decidable (_ ∧ _))

def removeCrossMessagesDB (tcm : CrossMessages) (cmDB : List CrossMessage) : List CrossMessage :=
  (tcm.packages.getD []).foldl (fun db pack => db.eraseP fun e => e.Matches pack) cmDB

/-- `UpdatecmDB`: a message is sent when new and at every twentieth call after. -/
def updatecmDB (cmDB : List CrossMessage) : List CrossMessages × List CrossMessage :=
  ((cmDB.filter fun e => e.height = 0 || e.height = 20).map CrossMessage.content,
    cmDB.map fun e =>
      if e.height = 0 then { e with height := e.height + 1 }
      else if e.height = 20 then { e with height := 1 }
      else { e with height := e.height + 1 })

/-- An entry that the next `UpdatecmDB` returns. -/
def CrossMessage.due (e : CrossMessage) : Bool := e.height = 0 || e.height = 20

/-- An entry after one `UpdatecmDB`. -/
def CrossMessage.tick (e : CrossMessage) : CrossMessage :=
  { e with height := if e.height = 20 then 1 else e.height + 1 }

lemma updatecmDB_eq (cmDB : List CrossMessage) :
    updatecmDB cmDB =
      ((cmDB.filter CrossMessage.due).map CrossMessage.content, cmDB.map CrossMessage.tick) := by
  unfold updatecmDB
  congr 1
  refine List.map_congr_left fun e _ => ?_
  unfold CrossMessage.tick
  by_cases h0 : e.height = 0
  · rw [if_pos h0, if_neg (by rw [h0]; decide)]
  · split_ifs <;> rfl

def getAllCrossMessages (cmDB : List CrossMessage) : List CrossMessages :=
  cmDB.map CrossMessage.content

/-- `UpdatecmDB` counts, it does not change what is pending. -/
@[simp] lemma getAllCrossMessages_updatecmDB (cmDB : List CrossMessage) :
    getAllCrossMessages (updatecmDB cmDB).2 = getAllCrossMessages cmDB := by
  rw [updatecmDB_eq, getAllCrossMessages, List.map_map]
  rfl

/-- What the comparison reads of a message and of a package. -/
def CrossMessage.key (e : CrossMessage) : Int64 × Bytes :=
  (e.content.height, e.content.crossMerkleRoot.getD [])

def Package.key (pack : Package) : Int64 × Bytes := (pack.height, pack.crossMerkleRoot.getD [])

lemma matches_iff_key (e : CrossMessage) (pack : Package) : e.Matches pack ↔ e.key = pack.key := by
  simp [CrossMessage.Matches, CrossMessage.key, Package.key]

lemma removeCrossMessagesDB_eq_eraseFirsts (tcm : CrossMessages) (cmDB : List CrossMessage) :
    removeCrossMessagesDB tcm cmDB =
      eraseFirsts CrossMessage.key ((tcm.packages.getD []).map Package.key) cmDB := by
  simp only [removeCrossMessagesDB, eraseFirsts, List.foldl_map, matches_iff_key]

lemma removeCrossMessagesDB_sublist (tcm : CrossMessages) (cmDB : List CrossMessage) :
    (removeCrossMessagesDB tcm cmDB).Sublist cmDB := by
  rw [removeCrossMessagesDB_eq_eraseFirsts, eraseFirsts_eq_sweep]
  exact sweep_sublist _ _ _

/-- Some package of the acknowledgement names the message. -/
def Acknowledged (tcm : CrossMessages) (e : CrossMessage) : Bool :=
  (tcm.packages.getD []).any fun pack => pack.cmID == e.content.id

/-- An acknowledgement erases exactly the acknowledged messages if and only if these are, for every
height and root, the first pending ones, as many as its packages. -/
theorem removeCrossMessagesDB_exact_iff (tcm : CrossMessages) (cmDB : List CrossMessage) :
    removeCrossMessagesDB tcm cmDB = cmDB.filter (fun e => !Acknowledged tcm e) ↔
      ∀ i (h : i < cmDB.length), Acknowledged tcm cmDB[i] = true ↔
        (cmDB.take i).countP (fun e => e.key = cmDB[i].key) <
          (tcm.packages.getD []).countP fun pack => cmDB[i].Matches pack := by
  rw [removeCrossMessagesDB_eq_eraseFirsts, eraseFirsts_eq_sweep, sweep_eq_filter_iff]
  simp only [List.countP_map, matches_iff_key, Function.comp_def, eq_comm]

/-- Whatever the packages reach is named by one of them. -/
def AcksNamed (tcm : CrossMessages) (cmDB : List CrossMessage) : Prop :=
  ∀ i (h : i < cmDB.length),
    (cmDB.take i).countP (fun e => e.key = cmDB[i].key) <
      (tcm.packages.getD []).countP (fun pack => cmDB[i].Matches pack) →
    Acknowledged tcm cmDB[i] = true

/-- Then a pending message stays or was acknowledged. -/
lemma mem_removeCrossMessagesDB_or {tcm : CrossMessages} {cmDB : List CrossMessage}
    (hnamed : AcksNamed tcm cmDB) {e : CrossMessage} (he : e ∈ cmDB) :
    e ∈ removeCrossMessagesDB tcm cmDB ∨ Acknowledged tcm e = true := by
  rw [removeCrossMessagesDB_eq_eraseFirsts, eraseFirsts_eq_sweep]
  rcases mem_sweep_or CrossMessage.key _ cmDB he with h | ⟨i, hi, rfl, hlt⟩
  · exact Or.inl h
  · refine Or.inr (hnamed i hi ?_)
    simpa only [List.countP_map, matches_iff_key, Function.comp_def, eq_comm] using hlt

/-- The acknowledgement of one message, as the receiver fills it. -/
def acknowledgementOf (cm : CrossMessages) : CrossMessages :=
  { CrossMessages.zero with
    packages := some [⟨cm.crossMerkleRoot, cm.height, cm.id, cm.srcZone, cm.desZone, cm.srcIndex,
      cm.timestamp⟩] }

/-- Of two messages of one block, the acknowledgement of the second erases the
first. -/
theorem acknowledging_second_erases_first :
    (twoMessages.map fun cms =>
      let cmDB := cms.foldl (fun db cm => addCrossMessagesDB cm db) []
      let ack := acknowledgementOf (cms.getD 1 CrossMessages.zero)
      (cms.length, decide (removeCrossMessagesDB ack cmDB = cmDB.drop 1),
        decide (removeCrossMessagesDB ack cmDB = cmDB.filter fun e => !Acknowledged ack e))) =
      some (2, true, false) := by
  decide +kernel

end ShardingBC
