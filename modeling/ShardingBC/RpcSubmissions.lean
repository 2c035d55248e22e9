import ShardingBC.Mempool

/-!
# What the RPC layer takes for a message

The RPC layer and the mempool read a submitted text into the same struct, but the RPC layer looks at
the height and the list of transactions and the mempool at the Merkle root. What the RPC layer takes
for a message may be forgotten by chance before the mempool sees it.
-/
namespace ShardingBC.Rpc

open Json

/-- What `json.Unmarshal` leaves in a new message; `none` is the nil pointer that `null` makes of
it. -/
def unmarshalMessage (data : Bytes) : Option CrossMessages :=
  match parse data with
  | none => some CrossMessages.zero
  | some null => none
  | some v => some (decodeStruct CrossMessages.fields CrossMessages.zero v).1

/-- `ParseData` of the RPC layer; the outer `none` is the nil dereference. -/
def parseData (data : Bytes) : Option (Option CrossMessages) :=
  (unmarshalMessage data).map fun cm =>
    if cm.height = 0 ∧ cm.txlist = none then none else some cm

/-- `ParseData` of the mempool in the same terms. -/
lemma mempool_parseData_eq (data : Bytes) :
    ShardingBC.parseData data =
      (unmarshalMessage data).map fun cm => if cm.crossMerkleRoot = none then none else some cm := by
  unfold ShardingBC.parseData unmarshalMessage
  cases parse data with
  | none => rfl
  | some v => cases v <;> rfl

inductive BroadcastReply where
  | notLeader
  | forgotten
  | checked (o : Outcome)
  | panicked
deriving DecidableEq

/-- `CheckReceiveSeed` with the number below 100 that it draws. -/
def checkReceiveSeed (m : Mempool) (randNum : Int64) : Bool := m.crossReceiveStrike ≤ randNum

def broadcastTxAsync (env : Env) (db : DB) (m : Mempool) (isLeader : Bool) (randNum : Int64)
    (tx : Bytes) (res : CheckTxResponse) : BroadcastReply × Mempool :=
  if isLeader then
    match parseData tx with
    | none => (.panicked, m)
    | some (some _) =>
      if checkReceiveSeed m randNum then
        (.checked (checkTx env db m tx res).1, (checkTx env db m tx res).2)
      else (.forgotten, m)
    | some none => (.checked (checkTx env db m tx res).1, (checkTx env db m tx res).2)
  else (.notLeader, m)

/-- The RPC layer takes the text for a message. -/
def IsMessage (data : Bytes) : Prop := ∃ cm, parseData data = some (some cm)

/-- The mempool takes the text for a message. -/
def IsMempoolMessage (data : Bytes) : Prop := ∃ cm, ShardingBC.parseData data = some (some cm)

lemma exists_message_iff (u : Option CrossMessages) (p : CrossMessages → Prop) [DecidablePred p] :
    (∃ cm, (u.map fun cm => if p cm then none else some cm) = some (some cm)) ↔
      ∃ cm, u = some cm ∧ ¬ p cm := by
  cases u with
  | none => simp
  | some cm => by_cases h : p cm <;> simp [h]

lemma isMessage_iff (data : Bytes) :
    IsMessage data ↔ ∃ cm, unmarshalMessage data = some cm ∧ ¬ (cm.height = 0 ∧ cm.txlist = none) :=
  exists_message_iff _ _

lemma isMempoolMessage_iff (data : Bytes) :
    IsMempoolMessage data ↔ ∃ cm, unmarshalMessage data = some cm ∧ cm.crossMerkleRoot ≠ none := by
  unfold IsMempoolMessage
  rw [mempool_parseData_eq]
  exact exists_message_iff _ _

lemma agrees_iff (data : Bytes) :
    (IsMessage data ↔ IsMempoolMessage data) ↔
      ∀ cm, unmarshalMessage data = some cm →
        (cm.crossMerkleRoot ≠ none ↔ cm.height ≠ 0 ∨ cm.txlist ≠ none) := by
  rw [isMessage_iff, isMempoolMessage_iff]
  cases unmarshalMessage data with
  | none => simp
  | some cm =>
    simp only [Option.some.injEq, exists_eq_left', forall_eq']
    tauto

lemma unmarshalMessage_tx (t : TX) :
    unmarshalMessage t.data = some { CrossMessages.zero with id := t.id, height := t.height } := by
  have hskip : ∀ k s v kvs, lookup CrossMessages.fields k = none →
      decodeMembers CrossMessages.fields s ((k, v) :: kvs) =
        decodeMembers CrossMessages.fields s kvs := by
    intro k s v kvs hk
    rw [decodeMembers, hk]
  have hdecode : decodeStruct CrossMessages.fields CrossMessages.zero (Json.repair t.toJson) =
      ({ CrossMessages.zero with id := t.id, height := t.height }, true) := by
    simp only [decodeStruct]
    iterate 3 refine (hskip _ _ _ _ rfl).trans ?_
    refine (decodeMembers_field rfl (decodeDigest_encodeDigest _ _)).trans ?_
    iterate 3 refine (hskip _ _ _ _ rfl).trans ?_
    exact (decodeMembers_field rfl (decodeInt_encodeInt _ _)).trans rfl
  unfold unmarshalMessage
  rw [TX.data, parse_print _ t.numsOk_toJson]
  exact congrArg some (congrArg Prod.fst hdecode)

@[simp]
lemma unmarshalMessage_data (m : CrossMessages) : unmarshalMessage m.data = some m.repair := by
  unfold unmarshalMessage
  rw [CrossMessages.data, parse_print _ m.numsOk_toJson]
  exact congrArg some (congrArg Prod.fst (CrossMessages.decode_toJson _ m))

/-- Both layers take a text for a message, or neither does, if and only if the fields it
sets contain a Merkle root exactly when they contain a height or a list of transactions. For
an ordinary transaction the height is 0 then, for a compressed message it is not. -/
theorem isMessage_agrees_iff (data : Bytes) (t : TX) (m : CrossMessages) :
    ((IsMessage data ↔ IsMempoolMessage data) ↔
      ∀ cm, unmarshalMessage data = some cm →
        (cm.crossMerkleRoot ≠ none ↔ cm.height ≠ 0 ∨ cm.txlist ≠ none)) ∧
    ((IsMessage t.data ↔ IsMempoolMessage t.data) ↔ t.height = 0) ∧
    (m.crossMerkleRoot ≠ none → m.txlist = none →
      ((IsMessage m.data ↔ IsMempoolMessage m.data) ↔ m.height ≠ 0)) := by
  refine ⟨agrees_iff data, ?_, fun hroot htxlist => ?_⟩
  · rw [agrees_iff, unmarshalMessage_tx]
    simp [CrossMessages.zero]
  · rw [agrees_iff, unmarshalMessage_data]
    simp [CrossMessages.repair, hroot, htxlist]

/-- An ordinary transaction with a height is forgotten like a message. -/
theorem broadcast_tx_forgotten {env : Env} {db : DB} {m : Mempool} {randNum : Int64} {t : TX}
    {res : CheckTxResponse} (hheight : t.height ≠ 0) (hseed : randNum < m.crossReceiveStrike) :
    (broadcastTxAsync env db m true randNum t.data res) = (.forgotten, m) ∧
      ¬ IsMempoolMessage t.data := by
  constructor
  · have hmessage : parseData t.data =
        some (some { CrossMessages.zero with id := t.id, height := t.height }) := by
      rw [parseData, unmarshalMessage_tx, Option.map_some, if_neg fun h => hheight h.1]
    have hforget : checkReceiveSeed m randNum = false := by
      simpa [checkReceiveSeed, Int64.not_le] using hseed
    rw [broadcastTxAsync, if_pos rfl, hmessage]
    rw [if_neg (by simp [hforget])]
  · rw [isMempoolMessage_iff, unmarshalMessage_tx]
    simp [CrossMessages.zero]

/-- A relay that carries a height. -/
def datedRelay : TX := { relayToB with height := 3 }

theorem datedRelay_forgotten :
    ∃ m, broadcastTxAsync (plainEnv "A") (fun _ => none) m true 0 datedRelay.data ⟨true, 1⟩ =
      (.forgotten, m) :=
  ⟨{ plainMempool with crossReceiveStrike := 1 },
    (broadcast_tx_forgotten (by decide) (by decide)).1⟩

/-- A compressed message of height 0. -/
def genesisMessage : CrossMessages :=
  ({ messageToB with height := 0 } : CrossMessages).compress storedGzip

/-- The RPC layer takes the transaction for a message and the mempool does not; with the
message it is the other way around. -/
theorem layers_disagree :
    (IsMessage datedRelay.data ∧ ¬ IsMempoolMessage datedRelay.data) ∧
    ¬ IsMessage genesisMessage.data ∧ IsMempoolMessage genesisMessage.data := by
  refine ⟨⟨?_, ?_⟩, ?_, ?_⟩
  · rw [isMessage_iff, unmarshalMessage_tx]
    exact ⟨_, rfl, fun h => absurd h.1 (by decide)⟩
  · rw [isMempoolMessage_iff, unmarshalMessage_tx]
    rintro ⟨cm, hcm, hroot⟩
    cases hcm
    exact hroot rfl
  · rw [isMessage_iff, unmarshalMessage_data]
    rintro ⟨cm, hcm, hfields⟩
    cases hcm
    exact hfields ⟨rfl, rfl⟩
  · rw [isMempoolMessage_iff, unmarshalMessage_data]
    exact ⟨_, rfl, fun h => Option.some_ne_none _ h⟩

end ShardingBC.Rpc
