import ShardingBC.Identypes
import ShardingBC.ValidatorSet

/-!
# Config transactions

`ExecuteConfigTx` reads one update of a validator from the content of a transaction.
-/

namespace ShardingBC.Rotation

inductive ConfigTxError where
  | parseFailed
  | wrongType (txtype : Bytes)
  | wrongFormat
deriving DecidableEq

def newValidator (addressOf : Bytes → Bytes) (pubKey : Bytes) (power : Int64) : Validator where
  address := addressOf pubKey
  pubKey := pubKey
  votingPower := power.toInt
  proposerPriority := 0

def validatorSetChangePrefix : Bytes := lit "val:"

/-- `ExecuteConfigTx`; `none` is a panic. The error of `PB2TM.PubKey`, which takes any BLS key,
overwrites those of the key and the power. -/
def executeConfigTx (addressOf : Bytes → Bytes) (origin : Bytes) :
    Option (Except ConfigTxError (List Validator)) :=
  match newTX origin with
  | none => some (.error .parseFailed)
  | some tx =>
    if tx.txtype ≠ lit "configtx" then some (.error (.wrongType tx.txtype))
    else if tx.content.length < validatorSetChangePrefix.length then none
    else
      match split (tx.content.drop validatorSetChangePrefix.length) 47 with
      | [pubkeyS, powerS] =>
        some (.ok [newValidator addressOf (hexDecoded pubkeyS) (atoi powerS).1])
      | _ => some (.error .wrongFormat)

/-- No panic, and updates only from `val:<key>/<power>`, with that key and power. -/
def Strict (addressOf : Bytes → Bytes) (origin : Bytes) : Prop :=
  ∃ r, executeConfigTx addressOf origin = some r ∧ ∀ vals, r = .ok vals →
    ∃ tx rest pubkeyS powerS pubkey power, newTX origin = some tx ∧
      tx.txtype = lit "configtx" ∧ tx.content = validatorSetChangePrefix ++ rest ∧
      split rest 47 = [pubkeyS, powerS] ∧ hexDecode pubkeyS = some pubkey ∧
      atoi powerS = (power, true) ∧ vals = [newValidator addressOf pubkey power]

lemma executeConfigTx_parts {addressOf : Bytes → Bytes} {origin pubkeyS powerS : Bytes} {tx : TX}
    (hnew : newTX origin = some tx) (htype : tx.txtype = lit "configtx")
    (hlen : validatorSetChangePrefix.length ≤ tx.content.length)
    (hparts : split (tx.content.drop validatorSetChangePrefix.length) 47 = [pubkeyS, powerS]) :
    executeConfigTx addressOf origin =
      some (.ok [newValidator addressOf (hexDecoded pubkeyS) (atoi powerS).1]) := by
  simp [executeConfigTx, hnew, htype, not_lt.mpr hlen, hparts]

/-- Too short a content panics. Contents with two parts after four bytes are read as what they say
only with the prefix, a hexadecimal key and a decimal power. -/
theorem config_tx_strict_iff (addressOf : Bytes → Bytes) (origin : Bytes) :
    Strict addressOf origin ↔ ∀ tx, newTX origin = some tx → tx.txtype = lit "configtx" →
      validatorSetChangePrefix.length ≤ tx.content.length ∧ ∀ pubkeyS powerS,
        split (tx.content.drop validatorSetChangePrefix.length) 47 = [pubkeyS, powerS] →
        validatorSetChangePrefix <+: tx.content ∧ (hexDecode pubkeyS).isSome ∧
          (atoi powerS).2 = true := by
  constructor
  · rintro ⟨r, hr, hok⟩ tx hnew htype
    have hlen : validatorSetChangePrefix.length ≤ tx.content.length := by
      by_contra hlt
      simp [executeConfigTx, hnew, htype, not_le.mp hlt] at hr
    refine ⟨hlen, fun pubkeyS powerS hparts => ?_⟩
    rw [executeConfigTx_parts hnew htype hlen hparts] at hr
    cases hr
    obtain ⟨tx', rest, _, _, pubkey, power, hnew', -, hcontent, hsplit, hkey, hpower, -⟩ :=
      hok _ rfl
    cases hnew.symm.trans hnew'
    rw [hcontent, List.drop_left] at hparts
    cases hsplit.symm.trans hparts
    exact ⟨⟨rest, hcontent.symm⟩, by rw [hkey]; rfl, by rw [hpower]⟩
  · intro h
    cases hnew : newTX origin with
    | none => exact ⟨_, by rw [executeConfigTx, hnew], fun _ hr => by cases hr⟩
    | some tx =>
      by_cases htype : tx.txtype = lit "configtx"
      · obtain ⟨hlen, hform⟩ := h tx hnew htype
        by_cases hparts : ∃ pubkeyS powerS,
          split (tx.content.drop validatorSetChangePrefix.length) 47 = [pubkeyS, powerS]
        · obtain ⟨pubkeyS, powerS, hparts⟩ := hparts
          obtain ⟨⟨rest, hrest⟩, hkey, hpower⟩ := hform _ _ hparts
          obtain ⟨pubkey, hkey⟩ := Option.isSome_iff_exists.mp hkey
          refine ⟨_, executeConfigTx_parts hnew htype hlen hparts, fun vals hvals => ?_⟩
          cases hvals
          rw [← hrest, List.drop_left] at hparts
          exact ⟨tx, rest, pubkeyS, powerS, pubkey, _, hnew, htype, hrest.symm, hparts, hkey,
            Prod.ext rfl hpower, by rw [hexDecoded_eq hkey]⟩
        · refine ⟨.error .wrongFormat, ?_, fun _ hr => by cases hr⟩
          simp only [executeConfigTx, hnew, htype, not_lt.mpr hlen, ne_eq, not_true, if_false]
          split
          · exact absurd ⟨_, _, ‹_›⟩ hparts
          · rfl
      · exact ⟨.error (.wrongType tx.txtype), by simp [executeConfigTx, hnew, htype],
          fun _ hr => by cases hr⟩

def configTx (content : Bytes) : Bytes :=
  (Json.obj [(lit "Txtype", .str (lit "configtx")), (lit "Content", .str content)]).print

/-- A content without room for the prefix panics; a power that is no number removes the validator,
and a key that is not hexadecimal is cut. -/
theorem malformed_config_txs :
    ¬ Strict id (configTx (lit "val")) ∧
    executeConfigTx id (configTx (lit "val:0a/ten")) = some (.ok [newValidator id [10] 0]) ∧
    executeConfigTx id (configTx (lit "key:0a0g/7")) = some (.ok [newValidator id [10] 7]) := by
  refine ⟨?_, by decide +kernel, by decide +kernel⟩
  rintro ⟨r, hr, -⟩
  have hpanic : executeConfigTx id (configTx (lit "val")) = none := by decide +kernel
  rw [hpanic] at hr
  cases hr

end ShardingBC.Rotation
