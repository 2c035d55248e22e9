import ShardingBC.AssocMap
import ShardingBC.Chain
import ShardingBC.Logged

/-!
# The light client

`DynamicVerifier` with its trusted store and a source that may answer anything. A log keeps the full
commits that a verification saves, also if it panics or does not end.
-/
namespace ShardingBC.Consensus

open Logged

/-- A header, which is there, with a commit, which may be nil. -/
structure SignedHeader where
  header : Header
  commit : Option Commit

structure FullCommit where
  signedHeader : SignedHeader
  validators : List Validator
  nextValidators : List Validator

def FullCommit.height (fc : FullCommit) : ℤ := fc.signedHeader.header.height

inductive LiteError where
  | commitNotFound
  | unexpectedValidators
  | unknownValidators
  | needValidators
  | wrongValidatorsHash
  | needNextValidators
  | wrongNextValidatorsHash
  | missingCommit
  | wrongChainID
  | heightMismatch
  | wrongHash
  | heightTooLow
  | commit (err : CommitError)
  /-- Any other error of a provider. -/
  | other (code : ℕ)
deriving DecidableEq

section Checks

variable (env : ChainEnv) (chainID : Bytes)

def SignedHeader.validateBasic (sh : SignedHeader) : Option LiteError :=
  match sh.commit with
  | none => some .missingCommit
  | some c =>
    if sh.header.chainID ≠ chainID then some .wrongChainID
    else if c.height ≠ sh.header.height then some .heightMismatch
    else if sh.header.hash env.amino ≠ c.blockID.hash then some .wrongHash
    else c.validateBasic.map .commit

/-- `VerifyCommit` for the commit of a signed header. -/
def SignedHeader.verifyCommit (chainID : Bytes) (vals : List Validator) (sh : SignedHeader) :
    Option LiteError :=
  match sh.commit with
  | none => some .missingCommit
  | some c =>
    let err := Consensus.verifyCommit (electorate env chainID vals) c.blockID sh.header.height c
    err.map .commit

def FullCommit.validateFull (fc : FullCommit) : Option LiteError :=
  if fc.validators.length = 0 then some .needValidators
  else if fc.signedHeader.header.validatorsHash ≠ validatorSetHash env.amino fc.validators then
    some .wrongValidatorsHash
  else if fc.nextValidators.length = 0 then some .needNextValidators
  else if fc.signedHeader.header.nextValidatorsHash ≠
      validatorSetHash env.amino fc.nextValidators then some .wrongNextValidatorsHash
  else
    match fc.signedHeader.validateBasic env chainID with
    | some err => some err
    | none =>
      fc.signedHeader.verifyCommit env fc.signedHeader.header.chainID fc.validators

/-- `sort.Search`, with the rounds of its loop counted down. -/
def sortSearch (f : ℕ → Bool) : ℕ → ℕ → ℕ → ℕ
  | 0, i, _ => i
  | fuel + 1, i, j =>
    if i < j then
      let h := (i + j) / 2
      if !f h then sortSearch f fuel (h + 1) j else sortSearch f fuel i h
    else i

/-- `ValidatorSet.GetByAddress`. The hash of a set does not cover the addresses. -/
def getByAddress (vals : List Validator) (address : Bytes) : Option (ℕ × Validator) :=
  let idx := sortSearch (fun i => vals[i]?.any fun v => address ≤ v.address) vals.length 0
    vals.length
  (vals[idx]?).bind fun v => if v.address = address then some (idx, v) else none

/-- The loop of `VerifyFutureCommit`, with the old validators seen and their power. -/
def tallyOld (old : List Validator) (blockID : BlockID) (height round : ℤ) :
    List (Option Vote) → List ℕ → ℕ → Except CommitError ℕ
  | [], _, power => .ok power
  | none :: rest, seen, power => tallyOld old blockID height round rest seen power
  | some v :: rest, seen, power =>
    if v.height ≠ height then .error .wrongPrecommitHeight
    else if v.round ≠ round then .error .wrongPrecommitRound
    else if v.type ≠ .precommit then .error .notPrecommit
    else
      match getByAddress old v.validatorAddress with
      | none => tallyOld old blockID height round rest seen power
      | some (idx, val) =>
        if idx ∈ seen then tallyOld old blockID height round rest seen power
        else if !env.verifyBytes val.pubKey (canonicalizeVote chainID v) v.signature then
          .error .invalidSignature
        else tallyOld old blockID height round rest (idx :: seen)
          (if v.blockID = blockID then power + val.votingPower else power)

/-- `ValidatorSet.VerifyFutureCommit` of the old set. -/
def verifyFutureCommit (old new : List Validator) (blockID : BlockID) (height : ℤ) (c : Commit) :
    Option CommitError :=
  match verifyCommit (electorate env chainID new) blockID height c with
  | some err => some err
  | none =>
    match tallyOld env chainID old blockID height c.round c.precommits [] 0 with
    | .error err => some err
    | .ok power =>
      let total := (electorate env chainID old).totalVotingPower
      if power ≤ total * 2 / 3 then some (.tooMuchChange power (total * 2 / 3 + 1)) else none

/-- `BaseVerifier.Verify`. -/
def baseVerify (height : ℤ) (vals : List Validator) (sh : SignedHeader) : Option LiteError :=
  if sh.header.chainID ≠ chainID then some .wrongChainID
  else if sh.header.height < height then some .heightTooLow
  else if sh.header.validatorsHash ≠ validatorSetHash env.amino vals then
    some .unexpectedValidators
  else
    match sh.validateBasic env chainID with
    | some err => some err
    | none => sh.verifyCommit env chainID vals

end Checks

/-- A trusted store. `HoldsOnly P`: the next validators of every full commit it may answer with
satisfy `P` at their height. A saved full commit brings in its next validators, and its own at its
own height, where they may replace the next validators of the full commit before it. -/
structure TrustedStore where
  State : Type
  latestFullCommit : State → ℤ → ℤ → Except LiteError FullCommit
  saveFullCommit : State → FullCommit → State × Option LiteError
  HoldsOnly : (ℤ → List Validator → Prop) → State → Prop
  mono : ∀ {P Q : ℤ → List Validator → Prop} {s}, (∀ h vals, P h vals → Q h vals) →
    HoldsOnly P s → HoldsOnly Q s
  latest : ∀ {P s min max fc}, HoldsOnly P s → latestFullCommit s min max = .ok fc →
    P (fc.height + 1) fc.nextValidators
  save : ∀ {P s fc}, HoldsOnly P s → P fc.height fc.validators →
    P (fc.height + 1) fc.nextValidators → HoldsOnly P (saveFullCommit s fc).1

/-- A source that answers as it likes, when it is asked for the `n`-th time for the full commit of
a height or for a validator set. -/
structure Source where
  latestFullCommit : ℕ → ℤ → Except LiteError FullCommit
  validatorSet : ℤ → Except LiteError (List Validator)

/-- The trusted store, and how often the source was asked. -/
structure Client (T : TrustedStore) where
  store : T.State
  asked : ℕ

namespace Client

variable (env : ChainEnv) (chainID : Bytes) {T : TrustedStore} (source : Source)

/-- `SaveFullCommit`, which is logged. -/
def save (l : Client T) (fc : FullCommit) : Logged FullCommit (Client T × Option LiteError) :=
  let r := T.saveFullCommit l.store fc
  .entry fc (some ({ l with store := r.1 }, r.2))

mutual

def updateToHeight : ℕ → Client T → ℤ →
    Logged FullCommit (Client T × Except LiteError FullCommit)
  | 0, _, _ => lift none
  | fuel + 1, l, h =>
    let answer := source.latestFullCommit l.asked h
    let l := { l with asked := l.asked + 1 }
    match answer with
    | .error err => pure (l, .error err)
    | .ok sourceFC =>
      if sourceFC.height ≠ h then pure (l, .error .commitNotFound)
      else
        match sourceFC.validateFull env chainID with
        | some err => pure (l, .error err)
        | none => updateLoop fuel l h sourceFC

/-- The loop of `updateToHeight`, with `verifyAndSave`. -/
def updateLoop : ℕ → Client T → ℤ → FullCommit →
    Logged FullCommit (Client T × Except LiteError FullCommit)
  | 0, _, _, _ => lift none
  | fuel + 1, l, h, sourceFC =>
    match T.latestFullCommit l.store 1 h with
    | .error err => pure (l, .error err)
    | .ok trustedFC =>
      if trustedFC.height = h then pure (l, .ok trustedFC)
      else if sourceFC.height ≤ trustedFC.height then lift none
      else
        match sourceFC.signedHeader.commit with
        | none => lift none
        | some c =>
          match verifyFutureCommit env chainID trustedFC.nextValidators sourceFC.validators
            c.blockID sourceFC.height c with
          | none => do
              let (l, err) ← l.save sourceFC
              match err with
              | none => pure (l, .ok sourceFC)
              | some err => pure (l, .error err)
          | some (.tooMuchChange _ _) => do
              let (l, r) ← updateToHeight fuel l
                ((trustedFC.height + sourceFC.height).tdiv 2)
              match r with
              | .error err => pure (l, .error err)
              | .ok _ => updateLoop fuel l h sourceFC
          | some err => pure (l, .error (.commit err))

end

/-- The end of `Verify`, with a full commit whose next validators have the right hash. -/
def certify (l : Client T) (trustedFC : FullCommit) (shdr : SignedHeader) :
    Logged FullCommit (Client T × Option LiteError) :=
  if trustedFC.nextValidators.length = 0 then lift none
  else
    match baseVerify env chainID (trustedFC.height + 1) trustedFC.nextValidators shdr with
    | some err => pure (l, some err)
    | none =>
      match source.validatorSet (shdr.header.height + 1) with
      | .error .unknownValidators => pure (l, none)
      | .error err => pure (l, some err)
      | .ok nextValset =>
        let nfc : FullCommit := ⟨shdr, trustedFC.nextValidators, nextValset⟩
        match nfc.validateFull env chainID with
        | some err => pure (l, some err)
        | none => l.save nfc

/-- `Verify` of a signed header that is not known yet. -/
def verifyNew (fuel : ℕ) (l : Client T) (shdr : SignedHeader) :
    Logged FullCommit (Client T × Option LiteError) :=
  let prevHeight := shdr.header.height - 1
  match T.latestFullCommit l.store 1 prevHeight with
  | .error err => pure (l, some err)
  | .ok trustedFC =>
    if validatorSetHash env.amino trustedFC.nextValidators = shdr.header.validatorsHash then
      certify env chainID source l trustedFC shdr
    else if trustedFC.height = prevHeight then pure (l, some .unexpectedValidators)
    else do
      let (l, r) ← updateToHeight env chainID source fuel l prevHeight
      match r with
      | .error err => pure (l, some err)
      | .ok trustedFC =>
        if validatorSetHash env.amino trustedFC.nextValidators = shdr.header.validatorsHash then
          certify env chainID source l trustedFC shdr
        else pure (l, some .unexpectedValidators)

/-- The store has a full commit of that height with the same header hash. -/
def alreadyTrusted (s : T.State) (header : Header) : Bool :=
  match T.latestFullCommit s header.height header.height with
  | .ok fc => fc.signedHeader.header.hash env.amino = header.hash env.amino
  | .error _ => false

def verify (fuel : ℕ) (l : Client T) (shdr : SignedHeader) :
    Logged FullCommit (Client T × Option LiteError) :=
  match T.latestFullCommit l.store shdr.header.height shdr.header.height with
  | .ok fc =>
    if fc.signedHeader.header.hash env.amino = shdr.header.hash env.amino then pure (l, none)
    else verifyNew env chainID source fuel l shdr
  | .error .commitNotFound => verifyNew env chainID source fuel l shdr
  | .error err => pure (l, some err)

end Client

end ShardingBC.Consensus
