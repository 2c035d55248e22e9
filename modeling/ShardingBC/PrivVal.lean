import ShardingBC.Votes
import Mathlib.Data.Prod.Lex

/-!
# The private validator

`FilePV` keeps the height, round and step of its last signature in a file and refuses to sign
anything older, or anything else at the same place. A process may crash between any two steps of a
call and starts again from the file. Its history is the list of byte strings it gave a signature
for.
-/
namespace ShardingBC.Consensus

open List Option

def stepNone : ℕ := 0
def stepPropose : ℕ := 1
def stepPrevote : ℕ := 2
def stepPrecommit : ℕ := 3

/-- `voteToStep`; `none` is the panic on an unknown type. -/
def voteToStep : SignedMsgType → Option ℕ
  | .prevote => some stepPrevote
  | .precommit => some stepPrecommit
  | _ => none

/-- Height, round and step, in the order in which they are compared. -/
abbrev HRS := ℤ ×ₗ ℤ ×ₗ ℕ

def hrsOf (height round : ℤ) (step : ℕ) : HRS := toLex (height, toLex (round, step))

/-- What a validator signs: a canonical vote or a canonical proposal. -/
inductive SignMsg where
  | vote (v : CanonicalVote)
  | proposal (p : CanonicalProposal)

namespace SignMsg

def chainID : SignMsg → Bytes
  | vote v => v.chainID
  | proposal p => p.chainID

def hrs : SignMsg → Option HRS
  | vote v => (voteToStep v.type).map (hrsOf v.height v.round)
  | proposal p => some (hrsOf p.height p.round stepPropose)

/-- The message without its timestamp. -/
def untimed : SignMsg → SignMsg
  | vote v => vote { v with timestamp := 0 }
  | proposal p => proposal { p with timestamp := 0 }

end SignMsg

/-- The amino codec. `MarshalBinaryLengthPrefixed` may fail, which is a panic of `SignBytes`; a
byte string encodes at most one vote or proposal, whose first field is the type of the message. -/
structure SignCodec where
  marshal : SignMsg → Option Bytes
  unmarshalVote : Bytes → Option CanonicalVote
  unmarshalProposal : Bytes → Option CanonicalProposal
  marshalJSON : CanonicalVote → Bytes
  marshal_inj : ∀ m m' bz, m.hrs.isSome → m'.hrs.isSome →
    marshal m = some bz → marshal m' = some bz → m = m'

/-- `FilePVLastSignState`; the file holds the same record. -/
structure LastSignState where
  height : ℤ
  round : ℤ
  step : ℕ
  signature : Option Bytes
  signBytes : Option Bytes
deriving DecidableEq

inductive SignError where
  | heightRegression (got last : ℤ)
  | roundRegression (height got last : ℤ)
  | stepRegression (height round : ℤ) (got last : ℕ)
  | noSignBytes
  | conflictingData
  | signFailed

namespace LastSignState

def hrs (lss : LastSignState) : HRS := hrsOf lss.height lss.round lss.step

/-- The state `GenFilePV` starts with. -/
def fresh : LastSignState := ⟨0, 0, stepNone, none, none⟩

/-- `CheckHRS`: whether the last signature is to be reused. The outer `none` is the panic for sign
bytes without a signature. -/
def checkHRS (lss : LastSignState) (height round : ℤ) (step : ℕ) :
    Option (Except SignError Bool) :=
  if lss.height > height then some (.error (.heightRegression height lss.height))
  else if lss.height = height then
    if lss.round > round then some (.error (.roundRegression height round lss.round))
    else if lss.round = round then
      if lss.step > step then some (.error (.stepRegression height round step lss.step))
      else if lss.step = step then
        if lss.signBytes ≠ none then
          if lss.signature = none then none else some (.ok true)
        else some (.error .noSignBytes)
      else some (.ok false)
    else some (.ok false)
  else some (.ok false)

/-- What `Save` writes: both byte fields are tagged `omitempty`. -/
def persisted (lss : LastSignState) : LastSignState :=
  { lss with
    signature := if lss.signature = some [] then none else lss.signature
    signBytes := if lss.signBytes = some [] then none else lss.signBytes }

end LastSignState

/-- The request with its signature, from the last sign state or new; a new one is saved before it
is given out. -/
inductive Answer (α : Type) where
  | panics
  | fails (e : SignError)
  | reuses (a : α)
  | signs (lss : LastSignState) (signBytes : Bytes) (a : α)

section Signing

variable (codec : SignCodec) (sign : Bytes → Option Bytes)

/-- `checkVotesOnlyDifferByTimestamp`: the time of the last vote, if nothing else is different. The
outer `none` is the panic when the bytes do not parse. -/
def checkVotesOnlyDifferByTimestamp (now : ℤ) (lastSignBytes newSignBytes : Bytes) :
    Option (Option ℤ) := do
  let lastVote ← codec.unmarshalVote lastSignBytes
  let newVote ← codec.unmarshalVote newSignBytes
  if codec.marshalJSON { newVote with timestamp := now } =
      codec.marshalJSON { lastVote with timestamp := now } then
    some (some lastVote.timestamp)
  else some none

/-- `checkProposalsOnlyDifferByTimestamp`, which compares the binary encodings. -/
def checkProposalsOnlyDifferByTimestamp (now : ℤ) (lastSignBytes newSignBytes : Bytes) :
    Option (Option ℤ) := do
  let lastProposal ← codec.unmarshalProposal lastSignBytes
  let newProposal ← codec.unmarshalProposal newSignBytes
  if codec.marshal (.proposal { newProposal with timestamp := now }) =
      codec.marshal (.proposal { lastProposal with timestamp := now }) then
    some (some lastProposal.timestamp)
  else some none

/-- The body of `signVote` and `signProposal`. The request is finished with the signature and, if
that is the last one, with its time. -/
def signMessage {α : Type} (lss : LastSignState) (height round : ℤ) (step : ℕ)
    (signBytes : Option Bytes) (onlyDiffer : Bytes → Bytes → Option (Option ℤ))
    (finish : Option ℤ → Bytes → α) : Answer α :=
  match lss.checkHRS height round step with
  | none => .panics
  | some (.error e) => .fails e
  | some (.ok sameHRS) =>
    match signBytes with
    | none => .panics
    | some bz =>
      let last := lss.signBytes.getD []
      let sig := lss.signature.getD []
      if sameHRS then
        if bz = last then .reuses (finish none sig)
        else
          match onlyDiffer last bz with
          | none => .panics
          | some (some timestamp) => .reuses (finish (some timestamp) sig)
          | some none => .fails .conflictingData
      else
        match sign bz with
        | none => .fails .signFailed
        | some sig => .signs ⟨height, round, step, some sig, some bz⟩ bz (finish none sig)

def signVote (now : ℤ) (lss : LastSignState) (chainID : Bytes) (vote : Vote) : Answer Vote :=
  match voteToStep vote.type with
  | none => .panics
  | some step =>
    signMessage sign lss vote.height vote.round step
      (codec.marshal (.vote (canonicalizeVote chainID vote)))
      (checkVotesOnlyDifferByTimestamp codec now)
      fun timestamp sig =>
        { vote with timestamp := timestamp.getD vote.timestamp, signature := sig }

def signProposal (now : ℤ) (lss : LastSignState) (chainID : Bytes) (proposal : Proposal) :
    Answer Proposal :=
  signMessage sign lss proposal.height proposal.round stepPropose
    (codec.marshal (.proposal (canonicalizeProposal chainID proposal)))
    (checkProposalsOnlyDifferByTimestamp codec now)
    fun timestamp sig =>
      { proposal with timestamp := timestamp.getD proposal.timestamp, signature := sig }

/-- `FilePV.SigCrossMerkleRoot`: the vote with the shares set, `none` after a nil dereference, and
the byte strings it has signed by then. -/
def sigCrossMerkleRoot (merkleRoot blockhash : Bytes) (vote : Vote) : Option Vote × List Bytes :=
  match sign blockhash with
  | none => (some vote, [])
  | some signature =>
    match vote.partBlockSig with
    | none => (none, [])
    | some part =>
      let vote := { vote with partBlockSig := some { part with peerCrossSig := signature } }
      match sign merkleRoot with
      | none => (some vote, [blockhash])
      | some signature =>
        match vote.partSig with
        | none => (none, [blockhash])
        | some part =>
          (some { vote with partSig := some { part with peerCrossSig := signature } },
            [merkleRoot, blockhash])

/-- A process with its last sign state (`none` while it is down), the state in
its file and the byte strings it has released a signature for. -/
structure Signer where
  memory : Option LastSignState
  file : LastSignState
  released : List Bytes

/-- How far a call gets in `saveSigned`. -/
inductive Saving where
  | completes
  | writeFails
  | crashesAfterWrite

inductive Call where
  | signVote (now : ℤ) (chainID : Bytes) (vote : Vote) (saving : Saving)
  | signProposal (now : ℤ) (chainID : Bytes) (proposal : Proposal) (saving : Saving)
  | sigCrossMerkleRoot (merkleRoot blockhash : Bytes) (vote : Vote)
  | reload

namespace Signer

/-- A new validator, after `GenFilePV` and `Save`. -/
def fresh : Signer := ⟨some .fresh, .fresh, []⟩

/-- The process after an answer. A reused signature is the one on the last sign bytes. -/
def take {α : Type} (s : Signer) (lss : LastSignState) (saving : Saving) : Answer α → Signer
  | .panics => { s with memory := none }
  | .fails _ => s
  | .reuses _ => { s with released := lss.signBytes.getD [] :: s.released }
  | .signs lss' bz _ =>
    match saving with
    | .completes => ⟨some lss', lss'.persisted, bz :: s.released⟩
    | .writeFails => { s with memory := none }
    | .crashesAfterWrite => { s with memory := none, file := lss'.persisted }

def step (s : Signer) : Call → Signer
  | .reload => { s with memory := some s.file }
  | .signVote now chainID vote saving =>
    match s.memory with
    | none => s
    | some lss => s.take lss saving (Consensus.signVote codec sign now lss chainID vote)
  | .signProposal now chainID proposal saving =>
    match s.memory with
    | none => s
    | some lss => s.take lss saving (Consensus.signProposal codec sign now lss chainID proposal)
  | .sigCrossMerkleRoot merkleRoot blockhash vote =>
    match s.memory with
    | none => s
    | some lss =>
      let r := Consensus.sigCrossMerkleRoot sign merkleRoot blockhash vote
      ⟨r.1.map fun _ => lss, s.file, r.2 ++ s.released⟩

end Signer

end Signing

/-- The byte string is the sign bytes of the message, which is one of the chain for that height,
round and step. -/
structure SignsFor (codec : SignCodec) (chainID : Bytes) (m : SignMsg) (k : HRS) (bz : Bytes) :
    Prop where
  marshal : codec.marshal m = some bz
  chain : m.chainID = chainID
  hrs : m.hrs = some k

/-- No two released byte strings are messages of the chain for one height, round
and step that differ in more than the time. -/
def NeverEquivocates (codec : SignCodec) (chainID : Bytes) (released : List Bytes) : Prop :=
  ∀ bz ∈ released, ∀ bz' ∈ released, ∀ m m' k,
    SignsFor codec chainID m k bz → SignsFor codec chainID m' k bz' → m.untimed = m'.untimed

/-- A root or hash that is handed in for a share is no sign bytes of the chain. -/
def Call.NotSignBytes (codec : SignCodec) (chainID : Bytes) : Call → Prop
  | .sigCrossMerkleRoot merkleRoot blockhash _ =>
    ∀ m k, ¬ SignsFor codec chainID m k merkleRoot ∧ ¬ SignsFor codec chainID m k blockhash
  | _ => True

variable {codec : SignCodec} {sign : Bytes → Option Bytes} {chainID : Bytes}

lemma SignsFor.unique {c c' : Bytes} {m m' : SignMsg} {k k' : HRS} {bz : Bytes}
    (h : SignsFor codec c m k bz) (h' : SignsFor codec c' m' k' bz) : k = k' := by
  obtain rfl := codec.marshal_inj m m' bz (by simp [h.hrs]) (by simp [h'.hrs]) h.marshal h'.marshal
  exact some.inj (h.hrs.symm.trans h'.hrs)

lemma hrsOf_lt_hrsOf {h h' r r' : ℤ} {s s' : ℕ} :
    hrsOf h r s < hrsOf h' r' s' ↔ h < h' ∨ h = h' ∧ (r < r' ∨ r = r' ∧ s < s') := by
  simp only [hrsOf, Prod.Lex.toLex_lt_toLex]

/-- `CheckHRS` asks for a new signature only beyond the last one, and for the
last one only at its own place. -/
lemma checkHRS_ok {lss : LastSignState} {height round : ℤ} {step : ℕ} {same : Bool}
    (h : lss.checkHRS height round step = some (.ok same)) :
    if same then lss.hrs = hrsOf height round step ∧ lss.signBytes ≠ none
    else lss.hrs < hrsOf height round step := by
  unfold LastSignState.checkHRS at h
  split_ifs at h with h1 h2 h3 h4 h5 h6 h7
  all_goals cases h
  all_goals simp only [LastSignState.hrs, hrsOf_lt_hrsOf, ↓reduceIte, Bool.false_eq_true]
  · exact ⟨by rw [h2, h4, h6], h7⟩
  all_goals omega

/-- A released signature is the last one at its own place, or a new one beyond it. -/
def Answer.Justified {α : Type} (codec : SignCodec) (lss : LastSignState) : Answer α → Prop
  | .panics | .fails _ => True
  | .reuses _ => lss.signBytes ≠ none
  | .signs lss' bz _ => lss.hrs < lss'.hrs ∧ lss'.signBytes = some bz ∧
      ∃ c m, SignsFor codec c m lss'.hrs bz

lemma signMessage_justified {α : Type} {lss : LastSignState} {height round : ℤ} {step : ℕ}
    {signBytes : Option Bytes} (onlyDiffer : Bytes → Bytes → Option (Option ℤ))
    (finish : Option ℤ → Bytes → α)
    (hmsg : ∀ bz, signBytes = some bz →
      ∃ c m, SignsFor codec c m (hrsOf height round step) bz) :
    (signMessage sign lss height round step signBytes onlyDiffer finish).Justified codec lss := by
  unfold signMessage
  split
  · exact trivial
  · exact trivial
  · rename_i same hcheck
    have hok := checkHRS_ok hcheck
    split
    · exact trivial
    · rename_i bz
      cases same with
      | true =>
        simp only [↓reduceIte] at hok ⊢
        split
        · exact hok.2
        · split
          · exact trivial
          · exact hok.2
          · exact trivial
      | false =>
        simp only [Bool.false_eq_true, ↓reduceIte] at hok ⊢
        split
        · exact trivial
        · exact ⟨hok, rfl, hmsg bz rfl⟩

lemma signVote_justified (now : ℤ) (lss : LastSignState) (c : Bytes) (vote : Vote) :
    (signVote codec sign now lss c vote).Justified codec lss := by
  unfold signVote
  split
  · exact trivial
  · rename_i step hstep
    refine signMessage_justified _ _ fun bz hbz => ?_
    refine ⟨c, .vote (canonicalizeVote c vote), hbz, rfl, ?_⟩
    simp only [SignMsg.hrs, canonicalizeVote, hstep, map_some]

lemma mem_sigCrossMerkleRoot {merkleRoot blockhash bz : Bytes} {vote : Vote}
    (h : bz ∈ (sigCrossMerkleRoot sign merkleRoot blockhash vote).2) :
    bz = merkleRoot ∨ bz = blockhash := by
  unfold sigCrossMerkleRoot at h
  split at h
  · cases h
  · split at h
    · cases h
    · dsimp only at h
      split at h
      · exact .inr (mem_singleton.mp h)
      · split at h
        · exact .inr (mem_singleton.mp h)
        · simpa using h

/-- What was signed lies before the sign state, or is what it holds at its own place. -/
structure Guards (codec : SignCodec) (chainID : Bytes) (released : List Bytes)
    (lss : LastSignState) : Prop where
  before : ∀ bz ∈ released, ∀ m k, SignsFor codec chainID m k bz →
    k < lss.hrs ∨ k = lss.hrs ∧ (lss.signBytes = some bz ∨ lss.signBytes = none)
  own : ∀ bz, lss.signBytes = some bz → ∃ c m, SignsFor codec c m lss.hrs bz

variable {released : List Bytes} {lss lss' : LastSignState} {bz : Bytes} {s : Signer}

lemma Guards.persisted (h : Guards codec chainID released lss) :
    Guards codec chainID released lss.persisted := by
  constructor
  · intro bz hbz m k hm
    refine (h.before bz hbz m k hm).imp_right fun ⟨hk, hlast⟩ => ⟨hk, ?_⟩
    simp only [LastSignState.persisted]
    split_ifs
    · exact .inr rfl
    · exact hlast
  · intro bz hbz
    simp only [LastSignState.persisted] at hbz
    split_ifs at hbz
    exact h.own bz hbz

lemma Guards.advance (h : Guards codec chainID released lss) (hlt : lss.hrs < lss'.hrs)
    (hown : ∀ bz, lss'.signBytes = some bz → ∃ c m, SignsFor codec c m lss'.hrs bz) :
    Guards codec chainID released lss' := by
  refine ⟨fun bz hbz m k hm => .inl ?_, hown⟩
  rcases h.before bz hbz m k hm with hk | ⟨rfl, -⟩
  · exact hk.trans hlt
  · exact hlt

/-- The sign bytes a state holds may be released once more. -/
lemma Guards.release (h : Guards codec chainID released lss) (hlast : lss.signBytes = some bz) :
    Guards codec chainID (bz :: released) lss := by
  refine ⟨fun bz' hbz' m k hm => ?_, h.own⟩
  rcases mem_cons.mp hbz' with rfl | hold
  · obtain ⟨c, m', hm'⟩ := h.own _ hlast
    exact .inr ⟨hm.unique hm', .inl hlast⟩
  · exact h.before bz' hold m k hm

/-- Byte strings that are no sign bytes of the chain do not matter. -/
lemma Guards.append (h : Guards codec chainID released lss) {new : List Bytes}
    (hnew : ∀ bz ∈ new, ∀ m k, ¬ SignsFor codec chainID m k bz) :
    Guards codec chainID (new ++ released) lss := by
  refine ⟨fun bz hbz m k hm => ?_, h.own⟩
  rcases mem_append.mp hbz with hbz | hbz
  · exact absurd hm (hnew bz hbz m k)
  · exact h.before bz hbz m k hm

/-- All messages of the history for one height, round and step are the same. -/
def Unique (codec : SignCodec) (chainID : Bytes) (released : List Bytes) : Prop :=
  ∀ bz ∈ released, ∀ bz' ∈ released, ∀ m m' k,
    SignsFor codec chainID m k bz → SignsFor codec chainID m' k bz' → bz = bz'

lemma Unique.release (h : Unique codec chainID released) (hg : Guards codec chainID released lss)
    (hlast : lss.signBytes = some bz) : Unique codec chainID (bz :: released) := by
  obtain ⟨c, m₀, hm₀⟩ := hg.own bz hlast
  -- What was released for the place of the state is what it holds there.
  have hold : ∀ bz' ∈ released, ∀ m m' k, SignsFor codec chainID m k bz →
      SignsFor codec chainID m' k bz' → bz = bz' := by
    intro bz' hbz' m m' k hm hm'
    obtain rfl := hm.unique hm₀
    rcases hg.before bz' hbz' m' lss.hrs hm' with hlt | ⟨-, heq | hnone⟩
    · exact absurd hlt (lt_irrefl _)
    · exact some.inj (hlast.symm.trans heq)
    · rw [hlast] at hnone
      cases hnone
  intro bz₁ h₁ bz₂ h₂ m m' k hm hm'
  rcases mem_cons.mp h₁ with rfl | hold₁ <;> rcases mem_cons.mp h₂ with rfl | hold₂
  · rfl
  · exact hold bz₂ hold₂ m m' k hm hm'
  · exact (hold bz₁ hold₁ m' m k hm' hm).symm
  · exact h bz₁ hold₁ bz₂ hold₂ m m' k hm hm'

lemma Unique.append (h : Unique codec chainID released) {new : List Bytes}
    (hnew : ∀ bz ∈ new, ∀ m k, ¬ SignsFor codec chainID m k bz) :
    Unique codec chainID (new ++ released) := by
  intro bz₁ h₁ bz₂ h₂ m m' k hm hm'
  rcases mem_append.mp h₁ with h₁ | h₁
  · exact absurd hm (hnew bz₁ h₁ m k)
  · rcases mem_append.mp h₂ with h₂ | h₂
    · exact absurd hm' (hnew bz₂ h₂ m' k)
    · exact h bz₁ h₁ bz₂ h₂ m m' k hm hm'

/-- The history is unique and guarded by the file and by a running process, which agree. -/
structure SignerInv (codec : SignCodec) (chainID : Bytes) (s : Signer) : Prop where
  unique : Unique codec chainID s.released
  file : Guards codec chainID s.released s.file
  saved : s.file.persisted = s.file
  memory : ∀ lss, s.memory = some lss →
    Guards codec chainID s.released lss ∧ lss.persisted = s.file

lemma signerInv_fresh : SignerInv codec chainID .fresh := by
  have hguards : Guards codec chainID [] .fresh := ⟨by simp, by simp [LastSignState.fresh]⟩
  refine ⟨by simp [Unique, Signer.fresh], hguards, rfl, ?_⟩
  rintro lss ⟨⟩
  exact ⟨hguards, rfl⟩

lemma SignerInv.down (h : SignerInv codec chainID s) :
    SignerInv codec chainID { s with memory := none } :=
  ⟨h.unique, h.file, h.saved, by simp⟩

lemma SignerInv.running (hu : Unique codec chainID released)
    (hg : Guards codec chainID released lss) :
    SignerInv codec chainID ⟨some lss, lss.persisted, released⟩ := by
  have hagain : lss.persisted.persisted = lss.persisted := by
    simp only [LastSignState.persisted]
    split_ifs <;> simp_all
  refine ⟨hu, hg.persisted, hagain, ?_⟩
  rintro _ ⟨⟩
  exact ⟨hg, rfl⟩

lemma SignerInv.take {α : Type} (h : SignerInv codec chainID s) (hmem : s.memory = some lss)
    (saving : Saving) {answer : Answer α} (hj : answer.Justified codec lss) :
    SignerInv codec chainID (s.take lss saving answer) := by
  obtain ⟨hg, hfile⟩ := h.memory lss hmem
  cases answer with
  | panics => exact h.down
  | fails e => exact h
  | reuses a =>
    obtain ⟨bz, hlast⟩ := ne_none_iff_exists'.mp hj
    have hs : s = ⟨some lss, lss.persisted, s.released⟩ := by rw [hfile, ← hmem]
    rw [hs, Signer.take, hlast]
    exact .running (h.unique.release hg hlast) (hg.release hlast)
  | signs lss' bz a =>
    obtain ⟨hlt, hlast, c, m, hm⟩ := hj
    have hg' : Guards codec chainID s.released lss' := by
      refine hg.advance hlt fun bz' hbz' => ⟨c, m, ?_⟩
      rwa [← some.inj (hlast.symm.trans hbz')]
    cases saving with
    | completes => exact .running (h.unique.release hg' hlast) (hg'.release hlast)
    | writeFails => exact h.down
    | crashesAfterWrite => exact (SignerInv.running h.unique hg').down

lemma SignerInv.step (h : SignerInv codec chainID s) {call : Call}
    (hcall : call.NotSignBytes codec chainID) : SignerInv codec chainID (s.step codec sign call) := by
  cases call with
  | reload =>
    refine ⟨h.unique, h.file, h.saved, ?_⟩
    rintro _ ⟨⟩
    exact ⟨h.file, h.saved⟩
  | signVote now c vote saving =>
    cases hmem : s.memory with
    | none => simpa only [Signer.step, hmem] using h
    | some lss =>
      simp only [Signer.step, hmem]
      exact h.take hmem saving (signVote_justified now lss c vote)
  | signProposal now c proposal saving =>
    cases hmem : s.memory with
    | none => simpa only [Signer.step, hmem] using h
    | some lss =>
      simp only [Signer.step, hmem]
      exact h.take hmem saving (signMessage_justified _ _ fun _ hbz =>
        ⟨c, .proposal (canonicalizeProposal c proposal), hbz, rfl, rfl⟩)
  | sigCrossMerkleRoot merkleRoot blockhash vote =>
    cases hmem : s.memory with
    | none => simpa only [Signer.step, hmem] using h
    | some lss =>
      have hnew : ∀ bz ∈ (Consensus.sigCrossMerkleRoot sign merkleRoot blockhash vote).2,
          ∀ m k, ¬ SignsFor codec chainID m k bz := by
        intro bz hbz m k
        rcases mem_sigCrossMerkleRoot hbz with rfl | rfl
        · exact (hcall m k).1
        · exact (hcall m k).2
      simp only [Signer.step, hmem]
      refine ⟨h.unique.append hnew, h.file.append hnew, h.saved, ?_⟩
      intro lss' hlss'
      obtain ⟨_, _, rfl⟩ := map_eq_some_iff.mp hlss'
      exact (h.memory lss hmem).imp_left fun hg => hg.append hnew

/-- Whatever is asked of the validator and wherever it crashes, it never signs two
messages of the chain for one height, round and step, as long as no root or
block hash that it is given to sign is itself the sign bytes of such a message. -/
theorem neverEquivocates_of_notSignBytes (codec : SignCodec) (sign : Bytes → Option Bytes)
    (chainID : Bytes) (calls : List Call)
    (hcalls : ∀ call ∈ calls, call.NotSignBytes codec chainID) :
    NeverEquivocates codec chainID (calls.foldl (Signer.step codec sign) .fresh).released := by
  have hinv : ∀ s, SignerInv codec chainID s →
      SignerInv codec chainID (calls.foldl (Signer.step codec sign) s) := by
    induction calls with
    | nil => exact fun s hs => hs
    | cons call calls ih =>
      intro s hs
      exact ih (fun c hc => hcalls c (mem_cons_of_mem _ hc)) _
        (hs.step (hcalls call mem_cons_self))
  intro bz hbz bz' hbz' m m' k hm hm'
  obtain rfl := (hinv _ signerInv_fresh).unique bz hbz bz' hbz' m m' k hm hm'
  rw [codec.marshal_inj m m' bz (by simp [hm.hrs]) (by simp [hm'.hrs]) hm.marshal hm'.marshal]

/-! ## A codec with readable fields -/

def formatZ (i : ℤ) : Bytes := if i < 0 then 45 :: formatNat i.natAbs else formatNat i.natAbs

lemma formatZ_injective : Function.Injective formatZ := by
  have hsign : ∀ n (r : Bytes), formatNat n ≠ 45 :: r := by
    intro n r h
    have hdigit := formatNat_isDigit n 45 (by rw [h]; exact mem_cons_self)
    exact absurd hdigit (by decide)
  intro i j h
  unfold formatZ at h
  split_ifs at h with hi hj hj
  · have := formatNat_injective (cons.inj h).2
    omega
  · exact absurd h.symm (hsign _ _)
  · exact absurd h (hsign _ _)
  · have := formatNat_injective h
    omega

lemma slash_notMem_formatZ (i : ℤ) : (47 : UInt8) ∉ formatZ i := by
  have hnat : (47 : UInt8) ∉ formatNat i.natAbs := fun h =>
    absurd (formatNat_isDigit _ _ h) (by decide)
  unfold formatZ
  split_ifs
  · simpa using hnat
  · exact hnat

def typeTag : SignedMsgType → Bytes
  | .prevote => [1]
  | .precommit => [2]
  | .proposal => [32]
  | .other _ => []

def blockIDFields (b : BlockID) : List Bytes :=
  [hexUpper b.hash, formatZ b.partsHeader.total.toInt, hexUpper b.partsHeader.hash]

lemma blockIDFields_injective : Function.Injective blockIDFields := by
  rintro ⟨h, t, p⟩ ⟨h', t', p'⟩ he
  simp only [blockIDFields, cons.injEq, and_true] at he
  rw [hexUpper_injective he.1, hexUpper_injective he.2.2,
    Int64.toInt_inj.mp (formatZ_injective he.2.1)]

def signFields : SignMsg → List Bytes
  | .vote v => [typeTag v.type, formatZ v.height, formatZ v.round] ++ blockIDFields v.blockID ++
      [formatZ v.timestamp, hexUpper v.chainID]
  | .proposal p => [typeTag .proposal, formatZ p.height, formatZ p.round, formatZ p.polRound] ++
      blockIDFields p.blockID ++ [formatZ p.timestamp, hexUpper p.chainID]

lemma slash_notMem_signFields (m : SignMsg) : ∀ f ∈ signFields m, (47 : UInt8) ∉ f := by
  have htag : ∀ t, (47 : UInt8) ∉ typeTag t := by
    intro t
    cases t <;> simp [typeTag]
  cases m <;>
    simp [signFields, blockIDFields, htag, slash_notMem_formatZ, slash_notMem_hexUpper]

lemma signFields_injOn {m m' : SignMsg} (hm : m.hrs.isSome) (hm' : m'.hrs.isSome)
    (h : signFields m = signFields m') : m = m' := by
  cases m with
  | vote v =>
    cases m' with
    | vote v' =>
      obtain ⟨type, height, round, blockID, timestamp, chainID⟩ := v
      obtain ⟨type', height', round', blockID', timestamp', chainID'⟩ := v'
      have htype : typeTag type = typeTag type' := (cons.inj h).1
      simp only [signFields, blockIDFields, cons_append, nil_append, cons.injEq,
        and_true] at h
      obtain ⟨-, hh, hr, h1, h2, h3, ht, hc⟩ := h
      have hid : blockID = blockID' :=
        blockIDFields_injective (by simp [blockIDFields, h1, h2, h3])
      rw [formatZ_injective hh, formatZ_injective hr, formatZ_injective ht,
        hexUpper_injective hc]
      cases type <;> cases type' <;> simp_all [typeTag, SignMsg.hrs, voteToStep]
    | proposal p => simp [signFields, blockIDFields] at h
  | proposal p =>
    cases m' with
    | vote v' => simp [signFields, blockIDFields] at h
    | proposal p' =>
      obtain ⟨height, round, polRound, blockID, timestamp, chainID⟩ := p
      obtain ⟨height', round', polRound', blockID', timestamp', chainID'⟩ := p'
      simp only [signFields, blockIDFields, cons_append, nil_append, cons.injEq,
        and_true] at h
      obtain ⟨-, hh, hr, hp, h1, h2, h3, ht, hc⟩ := h
      have hid : blockID = blockID' :=
        blockIDFields_injective (by simp [blockIDFields, h1, h2, h3])
      rw [formatZ_injective hh, formatZ_injective hr, formatZ_injective hp, hid,
        formatZ_injective ht, hexUpper_injective hc]

@[simp] lemma split_signFields (m : SignMsg) : split (join (signFields m) 47) 47 = signFields m :=
  splitOn_intercalate 47 (slash_notMem_signFields m) (by cases m <;> simp [signFields])

def parseBlockID (hash total partsHash : Bytes) : Option BlockID := do
  let hash ← hexDecode hash
  let partsHash ← hexDecode partsHash
  some ⟨hash, (atoi total).1, partsHash⟩

def parseVote (bz : Bytes) : Option CanonicalVote :=
  match split bz 47 with
  | [tag, height, round, hash, total, partsHash, timestamp, chainID] => do
      let type ← if tag = [1] then some .prevote else if tag = [2] then some .precommit else none
      let blockID ← parseBlockID hash total partsHash
      let chainID ← hexDecode chainID
      some ⟨type, (atoi height).1.toInt, (atoi round).1.toInt, blockID, (atoi timestamp).1.toInt,
        chainID⟩
  | _ => none

def parseProposal (bz : Bytes) : Option CanonicalProposal :=
  match split bz 47 with
  | [_, height, round, polRound, hash, total, partsHash, timestamp, chainID] => do
      let blockID ← parseBlockID hash total partsHash
      let chainID ← hexDecode chainID
      some ⟨(atoi height).1.toInt, (atoi round).1.toInt, (atoi polRound).1.toInt, blockID,
        (atoi timestamp).1.toInt, chainID⟩
  | _ => none

/-- The fields in the order of the source, the type first. -/
def fieldCodec : SignCodec where
  marshal m := some (join (signFields m) 47)
  unmarshalVote := parseVote
  unmarshalProposal := parseProposal
  marshalJSON v := join (signFields (.vote v)) 47
  marshal_inj m m' bz hm hm' h h' := by
    refine signFields_injOn hm hm' ?_
    rw [← split_signFields m, ← split_signFields m', Option.some.inj (h.trans h'.symm)]

lemma slash_mem_of_signsFor {m : SignMsg} {k : HRS} (h : SignsFor fieldCodec chainID m k bz) :
    (47 : UInt8) ∈ bz := by
  have hm : join (signFields m) 47 = bz := some.inj h.marshal
  rw [← hm]
  cases m <;> simp [signFields, join_cons]

/-- The prevote of a validator for a block, at height 1 and round 0. -/
def prevoteFor (hash : Bytes) : Vote where
  type := .prevote
  height := 1
  round := 0
  blockID := ⟨hash, 1, hash⟩
  timestamp := 5
  validatorAddress := [1]
  validatorIndex := 0
  signature := []
  partSig := some ⟨[], 1⟩
  partBlockSig := some ⟨[], 1⟩

/-- A key that signs everything but the empty message. -/
def plainSign (msg : Bytes) : Option Bytes := if msg = [] then none else some (9 :: msg)

/-- A prevote with its shares, a crash and two more requests for the same place:
the same vote at a later time and a vote for another block. -/
def crashAndRetry : List Call :=
  [.sigCrossMerkleRoot [7, 7] [8, 8] (prevoteFor [8, 8]),
    .signVote 0 (lit "A") (prevoteFor [8, 8]) .completes, .reload,
    .signVote 0 (lit "A") { prevoteFor [8, 8] with timestamp := 6 } .completes,
    .signVote 0 (lit "A") (prevoteFor [9, 9]) .completes]

theorem crash_and_retry_signs_once :
    (crashAndRetry.foldl (Signer.step fieldCodec plainSign) .fresh).released.length = 4 ∧
    (∀ call ∈ crashAndRetry, call.NotSignBytes fieldCodec (lit "A")) ∧
    NeverEquivocates fieldCodec (lit "A")
      (crashAndRetry.foldl (Signer.step fieldCodec plainSign) .fresh).released := by
  have hcalls : ∀ call ∈ crashAndRetry, call.NotSignBytes fieldCodec (lit "A") := by
    simp only [crashAndRetry, mem_cons, not_mem_nil, or_false, forall_eq_or_imp,
      forall_eq, Call.NotSignBytes, and_true]
    refine fun m k => ⟨fun h => ?_, fun h => ?_⟩
    · exact absurd (slash_mem_of_signsFor h) (by decide)
    · exact absurd (slash_mem_of_signsFor h) (by decide)
  exact ⟨by decide +kernel, hcalls,
    neverEquivocates_of_notSignBytes fieldCodec plainSign (lit "A") crashAndRetry hcalls⟩

/-- The prevoted block has the sign bytes of a prevote for another block as its
`CrossMerkleRoot`. -/
def prevoteWithForeignRoot : List Call :=
  [.sigCrossMerkleRoot
      (join (signFields (.vote (canonicalizeVote (lit "A") (prevoteFor [9, 9])))) 47) [8, 8]
      (prevoteFor [8, 8]),
    .signVote 0 (lit "A") (prevoteFor [8, 8]) .completes]

theorem foreign_root_equivocates :
    ¬ NeverEquivocates fieldCodec (lit "A")
      (prevoteWithForeignRoot.foldl (Signer.step fieldCodec plainSign) .fresh).released := by
  intro h
  have hsigned : ∀ hash, SignsFor fieldCodec (lit "A")
      (.vote (canonicalizeVote (lit "A") (prevoteFor hash))) (hrsOf 1 0 stepPrevote)
      (join (signFields (.vote (canonicalizeVote (lit "A") (prevoteFor hash)))) 47) :=
    fun hash => ⟨rfl, rfl, rfl⟩
  have huntimed := h _ (by decide +kernel) _ (by decide +kernel) _ _ _
    (hsigned [8, 8]) (hsigned [9, 9])
  exact absurd (SignMsg.vote.inj huntimed) (by decide)

end ShardingBC.Consensus
