import ShardingBC.Agreement
import ShardingBC.Commits
import ShardingBC.LightStore

/-!
# What the light client trusts

Trust goes from a validator set to the sets of a full commit that more than two thirds of its power
signed. All sets that a trusted store answers with are reached so from those it began with, and with
them every signed header the verifier accepts; of a header that is in the store it does not look at
the commit.
-/
namespace ShardingBC.Consensus

open List LockedVoting Option

section Trust

variable (env : ChainEnv) (chainID : Bytes)

/-- The vote is a precommit for the block that the validator signed. -/
def Vote.SignedBy (blockID : BlockID) (height round : ℤ) (v : Vote) (val : Validator) : Prop :=
  (v.type = .precommit ∧ v.height = height ∧ v.round = round ∧ v.blockID = blockID) ∧
    env.verifyBytes val.pubKey (canonicalizeVote chainID v) v.signature = true

/-- The validator signed a precommit for the block of the commit. -/
def Commit.HasSigned (c : Commit) (height : ℤ) (val : Validator) : Prop :=
  ∃ v, some v ∈ c.precommits ∧ v.SignedBy env chainID c.blockID height c.round val

/-- More than two thirds of the validators signed the commit, which is for this header. -/
def SignedHeader.HasQuorumOf (vals : List Validator) (sh : SignedHeader) : Prop :=
  ∃ c, sh.commit = some c ∧ c.blockID.hash = sh.header.hash env.amino ∧
    Quorate (electorate env chainID vals).power fun i =>
      c.HasSigned env chainID sh.header.height (vals.get i)

/-- A full commit, valid in itself and signed by the validators of a height up to its own, leads to
its validators and the next ones. -/
def Extends (a b : ℤ × List Validator) : Prop :=
  ∃ fc : FullCommit, fc.validateFull env chainID = none ∧
    fc.signedHeader.HasQuorumOf env chainID a.2 ∧ a.1 ≤ fc.height ∧
    (b = (fc.height, fc.validators) ∨ b = (fc.height + 1, fc.nextValidators))

/-- A chain of full commits leads to the validators from genuine ones. -/
def Reached (genuine : ℤ → List Validator → Prop) (height : ℤ) (vals : List Validator) : Prop :=
  ∃ origin : ℤ × List Validator, genuine origin.1 origin.2 ∧
    Relation.ReflTransGen (Extends env chainID) origin (height, vals)

/-- The header names validators that are reached, and they signed it. -/
def SignedHeader.Sound (genuine : ℤ → List Validator → Prop) (sh : SignedHeader) : Prop :=
  ∃ height vals, Reached env chainID genuine height vals ∧ height ≤ sh.header.height ∧
    sh.header.validatorsHash = validatorSetHash env.amino vals ∧
    sh.HasQuorumOf env chainID vals

end Trust

variable {env : ChainEnv} {chainID : Bytes} {genuine : ℤ → List Validator → Prop}

lemma Reached.extend {a b : ℤ × List Validator} (h : Reached env chainID genuine a.1 a.2)
    (hab : Extends env chainID a b) : Reached env chainID genuine b.1 b.2 := by
  obtain ⟨origin, horigin, hpath⟩ := h
  exact ⟨origin, horigin, hpath.tail hab⟩

section Checks

variable {vals old new : List Validator} {sh : SignedHeader} {fc : FullCommit} {c : Commit}

lemma SignedHeader.validateBasic_eq_none (h : sh.validateBasic env chainID = none) :
    sh.header.chainID = chainID ∧
      ∃ c, sh.commit = some c ∧ c.blockID.hash = sh.header.hash env.amino := by
  unfold SignedHeader.validateBasic at h
  split at h
  · cases h
  · rename_i c hc
    split_ifs at h with hchain hheight hhash
    exact ⟨not_not.mp hchain, c, hc, (not_not.mp hhash).symm⟩

lemma SignedHeader.hasQuorumOf_of_verifyCommit (hbasic : sh.validateBasic env chainID = none)
    (h : sh.verifyCommit env chainID vals = none) : sh.HasQuorumOf env chainID vals := by
  obtain ⟨-, c, hc, hhash⟩ := sh.validateBasic_eq_none hbasic
  simp only [SignedHeader.verifyCommit, hc, map_eq_none_iff] at h
  refine ⟨c, hc, hhash, (quorate_of_verifyCommit h).mono ?_⟩
  rintro i ⟨v, hv, hdata, hsig⟩
  exact ⟨v, mem_of_getElem? hv, hdata, hsig⟩

lemma FullCommit.validateFull_eq_none (h : fc.validateFull env chainID = none) :
    fc.signedHeader.header.validatorsHash = validatorSetHash env.amino fc.validators ∧
      fc.signedHeader.HasQuorumOf env chainID fc.validators := by
  unfold FullCommit.validateFull at h
  split_ifs at h with hsize hhash hnextSize hnextHash
  split at h
  · cases h
  · rename_i hbasic
    have hchain := (fc.signedHeader.validateBasic_eq_none hbasic).1
    rw [hchain] at h
    exact ⟨not_not.mp hhash, fc.signedHeader.hasQuorumOf_of_verifyCommit hbasic h⟩

lemma baseVerify_eq_none {height : ℤ} (h : baseVerify env chainID height vals sh = none) :
    height ≤ sh.header.height ∧ sh.header.validatorsHash = validatorSetHash env.amino vals ∧
      sh.HasQuorumOf env chainID vals := by
  unfold baseVerify at h
  split_ifs at h with hchain hheight hhash
  split at h
  · cases h
  · rename_i hbasic
    exact ⟨not_lt.mp hheight, not_not.mp hhash, sh.hasQuorumOf_of_verifyCommit hbasic h⟩

section Tally

variable {blockID : BlockID} {height round : ℤ} {rest : List (Option Vote)} {seen : List ℕ}
  {power total : ℕ}

lemma tallyOld_some {v : Vote}
    (h : tallyOld env chainID old blockID height round (some v :: rest) seen power = .ok total) :
    tallyOld env chainID old blockID height round rest seen power = .ok total ∨
      ∃ i : (electorate env chainID old).Index, (i : ℕ) ∉ seen ∧
        (v.blockID = blockID → v.SignedBy env chainID blockID height round (old.get i)) ∧
        tallyOld env chainID old blockID height round rest (i :: seen)
          (if v.blockID = blockID then power + (old.get i).votingPower else power) =
            .ok total := by
  rw [tallyOld] at h
  by_cases hheight : v.height ≠ height
  · rw [if_pos hheight] at h
    cases h
  by_cases hround : v.round ≠ round
  · rw [if_neg hheight, if_pos hround] at h
    cases h
  by_cases htype : v.type ≠ .precommit
  · rw [if_neg hheight, if_neg hround, if_pos htype] at h
    cases h
  rw [if_neg hheight, if_neg hround, if_neg htype] at h
  split at h
  · exact Or.inl h
  · rename_i idx val hfound
    by_cases hseen : idx ∈ seen
    · rw [if_pos hseen] at h
      exact Or.inl h
    rw [if_neg hseen] at h
    by_cases hsig : (!env.verifyBytes val.pubKey (canonicalizeVote chainID v) v.signature) = true
    · rw [if_pos hsig] at h
      cases h
    rw [if_neg hsig] at h
    have hsig : env.verifyBytes val.pubKey (canonicalizeVote chainID v) v.signature = true := by
      simpa using hsig
    obtain ⟨w, hw, hfound⟩ := bind_eq_some_iff.mp hfound
    split_ifs at hfound
    cases hfound
    obtain ⟨hidx, rfl⟩ := List.getElem?_eq_some_iff.mp hw
    refine Or.inr ⟨⟨_, hidx⟩, hseen, fun hblock => ⟨?_, hsig⟩, h⟩
    exact ⟨not_not.mp htype, not_not.mp hheight, not_not.mp hround, hblock⟩

/-- The power counted is of old validators, each counted once, that signed a precommit. -/
lemma tallyOld_le {precommits : List (Option Vote)}
    (h : tallyOld env chainID old blockID height round precommits seen power = .ok total) :
    total ≤ power + weight (electorate env chainID old).power fun i => (i : ℕ) ∉ seen ∧
      ∃ v, some v ∈ precommits ∧ v.SignedBy env chainID blockID height round (old.get i) := by
  induction precommits generalizing seen power with
  | nil =>
    cases h
    exact Nat.le_add_right ..
  | cons p rest ih =>
    -- skipping the first precommit loses nothing that is counted later
    have hskip (h' : tallyOld env chainID old blockID height round rest seen power =
        .ok total) : total ≤ power +
        weight (electorate env chainID old).power fun i => (i : ℕ) ∉ seen ∧
          ∃ v, some v ∈ p :: rest ∧
            v.SignedBy env chainID blockID height round (old.get i) := by
      refine (ih h').trans (Nat.add_le_add_left (weight_mono fun i hi => ?_) _)
      obtain ⟨hi, v, hv, hsigned⟩ := hi
      exact ⟨hi, v, mem_cons_of_mem p hv, hsigned⟩
    cases p with
    | none =>
      exact hskip h
    | some v =>
      obtain h | ⟨j, hj, hsigned, h⟩ := tallyOld_some h
      · exact hskip h
      have htotal := ih h
      have hothers : ∀ i : (electorate env chainID old).Index, ((i : ℕ) ∉ (j : ℕ) :: seen ∧
          ∃ v, some v ∈ rest ∧ v.SignedBy env chainID blockID height round (old.get i)) →
          i ≠ j ∧ (i : ℕ) ∉ seen ∧ ∃ w, some w ∈ some v :: rest ∧
            w.SignedBy env chainID blockID height round (old.get i) := by
        rintro i ⟨hi, w, hw, hsigned⟩
        rw [mem_cons, not_or] at hi
        exact ⟨fun h => hi.1 (congrArg Fin.val h), hi.2, w, mem_cons_of_mem _ hw, hsigned⟩
      by_cases hblock : v.blockID = blockID
      · rw [if_pos hblock] at htotal
        have hcounted : (electorate env chainID old).power j + _ ≤ _ :=
          power_add_weight_le ⟨hj, v, mem_cons_self, hsigned hblock⟩ hothers
        have hpower : (electorate env chainID old).power j = (old.get j).votingPower := rfl
        omega
      · rw [if_neg hblock] at htotal
        exact htotal.trans (Nat.add_le_add_left (weight_mono fun i hi => (hothers i hi).2) _)

end Tally

lemma hasQuorumOf_of_verifyFutureCommit (hc : sh.commit = some c)
    (hhash : c.blockID.hash = sh.header.hash env.amino)
    (h : verifyFutureCommit env chainID old new c.blockID sh.header.height c = none) :
    sh.HasQuorumOf env chainID old := by
  unfold verifyFutureCommit at h
  split at h
  · cases h
  split at h
  · cases h
  · rename_i power hpower
    dsimp only at h
    split_ifs at h with hle
    have htally := tallyOld_le hpower
    refine ⟨c, hc, hhash, ?_⟩
    have hsum := (electorate env chainID old).sum_power
    have hmono : weight (electorate env chainID old).power (fun i => (i : ℕ) ∉ ([] : List ℕ) ∧
        ∃ v, some v ∈ c.precommits ∧
          v.SignedBy env chainID c.blockID sh.header.height c.round (old.get i)) ≤
        weight (electorate env chainID old).power fun i =>
          c.HasSigned env chainID sh.header.height (old.get i) := weight_mono fun i hi => hi.2
    unfold Quorate
    omega

end Checks

namespace Client

variable {T : TrustedStore} {source : Source} {l : Client T} {shdr : SignedHeader}

/-- The store answers with validators that are reached, only. -/
def Trusts (env : ChainEnv) (chainID : Bytes) (genuine : ℤ → List Validator → Prop)
    (l : Client T) : Prop :=
  T.HoldsOnly (Reached env chainID genuine) l.store

/-- The store is as before, and so is the full commit. -/
def Updated (env : ChainEnv) (chainID : Bytes) (genuine : ℤ → List Validator → Prop)
    (r : Client T × Except LiteError FullCommit) : Prop :=
  r.1.Trusts env chainID genuine ∧
    ∀ fc, r.2 = .ok fc → Reached env chainID genuine (fc.height + 1) fc.nextValidators

/-- A full commit that is signed by reached validators may be saved. -/
lemma save_ensures {post : Client T × Option LiteError → Prop} {fc : FullCommit} {height : ℤ}
    {vals : List Validator} (hl : l.Trusts env chainID genuine)
    (hvals : Reached env chainID genuine height vals) (hheight : height ≤ fc.height)
    (hvalid : fc.validateFull env chainID = none)
    (hquorum : fc.signedHeader.HasQuorumOf env chainID vals)
    (hpost : ∀ l' err, l'.Trusts env chainID genuine →
      Reached env chainID genuine (fc.height + 1) fc.nextValidators → post (l', err)) :
    Logged.Ensures (fun fc => fc.signedHeader.Sound env chainID genuine) post (l.save fc) := by
  have hown : Reached env chainID genuine fc.height fc.validators :=
    Reached.extend (a := (height, vals)) (b := (fc.height, fc.validators)) hvals
      ⟨fc, hvalid, hquorum, hheight, Or.inl rfl⟩
  have hnext : Reached env chainID genuine (fc.height + 1) fc.nextValidators :=
    Reached.extend (a := (height, vals)) (b := (fc.height + 1, fc.nextValidators)) hvals
      ⟨fc, hvalid, hquorum, hheight, Or.inr rfl⟩
  obtain ⟨hhash, hsigned⟩ := fc.validateFull_eq_none hvalid
  exact .entry ⟨fc.height, fc.validators, hown, le_rfl, hhash, hsigned⟩
    (hpost _ _ (T.save hl hown hnext) hnext)

lemma update_ensures (fuel : ℕ) (l : Client T) (h : ℤ) (hl : l.Trusts env chainID genuine) :
    Logged.Ensures (fun fc => fc.signedHeader.Sound env chainID genuine)
        (Updated env chainID genuine) (updateToHeight env chainID source fuel l h) ∧
      ∀ sourceFC : FullCommit, sourceFC.validateFull env chainID = none →
        Logged.Ensures (fun fc => fc.signedHeader.Sound env chainID genuine)
          (Updated env chainID genuine) (updateLoop env chainID source fuel l h sourceFC) := by
  induction fuel generalizing l h with
  | zero =>
    constructor
    · rw [updateToHeight]
      exact .fails
    · intro sourceFC _
      exact .fails
  | succ fuel ih =>
    constructor
    · rw [updateToHeight]
      have hasked : ({ l with asked := l.asked + 1 } : Client T).Trusts env chainID genuine := hl
      cases source.latestFullCommit l.asked h with
      | error err => exact .pure ⟨hasked, nofun⟩
      | ok sourceFC =>
        dsimp only
        split_ifs
        · exact .pure ⟨hasked, nofun⟩
        cases hvalid : sourceFC.validateFull env chainID with
        | some err => exact .pure ⟨hasked, nofun⟩
        | none => exact (ih _ h hasked).2 sourceFC hvalid
    · intro sourceFC hvalid
      rw [updateLoop]
      cases htrusted : T.latestFullCommit l.store 1 h with
      | error err => exact .pure ⟨hl, nofun⟩
      | ok trustedFC =>
        have hreached := T.latest hl htrusted
        dsimp only
        split_ifs with hheight hpanic
        · exact .pure ⟨hl, fun fc hfc => by cases hfc; exact hreached⟩
        · exact .fails
        cases hc : sourceFC.signedHeader.commit with
        | none => exact .fails
        | some c =>
          dsimp only
          split
          · rename_i hfuture
            obtain ⟨-, c', hc', hhash, -⟩ := sourceFC.validateFull_eq_none hvalid
            obtain rfl : c = c' := some.inj (hc.symm.trans hc')
            have hquorum := hasQuorumOf_of_verifyFutureCommit hc hhash hfuture
            have hsave : Logged.Ensures _ (fun r => r.1.Trusts env chainID genuine ∧
                Reached env chainID genuine (sourceFC.height + 1) sourceFC.nextValidators)
                (l.save sourceFC) :=
              save_ensures hl hreached (by omega) hvalid hquorum
                fun l' err hl' hnext => ⟨hl', hnext⟩
            refine .bind hsave ?_
            rintro ⟨l', err⟩ ⟨hl', hnext⟩
            cases err with
            | none => exact .pure ⟨hl', fun fc hfc => by cases hfc; exact hnext⟩
            | some err => exact .pure ⟨hl', nofun⟩
          · refine .bind (ih l _ hl).1 ?_
            rintro ⟨l', r⟩ ⟨hl', -⟩
            cases r with
            | error err => exact .pure ⟨hl', nofun⟩
            | ok _ => exact (ih l' h hl').2 sourceFC hvalid
          · exact .pure ⟨hl, nofun⟩

/-- The store is as before, and a header without error is sound. -/
def Verified (env : ChainEnv) (chainID : Bytes) (genuine : ℤ → List Validator → Prop)
    (shdr : SignedHeader) (r : Client T × Option LiteError) : Prop :=
  r.1.Trusts env chainID genuine ∧ (r.2 = none → shdr.Sound env chainID genuine)

lemma certify_ensures {trustedFC : FullCommit} (hl : l.Trusts env chainID genuine)
    (hreached : Reached env chainID genuine (trustedFC.height + 1) trustedFC.nextValidators) :
    Logged.Ensures (fun fc => fc.signedHeader.Sound env chainID genuine)
      (Verified env chainID genuine shdr) (certify env chainID source l trustedFC shdr) := by
  unfold certify
  split_ifs
  · exact .fails
  split
  · exact .pure ⟨hl, nofun⟩
  · rename_i hbase
    obtain ⟨hheight, hhash, hquorum⟩ := baseVerify_eq_none hbase
    have hsound : shdr.Sound env chainID genuine := ⟨_, _, hreached, hheight, hhash, hquorum⟩
    split
    · exact .pure ⟨hl, fun _ => hsound⟩
    · exact .pure ⟨hl, nofun⟩
    · dsimp only
      split
      · exact .pure ⟨hl, nofun⟩
      · rename_i hvalid
        exact save_ensures hl hreached hheight hvalid hquorum
          fun l' err hl' _ => ⟨hl', fun _ => hsound⟩

lemma verifyNew_ensures (fuel : ℕ) (hl : l.Trusts env chainID genuine) :
    Logged.Ensures (fun fc => fc.signedHeader.Sound env chainID genuine)
      (Verified env chainID genuine shdr) (verifyNew env chainID source fuel l shdr) := by
  unfold verifyNew
  dsimp only
  split
  · exact .pure ⟨hl, nofun⟩
  · rename_i trustedFC htrusted
    split_ifs
    · exact certify_ensures hl (T.latest hl htrusted)
    · exact .pure ⟨hl, nofun⟩
    · refine .bind (update_ensures fuel l _ hl).1 ?_
      rintro ⟨l', r⟩ ⟨hl', hr⟩
      cases r with
      | error err => exact .pure ⟨hl', nofun⟩
      | ok fc =>
        dsimp only
        split_ifs
        · exact certify_ensures hl' (hr fc rfl)
        · exact .pure ⟨hl', nofun⟩

lemma verify_of_alreadyTrusted (fuel : ℕ)
    (h : alreadyTrusted env (T := T) l.store shdr.header = true) :
    verify env chainID source fuel l shdr = pure (l, none) := by
  unfold alreadyTrusted at h
  unfold verify
  split at h
  · rename_i fc hfc
    rw [hfc]
    exact if_pos (of_decide_eq_true h)
  · cases h

lemma verify_ensures (fuel : ℕ) (hl : l.Trusts env chainID genuine)
    (hnew : alreadyTrusted env (T := T) l.store shdr.header = false) :
    Logged.Ensures (fun fc => fc.signedHeader.Sound env chainID genuine)
      (Verified env chainID genuine shdr) (verify env chainID source fuel l shdr) := by
  unfold alreadyTrusted at hnew
  unfold verify
  split
  · rename_i fc hfc
    rw [hfc] at hnew
    rw [if_neg (of_decide_eq_false hnew)]
    exact verifyNew_ensures fuel hl
  · exact verifyNew_ensures fuel hl
  · exact .pure ⟨hl, nofun⟩

lemma SignedHeader.not_sound_of_commit_none {header : Header} :
    ¬ (⟨header, none⟩ : SignedHeader).Sound env chainID genuine := by
  rintro ⟨height, vals, -, -, -, c, hc, -⟩
  cases hc

/-- `Verify` accepts a header, with whatever commit, only for good reason, and saves nothing else,
exactly if the store has no full commit for that header. -/
theorem verify_sound_iff (source : Source) (s : T.State) (hs : T.HoldsOnly genuine s)
    (header : Header) :
    (∀ (commit : Option Commit) (fuel : ℕ),
      (∀ l, (verify env chainID source fuel ⟨s, 0⟩ ⟨header, commit⟩).result = some (l, none) →
        (⟨header, commit⟩ : SignedHeader).Sound env chainID genuine) ∧
      ∀ fc ∈ (verify env chainID source fuel (T := T) ⟨s, 0⟩ ⟨header, commit⟩).log,
        fc.signedHeader.Sound env chainID genuine) ↔
      alreadyTrusted env s header = false := by
  constructor
  · intro h
    by_contra hnew
    rw [Bool.not_eq_false] at hnew
    have hverify : verify env chainID source 0 (⟨s, 0⟩ : Client T) ⟨header, none⟩ =
      pure (⟨s, 0⟩, none) := verify_of_alreadyTrusted 0 hnew
    exact SignedHeader.not_sound_of_commit_none ((h none 0).1 ⟨s, 0⟩ (by rw [hverify]; rfl))
  · intro hnew commit fuel
    have hl : (⟨s, 0⟩ : Client T).Trusts env chainID genuine :=
      T.mono (fun _ _ h => ⟨_, h, .refl⟩) hs
    have hensures : Logged.Ensures (fun fc => fc.signedHeader.Sound env chainID genuine)
        (Verified env chainID genuine ⟨header, commit⟩)
        (verify env chainID source fuel ⟨s, 0⟩ ⟨header, commit⟩) := verify_ensures fuel hl hnew
    exact ⟨fun l hl => (hensures.result _ hl).2 rfl, hensures.log⟩

/-- The hash of the four validators. -/
def hashOfFour : Bytes :=
  [155, 205, 81, 36, 10, 244, 0, 81, 104, 240, 51, 18, 27, 168, 91, 229, 166, 237, 79, 14, 106, 95,
    172, 38, 32, 102, 114, 155, 143, 191, 222, 203]

/-- A header of the chain of four validators. -/
def plainHeader (height : ℤ) : Header where
  version := ⟨10, 1⟩
  chainID := lit "A"
  height := height
  time := 10 * height
  numTxs := 0
  totalTxs := 0
  lastBlockID := .zero
  lastCommitHash := []
  dataHash := []
  validatorsHash := hashOfFour
  nextValidatorsHash := hashOfFour
  consensusHash := []
  appHash := []
  lastResultsHash := []
  evidenceHash := []
  proposerAddress := keyAddress [0]
  crossMerkleRoot := []
  cmRelation := []

/-- A header with the precommits of three of the four validators. -/
def signedByThree (height : ℤ) (hash : Bytes) : SignedHeader :=
  let blockID : BlockID := ⟨hash, ⟨1, List.replicate tmhashSize 5⟩⟩
  ⟨plainHeader height, some ⟨blockID, (List.range 3).map (fun (i : ℕ) => some
    ⟨.precommit, height, 0, blockID, 50, keyAddress [UInt8.ofNat i], i, [UInt8.ofNat i],
      none, none⟩) ++ [none]⟩⟩

/-- The signed header of height 5, with its hash written out. -/
def signedAt5 : SignedHeader :=
  signedByThree 5 [113, 0, 88, 219, 177, 159, 107, 2, 78, 200, 177, 30, 93, 95, 145, 179, 194, 237,
    177, 50, 228, 102, 212, 154, 187, 13, 5, 28, 111, 0, 110, 220]

def fullCommitAt4 : FullCommit :=
  ⟨signedByThree 4 ((plainHeader 4).hash plainAmino), fourValidators.validators,
    fourValidators.validators⟩

/-- A store with the full commit of height 4. -/
def trustedAt4 : (dbProvider (lit "A") 0).State :=
  LiteDB.saveFullCommit 0 ⟨[], []⟩ fullCommitAt4

/-- A source that has nothing. -/
def emptySource : Source where
  latestFullCommit := fun _ _ => .error .commitNotFound
  validatorSet := fun _ => .error .unknownValidators

lemma trustedAt4_holdsOnly : (dbProvider (lit "A") 0).HoldsOnly
    (fun _ vals => vals = fourValidators.validators) trustedAt4 := by
  have hempty : LiteDB.HoldsOnly (fun _ vals => vals = fourValidators.validators) ⟨[], []⟩ := by
    intro key sh vals hsh
    cases hsh
  have hsaved : LiteDB.HoldsOnly (fun _ vals => vals = fourValidators.validators)
    (LiteDB.saveFullCommit 0 ⟨[], []⟩ fullCommitAt4) := hempty.saveFullCommit 0 rfl rfl
  exact hsaved

/-- The next header is accepted, and so it is sound. -/
theorem verify_next_header :
    (verify chainOfFour (lit "A") emptySource 1 ⟨trustedAt4, 0⟩ signedAt5).result.map Prod.snd =
        some none ∧
      signedAt5.Sound chainOfFour (lit "A") (fun _ vals => vals = fourValidators.validators) := by
  refine (and_iff_left_of_imp fun haccepted => ?_).mpr (by decide +kernel)
  have hnew : alreadyTrusted chainOfFour trustedAt4 signedAt5.header = false := by decide +kernel
  obtain ⟨⟨l, err⟩, hresult, herr⟩ := map_eq_some_iff.mp haccepted
  obtain rfl : err = none := herr
  exact ((verify_sound_iff emptySource trustedAt4 trustedAt4_holdsOnly signedAt5.header).mpr hnew
    signedAt5.commit 1).1 l hresult

/-- The header of height 4 is accepted without any commit. -/
theorem verify_known_header :
    (dbProvider (lit "A") 0).HoldsOnly (fun _ vals => vals = fourValidators.validators)
        trustedAt4 ∧
      (verify chainOfFour (lit "A") emptySource 1 ⟨trustedAt4, 0⟩ ⟨plainHeader 4, none⟩).result =
        some (⟨trustedAt4, 0⟩, none) ∧
      ¬ (⟨plainHeader 4, none⟩ : SignedHeader).Sound chainOfFour (lit "A")
        (fun _ vals => vals = fourValidators.validators) := by
  refine ⟨trustedAt4_holdsOnly, ?_, SignedHeader.not_sound_of_commit_none⟩
  have hknown : alreadyTrusted chainOfFour trustedAt4 (plainHeader 4) = true := by
    exact decide_eq_true rfl
  have hverify : verify chainOfFour (lit "A") emptySource 1 ⟨trustedAt4, 0⟩ ⟨plainHeader 4, none⟩ =
    pure (⟨trustedAt4, 0⟩, none) := verify_of_alreadyTrusted 1 hknown
  rw [hverify]
  rfl

end Client

end ShardingBC.Consensus
