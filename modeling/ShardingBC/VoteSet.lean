import ShardingBC.Votes
import ShardingBC.LockedVoting
import Mathlib.Algebra.BigOperators.Fin

/-!
# Vote sets

A `VoteSet` collects the votes of one height, round and type. It counts the power behind every block
it tracks and remembers the first block that more than two thirds voted for. The total power is
bounded, so sums do not overflow.
-/
namespace ShardingBC.Consensus

open Function Option

section Update

variable {α β : Type*} [DecidableEq α] {f : α → Option β} {a k : α} {b c : β}

/-- What a table holds after an entry was set. -/
lemma update_some_cases (h : Function.update f a (some b) k = some c) :
    (k = a ∧ c = b) ∨ (k ≠ a ∧ f k = some c) := by
  by_cases hk : k = a
  · subst hk
    rw [update_self, some.injEq] at h
    exact .inl ⟨rfl, h.symm⟩
  · rw [update_of_ne hk] at h
    exact .inr ⟨hk, h⟩

lemma forall_update_some {P : α → β → Prop} (hnew : P a b) (hold : ∀ k c, f k = some c → P k c) :
    ∀ k c, Function.update f a (some b) k = some c → P k c := by
  intro k c hc
  rcases update_some_cases hc with ⟨rfl, rfl⟩ | ⟨-, hc⟩
  · exact hnew
  · exact hold k c hc

lemma exists_update_some {P : β → Prop} (h : f k = some c) (hold : P c) (hnew : k = a → P b) :
    ∃ c', Function.update f a (some b) k = some c' ∧ P c' := by
  by_cases hk : k = a
  · subst hk
    exact ⟨b, update_self .., hnew rfl⟩
  · exact ⟨c, by rw [update_of_ne hk, h], hold⟩

end Update

structure Validator where
  address : Bytes
  pubKey : Bytes
  votingPower : ℕ

/-- The validators of a chain, with the address of a key, and whether a signature of the sign bytes
of a vote is valid under a key. -/
structure Electorate where
  chainID : Bytes
  validators : List Validator
  addressOf : Bytes → Bytes
  verifyBytes : Bytes → CanonicalVote → Bytes → Bool

namespace Electorate

variable (E : Electorate)

abbrev Index : Type := Fin E.validators.length

def power (i : E.Index) : ℕ := (E.validators.get i).votingPower

def totalVotingPower : ℕ := (E.validators.map Validator.votingPower).sum

/-- The power that makes a majority, `TotalVotingPower()*2/3 + 1`. -/
def quorum : ℕ := E.totalVotingPower * 2 / 3 + 1

def getByIndex (i : ℤ) : Option E.Index :=
  if h : 0 ≤ i ∧ i.toNat < E.validators.length then some ⟨i.toNat, h.2⟩ else none

lemma sum_power : ∑ i, E.power i = E.totalVotingPower := by
  rw [← List.sum_ofFn]
  congr 1
  refine List.ext_getElem (by simp) fun n h h' => ?_
  simp [power]

lemma getByIndex_eq {i : ℤ} {k : E.Index} (h : E.getByIndex i = some k) : i = (k : ℕ) := by
  unfold getByIndex at h
  split_ifs at h with hi
  cases h
  exact (Int.toNat_of_nonneg hi.1).symm

end Electorate

inductive VoteError where
  | unwantedRound
  | invalidValidatorIndex
  | invalidValidatorAddress
  | unexpectedStep
  | nonDeterministicSignature
  | invalidSignature
  | conflictingVotes (voteA voteB : Vote)

/-- `Vote.Verify`; `none` is a nil error. -/
def Vote.verify (E : Electorate) (pubKey : Bytes) (vote : Vote) : Option VoteError :=
  if E.addressOf pubKey ≠ vote.validatorAddress then some .invalidValidatorAddress
  else if !E.verifyBytes pubKey (canonicalizeVote E.chainID vote) vote.signature then
    some .invalidSignature
  else none

/-- `blockVotes`, which holds the sum of the power of its votes. -/
structure BlockVotes (E : Electorate) where
  peerMaj23 : Bool
  votes : E.Index → Option Vote
  sum : ℕ
  sum_eq : sum = ∑ i, if (votes i).isSome then E.power i else 0

namespace BlockVotes

variable {E : Electorate}

def new (peerMaj23 : Bool) : BlockVotes E := ⟨peerMaj23, fun _ => none, 0, by simp⟩

lemma sum_update (votes : E.Index → Option Vote) {i : E.Index} (h : votes i = none)
    (vote : Vote) :
    (∑ j, if (Function.update votes i (some vote) j).isSome then E.power j else 0) =
      (∑ j, if (votes j).isSome then E.power j else 0) + E.power i := by
  rw [← Finset.add_sum_erase _ _ (Finset.mem_univ i),
    ← Finset.add_sum_erase _ (fun j => if (votes j).isSome then E.power j else 0)
      (Finset.mem_univ i), h]
  have hrest : ∀ j ∈ Finset.univ.erase i,
      (if (Function.update votes i (some vote) j).isSome then E.power j else 0) =
        if (votes j).isSome then E.power j else 0 := by
    intro j hj
    rw [update_of_ne (Finset.ne_of_mem_erase hj)]
  rw [Finset.sum_congr rfl hrest]
  simp [add_comm]

def addVerifiedVote (bv : BlockVotes E) (i : E.Index) (vote : Vote) : BlockVotes E :=
  if h : bv.votes i = none then
    { bv with
      votes := Function.update bv.votes i (some vote)
      sum := bv.sum + E.power i
      sum_eq := by rw [sum_update bv.votes h, ← bv.sum_eq] }
  else bv

lemma addVerifiedVote_of_none {bv : BlockVotes E} {i : E.Index} (h : bv.votes i = none)
    (vote : Vote) :
    (bv.addVerifiedVote i vote).votes = Function.update bv.votes i (some vote) ∧
      bv.sum ≤ (bv.addVerifiedVote i vote).sum := by
  unfold addVerifiedVote
  rw [dif_pos h]
  exact ⟨rfl, Nat.le_add_right _ _⟩

end BlockVotes

/-- A set of votes. Blocks are tracked by `BlockID.Key()`, which determines the
block ID. -/
structure VoteSet (E : Electorate) where
  height : ℤ
  round : ℤ
  type : SignedMsgType
  votes : E.Index → Option Vote
  sum : ℕ
  maj23 : Option BlockID
  votesByBlock : BlockID → Option (BlockVotes E)
  peerMaj23s : Bytes → Option BlockID
  partSigs : List PartSig
  partHashSigs : List PartSig

namespace VoteSet

variable {E : Electorate}

def new (height round : ℤ) (type : SignedMsgType) : VoteSet E :=
  ⟨height, round, type, fun _ => none, 0, none, fun _ => none, fun _ => none, [], []⟩

def getVote (vs : VoteSet E) (i : E.Index) (blockKey : BlockID) : Option Vote :=
  match (vs.votes i).filter fun existing => existing.blockID = blockKey with
  | some existing => some existing
  | none => (vs.votesByBlock blockKey).bind fun bv => bv.votes i

/-- The beginning of `addVerifiedVote`: the shares of every prevote are kept.
`none` is a nil dereference. -/
def collectShares (vs : VoteSet E) (vote : Vote) : Option (VoteSet E) :=
  if vote.type = .prevote then do
    let part ← vote.partSig
    if part.id ≠ 0 then do
      let hashpart ← vote.partBlockSig
      some { vs with
        partSigs := vs.partSigs ++ [part]
        partHashSigs := vs.partHashSigs ++ [hashpart] }
    else some vs
  else some vs

/-- The canonical vote of a validator is its first, unless a later one is for the block with a
majority. Returns the vote it conflicts with; `none` is the panic on a duplicate. -/
def replaceVote (vs : VoteSet E) (i : E.Index) (vote : Vote) : Option (VoteSet E × Option Vote) :=
  match vs.votes i with
  | some existing =>
    if existing.blockID = vote.blockID then none
    else if vs.maj23 = some vote.blockID then
      some ({ vs with votes := Function.update vs.votes i (some vote) }, some existing)
    else some (vs, some existing)
  | none =>
    some ({ vs with
      votes := Function.update vs.votes i (some vote)
      sum := vs.sum + E.power i }, none)

/-- The end of `addVerifiedVote`: the vote counts for its block, whose votes become canonical if it
is the first to get a majority. -/
def countVote (vs : VoteSet E) (i : E.Index) (vote : Vote) (bv : BlockVotes E) : VoteSet E :=
  let bv' := bv.addVerifiedVote i vote
  let vs := { vs with votesByBlock := Function.update vs.votesByBlock vote.blockID (some bv') }
  if bv.sum < E.quorum ∧ E.quorum ≤ bv'.sum ∧ vs.maj23 = none then
    { vs with maj23 := some vote.blockID, votes := fun j => (bv'.votes j).or (vs.votes j) }
  else vs

/-- `addVerifiedVote`: whether the vote was added and the vote it conflicts with. -/
def addVerifiedVote (vs : VoteSet E) (i : E.Index) (vote : Vote) :
    Option (VoteSet E × Bool × Option Vote) := do
  let vs ← vs.collectShares vote
  let (vs, conflicting) ← vs.replaceVote i vote
  match vs.votesByBlock vote.blockID with
  | some bv =>
    if conflicting.isSome && !bv.peerMaj23 then some (vs, false, conflicting)
    else some (vs.countVote i vote bv, true, conflicting)
  | none =>
    if conflicting.isSome then some (vs, false, conflicting)
    else some (vs.countVote i vote (.new false), true, conflicting)

/-- `VoteSet.addVote`; `none` is a panic. -/
def addVote (vs : VoteSet E) (vote : Vote) : Option (VoteSet E × Bool × Option VoteError) :=
  if vote.validatorIndex < 0 then some (vs, false, some .invalidValidatorIndex)
  else if vote.validatorAddress.length = 0 then some (vs, false, some .invalidValidatorAddress)
  else if vote.height ≠ vs.height ∨ vote.round ≠ vs.round ∨ vote.type ≠ vs.type then
    some (vs, false, some .unexpectedStep)
  else
    match E.getByIndex vote.validatorIndex with
    | none => some (vs, false, some .invalidValidatorIndex)
    | some i =>
      let val := E.validators.get i
      if vote.validatorAddress ≠ val.address then
        some (vs, false, some .invalidValidatorAddress)
      else
        match vs.getVote i vote.blockID with
        | some existing =>
          if existing.signature = vote.signature then some (vs, false, none)
          else some (vs, false, some .nonDeterministicSignature)
        | none =>
          match vote.verify E val.pubKey with
          | some err => some (vs, false, some err)
          | none =>
            match vs.addVerifiedVote i vote with
            | none => none
            | some (vs, added, some conflicting) =>
              some (vs, added, some (.conflictingVotes conflicting vote))
            | some (vs, added, none) => if added then some (vs, true, none) else none

/-- `SetPeerMaj23`; whether there is no error. -/
def setPeerMaj23 (vs : VoteSet E) (peerID : Bytes) (blockID : BlockID) : VoteSet E × Bool :=
  match vs.peerMaj23s peerID with
  | some existing => (vs, decide (existing = blockID))
  | none =>
    let vs := { vs with peerMaj23s := Function.update vs.peerMaj23s peerID (some blockID) }
    let bv := { (vs.votesByBlock blockID).getD (.new true) with peerMaj23 := true }
    ({ vs with votesByBlock := Function.update vs.votesByBlock blockID (some bv) }, true)

def hasTwoThirdsAny (vs : VoteSet E) : Bool := decide (E.totalVotingPower * 2 / 3 < vs.sum)

def hasAll (vs : VoteSet E) : Bool := decide (vs.sum = E.totalVotingPower)

/-- The vote belongs into the set as the vote of that validator. -/
structure Admits (vs : VoteSet E) (i : E.Index) (vote : Vote) : Prop where
  index : vote.validatorIndex = (i : ℕ)
  height : vote.height = vs.height
  round : vote.round = vs.round
  type : vote.type = vs.type
  address : vote.validatorAddress = (E.validators.get i).address
  verified : vote.verify E (E.validators.get i).pubKey = none

variable {vs vs' : VoteSet E} {i : E.Index} {vote : Vote} {added : Bool}

/-- Only a new vote that the set admits changes it. -/
lemma addVote_cases {err : Option VoteError} (h : vs.addVote vote = some (vs', added, err)) :
    (vs' = vs ∧ added = false) ∨ ∃ i conflicting, vs.Admits i vote ∧
      vs.getVote i vote.blockID = none ∧
      vs.addVerifiedVote i vote = some (vs', added, conflicting) := by
  unfold addVote at h
  split_ifs at h with h1 h2 h3
  · exact .inl (by simp_all)
  · exact .inl (by simp_all)
  · exact .inl (by simp_all)
  · push Not at h3
    split at h
    · exact .inl (by simp_all)
    · rename_i i hindex
      dsimp only at h
      split_ifs at h with haddr
      · exact .inl (by simp_all)
      · split at h
        · split_ifs at h <;> exact .inl (by simp_all)
        · rename_i hget
          split at h
          · exact .inl (by simp_all)
          · rename_i hverify
            have hadmits : vs.Admits i vote :=
              ⟨E.getByIndex_eq hindex, h3.1, h3.2.1, h3.2.2, not_not.mp haddr, hverify⟩
            split at h
            · cases h
            · rename_i hadd
              cases h
              exact .inr ⟨i, _, hadmits, hget, hadd⟩
            · rename_i hadd
              split_ifs at h with hadded
              cases h
              exact .inr ⟨i, _, hadmits, hget, by rw [hadd, hadded]⟩

/-- All votes that are counted or listed satisfy a predicate, a majority is a quorum of the counted
votes, and these are listed. -/
structure Sound (P : E.Index → Vote → Prop) (vs : VoteSet E) : Prop where
  counted : ∀ x bv, vs.votesByBlock x = some bv → ∀ i v, bv.votes i = some v →
    v.blockID = x ∧ P i v
  listed : ∀ i v, vs.votes i = some v → P i v
  quorum : ∀ x, vs.maj23 = some x → ∃ bv, vs.votesByBlock x = some bv ∧ E.quorum ≤ bv.sum
  chosen : ∀ x, vs.maj23 = some x → ∀ bv, vs.votesByBlock x = some bv →
    ∀ i v, bv.votes i = some v → vs.votes i = some v

variable {P : E.Index → Vote → Prop}

lemma sound_new (height round : ℤ) (type : SignedMsgType) :
    (new height round type : VoteSet E).Sound P :=
  ⟨by simp [new], by simp [new], by simp [new], by simp [new]⟩

lemma Sound.mono {Q : E.Index → Vote → Prop} (h : vs.Sound P) (hPQ : ∀ i v, P i v → Q i v) :
    vs.Sound Q :=
  ⟨fun x bv hbv i v hv => (h.counted x bv hbv i v hv).imp_right (hPQ i v),
    fun i v hv => hPQ i v (h.listed i v hv), h.quorum, h.chosen⟩

lemma collectShares_spec (h : vs.collectShares vote = some vs') :
    ∃ sigs hashSigs, vs' = { vs with partSigs := sigs, partHashSigs := hashSigs } := by
  unfold collectShares at h
  split_ifs at h with htype
  · obtain ⟨part, -, h⟩ := bind_eq_some_iff.mp h
    split_ifs at h with hid
    · obtain ⟨hashpart, -, h⟩ := bind_eq_some_iff.mp h
      exact ⟨_, _, (some.inj h).symm⟩
    · exact ⟨_, _, (some.inj h).symm⟩
  · exact ⟨_, _, (some.inj h).symm⟩

lemma getVote_eq_none (h : vs.getVote i vote.blockID = none) {bv : BlockVotes E}
    (hbv : vs.votesByBlock vote.blockID = some bv) : bv.votes i = none := by
  unfold getVote at h
  split at h
  · cases h
  · simpa [hbv] using h

variable {conflicting : Option Vote}

/-- The vote is listed unless the block it is for has no majority. -/
lemma Sound.replaceVote (hs : vs.Sound P) (hP : P i vote)
    (hget : vs.getVote i vote.blockID = none)
    (h : vs.replaceVote i vote = some (vs', conflicting)) :
    vs'.Sound P ∧ vs'.votesByBlock = vs.votesByBlock ∧ vs'.maj23 = vs.maj23 ∧
      (vs'.maj23 = some vote.blockID → vs'.votes i = some vote) := by
  -- Listing the vote displaces no vote that is counted for the majority.
  have hlist : ∀ sum, (vs.maj23 = some vote.blockID ∨ vs.votes i = none) →
      Sound P { vs with votes := Function.update vs.votes i (some vote), sum := sum } := by
    intro sum hfree
    refine ⟨hs.counted, forall_update_some hP hs.listed, hs.quorum, fun x hx bv hbv j v hv => ?_⟩
    have hold := hs.chosen x hx bv hbv j v hv
    by_cases hj : j = i
    · subst hj
      rcases hfree with hmaj | hnone
      · obtain rfl : x = vote.blockID := some.inj (hx.symm.trans hmaj)
        rw [getVote_eq_none hget hbv] at hv
        cases hv
      · rw [hnone] at hold
        cases hold
    · simp only [update_of_ne hj]
      exact hold
  unfold VoteSet.replaceVote at h
  split at h
  · split_ifs at h with hdup hmaj
    · cases h
      exact ⟨hlist vs.sum (.inl hmaj), rfl, rfl, fun _ => by simp⟩
    · cases h
      exact ⟨hs, rfl, rfl, fun hmaj' => absurd hmaj' hmaj⟩
  · rename_i hnone
    cases h
    exact ⟨hlist _ (.inr hnone), rfl, rfl, fun _ => by simp⟩

lemma Sound.countVote {bv : BlockVotes E} (hs : vs.Sound P) (hP : P i vote)
    (hbv : vs.votesByBlock vote.blockID = some bv ∨
      vs.votesByBlock vote.blockID = none ∧ bv = .new false)
    (hnone : bv.votes i = none) (hlisted : vs.maj23 = some vote.blockID → vs.votes i = some vote) :
    (vs.countVote i vote bv).Sound P := by
  obtain ⟨hvotes, hsum⟩ := BlockVotes.addVerifiedVote_of_none hnone vote
  have hbv_counted : ∀ j v, bv.votes j = some v → v.blockID = vote.blockID ∧ P j v := by
    rcases hbv with hbv | ⟨-, rfl⟩
    · exact hs.counted _ bv hbv
    · simp [BlockVotes.new]
  have hnew : ∀ j v, (bv.addVerifiedVote i vote).votes j = some v →
      v.blockID = vote.blockID ∧ P j v := by
    rw [hvotes]
    exact forall_update_some ⟨rfl, hP⟩ hbv_counted
  have hcounted : ∀ x bv', Function.update vs.votesByBlock vote.blockID
      (some (bv.addVerifiedVote i vote)) x = some bv' → ∀ j v, bv'.votes j = some v →
      v.blockID = x ∧ P j v := forall_update_some hnew hs.counted
  unfold VoteSet.countVote
  dsimp only
  split_ifs with hmaj
  · -- The block is the first to get a majority.
    refine ⟨hcounted, fun j v hv => ?_, fun x hx => ?_, fun x hx bv' hbv' j v hv => ?_⟩
    · rcases or_eq_some_iff.mp hv with hv | ⟨-, hv⟩
      · exact (hnew j v hv).2
      · exact hs.listed j v hv
    · cases hx
      exact ⟨_, update_self .., hmaj.2.1⟩
    · cases hx
      simp only [update_self, some.injEq] at hbv'
      subst hbv'
      exact or_eq_some_iff.mpr (.inl hv)
  · refine ⟨hcounted, hs.listed, fun x hx => ?_, fun x hx bv' hbv' j v hv => ?_⟩
    · obtain ⟨bv₀, hbv₀, hq⟩ := hs.quorum x hx
      refine exists_update_some hbv₀ hq fun hxv => ?_
      subst hxv
      rcases hbv with hbv | ⟨hbv, -⟩
      · obtain rfl := some.inj (hbv.symm.trans hbv₀)
        exact hq.trans hsum
      · rw [hbv] at hbv₀
        cases hbv₀
    · rcases update_some_cases hbv' with ⟨rfl, rfl⟩ | ⟨-, hbv'⟩
      · rw [hvotes] at hv
        rcases update_some_cases hv with ⟨rfl, rfl⟩ | ⟨-, hv⟩
        · exact hlisted hx
        · rcases hbv with hbv | ⟨-, rfl⟩
          · exact hs.chosen _ hx bv hbv j v hv
          · simp [BlockVotes.new] at hv
      · exact hs.chosen x hx bv' hbv' j v hv

/-- What `addVerifiedVote` does once the shares are kept. -/
lemma addVerifiedVote_cases (h : vs.addVerifiedVote i vote = some (vs', added, conflicting)) :
    ∃ sigs hashSigs vs₂, VoteSet.replaceVote
        { vs with partSigs := sigs, partHashSigs := hashSigs } i vote = some (vs₂, conflicting) ∧
      (vs' = vs₂ ∨ ∃ bv, (vs₂.votesByBlock vote.blockID = some bv ∨
        vs₂.votesByBlock vote.blockID = none ∧ bv = .new false) ∧
          vs' = vs₂.countVote i vote bv) := by
  obtain ⟨vs₁, h₁, hrest⟩ := bind_eq_some_iff.mp h
  obtain ⟨⟨vs₂, c⟩, h₂, hlast⟩ := bind_eq_some_iff.mp hrest
  obtain ⟨sigs, hashSigs, rfl⟩ := collectShares_spec h₁
  dsimp only at hlast
  split at hlast
  · rename_i bv hbv
    split_ifs at hlast
    · cases hlast
      exact ⟨sigs, hashSigs, _, h₂, .inl rfl⟩
    · cases hlast
      exact ⟨sigs, hashSigs, vs₂, h₂, .inr ⟨bv, .inl hbv, rfl⟩⟩
  · rename_i hbv
    split_ifs at hlast
    · cases hlast
      exact ⟨sigs, hashSigs, _, h₂, .inl rfl⟩
    · cases hlast
      exact ⟨sigs, hashSigs, vs₂, h₂, .inr ⟨_, .inr ⟨hbv, rfl⟩, rfl⟩⟩

lemma Sound.addVerifiedVote (hs : vs.Sound P) (hP : P i vote)
    (hget : vs.getVote i vote.blockID = none)
    (h : vs.addVerifiedVote i vote = some (vs', added, conflicting)) : vs'.Sound P := by
  obtain ⟨sigs, hashSigs, vs₂, h₂, hlast⟩ := addVerifiedVote_cases h
  have hs₁ : Sound P { vs with partSigs := sigs, partHashSigs := hashSigs } :=
    ⟨hs.counted, hs.listed, hs.quorum, hs.chosen⟩
  obtain ⟨hs₂, hblocks, -, hlisted⟩ := hs₁.replaceVote hP hget h₂
  rcases hlast with rfl | ⟨bv, hbv, rfl⟩
  · exact hs₂
  · refine hs₂.countVote hP hbv ?_ hlisted
    rcases hbv with hbv | ⟨-, rfl⟩
    · exact getVote_eq_none hget (hblocks ▸ hbv)
    · rfl

lemma Sound.addVote {err : Option VoteError} (hs : vs.Sound P)
    (hP : ∀ i, vs.Admits i vote → P i vote) (h : vs.addVote vote = some (vs', added, err)) :
    vs'.Sound P := by
  rcases addVote_cases h with ⟨rfl, -⟩ | ⟨i, conflicting, hadmits, hget, hadd⟩
  · exact hs
  · exact hs.addVerifiedVote (hP i hadmits) hget hadd

lemma Sound.setPeerMaj23 (hs : vs.Sound P) (peerID : Bytes) (blockID : BlockID) :
    (vs.setPeerMaj23 peerID blockID).1.Sound P := by
  unfold VoteSet.setPeerMaj23
  split
  · exact hs
  · -- Marking a block changes none of its votes.
    have hold : ∀ x bv, Function.update vs.votesByBlock blockID (some
        { (vs.votesByBlock blockID).getD (.new true) with peerMaj23 := true }) x = some bv →
        bv.votes = (fun _ => none) ∨
          ∃ bv₀, vs.votesByBlock x = some bv₀ ∧ bv.votes = bv₀.votes := by
      refine forall_update_some ?_ fun x bv hbv => .inr ⟨bv, hbv, rfl⟩
      cases vs.votesByBlock blockID with
      | none => exact .inl rfl
      | some bv₀ => exact .inr ⟨bv₀, rfl, rfl⟩
    refine ⟨fun x bv hbv i v hv => ?_, hs.listed, fun x hx => ?_, fun x hx bv hbv i v hv => ?_⟩
    · rcases hold x bv hbv with hnone | ⟨bv₀, hbv₀, heq⟩
      · simp [hnone] at hv
      · exact hs.counted x bv₀ hbv₀ i v (heq ▸ hv)
    · obtain ⟨bv₀, hbv₀, hq⟩ := hs.quorum x hx
      refine exists_update_some hbv₀ hq fun hxb => ?_
      simpa [← hxb, hbv₀] using hq
    · rcases hold x bv hbv with hnone | ⟨bv₀, hbv₀, heq⟩
      · simp [hnone] at hv
      · exact hs.chosen x hx bv₀ hbv₀ i v (heq ▸ hv)

lemma Sound.quorate (hs : vs.Sound P) {x : BlockID} (hx : vs.maj23 = some x) :
    LockedVoting.Quorate E.power fun i => ∃ v, v.blockID = x ∧ P i v := by
  obtain ⟨bv, hbv, hq⟩ := hs.quorum x hx
  have hle : bv.sum ≤ LockedVoting.weight E.power fun i => ∃ v, v.blockID = x ∧ P i v := by
    rw [bv.sum_eq]
    refine Finset.sum_le_sum fun i _ => ?_
    cases hv : bv.votes i with
    | none => simp
    | some v =>
      have hvote : ∃ v, v.blockID = x ∧ P i v := ⟨v, hs.counted x bv hbv i v hv⟩
      simp [hvote]
  unfold LockedVoting.Quorate
  rw [E.sum_power]
  unfold Electorate.quorum at hq
  omega

/-- What a vote set keeps when a vote is added. -/
structure Extends (vs vs' : VoteSet E) : Prop where
  height : vs'.height = vs.height
  round : vs'.round = vs.round
  type : vs'.type = vs.type
  maj23 : ∀ x, vs.maj23 = some x → vs'.maj23 = some x

lemma Extends.trans {vs'' : VoteSet E} (h : vs.Extends vs') (h' : vs'.Extends vs'') :
    vs.Extends vs'' :=
  ⟨h'.height.trans h.height, h'.round.trans h.round, h'.type.trans h.type,
    fun x hx => h'.maj23 x (h.maj23 x hx)⟩

lemma replaceVote_extends
    (h : vs.replaceVote i vote = some (vs', conflicting)) : vs.Extends vs' := by
  unfold replaceVote at h
  split at h
  · split_ifs at h
    all_goals
      cases h
      exact ⟨rfl, rfl, rfl, fun x hx => hx⟩
  · cases h
    exact ⟨rfl, rfl, rfl, fun x hx => hx⟩

lemma countVote_extends (vs : VoteSet E) (i : E.Index) (vote : Vote) (bv : BlockVotes E) :
    vs.Extends (vs.countVote i vote bv) := by
  unfold countVote
  dsimp only
  split_ifs with hmaj
  · refine ⟨rfl, rfl, rfl, fun x hx => ?_⟩
    rw [hmaj.2.2] at hx
    cases hx
  · exact ⟨rfl, rfl, rfl, fun x hx => hx⟩

lemma addVerifiedVote_extends
    (h : vs.addVerifiedVote i vote = some (vs', added, conflicting)) : vs.Extends vs' := by
  obtain ⟨sigs, hashSigs, vs₂, h₂, hlast⟩ := addVerifiedVote_cases h
  have hext : vs.Extends vs₂ := by
    have h := replaceVote_extends h₂
    exact ⟨h.height, h.round, h.type, h.maj23⟩
  rcases hlast with rfl | ⟨bv, -, rfl⟩
  · exact hext
  · exact hext.trans (countVote_extends ..)

lemma addVote_extends {err : Option VoteError} (h : vs.addVote vote = some (vs', added, err)) :
    vs.Extends vs' := by
  rcases addVote_cases h with ⟨rfl, -⟩ | ⟨i, conflicting, -, -, hadd⟩
  · exact ⟨rfl, rfl, rfl, fun x hx => hx⟩
  · exact addVerifiedVote_extends hadd

lemma setPeerMaj23_extends (vs : VoteSet E) (peerID : Bytes) (blockID : BlockID) :
    vs.Extends (vs.setPeerMaj23 peerID blockID).1 := by
  unfold setPeerMaj23
  split
  · exact ⟨rfl, rfl, rfl, fun x hx => hx⟩
  · exact ⟨rfl, rfl, rfl, fun x hx => hx⟩

end VoteSet

end ShardingBC.Consensus
