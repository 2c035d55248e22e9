import ShardingBC.LockRuns

/-!
# Shares of released prevotes

`signVote` makes the shares of a prevote from `ProposalBlock`, while the vote may be for
the locked block, and `SigCrossMerkleRoot` does not report a share it could not make.
-/
namespace ShardingBC.Consensus

open FourValidators Option Runs

variable {E : Electorate} {β : Type}

namespace Node

variable (cfg : Config E β)

/-- The block `defaultDoPrevote` prevotes, with the header of its parts. -/
def prevoteBlock (n : Node E β) : Option (β × PartSetHeader) :=
  match n.lockedBlock with
  | some b => some (b, headerOf n.lockedBlockParts)
  | none =>
    match n.proposalBlock with
    | none => none
    | some b =>
      if !cfg.validateBlock b || !verifyTxs cfg (cfg.txs b) then none
      else some (b, headerOf n.proposalBlockParts)

lemma defaultDoPrevote_eq (n : Node E β) : n.defaultDoPrevote cfg =
    match n.prevoteBlock cfg with
    | some (b, header) => n.signAddVote cfg .prevote (cfg.hash b) header
    | none => n.signAddVote cfg .prevote [] .zero := by
  unfold defaultDoPrevote prevoteBlock
  cases n.lockedBlock with
  | some b => rfl
  | none =>
    cases n.proposalBlock with
    | none => rfl
    | some b =>
      dsimp only
      split_ifs <;> rfl

/-- The vote `signVote` starts from. -/
def newVote (n : Node E β) (i : E.Index) (type : SignedMsgType) (blockID : BlockID) : Vote :=
  { type := type, height := n.height, round := n.round, blockID := blockID
    timestamp := cfg.voteTime n.signed.length, validatorAddress := cfg.address
    validatorIndex := (i : ℕ), signature := []
    partSig := some ⟨[], cfg.parseId⟩, partBlockSig := some ⟨[], cfg.parseId⟩ }

/-- `signVote` before the private validator is asked: the vote, and the byte strings it
has shares for. A nil `ProposalBlock` is dereferenced. -/
def prepareVote (n : Node E β) (i : E.Index) (type : SignedMsgType) (blockID : BlockID) :
    Option (Vote × List Bytes) :=
  if type = .prevote ∧ blockID.hash ≠ [] then do
    let b ← n.proposalBlock
    let shares := sigCrossMerkleRoot cfg.sign (cfg.crossMerkleRoot b) (cfg.headerHash b)
      (n.newVote cfg i type blockID)
    let vote ← shares.1
    some (vote, shares.2)
  else some (n.newVote cfg i type blockID, [])

lemma signAddVote_eq (n : Node E β) (type : SignedMsgType) (hash : Bytes)
    (header : PartSetHeader) : n.signAddVote cfg type hash header =
      match cfg.index with
      | none => some n
      | some i => (n.prepareVote cfg i type ⟨hash, header⟩).map fun r => n.signVote cfg r.1 := by
  unfold signAddVote prepareVote
  cases cfg.index with
  | none => rfl
  | some i =>
    split_ifs
    · cases n.proposalBlock with
      | none => rfl
      | some b =>
        dsimp only [bind_eq_bind, bind_some]
        unfold newVote
        cases (sigCrossMerkleRoot cfg.sign (cfg.crossMerkleRoot b) (cfg.headerHash b) _).1 <;> rfl
    · rfl

/-- The signature the private validator gives out, if it signs the vote. No restart has made
the node ask for one that it has got before. -/
def signatureOf (n : Node E β) (vote : Vote) : Option Bytes :=
  if ∀ w ∈ n.signed, placeOf w < placeOf vote then cfg.signBytes (canonicalizeVote E.chainID vote)
  else none

lemma signVote_eq (n : Node E β) (vote : Vote) : n.signVote cfg vote =
    match n.signatureOf cfg vote with
    | none => n
    | some sig => { n with signed := { vote with signature := sig } :: n.signed } := by
  unfold signVote signatureOf
  split_ifs <;> rfl

/-- A released vote has the shares of its block, or lacks a share and is a nil vote in order. -/
def SharesMatch (b : β) (vote : Vote) (bytes : List Bytes) : Prop :=
  if bytes.length = 2 then
    vote.blockID.hash = cfg.hash b ∧ bytes = [cfg.crossMerkleRoot b, cfg.headerHash b] ∧
      vote.partSig.map PartSig.peerCrossSig = cfg.sign (cfg.crossMerkleRoot b) ∧
      vote.partBlockSig.map PartSig.peerCrossSig = cfg.sign (cfg.headerHash b)
  else vote.blockID.hash = [] ∧ vote.validateBasic = true

/-- The prevote for a block comes about, and is as it should be if released. -/
def PrevoteMatches (n : Node E β) (i : E.Index) (b : β) (header : PartSetHeader) : Prop :=
  ∃ vote bytes, n.prepareVote cfg i .prevote ⟨cfg.hash b, header⟩ = some (vote, bytes) ∧
    ∀ sig, n.signatureOf cfg vote = some sig → SharesMatch cfg b { vote with signature := sig } bytes

/-- A block has the contents that the shares of another are made from, and the key signs them. -/
structure SharesReady (b p : β) : Prop where
  root : cfg.crossMerkleRoot p = cfg.crossMerkleRoot b
  headerHash : cfg.headerHash p = cfg.headerHash b
  signsRoot : (cfg.sign (cfg.crossMerkleRoot p)).isSome
  signsHeader : (cfg.sign (cfg.headerHash p)).isSome

variable {n : Node E β} {i : E.Index} {x : BlockID} {p : β}

/-- The shares of a prevote for a block are over the proposal block. -/
lemma prepareVote_of_proposalBlock (hne : x.hash ≠ []) (hp : n.proposalBlock = some p) :
    ∃ vote bytes, n.prepareVote cfg i .prevote x = some (vote, bytes) ∧ vote.blockID = x ∧
      n.signatureOf cfg vote = n.signatureOf cfg (n.newVote cfg i .prevote x) ∧
      (bytes.length = 2 ↔ (cfg.sign (cfg.crossMerkleRoot p)).isSome ∧
        (cfg.sign (cfg.headerHash p)).isSome) ∧
      (bytes.length = 2 → bytes = [cfg.crossMerkleRoot p, cfg.headerHash p] ∧
        vote.partSig.map PartSig.peerCrossSig = cfg.sign (cfg.crossMerkleRoot p) ∧
        vote.partBlockSig.map PartSig.peerCrossSig = cfg.sign (cfg.headerHash p)) := by
  have hprepare : n.prepareVote cfg i .prevote x =
      ((sigCrossMerkleRoot cfg.sign (cfg.crossMerkleRoot p) (cfg.headerHash p)
        (n.newVote cfg i .prevote x)).1.bind fun vote => some (vote,
          (sigCrossMerkleRoot cfg.sign (cfg.crossMerkleRoot p) (cfg.headerHash p)
            (n.newVote cfg i .prevote x)).2)) := by
    rw [prepareVote, if_pos ⟨rfl, hne⟩, hp]
    rfl
  rw [hprepare]
  unfold sigCrossMerkleRoot
  cases hheader : cfg.sign (cfg.headerHash p) with
  | none => exact ⟨_, [], rfl, rfl, rfl, by simp, nofun⟩
  | some s =>
    cases hroot : cfg.sign (cfg.crossMerkleRoot p) with
    | none => exact ⟨_, [cfg.headerHash p], rfl, rfl, rfl, by simp, nofun⟩
    | some s' =>
      exact ⟨_, [cfg.crossMerkleRoot p, cfg.headerHash p], rfl, rfl, rfl, by simp,
        fun _ => ⟨rfl, rfl, rfl⟩⟩

/-- A prevote for a block has matching shares, and dereferences no nil `ProposalBlock`, exactly if
there is a proposal block and, should the vote be signed at all, it agrees with the block voted for
and the key signs both shares. -/
theorem prevote_matches_iff (cfg : Config E β) (n : Node E β) (i : E.Index) :
    ∀ b header, n.prevoteBlock cfg = some (b, header) → cfg.hash b ≠ [] →
      (n.PrevoteMatches cfg i b header ↔ ∃ p, n.proposalBlock = some p ∧
        ((n.signatureOf cfg (n.newVote cfg i .prevote ⟨cfg.hash b, header⟩)).isSome →
          SharesReady cfg b p)) := by
  intro b header _ hne
  have hx : (⟨cfg.hash b, header⟩ : BlockID).hash ≠ [] := hne
  cases hp : n.proposalBlock with
  | none =>
    refine ⟨?_, nofun⟩
    rintro ⟨vote, bytes, hprepare, -⟩
    rw [prepareVote, if_pos ⟨rfl, hx⟩, hp] at hprepare
    cases hprepare
  | some p =>
    obtain ⟨vote, bytes, hprepare, hblock, hsig, hlength, hshares⟩ :=
      prepareVote_of_proposalBlock (i := i) cfg hx hp
    constructor
    · rintro ⟨vote', bytes', hprepare', hmatch⟩
      obtain ⟨rfl, rfl⟩ : vote = vote' ∧ bytes = bytes' := by
        simpa using hprepare.symm.trans hprepare'
      refine ⟨p, rfl, fun hsome => ?_⟩
      obtain ⟨sig, hs⟩ := isSome_iff_exists.mp hsome
      have hm := hmatch sig (hsig.trans hs)
      unfold SharesMatch at hm
      split_ifs at hm with htwo
      · obtain ⟨hbytes, -, -⟩ := hshares htwo
        obtain ⟨-, hb, -, -⟩ := hm
        rw [hbytes] at hb
        simp only [List.cons.injEq, and_true] at hb
        exact ⟨hb.1, hb.2, (hlength.mp htwo).1, (hlength.mp htwo).2⟩
      · have hnil : vote.blockID.hash = [] := hm.1
        rw [hblock] at hnil
        exact absurd hnil hne
    · rintro ⟨p', hp', hready⟩
      cases hp'
      refine ⟨vote, bytes, hprepare, fun sig hs => ?_⟩
      have hr := hready (by rw [← hsig, hs]; rfl)
      have htwo := hlength.mpr ⟨hr.signsRoot, hr.signsHeader⟩
      obtain ⟨hbytes, hpart, hpartBlock⟩ := hshares htwo
      rw [SharesMatch, if_pos htwo]
      rw [hr.root] at hbytes hpart
      rw [hr.headerHash] at hbytes hpartBlock
      exact ⟨congrArg BlockID.hash hblock, hbytes, hpart, hpartBlock⟩

/-- The proposal of round 0 and its block have come in. -/
def holdingZero : Node fourValidators (Fin 2) :=
  { atHeight5 with
    step := .propose
    proposalBlock := some 0
    proposalBlockParts := some ⟨(Recorded.mixedID 0 0).partsHeader, true⟩ }

theorem holdingZero_matches :
    (holdingZero.signatureOf Recorded.twoHashes (holdingZero.newVote Recorded.twoHashes (1 : Fin 4) .prevote
      (Recorded.mixedID 0 0))).isSome ∧
      holdingZero.PrevoteMatches Recorded.twoHashes (1 : Fin 4) 0 (Recorded.mixedID 0 0).partsHeader := by
  refine ⟨by decide +kernel, ?_⟩
  refine (prevote_matches_iff Recorded.twoHashes holdingZero (1 : Fin 4) 0 _ (by decide +kernel)
    (by decide +kernel)).mpr ⟨0, rfl, fun _ => ⟨rfl, rfl, rfl, rfl⟩⟩

/-- Block 0 is locked in round 0, most of the others precommit nothing, and in round 1 no proposal
comes. -/
def loseProposal : List (Event (Fin 2)) :=
  Recorded.lockZero ++ [precommitBy 0 1 (Recorded.mixedID 0 0), precommitBy 0 0 .zero,
    precommitBy 0 2 .zero, fires 0 .precommitWait]

theorem loseProposal_panics :
    atHeight5.Fresh 5 ∧ ∃ n, run (handle Recorded.twoHashes) atHeight5 loseProposal = some n ∧
      n.prevoteBlock Recorded.twoHashes = some (0, (Recorded.mixedID 0 0).partsHeader) ∧
      Recorded.twoHashes.hash 0 ≠ [] ∧
      ¬ n.PrevoteMatches Recorded.twoHashes (1 : Fin 4) 0 (Recorded.mixedID 0 0).partsHeader ∧
      n.handle Recorded.twoHashes (fires 1 .propose) = none := by
  refine ⟨atHeight5_fresh, ?_⟩
  obtain ⟨n, hrun, hvoted, hprepare, hnone⟩ :
      ∃ n, run (handle Recorded.twoHashes) atHeight5 loseProposal = some n ∧
      n.prevoteBlock Recorded.twoHashes = some (0, (Recorded.mixedID 0 0).partsHeader) ∧
      n.prepareVote Recorded.twoHashes (1 : Fin 4) .prevote (Recorded.mixedID 0 0) = none ∧
      (n.handle Recorded.twoHashes (fires 1 .propose)).isNone :=
    Runs.exists_of_any (by decide +kernel)
  refine ⟨n, hrun, hvoted, by decide, ?_, isNone_iff_eq_none.mp hnone⟩
  rintro ⟨vote, bytes, hsome, -⟩
  exact absurd (hprepare.symm.trans hsome) nofun

end Node

end ShardingBC.Consensus
