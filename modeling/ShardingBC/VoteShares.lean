import ShardingBC.VoteTables

/-!
# The shares a vote set keeps

`addVerifiedVote` keeps the shares of every prevote before it looks for a conflict, and the
signature of a vote does not cover them. A log says whose vote every share came with and whether the
vote was reported as added.
-/
namespace ShardingBC.Consensus

open List Option

namespace VoteTable

variable {E : Electorate} (key : BlockID → Bytes)

/-- The validator with whose vote a share is kept. -/
def keptBy (t : VoteTable E) (vote : Vote) : Option E.Index :=
  (E.getByIndex vote.validatorIndex).filter fun i =>
    vote.validatorAddress.length ≠ 0 ∧
      (vote.height = t.height ∧ vote.round = t.round ∧ vote.type = t.type) ∧
      vote.validatorAddress = (E.validators.get i).address ∧
      t.getVote key i (key vote.blockID) = none ∧
      (vote.verify E (E.validators.get i).pubKey).isNone ∧
      vote.type = .prevote ∧ (vote.partSig.any fun part => part.id ≠ 0) ∧ vote.partBlockSig.isSome

/-- The vote is the validator's first, or for a block that a peer claims a majority for. -/
def Accepts (t : VoteTable E) (i : E.Index) (vote : Vote) : Prop :=
  t.votes i = none ∨ (t.votesByBlock (key vote.blockID)).any BlockTable.peerMaj23

variable {key} {t t' : VoteTable E} {i : E.Index} {vote : Vote} {added : Bool}

lemma collectShares_keep {part hashpart : PartSig} (htype : vote.type = .prevote)
    (hpart : vote.partSig = some part) (hid : part.id ≠ 0)
    (hhash : vote.partBlockSig = some hashpart) :
    t.collectShares vote = some { t with
      partSigs := t.partSigs ++ [part]
      partHashSigs := t.partHashSigs ++ [hashpart] } := by
  simp [collectShares, htype, hpart, hid, hhash]

lemma addVerifiedVote_shares {t₁ : VoteTable E} {conflicting : Option Vote}
    (hshares : t.collectShares vote = some t₁)
    (h : t.addVerifiedVote key i vote = some (t', added, conflicting)) :
    t'.partSigs = t₁.partSigs ∧ t'.partHashSigs = t₁.partHashSigs ∧
      (added = true ↔ t.Accepts key i vote) := by
  obtain ⟨t₁', t₂, h₁, h₂, hlast⟩ := addVerifiedVote_cases h
  obtain rfl := some.inj (hshares.symm.trans h₁)
  obtain ⟨sigs, hashSigs, rfl⟩ := collectShares_spec hshares
  obtain ⟨hconflict, votes, bits, sum, rfl, -⟩ := replaceVote_frame h₂
  unfold Accepts
  rw [← entry_peerMaj23]
  rcases hlast with ⟨rfl, hsome, hpeer, rfl⟩ | ⟨rfl, haccepts, rfl⟩
  · refine ⟨rfl, rfl, iff_of_false (by simp) ?_⟩
    rintro (hnone | hpeer')
    · rw [hconflict.mpr hnone] at hsome
      cases hsome
    · exact Bool.false_ne_true (hpeer.symm.trans hpeer')
  · obtain ⟨maj, votes', heq, -⟩ := countVote_frame key
      { t with partSigs := sigs, partHashSigs := hashSigs, votes := votes, votesBitArray := bits,
               sum := sum } i vote _
    rw [heq]
    exact ⟨rfl, rfl, iff_of_true rfl (haccepts.imp_left hconflict.mp)⟩

lemma keptBy_eq_some_iff : t.keptBy key vote = some i ↔
    t.Reaches key i vote ∧ vote.type = .prevote ∧ ∃ part hashpart, vote.partSig = some part ∧
      part.id ≠ 0 ∧ vote.partBlockSig = some hashpart := by
  simp only [keptBy, filter_eq_some_iff, decide_eq_true_eq]
  constructor
  · rintro ⟨hindex, hlen, ⟨h1, h2, h3⟩, haddr, hget, hverify, htype, hpart, hhash⟩
    obtain ⟨part, hpart, hid⟩ := (Option.any_eq_true ..).mp hpart
    obtain ⟨hashpart, hhash⟩ := isSome_iff_exists.mp hhash
    have hadmits : E.Admits t.height t.round t.type i vote :=
      ⟨E.getByIndex_eq hindex, h1, h2, h3, haddr, isNone_iff_eq_none.mp hverify⟩
    exact ⟨⟨hindex, hlen, hadmits, hget⟩, htype, part, hashpart, hpart, by simpa using hid, hhash⟩
  · rintro ⟨⟨hindex, hlen, hadmits, hget⟩, htype, part, hashpart, hpart, hid, hhash⟩
    refine ⟨hindex, hlen, ⟨hadmits.height, hadmits.round, hadmits.type⟩, hadmits.address, hget,
      ?_, htype, ?_, ?_⟩
    · rw [hadmits.verified]
      rfl
    · simp [hpart, hid]
    · simp [hhash]

lemma addVote_of_kept {err : Option VoteError} (hkept : t.keptBy key vote = some i)
    (h : t.addVote key vote = some (t', added, err)) :
    t'.partSigs = t.partSigs ++ vote.partSig.toList ∧
      t'.partHashSigs = t.partHashSigs ++ vote.partBlockSig.toList ∧
      (added = true ↔ t.Accepts key i vote) := by
  obtain ⟨hreaches, htype, part, hashpart, hpart, hid, hhash⟩ := keptBy_eq_some_iff.mp hkept
  rw [hreaches.addVote_eq] at h
  obtain ⟨⟨_, _, conflicting⟩, hadd, heq⟩ := map_eq_some_iff.mp h
  cases heq
  rw [hpart, hhash]
  exact addVerifiedVote_shares (collectShares_keep htype hpart hid hhash) hadd

lemma addVote_of_not_kept {err : Option VoteError} (hkept : t.keptBy key vote = none)
    (h : t.addVote key vote = some (t', added, err)) :
    t'.partSigs = t.partSigs ∧ t'.partHashSigs = t.partHashSigs := by
  rcases addVote_cases h with ⟨rfl, -⟩ | ⟨i, conflicting, hreaches, hadd⟩
  · exact ⟨rfl, rfl⟩
  · obtain ⟨t₁, h₁, -⟩ := bind_eq_some_iff.mp hadd
    obtain ⟨hsigs, hhashes, -⟩ := addVerifiedVote_shares h₁ hadd
    rw [hsigs, hhashes]
    unfold collectShares at h₁
    split_ifs at h₁ with htype
    · obtain ⟨part, hpart, h₁⟩ := bind_eq_some_iff.mp h₁
      split_ifs at h₁ with hid
      · obtain ⟨hashpart, hhash, -⟩ := bind_eq_some_iff.mp h₁
        rw [keptBy_eq_some_iff.mpr
          ⟨hreaches, htype, part, hashpart, hpart, hid, hhash⟩] at hkept
        cases hkept
      · cases h₁
        exact ⟨rfl, rfl⟩
    · cases h₁
      exact ⟨rfl, rfl⟩

end VoteTable

/-- A kept share: the validator of its vote, the vote, and whether it was reported as added. -/
structure KeptShare (E : Electorate) where
  validator : E.Index
  vote : Vote
  added : Bool

/-- A vote set with the log of its shares. -/
structure ShareLog (E : Electorate) where
  table : VoteTable E
  kept : List (KeptShare E)

namespace ShareLog

variable {E : Electorate} (key : BlockID → Bytes) (released : E.Index → Vote → Prop)

def new (height round : ℤ) : ShareLog E := ⟨.new height round .prevote, []⟩

def step (s : ShareLog E) : VoteCall → Option (ShareLog E)
  | .addVote vote =>
    (s.table.addVote key vote).map fun r =>
      ⟨r.1, s.kept ++ ((s.table.keptBy key vote).map fun i => ⟨i, vote, r.2.1⟩).toList⟩
  | .setPeerMaj23 peerID blockID =>
    some { s with table := (s.table.setPeerMaj23 key peerID blockID).1 }

/-- One share for a validator, of a vote that was added and that the validator released so. -/
structure Authentic (s : ShareLog E) : Prop where
  once : (s.kept.map KeptShare.validator).Nodup
  added : ∀ e ∈ s.kept, e.added = true
  released : ∀ e ∈ s.kept, released e.validator e.vote

/-- The lists of the vote set are those of the log. -/
def Logs (s : ShareLog E) : Prop :=
  s.table.partSigs = s.kept.flatMap (fun e => e.vote.partSig.toList) ∧
    s.table.partHashSigs = s.kept.flatMap fun e => e.vote.partBlockSig.toList

/-- A vote with shares to keep is the validator's first such vote, is accepted, and has the shares
that the validator gave it. -/
def Faithful (s : ShareLog E) : VoteCall → Prop
  | .addVote vote => ∀ i, s.table.keptBy key vote = some i →
      (∀ e ∈ s.kept, e.validator ≠ i) ∧ s.table.Accepts key i vote ∧ released i vote
  | .setPeerMaj23 .. => True

variable {key released} {s s' : ShareLog E} {call : VoteCall}

lemma step_authentic_iff (h : s.Authentic released) (hstep : s.step key call = some s') :
    s'.Authentic released ↔ s.Faithful key released call := by
  cases call with
  | setPeerMaj23 peerID blockID =>
    cases hstep
    exact iff_of_true ⟨h.once, h.added, h.released⟩ trivial
  | addVote vote =>
    obtain ⟨⟨t', added, err⟩, hadd, rfl⟩ := map_eq_some_iff.mp hstep
    simp only [Faithful]
    cases hkept : s.table.keptBy key vote with
    | none =>
      simpa using ⟨h.once, h.added, h.released⟩
    | some i =>
      have hadded := (VoteTable.addVote_of_kept hkept hadd).2.2
      simp only [some.injEq, forall_eq', map_some, toList_some]
      constructor
      · rintro ⟨honce, hall, hrel⟩
        refine ⟨?_, hadded.mp (hall ⟨i, vote, added⟩ (by simp)), hrel ⟨i, vote, added⟩ (by simp)⟩
        intro e he hei
        rw [map_append, nodup_append] at honce
        exact honce.2.2 e.validator (mem_map_of_mem he) i (by simp) hei
      · rintro ⟨hfresh, haccepts, hrel⟩
        refine ⟨?_, ?_, ?_⟩
        · rw [map_append, nodup_append]
          refine ⟨h.once, by simp, ?_⟩
          intro j hj k hk
          obtain ⟨e, he, rfl⟩ := mem_map.mp hj
          simp only [map_cons, map_nil, mem_singleton] at hk
          exact hk ▸ hfresh e he
        · intro e he
          rcases mem_append.mp he with he | he
          · exact h.added e he
          · rw [mem_singleton.mp he]
            exact hadded.mpr haccepts
        · intro e he
          rcases mem_append.mp he with he | he
          · exact h.released e he
          · rw [mem_singleton.mp he]
            exact hrel

lemma Logs.step (h : s.Logs) (hstep : s.step key call = some s') : s'.Logs := by
  cases call with
  | setPeerMaj23 peerID blockID =>
    cases hstep
    obtain ⟨peers, blocks, heq, -⟩ := VoteTable.setPeerMaj23_cases key s.table peerID blockID
    rw [heq]
    exact h
  | addVote vote =>
    obtain ⟨⟨t', added, err⟩, hadd, rfl⟩ := map_eq_some_iff.mp hstep
    unfold Logs
    cases hkept : s.table.keptBy key vote with
    | none =>
      obtain ⟨hsigs, hhashes⟩ := VoteTable.addVote_of_not_kept hkept hadd
      simpa using ⟨hsigs.trans h.1, hhashes.trans h.2⟩
    | some i =>
      obtain ⟨hsigs, hhashes, -⟩ := VoteTable.addVote_of_kept hkept hadd
      simp only [map_some, toList_some, flatMap_append, flatMap_singleton]
      exact ⟨hsigs.trans (by rw [h.1]), hhashes.trans (by rw [h.2])⟩

lemma faithful_of_step_eq_none (h : s.step key call = none) : s.Faithful key released call := by
  cases call with
  | setPeerMaj23 peerID blockID => cases h
  | addVote vote =>
    intro i hkept
    obtain ⟨-, -, part, hashpart, hpart, -, hhash⟩ := VoteTable.keptBy_eq_some_iff.mp hkept
    have hshares : vote.HasShares := fun _ => ⟨part, hpart, fun _ => by simp [hhash]⟩
    have hsome : (s.table.addVote key vote).isSome := VoteTable.addVote_isSome hshares
    rw [map_eq_none_iff.mp h] at hsome
    cases hsome

lemma length_flatMap_toList_le (kept : List (KeptShare E)) (f : KeptShare E → Option PartSig) :
    (kept.flatMap fun e => (f e).toList).length ≤ kept.length := by
  induction kept with
  | nil => simp
  | cons e kept ih =>
    have hone : (f e).toList.length ≤ 1 := by cases f e <;> simp
    rw [flatMap_cons, length_append, length_cons]
    omega

lemma Authentic.length_le (h : s.Authentic released) (hlogs : s.Logs) :
    s.table.partSigs.length ≤ E.validators.length ∧
      s.table.partHashSigs.length ≤ E.validators.length := by
  have hkept : s.kept.length ≤ E.validators.length := by
    have hcard := h.once.length_le_card
    rwa [length_map, Fintype.card_fin] at hcard
  rw [hlogs.1, hlogs.2]
  exact ⟨(length_flatMap_toList_le _ _).trans hkept, (length_flatMap_toList_le _ _).trans hkept⟩

lemma step_table (s : ShareLog E) (call : VoteCall) :
    (s.step key call).map ShareLog.table = s.table.step key call := by
  cases call with
  | addVote vote =>
    rw [step, Option.map_map]
    rfl
  | setPeerMaj23 peerID blockID => rfl

lemma run_table (s : ShareLog E) (calls : List VoteCall) :
    (Runs.run (step key) s calls).map ShareLog.table =
      Runs.run (VoteTable.step key) s.table calls := by
  induction calls generalizing s with
  | nil => rfl
  | cons call calls ih =>
    rw [Runs.run, Runs.run, ← step_table]
    cases s.step key call with
    | none => rfl
    | some s' => exact ih s'

/-- The shares of a vote set are bounded and authentic all along a run just if every vote
with shares to keep is the first of its validator with some, is accepted, and has the shares
that the validator gave it. -/
theorem shares_authentic_iff (key : BlockID → Bytes) (released : E.Index → Vote → Prop)
    (height round : ℤ) (calls : List VoteCall) :
    ((∀ n s, Runs.run (step key) (new height round) (calls.take n) = some s →
        s.Authentic released) ↔
      Runs.Guarded (step key) (Faithful key released) (new height round) calls) ∧
    (∀ s, Runs.run (step key) (new height round) calls = some s →
      (s.Logs ∧ (s.Authentic released → s.table.partSigs.length ≤ E.validators.length ∧
        s.table.partHashSigs.length ≤ E.validators.length))) ∧
    (Runs.run (step key) (new height round : ShareLog E) calls).map ShareLog.table =
      Runs.run (VoteTable.step key) (.new height round .prevote) calls := by
  refine ⟨?_, ?_, run_table _ calls⟩
  · apply Runs.forall_take_iff_guarded
    · intro s call
      exact faithful_of_step_eq_none
    · intro s call s'
      exact step_authentic_iff
    · exact ⟨nodup_nil, by simp [new], by simp [new]⟩
  · intro s hrun
    have hlogs : s.Logs := Runs.invariant (fun _ _ _ h hstep => h.step hstep) hrun ⟨rfl, rfl⟩
    exact ⟨hlogs, fun h => h.length_le hlogs⟩

open VoteTable (threeVoters)

/-- The prevotes of the first validator for four blocks. -/
def conflictingStream : List VoteCall :=
  [[1], [2], [3], [4]].map fun hash => .addVote (VoteTable.prevoteFor 0 hash)

/-- The prevote of the first validator with another share. -/
def changedPrevote : Vote := { VoteTable.prevoteFor 0 [1] with partSig := some ⟨[7], 2⟩ }

theorem shares_not_bounded :
    (Runs.run (step BlockID.hash) (new 1 0 : ShareLog threeVoters) conflictingStream).any (fun s =>
        s.table.partSigs.length = 4 ∧ s.kept.map KeptShare.added = [true, false, false, false]) ∧
      threeVoters.validators.length = 3 ∧
      (Runs.run (step BlockID.hash) (new 1 0 : ShareLog threeVoters) [.addVote changedPrevote]).any
        (fun s => s.table.partSigs = [⟨[7], 2⟩] ∧ s.kept.map KeptShare.added = [true]) ∧
      canonicalizeVote threeVoters.chainID changedPrevote =
        canonicalizeVote threeVoters.chainID (VoteTable.prevoteFor 0 [1]) := by
  decide +kernel

end ShareLog

end ShardingBC.Consensus
