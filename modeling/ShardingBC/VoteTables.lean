import ShardingBC.Runs
import ShardingBC.VoteSet

/-!
# The tables of a vote set

`VoteSet` with all its tables: the bit arrays, and the votes by the key of their block. Nothing is
assumed of `BlockID.Key`, which maps some block IDs to the same bytes, nor of the votes.
-/
namespace ShardingBC.Consensus

open Function Option

/-- `blockVotes`. -/
structure BlockTable (E : Electorate) where
  peerMaj23 : Bool
  bitArray : E.Index → Bool
  votes : E.Index → Option Vote
  sum : ℕ

def BlockTable.new {E : Electorate} (peerMaj23 : Bool) : BlockTable E :=
  ⟨peerMaj23, fun _ => false, fun _ => none, 0⟩

def BlockTable.addVerifiedVote {E : Electorate} (bt : BlockTable E) (i : E.Index) (vote : Vote) :
    BlockTable E :=
  if bt.votes i = none then
    { bt with
      bitArray := Function.update bt.bitArray i true
      votes := Function.update bt.votes i (some vote)
      sum := bt.sum + E.power i }
  else bt

structure VoteTable (E : Electorate) where
  height : ℤ
  round : ℤ
  type : SignedMsgType
  votesBitArray : E.Index → Bool
  votes : E.Index → Option Vote
  sum : ℕ
  maj23 : Option BlockID
  votesByBlock : Bytes → Option (BlockTable E)
  peerMaj23s : Bytes → Option BlockID
  partSigs : List PartSig
  partHashSigs : List PartSig

namespace VoteTable

variable {E : Electorate} (key : BlockID → Bytes)

def new (height round : ℤ) (type : SignedMsgType) : VoteTable E :=
  ⟨height, round, type, fun _ => false, fun _ => none, 0, none, fun _ => none, fun _ => none, [], []⟩

def getVote (t : VoteTable E) (i : E.Index) (blockKey : Bytes) : Option Vote :=
  match (t.votes i).filter fun existing => key existing.blockID = blockKey with
  | some existing => some existing
  | none => (t.votesByBlock blockKey).bind fun bt => bt.votes i

/-- The beginning of `addVerifiedVote`; `none` is a nil dereference. -/
def collectShares (t : VoteTable E) (vote : Vote) : Option (VoteTable E) :=
  if vote.type = .prevote then do
    let part ← vote.partSig
    if part.id ≠ 0 then do
      let hashpart ← vote.partBlockSig
      some { t with
        partSigs := t.partSigs ++ [part]
        partHashSigs := t.partHashSigs ++ [hashpart] }
    else some t
  else some t

/-- The entry in `votes`, with the vote it conflicts with; `none` is the panic on a
duplicate. -/
def replaceVote (t : VoteTable E) (i : E.Index) (vote : Vote) :
    Option (VoteTable E × Option Vote) :=
  match t.votes i with
  | some existing =>
    if existing.blockID = vote.blockID then none
    else if t.maj23.any fun x => key x = key vote.blockID then
      some ({ t with
        votes := Function.update t.votes i (some vote)
        votesBitArray := Function.update t.votesBitArray i true }, some existing)
    else some (t, some existing)
  | none =>
    some ({ t with
      votes := Function.update t.votes i (some vote)
      votesBitArray := Function.update t.votesBitArray i true
      sum := t.sum + E.power i }, none)

/-- The entry in `votesByBlock`. -/
def countVote (t : VoteTable E) (i : E.Index) (vote : Vote) (bt : BlockTable E) : VoteTable E :=
  let bt' := bt.addVerifiedVote i vote
  let t := { t with votesByBlock := Function.update t.votesByBlock (key vote.blockID) (some bt') }
  if bt.sum < E.quorum ∧ E.quorum ≤ bt'.sum ∧ t.maj23 = none then
    { t with maj23 := some vote.blockID, votes := fun j => (bt'.votes j).or (t.votes j) }
  else t

def addVerifiedVote (t : VoteTable E) (i : E.Index) (vote : Vote) :
    Option (VoteTable E × Bool × Option Vote) := do
  let t ← t.collectShares vote
  let (t, conflicting) ← t.replaceVote key i vote
  match t.votesByBlock (key vote.blockID) with
  | some bt =>
    if conflicting.isSome && !bt.peerMaj23 then some (t, false, conflicting)
    else some (t.countVote key i vote bt, true, conflicting)
  | none =>
    if conflicting.isSome then some (t, false, conflicting)
    else some (t.countVote key i vote (.new false), true, conflicting)

/-- `addVote`; `none` is a panic. -/
def addVote (t : VoteTable E) (vote : Vote) : Option (VoteTable E × Bool × Option VoteError) :=
  if vote.validatorIndex < 0 then some (t, false, some .invalidValidatorIndex)
  else if vote.validatorAddress.length = 0 then some (t, false, some .invalidValidatorAddress)
  else if vote.height ≠ t.height ∨ vote.round ≠ t.round ∨ vote.type ≠ t.type then
    some (t, false, some .unexpectedStep)
  else
    match E.getByIndex vote.validatorIndex with
    | none => some (t, false, some .invalidValidatorIndex)
    | some i =>
      let val := E.validators.get i
      if vote.validatorAddress ≠ val.address then some (t, false, some .invalidValidatorAddress)
      else
        match t.getVote key i (key vote.blockID) with
        | some existing =>
          if existing.signature = vote.signature then some (t, false, none)
          else some (t, false, some .nonDeterministicSignature)
        | none =>
          match vote.verify E val.pubKey with
          | some err => some (t, false, some err)
          | none =>
            match t.addVerifiedVote key i vote with
            | none => none
            | some (t, added, some conflicting) =>
              some (t, added, some (.conflictingVotes conflicting vote))
            | some (t, added, none) => if added then some (t, true, none) else none

/-- `SetPeerMaj23`; whether there is no error. -/
def setPeerMaj23 (t : VoteTable E) (peerID : Bytes) (blockID : BlockID) : VoteTable E × Bool :=
  match t.peerMaj23s peerID with
  | some existing => (t, decide (existing = blockID))
  | none =>
    let t := { t with peerMaj23s := Function.update t.peerMaj23s peerID (some blockID) }
    match t.votesByBlock (key blockID) with
    | some bt =>
      if bt.peerMaj23 then (t, true)
      else
        ({ t with
          votesByBlock := Function.update t.votesByBlock (key blockID)
            (some { bt with peerMaj23 := true }) }, true)
    | none =>
      ({ t with votesByBlock := Function.update t.votesByBlock (key blockID) (some (.new true)) },
        true)

/-! ## The invariant -/

/-- The power of those who have voted. -/
def tally (votes : E.Index → Option Vote) : ℕ := ∑ i, if (votes i).isSome then E.power i else 0

lemma tally_congr {votes votes' : E.Index → Option Vote}
    (h : ∀ i, (votes i).isSome = (votes' i).isSome) : tally votes = tally votes' := by
  simp only [tally, h]

lemma update_bits {bits : E.Index → Bool} {votes : E.Index → Option Vote}
    (h : ∀ j, bits j = (votes j).isSome) (i : E.Index) (vote : Vote) (j : E.Index) :
    Function.update bits i true j = (Function.update votes i (some vote) j).isSome := by
  by_cases hj : j = i
  · subst hj
    rw [update_self, update_self]
    rfl
  · rw [update_of_ne hj, update_of_ne hj, h j]

end VoteTable

/-- The vote is one of the validator for the height, round and type. -/
structure Electorate.Admits (E : Electorate) (height round : ℤ) (type : SignedMsgType)
    (i : E.Index) (vote : Vote) : Prop where
  index : vote.validatorIndex = (i : ℕ)
  height : vote.height = height
  round : vote.round = round
  type : vote.type = type
  address : vote.validatorAddress = (E.validators.get i).address
  verified : vote.verify E (E.validators.get i).pubKey = none

/-- The bit array and the sum of a block are those of its votes. -/
structure BlockTable.Counts {E : Electorate} (bt : BlockTable E) : Prop where
  bits : ∀ i, bt.bitArray i = (bt.votes i).isSome
  sum : bt.sum = VoteTable.tally bt.votes

namespace BlockTable

variable {E : Electorate} {bt : BlockTable E} {i : E.Index}

lemma Counts.addVerifiedVote (h : bt.Counts) (hnone : bt.votes i = none) (vote : Vote) :
    (bt.addVerifiedVote i vote).Counts := by
  unfold BlockTable.addVerifiedVote
  rw [if_pos hnone]
  refine ⟨VoteTable.update_bits h.bits i vote, ?_⟩
  rw [VoteTable.tally, BlockVotes.sum_update bt.votes hnone, h.sum]
  rfl

lemma addVerifiedVote_votes (hnone : bt.votes i = none) (vote : Vote) :
    (bt.addVerifiedVote i vote).votes = Function.update bt.votes i (some vote) := by
  rw [addVerifiedVote, if_pos hnone]

lemma sum_le_addVerifiedVote (bt : BlockTable E) (i : E.Index) (vote : Vote) :
    bt.sum ≤ (bt.addVerifiedVote i vote).sum := by
  unfold addVerifiedVote
  split_ifs
  · exact Nat.le_add_right ..
  · exact le_refl _

end BlockTable

namespace VoteTable

variable {E : Electorate} (key : BlockID → Bytes)

/-- How the tables belong together. Before a majority the primary votes are recorded under their
blocks, but for those that `pending` allows. -/
structure ConsistentBut (pending : E.Index → Vote → Prop) (t : VoteTable E) : Prop where
  bits : ∀ i, t.votesBitArray i = (t.votes i).isSome
  sum : t.sum = tally t.votes
  listed : ∀ i v, t.votes i = some v → E.Admits t.height t.round t.type i v
  counts : ∀ k bt, t.votesByBlock k = some bt → bt.Counts
  counted : ∀ k bt, t.votesByBlock k = some bt → ∀ i v, bt.votes i = some v →
    key v.blockID = k ∧ E.Admits t.height t.round t.type i v ∧ (t.votes i).isSome
  recorded : t.maj23 = none → ∀ i v, t.votes i = some v → pending i v ∨
    ∃ bt, t.votesByBlock (key v.blockID) = some bt ∧ bt.votes i = some v
  small : t.maj23 = none → ∀ k bt, t.votesByBlock k = some bt → bt.sum < E.quorum
  quorum : ∀ x, t.maj23 = some x → ∃ bt, t.votesByBlock (key x) = some bt ∧ E.quorum ≤ bt.sum
  chosen : ∀ x, t.maj23 = some x → ∀ bt, t.votesByBlock (key x) = some bt →
    ∀ i v, bt.votes i = some v → t.votes i = some v

abbrev Consistent (t : VoteTable E) : Prop := t.ConsistentBut key fun _ _ => False

variable {key} {pending : E.Index → Vote → Prop} {t t' : VoteTable E} {i : E.Index} {vote : Vote}

lemma consistent_new (key : BlockID → Bytes) (height round : ℤ) (type : SignedMsgType) :
    (new height round type : VoteTable E).Consistent key where
  bits := fun _ => rfl
  sum := by simp [new, tally]
  listed := by simp [new]
  counts := by simp [new]
  counted := by simp [new]
  recorded := by simp [new]
  small := by simp [new]
  quorum := by simp [new]
  chosen := by simp [new]

lemma votes_of_getVote_eq_none (h : t.getVote key i (key vote.blockID) = none) :
    ∀ v, t.votes i = some v → key v.blockID ≠ key vote.blockID := by
  intro v hv hkey
  rw [getVote, hv, filter_some, if_pos (decide_eq_true hkey)] at h
  cases h

/-- The votes for a block, also when there are none. -/
def entry (t : VoteTable E) (k : Bytes) : BlockTable E := (t.votesByBlock k).getD (.new false)

lemma entry_of_some {k : Bytes} {bt : BlockTable E} (h : t.votesByBlock k = some bt) :
    t.entry k = bt := by
  rw [entry, h, getD_some]

@[simp] lemma entry_peerMaj23 (t : VoteTable E) (k : Bytes) :
    (t.entry k).peerMaj23 = (t.votesByBlock k).any BlockTable.peerMaj23 := by
  unfold entry
  cases t.votesByBlock k <;> rfl

lemma forall_entry {P : BlockTable E → Prop} {k : Bytes} (hnew : P (.new false))
    (hold : ∀ bt, t.votesByBlock k = some bt → P bt) : P (t.entry k) := by
  cases hbt : t.votesByBlock k with
  | none => rwa [entry, hbt]
  | some bt => rw [entry_of_some hbt]; exact hold bt hbt

lemma entry_of_getVote_eq_none (h : t.getVote key i (key vote.blockID) = none) :
    (t.entry (key vote.blockID)).votes i = none := by
  refine forall_entry (P := fun bt => bt.votes i = none) rfl fun bt hbt => ?_
  unfold getVote at h
  split at h
  · cases h
  · simpa [hbt] using h

lemma ConsistentBut.entry_counts (h : t.ConsistentBut key pending) (k : Bytes) :
    (t.entry k).Counts :=
  forall_entry ⟨fun _ => rfl, by simp [BlockTable.new, tally]⟩ (h.counts k)

lemma ConsistentBut.entry_counted (h : t.ConsistentBut key pending) (k : Bytes) :
    ∀ j v, (t.entry k).votes j = some v →
      key v.blockID = k ∧ E.Admits t.height t.round t.type j v ∧ (t.votes j).isSome :=
  forall_entry (P := fun bt => ∀ j v, bt.votes j = some v → _) (by simp [BlockTable.new])
    (h.counted k)

lemma ConsistentBut.entry_small (h : t.ConsistentBut key pending) (k : Bytes)
    (hmaj : t.maj23 = none) : (t.entry k).sum < E.quorum :=
  forall_entry (P := fun bt => bt.sum < E.quorum) (Nat.succ_pos _) (h.small hmaj k)

lemma ConsistentBut.entry_chosen (h : t.ConsistentBut key pending) {x : BlockID}
    (hx : t.maj23 = some x) :
    ∀ j v, (t.entry (key x)).votes j = some v → t.votes j = some v :=
  forall_entry (P := fun bt => ∀ j v, bt.votes j = some v → _) (by simp [BlockTable.new])
    (h.chosen x hx)

/-- The votes for one block are replaced by more of them. -/
lemma ConsistentBut.setEntry {k : Bytes} {bt : BlockTable E} (h : t.ConsistentBut key pending)
    (hcounts : bt.Counts)
    (hcounted : ∀ j v, bt.votes j = some v →
      key v.blockID = k ∧ E.Admits t.height t.round t.type j v ∧ (t.votes j).isSome)
    (hkept : ∀ j v, (t.entry k).votes j = some v → bt.votes j = some v)
    (hsum : (t.entry k).sum ≤ bt.sum)
    (hpending : ∀ j v, pending j v → key v.blockID = k ∧ bt.votes j = some v)
    (hsmall : t.maj23 = none → bt.sum < E.quorum)
    (hchosen : ∀ x, t.maj23 = some x → key x = k → ∀ j v, bt.votes j = some v →
      t.votes j = some v) (peers : Bytes → Option BlockID) :
    Consistent key { t with
      peerMaj23s := peers
      votesByBlock := Function.update t.votesByBlock k (some bt) } where
  bits := h.bits
  sum := h.sum
  listed := h.listed
  counts := forall_update_some hcounts h.counts
  counted := forall_update_some hcounted h.counted
  recorded := by
    intro hmaj j v hv
    refine .inr ?_
    rcases h.recorded hmaj j v hv with hp | ⟨bt₀, hbt₀, hv₀⟩
    · obtain ⟨rfl, hv'⟩ := hpending j v hp
      exact ⟨bt, update_self .., hv'⟩
    · refine exists_update_some hbt₀ hv₀ fun hk => hkept j v ?_
      rw [← hk, entry_of_some hbt₀, hv₀]
  small := fun hmaj => forall_update_some (hsmall hmaj) (h.small hmaj)
  quorum := by
    intro x hx
    obtain ⟨bt₀, hbt₀, hq⟩ := h.quorum x hx
    refine exists_update_some hbt₀ hq fun hk => hq.trans ?_
    rwa [← entry_of_some hbt₀, hk]
  chosen := by
    intro x hx bt₀ hbt₀
    rcases update_some_cases hbt₀ with ⟨hk, rfl⟩ | ⟨-, hbt₀⟩
    · exact hchosen x hx hk
    · exact h.chosen x hx bt₀ hbt₀

lemma Consistent.list (h : t.Consistent key)
    (hadmits : E.Admits t.height t.round t.type i vote)
    (hget : t.getVote key i (key vote.blockID) = none)
    (hfree : (t.votes i = none) ∨ ∃ x, t.maj23 = some x ∧ key x = key vote.blockID) (sum : ℕ)
    (hsum : sum = tally (Function.update t.votes i (some vote))) :
    ConsistentBut key (fun j v => j = i ∧ v = vote) { t with
      votes := Function.update t.votes i (some vote)
      votesBitArray := Function.update t.votesBitArray i true
      sum := sum } where
  bits := update_bits h.bits i vote
  sum := hsum
  listed := forall_update_some hadmits h.listed
  counts := h.counts
  counted := by
    intro k bt hbt j v hv
    obtain ⟨hkey, hadm, hsome⟩ := h.counted k bt hbt j v hv
    refine ⟨hkey, hadm, ?_⟩
    by_cases hj : j = i
    · subst hj
      simp
    · simpa only [update_of_ne hj] using hsome
  recorded := fun hmaj => forall_update_some (.inl ⟨rfl, rfl⟩) fun j v hv =>
    .inr ((h.recorded hmaj j v hv).resolve_left id)
  small := h.small
  quorum := h.quorum
  chosen := by
    intro x hx bt hbt j v hv
    have hold := h.chosen x hx bt hbt j v hv
    by_cases hj : j = i
    · subst hj
      rcases hfree with hnone | ⟨y, hy, hkey⟩
      · rw [hnone] at hold
        cases hold
      · obtain rfl := some.inj (hx.symm.trans hy)
        exact absurd ((h.counted _ bt hbt j v hv).1.trans hkey)
          (votes_of_getVote_eq_none hget v hold)
    · simpa only [update_of_ne hj] using hold

/-- What `replaceVote` does to the tables. -/
lemma Consistent.replaceVote {conflicting : Option Vote} (h : t.Consistent key)
    (hadmits : E.Admits t.height t.round t.type i vote)
    (hget : t.getVote key i (key vote.blockID) = none)
    (hr : t.replaceVote key i vote = some (t', conflicting)) :
    t'.ConsistentBut key (fun j v => j = i ∧ v = vote) ∧
      (conflicting.isSome → t'.Consistent key) ∧ (t'.votes i).isSome ∧
      ∀ x, t'.maj23 = some x → key x = key vote.blockID → t'.votes i = some vote := by
  unfold VoteTable.replaceVote at hr
  split at hr
  · rename_i existing hv
    split_ifs at hr with hdup hmaj
    · cases hr
      obtain ⟨x, hx, hkey⟩ : ∃ x, t.maj23 = some x ∧ key x = key vote.blockID := by
        obtain ⟨x, hx, hkey⟩ := (any_eq_true ..).mp hmaj
        exact ⟨x, hx, by simpa using hkey⟩
      have hlist := h.list hadmits hget (.inr ⟨x, hx, hkey⟩) t.sum
        (h.sum.trans (tally_congr fun j => by by_cases hj : j = i <;> simp [hj, hv]))
      refine ⟨hlist, fun _ => ?_, by simp, fun _ _ _ => by simp⟩
      exact { hlist with recorded := fun hnone => by simp [hx] at hnone }
    · cases hr
      have hbut : t.ConsistentBut key fun j v => j = i ∧ v = vote :=
        { h with recorded := fun hmaj j v hv => .inr ((h.recorded hmaj j v hv).resolve_left id) }
      refine ⟨hbut, fun _ => h, by simp [hv], fun x hx hkey => ?_⟩
      simp [hx, hkey] at hmaj
  · rename_i hv
    cases hr
    have hlist := h.list hadmits hget (.inl hv) (t.sum + E.power i) (by
      rw [h.sum, tally, tally, BlockVotes.sum_update t.votes hv])
    exact ⟨hlist, by simp, by simp, fun _ _ _ => by simp⟩

lemma ConsistentBut.countVote (h : t.ConsistentBut key fun j v => j = i ∧ v = vote)
    (hadmits : E.Admits t.height t.round t.type i vote) (hlisted : (t.votes i).isSome)
    (hchosen : ∀ x, t.maj23 = some x → key x = key vote.blockID → t.votes i = some vote)
    (hnone : (t.entry (key vote.blockID)).votes i = none) :
    (t.countVote key i vote (t.entry (key vote.blockID))).Consistent key := by
  have hcounts := (h.entry_counts (key vote.blockID)).addVerifiedVote hnone vote
  have hvotes := BlockTable.addVerifiedVote_votes hnone vote
  have hcounted : ∀ j v, ((t.entry (key vote.blockID)).addVerifiedVote i vote).votes j = some v →
      key v.blockID = key vote.blockID ∧ E.Admits t.height t.round t.type j v ∧
        (t.votes j).isSome := by
    rw [hvotes]
    exact forall_update_some ⟨rfl, hadmits, hlisted⟩ (h.entry_counted _)
  unfold VoteTable.countVote
  dsimp only
  split_ifs with hmaj
  · -- the block is the first to get a majority; who is recorded for it has a primary vote
    have hsome : ∀ j, ((((t.entry (key vote.blockID)).addVerifiedVote i vote).votes j).or
        (t.votes j)).isSome = (t.votes j).isSome := by
      intro j
      cases hv : ((t.entry (key vote.blockID)).addVerifiedVote i vote).votes j with
      | none => rfl
      | some v =>
        rw [(hcounted j v hv).2.2]
        rfl
    refine ⟨fun j => ?_, ?_, ?_, forall_update_some hcounts h.counts, ?_, by simp, by simp, ?_, ?_⟩
    · rw [hsome, h.bits]
    · rw [h.sum]
      exact (tally_congr hsome).symm
    · intro j v hv
      rcases or_eq_some_iff.mp hv with hv | ⟨-, hv⟩
      · exact (hcounted j v hv).2.1
      · exact h.listed j v hv
    · intro k bt hbt j v hv
      obtain ⟨hkey, hadm, hlist⟩ := forall_update_some hcounted h.counted k bt hbt j v hv
      exact ⟨hkey, hadm, by rw [hsome, hlist]⟩
    · intro x hx
      cases hx
      exact ⟨_, update_self .., hmaj.2.1⟩
    · intro x hx bt hbt j v hv
      cases hx
      simp only [update_self, some.injEq] at hbt
      subst hbt
      exact or_eq_some_iff.mpr (.inl hv)
  · refine h.setEntry hcounts hcounted ?_ (BlockTable.sum_le_addVerifiedVote ..) ?_ ?_ ?_ _
    · intro j v hv
      have hj : j ≠ i := by
        rintro rfl
        rw [hnone] at hv
        cases hv
      rw [hvotes, update_of_ne hj, hv]
    · rintro j v ⟨rfl, rfl⟩
      exact ⟨rfl, by rw [hvotes, update_self]⟩
    · intro hnomaj
      by_contra hlarge
      exact hmaj ⟨h.entry_small _ hnomaj, not_lt.mp hlarge, hnomaj⟩
    · intro x hx hk
      rw [hvotes]
      exact forall_update_some (hchosen x hx hk) (hk ▸ h.entry_chosen hx)

/-! ## What the calls can do -/

variable {added : Bool} {conflicting : Option Vote}

lemma collectShares_spec (h : t.collectShares vote = some t') :
    ∃ sigs hashSigs, t' = { t with partSigs := sigs, partHashSigs := hashSigs } := by
  unfold collectShares at h
  split_ifs at h with htype
  · obtain ⟨part, -, h⟩ := bind_eq_some_iff.mp h
    split_ifs at h with hid
    · obtain ⟨hashpart, -, h⟩ := bind_eq_some_iff.mp h
      exact ⟨_, _, (some.inj h).symm⟩
    · exact ⟨_, _, (some.inj h).symm⟩
  · exact ⟨_, _, (some.inj h).symm⟩

lemma replaceVote_frame (h : t.replaceVote key i vote = some (t', conflicting)) :
    (conflicting = none ↔ t.votes i = none) ∧ ∃ votes bits sum, t' = { t with
      votes := votes
      votesBitArray := bits
      sum := sum } ∧ (votes = t.votes ∨ votes = Function.update t.votes i (some vote)) := by
  unfold replaceVote at h
  split at h
  · rename_i hv
    split_ifs at h
    · cases h
      exact ⟨by simp [hv], _, _, _, rfl, .inr rfl⟩
    · cases h
      exact ⟨by simp [hv], _, _, _, rfl, .inl rfl⟩
  · rename_i hv
    cases h
    exact ⟨by simp [hv], _, _, _, rfl, .inr rfl⟩

/-- One entry is counted, and it may make the first majority. -/
lemma countVote_frame (key : BlockID → Bytes) (t : VoteTable E) (i : E.Index) (vote : Vote)
    (bt : BlockTable E) :
    ∃ maj votes, t.countVote key i vote bt = { t with
      maj23 := maj
      votes := votes
      votesByBlock := Function.update t.votesByBlock (key vote.blockID)
        (some (bt.addVerifiedVote i vote)) } ∧
      ((maj = t.maj23 ∧ votes = t.votes) ∨ t.maj23 = none ∧ maj = some vote.blockID ∧
        votes = fun j => ((bt.addVerifiedVote i vote).votes j).or (t.votes j)) := by
  unfold countVote
  dsimp only
  split_ifs with hmaj
  · exact ⟨_, _, rfl, .inr ⟨hmaj.2.2, rfl, rfl⟩⟩
  · exact ⟨_, _, rfl, .inl ⟨rfl, rfl⟩⟩

/-- A conflicting vote counts only for a block of which a peer claims a majority. -/
lemma addVerifiedVote_cases (h : t.addVerifiedVote key i vote = some (t', added, conflicting)) :
    ∃ t₁ t₂, t.collectShares vote = some t₁ ∧ t₁.replaceVote key i vote = some (t₂, conflicting) ∧
      ((added = false ∧ conflicting.isSome ∧ (t₂.entry (key vote.blockID)).peerMaj23 = false ∧
          t' = t₂) ∨
        added = true ∧ (conflicting = none ∨ (t₂.entry (key vote.blockID)).peerMaj23 = true) ∧
          t' = t₂.countVote key i vote (t₂.entry (key vote.blockID))) := by
  obtain ⟨t₁, h₁, hrest⟩ := bind_eq_some_iff.mp h
  obtain ⟨⟨t₂, c⟩, h₂, hlast⟩ := bind_eq_some_iff.mp hrest
  refine ⟨t₁, t₂, h₁, ?_⟩
  dsimp only at hlast
  split at hlast
  · rename_i bt hbt
    rw [entry_of_some hbt]
    split_ifs at hlast with hcond
    · cases hlast
      simp only [Bool.and_eq_true, Bool.not_eq_true'] at hcond
      exact ⟨h₂, .inl ⟨rfl, hcond.1, hcond.2, rfl⟩⟩
    · cases hlast
      refine ⟨h₂, .inr ⟨rfl, ?_, rfl⟩⟩
      cases conflicting with
      | none => exact .inl rfl
      | some c => simpa using hcond
  · rename_i hbt
    rw [entry, hbt]
    split_ifs at hlast with hcond
    · cases hlast
      exact ⟨h₂, .inl ⟨rfl, hcond, rfl, rfl⟩⟩
    · cases hlast
      exact ⟨h₂, .inr ⟨rfl, .inl (by simpa using hcond), rfl⟩⟩

/-- The vote passes all checks of `addVote` and is new. -/
structure Reaches (key : BlockID → Bytes) (t : VoteTable E) (i : E.Index) (vote : Vote) :
    Prop where
  index : E.getByIndex vote.validatorIndex = some i
  address : vote.validatorAddress.length ≠ 0
  admits : E.Admits t.height t.round t.type i vote
  fresh : t.getVote key i (key vote.blockID) = none

lemma reaches_or_unchanged (key : BlockID → Bytes) (t : VoteTable E) (vote : Vote) :
    (∃ i, t.Reaches key i vote) ∨ ∃ err, t.addVote key vote = some (t, false, err) := by
  unfold addVote
  split_ifs with h1 h2 h3
  · exact .inr ⟨_, rfl⟩
  · exact .inr ⟨_, rfl⟩
  · exact .inr ⟨_, rfl⟩
  · push Not at h3
    cases hindex : E.getByIndex vote.validatorIndex with
    | none => exact .inr ⟨_, rfl⟩
    | some i =>
      dsimp only
      split_ifs with haddr
      · exact .inr ⟨_, rfl⟩
      · cases hget : t.getVote key i (key vote.blockID) with
        | some existing =>
          dsimp only
          split_ifs <;> exact .inr ⟨_, rfl⟩
        | none =>
          cases hverify : vote.verify E (E.validators.get i).pubKey with
          | some err => exact .inr ⟨_, rfl⟩
          | none =>
            exact .inl ⟨i, hindex, h2, ⟨E.getByIndex_eq hindex, h3.1, h3.2.1, h3.2.2,
              not_not.mp haddr, hverify⟩, hget⟩

lemma Reaches.addVote_eq (h : t.Reaches key i vote) :
    t.addVote key vote = (t.addVerifiedVote key i vote).map fun r =>
      (r.1, r.2.1, r.2.2.map fun conflicting => .conflictingVotes conflicting vote) := by
  have hnonneg : ¬ vote.validatorIndex < 0 := by
    rw [h.admits.index]
    omega
  have hstep : ¬ (vote.height ≠ t.height ∨ vote.round ≠ t.round ∨ vote.type ≠ t.type) := by
    simp [h.admits.height, h.admits.round, h.admits.type]
  simp only [addVote, if_neg hnonneg, if_neg h.address, if_neg hstep, h.index, h.fresh,
    if_neg (not_not.mpr h.admits.address), h.admits.verified]
  cases hadd : t.addVerifiedVote key i vote with
  | none => rfl
  | some r =>
    obtain ⟨t', added, conflicting⟩ := r
    cases conflicting with
    | some conflicting => rfl
    | none =>
      -- without a conflict the vote is added
      obtain ⟨t₁, t₂, -, -, ⟨-, hsome, -⟩ | ⟨rfl, -⟩⟩ := addVerifiedVote_cases hadd
      · cases hsome
      · rfl

/-- Only a new vote that the set admits changes it. -/
lemma addVote_cases {err : Option VoteError} (h : t.addVote key vote = some (t', added, err)) :
    (t' = t ∧ added = false) ∨ ∃ i conflicting, t.Reaches key i vote ∧
      t.addVerifiedVote key i vote = some (t', added, conflicting) := by
  rcases reaches_or_unchanged key t vote with ⟨i, hreaches⟩ | ⟨err', heq⟩
  · rw [hreaches.addVote_eq] at h
    obtain ⟨⟨_, _, conflicting⟩, hadd, heq⟩ := map_eq_some_iff.mp h
    cases heq
    exact .inr ⟨i, conflicting, hreaches, hadd⟩
  · rw [heq] at h
    cases h
    exact .inl ⟨rfl, rfl⟩

/-- A peer is noted, and the block it names is marked. -/
lemma setPeerMaj23_cases (key : BlockID → Bytes) (t : VoteTable E) (peerID : Bytes)
    (blockID : BlockID) :
    ∃ peers blocks, (t.setPeerMaj23 key peerID blockID).1 =
        { t with peerMaj23s := peers, votesByBlock := blocks } ∧
      (blocks = t.votesByBlock ∨ blocks = Function.update t.votesByBlock (key blockID)
        (some { t.entry (key blockID) with peerMaj23 := true })) := by
  unfold setPeerMaj23
  split
  · exact ⟨_, _, rfl, .inl rfl⟩
  · dsimp only
    split
    · rename_i bt hbt
      rw [entry_of_some hbt]
      split_ifs
      · exact ⟨_, _, rfl, .inl rfl⟩
      · exact ⟨_, _, rfl, .inr rfl⟩
    · rename_i hbt
      rw [entry, hbt]
      exact ⟨_, _, rfl, .inr rfl⟩

/-! ## The calls keep the invariant -/

lemma Consistent.addVerifiedVote (h : t.Consistent key)
    (hadmits : E.Admits t.height t.round t.type i vote)
    (hget : t.getVote key i (key vote.blockID) = none)
    (hadd : t.addVerifiedVote key i vote = some (t', added, conflicting)) : t'.Consistent key := by
  have hnone := entry_of_getVote_eq_none hget
  obtain ⟨t₁, t₂, h₁, h₂, hlast⟩ := addVerifiedVote_cases hadd
  obtain ⟨sigs, hashSigs, rfl⟩ := collectShares_spec h₁
  obtain ⟨hbut, hfull, hlisted, hchosen⟩ :=
    Consistent.replaceVote (t := { t with partSigs := sigs, partHashSigs := hashSigs })
      { h with } hadmits hget h₂
  obtain ⟨-, votes, bits, sum, rfl, -⟩ := replaceVote_frame h₂
  rcases hlast with ⟨-, hconflict, -, rfl⟩ | ⟨-, -, rfl⟩
  · exact hfull hconflict
  · exact hbut.countVote hadmits hlisted hchosen hnone

lemma Consistent.addVote {err : Option VoteError} (h : t.Consistent key)
    (hadd : t.addVote key vote = some (t', added, err)) : t'.Consistent key := by
  rcases addVote_cases hadd with ⟨rfl, -⟩ | ⟨i, conflicting, hreaches, hadd⟩
  · exact h
  · exact h.addVerifiedVote hreaches.admits hreaches.fresh hadd

lemma Consistent.setPeerMaj23 (h : t.Consistent key) (peerID : Bytes) (blockID : BlockID) :
    (t.setPeerMaj23 key peerID blockID).1.Consistent key := by
  obtain ⟨peers, blocks, heq, rfl | rfl⟩ := setPeerMaj23_cases key t peerID blockID
  · rw [heq]
    exact { h with }
  · -- a mark of a peer changes no votes
    rw [heq]
    obtain ⟨hbits, hsum⟩ := h.entry_counts (key blockID)
    have hcounts : BlockTable.Counts { t.entry (key blockID) with peerMaj23 := true } :=
      ⟨hbits, hsum⟩
    exact h.setEntry hcounts (h.entry_counted _) (fun _ _ hv => hv) le_rfl
      (fun _ _ => False.elim) (h.entry_small _) (fun x hx hk => hk ▸ h.entry_chosen hx) peers

/-! ## The first majority -/

/-- A majority stays, and the first block to reach the quorum has it. -/
structure Grows (key : BlockID → Bytes) (t t' : VoteTable E) : Prop where
  maj23 : ∀ x, t.maj23 = some x → t'.maj23 = some x
  first : t.maj23 = none → ∀ k bt, t'.votesByBlock k = some bt → E.quorum ≤ bt.sum →
    ∃ x, t'.maj23 = some x ∧ key x = k

lemma Consistent.grows_of_maj23_eq (h' : t'.Consistent key)
    (hmaj : t'.maj23 = t.maj23) : t.Grows key t' := by
  refine ⟨fun x hx => hmaj.trans hx, fun hnone k bt hbt hq => ?_⟩
  exact absurd (h'.small (hmaj.trans hnone) k bt hbt) (not_lt.mpr hq)

/-- The height, round and type of a vote set never change. -/
def SameStep (t t' : VoteTable E) : Prop :=
  t'.height = t.height ∧ t'.round = t.round ∧ t'.type = t.type

lemma addVerifiedVote_frame (hadd : t.addVerifiedVote key i vote = some (t', added, conflicting)) :
    t.SameStep t' ∧ (t'.maj23 = t.maj23 ∨ t.maj23 = none ∧ t'.maj23 = some vote.blockID ∧
      ∀ k, k ≠ key vote.blockID → t'.votesByBlock k = t.votesByBlock k) := by
  obtain ⟨t₁, t₂, h₁, h₂, hlast⟩ := addVerifiedVote_cases hadd
  obtain ⟨sigs, hashSigs, rfl⟩ := collectShares_spec h₁
  obtain ⟨-, votes, bits, sum, rfl, -⟩ := replaceVote_frame h₂
  rcases hlast with ⟨-, -, -, rfl⟩ | ⟨-, -, rfl⟩
  · exact ⟨⟨rfl, rfl, rfl⟩, .inl rfl⟩
  · obtain ⟨maj, votes', heq, hmaj⟩ := countVote_frame key
      { t with partSigs := sigs, partHashSigs := hashSigs, votes := votes, votesBitArray := bits,
               sum := sum } i vote _
    rw [heq]
    refine ⟨⟨rfl, rfl, rfl⟩, hmaj.imp And.left fun hfirst => ⟨hfirst.1, hfirst.2.1, ?_⟩⟩
    exact fun k hk => update_of_ne hk ..

lemma Consistent.addVote_grows {err : Option VoteError} (h : t.Consistent key)
    (hadd : t.addVote key vote = some (t', added, err)) : t.Grows key t' := by
  have h' := h.addVote hadd
  rcases addVote_cases hadd with ⟨rfl, -⟩ | ⟨i, conflicting, -, hadd⟩
  · exact h'.grows_of_maj23_eq rfl
  · rcases (addVerifiedVote_frame hadd).2 with hmaj | ⟨hnone, hsome, hother⟩
    · exact h'.grows_of_maj23_eq hmaj
    · refine ⟨fun x hx => ?_, fun _ k bt hbt hq => ?_⟩
      · rw [hnone] at hx
        cases hx
      by_cases hk : k = key vote.blockID
      · exact ⟨vote.blockID, hsome, hk.symm⟩
      · rw [hother k hk] at hbt
        exact absurd (h.small hnone k bt hbt) (not_lt.mpr hq)

lemma addVote_sameStep {err : Option VoteError}
    (h : t.addVote key vote = some (t', added, err)) : t.SameStep t' := by
  rcases addVote_cases h with ⟨rfl, -⟩ | ⟨i, conflicting, -, hadd⟩
  · exact ⟨rfl, rfl, rfl⟩
  · exact (addVerifiedVote_frame hadd).1

lemma setPeerMaj23_sameStep (t : VoteTable E) (peerID : Bytes) (blockID : BlockID) :
    t.SameStep (t.setPeerMaj23 key peerID blockID).1 := by
  obtain ⟨peers, blocks, heq, -⟩ := setPeerMaj23_cases key t peerID blockID
  rw [heq]
  exact ⟨rfl, rfl, rfl⟩

/-! ## No panic -/

end VoteTable

/-- A prevote has its first share, and its second one if the first is to be kept. -/
def Vote.HasShares (vote : Vote) : Prop :=
  vote.type = .prevote → ∃ part, vote.partSig = some part ∧ (part.id ≠ 0 → vote.partBlockSig.isSome)

namespace VoteTable

variable {E : Electorate} {key : BlockID → Bytes} {t : VoteTable E} {i : E.Index} {vote : Vote}

@[simp] lemma collectShares_isSome_iff : (t.collectShares vote).isSome ↔ vote.HasShares := by
  unfold collectShares Vote.HasShares
  split_ifs with htype
  · cases hpart : vote.partSig with
    | none => simp [htype]
    | some part =>
      simp only [htype, bind_eq_bind, bind_some]
      split_ifs with hid
      · cases vote.partBlockSig <;> simp [hid]
      · simp [hid]
  · simp [htype]

lemma replaceVote_isSome (hget : t.getVote key i (key vote.blockID) = none) :
    (t.replaceVote key i vote).isSome := by
  unfold replaceVote
  split
  · rename_i existing hv
    have hne : existing.blockID ≠ vote.blockID :=
      fun he => votes_of_getVote_eq_none hget existing hv (congrArg key he)
    rw [if_neg hne]
    split_ifs <;> rfl
  · rfl

lemma addVerifiedVote_isSome_iff (hget : t.getVote key i (key vote.blockID) = none) :
    (t.addVerifiedVote key i vote).isSome ↔ vote.HasShares := by
  rw [← collectShares_isSome_iff (t := t)]
  cases h₁ : t.collectShares vote with
  | none => simp [addVerifiedVote, h₁]
  | some t₁ =>
    have hget₁ : t₁.getVote key i (key vote.blockID) = none := by
      obtain ⟨sigs, hashSigs, rfl⟩ := collectShares_spec h₁
      exact hget
    obtain ⟨⟨t₂, c⟩, h₂⟩ := isSome_iff_exists.mp (replaceVote_isSome hget₁)
    simp only [addVerifiedVote, h₁, h₂, bind_eq_bind, bind_some]
    split
    · split_ifs <;> rfl
    · split_ifs <;> rfl

/-- The shares of a new vote are all that can be missing. -/
lemma addVote_isSome_iff :
    (t.addVote key vote).isSome ↔ ((∃ i, t.Reaches key i vote) → vote.HasShares) := by
  have hreaches : ∀ i, t.Reaches key i vote →
      ((t.addVote key vote).isSome ↔ vote.HasShares) := by
    intro i h
    rw [h.addVote_eq, isSome_map, addVerifiedVote_isSome_iff h.fresh]
  constructor
  · rintro hadd ⟨i, h⟩
    exact (hreaches i h).mp hadd
  · intro h
    rcases reaches_or_unchanged key t vote with ⟨i, hi⟩ | ⟨err, heq⟩
    · exact (hreaches i hi).mpr (h ⟨i, hi⟩)
    · rw [heq]
      rfl

lemma addVote_isSome (hshares : vote.HasShares) : (t.addVote key vote).isSome :=
  addVote_isSome_iff.mpr fun _ => hshares

/-! ## Runs -/

end VoteTable

inductive VoteCall where
  | addVote (vote : Vote)
  | setPeerMaj23 (peerID : Bytes) (blockID : BlockID)

/-- Both shares of a vote are there. -/
def VoteCall.Complete : VoteCall → Prop
  | .addVote vote => vote.partSig.isSome ∧ vote.partBlockSig.isSome
  | .setPeerMaj23 .. => True

namespace VoteTable

variable {E : Electorate} (key : BlockID → Bytes)

def step (t : VoteTable E) : VoteCall → Option (VoteTable E)
  | .addVote vote => (t.addVote key vote).map Prod.fst
  | .setPeerMaj23 peerID blockID => some (t.setPeerMaj23 key peerID blockID).1

/-- Signed votes of the validator for two blocks are recorded. -/
def Conflicted (t : VoteTable E) (k k' : Bytes) (i : E.Index) : Prop :=
  ∃ bt bt' v v', t.votesByBlock k = some bt ∧ t.votesByBlock k' = some bt' ∧
    bt.votes i = some v ∧ bt'.votes i = some v' ∧
    E.Admits t.height t.round t.type i v ∧ E.Admits t.height t.round t.type i v' ∧
    key v.blockID = k ∧ key v'.blockID = k'

variable {key} {t t' : VoteTable E} {call : VoteCall}

lemma Consistent.step (h : t.Consistent key) (hstep : t.step key call = some t') :
    t'.Consistent key ∧ t.Grows key t' := by
  cases call with
  | addVote vote =>
    obtain ⟨⟨_, added, err⟩, hadd, rfl⟩ := map_eq_some_iff.mp hstep
    exact ⟨h.addVote hadd, h.addVote_grows hadd⟩
  | setPeerMaj23 peerID blockID =>
    cases hstep
    have h' := h.setPeerMaj23 peerID blockID
    obtain ⟨peers, blocks, heq, -⟩ := setPeerMaj23_cases key t peerID blockID
    exact ⟨h', h'.grows_of_maj23_eq (by rw [heq])⟩

lemma step_isSome (key : BlockID → Bytes) (t : VoteTable E) (hcall : call.Complete) :
    (t.step key call).isSome := by
  cases call with
  | addVote vote =>
    obtain ⟨part, hpart⟩ := isSome_iff_exists.mp hcall.1
    rw [VoteTable.step, isSome_map]
    exact addVote_isSome fun _ => ⟨part, hpart, fun _ => hcall.2⟩
  | setPeerMaj23 peerID blockID => rfl

lemma Consistent.run {calls : List VoteCall} (h : t.Consistent key)
    (hrun : Runs.run (VoteTable.step key) t calls = some t') :
    t'.Consistent key ∧ ∀ x, t.maj23 = some x → t'.maj23 = some x := by
  refine Runs.invariant (P := fun u => u.Consistent key ∧ ∀ x, t.maj23 = some x → u.maj23 = some x)
    ?_ hrun ⟨h, fun _ hx => hx⟩
  intro u call u' hu hstep
  obtain ⟨h', hgrows⟩ := hu.1.step hstep
  exact ⟨h', fun x hx => hgrows.maj23 x (hu.2 x hx)⟩

lemma run_isSome (key : BlockID → Bytes) {calls : List VoteCall}
    (hcalls : ∀ c ∈ calls, c.Complete) (t : VoteTable E) :
    (Runs.run (VoteTable.step key) t calls).isSome := by
  induction calls generalizing t with
  | nil => rfl
  | cons call calls ih =>
    obtain ⟨t₁, hstep⟩ := isSome_iff_exists.mp
      (step_isSome key t (hcalls call (by simp)))
    rw [Runs.run, hstep]
    exact ih (fun c hc => hcalls c (by simp [hc])) t₁

lemma Consistent.maj23_eq_none_iff (h : t.Consistent key) :
    t.maj23 = none ↔ ∀ k bt, t.votesByBlock k = some bt → bt.sum < E.quorum := by
  refine ⟨h.small, fun hsmall => ?_⟩
  cases hmaj : t.maj23 with
  | none => rfl
  | some x =>
    obtain ⟨bt, hbt, hq⟩ := h.quorum x hmaj
    exact absurd (hsmall _ bt hbt) (not_lt.mpr hq)

/-- Two blocks with more than two thirds each have more than a third in common. -/
lemma Consistent.conflicted (h : t.Consistent key) {k k' : Bytes} {bt bt' : BlockTable E}
    (hbt : t.votesByBlock k = some bt) (hbt' : t.votesByBlock k' = some bt')
    (hsum : 2 * E.totalVotingPower < 3 * bt.sum) (hsum' : 2 * E.totalVotingPower < 3 * bt'.sum) :
    E.totalVotingPower < 3 * LockedVoting.weight E.power (t.Conflicted key k k') := by
  have hweight : ∀ b : BlockTable E, b.Counts →
      b.sum = LockedVoting.weight E.power fun i => (b.votes i).isSome := by
    intro b hb
    rw [hb.sum, LockedVoting.weight_eq_sum]
    rfl
  have hadd : LockedVoting.weight E.power (fun i => (bt.votes i).isSome) +
      LockedVoting.weight E.power (fun i => (bt'.votes i).isSome) ≤ _ := LockedVoting.weight_add_le
  have hmono : LockedVoting.weight E.power
      (fun i => (bt.votes i).isSome ∧ (bt'.votes i).isSome) ≤
        LockedVoting.weight E.power (t.Conflicted key k k') := by
    apply LockedVoting.weight_mono
    rintro i ⟨hi, hi'⟩
    obtain ⟨v, hv⟩ := isSome_iff_exists.mp hi
    obtain ⟨v', hv'⟩ := isSome_iff_exists.mp hi'
    obtain ⟨hkey, hadmits, -⟩ := h.counted k bt hbt i v hv
    obtain ⟨hkey', hadmits', -⟩ := h.counted k' bt' hbt' i v' hv'
    exact ⟨bt, bt', v, v', hbt, hbt', hv, hv', hadmits, hadmits', hkey, hkey'⟩
  rw [← hweight bt (h.counts k bt hbt), ← hweight bt' (h.counts k' bt' hbt'), E.sum_power] at hadd
  omega

/-- The tables of a vote set after any calls. -/
theorem tables_consistent (key : BlockID → Bytes) (height round : ℤ) (type : SignedMsgType)
    (calls : List VoteCall) (hcalls : ∀ c ∈ calls, c.Complete) :
    ∃ t : VoteTable E, Runs.run (VoteTable.step key) (new height round type) calls = some t ∧
      t.Consistent key ∧
      (t.maj23 = none ↔ ∀ k bt, t.votesByBlock k = some bt → bt.sum < E.quorum) ∧
      (∀ before call after (t₁ t₂ : VoteTable E), calls = before ++ call :: after →
        Runs.run (VoteTable.step key) (new height round type) before = some t₁ →
        t₁.step key call = some t₂ →
          (∀ x, t₁.maj23 = some x → t.maj23 = some x) ∧
          (t₁.maj23 = none → ∀ k bt, t₂.votesByBlock k = some bt → E.quorum ≤ bt.sum →
            ∃ x, t.maj23 = some x ∧ key x = k)) ∧
      ∀ k k' bt bt', k ≠ k' → t.votesByBlock k = some bt → t.votesByBlock k' = some bt' →
        2 * E.totalVotingPower < 3 * bt.sum → 2 * E.totalVotingPower < 3 * bt'.sum →
          E.totalVotingPower < 3 * LockedVoting.weight E.power (t.Conflicted key k k') := by
  have hnew := consistent_new (E := E) key height round type
  obtain ⟨t, ht⟩ := isSome_iff_exists.mp
    (run_isSome key hcalls (new height round type : VoteTable E))
  have h := (hnew.run ht).1
  refine ⟨t, ht, h, h.maj23_eq_none_iff, ?_, fun k k' bt bt' _ => h.conflicted⟩
  rintro before call after t₁ t₂ rfl h₁ h₂
  rw [Runs.run_append, h₁, bind_some, Runs.run, h₂] at ht
  obtain ⟨hc₂, hgrows⟩ := (hnew.run h₁).1.step h₂
  have hkeep := (hc₂.run ht).2
  refine ⟨fun x hx => hkeep x (hgrows.maj23 x hx), fun hnone k bt hbt hq => ?_⟩
  obtain ⟨x, hx, hkey⟩ := hgrows.first hnone k bt hbt hq
  exact ⟨x, hkeep x hx, hkey⟩

/-! ## Small sets of validators -/

/-- A signature is the key. -/
def loneVoter : Electorate where
  chainID := lit "A"
  validators := [⟨List.replicate 20 1, [1], 1⟩]
  addressOf := fun _ => List.replicate 20 1
  verifyBytes := fun pubKey _ signature => signature = pubKey

/-- A signature is the key. -/
def threeVoters : Electorate where
  chainID := lit "A"
  validators := [⟨[1], [1], 1⟩, ⟨[2], [2], 1⟩, ⟨[3], [3], 1⟩]
  addressOf := id
  verifyBytes := fun pubKey _ signature => signature = pubKey

/-- The prevote of a validator for the block with the given hash. -/
def prevoteFor (i : ℕ) (hash : Bytes) : Vote :=
  ⟨.prevote, 1, 0, ⟨hash, .zero⟩, 0, [.ofNat (i + 1)], i, [.ofNat (i + 1)], some ⟨[], 1⟩, some ⟨[], 1⟩⟩

/-- The first validator votes twice; its second vote is for the block that a peer has claimed a
majority for, and replaces the first. -/
def conflictingCalls : List VoteCall :=
  [.addVote (prevoteFor 0 [8]), .setPeerMaj23 [1] ⟨[9], .zero⟩, .addVote (prevoteFor 0 [9]),
    .addVote (prevoteFor 1 [9]), .addVote (prevoteFor 2 [9])]

theorem conflicting_calls_consistent :
    ∃ t : VoteTable threeVoters, Runs.run (VoteTable.step BlockID.hash) (new 1 0 .prevote)
        conflictingCalls = some t ∧ t.Consistent BlockID.hash ∧ t.maj23 = some ⟨[9], .zero⟩ ∧
      t.votes ⟨0, by decide⟩ = some (prevoteFor 0 [9]) := by
  have hcalls : ∀ c ∈ conflictingCalls, c.Complete := by
    simp [conflictingCalls, VoteCall.Complete, prevoteFor]
  obtain ⟨t, ht, h, -⟩ := tables_consistent (E := threeVoters) BlockID.hash 1 0 .prevote
    conflictingCalls hcalls
  have heval : (Runs.run (VoteTable.step BlockID.hash) (new 1 0 .prevote : VoteTable threeVoters)
      conflictingCalls).all (fun t => t.maj23 = some ⟨[9], .zero⟩ ∧
        t.votes ⟨0, by decide⟩ = some (prevoteFor 0 [9])) = true := by decide +kernel
  rw [ht] at heval
  exact ⟨t, ht, h, of_decide_eq_true heval⟩

end VoteTable

end ShardingBC.Consensus
