import Mathlib.NumberTheory.LucasLehmer
import ShardingBC.VoteSet
import ShardingBC.ThresholdSig
import ShardingBC.Runs

/-!
# The shares of the prevotes of a round

A vote set collects the shares of every prevote it verifies, whatever the prevote is
for. The signatures of the group on the cross-shard root and on the block hash are
recovered from all of them.
-/
namespace ShardingBC.Consensus

open Bls Function List Option Runs

variable {E : Electorate}

/-- A vote arrives, or a peer claims a majority. -/
inductive VoteEvent where
  | vote (vote : Vote)
  | peerMaj23 (peerID : Bytes) (blockID : BlockID)

namespace VoteSet

def handle (vs : VoteSet E) : VoteEvent → Option (VoteSet E)
  | .vote vote => (vs.addVote vote).map Prod.fst
  | .peerMaj23 peerID blockID => some (vs.setPeerMaj23 peerID blockID).1

variable {vs vs' : VoteSet E} {i : E.Index} {vote : Vote}

lemma countVote_frame (vs : VoteSet E) (i : E.Index) (vote : Vote) (bv : BlockVotes E) :
    (vs.countVote i vote bv).partSigs = vs.partSigs ∧
      (vs.countVote i vote bv).partHashSigs = vs.partHashSigs ∧
      ∀ j, vs.votes j ≠ none → (vs.countVote i vote bv).votes j ≠ none := by
  unfold countVote
  dsimp only
  split_ifs
  · refine ⟨rfl, rfl, fun j hj => ?_⟩
    rw [Ne, or_eq_none_iff]
    exact fun h => hj h.2
  · exact ⟨rfl, rfl, fun _ hj => hj⟩

lemma addVerifiedVote_collects {added : Bool} {conflicting : Option Vote} {part hashpart : PartSig}
    (htype : vote.type = .prevote) (hpart : vote.partSig = some part) (hid : part.id ≠ 0)
    (hhashpart : vote.partBlockSig = some hashpart) (hnew : vs.votes i = none)
    (h : vs.addVerifiedVote i vote = some (vs', added, conflicting)) :
    vs'.partSigs = vs.partSigs ++ [part] ∧ vs'.partHashSigs = vs.partHashSigs ++ [hashpart] ∧
      ∀ j, vs.votes j ≠ none ∨ j = i → vs'.votes j ≠ none := by
  let collected : VoteSet E :=
    { vs with partSigs := vs.partSigs ++ [part], partHashSigs := vs.partHashSigs ++ [hashpart] }
  let listed : VoteSet E :=
    { collected with
      votes := Function.update vs.votes i (some vote)
      sum := vs.sum + E.power i }
  have hcollect : vs.collectShares vote = some collected := by
    simp [collectShares, htype, hpart, hid, hhashpart, collected]
  have hreplace : collected.replaceVote i vote = some (listed, none) := by
    simp [replaceVote, hnew, collected, listed]
  have hvotes : ∀ j, vs.votes j ≠ none ∨ j = i → listed.votes j ≠ none := by
    intro j hj
    by_cases hji : j = i
    · subst hji
      simp [listed]
    · simp [listed, update_of_ne hji, hj.resolve_right hji]
  have hcount : ∃ bv, vs' = listed.countVote i vote bv := by
    rw [addVerifiedVote, hcollect, bind_eq_bind, bind_some, hreplace] at h
    simp only [bind_eq_bind, bind_some] at h
    split at h
    · next bv _ => exact ⟨bv, (congrArg Prod.fst (Option.some.inj h)).symm⟩
    · exact ⟨_, (congrArg Prod.fst (Option.some.inj h)).symm⟩
  obtain ⟨bv, rfl⟩ := hcount
  obtain ⟨h1, h2, h3⟩ := countVote_frame listed i vote bv
  exact ⟨h1, h2, fun j hj => h3 j (hvotes j hj)⟩

lemma getVote_of_listed {existing : Vote} (hlisted : vs.votes i = some existing) :
    vs.getVote i existing.blockID = some existing := by
  simp [getVote, hlisted, Option.filter]

lemma setPeerMaj23_frame (vs : VoteSet E) (peerID : Bytes) (blockID : BlockID) :
    (vs.setPeerMaj23 peerID blockID).1.partSigs = vs.partSigs ∧
      (vs.setPeerMaj23 peerID blockID).1.partHashSigs = vs.partHashSigs ∧
      (vs.setPeerMaj23 peerID blockID).1.votes = vs.votes := by
  unfold setPeerMaj23
  split <;> exact ⟨rfl, rfl, rfl⟩

end VoteSet

/-- The vote is a verified prevote of validator `i` in this round. -/
structure IsPrevote (E : Electorate) (height round : ℤ) (i : E.Index) (v : Vote) : Prop where
  index : v.validatorIndex = (i : ℕ)
  height : v.height = height
  round : v.round = round
  type : v.type = .prevote
  verified : v.verify E (E.validators.get i).pubKey = none

section Collected

variable {F G : Type} [Field F] [AddCommGroup G] [Module F G]

/-- Every prevote that verifies carries the right shares, and no validator prevotes two blocks. -/
structure RightPrevotes (p : Polynome F) (S : Suite F G) (root hash : Bytes)
    (idOf : E.Index → Int64) (height round : ℤ) (events : List VoteEvent) : Prop where
  partSig : ∀ v i, .vote v ∈ events → IsPrevote E height round i v →
    v.partSig = some ⟨share S p (idOf i) root, idOf i⟩
  partBlockSig : ∀ v i, .vote v ∈ events → IsPrevote E height round i v →
    v.partBlockSig = some ⟨share S p (idOf i) hash, idOf i⟩
  once : ∀ v w i, .vote v ∈ events → .vote w ∈ events → IsPrevote E height round i v →
    IsPrevote E height round i w → v.blockID = w.blockID

/-- The shares of a message of some members. -/
def sharesOf (p : Polynome F) (S : Suite F G) (idOf : E.Index → Int64) (msg : Bytes)
    (taken : List E.Index) : List PartSig :=
  taken.map fun i => ⟨share S p (idOf i) msg, idOf i⟩

/-- The set holds one vote of each of some validators and their shares. -/
structure Collected (p : Polynome F) (S : Suite F G) (root hash : Bytes) (idOf : E.Index → Int64)
    (height round : ℤ) (events : List VoteEvent) (vs : VoteSet E) (taken : List E.Index) : Prop where
  height_eq : vs.height = height
  round_eq : vs.round = round
  type_eq : vs.type = .prevote
  nodup : taken.Nodup
  listed : ∀ i, vs.votes i ≠ none ↔ i ∈ taken
  sound : vs.Sound fun i v => i ∈ taken ∧ .vote v ∈ events ∧ IsPrevote E height round i v
  partSigs : vs.partSigs = sharesOf p S idOf root taken
  partHashSigs : vs.partHashSigs = sharesOf p S idOf hash taken

variable {p : Polynome F} {S : Suite F G} {root hash : Bytes} {idOf : E.Index → Int64}
  {height round : ℤ} {events : List VoteEvent} {vs vs' : VoteSet E} {taken : List E.Index}

lemma Collected.addVote (hright : RightPrevotes p S root hash idOf height round events)
    (hids : ∀ i, idOf i ≠ 0) (h : Collected p S root hash idOf height round events vs taken) {v : Vote}
    (hv : .vote v ∈ events) {added : Bool} {err : Option VoteError}
    (hadd : vs.addVote v = some (vs', added, err)) :
    ∃ taken', Collected p S root hash idOf height round events vs' taken' := by
  obtain ⟨rfl, -⟩ | ⟨i, conflicting, hadmits, hget, hadd'⟩ := VoteSet.addVote_cases hadd
  · exact ⟨taken, h⟩
  · have hprevote : IsPrevote E height round i v :=
      ⟨hadmits.index, hadmits.height.trans h.height_eq, hadmits.round.trans h.round_eq,
        hadmits.type.trans h.type_eq, hadmits.verified⟩
    -- A listed vote of the validator would be for the same block, and this one known.
    have hnew : vs.votes i = none := by
      cases hlisted : vs.votes i with
      | none => rfl
      | some w =>
        obtain ⟨-, hw, hwprevote⟩ := h.sound.listed i w hlisted
        rw [hright.once v w i hv hw hprevote hwprevote, VoteSet.getVote_of_listed hlisted] at hget
        cases hget
    have hout : i ∉ taken := fun hi => (h.listed i).mpr hi hnew
    obtain ⟨hparts, hhashparts, hvotes⟩ := VoteSet.addVerifiedVote_collects hprevote.type
      (hright.partSig v i hv hprevote) (hids i) (hright.partBlockSig v i hv hprevote) hnew hadd'
    have hsound : vs'.Sound fun j w =>
        j ∈ taken ++ [i] ∧ .vote w ∈ events ∧ IsPrevote E height round j w := by
      have hmono := h.sound.mono fun j w hw => And.imp_left (mem_append_left [i]) hw
      exact hmono.addVerifiedVote ⟨by simp, hv, hprevote⟩ hget hadd'
    have hext := VoteSet.addVote_extends hadd
    refine ⟨taken ++ [i], hext.height.trans h.height_eq, hext.round.trans h.round_eq,
      hext.type.trans h.type_eq, ?_, fun j => ⟨fun hj => ?_, fun hj => ?_⟩, hsound, ?_, ?_⟩
    · refine nodup_append.mpr ⟨h.nodup, nodup_singleton i, fun j hj k hk hjk => hout ?_⟩
      rwa [← mem_singleton.mp hk, ← hjk]
    · obtain ⟨w, hw⟩ := ne_none_iff_exists'.mp hj
      exact (hsound.listed j w hw).1
    · refine hvotes j ?_
      rcases mem_append.mp hj with hj | hj
      · exact .inl ((h.listed j).mpr hj)
      · exact .inr (mem_singleton.mp hj)
    · rw [hparts, h.partSigs, sharesOf, sharesOf, map_append]
      rfl
    · rw [hhashparts, h.partHashSigs, sharesOf, sharesOf, map_append]
      rfl

lemma Collected.run (hright : RightPrevotes p S root hash idOf height round events)
    (hids : ∀ i, idOf i ≠ 0) (h : Collected p S root hash idOf height round events vs taken)
    {es : List VoteEvent} (hes : ∀ e ∈ es, e ∈ events)
    (hrun : Runs.run VoteSet.handle vs es = some vs') :
    ∃ taken', Collected p S root hash idOf height round events vs' taken' := by
  induction es generalizing vs taken with
  | nil =>
    cases hrun
    exact ⟨taken, h⟩
  | cons e es ih =>
    obtain ⟨vs₁, hstep, hrest⟩ := run_cons.mp hrun
    have hes' : ∀ e ∈ es, e ∈ events := fun e he => hes e (mem_cons_of_mem _ he)
    cases e with
    | vote v =>
      obtain ⟨⟨_, added, err⟩, hadd, rfl⟩ := map_eq_some_iff.mp hstep
      obtain ⟨taken₁, h₁⟩ := h.addVote hright hids (hes _ (by simp)) hadd
      exact ih h₁ hes' hrest
    | peerMaj23 peerID blockID =>
      cases hstep
      obtain ⟨h1, h2, h3⟩ := vs.setPeerMaj23_frame peerID blockID
      have hext := vs.setPeerMaj23_extends peerID blockID
      have hlisted : ∀ i, (vs.setPeerMaj23 peerID blockID).1.votes i ≠ none ↔ i ∈ taken := by
        rw [h3]
        exact h.listed
      have hcollected : Collected p S root hash idOf height round events
          (vs.setPeerMaj23 peerID blockID).1 taken :=
        ⟨hext.height.trans h.height_eq, hext.round.trans h.round_eq, hext.type.trans h.type_eq,
          h.nodup, hlisted, h.sound.setPeerMaj23 peerID blockID, h1.trans h.partSigs,
          h2.trans h.partHashSigs⟩
      exact ih hcollected hes' hrest

lemma collected_new : Collected p S root hash idOf height round events
    (VoteSet.new height round .prevote : VoteSet E) [] where
  height_eq := rfl
  round_eq := rfl
  type_eq := rfl
  nodup := nodup_nil
  listed := by simp [VoteSet.new]
  sound := VoteSet.sound_new ..
  partSigs := rfl
  partHashSigs := rfl

end Collected

/-- Identifiers of the members that recovery can work with. -/
structure MemberIds (idOf : E.Index → Int64) : Prop where
  injective : Function.Injective idOf
  ne_zero : ∀ i, idOf i ≠ 0
  near : ∀ i j, (idOf j - idOf i).toInt = (idOf j).toInt - (idOf i).toInt

lemma MemberIds.proper {idOf : E.Index → Int64} (h : MemberIds idOf) {taken : List E.Index}
    (hnodup : taken.Nodup) : ProperIds (taken.map idOf) where
  nodup := hnodup.map h.injective
  ne_zero := by
    rw [List.forall_mem_map]
    exact fun i _ => h.ne_zero i
  near := by
    rw [List.forall_mem_map]
    intro i _
    rw [List.forall_mem_map]
    exact fun j _ => h.near i j

section Claim

variable {F G : Type} [Field F] [AddCommGroup G] [Module F G]

/-- `SignatureRecovery` in `tryAddAggragate2Block`. -/
def crossMerkleSig (S : Suite F G) (threshold : ℕ) (vs : VoteSet E) : Except RecoveryError Bytes :=
  recover S threshold vs.partSigs

/-- `SignatureRecovery` in `tryFinalizeCommit`. -/
def hashMerkleSig (S : Suite F G) (threshold : ℕ) (vs : VoteSet E) : Except RecoveryError Bytes :=
  recover S threshold vs.partHashSigs

variable [DecidableEq F]

lemma recover_sharesOf {S : Suite F G} {p : Polynome F} {threshold : ℕ}
    (hdegree : p.others.length ≤ threshold) {idOf : E.Index → Int64} (hids : MemberIds idOf)
    {taken : List E.Index} (hnodup : taken.Nodup) (hcount : threshold < taken.length)
    (msg : Bytes) :
    recover S threshold (sharesOf p S idOf msg taken) = .ok (groupSignature S p msg) := by
  refine recover_of_isShare ?_ hdegree (by simpa [sharesOf] using hcount) ?_
  · rw [sharesOf, List.map_map]
    exact hids.proper hnodup
  · intro s hs
    obtain ⟨i, -, rfl⟩ := mem_map.mp hs
    rfl

/-- If all prevotes of the round that verify carry the right shares and no validator prevotes two
blocks, both signatures are recovered from the prevotes of more validators than the threshold. In
general a signature is recovered exactly if the collected shares fit; one wrong share among right
ones never fits, and a share that does not decode or an identifier that occurs twice among several
shares lets recovery fail. -/
theorem groupSignature_recovered_iff (S : Suite F G) (p : Polynome F) (threshold : ℕ)
    (hdegree : p.others.length ≤ threshold) :
    (∀ (E : Electorate) (idOf : E.Index → Int64) (height round : ℤ) (root hash : Bytes)
      (events : List VoteEvent) (vs : VoteSet E), MemberIds idOf →
      RightPrevotes p S root hash idOf height round events →
      run VoteSet.handle (.new height round .prevote) events = some vs →
      threshold < (Finset.univ.filter fun i => vs.votes i ≠ none).card →
      crossMerkleSig S threshold vs = .ok (groupSignature S p root) ∧
        hashMerkleSig S threshold vs = .ok (groupSignature S p hash)) ∧
    (∀ (E : Electorate) (vs : VoteSet E) (root hash : Bytes),
      (crossMerkleSig S threshold vs = .ok (groupSignature S p root) ↔
        Fits p S threshold root vs.partSigs) ∧
      (hashMerkleSig S threshold vs = .ok (groupSignature S p hash) ↔
        Fits p S threshold hash vs.partHashSigs)) ∧
    (∀ (msg : Bytes) (before after : List PartSig) (s : PartSig),
      ProperIds ((before ++ s :: after).map PartSig.id) →
      (∀ t ∈ before ++ after, IsShare p S msg t) → Fits p S threshold msg (before ++ s :: after) →
      S.unmarshalBinary s.peerCrossSig = some (p.getValue s.id • S.hash msg)) ∧
    ∀ (shares : List PartSig), 2 ≤ shares.length →
      ((∃ s ∈ shares, S.unmarshalBinary s.peerCrossSig = none) ∨ ¬ (shares.map PartSig.id).Nodup) →
      ∀ bz, recover S threshold shares ≠ .ok bz := by
  refine ⟨?_, fun E vs root hash => ⟨recover_groupSignature_iff, recover_groupSignature_iff⟩, ?_, ?_⟩
  · intro E idOf height round root hash events vs hids hright hrun hcount
    obtain ⟨taken, hcollected⟩ := collected_new.run hright hids.ne_zero (fun e he => he) hrun
    have hcard : (Finset.univ.filter fun i => vs.votes i ≠ none).card = taken.length := by
      rw [← toFinset_card_of_nodup hcollected.nodup]
      congr 1
      ext i
      simp [hcollected.listed]
    rw [hcard] at hcount
    rw [crossMerkleSig, hashMerkleSig, hcollected.partSigs, hcollected.partHashSigs]
    exact ⟨recover_sharesOf hdegree hids hcollected.nodup hcount root,
      recover_sharesOf hdegree hids hcollected.nodup hcount hash⟩
  · intro msg before after s hids hrest hfits
    exact isShare_of_recover hids hdegree rfl hrest (recover_groupSignature_iff.mpr hfits)
  · intro shares htwo hbad
    exact not_recovered htwo hbad

end Claim

/-- A prime of 127 bits. -/
abbrev groupOrder : ℕ := 2 ^ 127 - 1

instance : Fact groupOrder.Prime := ⟨lucas_lehmer_sufficiency 127 (by norm_num) (by norm_num)⟩

lemma largeOrder_groupOrder : LargeOrder (ZMod groupOrder) := by
  intro n hn h0
  have hdvd := (ZMod.intCast_zmod_eq_zero_iff_dvd n groupOrder).mp h0
  refine Int.eq_zero_of_abs_lt_dvd hdvd ?_
  rw [Int.abs_eq_natAbs]
  exact_mod_cast hn.trans_lt (by norm_num)

/-- The group of that order, with a point as a tag and digits to base 256. -/
def additiveSuite : Suite (ZMod groupOrder) (ZMod groupOrder) where
  hash := fun bz => ((Nat.ofDigits 256 (bz.map UInt8.toNat) + 1 : ℕ) : ZMod groupOrder)
  marshalBinary := fun x => 1 :: (Nat.digits 256 x.val).map UInt8.ofNat
  unmarshalBinary := fun
    | 1 :: ds => some ((Nat.ofDigits 256 (ds.map UInt8.toNat) : ℕ) : ZMod groupOrder)
    | _ => none
  unmarshal_marshal := by
    intro x
    have hdigits : ((Nat.digits 256 x.val).map UInt8.ofNat).map UInt8.toNat =
        Nat.digits 256 x.val := by
      rw [List.map_map]
      refine (map_congr_left fun d hd => ?_).trans (List.map_id _)
      exact UInt8.toNat_ofNat_of_lt' (Nat.digits_lt_base (by norm_num) hd)
    show some (((Nat.ofDigits 256 _ : ℕ) : ZMod groupOrder)) = some x
    rw [hdigits, Nat.ofDigits_digits, ZMod.natCast_zmod_val]
  unmarshal_nil := rfl
  order_large := largeOrder_groupOrder

def cubic : Polynome (ZMod groupOrder) := ⟨11, [2, 3, 5]⟩

def fiveValidators : Electorate where
  chainID := lit "A"
  validators := [⟨[0], [0], 1⟩, ⟨[1], [1], 1⟩, ⟨[2], [2], 1⟩, ⟨[3], [3], 1⟩, ⟨[4], [4], 1⟩]
  addressOf := id
  verifyBytes := fun pubKey _ sig => sig = pubKey

/-- The identifiers that `ParseId` gives to the nodes of shard 1. -/
def memberId (i : fiveValidators.Index) : Int64 := Int64.ofNat (500 + i)

lemma memberId_ids : MemberIds memberId where
  injective := by
    have h : ∀ i j : Fin 5, Int64.ofNat (500 + i) = Int64.ofNat (500 + j) → i = j := by decide
    exact h
  ne_zero := by
    have h : ∀ i : Fin 5, Int64.ofNat (500 + i) ≠ 0 := by decide
    exact h
  near := by
    have h : ∀ i j : Fin 5, (Int64.ofNat (500 + j) - Int64.ofNat (500 + i)).toInt =
        (Int64.ofNat (500 + j)).toInt - (Int64.ofNat (500 + i)).toInt := by decide
    exact h

def committedID : BlockID := ⟨List.replicate 32 7, ⟨1, List.replicate 32 8⟩⟩

/-- The prevote of a validator for the block with root `[1]` and hash `[2]`. -/
def rightPrevote (i : fiveValidators.Index) : Vote :=
  ⟨.prevote, 5, 0, committedID, 0, [UInt8.ofNat i], (i : ℕ), [UInt8.ofNat i],
    some ⟨share additiveSuite cubic (memberId i) [1], memberId i⟩,
    some ⟨share additiveSuite cubic (memberId i) [2], memberId i⟩⟩

/-- The prevote of a validator that got no block. -/
def nilPrevote (i : fiveValidators.Index) : Vote :=
  ⟨.prevote, 5, 0, .zero, 0, [UInt8.ofNat i], (i : ℕ), [UInt8.ofNat i], some ⟨[], memberId i⟩,
    some ⟨[], memberId i⟩⟩

def fourRight : List VoteEvent :=
  ([0, 1, 2, 3] : List (Fin 5)).map fun i => .vote (rightPrevote i)

lemma rightPrevotes_fourRight :
    RightPrevotes cubic additiveSuite [1] [2] memberId 5 0 fourRight := by
  have hall : ∀ v i, .vote v ∈ fourRight → IsPrevote fiveValidators 5 0 i v → v = rightPrevote i := by
    intro v i hv hprevote
    obtain ⟨k, -, hk⟩ := mem_map.mp hv
    cases hk
    have hindex : ((k : ℕ) : ℤ) = ((i : ℕ) : ℤ) := hprevote.index
    exact congrArg rightPrevote (Fin.ext (Int.ofNat.inj hindex))
  refine ⟨fun v i hv h => ?_, fun v i hv h => ?_, fun v w i hv hw h h' => ?_⟩
  · rw [hall v i hv h]
    rfl
  · rw [hall v i hv h]
    rfl
  · rw [hall v i hv h, hall w i hw h']

def emptySet : VoteSet fiveValidators := .new 5 0 .prevote

/-- Four right prevotes give both signatures. -/
theorem four_right_prevotes_recover :
    ∃ vs, run VoteSet.handle emptySet fourRight = some vs ∧
      crossMerkleSig additiveSuite 3 vs = .ok (groupSignature additiveSuite cubic [1]) ∧
      hashMerkleSig additiveSuite 3 vs = .ok (groupSignature additiveSuite cubic [2]) := by
  obtain ⟨vs, hrun, hcount⟩ : ∃ vs, run VoteSet.handle emptySet fourRight = some vs ∧
      3 < (Finset.univ.filter fun i => vs.votes i ≠ none).card :=
    Runs.exists_of_any (by decide +kernel)
  exact ⟨vs, hrun, (groupSignature_recovered_iff additiveSuite cubic 3 le_rfl).1 _ _ _ _ _ _ _ _
    memberId_ids rightPrevotes_fourRight hrun hcount⟩

/-- A fifth validator that prevotes nil spoils both. -/
theorem nil_prevote_spoils :
    ∃ vs, run VoteSet.handle emptySet (fourRight ++ [.vote (nilPrevote (4 : Fin 5))]) = some vs ∧
      vs.maj23 = some committedID ∧ (∀ bz, crossMerkleSig additiveSuite 3 vs ≠ .ok bz) ∧
      ∀ bz, hashMerkleSig additiveSuite 3 vs ≠ .ok bz := by
  obtain ⟨vs, hrun, hmaj, hparts, hhashparts⟩ : ∃ vs, run VoteSet.handle emptySet
      (fourRight ++ [.vote (nilPrevote (4 : Fin 5))]) = some vs ∧ vs.maj23 = some committedID ∧
      (2 ≤ vs.partSigs.length ∧ ∃ s ∈ vs.partSigs, s.peerCrossSig = []) ∧
        2 ≤ vs.partHashSigs.length ∧ ∃ s ∈ vs.partHashSigs, s.peerCrossSig = [] :=
    Runs.exists_of_any (by decide +kernel)
  exact ⟨vs, hrun, hmaj, not_recovered_of_nil hparts.1 hparts.2,
    not_recovered_of_nil hhashparts.1 hhashparts.2⟩

end ShardingBC.Consensus

namespace ShardingBC.Bls

open Function List Option

open Consensus (PartSig additiveSuite cubic)

variable {F G : Type} [Field F] [AddCommGroup G] [Module F G]

lemma decode_points (S : Suite F G) (g : Int64 → G) (ids : List Int64) :
    decode S (ids.map fun id => ⟨S.marshalBinary (g id), id⟩) =
      some (ids.map fun id => (id, g id)) := by
  rw [decode, mapM_map]
  simp only [comp_def, S.unmarshal_marshal]
  exact mapM_pure

/-- Enough shares of a point give the value at zero times the point. -/
lemma signatureRecovery_points (S : Suite F G) {threshold : ℕ} {ids : List Int64}
    (hids : ProperIds ids) (hcount : threshold < ids.length) (p : Polynome F) (point : G)
    (hdegree : p.toPolynomial.degree ≤ threshold) :
    signatureRecovery S threshold (ids.map fun id => S.marshalBinary (p.getValue id • point)) ids =
      .ok (S.marshalBinary (p.toPolynomial.eval 0 • point)) := by
  classical
  let shares : List PartSig := ids.map fun id => ⟨S.marshalBinary (p.getValue id • point), id⟩
  have hshareIds : shares.map PartSig.id = ids := by simp [shares, comp_def]
  have hsigs : shares.map PartSig.peerCrossSig =
      ids.map fun id => S.marshalBinary (p.getValue id • point) := by
    simp [shares]
  have hlength : shares.length = ids.length := length_map _
  have hrecover : recover S threshold shares = signatureRecovery S threshold
      (ids.map fun id => S.marshalBinary (p.getValue id • point)) ids := by
    rw [recover, hshareIds, hsigs]
  rw [← hrecover, recover_eq_ok_iff, hshareIds]
  refine ⟨by omega, ?_⟩
  by_cases htwo : 2 ≤ ids.length
  · refine .inr ⟨by omega, hids.nodup, _, decode_points S (fun id => p.getValue id • point) ids, ?_⟩
    have hmissing : missing p ids = 0 := hids.missing_eq_zero_of_degree S.order_large
      (hdegree.trans_lt (Nat.cast_lt.mpr hcount))
    rw [combine_values, hmissing, sub_zero, p.eval_zero]
  · -- A single share is that of a constant polynomial.
    obtain ⟨id, rfl⟩ := length_eq_one_iff.mp (show ids.length = 1 by omega)
    obtain rfl : threshold = 0 := by simpa using hcount
    have hconst := Polynomial.eq_C_of_degree_le_zero hdegree
    have hvalue : p.getValue id = p.toPolynomial.eval 0 := by
      rw [p.getValue_eq_eval, hconst, Polynomial.eval_C, Polynomial.eval_C]
    exact .inl ⟨id, by simp [shares, hvalue]⟩

lemma signatureRecovery_of_dup (S : Suite F G) (threshold : ℕ) {ids : List Int64}
    (hdup : ¬ ids.Nodup) (sigs : List Bytes) (bz : Bytes) :
    signatureRecovery S threshold sigs ids ≠ .ok bz := by
  intro hresult
  have hlength : ids.length = sigs.length := by
    by_contra hne
    unfold signatureRecovery at hresult
    rw [if_pos hne] at hresult
    cases hresult
  let shares : List PartSig := (ids.zip sigs).map fun z => ⟨z.2, z.1⟩
  have hids : shares.map PartSig.id = ids := by
    simp only [shares, List.map_map]
    exact map_fst_zip hlength.le
  have hsigs : shares.map PartSig.peerCrossSig = sigs := by
    simp only [shares, List.map_map]
    exact map_snd_zip hlength.ge
  have htwo : 2 ≤ shares.length := by
    by_contra hfew
    have hfew : ids.length ≤ 1 := by
      rw [← hids, length_map]
      omega
    exact hdup (nodup_iff_count_le_one.mpr fun a => count_le_length.trans hfew)
  have hrecover : recover S threshold shares = .ok bz := by rw [recover, hids, hsigs, hresult]
  exact not_recovered htwo (.inr (hids.symm ▸ hdup)) bz hrecover

/-- `SignatureRecovery` with positive identifiers: from more shares of a point than the degree of
the polynomial it returns the value at zero times that point; if an identifier occurs twice, an
error. -/
theorem signatureRecovery_of_positive_ids (S : Suite F G) (threshold : ℕ) (ids : List Int64)
    (hpos : ∀ id ∈ ids, 0 < id) :
    (ids.Nodup → threshold < ids.length → ∀ (p : Polynome F) (point : G),
      p.toPolynomial.degree ≤ threshold →
      signatureRecovery S threshold
          (ids.map fun id => S.marshalBinary (p.getValue id • point)) ids =
        .ok (S.marshalBinary (p.toPolynomial.eval 0 • point))) ∧
    (¬ ids.Nodup → ∀ sigs, ∃ err, signatureRecovery S threshold sigs ids = .error err) := by
  constructor
  · intro hnodup hcount p point hdegree
    exact signatureRecovery_points S (properIds_of_pos hnodup hpos) hcount p point hdegree
  · intro hdup sigs
    cases hresult : signatureRecovery S threshold sigs ids with
    | error err => exact ⟨err, rfl⟩
    | ok bz => exact absurd hresult (signatureRecovery_of_dup S threshold hdup sigs bz)

/-- Four shares of the cubic, of the message `m`. -/
theorem four_shares_recover :
    signatureRecovery additiveSuite 3
        (([1, 7, 500, 503] : List Int64).map fun id =>
          additiveSuite.marshalBinary (cubic.getValue id • additiveSuite.hash (lit "m")))
        [1, 7, 500, 503] =
      .ok (additiveSuite.marshalBinary
        (cubic.toPolynomial.eval 0 • additiveSuite.hash (lit "m"))) := by
  have hdegree : cubic.toPolynomial.degree ≤ (3 : ℕ) :=
    Order.le_of_lt_succ (Interpolation.degree_ofCoeffs_lt _)
  have hpos : ∀ id ∈ ([1, 7, 500, 503] : List Int64), 0 < id := by
    intro id hid
    simp only [mem_cons, not_mem_nil, or_false] at hid
    rcases hid with rfl | rfl | rfl | rfl <;> decide
  exact (signatureRecovery_of_positive_ids additiveSuite 3 [1, 7, 500, 503] hpos).1 (by decide)
    (by decide) cubic _ hdegree

end ShardingBC.Bls
