import ShardingBC.ValidatorRecall

/-!
# Fast sync

`poolRoutine` verifies and applies the blocks of a decided chain. Before each block, and before it
hands the state to consensus, it puts the validators of the state it started with into the state.
-/
namespace ShardingBC.Rotation

open List Option

open Consensus (BlockID Block Commit CommitError ChainEnv PartSetHeader electorate validateBlock)
open Runs

/-- A decided block with its commit, the `LastCommit` of the next block. -/
structure DecidedBlock where
  block : Block
  parts : PartSetHeader
  commit : Commit
  responses : Responses
  appHash : Bytes

variable (env : ChainEnv)

def DecidedBlock.applied (b : DecidedBlock) : Applied :=
  ⟨⟨b.block.hash env.amino, b.parts⟩, b.block.header, b.responses, b.appHash⟩

def ValidatorSet.verifyCommit (vals : ValidatorSet) (chainID : Bytes) (b : DecidedBlock) :
    Option CommitError :=
  Consensus.verifyCommit (electorate env chainID (vals.validators.map Validator.forget))
    (b.applied env).blockID b.block.header.height b.commit

/-- `ApplyBlock`. -/
def applyValid (s : State) (b : DecidedBlock) : Option State :=
  if validateBlock env s.forget b.block = some none then applyBlock s (b.applied env) else none

/-- Consensus decides the next block, by a commit of the validators of its height. -/
def decideBlock (s : State) (b : DecidedBlock) : Option State :=
  if b.block.header.height = s.lastBlockHeight + 1 ∧ s.validators.verifyCommit env s.chainID b = none
  then applyValid env s b else none

/-- The next height of the pool and the state of the routine. -/
structure Pool where
  height : ℤ
  state : State

/-- The state that the next block is verified with. -/
def Pool.prepared (init : State) (p : Pool) : State :=
  { p.state with validators := init.validators, nextValidators := init.nextValidators }

/-- One block of `poolRoutine`; `none` if it is rejected. -/
def trySync (init : State) (p : Pool) (b : DecidedBlock) : Option Pool :=
  if (p.prepared init).validators.verifyCommit env init.chainID b = none then
    (applyValid env (p.prepared init) b).map fun s => ⟨p.height + 1, s⟩
  else none

/-- The state that `SwitchToConsensus` gets. -/
def Pool.handedOver (init : State) (p : Pool) : State :=
  { p.state with lastBlockHeight := p.height - 1, validators := init.validators }

/-- Any part of the chain is synced to the state of a consensus node, and the next block is
verified with the validators of its height. -/
def Synced (g : State) (bs : List DecidedBlock) : Prop :=
  ∀ k ≤ bs.length, ∀ s, run (decideBlock env) g (bs.take k) = some s →
    ∃ p, run (trySync env g) ⟨1, g⟩ (bs.take k) = some p ∧ p.handedOver g = s ∧
      (k < bs.length → (p.prepared g).validators = s.validators)

/-- The updates are none, or the one validator as it is. -/
def Unchanging (v : Validator) (updates : List Validator) : Prop :=
  updates = [] ∨ ∃ p, updates = [v.withPriority p]

variable {env} {s t g : State} {b : DecidedBlock} {bs : List DecidedBlock} {v : Validator}

lemma decideBlock_eq_some (h : decideBlock env s b = some t) :
    b.block.header.height = s.lastBlockHeight + 1 ∧
      s.validators.verifyCommit env s.chainID b = none ∧ applyValid env s b = some t := by
  unfold decideBlock at h
  split_ifs at h with hcond
  exact ⟨hcond.1, hcond.2, h⟩

/-- The sets after a block, and what stays. -/
lemma applyValid_spec (h : applyValid env s b = some t) :
    t.validators = s.nextValidators ∧
      nextValidatorSet s.nextValidators b.responses.validatorUpdates b.block.header.height =
        .ok t.nextValidators ∧
      t.lastBlockHeight = b.block.header.height ∧ t.chainID = s.chainID := by
  unfold applyValid at h
  split_ifs at h
  obtain ⟨nValSet, nextParams, hvals, -, rfl⟩ := applyBlock_eq_some h
  exact ⟨rfl, hvals, rfl, rfl⟩

lemma verifyCommit_empty (chainID : Bytes) (b : DecidedBlock) :
    ValidatorSet.empty.verifyCommit env chainID b ≠ none := by
  unfold ValidatorSet.verifyCommit Consensus.verifyCommit
  cases hbasic : b.commit.validateBasic with
  | some err => simp
  | none =>
    have hne : b.commit.precommits ≠ [] := by
      intro hnil
      unfold Commit.validateBasic at hbasic
      split_ifs at hbasic
    have hsize : (electorate env chainID
        (ValidatorSet.empty.validators.map Validator.forget)).validators.length ≠
        b.commit.precommits.length := by
      intro hlen
      exact hne (length_eq_zero_iff.mp hlen.symm)
    simp only [if_pos hsize]
    simp

lemma nextValidatorSet_sole_iff {updates : List Validator} {height : ℤ} {next : ValidatorSet}
    (hsound : Sound [v]) (hzero : v.proposerPriority = 0)
    (h : nextValidatorSet ⟨[v], some v⟩ updates height = .ok next) :
    next = ⟨[v], some v⟩ ↔ Unchanging v updates := by
  obtain ⟨changed, hchanged, hnext⟩ := nextValidatorSet_eq_ok h
  have hsettled : Settled ⟨[v], some v⟩ := settled_iff.mpr ⟨v, hzero, rfl⟩
  have hbare : bare next.validators = bare changed.validators := by
    split_ifs at hnext
    · exact incrementProposerPriority_bare hnext
    · rw [hnext]
  have hkept : changed = ⟨[v], some v⟩ → next = ⟨[v], some v⟩ := by
    rintro rfl
    split_ifs at hnext
    · rw [hsettled.incrementProposerPriority hsound one_pos] at hnext
      exact (some.inj hnext).symm
    · exact hnext
  split_ifs at hchanged with hne
  · constructor
    · rintro rfl
      have hv : bare [v] = [v] := congrArg ([·]) (withPriority_eq_self hzero)
      exact .inr (updates_of_bare_eq hne hchanged (hbare.symm.trans hv))
    · rintro (hnil | ⟨p, rfl⟩)
      · exact absurd hnil hne
      · exact hkept (updateWithChangeSet_sole hsound hzero hchanged)
  · exact iff_of_true (hkept hchanged) (.inl (not_not.mp hne))

lemma unchanging_of_validators {n : State} (hsound : Sound [v]) (hzero : v.proposerPriority = 0)
    (hrun : run (decideBlock env) s bs = some n)
    (hall : ∀ k t, run (decideBlock env) s (bs.take k) = some t → t.validators = ⟨[v], some v⟩) :
    ∀ b ∈ bs.dropLast, Unchanging v b.responses.validatorUpdates := by
  induction bs generalizing s with
  | nil => simp
  | cons b bs ih =>
    obtain ⟨s₁, hb, hrest⟩ := run_cons.mp hrun
    have hlater : ∀ k t, run (decideBlock env) s₁ (bs.take k) = some t →
        t.validators = ⟨[v], some v⟩ := by
      intro k t ht
      apply hall (k + 1) t
      rw [take_succ_cons, run, hb]
      exact ht
    cases bs with
    | nil => simp
    | cons b' bs =>
      obtain ⟨s₂, hb', -⟩ := run_cons.mp hrest
      obtain ⟨-, -, happly⟩ := decideBlock_eq_some hb
      obtain ⟨-, -, happly'⟩ := decideBlock_eq_some hb'
      obtain ⟨hvals, hnext, -, -⟩ := applyValid_spec happly
      obtain ⟨hvals', -, -, -⟩ := applyValid_spec happly'
      have hfirst : s₁.validators = ⟨[v], some v⟩ := hlater 0 s₁ rfl
      have hsecond : s₂.validators = ⟨[v], some v⟩ := by
        apply hlater 1 s₂
        rw [take_succ_cons, run, hb']
        rfl
      rw [← hvals, hfirst] at hnext
      intro x hx
      rcases mem_cons.mp hx with rfl | hx
      · exact (nextValidatorSet_sole_iff hsound hzero hnext).mp (hvals'.symm.trans hsecond)
      · exact ih hrest hlater x hx

lemma synced_from {k : ℕ} (hsound : Sound [v]) (hzero : v.proposerPriority = 0)
    (hg : g.validators = ⟨[v], some v⟩) (hg' : g.nextValidators = ⟨[v], some v⟩)
    (hchain : s.chainID = g.chainID) (hvals : s.validators = ⟨[v], some v⟩)
    (hnext : bs ≠ [] → s.nextValidators = ⟨[v], some v⟩)
    (hbs : ∀ b ∈ bs.dropLast, Unchanging v b.responses.validatorUpdates)
    (ht : run (decideBlock env) s (bs.take k) = some t) :
    ∃ q, run (trySync env g) ⟨s.lastBlockHeight + 1, s⟩ (bs.take k) = some q ∧
      q.handedOver g = t ∧ (k < bs.length → (q.prepared g).validators = t.validators) := by
  induction bs generalizing s k with
  | nil =>
    rw [take_nil] at ht ⊢
    cases ht
    refine ⟨_, rfl, ?_, fun hk => absurd hk (Nat.not_lt_zero k)⟩
    simp only [Pool.handedOver, hg.trans hvals.symm, add_sub_cancel_right]
  | cons b bs ih =>
    cases k with
    | zero =>
      cases ht
      refine ⟨_, rfl, ?_, fun _ => hg.trans hvals.symm⟩
      simp only [Pool.handedOver, hg.trans hvals.symm, add_sub_cancel_right]
    | succ k =>
      rw [take_succ_cons] at ht ⊢
      obtain ⟨s₁, hb, hrest⟩ := run_cons.mp ht
      obtain ⟨hheight, hverify, happly⟩ := decideBlock_eq_some hb
      obtain ⟨hvals₁, hnext₁, hheight₁, hchain₁⟩ := applyValid_spec happly
      have hnext := hnext (cons_ne_nil b bs)
      have hprepared : Pool.prepared g ⟨s.lastBlockHeight + 1, s⟩ = s := by
        simp only [Pool.prepared, hg.trans hvals.symm, hg'.trans hnext.symm]
      have hstep : trySync env g ⟨s.lastBlockHeight + 1, s⟩ b =
          some ⟨s₁.lastBlockHeight + 1, s₁⟩ := by
        rw [trySync, hprepared, ← hchain, if_pos hverify, happly, hheight₁, hheight]
        rfl
      have hkept : bs ≠ [] → s₁.nextValidators = ⟨[v], some v⟩ := by
        intro hne
        rw [hnext] at hnext₁
        refine (nextValidatorSet_sole_iff hsound hzero hnext₁).mpr (hbs b ?_)
        rw [dropLast_cons_of_ne_nil hne]
        exact mem_cons_self
      obtain ⟨q, hq, hover, hprep⟩ := ih (hchain₁.trans hchain) (hvals₁.trans hnext) hkept
        (fun x hx => hbs x (by
          rw [dropLast_cons_of_ne_nil (by rintro rfl; simp at hx)]
          exact mem_cons_of_mem b hx)) hrest
      refine ⟨q, ?_, hover, fun hk => hprep (by simpa using hk)⟩
      rw [run, hstep]
      exact hq

lemma makeGenesisState_spec {doc : GenesisDoc} (h : makeGenesisState doc = some g) :
    g.lastBlockHeight = 0 ∧
      match doc.validators with
      | none => g.validators = .empty
      | some valz => newValidatorSet valz = some g.validators ∧
          g.validators.incrementProposerPriority 1 = some g.nextValidators := by
  obtain ⟨sets, hsets, rfl⟩ := map_eq_some_iff.mp h
  refine ⟨rfl, ?_⟩
  cases hvals : doc.validators with
  | none =>
    rw [hvals] at hsets
    rw [← some.inj hsets]
  | some valz =>
    rw [hvals] at hsets
    obtain ⟨set, hset, hsets⟩ := bind_eq_some_iff.mp hsets
    obtain ⟨next, hnext, hsets⟩ := bind_eq_some_iff.mp hsets
    cases hsets
    exact ⟨hset, hnext⟩

lemma genesis_sole {doc : GenesisDoc} (h : makeGenesisState doc = some g)
    (hvals : doc.validators = some [v]) :
    Sound [v.withPriority 0] ∧
      g.validators = ⟨[v.withPriority 0], some (v.withPriority 0)⟩ ∧
      g.nextValidators = ⟨[v.withPriority 0], some (v.withPriority 0)⟩ := by
  obtain ⟨-, hsets⟩ := makeGenesisState_spec h
  rw [hvals] at hsets
  obtain ⟨hset, hnext⟩ := hsets
  have hsound := sound_of_newValidatorSet (cons_ne_nil _ _) hset
  have hg := newValidatorSet_singleton hset
  rw [hg] at hsound hnext
  refine ⟨hsound, hg, ?_⟩
  have hsettled : Settled ⟨[v.withPriority 0], some (v.withPriority 0)⟩ :=
    settled_iff.mpr ⟨_, rfl, rfl⟩
  rw [hsettled.incrementProposerPriority hsound one_pos] at hnext
  exact (some.inj hnext).symm

lemma sole_of_genesis_eq {doc : GenesisDoc} (h : makeGenesisState doc = some g)
    (hne : g.validators ≠ .empty) (hsame : g.validators = g.nextValidators) :
    ∃ v, doc.validators = some [v] := by
  obtain ⟨-, hsets⟩ := makeGenesisState_spec h
  cases hvals : doc.validators with
  | none =>
    rw [hvals] at hsets
    exact absurd hsets hne
  | some valz =>
    rw [hvals] at hsets
    obtain ⟨hset, hnext⟩ := hsets
    rw [← hsame] at hnext
    have hnil : valz ≠ [] := by
      rintro rfl
      exact hne (some.inj hset).symm
    have hsettled := settled_of_incrementProposerPriority (sound_of_newValidatorSet hnil hset) hnext
    have hlen := length_newValidatorSet hset
    rw [hsettled.1] at hlen
    obtain ⟨v, rfl⟩ := length_eq_one_iff.mp hlen.symm
    exact ⟨v, rfl⟩

/-- The chain of a genesis document is synced if and only if it has no blocks, or one validator
that no block but the last changes. -/
theorem fast_sync_iff (doc : GenesisDoc) (g n : State) (bs : List DecidedBlock)
    (hg : makeGenesisState doc = some g) (hrun : run (decideBlock env) g bs = some n) :
    Synced env g bs ↔
      bs = [] ∨ ∃ v, doc.validators = some [v] ∧
        ∀ b ∈ bs.dropLast, Unchanging v b.responses.validatorUpdates := by
  have hheight := (makeGenesisState_spec hg).1
  constructor
  · intro hsync
    cases bs with
    | nil => exact .inl rfl
    | cons b bs =>
      right
      have hall : ∀ k t, run (decideBlock env) g ((b :: bs).take k) = some t →
          t.validators = g.validators := by
        intro k t ht
        rw [take_eq_take_min] at ht
        obtain ⟨p, -, rfl, -⟩ := hsync (min k (b :: bs).length) (min_le_right _ _) t ht
        rfl
      obtain ⟨s₁, hb, -⟩ := run_cons.mp hrun
      obtain ⟨-, hverify, happly⟩ := decideBlock_eq_some hb
      obtain ⟨hvals₁, -⟩ := applyValid_spec happly
      have hfirst : s₁.validators = g.validators := by
        apply hall 1 s₁
        rw [take_succ_cons, run, hb]
        rfl
      have hne : g.validators ≠ .empty := by
        intro hempty
        rw [hempty] at hverify
        exact verifyCommit_empty _ b hverify
      obtain ⟨v, hv⟩ := sole_of_genesis_eq hg hne (hfirst.symm.trans hvals₁)
      obtain ⟨hsound, hvals, -⟩ := genesis_sole hg hv
      refine ⟨v, hv, ?_⟩
      exact unchanging_of_validators (v := v.withPriority 0) hsound rfl hrun
        fun k t ht => (hall k t ht).trans hvals
  · rintro (rfl | ⟨v, hv, hbs⟩) k hk t ht
    · rw [take_nil] at ht ⊢
      cases ht
      refine ⟨_, rfl, ?_, fun hk => absurd hk (Nat.not_lt_zero k)⟩
      simp only [Pool.handedOver, sub_self, ← hheight]
    · obtain ⟨hsound, hvals, hnext⟩ := genesis_sole hg hv
      have := synced_from hsound rfl hvals hnext rfl hvals (fun _ => hnext) hbs ht
      rw [hheight] at this
      exact this

/-- A signature is the key. -/
def keyChain : ChainEnv :=
  ⟨Consensus.plainAmino, lit "A", fun pubKey => pubKey, fun pubKey _ sig => sig = pubKey⟩

def precommit (blockID : BlockID) (v : Validator) (i : ℕ) : Option Consensus.Vote :=
  some ⟨.precommit, 1, 0, blockID, 3, v.address, i, v.pubKey, none, none⟩

/-- The first block made in a state, with a commit of all validators. -/
def firstDecided (g : State) (updates : List Validator) : DecidedBlock :=
  let block := (Consensus.makeBlock keyChain g.forget 1 [] ⟨.zero, []⟩ []
    (List.replicate 20 1) []).get rfl
  let blockID : BlockID := ⟨block.hash Consensus.plainAmino, 1, List.replicate 32 5⟩
  { block := block
    parts := blockID.partsHeader
    commit := ⟨blockID, g.validators.validators.mapIdx fun i v => precommit blockID v i⟩
    responses := ⟨updates, none, []⟩
    appHash := [] }

lemma firstDecided_verified {g : State} (updates : List Validator)
    (hne : g.validators.validators ≠ [])
    (hpower : 0 < ((g.validators.validators.map Validator.forget).map
      Consensus.Validator.votingPower).sum) :
    g.validators.verifyCommit keyChain g.chainID (firstDecided g updates) = none := by
  obtain ⟨v, vs, hvals⟩ := exists_cons_of_ne_nil hne
  have hmem : ∀ p ∈ (firstDecided g updates).commit.precommits, ∃ v i,
      p = precommit (firstDecided g updates).commit.blockID v i := by
    intro p hp
    obtain ⟨i, hi, rfl⟩ := mem_mapIdx.mp hp
    exact ⟨_, _, rfl⟩
  have hfirst : (firstDecided g updates).commit.first =
      precommit (firstDecided g updates).commit.blockID v 0 := by
    simp [Commit.first, firstDecided, hvals, precommit]
  have hheight : (firstDecided g updates).commit.height = 1 := by
    rw [Commit.height, hfirst]
    rfl
  have hround : (firstDecided g updates).commit.round = 0 := by
    rw [Commit.round, hfirst]
    rfl
  have hbasic : (firstDecided g updates).commit.validateBasic = none := by
    unfold Commit.validateBasic
    rw [if_neg (by simp [firstDecided, Consensus.BlockID.isZero]),
      if_neg (by simp [firstDecided, hne]), findSome?_eq_none_iff]
    intro p hp
    obtain ⟨w, i, rfl⟩ := hmem p hp
    simp [precommit, Commit.checkPrecommit, hheight, hround]
  let E := electorate keyChain g.chainID (g.validators.validators.map Validator.forget)
  have hsigned : (E.validators.zip (firstDecided g updates).commit.precommits).any
      (fun s => s.2.any fun v =>
        !E.verifyBytes s.1.pubKey (Consensus.canonicalizeVote E.chainID v) v.signature) = false := by
    rw [List.any_eq_false]
    intro p hp
    obtain ⟨i, hi, rfl⟩ := getElem_of_mem hp
    simp [E, electorate, firstDecided, precommit, keyChain, Validator.forget]
  have htallied : ((E.validators.zip (firstDecided g updates).commit.precommits).map fun s =>
      if s.2.any fun v => v.blockID = ((firstDecided g updates).applied keyChain).blockID then
        s.1.votingPower else 0) =
      E.validators.map Consensus.Validator.votingPower := by
    apply ext_getElem
    · simp [E, electorate, firstDecided]
    · intro i hi hi'
      simp [E, firstDecided, precommit, DecidedBlock.applied, keyChain]
  have hlen : E.validators.length = (firstDecided g updates).commit.precommits.length := by
    simp [E, electorate, firstDecided]
  have htotal : E.totalVotingPower * 2 / 3 <
      (E.validators.map Consensus.Validator.votingPower).sum := by
    change (E.validators.map Consensus.Validator.votingPower).sum * 2 / 3 < _
    have : 0 < (E.validators.map Consensus.Validator.votingPower).sum := hpower
    omega
  have hblock : (firstDecided g updates).block.header.height = 1 := rfl
  have hblockID : ((firstDecided g updates).applied keyChain).blockID =
      (firstDecided g updates).commit.blockID := rfl
  unfold ValidatorSet.verifyCommit Consensus.verifyCommit
  simp only [hbasic, hheight]
  rw [if_neg (not_not.mpr hlen), if_neg (not_not.mpr hblock), if_neg (not_not.mpr hblockID),
    if_neg (Bool.eq_false_iff.mp hsigned), htallied, if_pos htotal]

def soleDoc : GenesisDoc := { sampleDoc with validators := some [sampleValidator 1 10] }

def soleGenesis : State := (makeGenesisState soleDoc).get (by decide +kernel)

/-- The last block may change the validators. -/
theorem last_change_synced :
    (run (decideBlock keyChain) soleGenesis
        [firstDecided soleGenesis [sampleValidator 2 10]]).isSome = true ∧
      Synced keyChain soleGenesis [firstDecided soleGenesis [sampleValidator 2 10]] := by
  have hverified := firstDecided_verified (g := soleGenesis) [sampleValidator 2 10]
    (by decide +kernel) (by decide +kernel)
  have hvalid : validateBlock keyChain soleGenesis.forget
      (firstDecided soleGenesis [sampleValidator 2 10]).block = some none := by decide +kernel
  refine (and_iff_left_of_imp fun hrun => ?_).mpr ?_
  · obtain ⟨n, hn⟩ := isSome_iff_exists.mp hrun
    have hgenesis : makeGenesisState soleDoc = some soleGenesis := by simp [soleGenesis]
    exact (fast_sync_iff soleDoc soleGenesis n _ hgenesis hn).mpr (.inr ⟨_, rfl, by simp⟩)
  · rw [run, decideBlock, if_pos ⟨rfl, hverified⟩, applyValid, if_pos hvalid]
    rfl

/-- With two validators the state after the first block has those of the first height instead of
the second. -/
theorem first_block_not_synced :
    makeGenesisState sampleDoc = some sampleGenesis ∧
      ∃ n p, run (decideBlock keyChain) sampleGenesis [firstDecided sampleGenesis []] = some n ∧
        run (trySync keyChain sampleGenesis) ⟨1, sampleGenesis⟩ [firstDecided sampleGenesis []] =
          some p ∧
        (p.handedOver sampleGenesis).validators ≠ n.validators := by
  have hverified := firstDecided_verified (g := sampleGenesis) [] (by decide +kernel)
    (by decide +kernel)
  have hvalid : validateBlock keyChain sampleGenesis.forget (firstDecided sampleGenesis []).block =
      some none := by decide +kernel
  obtain ⟨s, hs⟩ := isSome_iff_exists.mp (show (applyBlock sampleGenesis
    ((firstDecided sampleGenesis []).applied keyChain)).isSome by decide +kernel)
  have happly : applyValid keyChain sampleGenesis (firstDecided sampleGenesis []) = some s := by
    rw [applyValid, if_pos hvalid, hs]
  have hprepared : Pool.prepared sampleGenesis ⟨1, sampleGenesis⟩ = sampleGenesis := rfl
  refine ⟨sampleGenesis_eq, s, ⟨2, s⟩, ?_, ?_, ?_⟩
  · rw [run, decideBlock, if_pos ⟨rfl, hverified⟩, happly]
    rfl
  · rw [run, trySync, hprepared, if_pos hverified, happly]
    rfl
  · rw [(applyValid_spec happly).1]
    change sampleGenesis.validators ≠ sampleGenesis.nextValidators
    decide +kernel

end ShardingBC.Rotation
