import ShardingBC.Chain
import ShardingBC.Consumption
import ShardingBC.ConsensusState

/-!
# The cross-shard fields of a block

`CrossMerkleRoot` and `CmRelation` are filled by the proposer. What this code fills in belongs to
the transactions of the block. What another proposer fills in is neither checked nor hashed, and
validators sign the root as it is.
-/
namespace ShardingBC.Consensus

open List Option

/-- The block with other cross-shard fields. -/
def Block.withCross (b : Block) (root relation : Bytes) : Block :=
  { b with header := { b.header with crossMerkleRoot := root, cmRelation := relation } }

/-- `ParsePackages` of the header field. -/
def Block.packages (b : Block) : List Package := (parsePackages b.header.cmRelation).getD []

def CrossRootMatches (shard : Bytes) (b : Block) : Prop :=
  ∃ mts, generateMerkleTreebySingle shard b.txs = some mts ∧
    b.header.crossMerkleRoot = mts.rootTree.computeRootHash.bytes

/-- The package acknowledges the message. -/
def Acknowledges (pack : Package) (cm : CrossMessages) : Prop :=
  pack.crossMerkleRoot = cm.crossMerkleRoot ∧ pack.height = cm.height ∧ pack.cmID = cm.id

/-- Every package is that of a message of the mempool whose relays are in the block. -/
def PackagesExecuted (env : Env) (m : Mempool) (b : Block) : Prop :=
  ∀ pack ∈ b.packages, ∃ x ∈ m.txs.elems, ∃ cm, IsMessage x cm ∧ Acknowledges pack cm ∧
    Executed env b.txs cm

/-- The transactions of the next block. A buffered configuration comes alone. -/
def proposalTxs (menv : Env) (spTxBuf : List Bytes) (m : Mempool)
    (maxDataBytes maxGas height : Int64) : Option (List Bytes × Mempool) :=
  match spTxBuf with
  | [] => m.reapMaxBytesMaxGas menv maxDataBytes maxGas height
  | tx :: _ => some ([tx], m)

def createProposalBlock (env : ChainEnv) (menv : Env) (s : State) (spTxBuf : List Bytes)
    (m : Mempool) (maxDataBytes maxGas height : Int64) (commit : Commit) (evidence : List Bytes)
    (proposerAddress : Bytes) : Option (Block × Mempool) := do
  let (txs, m) ← proposalTxs menv spTxBuf m maxDataBytes maxGas height
  let b ← makeBlock env s height.toInt (handleSortTx menv.shard txs) commit evidence proposerAddress
    (searchRelationTable m.rlDB height)
  some (b, m)

/-- The node with these settings that works on the blocks of a chain. -/
def Config.onBlocks {E : Electorate} (cfg : Config E Block) (env : ChainEnv) (s : State) :
    Config E Block :=
  { cfg with
    hash := Block.hash env.amino
    headerHash := fun b => b.header.hash env.amino
    blockHeight := fun b => b.header.height
    txs := Block.txs
    crossMerkleRoot := fun b => b.header.crossMerkleRoot
    validateBlock := fun b => Consensus.validateBlock env s b = some none }

/-- An unlocked validator with all it needs to prevote the block. -/
structure Node.Ready {E : Electorate} {β : Type} (cfg : Config E β) (n : Node E β) (b : β) :
    Prop where
  index : cfg.index.isSome
  unlocked : n.lockedBlock = none
  proposalBlock : n.proposalBlock = some b
  hash : cfg.hash b ≠ []
  verified : Node.verifyTxs cfg (cfg.txs b) = true
  fresh : ∀ w ∈ n.signed, Node.placeOf w < hrsOf n.height n.round stepPrevote
  sign : ∀ bz, (cfg.sign bz).isSome
  signBytes : ∀ v, (cfg.signBytes v).isSome

/-- The node's prevote for the block carries its share on these bytes. -/
def Node.PrevotesWithShare {E : Electorate} {β : Type} (cfg : Config E β) (n : Node E β) (b : β)
    (bz : Bytes) : Prop :=
  ∃ n' v sig, n.defaultDoPrevote cfg = some n' ∧ n'.signed = v :: n.signed ∧ v.type = .prevote ∧
    v.blockID.hash = cfg.hash b ∧ cfg.sign bz = some sig ∧ v.partSig = some ⟨sig, cfg.parseId⟩

section Prevote

variable {E : Electorate} {β : Type} {cfg : Config E β} {n : Node E β} {b : β}

lemma Node.Ready.signVote_eq (h : n.Ready cfg b) {v : Vote} (htype : v.type = .prevote)
    (hheight : v.height = n.height) (hround : v.round = n.round) :
    ∃ sig, n.signVote cfg v = { n with signed := { v with signature := sig } :: n.signed } := by
  obtain ⟨sig, hsig⟩ := isSome_iff_exists.mp (h.signBytes (canonicalizeVote E.chainID v))
  have hplace : Node.placeOf v = hrsOf n.height n.round stepPrevote := by
    rw [Node.placeOf, htype, hheight, hround]
    rfl
  refine ⟨sig, ?_⟩
  rw [Node.signVote, if_pos (by rw [hplace]; exact h.fresh), hsig]

lemma Node.Ready.prevotesWithShare (h : n.Ready cfg b) (hvalid : cfg.validateBlock b = true) :
    n.PrevotesWithShare cfg b (cfg.crossMerkleRoot b) := by
  obtain ⟨i, hi⟩ := isSome_iff_exists.mp h.index
  obtain ⟨blockSig, hblock⟩ := isSome_iff_exists.mp (h.sign (cfg.headerHash b))
  obtain ⟨rootSig, hroot⟩ := isSome_iff_exists.mp (h.sign (cfg.crossMerkleRoot b))
  let v : Vote :=
    { type := .prevote, height := n.height, round := n.round
      blockID := ⟨cfg.hash b, headerOf n.proposalBlockParts⟩
      timestamp := cfg.voteTime n.signed.length, validatorAddress := cfg.address
      validatorIndex := (i : ℕ), signature := [], partSig := some ⟨rootSig, cfg.parseId⟩
      partBlockSig := some ⟨blockSig, cfg.parseId⟩ }
  obtain ⟨sig, hsigned⟩ := h.signVote_eq (v := v) rfl rfl rfl
  have hprevote : n.defaultDoPrevote cfg = some (n.signVote cfg v) := by
    unfold Node.defaultDoPrevote
    simp only [h.unlocked, h.proposalBlock, hvalid, h.verified]
    simp [Node.signAddVote, hi, h.hash, h.proposalBlock, sigCrossMerkleRoot, hblock, hroot, v]
  rw [hsigned] at hprevote
  exact ⟨_, _, rootSig, hprevote, rfl, rfl, rfl, hroot, rfl⟩

end Prevote

section Malleable

variable {env : ChainEnv} {s : State} {b : Block}

lemma not_rootMatches_nil (shard relation : Bytes) (b : Block) :
    ¬ CrossRootMatches shard (b.withCross [] relation) := by
  rintro ⟨mts, -, hroot⟩
  have hlen := congrArg length hroot
  simp [Block.withCross] at hlen

/-- There is a package of none of finitely many messages. -/
lemma exists_unacknowledged (menv : Env) (m : Mempool) (root : Bytes) (b : Block) :
    ∃ relation, ¬ PackagesExecuted menv m (b.withCross root relation) := by
  let roots := m.txs.elems.filterMap fun x => (parseData x.tx).join.map CrossMessages.crossMerkleRoot
  obtain ⟨r, hr⟩ := Infinite.exists_notMem_finset roots.toFinset
  let pack : Package := { Package.zero with crossMerkleRoot := r }
  refine ⟨marshalPackages [pack], fun hall => ?_⟩
  have hpacks : (b.withCross root (marshalPackages [pack])).packages = [pack.repair] :=
    packages_marshal [] [pack]
  obtain ⟨x, hx, cm, hcm, ⟨hroot, -⟩, -⟩ := hall pack.repair (by rw [hpacks]; simp)
  refine hr (mem_toFinset.mpr (mem_filterMap.mpr ⟨x, hx, ?_⟩))
  rw [show parseData x.tx = some (some cm) from hcm]
  exact congrArg some hroot.symm

end Malleable

section Honest

variable {env : ChainEnv} {s : State} {b : Block} {commit : Commit} {evidence : List Bytes}
  {proposerAddress : Bytes}

lemma makeBlock_rootMatches {height : ℤ} {txs : List Bytes} {packages : List Package}
    (h : makeBlock env s height txs commit evidence proposerAddress packages = some b) :
    CrossRootMatches env.shard b := by
  obtain ⟨time, -, rfl⟩ := map_eq_some_iff.mp h
  obtain ⟨mts, hmts⟩ := isSome_iff_exists.mp (generateMerkleTreebySingle_isSome env.shard txs)
  refine ⟨mts, hmts, ?_⟩
  simp [hmts]

variable {menv : Env} {spTxBuf : List Bytes} {m m' : Mempool} {maxDataBytes maxGas height : Int64}

/-- Each row for the height after a proposal is that of a message whose relays are proposed. -/
lemma proposalTxs_rows {txs : List Bytes} (hrows : ∀ r ∈ m.rlDB, r.csHeight ≠ height)
    (hgas : GasFits maxGas 0 m.txs.elems)
    (h : proposalTxs menv spTxBuf m maxDataBytes maxGas height = some (txs, m')) :
    ∀ r ∈ m'.rlDB, r.csHeight = height → RowReaped menv height m.txs.elems txs r := by
  intro r hr hh
  cases spTxBuf with
  | nil =>
    obtain ⟨⟨reaped, rows⟩, hloop, he⟩ := map_eq_some_iff.mp h
    cases he
    rcases mem_append.mp hr with hr | hr
    · exact absurd hh (hrows r hr)
    · exact reapLoop_rows hgas hloop r hr
  | cons tx _ =>
    cases h
    exact absurd hh (hrows r hr)

lemma createProposalBlock_matches
    (h : createProposalBlock env menv s spTxBuf m maxDataBytes maxGas height commit evidence
      proposerAddress = some (b, m')) :
    CrossRootMatches env.shard b ∧
      (menv.shard ≠ [] → (∀ r ∈ m.rlDB, r.csHeight ≠ height) → GasFits maxGas 0 m.txs.elems →
        PackagesExecuted menv m b) := by
  obtain ⟨⟨txs, m1⟩, htxs, h⟩ := bind_eq_some_iff.mp h
  obtain ⟨b1, hmake, h⟩ := bind_eq_some_iff.mp h
  cases h
  refine ⟨makeBlock_rootMatches hmake, fun hshard hrows hgas pack hpack => ?_⟩
  obtain ⟨time, -, rfl⟩ := map_eq_some_iff.mp hmake
  replace hpack : pack ∈ map Package.repair (searchRelationTable m'.rlDB height) :=
    packages_marshal txs (searchRelationTable m'.rlDB height) ▸ hpack
  obtain ⟨row, hrow, rfl⟩ := mem_map.mp hpack
  obtain ⟨r, hr, rfl⟩ := mem_map.mp hrow
  obtain ⟨hr, hh⟩ := mem_filter.mp hr
  obtain ⟨x, hx, cm, txlist, relays, hcm, htl, hrel, rfl, hsub⟩ :=
    proposalTxs_rows hrows hgas htxs r hr (of_decide_eq_true hh)
  refine ⟨x, hx, cm, hcm, ⟨rfl, rfl, rfl⟩, ?_⟩
  exact executed_of_reaped hshard htl hrel hsub

end Honest

/-- Only in states whose chain ID is too long for any block do all accepted blocks carry the root
of their transactions, or packages of executed messages only. An accepted block is accepted, under
the same hash, with every other root and relation, and validators sign that root. The blocks of
`CreateProposalBlock` carry the right root, and the right packages if the shard has a name, no
proposal was made at the height before, and the gas limit cuts off no message. -/
theorem crossRoot_bound_iff (env : ChainEnv) (menv : Env) :
    (∀ s, (∀ b, validateBlock env s b = some none → CrossRootMatches env.shard b) ↔
      maxChainIDLen < s.chainID.length) ∧
    (∀ s m, (∀ b, validateBlock env s b = some none → PackagesExecuted menv m b) ↔
      maxChainIDLen < s.chainID.length) ∧
    (∀ s b root relation, validateBlock env s b = some none →
      validateBlock env s (b.withCross root relation) = some none ∧
        (b.withCross root relation).hash env.amino = b.hash env.amino ∧
        ∀ (E : Electorate) (cfg : Config E Block) (n : Node E Block),
          n.Ready (cfg.onBlocks env s) (b.withCross root relation) →
            n.PrevotesWithShare (cfg.onBlocks env s) (b.withCross root relation) root) ∧
    ∀ s spTxBuf m maxDataBytes maxGas height commit evidence proposerAddress b m',
      createProposalBlock env menv s spTxBuf m maxDataBytes maxGas height commit evidence
        proposerAddress = some (b, m') →
      CrossRootMatches env.shard b ∧
        (menv.shard ≠ [] → (∀ r ∈ m.rlDB, r.csHeight ≠ height) → GasFits maxGas 0 m.txs.elems →
          PackagesExecuted menv m b) := by
  have hlong : ∀ {s b}, maxChainIDLen < s.chainID.length → validateBlock env s b ≠ some none :=
    fun hlen hb => absurd (basic_of_accepted hb).1 (not_le.mpr hlen)
  have hshort : ∀ s : State, ¬ maxChainIDLen < s.chainID.length →
      ∃ b, validateBlock env s b = some none :=
    fun s hlen => ⟨_, strayBlock_accepted (not_lt.mp hlen) (length_replicate (a := 0))⟩
  refine ⟨fun s => ⟨fun hall => ?_, fun hlen b hb => absurd hb (hlong hlen)⟩,
    fun s m => ⟨fun hall => ?_, fun hlen b hb => absurd hb (hlong hlen)⟩, ?_, ?_⟩
  · by_contra hlen
    obtain ⟨b, hb⟩ := hshort s hlen
    exact not_rootMatches_nil env.shard [] b (hall _ hb)
  · by_contra hlen
    obtain ⟨b, hb⟩ := hshort s hlen
    obtain ⟨relation, hrelation⟩ := exists_unacknowledged menv m [] b
    exact hrelation (hall _ hb)
  · intro s b root relation hb
    refine ⟨hb, rfl, fun E cfg n hready => ?_⟩
    exact hready.prevotesWithShare (decide_eq_true hb)
  · intro s spTxBuf m maxDataBytes maxGas height commit evidence proposerAddress b m' h
    exact createProposalBlock_matches h

/-- The first block of shard B, which packs a message of shard A. -/
def packingBlock : Option (Block × Mempool) :=
  createProposalBlock { plainChain with shard := lit "B" } (plainEnv "B") genesisState []
    poolWithMessage (-1) (-1) 1 ⟨.zero, []⟩ [] soleAddress

theorem packingBlock_matches :
    ∃ b m', packingBlock = some (b, m') ∧ b.packages.length = 1 ∧ CrossRootMatches (lit "B") b ∧
      PackagesExecuted (plainEnv "B") poolWithMessage b := by
  obtain ⟨⟨b, m'⟩, hb, hlen⟩ : ∃ r, packingBlock = some r ∧ r.1.packages.length = 1 :=
    Runs.exists_of_any (by decide +kernel)
  obtain ⟨hroot, hpacks⟩ := (crossRoot_bound_iff { plainChain with shard := lit "B" }
    (plainEnv "B")).2.2.2 _ _ _ _ _ _ _ _ _ b m' hb
  refine ⟨b, m', hb, hlen, hroot, hpacks (by decide) ?_ (.inl (by decide))⟩
  simp [poolWithMessage, plainMempool, newMempool, Mempool.addTx]

/-- The first block of the chain with a root of the proposer's own. -/
def changedBlock : Block := firstBlock.withCross (List.replicate 32 9) []

/-- The sole validator; its key signs by leaving the bytes as they are. -/
def soleConfig : Config (electorate plainChain (lit "A") [soleValidator]) Block where
  hash := fun _ => []
  headerHash := fun _ => []
  blockHeight := fun _ => 0
  txs := fun _ => []
  crossMerkleRoot := fun _ => []
  validateBlock := fun _ => false
  verify := fun _ _ _ => false
  applyBlock := fun _ => true
  index := some ⟨0, by decide⟩
  address := soleAddress
  sign := some
  signBytes := fun _ => some [7]
  parseId := 1
  voteTime := fun _ => 0
  skipTimeoutCommit := false
  waitForTxs := false
  createEmptyBlocksInterval := false

def soleNode : Node (electorate plainChain (lit "A") [soleValidator]) Block where
  height := 1
  round := 0
  step := .propose
  proposal := none
  proposalBlock := some changedBlock
  proposalBlockParts := some ⟨⟨1, List.replicate tmhashSize 5⟩, true⟩
  lockedRound := -1
  lockedBlock := none
  lockedBlockParts := none
  lockedIsProposal := false
  lockedPartsAreProposal := false
  validRound := -1
  votes := (HeightVoteSet.new 1).get rfl
  commitRound := -1
  lastCommit := none
  triggeredTimeoutPrecommit := false
  storeHeight := 0
  timeouts := []
  signed := []
  saved := []
  halted := false

/-- A changed root passes, and the validator signs it. -/
theorem changed_root_signed :
    validateBlock plainChain genesisState changedBlock = some none ∧
      ¬ CrossRootMatches plainChain.shard changedBlock ∧
      soleNode.PrevotesWithShare (soleConfig.onBlocks plainChain genesisState) changedBlock
        (List.replicate 32 9) := by
  have hvalid : validateBlock plainChain genesisState changedBlock = some none := by decide +kernel
  have hready : soleNode.Ready (soleConfig.onBlocks plainChain genesisState) changedBlock :=
    { index := rfl
      unlocked := rfl
      proposalBlock := rfl
      hash := by decide +kernel
      verified := rfl
      fresh := by simp [soleNode]
      sign := fun _ => rfl
      signBytes := fun _ => rfl }
  refine ⟨hvalid, ?_, hready.prevotesWithShare (decide_eq_true hvalid)⟩
  rintro ⟨mts, hmts, hroot⟩
  have heval : ((generateMerkleTreebySingle plainChain.shard changedBlock.txs).all fun mts =>
      mts.rootTree.computeRootHash.bytes ≠ replicate 32 9) = true := by decide +kernel
  rw [hmts] at heval
  exact of_decide_eq_true heval hroot.symm

end ShardingBC.Consensus
