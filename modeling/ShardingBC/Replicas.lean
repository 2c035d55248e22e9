import ShardingBC.Durability
import ShardingBC.Routing

/-!
# Replicas of a shard

Every node makes the outgoing messages of a committed block itself. The time stamp and the
identifier derived from it, the index of the node, the packages of the relation table and the order
in which a map is traversed are its own. Two nodes with one history hold the same messages just when
they agree on these at every commit that makes a message pending.
-/
namespace ShardingBC

open List Option

/-! ## Histories -/

/-- What a node adds of its own to the messages of a block. -/
structure CommitLocal where
  index : Bytes
  sig : Option Bytes
  packs : Option (List Package)
  order : List (Bytes × Int64)

/-- The events of a node that change what is pending. -/
inductive Label where
  | ack (cm : CrossMessages)
  | commit (b : Proposal) (height : Int64) (loc : CommitLocal)

/-- The message of a bucket before its identifier is set. -/
def bucketContent (env : Env) (mts : TxMerkleTree) (buckets : Buckets) (height : Int64)
    (index sig : Bytes) (e : Bytes × Int64) : CrossMessages :=
  newCrossMessage index (Buckets.get buckets e.1) sig env.shardPubkey
    mts.rootTree.computeRootHash.bytes
    (((mts.find e.1).bind fun mt => getPathByValue mts.rootTree mt.computeRootHash.bytes).getD [])
    env.shard ((split e.1 95).getD 1 []) height e.2

/-- The message of a bucket as `ClassifyTxFromBlock` makes it. -/
def bucketCm (env : Env) (mts : TxMerkleTree) (buckets : Buckets) (height : Int64)
    (index sig : Bytes) (e : Bytes × Int64) : CrossMessages :=
  { bucketContent env mts buckets height index sig e with
    id := cmKey (bucketContent env mts buckets height index sig e) }

/-- The message of a bucket as it becomes pending. -/
def pendingMessage (env : Env) (mts : TxMerkleTree) (buckets : Buckets) (height : Int64)
    (loc : CommitLocal) (sig : Bytes) (e : Bytes × Int64) : CrossMessages :=
  ({ bucketCm env mts buckets height loc.index sig e with
    packages := loc.packs } : CrossMessages).compress env.gzip

/-- The buckets that become pending messages, with the time of their turn. -/
def CommitLocal.entries (env : Env) (b : Proposal) (loc : CommitLocal) : List (Bytes × Int64) :=
  if loc.sig = none then []
  else (loc.order.filter fun e => e.1 != env.shard && e.1 != []).filter fun e =>
    judgeCrossMessage (Buckets.get (classifyTxbySingle env.shard b.txs) e.1) == some false

/-- The messages that a commit makes pending. -/
def pendingMessages (env : Env) (b : Proposal) (height : Int64) (loc : CommitLocal) :
    List CrossMessages :=
  match generateMerkleTreebySingle env.shard b.txs, loc.sig with
  | some mts, some sig => (loc.entries env b).map
      (pendingMessage env mts (classifyTxbySingle env.shard b.txs) height loc sig)
  | _, _ => []

/-- What the comparison of an acknowledgement reads of a message. -/
def CrossMessages.key (cm : CrossMessages) : Int64 × Bytes :=
  (cm.height, cm.crossMerkleRoot.getD [])

def Label.apply (env : Env) (pending : List CrossMessages) : Label → List CrossMessages
  | .ack cm => eraseFirsts CrossMessages.key ((cm.packages.getD []).map Package.key) pending
  | .commit b height loc => pending ++ pendingMessages env b height loc

/-- What a node reads for a commit from its votes, its table and its clock. -/
def localOf (env : Env) (s : Sender) (b : Proposal) (inp : CommitInput) : CommitLocal where
  index := env.index
  sig := (generateMerkleTreebySingle env.shard b.txs).bind fun mts =>
    inp.recovered.or (env.tmpGetSign mts.rootTree.computeRootHash.bytes)
  packs := parsePackages (marshalPackages (searchRelationTable s.mem.rlDB s.height))
  order := inp.order

/-- The runs of a node, with what concerns the pending messages. It crashes only when nothing is
pending. -/
inductive Trace (env : Env) (s₀ : Sender) : List Label → Sender → Prop where
  | start : Trace env s₀ [] s₀
  | quiet {hist : List Label} {s s' : Sender} {e : SenderEvent} (h : Trace env s₀ hist s)
      (hstep : s.step env e = some s') (hcmDB : s'.mem.cmDB = s.mem.cmDB)
      (hblocks : s'.blocks = s.blocks) : Trace env s₀ hist s'
  | ack {hist : List Label} {s s' : Sender} {e : SenderEvent} {cm : CrossMessages}
      (h : Trace env s₀ hist s) (hstep : s.step env e = some s')
      (hcm : ∃ more, s'.received = s.received ++ more ∧ cm ∈ more)
      (hcmDB : s'.mem.cmDB = removeCrossMessagesDB cm s.mem.cmDB)
      (hblocks : s'.blocks = s.blocks) : Trace env s₀ (hist ++ [.ack cm]) s'
  | commit {hist : List Label} {s s' : Sender} {b : Proposal} {inp : CommitInput}
      (h : Trace env s₀ hist s) (hstep : s.step env (.commit b inp) = some s') :
      Trace env s₀ (hist ++ [.commit b s.height (localOf env s b inp)]) s'

/-! ## What a commit makes pending -/

section Commit

variable {env : Env} {mts : TxMerkleTree} {height : Int64}

lemma bucketMessage_eq {buckets : Buckets} {index sig : Bytes} {e : Bytes × Int64}
    {o : Option CrossMessages}
    (h : bucketMessage env.shard index mts buckets sig env.shardPubkey height e.2 e.1 = some o) :
    o = some (bucketCm env mts buckets height index sig e) := by
  have hcm := bucketMessage_spec h
  obtain ⟨mt, hmt, h⟩ := bind_eq_some_iff.mp h
  obtain ⟨path, hpath, h⟩ := bind_eq_some_iff.mp h
  split_ifs at h
  · cases h
    exact absurd hcm (by simp)
  · rw [← some.inj h, bucketCm, bucketContent, hmt, bind_some, hpath, getD_some]

lemma classifyTxFromBlock_eq {txs : List Bytes} {index sig : Bytes}
    {order : List (Bytes × Int64)} {cms : List CrossMessages} (htxs : txs ≠ [])
    (h : classifyTxFromBlock env.shard index mts txs sig env.shardPubkey height order = some cms) :
    cms = (order.filter fun e => e.1 != env.shard && e.1 != []).map
      (bucketCm env mts (classifyTxbySingle env.shard txs) height index sig) := by
  have hall := forall₂_map_left_iff.mpr ((classifyTxFromBlock_forall₂ htxs h).imp
    fun e cm ho => (some.inj (bucketMessage_eq ho)).symm)
  rw [forall₂_eq_eq_eq] at hall
  exact hall.symm

lemma tryAddAggragate2Block_cmDB {s : Sender} {b : Proposal} {inp : CommitInput} {m' : Mempool}
    {ok : Bool} (horder : Traverses inp.order (classifyTxbySingle env.shard b.txs))
    (h : tryAddAggragate2Block env s.mem b s.height inp = some (m', ok)) :
    getAllCrossMessages m'.cmDB = getAllCrossMessages s.mem.cmDB ++
      pendingMessages env b s.height (localOf env s b inp) := by
  simp only [tryAddAggragate2Block] at h
  by_cases htxs : b.txs = []
  · have hnil : pendingMessages env b s.height (localOf env s b inp) = [] := by
      have hord : inp.order = [] := by
        rw [htxs] at horder
        exact map_eq_nil_iff.mp horder.eq_nil
      unfold pendingMessages
      split
      · simp [CommitLocal.entries, localOf, hord]
      · rfl
    rw [if_pos htxs] at h
    rw [hnil, append_nil]
    cases h
    split_ifs <;> rfl
  · rw [if_neg htxs] at h
    obtain ⟨m1, hscan, h⟩ := bind_eq_some_iff.mp h
    obtain ⟨x, y, rfl⟩ := foldlM_scanTx hscan
    obtain ⟨mts, hmts⟩ :=
      isSome_iff_exists.mp (generateMerkleTreebySingle_isSome env.shard b.txs)
    have hsig : (localOf env s b inp).sig =
        inp.recovered.or (env.tmpGetSign mts.rootTree.computeRootHash.bytes) := by
      rw [localOf, hmts, bind_some]
    rw [pendingMessages, hmts, hsig]
    simp only [hmts] at h
    split at h
    · rename_i hnone
      cases h
      simp [hnone]
    · rename_i sig hsome
      obtain ⟨cms, hcms, h⟩ := bind_eq_some_iff.mp h
      obtain ⟨cmDB, hstore, h⟩ := bind_eq_some_iff.mp h
      cases h
      rw [hsome] at hsig ⊢
      rw [foldlM_storeMessage hstore, classifyTxFromBlock_eq htxs hcms]
      simp only [getAllCrossMessages, map_append, List.map_map, List.filter_map,
        CommitLocal.entries, hsig]
      rfl

end Commit

/-! ## The history decides what is pending -/

lemma Sender.step_commit_eq {env : Env} {s s' : Sender} {b : Proposal} {inp : CommitInput}
    (h : s.step env (.commit b inp) = some s') :
    Traverses inp.order (classifyTxbySingle env.shard b.txs) ∧
    getAllCrossMessages s'.mem.cmDB = getAllCrossMessages s.mem.cmDB ++
      pendingMessages env b s.height (localOf env s b inp) := by
  simp only [Sender.step] at h
  split_ifs at h with horder
  obtain ⟨⟨m1, ok⟩, htry, h⟩ := bind_eq_some_iff.mp h
  obtain ⟨⟨⟨m2, db2⟩, left⟩, happly, rfl⟩ := map_eq_some_iff.mp h
  refine ⟨horder, ?_⟩
  exact (applyBlock_pending happly).trans (tryAddAggragate2Block_cmDB horder htry)

/-- The traversal and the packages of a commit are as the code makes them. -/
def Label.Valid (env : Env) : Label → Prop
  | .ack _ => True
  | .commit b _ loc => Traverses loc.order (classifyTxbySingle env.shard b.txs) ∧
      loc.packs.map (List.map Package.repair) = loc.packs

@[simp] lemma Package.repair_repair (p : Package) : p.repair.repair = p.repair := by
  simp only [Package.repair, Package.mk.injEq, true_and, and_true]
  exact ⟨validUtf8_toValid _, validUtf8_toValid _, validUtf8_toValid _⟩

section Trace

variable {env : Env} {s₀ s : Sender} {hist : List Label}

lemma Trace.pending (h : Trace env s₀ hist s) :
    getAllCrossMessages s.mem.cmDB =
      hist.foldl (Label.apply env) (getAllCrossMessages s₀.mem.cmDB) := by
  induction h with
  | start => rfl
  | quiet _ _ hcmDB _ ih => rw [hcmDB, ih]
  | ack _ _ _ hcmDB _ ih =>
    rw [foldl_append, ← ih, hcmDB, removeCrossMessagesDB_eq_eraseFirsts]
    exact map_eraseFirsts CrossMessages.key CrossMessage.content _ _
  | commit _ hstep ih =>
    rw [foldl_append, ← ih, (Sender.step_commit_eq hstep).2]
    rfl

lemma Trace.valid (h : Trace env s₀ hist s) : ∀ l ∈ hist, l.Valid env := by
  induction h with
  | start => simp
  | quiet _ _ _ _ ih => exact ih
  | ack _ _ _ _ _ ih =>
    intro l hl
    rcases mem_append.mp hl with hl | hl
    · exact ih l hl
    · rw [mem_singleton.mp hl]
      trivial
  | commit _ hstep ih =>
    intro l hl
    rcases mem_append.mp hl with hl | hl
    · exact ih l hl
    · rw [mem_singleton.mp hl]
      refine ⟨(Sender.step_commit_eq hstep).1, ?_⟩
      simp only [localOf, parsePackages_marshal]
      split_ifs
      · rfl
      · simp

/-- A node was in some state at every point of its history. -/
lemma Trace.take (h : Trace env s₀ hist s) (n : ℕ) : ∃ t, Trace env s₀ (hist.take n) t := by
  induction h with
  | start => exact ⟨s₀, by simpa using Trace.start⟩
  | quiet _ _ _ _ ih => exact ih
  | @ack hist s s' e cm h hstep hcm hcmDB hblocks ih =>
    by_cases hn : n ≤ hist.length
    · rw [take_append_of_le_length hn]
      exact ih
    · rw [take_of_length_le (by simp; omega)]
      exact ⟨s', .ack h hstep hcm hcmDB hblocks⟩
  | @commit hist s s' b inp h hstep ih =>
    by_cases hn : n ≤ hist.length
    · rw [take_append_of_le_length hn]
      exact ih
    · rw [take_of_length_le (by simp; omega)]
      exact ⟨s', .commit h hstep⟩

/-- Every step but a crash extends the history. -/
lemma Trace.exists_step (h : Trace env s₀ hist s) {e : SenderEvent} {s' : Sender}
    (hstep : s.step env e = some s') (he : ∀ stored db size, e ≠ .crash stored db size) :
    ∃ more, Trace env s₀ (hist ++ more) s' := by
  cases e with
  | checkTx tx res =>
    have hs' := some.inj hstep
    rcases checkTx_cmDB env s.db s.mem tx res with hsame | ⟨cm, hcm, -, hrem⟩
    · refine ⟨[], ?_⟩
      rw [append_nil]
      exact .quiet h hstep (by rw [← hs']; exact hsame) (by rw [← hs'])
    · refine ⟨[.ack cm], .ack h hstep ⟨_, by rw [← hs'], by simp [hcm]⟩ (by rw [← hs']; exact hrem)
        (by rw [← hs'])⟩
  | receive peer msgBytes res =>
    have hs' := some.inj hstep
    rcases receive_cmDB env s.db s.mem peer msgBytes res with hsame | ⟨tx, cm, hd, hcm, -, hrem⟩
    · refine ⟨[], ?_⟩
      rw [append_nil]
      exact .quiet h hstep (by rw [← hs']; exact hsame) (by rw [← hs'])
    · refine ⟨[.ack cm], .ack h hstep ⟨_, by rw [← hs'], by simp [hd, hcm]⟩
        (by rw [← hs']; exact hrem) (by rw [← hs'])⟩
  | propose maxBytes maxGas =>
    refine ⟨[], ?_⟩
    rw [append_nil]
    have hs := hstep
    obtain ⟨⟨b, m⟩, hcreate, rfl⟩ := map_eq_some_iff.mp hstep
    obtain ⟨⟨txs, m1⟩, hreap, he⟩ := map_eq_some_iff.mp hcreate
    obtain ⟨r, -, he'⟩ := map_eq_some_iff.mp hreap
    cases he
    cases he'
    exact .quiet h hs rfl rfl
  | prevote b =>
    refine ⟨[], ?_⟩
    rw [append_nil]
    have hs' := some.inj hstep
    exact .quiet h hstep (by rw [← hs', judgeBlockPakcages_eq]) (by rw [← hs'])
  | commit b inp => exact ⟨_, .commit h hstep⟩
  | crash stored db size => exact absurd rfl (he stored db size)

/-- In every run without a crash, acknowledgements and commits alone decide what is pending. -/
theorem exists_trace_of_run {events : List SenderEvent}
    (hrun : Runs.run (Sender.step env) s₀ events = some s)
    (hcrash : Runs.Guarded (Sender.step env)
      (fun _ e => ∀ stored db size, e ≠ .crash stored db size) s₀ events) :
    ∃ hist, Trace env s₀ hist s ∧ getAllCrossMessages s.mem.cmDB =
      hist.foldl (Label.apply env) (getAllCrossMessages s₀.mem.cmDB) := by
  have hstep : ∀ t e t', (∃ hist, Trace env s₀ hist t) →
      (∀ stored db size, e ≠ .crash stored db size) → t.step env e = some t' →
      ∃ hist, Trace env s₀ hist t' := by
    rintro t e t' ⟨hist, h⟩ he ht'
    obtain ⟨more, h'⟩ := h.exists_step ht' he
    exact ⟨_, h'⟩
  obtain ⟨hist, h⟩ := hcrash.invariant hstep hrun ⟨[], .start⟩
  exact ⟨hist, h, h.pending⟩

end Trace

/-! ## Serialized messages -/

lemma data_srcIndex_iff (m : CrossMessages) (i j : Bytes) :
    ({ m with srcIndex := i } : CrossMessages).data = ({ m with srcIndex := j } : CrossMessages).data ↔
      Json.quote i = Json.quote j := by
  simp only [CrossMessages.data, CrossMessages.toJson, Json.print, Json.printMembers,
    cons.injEq, true_and, append_cancel_left_eq, append_cancel_right_eq]

lemma repair_eq_of_data_eq {m m' : CrossMessages} (h : m.data = m'.data) :
    m.repair = m'.repair := by
  have hdec : ∀ x : CrossMessages,
      Json.unmarshal (Json.decodeStruct CrossMessages.fields) CrossMessages.zero x.data =
        (x.repair, true) := by
    intro x
    rw [CrossMessages.data, Json.unmarshal_print _ _ _ x.numsOk_toJson,
      CrossMessages.decode_toJson]
  have := hdec m
  rw [h, hdec m'] at this
  exact (Prod.mk.inj this).1.symm

lemma compressed_txlist_inj {z : Gzip} {l l' : List Bytes}
    (h : z.compress (Json.print (Json.encodeSlice encodeTx (some l))) =
      z.compress (Json.print (Json.encodeSlice encodeTx (some l')))) : l = l' := by
  have hprint : Json.print (Json.encodeSlice encodeTx (some l)) =
      Json.print (Json.encodeSlice encodeTx (some l')) := by
    have := congrArg z.decompress h
    rwa [z.decompress_compress, z.decompress_compress, some.injEq] at this
  have hdec : ∀ l : List Bytes, Json.unmarshal decodeTxlist none
      (Json.print (Json.encodeSlice encodeTx (some l))) = (some l, true) := by
    intro l
    rw [Json.unmarshal_print _ _ _ (Json.numsOk_encodeSlice encodeTx numsOk_encodeTx (some l)),
      decodeTxlist_encode]
  have := hdec l
  rw [hprint, hdec l'] at this
  exact (some.inj (Prod.mk.inj this).1).symm

/-- The own part of the node is the same in two commits. -/
def CommitLocal.Same (l l' : CommitLocal) : Prop :=
  Json.quote l.index = Json.quote l'.index ∧ l.sig = l'.sig ∧ l.packs = l'.packs

section Entry

variable {env env' : Env} {txs : List Bytes} {mts : TxMerkleTree} {height : Int64}

lemma pendingMessage_eq (loc : CommitLocal) (sig : Bytes) (e : Bytes × Int64) {loc' : CommitLocal}
    (hid : cmKey (bucketContent env mts (classifyTxbySingle env.shard txs) height loc.index sig e) =
      cmKey (bucketContent env mts (classifyTxbySingle env.shard txs) height loc'.index sig e))
    (hpacks : loc.packs = loc'.packs) :
    pendingMessage env mts (classifyTxbySingle env.shard txs) height loc sig e =
      { pendingMessage env mts (classifyTxbySingle env.shard txs) height loc' sig e with
        srcIndex := loc.index } := by
  unfold pendingMessage bucketCm
  rw [hid, hpacks]
  rfl

/-- Two pending messages of a block are serialized alike just when they are of one bucket,
made at one time, and the nodes agree on their own part. -/
lemma pendingMessage_data_iff {loc loc' : CommitLocal} {sig sig' : Bytes}
    {e e' : Bytes × Int64} (hs : loc.sig = some sig) (hs' : loc'.sig = some sig')
    (hp : loc.packs.map (List.map Package.repair) = loc.packs)
    (hp' : loc'.packs.map (List.map Package.repair) = loc'.packs)
    (hk : e.1 ∈ AssocMap.keys (classifyTxbySingle env.shard txs)) (hks : e.1 ≠ env.shard)
    (hks' : e'.1 ≠ env.shard) (hne' : e'.1 ≠ []) :
    (pendingMessage env mts (classifyTxbySingle env.shard txs) height loc sig e).data =
      (pendingMessage env mts (classifyTxbySingle env.shard txs) height loc' sig' e').data ↔
    e = e' ∧ loc.Same loc' := by
  constructor
  · intro h
    have hrep := repair_eq_of_data_eq h
    have htime : e.2 = e'.2 := congrArg CrossMessages.timestamp hrep
    have hsig : some sig = some sig' := congrArg CrossMessages.sig hrep
    have hpacks : loc.packs = loc'.packs := by
      rw [← hp, ← hp']
      exact congrArg CrossMessages.packages hrep
    have hlist : Buckets.get (classifyTxbySingle env.shard txs) e.1 =
        Buckets.get (classifyTxbySingle env.shard txs) e'.1 :=
      compressed_txlist_inj (some.inj (congrArg CrossMessages.compressedData hrep))
    obtain rfl : e = e' :=
      Prod.ext (key_eq_of_get_eq hk hks (ne_nil_of_mem_keys hk) hks' hne' hlist) htime
    cases hsig
    have hid := congrArg CrossMessages.id hrep
    rw [pendingMessage_eq loc sig e hid hpacks] at h
    exact ⟨rfl, (data_srcIndex_iff _ _ _).mp h, hs.trans hs'.symm, hpacks⟩
  · rintro ⟨rfl, hindex, hsig, hpacks⟩
    obtain rfl : sig = sig' := by
      rw [hs, hs'] at hsig
      exact some.inj hsig
    have hid : cmKey (bucketContent env mts (classifyTxbySingle env.shard txs) height loc.index sig e) =
        cmKey (bucketContent env mts (classifyTxbySingle env.shard txs) height loc'.index sig e) :=
      congrArg sha256 ((data_srcIndex_iff
        (bucketContent env mts (classifyTxbySingle env.shard txs) height [] sig e) _ _).mpr hindex)
    rw [pendingMessage_eq loc sig e hid hpacks]
    exact (data_srcIndex_iff _ _ _).mpr hindex

end Entry

lemma map_eq_map_iff_of_forall {α β : Type} {f g : α → β} {S : Prop} {l r : List α}
    (h : ∀ a ∈ l, ∀ b ∈ r, f a = g b ↔ a = b ∧ S) :
    l.map f = r.map g ↔ l = r ∧ (l ≠ [] → S) := by
  induction l generalizing r with
  | nil =>
    constructor
    · intro he
      exact ⟨(map_eq_nil_iff.mp he.symm).symm, fun hne => absurd rfl hne⟩
    · rintro ⟨rfl, -⟩
      rfl
  | cons a l ih =>
    cases r with
    | nil => simp
    | cons b r =>
      have hab := h a (by simp) b (by simp)
      have hrest := @ih r fun x hx y hy => h x (by simp [hx]) y (by simp [hy])
      rw [map_cons, map_cons, cons.injEq, hab, hrest, cons.injEq]
      constructor
      · rintro ⟨⟨rfl, hS⟩, rfl, -⟩
        exact ⟨⟨rfl, rfl⟩, fun _ => hS⟩
      · rintro ⟨⟨rfl, rfl⟩, hS⟩
        have hS := hS (by simp)
        exact ⟨⟨rfl, hS⟩, rfl, fun _ => hS⟩

/-! ## Two nodes -/

/-- What all nodes of a shard are configured with. -/
structure SameShard (env env' : Env) : Prop where
  shard : env.shard = env'.shard
  gzip : env.gzip = env'.gzip
  shardPubkey : env.shardPubkey = env'.shardPubkey

/-- The two events are the same but for the nodes' own part. -/
def Label.Shared : Label → Label → Prop
  | .ack cm, .ack cm' => cm = cm'
  | .commit b height _, .commit b' height' _ => b = b' ∧ height = height'
  | _, _ => False

/-- The nodes make the same buckets pending in the same order at the same time and, if
there are any, agree on the index, the signature and the packages. -/
def Label.Agree (env : Env) : Label → Label → Prop
  | .commit b _ loc, .commit _ _ loc' =>
    loc.entries env b = loc'.entries env b ∧ (loc.entries env b ≠ [] → loc.Same loc')
  | _, _ => True

lemma mem_entries {env : Env} {b : Proposal} {loc : CommitLocal} {e : Bytes × Int64}
    (horder : Traverses loc.order (classifyTxbySingle env.shard b.txs)) (h : e ∈ loc.entries env b) :
    e.1 ∈ AssocMap.keys (classifyTxbySingle env.shard b.txs) ∧ e.1 ≠ env.shard ∧ e.1 ≠ [] := by
  unfold CommitLocal.entries at h
  split_ifs at h
  · exact absurd h (by simp)
  · obtain ⟨h, -⟩ := mem_filter.mp h
    obtain ⟨h, hforeign⟩ := mem_filter.mp h
    simp only [Bool.and_eq_true, bne_iff_ne] at hforeign
    exact ⟨horder.subset (mem_map_of_mem h), hforeign.1, hforeign.2⟩

lemma pendingMessages_eq {env : Env} {b : Proposal} {height : Int64} {loc : CommitLocal}
    {mts : TxMerkleTree} (hmts : generateMerkleTreebySingle env.shard b.txs = some mts) :
    pendingMessages env b height loc = (loc.entries env b).map
      (pendingMessage env mts (classifyTxbySingle env.shard b.txs) height loc (loc.sig.getD [])) := by
  rw [pendingMessages, hmts]
  cases hsig : loc.sig with
  | none => simp [CommitLocal.entries, hsig]
  | some sig => rfl

lemma pendingMessages_data_iff {env : Env} {b : Proposal} {height : Int64}
    {loc loc' : CommitLocal} (hv : (Label.commit b height loc).Valid env)
    (hv' : (Label.commit b height loc').Valid env) :
    (pendingMessages env b height loc).map CrossMessages.data =
      (pendingMessages env b height loc').map CrossMessages.data ↔
    Label.Agree env (.commit b height loc) (.commit b height loc') := by
  obtain ⟨mts, hmts⟩ :=
    isSome_iff_exists.mp (generateMerkleTreebySingle_isSome env.shard b.txs)
  have hsig : ∀ {loc : CommitLocal} {e}, e ∈ loc.entries env b →
      loc.sig = some (loc.sig.getD []) := by
    intro loc e he
    cases hs : loc.sig with
    | none => simp [CommitLocal.entries, hs] at he
    | some sig => rfl
  rw [pendingMessages_eq hmts, pendingMessages_eq hmts, List.map_map, List.map_map]
  apply map_eq_map_iff_of_forall
  intro e he e' he'
  obtain ⟨hk, hks, -⟩ := mem_entries hv.1 he
  obtain ⟨-, hks', hne'⟩ := mem_entries hv'.1 he'
  exact pendingMessage_data_iff (hsig he) (hsig he') hv.2 hv'.2 hk hks hks' hne'

/-- What an acknowledgement compares of a serialized message. -/
def dataKey (d : Bytes) : Int64 × Bytes :=
  (Json.unmarshal (Json.decodeStruct CrossMessages.fields) CrossMessages.zero d).1.key

@[simp] lemma dataKey_data (m : CrossMessages) : dataKey m.data = m.key := by
  rw [dataKey, CrossMessages.data, Json.unmarshal_print _ _ _ m.numsOk_toJson,
    CrossMessages.decode_toJson]
  rfl

lemma pendingMessages_congr {env env' : Env} (hsame : SameShard env env') (b : Proposal)
    (height : Int64) (loc : CommitLocal) :
    pendingMessages env' b height loc = pendingMessages env b height loc := by
  have hmsg : pendingMessage env' = pendingMessage env := by
    funext mts buckets height loc sig e
    simp only [pendingMessage, bucketCm, bucketContent, hsame.shard, hsame.gzip, hsame.shardPubkey]
  simp only [pendingMessages, CommitLocal.entries, hmsg, hsame.shard]

/-- An acknowledgement keeps equal lists equal, and a commit just when the nodes agree. -/
lemma apply_data_iff {env env' : Env} (hsame : SameShard env env') {l l' : Label}
    (hshared : l.Shared l') (hv : l.Valid env) (hv' : l'.Valid env') {p p' : List CrossMessages}
    (hp : p.map CrossMessages.data = p'.map CrossMessages.data) :
    (l.apply env p).map CrossMessages.data = (l'.apply env' p').map CrossMessages.data ↔
      l.Agree env l' := by
  match l, l', hshared with
  | .ack cm, .ack _, rfl =>
    have hkey : CrossMessages.key = dataKey ∘ CrossMessages.data := by
      funext m
      exact (dataKey_data m).symm
    simp only [Label.apply, Label.Agree, hkey, map_eraseFirsts, hp]
  | .commit b height loc, .commit _ _ loc', ⟨rfl, rfl⟩ =>
    have hv' : (Label.commit b height loc').Valid env := by
      simpa only [Label.Valid, hsame.shard] using hv'
    rw [← pendingMessages_data_iff hv hv', Label.apply, Label.apply, map_append,
      map_append, hp, pendingMessages_congr hsame, append_cancel_left_eq]

/-- Two nodes with one history hold equal lists at every point just when they agree at every
commit. -/
lemma foldl_data_iff {env env' : Env} (hsame : SameShard env env') {hist hist' : List Label}
    (hshared : List.Forall₂ Label.Shared hist hist') (hv : ∀ l ∈ hist, l.Valid env)
    (hv' : ∀ l ∈ hist', l.Valid env') {p q : List CrossMessages}
    (hp : p.map CrossMessages.data = q.map CrossMessages.data) :
    (∀ n, ((hist.take n).foldl (Label.apply env) p).map CrossMessages.data =
      ((hist'.take n).foldl (Label.apply env') q).map CrossMessages.data) ↔
    List.Forall₂ (Label.Agree env) hist hist' := by
  induction hshared generalizing p q with
  | nil => simpa using hp
  | @cons l l' hist hist' hl _ ih =>
    have hstep := apply_data_iff hsame hl (hv l (by simp)) (hv' l' (by simp)) hp
    have hrest := @ih (fun x hx => hv x (by simp [hx])) (fun x hx => hv' x (by simp [hx]))
    rw [forall₂_cons]
    constructor
    · intro h
      have hagree := hstep.mp (by simpa using h 1)
      exact ⟨hagree, (hrest (hstep.mpr hagree)).mp fun n => h (n + 1)⟩
    · rintro ⟨hagree, hall⟩ n
      cases n with
      | zero => exact hp
      | succ n => exact (hrest (hstep.mpr hagree)).mpr hall n

/-! ## Checkpoints -/

def conver2cptx (cpCms : List CrossMessages) (height : Int64) : TX :=
  { txtype := lit "checkpoint", sender := formatInt height, receiver := []
    id := sha256 (cpCms.flatMap CrossMessages.data)
    content := (lit ";;").intercalate (cpCms.map CrossMessages.data), txSignature := [], operate := 0
    height := 0 }

def compareRelaylist (t : TX) (allCms : List CrossMessages) : Bool :=
  sha256 (allCms.flatMap CrossMessages.data) = t.id

/-- `GetAllCrossMessages` as serialized. -/
def Sender.serialized (s : Sender) : List Bytes :=
  (getAllCrossMessages s.mem.cmDB).map CrossMessages.data

/-- The nodes hold the same messages and accept each other's checkpoints. -/
def SamePending (s s' : Sender) : Prop :=
  s.serialized = s'.serialized ∧ ∀ height,
    compareRelaylist (conver2cptx (getAllCrossMessages s.mem.cmDB) height)
      (getAllCrossMessages s'.mem.cmDB) = true

lemma samePending_iff (s s' : Sender) : SamePending s s' ↔ s.serialized = s'.serialized := by
  constructor
  · exact fun h => h.1
  · intro h
    refine ⟨h, fun height => ?_⟩
    exact decide_eq_true (congrArg (fun l => sha256 l.flatten) h.symm)

/-- Two nodes of a shard with the same blocks and acknowledgements hold the same pending
messages throughout, and accept each other's checkpoints, just when at every commit they
agree on what they add of their own. -/
theorem samePending_iff_agree {env env' : Env} (hsame : SameShard env env') {s₀ s₀' s s' : Sender}
    (hs₀ : s₀.mem.cmDB = []) (hs₀' : s₀'.mem.cmDB = []) {hist hist' : List Label}
    (h : Trace env s₀ hist s) (h' : Trace env' s₀' hist' s')
    (hshared : List.Forall₂ Label.Shared hist hist') :
    (∀ n t t', Trace env s₀ (hist.take n) t → Trace env' s₀' (hist'.take n) t' → SamePending t t') ↔
      List.Forall₂ (Label.Agree env) hist hist' := by
  have hnil : ∀ {s₀ : Sender}, s₀.mem.cmDB = [] → getAllCrossMessages s₀.mem.cmDB = [] := by
    intro s₀ hs₀
    rw [hs₀]
    rfl
  rw [← foldl_data_iff (p := []) (q := []) hsame hshared h.valid h'.valid rfl]
  constructor
  · intro hall n
    obtain ⟨t, ht⟩ := h.take n
    obtain ⟨t', ht'⟩ := h'.take n
    have := (hall n t t' ht ht').1
    rwa [Sender.serialized, Sender.serialized, ht.pending, ht'.pending, hnil hs₀, hnil hs₀'] at this
  · intro hall n t t' ht ht'
    rw [samePending_iff, Sender.serialized, Sender.serialized, ht.pending, ht'.pending, hnil hs₀,
      hnil hs₀']
    exact hall n

/-! ## One relay and two clocks -/

/-- The same commit, one tick later. -/
def laterInput : CommitInput := { relayInput with order := [(singleKey relayToB, 10)] }

/-- A node with another mempool. -/
def otherSender : Sender := Sender.start ⟨1, 1000, true⟩ 10 fun _ => none

/-- With one clock two nodes hold the same message. -/
theorem one_clock_samePending :
    ∃ s s', freshSender.step (plainEnv "A") (.commit relayBlock relayInput) = some s ∧
      otherSender.step (plainEnv "A") (.commit relayBlock relayInput) = some s' ∧
      SamePending s s' := by
  have heval : ((freshSender.step (plainEnv "A") (.commit relayBlock relayInput)).isSome &&
      (otherSender.step (plainEnv "A") (.commit relayBlock relayInput)).isSome) = true := by
    decide +kernel
  rw [Bool.and_eq_true] at heval
  obtain ⟨s, hs⟩ := isSome_iff_exists.mp heval.1
  obtain ⟨s', hs'⟩ := isSome_iff_exists.mp heval.2
  have hstart : ∀ s₀, Trace (plainEnv "A") s₀ [] s₀ := fun _ => .start
  have h := (hstart freshSender).commit hs
  have h' := (hstart otherSender).commit hs'
  refine ⟨s, s', hs, hs', (samePending_iff_agree ⟨rfl, rfl, rfl⟩ rfl rfl h h' ?_).mpr ?_ 1 s s' h h'⟩
  · exact .cons ⟨rfl, rfl⟩ .nil
  · exact .cons ⟨rfl, fun _ => ⟨rfl, rfl, rfl⟩⟩ .nil

def relayToA : TX := { relayToB with sender := lit "B", receiver := lit "A" }

/-- The message that shard B makes of a relay to shard A, with the package of the one it has
executed. -/
def reply : CrossMessages :=
  let cms := do
    let mts ← generateMerkleTreebySingle (lit "B") [relayToA.data]
    classifyTxFromBlock (lit "B") (lit "0") mts [relayToA.data] [1] [2] 1 [(singleKey relayToA, 10)]
  { (cms.getD []).getD 0 CrossMessages.zero with
    packages := (acknowledgementOf relayMessage).packages }

/-- A message is pending after the commit and acknowledged by the reply. -/
theorem exists_trace_of_reply :
    (freshSender.step (plainEnv "A") (.commit relayBlock relayInput)).map
        (fun s => s.mem.cmDB.length) = some 1 ∧
      ∃ s, (Runs.run (Sender.step (plainEnv "A")) freshSender
          [.commit relayBlock relayInput, .checkTx reply.data ⟨true, 1⟩] = some s ∧
          s.mem.cmDB.isEmpty) ∧
        ∃ hist, Trace (plainEnv "A") freshSender hist s ∧ getAllCrossMessages s.mem.cmDB =
          hist.foldl (Label.apply (plainEnv "A")) (getAllCrossMessages freshSender.mem.cmDB) := by
  refine ⟨by decide +kernel, (exists_congr fun s => and_iff_left_of_imp fun h => ?_).mpr
    (Runs.exists_of_any (by decide +kernel))⟩
  exact exists_trace_of_run h.1 ⟨by simp, fun _ _ => ⟨by simp, fun _ _ => trivial⟩⟩

/-- One tick apart they do not, and refuse each other's checkpoints. -/
theorem two_clocks_differ :
    ((freshSender.step (plainEnv "A") (.commit relayBlock relayInput)).bind fun s =>
      (freshSender.step (plainEnv "A") (.commit relayBlock laterInput)).map fun s' =>
        (decide (s.serialized = s'.serialized),
          compareRelaylist (conver2cptx (getAllCrossMessages s.mem.cmDB) 1)
            (getAllCrossMessages s'.mem.cmDB))) = some (false, false) := by
  decide +kernel

end ShardingBC
