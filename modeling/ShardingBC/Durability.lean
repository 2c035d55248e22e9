import ShardingBC.Commit
import ShardingBC.Runs

/-!
# Durability of outgoing messages

A commit makes the messages of its block pending, in the mempool only. A crash loses every pending
message, the handshake executes stored blocks without making their messages pending again, and an
acknowledgement can erase a message that it does not name.
-/
namespace ShardingBC
open List Option Runs

/-- Mempool, database and stored blocks of a node, with every message it made pending or that was
delivered to it. -/
structure Sender where
  mem : Mempool
  db : DB
  blocks : List Proposal
  outgoing : List CrossMessages
  received : List CrossMessages

/-- A crash may find one more block stored, and the handshake leaves some database. -/
inductive SenderEvent where
  | checkTx (tx : Bytes) (res : CheckTxResponse)
  | receive (peer : UInt16) (msgBytes : Bytes) (res : CheckTxResponse)
  | propose (maxBytes maxGas : Int64)
  | prevote (b : Proposal)
  | commit (b : Proposal) (inp : CommitInput)
  | crash (stored : Option Proposal) (db : DB) (cacheSize : Int64)

namespace Sender

def height (s : Sender) : Int64 := Int64.ofNat (s.blocks.length + 1)

def step (env : Env) (s : Sender) : SenderEvent → Option Sender
  | .checkTx tx res => some { s with
      mem := (checkTx env s.db s.mem tx res).2
      received := s.received ++ (parseData tx).join.toList }
  | .receive peer msgBytes res => some { s with
      mem := (receive env s.db s.mem peer msgBytes res).2
      received := s.received ++
        ((env.decodeTxMessage msgBytes).bind fun tx => (parseData tx).join).toList }
  | .propose maxBytes maxGas =>
    (createProposalBlock env s.mem maxBytes maxGas s.height).map fun r => { s with mem := r.2 }
  | .prevote b => some { s with mem := judgeBlockPakcages s.mem b s.height }
  | .commit b inp =>
    if Traverses inp.order (classifyTxbySingle env.shard b.txs) then
      (tryAddAggragate2Block env s.mem b s.height inp).bind fun r =>
        (applyBlock env (r.1, s.db) s.height b.txs inp).map fun q =>
          { mem := q.1.1, db := q.1.2, blocks := s.blocks ++ [b], received := s.received
            outgoing := s.outgoing ++ getAllCrossMessages (r.1.cmDB.drop s.mem.cmDB.length) }
    else none
  | .crash stored db cacheSize => some { s with
      mem := newMempool s.mem.config cacheSize (Int64.ofNat (s.blocks ++ stored.toList).length)
      db := db
      blocks := s.blocks ++ stored.toList }

/-- A node that has just been set up. -/
def start (config : MempoolConfig) (cacheSize : Int64) (db : DB) : Sender :=
  ⟨newMempool config cacheSize 0, db, [], [], []⟩

end Sender

/-- A relay out of the shard. -/
def Leaves (env : Env) (t : TX) : Prop :=
  t.txtype = lit "relaytx" ∧ t.sender = env.shard ∧ t.receiver ≠ env.shard

instance (env : Env) (t : TX) : Decidable (Leaves env t) := inferInstanceAs (Decidable (_ ∧ _ ∧ _))

def Carries (env : Env) (cm : CrossMessages) (raw : Bytes) : Prop :=
  ∃ txlist, cm.transactions env.gzip = some txlist ∧ raw ∈ txlist

/-- Every relay that leaves with the block is pending, as `UpdateTx` rewrites it. -/
def AllPending (env : Env) (b : Proposal) (cms : List CrossMessages) : Prop :=
  ∀ raw ∈ b.txs, ∀ t, newTX raw = some t → Leaves env t →
    ∃ cm ∈ cms, Carries env cm (t.updateTx env.shard).data

/-- Every relay of a stored block is pending, or a delivered message acknowledged one with it. -/
def Sender.Durable (env : Env) (s : Sender) : Prop :=
  ∀ b ∈ s.blocks, ∀ raw ∈ b.txs, ∀ t, newTX raw = some t → Leaves env t →
    (∃ cm ∈ getAllCrossMessages s.mem.cmDB, Carries env cm (t.updateTx env.shard).data) ∨
    ∃ cm ∈ s.outgoing, Carries env cm (t.updateTx env.shard).data ∧
      ∃ tcm ∈ s.received, Acknowledged tcm ⟨cm, 0⟩ = true

/-- Acknowledgements erase only what they name, the block gets its signature and the shard is not
named like a bucket, and a crash finds nothing pending and no relay in the block it interrupts. -/
def Sender.Safe (env : Env) (s : Sender) : SenderEvent → Prop
  | .checkTx tx _ => ∀ cm ∈ (parseData tx).join, AcksNamed cm s.mem.cmDB
  | .receive _ msgBytes _ => ∀ tx ∈ env.decodeTxMessage msgBytes, ∀ cm ∈ (parseData tx).join,
      AcksNamed cm s.mem.cmDB
  | .commit _ inp => ¬ lit "des_" <+: env.shard ∧
      (inp.recovered ≠ none ∨ ∀ msg, msg ≠ [] → env.tmpGetSign msg ≠ none)
  | .crash stored _ _ => s.mem.cmDB = [] ∧
      ∀ b ∈ stored, ∀ raw ∈ b.txs, ∀ t ∈ newTX raw, ¬ Leaves env t
  | _ => True

lemma updateTx_of_leaves {env : Env} {t : TX} (h : Leaves env t) :
    t.updateTx env.shard = { t with operate := 1 } := by
  obtain ⟨hty, hs, hr⟩ := h
  simp [TX.updateTx, hty, hs, hr]

lemma judgeCrossMessage_eq_false {txs : List TX} {t : TX} (ht : t ∈ txs)
    (hty : t.txtype = lit "relaytx") : judgeCrossMessage (txs.map TX.data) = some false := by
  have hrelay : t.repair.txtype = lit "relaytx" := by
    have hvalid : toValid (lit "relaytx") = lit "relaytx" := by decide
    rw [TX.repair, hty, hvalid]
  induction txs with
  | nil => simp at ht
  | cons u txs ih =>
    simp only [map_cons, judgeCrossMessage, TX.newTX_data]
    split_ifs with hu
    · rfl
    · rcases mem_cons.mp ht with rfl | ht
      · exact absurd hrelay hu
      · exact ih ht

section Commit

variable {env : Env} {m m' : Mempool} {b : Proposal} {height : Int64} {inp : CommitInput} {ok : Bool}

lemma tryAddAggragate2Block_pending (hname : ¬ lit "des_" <+: env.shard)
    (hsign : inp.recovered ≠ none ∨ ∀ msg, msg ≠ [] → env.tmpGetSign msg ≠ none)
    (horder : Traverses inp.order (classifyTxbySingle env.shard b.txs))
    (h : tryAddAggragate2Block env m b height inp = some (m', ok)) :
    AllPending env b (getAllCrossMessages m'.cmDB) ∧ ∃ more, m'.cmDB = m.cmDB ++ more := by
  simp only [tryAddAggragate2Block] at h
  split_ifs at h with htxs hpacks
  · cases h
    exact ⟨by simp [AllPending, htxs], [], by simp⟩
  · cases h
    exact ⟨by simp [AllPending, htxs], [], by simp⟩
  · obtain ⟨m1, hscan, h⟩ := bind_eq_some_iff.mp h
    obtain ⟨s, r, rfl⟩ := foldlM_scanTx hscan
    split at h
    · rename_i hgen
      have := generateMerkleTreebySingle_isSome env.shard b.txs
      rw [hgen] at this
      exact absurd this (by simp)
    · split at h
      · rename_i hnone
        rw [or_eq_none_iff] at hnone
        rcases hsign with hsign | hsign
        · exact absurd hnone.1 hsign
        · exact absurd hnone.2 (hsign _ (bytes_ne_nil _))
      · obtain ⟨cms, hcms, h⟩ := bind_eq_some_iff.mp h
        obtain ⟨cmDB, hstore, h⟩ := bind_eq_some_iff.mp h
        cases h
        obtain rfl := foldlM_storeMessage hstore
        refine ⟨?_, _, rfl⟩
        intro raw hraw t ht hleaves
        have hup : t.updateTx env.shard ∈ updatedTxs env.shard b.txs := by
          simp only [updatedTxs, mem_filterMap]
          exact ⟨raw, hraw, by simp [ht]⟩
        have hkey : singleKey (t.updateTx env.shard) =
            lit "des_" ++ t.receiver ++ lit "_" ++ t.content := by
          have hty : t.txtype = lit "relaytx" := hleaves.1
          rw [updateTx_of_leaves hleaves, singleKey]
          rw [hty, if_neg (by decide), if_pos rfl]
        obtain ⟨cm, hcm, htl, hcomp⟩ := classifyTxFromBlock_covers hcms horder hup
          (by rw [hkey]; simp [lit])
          (by
            rw [hkey]
            intro he
            exact hname ⟨t.receiver ++ lit "_" ++ t.content, by rw [← he]; simp⟩)
        have hmem : t.updateTx env.shard ∈ (updatedTxs env.shard b.txs).filter
            fun u => singleKey u = singleKey (t.updateTx env.shard) := by
          simp [hup]
        have hjudge : judgeCrossMessage (cm.txlist.getD []) = some false := by
          rw [htl]
          refine judgeCrossMessage_eq_false hmem ?_
          rw [updateTx_of_leaves hleaves]
          exact hleaves.1
        refine ⟨_, mem_map_of_mem (mem_append_right _ (mem_map_of_mem
          (mem_filter.mpr ⟨hcm, by simp [hjudge]⟩))), ?_⟩
        refine ⟨_, CrossMessages.transactions_compress env.gzip _ hcomp, ?_⟩
        rw [htl]
        exact mem_map.mpr ⟨_, hmem, rfl⟩

end Commit

/-- The law, and that commits made all pending messages. -/
structure SenderInv (env : Env) (s : Sender) : Prop where
  durable : s.Durable env
  known : ∀ cm ∈ getAllCrossMessages s.mem.cmDB, cm ∈ s.outgoing

section Steps

variable {env : Env} {s s' : Sender} {m' : Mempool} {b : Proposal} {inp : CommitInput}

lemma SenderInv.deliver {messages : List CrossMessages} (h : SenderInv env s)
    (hcmDB : m'.cmDB = s.mem.cmDB ∨ ∃ tcm ∈ messages, AcksNamed tcm s.mem.cmDB ∧
      m'.cmDB = removeCrossMessagesDB tcm s.mem.cmDB) :
    SenderInv env { s with mem := m', received := s.received ++ messages } where
  durable := by
    intro b hb raw hraw t ht hleaves
    rcases h.durable b hb raw hraw t ht hleaves with ⟨cm, hcm, hcarries⟩ | ⟨cm, hcm, hcarries, tcm, htcm, hack⟩
    · rcases hcmDB with he | ⟨tcm, htcm, hnamed, he⟩
      · exact Or.inl ⟨cm, by rw [he]; exact hcm, hcarries⟩
      · obtain ⟨e, hmem, rfl⟩ := mem_map.mp hcm
        rcases mem_removeCrossMessagesDB_or hnamed hmem with hstay | hack
        · left
          refine ⟨e.content, ?_, hcarries⟩
          rw [he]
          exact mem_map.mpr ⟨e, hstay, rfl⟩
        · exact Or.inr ⟨e.content, h.known _ hcm, hcarries, tcm, by simp [htcm], hack⟩
    · exact Or.inr ⟨cm, hcm, hcarries, tcm, by simp [htcm], hack⟩
  known := by
    intro cm hcm
    rcases hcmDB with he | ⟨tcm, -, -, he⟩
    · rw [he] at hcm
      exact h.known cm hcm
    · rw [he] at hcm
      obtain ⟨e, hmem, rfl⟩ := mem_map.mp hcm
      exact h.known _ (mem_map.mpr ⟨e, (removeCrossMessagesDB_sublist tcm _).subset hmem, rfl⟩)

lemma SenderInv.setMem (h : SenderInv env s) (hcmDB : m'.cmDB = s.mem.cmDB) :
    SenderInv env { s with mem := m' } := by
  have hdeliver : SenderInv env { s with mem := m', received := s.received ++ [] } :=
    h.deliver (Or.inl hcmDB)
  simpa using hdeliver

lemma Sender.step_commit (hsafe : s.Safe env (.commit b inp))
    (hstep : s.step env (.commit b inp) = some s') :
    AllPending env b (getAllCrossMessages s'.mem.cmDB) ∧ s'.blocks = s.blocks ++ [b] ∧
      s'.received = s.received ∧ ∃ more, s'.outgoing = s.outgoing ++ more ∧
        getAllCrossMessages s'.mem.cmDB = getAllCrossMessages s.mem.cmDB ++ more := by
  simp only [Sender.step] at hstep
  split_ifs at hstep with horder
  obtain ⟨⟨m1, ok⟩, htry, hstep⟩ := bind_eq_some_iff.mp hstep
  obtain ⟨⟨⟨m2, db2⟩, left⟩, happly, rfl⟩ := map_eq_some_iff.mp hstep
  obtain ⟨hpending, more, hmore⟩ := tryAddAggragate2Block_pending hsafe.1 hsafe.2 horder htry
  have hsame := applyBlock_pending happly
  refine ⟨by rw [hsame]; exact hpending, rfl, rfl, getAllCrossMessages more, ?_, ?_⟩
  · simp [hmore]
  · rw [hsame, hmore]
    simp [getAllCrossMessages]

lemma SenderInv.commit (h : SenderInv env s) (hsafe : s.Safe env (.commit b inp))
    (hstep : s.step env (.commit b inp) = some s') : SenderInv env s' := by
  obtain ⟨hpending, hblocks, hreceived, more, hout, hcmDB⟩ := Sender.step_commit hsafe hstep
  constructor
  · intro b' hb' raw hraw t ht hleaves
    rw [hblocks] at hb'
    rcases mem_append.mp hb' with hb' | hb'
    · rcases h.durable b' hb' raw hraw t ht hleaves with ⟨cm, hcm, hcarries⟩ | ⟨cm, hcm, hcarries, hack⟩
      · exact Or.inl ⟨cm, by rw [hcmDB]; simp [hcm], hcarries⟩
      · exact Or.inr ⟨cm, by rw [hout]; simp [hcm], hcarries, by rw [hreceived]; exact hack⟩
    · rw [mem_singleton.mp hb'] at hraw
      exact Or.inl (hpending raw hraw t ht hleaves)
  · intro cm hcm
    rw [hcmDB] at hcm
    rw [hout]
    rcases mem_append.mp hcm with hcm | hcm
    · simp [h.known cm hcm]
    · simp [hcm]

lemma SenderInv.crash (h : SenderInv env s) {stored : Option Proposal} {db : DB}
    {cacheSize : Int64} (hsafe : s.Safe env (.crash stored db cacheSize))
    (hstep : s.step env (.crash stored db cacheSize) = some s') : SenderInv env s' := by
  obtain ⟨hnone, hstored⟩ := hsafe
  cases hstep
  constructor
  · intro b hb raw hraw t ht hleaves
    rcases mem_append.mp hb with hb | hb
    · rcases h.durable b hb raw hraw t ht hleaves with ⟨cm, hcm, -⟩ | hacked
      · rw [hnone] at hcm
        simp [getAllCrossMessages] at hcm
      · exact Or.inr hacked
    · exact absurd hleaves (hstored b (by simpa using hb) raw hraw t ht)
  · simp [newMempool, getAllCrossMessages]

lemma SenderInv.step (h : SenderInv env s) {e : SenderEvent} (hsafe : s.Safe env e)
    (hstep : s.step env e = some s') : SenderInv env s' := by
  cases e with
  | checkTx tx res =>
    cases hstep
    refine h.deliver ?_
    rcases checkTx_cmDB env s.db s.mem tx res with he | ⟨cm, hcm, -, he⟩
    · exact Or.inl he
    · exact Or.inr ⟨cm, by simp [hcm], hsafe cm (by simp [hcm]), he⟩
  | receive peer msgBytes res =>
    cases hstep
    refine h.deliver ?_
    rcases receive_cmDB env s.db s.mem peer msgBytes res with he | ⟨tx, cm, hd, hcm, -, he⟩
    · exact Or.inl he
    · exact Or.inr ⟨cm, by simp [hd, hcm], hsafe tx hd cm (by simp [hcm]), he⟩
  | propose maxBytes maxGas =>
    obtain ⟨⟨b, m⟩, hcreate, rfl⟩ := map_eq_some_iff.mp hstep
    obtain ⟨⟨txs, m1⟩, hreap, he⟩ := map_eq_some_iff.mp hcreate
    obtain ⟨r, -, he'⟩ := map_eq_some_iff.mp hreap
    cases he
    cases he'
    exact h.setMem rfl
  | prevote b =>
    cases hstep
    exact h.setMem (by rw [judgeBlockPakcages_eq])
  | commit b inp => exact h.commit hsafe hstep
  | crash stored db cacheSize => exact h.crash hsafe hstep

end Steps

/-- In every run of guarded steps each relay of a stored block is pending or acknowledged; and when
a guarded commit returns, each relay of its block is pending. -/
theorem outgoing_relays_durable (env : Env) (config : MempoolConfig) (cacheSize : Int64) (db : DB)
    (es : List SenderEvent) (s : Sender)
    (hsafe : Guarded (Sender.step env) (Sender.Safe env) (Sender.start config cacheSize db) es)
    (hrun : run (Sender.step env) (Sender.start config cacheSize db) es = some s) :
    s.Durable env ∧ ∀ b inp s', s.Safe env (.commit b inp) → s.step env (.commit b inp) = some s' →
      AllPending env b (getAllCrossMessages s'.mem.cmDB) := by
  have hinv : SenderInv env s := hsafe.invariant (fun s e s' hs he hstep => hs.step he hstep) hrun
    ⟨by simp [Sender.Durable, Sender.start], by simp [Sender.start, newMempool, getAllCrossMessages]⟩
  exact ⟨hinv.durable, fun b inp s' hcommit hstep => (Sender.step_commit hcommit hstep).1⟩

def freshSender : Sender := Sender.start ⟨1000, 1000000, false⟩ 1000 fun _ => none

/-- A block of shard A with one relay to shard B. -/
def relayBlock : Proposal := ⟨[(relayToB.updateTx (lit "A")).data], marshalPackages []⟩

def relayInput : CommitInput := ⟨some [1], [(singleKey relayToB, 9)], none, none⟩

theorem committed_relay_pending :
    Guarded (Sender.step (plainEnv "A")) (Sender.Safe (plainEnv "A")) freshSender
      [.commit relayBlock relayInput] ∧
    ∃ s, run (Sender.step (plainEnv "A")) freshSender [.commit relayBlock relayInput] = some s ∧
      s.mem.cmDB.length = 1 ∧ s.Durable (plainEnv "A") := by
  refine (and_iff_left_of_imp fun hsafe => ?_).mpr
    ⟨⟨by decide, Or.inl (by decide)⟩, fun _ _ => trivial⟩
  have heval : (run (Sender.step (plainEnv "A")) freshSender [.commit relayBlock relayInput]).map
      (fun s => s.mem.cmDB.length) = some 1 := by decide +kernel
  obtain ⟨s, hrun, hlen⟩ := map_eq_some_iff.mp heval
  exact ⟨s, hrun, hlen, (outgoing_relays_durable _ _ _ _ _ _ hsafe hrun).1⟩

/-- The node commits the relay, which makes it pending, and is restarted. -/
theorem crash_loses_pending_relay :
    ∃ s, run (Sender.step (plainEnv "A")) freshSender
      [.commit relayBlock relayInput, .crash none (fun _ => none) 1000] = some s ∧
      ¬ s.Durable (plainEnv "A") := by
  have heval : (run (Sender.step (plainEnv "A")) freshSender
      [.commit relayBlock relayInput, .crash none (fun _ => none) 1000]).map
      (fun s => (s.blocks.map Proposal.txs, s.mem.cmDB, s.received)) =
        some ([relayBlock.txs], [], []) := by decide +kernel
  obtain ⟨s, hrun, he⟩ := map_eq_some_iff.mp heval
  simp only [Prod.mk.injEq] at he
  obtain ⟨hblocks, hcmDB, hreceived⟩ := he
  refine ⟨s, hrun, fun hdurable => ?_⟩
  obtain ⟨b, bs, hs, hb, -⟩ := map_eq_cons_iff.mp hblocks
  have hraw : (relayToB.updateTx (lit "A")).data ∈ b.txs := by
    rw [hb]
    exact mem_singleton.mpr rfl
  rcases hdurable b (by simp [hs]) _ hraw _ (TX.newTX_data _) (by decide) with
    ⟨cm, hcm, -⟩ | ⟨cm, -, -, tcm, htcm, -⟩
  · rw [hcmDB] at hcm
    simp [getAllCrossMessages] at hcm
  · rw [hreceived] at htcm
    simp at htcm

end ShardingBC
