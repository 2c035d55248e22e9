import ShardingBC.Mempool

/-!
# Compressing and decompressing a message

`Compress` and `Decompression` move the transactions of a message between `Txlist` and
`CompressedData`. Only one kind of message breaks the exchange: its data unpacks to a JSON array
with an element that is no byte string, and `json.Unmarshal` has stored the array over `Txlist` when
it reports the error.
-/
namespace ShardingBC

open Json

namespace Json

lemma decodeElems_snd {α : Type} (d : Decoder α) (zero : α)
    (hd : ∀ old v, (d old v).2 = (d zero v).2) (olds : List α) (xs : List Json) :
    (decodeElems d zero olds xs).2 = xs.all fun v => (d zero v).2 := by
  induction xs generalizing olds with
  | nil => rfl
  | cons x xs ih => simp only [decodeElems, List.all_cons, hd _ x, ih]

lemma decodeByte_snd (old : UInt8) (v : Json) : (decodeByte old v).2 = (decodeByte 0 v).2 := by
  cases v with
  | num raw =>
    simp only [decodeByte]
    split_ifs <;> rfl
  | _ => rfl

lemma decodeBytes_snd (old : Option Bytes) (v : Json) :
    (decodeBytes old v).2 = (decodeBytes none v).2 := by
  cases v with
  | str s =>
    simp only [decodeBytes]
    cases Base64.decode s <;> rfl
  | arr xs =>
    have hall := fun olds => decodeElems_snd decodeByte 0 decodeByte_snd olds xs
    exact (hall _).trans (hall _).symm
  | _ => rfl

end Json

/-- JSON that is stored in a `[]byte` without an error. -/
def isByteString (v : Json) : Bool := (decodeTx [] v).2

@[simp] lemma decodeTx_snd (old : Bytes) (v : Json) : (decodeTx old v).2 = isByteString v :=
  (decodeBytes_snd (some old) v).trans (decodeBytes_snd (some []) v).symm

@[simp] lemma decodeTxlist_arr_snd (old : Option (List Bytes)) (xs : List Json) :
    (decodeTxlist old (arr xs)).2 = xs.all isByteString :=
  decodeElems_snd decodeTx [] (fun old v => (decodeTx_snd old v).trans (decodeTx_snd [] v).symm)
    (old.getD []) xs

lemma decodeTxlist_of_rejected (old : Option (List Bytes)) (v : Json)
    (hv : ∀ xs, v ≠ arr xs) (hr : (decodeTxlist old v).2 = false) :
    (decodeTxlist old v).1 = old := by
  cases v with
  | arr xs => exact absurd rfl (hv xs)
  | null => cases hr
  | _ => rfl

namespace CrossMessages

inductive CompressionCall where
  | compress
  | decompression
  deriving DecidableEq, Repr

/-- The message a call leaves. -/
def call (z : Gzip) (m : CrossMessages) : CompressionCall → CrossMessages
  | .compress => m.compress z
  | .decompression => (m.decompression z).2

def calls (z : Gzip) (m : CrossMessages) (cs : List CompressionCall) : CrossMessages :=
  cs.foldl (call z) m

/-- `IsCompressed` says which of `Txlist` and `CompressedData` is in use; the other is nil. -/
def OneCarries (m : CrossMessages) : Prop :=
  if m.isCompressed then m.txlist = none ∧ m.compressedData ≠ none else m.compressedData = none

/-- What the exchange promises of `x`, made of `m` by calls. -/
structure Exchanged (z : Gzip) (m x : CrossMessages) : Prop where
  oneCarries : m.OneCarries → x.OneCarries
  transactions : x.transactions z = m.transactions z
  compress_idem : (x.compress z).compress z = x.compress z
  decompression_idem : (x.decompression z).2.decompression z = x.decompression z
  restores : x.isCompressed = false →
    ((x.compress z).decompression z).1 = true ∧
      ((x.compress z).decompression z).2.txlist = x.txlist
  atomic : (x.decompression z).1 = false → (x.decompression z).2 = x

/-- The data unpacks to a JSON array with an element that is no byte string, and the decoder stores
another list than the one it holds. -/
def Overwrites (z : Gzip) (m : CrossMessages) : Prop :=
  m.isCompressed = true ∧ ∃ bz xs, z.decompress (m.compressedData.getD []) = some bz ∧
    parse bz = some (arr xs) ∧ xs.all isByteString = false ∧
    (decodeTxlist m.txlist (arr xs)).1 ≠ m.txlist

section

variable {z : Gzip} {m x : CrossMessages}

lemma compress_of_compressed (h : m.isCompressed = true) : m.compress z = m := by
  rw [compress, if_pos h]

@[simp] lemma isCompressed_compress (z : Gzip) (m : CrossMessages) :
    (m.compress z).isCompressed = true := by
  rw [compress]
  split_ifs with h
  · exact h
  · rfl

lemma decompression_of_plain (h : m.isCompressed = false) : m.decompression z = (true, m) := by
  rw [decompression, if_pos h]

lemma decompression_cases (h : m.isCompressed = true) :
    (∃ txlist, m.decompression z =
      (true, { m with txlist := txlist, compressedData := none, isCompressed := false })) ∨
    m.decompression z = (false, m) ∨
    ∃ bz xs, z.decompress (m.compressedData.getD []) = some bz ∧ parse bz = some (arr xs) ∧
      xs.all isByteString = false ∧
      m.decompression z = (false, { m with txlist := (decodeTxlist m.txlist (arr xs)).1 }) := by
  rw [decompression, if_neg (by simp [h])]
  cases hz : z.decompress (m.compressedData.getD []) with
  | none => exact Or.inr (Or.inl rfl)
  | some bz =>
    dsimp only
    rw [unmarshal]
    cases hp : parse bz with
    | none => exact Or.inr (Or.inl rfl)
    | some v =>
      by_cases hok : (decodeTxlist m.txlist v).2 = true
      · rw [if_pos hok]
        exact Or.inl ⟨_, rfl⟩
      rw [if_neg hok]
      have hr : (decodeTxlist m.txlist v).2 = false := by simpa using hok
      by_cases hv : ∃ xs, v = arr xs
      · obtain ⟨xs, rfl⟩ := hv
        exact Or.inr (Or.inr ⟨bz, xs, rfl, hp, (decodeTxlist_arr_snd _ xs).symm.trans hr, rfl⟩)
      · rw [decodeTxlist_of_rejected m.txlist v (fun xs hxs => hv ⟨xs, hxs⟩) hr]
        exact Or.inr (Or.inl rfl)

lemma decompression_of_not_overwrites (hm : ¬ m.Overwrites z) :
    ((m.decompression z).1 = true ∧ (m.decompression z).2.isCompressed = false) ∨
      m.decompression z = (false, m) := by
  cases hc : m.isCompressed with
  | false =>
    rw [decompression_of_plain hc]
    exact Or.inl ⟨rfl, hc⟩
  | true =>
    rcases decompression_cases (z := z) hc with ⟨txlist, h⟩ | h | ⟨bz, xs, hz, hp, hall, h⟩
    · rw [h]
      exact Or.inl ⟨rfl, rfl⟩
    · exact Or.inr h
    · have hsame : (decodeTxlist m.txlist (arr xs)).1 = m.txlist := by
        by_contra hne
        exact hm ⟨hc, bz, xs, hz, hp, hall, hne⟩
      rw [hsame] at h
      exact Or.inr h

/-- The message's own compressed list is an array of byte strings. -/
lemma not_overwrites_of_decompresses (h : (m.decompression z).1 = true) :
    ¬ m.Overwrites z := by
  rintro ⟨hc, bz, xs, hz, hp, hall, -⟩
  have hr : (decodeTxlist m.txlist (arr xs)).2 = false := (decodeTxlist_arr_snd _ xs).trans hall
  rw [decompression, if_neg (by simp [hc]), hz] at h
  simp [unmarshal, hp, hr] at h

lemma Overwrites.call (hm : ¬ m.Overwrites z) (c : CompressionCall) :
    ¬ (m.call z c).Overwrites z := by
  cases c with
  | compress =>
    cases hc : m.isCompressed with
    | false =>
      apply not_overwrites_of_decompresses
      rw [CrossMessages.call, decompression_compress z m hc]
    | true => rwa [CrossMessages.call, compress_of_compressed hc]
  | decompression =>
    rcases decompression_of_not_overwrites hm with ⟨-, h⟩ | h
    · exact fun ho => Bool.noConfusion (h.symm.trans ho.1)
    · rwa [CrossMessages.call, h]

lemma OneCarries.call (hm : ¬ m.Overwrites z) (h : m.OneCarries) (c : CompressionCall) :
    (m.call z c).OneCarries := by
  cases hc : m.isCompressed with
  | false =>
    cases c with
    | compress => simp [CrossMessages.call, compress, OneCarries, hc]
    | decompression => rwa [CrossMessages.call, decompression_of_plain hc]
  | true =>
    cases c with
    | compress => rwa [CrossMessages.call, compress_of_compressed hc]
    | decompression =>
      rw [CrossMessages.call]
      rcases decompression_cases (z := z) hc with ⟨txlist, hd⟩ | hd | ⟨bz, xs, -, -, -, hd⟩
      · rw [hd]
        rfl
      · rwa [hd]
      · rcases decompression_of_not_overwrites hm with ⟨h', -⟩ | h'
        · rw [hd] at h'
          cases h'
        · rwa [h']

lemma transactions_call (hm : ¬ m.Overwrites z) (c : CompressionCall) :
    (m.call z c).transactions z = m.transactions z := by
  cases c with
  | compress =>
    cases hc : m.isCompressed with
    | false =>
      rw [CrossMessages.call, transactions_compress z m hc, transactions,
        decompression_of_plain hc, if_pos rfl]
    | true => rw [CrossMessages.call, compress_of_compressed hc]
  | decompression =>
    rw [CrossMessages.call]
    rcases decompression_of_not_overwrites hm with ⟨h, hplain⟩ | h
    · rw [transactions, decompression_of_plain hplain, if_pos rfl, transactions, if_pos h]
    · rw [h]

lemma exchanged_calls (hm : ¬ m.Overwrites z) (cs : List CompressionCall) :
    ¬ (m.calls z cs).Overwrites z ∧ (m.OneCarries → (m.calls z cs).OneCarries) ∧
      (m.calls z cs).transactions z = m.transactions z := by
  induction cs using List.reverseRecOn with
  | nil => exact ⟨hm, fun h => h, rfl⟩
  | append_singleton cs c ih =>
    obtain ⟨hx, hone, htxs⟩ := ih
    have hlast : m.calls z (cs ++ [c]) = (m.calls z cs).call z c := by
      rw [calls, List.foldl_concat]
      rfl
    rw [hlast]
    exact ⟨Overwrites.call hx c, fun h => OneCarries.call hx (hone h) c,
      (transactions_call hx c).trans htxs⟩

end

/-- Every message that calls make of `m` keeps the promises, unless `m` is compressed data over
which a rejected array is stored. -/
theorem exchange_iff (z : Gzip) (m : CrossMessages) :
    (∀ cs : List CompressionCall, Exchanged z m (m.calls z cs)) ↔ ¬ m.Overwrites z := by
  constructor
  · rintro h ⟨hc, bz, xs, hz, hp, hall, hne⟩
    have hatomic : (m.decompression z).1 = false → (m.decompression z).2 = m := (h []).atomic
    have hr : (decodeTxlist m.txlist (arr xs)).2 = false := (decodeTxlist_arr_snd _ xs).trans hall
    have hd : m.decompression z =
        (false, { m with txlist := (decodeTxlist m.txlist (arr xs)).1 }) := by
      rw [decompression, if_neg (by simp [hc]), hz]
      simp [unmarshal, hp, hr]
    rw [hd] at hatomic
    exact hne (congrArg txlist (hatomic rfl))
  · intro hm cs
    obtain ⟨hx, hone, htxs⟩ := exchanged_calls hm cs
    have hdec := decompression_of_not_overwrites hx
    refine ⟨hone, htxs, compress_of_compressed (isCompressed_compress z _), ?_, ?_, ?_⟩
    · rcases hdec with ⟨h, hplain⟩ | h
      · rw [decompression_of_plain hplain, ← h]
      · rw [h]
        exact h
    · intro hc
      rw [decompression_compress z _ hc]
      exact ⟨rfl, rfl⟩
    · intro hfalse
      rcases hdec with ⟨h, -⟩ | h
      · rw [h] at hfalse
        cases hfalse
      · rw [h]

/-- A relay's message whose data became an array that ends in a number. -/
def mixedArray : CrossMessages :=
  { messageToB with
    txlist := none, isCompressed := true
    compressedData := some (storedGzip.compress (lit "[\"AA==\",7000]")) }

/-- The failed call leaves a compressed message with a transaction list. -/
theorem failed_decompression_stores_list :
    mixedArray.OneCarries ∧
      mixedArray.decompression storedGzip =
        (false, { mixedArray with txlist := some [[0], []] }) ∧
      ¬ (mixedArray.calls storedGzip [.decompression]).OneCarries := by
  refine ⟨⟨rfl, by simp [mixedArray]⟩, by decide +kernel, ?_⟩
  rintro ⟨hlist, -⟩
  cases hlist

end CrossMessages

end ShardingBC
