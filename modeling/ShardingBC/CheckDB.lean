import ShardingBC.Account

/-!
# The record of processed messages

Package `checkdb`: a processed message is stored in the state database under the
printed bytes of its identifier.
-/
namespace ShardingBC
open Json

def calcAddTxMetaKey (id : Bytes) : Bytes := lit "ID:" ++ formatBytes id

namespace CheckDB

def save (db : DB) (key : Bytes) (value : CrossMessages) : DB :=
  db.set (calcAddTxMetaKey key) value.data

/-- `checkdb.Search`; `none` is nil, for a missing or malformed record. -/
def search (db : DB) (key : Bytes) : Option CrossMessages :=
  let r := unmarshal (decodeStruct CrossMessages.fields) CrossMessages.zero
    ((db (calcAddTxMetaKey key)).getD [])
  if r.2 then some r.1 else none

end CheckDB

lemma formatBytes_injective : Function.Injective formatBytes := by
  intro a b h
  have hjoin : join (a.map fun c => formatNat c.toNat) 32 =
      join (b.map fun c => formatNat c.toNat) 32 := by
    simpa [formatBytes] using h
  have hsplit : ∀ l : Bytes, l ≠ [] →
      split (join (l.map fun c => formatNat c.toNat) 32) 32 = l.map fun c => formatNat c.toNat := by
    intro l hl
    refine List.splitOn_intercalate 32 ?_ (by simpa using hl)
    intro s hs
    obtain ⟨c, _, rfl⟩ := List.mem_map.mp hs
    exact fun h => absurd (formatNat_isDigit c.toNat 32 h) (by decide)
  have hempty : ∀ l : Bytes, l ≠ [] → join (l.map fun c => formatNat c.toNat) 32 ≠ [] := by
    intro l hl he
    have := hsplit l hl
    rw [he] at this
    cases l with
    | nil => exact hl rfl
    | cons c cs =>
      have hlen := congrArg List.head? this
      simp [split] at hlen
      exact formatNat_ne_nil c.toNat hlen
  have hinj : Function.Injective fun c : UInt8 => formatNat c.toNat :=
    fun c d hcd => UInt8.toNat_inj.mp (formatNat_injective hcd)
  by_cases ha : a = []
  · by_cases hb : b = []
    · rw [ha, hb]
    · subst ha
      exact absurd hjoin.symm (hempty b hb)
  · by_cases hb : b = []
    · subst hb
      exact absurd hjoin (hempty a ha)
    · have := hsplit a ha
      rw [hjoin, hsplit b hb] at this
      exact (List.map_injective_iff.mpr hinj this).symm

namespace CheckDB

@[simp] lemma search_save (db : DB) (key : Bytes) (value : CrossMessages) :
    search (save db key value) key = some value.repair := by
  have hun : unmarshal (decodeStruct CrossMessages.fields) CrossMessages.zero value.data =
      (value.repair, true) := by
    rw [CrossMessages.data, unmarshal_print _ _ _ value.numsOk_toJson, CrossMessages.decode_toJson]
  simp [search, save, hun]

lemma search_save_other (db : DB) {key key' : Bytes} (value : CrossMessages) (h : key' ≠ key) :
    search (save db key value) key' = search db key' := by
  have hk : calcAddTxMetaKey key' ≠ calcAddTxMetaKey key :=
    fun he => h (formatBytes_injective (List.append_cancel_left he))
  rw [search, save, DB.set_other db _ hk, search]

lemma search_congr {db db' : DB} {key : Bytes}
    (h : db' (calcAddTxMetaKey key) = db (calcAddTxMetaKey key)) :
    search db' key = search db key := by
  rw [search, h, search]

end CheckDB

end ShardingBC
