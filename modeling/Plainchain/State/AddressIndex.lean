import Plainchain.Lib.Pages
import Plainchain.State.ChainState

/-!
# The address index

The entries of `src/state/chainState.ts` for what an address received and sent,
by address, height and transaction. The entries of one block make a page of the
index (`activityPage`), which is put and deleted as a whole.

The keys are in UTF-8, so that an entry is found under its key unless its address has
an unpaired surrogate (`KeepsEntries.exact_iff`).

`listAddressActivity` scans the keys that begin with an address and a colon, and
cuts each of them at its colons. `listsHistory_iff` says when that gives the history of
the address: no other address begins in the same way, and the keys are in the
order of the heights.
-/

namespace Plainchain

open Js Kv List

/-! ## Entries -/

/-- What a transaction at a height did to an address. -/
structure ActivityEntry where
  address : Text
  height : ℕ
  txId : Text
  record : AddressRecord
  deriving DecidableEq

/-- `addressActivityKey` of an entry. -/
def ActivityEntry.key (e : ActivityEntry) : Text := addressActivityKey e.address e.height e.txId

/-- The key as the database has it. -/
def ActivityEntry.dbKey (e : ActivityEntry) : List Char := scalars e.key

/-- The entries of a block. -/
def activityEntries (block : Block) (undo : BlockUndo) : List ActivityEntry :=
  block.transactions.zipIdx.flatMap fun (tx, i) =>
    (addressActivityOf tx ((undo[i]?.map (·.spent)).getD [])).entries.map fun (address, totals) =>
      { address, height := block.header.height, txId := tx.id
        record := { blockHash := block.hash, timestamp := tx.timestamp, received := totals.1,
                    sent := totals.2 } }

/-- The entries of a block under their keys. -/
def activityPage (block : Block) (undo : BlockUndo) : List (List Char × AddressRecord) :=
  (activityEntries block undo).map fun e => (e.dbKey, e.record)

theorem activity_addressIndexOps (block : Block) (undo : BlockUndo) (remove : Bool) :
    (addressIndexOps block undo remove).filterMap StateOp.activity? =
      if remove then deleteAll (activityPage block undo) else putAll (activityPage block undo) := by
  have hput : addressIndexOps block undo remove = (activityEntries block undo).map fun e =>
      .activity e.key (if remove then none else some e.record) := by
    rw [addressIndexOps, activityEntries, map_flatMap]
    refine flatMap_congr fun p _ => ?_
    rw [map_map]
    cases remove <;> rfl
  rw [hput, filterMap_map, activityPage, putAll, deleteAll, map_map, map_map]
  cases remove <;> exact congrFun filterMap_eq_map _

/-! ## Keys -/

variable {e e' : ActivityEntry} {undo : BlockUndo} {block : Block} {height : ℕ}

theorem isDigit_of_mem_paddedHeight {u : UInt16} (h : u ∈ paddedHeight height) : isDigit u := by
  rcases mem_append.1 h with h | h
  · rw [eq_of_mem_replicate h]
    rfl
  · exact isDigit_of_mem_decimal h

theorem colon_notMem_paddedHeight (height : ℕ) : unit ':' ∉ paddedHeight height := fun h =>
  absurd (isDigit_of_mem_paddedHeight h) (by decide)

theorem digitsValue_paddedHeight (height : ℕ) : digitsValue (paddedHeight height) = height :=
  digitsValue_zeros_decimal _ _

theorem colon_notMem_hex {n : ℕ} {t : Text} (h : hexOf n t) : unit ':' ∉ t := fun hc =>
  absurd (isHexDigit_of_mem_hexOf h hc) (by decide)

/-- A key is read from its end: neither an id nor a height has a colon. -/
theorem addressActivityKey_inj {a a' t t' : Text} {h h' : ℕ} (ht : hexOf 64 t) (ht' : hexOf 64 t')
    (heq : addressActivityKey a h t = addressActivityKey a' h' t') : a = a' ∧ h = h' ∧ t = t' := by
  have hsplit : ∀ (a t : Text) (h : ℕ), addressActivityKey a h t =
      (a ++ unit ':' :: paddedHeight h) ++ unit ':' :: t := fun a t h => by
    rw [addressActivityKey, append_assoc]
    rfl
  rw [hsplit, hsplit] at heq
  obtain ⟨hrest, rfl⟩ := append_cons_inj_right (colon_notMem_hex ht) (colon_notMem_hex ht') heq
  obtain ⟨rfl, hheight⟩ := append_cons_inj_right (colon_notMem_paddedHeight h)
    (colon_notMem_paddedHeight h') hrest
  refine ⟨rfl, ?_, rfl⟩
  rw [← digitsValue_paddedHeight h, hheight, digitsValue_paddedHeight]

theorem scalar_of_mem_paddedHeight {u : UInt16} (h : u ∈ paddedHeight height) : Scalar u :=
  .of_isHexDigit (isHexDigit_of_isDigit (isDigit_of_mem_paddedHeight h))

theorem ActivityEntry.dbKey_eq (e : ActivityEntry) : e.dbKey =
    scalars e.address ++ ':' :: ((paddedHeight e.height).map char ++ ':' :: scalars e.txId) := by
  have hcolon : Scalar (unit ':') := by decide
  have hheight : ∀ u ∈ paddedHeight e.height, Scalar u := fun u hu => scalar_of_mem_paddedHeight hu
  rw [dbKey, key, addressActivityKey, scalars_append_cons hcolon.2, scalars_cons hcolon,
    scalars_append hheight, scalars_eq_map hheight, scalars_cons hcolon]
  rfl

/-- A key is read back as that of the address without its unpaired surrogates. -/
theorem ActivityEntry.utf16_dbKey (hhex : hexOf 64 e.txId) :
    utf16 e.dbKey = addressActivityKey (utf16 (scalars e.address)) e.height e.txId := by
  have hcolon : Scalar (unit ':') := by decide
  have hrest : WellFormed (unit ':' :: (paddedHeight e.height ++ unit ':' :: e.txId)) :=
    ((WellFormed.of_scalars fun u hu => scalar_of_mem_paddedHeight hu).append_cons hcolon
      (.of_scalars fun u hu => .of_isHexDigit (isHexDigit_of_mem_hexOf hhex hu))).cons hcolon
  rw [dbKey, key, addressActivityKey, scalars_append_cons hcolon.2, utf16_append, hrest]
  rfl

/-- What keys have in common that are one in the database. -/
theorem ActivityEntry.dbKey_inj (hhex : hexOf 64 e.txId) (hhex' : hexOf 64 e'.txId)
    (heq : e.dbKey = e'.dbKey) :
    scalars e.address = scalars e'.address ∧ e.height = e'.height ∧ e.txId = e'.txId := by
  have hread := congrArg utf16 heq
  rw [utf16_dbKey hhex, utf16_dbKey hhex'] at hread
  obtain ⟨haddress, hrest⟩ := addressActivityKey_inj hhex hhex' hread
  refine ⟨?_, hrest⟩
  rw [← scalars_utf16 (scalars e.address), haddress, scalars_utf16]

theorem length_paddedHeight (h : height < 10 ^ HEIGHT_WIDTH) :
    (paddedHeight height).length = HEIGHT_WIDTH := by
  have hle : (decimal height).length ≤ HEIGHT_WIDTH := by
    rw [decimal, length_map]
    exact (Nat.length_toDigits_le_iff (by norm_num) (by decide)).2 h
  rw [paddedHeight, length_append, length_replicate]
  omega

/-- Up to the height that fits the padding, keys are in the order of heights. -/
theorem ActivityEntry.not_dbKey_le (ha : e.address = e'.address) (hlt : e.height < e'.height)
    (hfits : e'.height < 10 ^ HEIGHT_WIDTH) : ¬e'.dbKey ≤ e.dbKey := by
  have hdigits : ∀ height : ℕ, ∀ c ∈ (paddedHeight height).map char, c.isDigit := by
    intro height c hc
    obtain ⟨u, hu, rfl⟩ := mem_map.1 hc
    have hdigit := isDigit_iff.1 (isDigit_of_mem_paddedHeight hu)
    have htoNat := toNat_char (scalar_of_mem_paddedHeight hu)
    simp only [Char.isDigit, Bool.and_eq_true, decide_eq_true_eq, ge_iff_le, UInt32.le_iff_toNat_le]
    change 48 ≤ (char u).toNat ∧ (char u).toNat ≤ 57
    omega
  rw [dbKey_eq, dbKey_eq, ha, append_le_append_iff, Js.cons_le_cons_iff,
    or_iff_right (lt_irrefl _)]
  rintro ⟨-, hle⟩
  refine not_le_of_digits (hdigits _) (hdigits _) ?_ (?_ : digitsValue _ < digitsValue _) hle
  · rw [length_map, length_map, length_paddedHeight hfits,
      length_paddedHeight (hlt.trans hfits)]
  · rwa [digitsValue_paddedHeight, digitsValue_paddedHeight]

/-- The transactions of a block have ids of their own, which are digests. -/
structure Block.Identified (block : Block) : Prop where
  hex : ∀ tx ∈ block.transactions, hexOf 64 tx.id
  nodup : (block.transactions.map Transaction.id).Nodup

theorem mem_activityEntries (he : e ∈ activityEntries block undo) :
    e.height = block.header.height ∧ ∃ tx ∈ block.transactions, e.txId = tx.id := by
  obtain ⟨⟨tx, i⟩, htx, he⟩ := mem_flatMap.1 he
  obtain ⟨⟨address, totals⟩, -, rfl⟩ := mem_map.1 he
  exact ⟨rfl, tx, fst_mem_of_mem_zipIdx htx, rfl⟩

theorem Block.Identified.hex_entry (h : block.Identified) (he : e ∈ activityEntries block undo) :
    hexOf 64 e.txId := by
  obtain ⟨-, tx, htx, heq⟩ := mem_activityEntries he
  exact heq ▸ h.hex tx htx

/-- A block has one entry for an address in a transaction. -/
theorem Block.Identified.entry_eq (h : block.Identified) (he : e ∈ activityEntries block undo)
    (he' : e' ∈ activityEntries block undo) (ha : e.address = e'.address) (ht : e.txId = e'.txId) :
    e = e' := by
  have hids : (block.transactions.zipIdx.map fun p => p.1.id).Nodup := by
    have := h.nodup
    rwa [← zipIdx_map_fst 0 block.transactions, map_map] at this
  obtain ⟨p, hp, he⟩ := mem_flatMap.1 he
  obtain ⟨p', hp', he'⟩ := mem_flatMap.1 he'
  obtain ⟨totals, hmem, rfl⟩ := mem_map.1 he
  obtain ⟨totals', hmem', rfl⟩ := mem_map.1 he'
  cases inj_on_of_nodup_map hids hp hp' ht
  cases inj_on_of_nodup_map (OrdMap.nodup _) hmem hmem' ha
  rfl

/-! ## What is held -/

/-- The database has an entry whose key is read as a text. -/
def AddressIndex.Has (index : AddressIndex) (key : Text) (record : AddressRecord) : Prop :=
  ∃ k, index.get k = some record ∧ utf16 k = key

/-- The index has the entries `E`, each under its key, and nothing else. -/
def AddressIndex.Exact (index : AddressIndex) (E : ActivityEntry → Prop) : Prop :=
  ∀ key record, index.Has key record ↔ ∃ e, E e ∧ key = e.key ∧ record = e.record

/-- The index was written from the entries `E`: what it holds is one of them, and there is
    an entry under the key of each. -/
structure KeepsEntries (index : AddressIndex) (E : ActivityEntry → Prop) : Prop where
  of_get : ∀ k record, index.get k = some record → ∃ e, E e ∧ k = e.dbKey ∧ record = e.record
  held : ∀ e, E e → ∃ record, index.get e.dbKey = some record
  hex : ∀ e, E e → hexOf 64 e.txId
  entry_eq : ∀ e e', E e → E e' → e.address = e'.address → e.height = e'.height →
    e.txId = e'.txId → e = e'

section Keeps

variable {index : AddressIndex} {E : ActivityEntry → Prop} (hk : KeepsEntries index E)

include hk

/-- An entry is there if no other address has its characters. -/
theorem KeepsEntries.get_eq (he : E e)
    (halone : ∀ e', E e' → scalars e'.address = scalars e.address → e'.address = e.address) :
    index.get e.dbKey = some e.record := by
  obtain ⟨record, hget⟩ := hk.held e he
  obtain ⟨e', he', hkey, rfl⟩ := hk.of_get _ _ hget
  obtain ⟨ha, hheight, htxId⟩ := ActivityEntry.dbKey_inj (hk.hex e' he') (hk.hex e he) hkey.symm
  rw [hget, hk.entry_eq e' e he' he (halone e' he' ha) hheight htxId]

/-- Entries are found under their keys exactly when no address has an unpaired
    surrogate. -/
theorem KeepsEntries.exact_iff : index.Exact E ↔ ∀ e, E e → WellFormed e.address := by
  have hcolon : Scalar (unit ':') := by decide
  constructor
  · intro h e he
    obtain ⟨k, -, hkey⟩ := (h e.key e.record).2 ⟨e, he, rfl, rfl⟩
    have hformed := wellFormed_utf16 k
    rw [hkey] at hformed
    exact (hformed.of_append_cons hcolon).1
  · intro h key record
    have hread : ∀ e, E e → utf16 e.dbKey = e.key := fun e he => by
      rw [ActivityEntry.utf16_dbKey (hk.hex e he), h e he]
      rfl
    constructor
    · rintro ⟨k, hget, rfl⟩
      obtain ⟨e, he, rfl, rfl⟩ := hk.of_get k record hget
      exact ⟨e, he, hread e he, rfl⟩
    · rintro ⟨e, he, rfl, rfl⟩
      refine ⟨e.dbKey, hk.get_eq he fun e' he' ha => ?_, hread e he⟩
      rw [← h e' he', ha, h e he]

end Keeps

/-! ## Listing -/

/-- An entry as it is returned. -/
structure AddressActivity extends AddressRecord where
  txId : Text
  /-- What `Number` makes of the text of the height. -/
  height : Option ℕ
  deriving DecidableEq

/-- A key is cut at its colons; the second and the third piece are taken. -/
def readActivity (key : Text) (record : AddressRecord) : AddressActivity :=
  match key.splitOn (unit ':') with
  | _ :: heightText :: txId :: _ => { record with txId, height := numberOf heightText }
  | _ => { record with txId := [], height := none }

/-- The keys of the sublevel, in its order. -/
def sortedKeys (index : AddressIndex) : List (List Char) := index.keys.sort (· ≤ ·)

/-- The keys from an address and a colon on, and before those that go on with
    `\xff`, the last one first. -/
def activityKeys (index : AddressIndex) (address : Text) : List (List Char) :=
  (sortedKeys index).reverse.filter fun key =>
    scalars (address ++ [unit ':']) ≤ key ∧ ¬scalars (address ++ [unit ':'] ++ [0xFF]) ≤ key

/-- The history of an address, the newest entries first. -/
def listAddressActivity (index : AddressIndex) (address : Text) (limit : ℕ) : List AddressActivity :=
  ((activityKeys index address).take limit).filterMap fun key =>
    (index.get key).map (readActivity (utf16 key))

/-- The entry as it should be returned. -/
def ActivityEntry.activity (e : ActivityEntry) : AddressActivity :=
  { e.record with txId := e.txId, height := some e.height }

/-- An address that begins with another one and a colon. A scan for that one meets
    its keys, unless it goes on with a unit from `\xff` on. -/
def Intrudes (address other : Text) : Prop :=
  ∃ r, other = address ++ unit ':' :: r ∧ ∀ u ∈ r.head?, u < 0xFF

/-- Listing an address gives its history: there is a list of its entries, each once
    and of heights that do not grow, of which the first are returned. -/
def ListsHistory (index : AddressIndex) (E : ActivityEntry → Prop) (address : Text) : Prop :=
  ∃ history : List ActivityEntry, history.Nodup ∧
    (∀ e, e ∈ history ↔ E e ∧ e.address = address) ∧
    history.Pairwise (fun e e' => e'.height ≤ e.height) ∧
    ∀ limit, listAddressActivity index address limit = (history.take limit).map ActivityEntry.activity

section List

variable {index : AddressIndex} {E : ActivityEntry → Prop} {address : Text}

theorem numberOf_paddedHeight (height : ℕ) : numberOf (paddedHeight height) = some height := by
  have hdigits : (paddedHeight height).all isDigit := all_eq_true.2 fun u hu =>
    isDigit_of_mem_paddedHeight hu
  rw [numberOf, if_pos hdigits, digitsValue_paddedHeight]

/-- A key has three pieces, unless its address has a colon. -/
theorem splitOn_key (haddress : unit ':' ∉ e.address) (hhex : hexOf 64 e.txId) :
    e.key.splitOn (unit ':') = [e.address, paddedHeight e.height, e.txId] := by
  have hkey : e.key = join (unit ':') [e.address, paddedHeight e.height, e.txId] := by
    simp [ActivityEntry.key, addressActivityKey, join_cons_cons]
  rw [hkey]
  refine splitOn_intercalate _ (fun t ht => ?_) (by simp)
  simp only [mem_cons, not_mem_nil, or_false] at ht
  rcases ht with rfl | rfl | rfl
  · exact haddress
  · exact colon_notMem_paddedHeight _
  · exact colon_notMem_hex hhex

/-- The scan for an address meets its own keys, and those of intruders. -/
theorem key_between (hhex : hexOf 64 address) :
    (scalars (address ++ [unit ':']) ≤ e.dbKey ∧
      ¬scalars (address ++ [unit ':'] ++ [0xFF]) ≤ e.dbKey) ↔
      e.address = address ∨ Intrudes address e.address := by
  have haddress := colon_notMem_hex hhex
  have hkey : ∀ r, e.key = address ++ [unit ':'] ++ r ↔
      e.address ++ unit ':' :: (paddedHeight e.height ++ unit ':' :: e.txId) =
        address ++ unit ':' :: r := fun r => by
    rw [append_assoc, singleton_append]
    rfl
  have hcolon : unit ':' < 0xFF := by decide
  have hsmall : ∀ u ∈ address ++ [unit ':'], u.toNat < 0xD800 := by
    intro u hu
    rcases mem_append.1 hu with hu | hu
    · have := isHexDigit_iff.1 (isHexDigit_of_mem_hexOf hhex hu)
      omega
    · rw [mem_singleton.1 hu]
      decide
  rw [ActivityEntry.dbKey, scalars_between hsmall (by decide)]
  simp only [hkey]
  constructor
  · rintro ⟨r, heq, hr⟩
    by_cases hmem : unit ':' ∈ e.address
    · -- The address is cut at its first colon, where the key is cut.
      obtain ⟨x, y, hcut, hx⟩ := eq_append_cons_of_mem hmem
      rw [hcut, append_assoc, cons_append] at heq
      obtain ⟨rfl, rfl⟩ := append_cons_inj_left hx haddress heq
      refine .inr ⟨y, hcut, fun u hu => hr u ?_⟩
      rwa [head?_append_of_ne_nil]
      rintro rfl
      cases hu
    · exact .inl (append_cons_inj_left hmem haddress heq).1
  · rintro (rfl | ⟨r, heq, hr⟩)
    · refine ⟨_, rfl, fun u hu => ?_⟩
      have hne : paddedHeight e.height ≠ [] := fun h =>
        decimal_ne_nil e.height (append_eq_nil_iff.1 h).2
      rw [head?_append_of_ne_nil _ hne] at hu
      have hdigit := isDigit_iff.1 (isDigit_of_mem_paddedHeight (mem_of_mem_head? hu))
      rw [UInt16.lt_iff_toNat_lt]
      exact Nat.lt_of_le_of_lt hdigit.2 (by decide)
    · refine ⟨r ++ unit ':' :: (paddedHeight e.height ++ unit ':' :: e.txId), ?_, fun u hu => ?_⟩
      · rw [heq, append_assoc, cons_append]
      · cases r with
        | nil =>
          cases hu
          exact hcolon
        | cons v r =>
          cases hu
          exact hr _ rfl

theorem nodup_activityKeys : (activityKeys index address).Nodup :=
  (nodup_reverse.2 (Finset.sort_nodup _ _)).filter _

theorem pairwise_activityKeys : (activityKeys index address).Pairwise fun key key' => key' ≤ key :=
  (pairwise_reverse.2 (Finset.pairwise_sort _ _)).filter _

variable (hk : KeepsEntries index E) (haddress : hexOf 64 address)

include hk haddress

theorem mem_activityKeys {key : List Char} : key ∈ activityKeys index address ↔
    ∃ e, E e ∧ key = e.dbKey ∧ (e.address = address ∨ Intrudes address e.address) := by
  have hkeys : key ∈ index.keys ↔ ∃ e, E e ∧ key = e.dbKey := by
    rw [Store.mem_keys, Option.isSome_iff_exists]
    constructor
    · rintro ⟨record, h⟩
      obtain ⟨e, he, hkey, -⟩ := hk.of_get key record h
      exact ⟨e, he, hkey⟩
    · rintro ⟨e, he, rfl⟩
      exact hk.held e he
  rw [activityKeys, mem_filter, mem_reverse, sortedKeys, Finset.mem_sort, hkeys, decide_eq_true_eq]
  constructor
  · rintro ⟨⟨e, he, rfl⟩, hbetween⟩
    exact ⟨e, he, rfl, (key_between haddress).1 hbetween⟩
  · rintro ⟨e, he, rfl, hor⟩
    exact ⟨⟨e, he, rfl⟩, (key_between haddress).2 hor⟩

omit hk in
/-- No other address has the characters of a hex address. -/
theorem address_eq (h : scalars e.address = scalars address) : e.address = address :=
  eq_of_scalars_eq_hex (fun _ hu => isHexDigit_of_mem_hexOf haddress hu) h

/-- An entry of the address is the one of its key. -/
theorem KeepsEntries.eq_of_dbKey (he : E e) (he' : E e') (ha : e.address = address)
    (hkey : e'.dbKey = e.dbKey) : e' = e := by
  obtain ⟨ha', hheight, htxId⟩ := ActivityEntry.dbKey_inj (hk.hex e' he') (hk.hex e he) hkey
  rw [ha] at ha'
  exact hk.entry_eq e' e he' he ((address_eq haddress ha').trans ha.symm) hheight htxId

/-- An entry of the address is read back. -/
theorem KeepsEntries.read_eq (he : E e) (ha : e.address = address) :
    (index.get e.dbKey).map (readActivity (utf16 e.dbKey)) = some e.activity := by
  have hcolon : unit ':' ∉ e.address := ha ▸ colon_notMem_hex haddress
  have hformed : WellFormed e.address := .of_scalars fun u hu =>
    .of_isHexDigit (isHexDigit_of_mem_hexOf haddress (ha ▸ hu))
  have hread : utf16 e.dbKey = e.key := by
    rw [ActivityEntry.utf16_dbKey (hk.hex e he), hformed]
    rfl
  rw [hk.get_eq he fun e' _ h => (address_eq haddress (ha ▸ h)).trans ha.symm, Option.map_some, hread,
    readActivity, splitOn_key hcolon (hk.hex e he)]
  simp only [numberOf_paddedHeight, ActivityEntry.activity]

/-- Where nothing intrudes, the keys are those of a list of the entries of the
    address. -/
theorem exists_history (hclean : ∀ e, E e → ¬Intrudes address e.address) :
    ∃ history : List ActivityEntry, history.map ActivityEntry.dbKey = activityKeys index address ∧
      (∀ e, e ∈ history ↔ E e ∧ e.address = address) ∧
      ∀ limit, listAddressActivity index address limit =
        (history.take limit).map ActivityEntry.activity := by
  have hrange : activityKeys index address ∈
      Set.range (List.map fun e : { e // E e ∧ e.address = address } => e.1.dbKey) := by
    rw [Set.range_list_map]
    intro key hkey
    obtain ⟨e, he, rfl, ha | hintrudes⟩ := (mem_activityKeys hk haddress).1 hkey
    · exact ⟨⟨e, he, ha⟩, rfl⟩
    · exact absurd hintrudes (hclean e he)
  obtain ⟨entries, hentries⟩ := hrange
  refine ⟨entries.map Subtype.val, by rw [map_map, ← hentries]; rfl, fun e => ?_, fun limit => ?_⟩
  · constructor
    · intro hmem
      obtain ⟨e, -, rfl⟩ := mem_map.1 hmem
      exact e.2
    · rintro ⟨he, hea⟩
      have hkey := (mem_activityKeys hk haddress).2 ⟨e, he, rfl, .inl hea⟩
      rw [← hentries] at hkey
      obtain ⟨e', he', heq⟩ := mem_map.1 hkey
      exact mem_map.2 ⟨e', he', hk.eq_of_dbKey haddress he e'.2.1 hea heq⟩
  · have hread : ∀ e : { e // E e ∧ e.address = address },
        (index.get e.1.dbKey).map (readActivity (utf16 e.1.dbKey)) = some e.1.activity :=
      fun e => hk.read_eq haddress e.2.1 e.2.2
    rw [listAddressActivity, ← hentries, ← map_take, ← map_take, filterMap_map,
      map_map]
    simp only [Function.comp_def, hread, filterMap_eq_map']

omit hk haddress in
/-- A list of entries of one address is determined by what is returned. -/
theorem ActivityEntry.activity_inj (ha : e.address = e'.address) (h : e.activity = e'.activity) :
    e = e' := by
  obtain ⟨address, height, txId, ⟨blockHash, timestamp, received, sent⟩⟩ := e
  obtain ⟨address', height', txId', ⟨blockHash', timestamp', received', sent'⟩⟩ := e'
  simp_all [ActivityEntry.activity]

theorem length_listAddressActivity :
    (listAddressActivity index address (activityKeys index address).length).length =
      (activityKeys index address).length := by
  rw [listAddressActivity, take_length, length_filterMap_eq_countP, countP_eq_length]
  intro key hkey
  obtain ⟨e, he, rfl, -⟩ := (mem_activityKeys hk haddress).1 hkey
  obtain ⟨record, hget⟩ := hk.held e he
  rw [hget]
  rfl

/-- An intruder is one entry too many. -/
theorem ListsHistory.clean (h : ListsHistory index E address) :
    ∀ e, E e → ¬Intrudes address e.address := by
  obtain ⟨history, hnodup, hmem, -, hlist⟩ := h
  intro e he hintrudes
  have hkeys : (history.map ActivityEntry.dbKey).Nodup := hnodup.map_on fun e he e' he' heq =>
    hk.eq_of_dbKey haddress ((hmem e').1 he').1 ((hmem e).1 he).1 ((hmem e').1 he').2 heq
  have hsub : history.map ActivityEntry.dbKey ⊆ activityKeys index address := by
    intro key hkey
    obtain ⟨e, he, rfl⟩ := mem_map.1 hkey
    exact (mem_activityKeys hk haddress).2 ⟨e, ((hmem e).1 he).1, rfl, .inl ((hmem e).1 he).2⟩
  have hlength : (activityKeys index address).length ≤ (history.map ActivityEntry.dbKey).length := by
    rw [← length_listAddressActivity hk haddress, hlist, length_map, length_map]
    exact length_take_le' _ _
  have hperm := (hkeys.subperm hsub).perm_of_length_le hlength
  have hkey := hperm.mem_iff.2 ((mem_activityKeys hk haddress).2 ⟨e, he, rfl, .inr hintrudes⟩)
  obtain ⟨e', he', heq⟩ := mem_map.1 hkey
  obtain ⟨he', ha'⟩ := (hmem e').1 he'
  obtain ⟨r, hr, -⟩ := hintrudes
  rw [hk.eq_of_dbKey haddress he' he ha' heq.symm, ha'] at hr
  exact absurd (congrArg List.length hr) (by simp)

/-- Listing an address gives its history exactly when no other address intrudes
    and the keys of its entries are in the order of their heights. -/
theorem listsHistory_iff :
    ListsHistory index E address ↔ (∀ e, E e → ¬Intrudes address e.address) ∧
      ∀ e e', E e → E e' → e.address = address → e'.address = address → e.height < e'.height →
        ¬e'.dbKey ≤ e.dbKey := by
  constructor
  · intro h
    have hclean := h.clean hk haddress
    refine ⟨hclean, fun e e' he he' ha ha' hlt hle => ?_⟩
    obtain ⟨history, hnodup, hmem, hsorted, hlist⟩ := h
    obtain ⟨history', hkeys', hmem', hlist'⟩ := exists_history hk haddress hclean
    -- What is returned determines the keys, so that they are in the order of the scan.
    have hactivity : history.map ActivityEntry.activity = history'.map ActivityEntry.activity := by
      have h := (hlist (history.length + history'.length)).symm.trans (hlist' _)
      rwa [take_of_length_le (Nat.le_add_right _ _),
        take_of_length_le (Nat.le_add_left _ _)] at h
    have hkeys : history.map ActivityEntry.dbKey = activityKeys index address := by
      rw [← hkeys']
      exact map_eq_of_map_eq (fun a b ha hb h => by rw [ActivityEntry.activity_inj (ha.trans hb.symm) h])
        (fun e he => ((hmem e).1 he).2) (fun e he => ((hmem' e).1 he).2) hactivity
    have hscan := @pairwise_activityKeys index address
    rw [← hkeys, pairwise_map] at hscan
    let R : ActivityEntry → ActivityEntry → Prop := fun e e' =>
      (e'.height ≤ e.height ∧ e'.dbKey ≤ e.dbKey) ∨ (e.height ≤ e'.height ∧ e.dbKey ≤ e'.dbKey)
    have hsymm : Std.Symm R := ⟨fun _ _ h => Or.symm h⟩
    have hboth : history.Pairwise R := (hsorted.and hscan).imp .inl
    have hne : e ≠ e' := fun heq => absurd hlt (heq ▸ lt_irrefl _)
    rcases hboth.forall ((hmem e).2 ⟨he, ha⟩) ((hmem e').2 ⟨he', ha'⟩) hne with h | h
    · exact absurd h.1 (not_le.2 hlt)
    · exact hne (hk.eq_of_dbKey haddress he' he ha' (le_antisymm h.2 hle))
  · rintro ⟨hclean, horder⟩
    obtain ⟨history, hkeys, hmem, hlist⟩ := exists_history hk haddress hclean
    refine ⟨history, ?_, hmem, ?_, hlist⟩
    · have := @nodup_activityKeys index address
      rw [← hkeys] at this
      exact this.of_map
    · have := @pairwise_activityKeys index address
      rw [← hkeys, pairwise_map] at this
      refine this.imp_of_mem fun {e e'} he he' hle => ?_
      by_contra hlt
      exact horder e e' ((hmem e).1 he).1 ((hmem e').1 he').1 ((hmem e).1 he).2 ((hmem e').1 he').2
        (not_le.1 hlt) hle

/-- While heights fit their padding, the keys are in order. -/
theorem listsHistory_iff_of_fits (hfits : ∀ e, E e → e.height < 10 ^ HEIGHT_WIDTH) :
    ListsHistory index E address ↔ ∀ e, E e → ¬Intrudes address e.address := by
  rw [listsHistory_iff hk haddress, and_iff_left]
  intro e e' _ he' ha ha' hlt
  exact ActivityEntry.not_dbKey_le (ha.trans ha'.symm) hlt (hfits e' he')

end List

end Plainchain
