import Plainchain.Ledger.Bech32
import Plainchain.Lib.HexBytes

/-!
# Addresses for people

The readable form of an address (`src/ledger/address.ts`): the 32 bytes of the raw address in
bech32m after `l1`. Encoding and decoding are described by the digits that stand for the bytes
(`Payload`), so that decoding finds what encoding wrote, in either case (`decodeAddress_eq_ok`).
A single edit of an encoded address is noticed: inserting or deleting changes the length, a
changed digit the checksum, and a changed case leaves letters of both.
-/

namespace Plainchain

open Js Bits List

def addressHrp : Text := lit "l1"

def encodeAddress (rawHex : Text) : Except Text Text := do
  reject (¬ hexOf 64 rawHex) (lit "not a raw address (expected 64 hex characters): " ++ rawHex)
  let data ← convertBits ((hexBytes rawHex).map UInt8.toNat) 8 5 true
  .ok (bech32mEncode addressHrp data)

def decodeAddress (forms : CaseMapping) (encoded : Text) : Except Text Text := do
  let decoded ← bech32mDecode forms encoded
  reject (decoded.1 ≠ addressHrp)
    (lit "address has prefix \"" ++ decoded.1 ++ lit "\", expected \"" ++ addressHrp ++
      lit "\" (a different network or coin?)")
  let bytes ← convertBits decoded.2 5 8 false
  reject (bytes.length ≠ 32)
    (lit "address payload is " ++ decimal bytes.length ++ lit " bytes, expected 32")
  .ok (bytesHex (bytes.map UInt8.ofNat))

def normalizeAddress (forms : CaseMapping) (input : Text) : Except Text Text :=
  let trimmed := trim input
  if hexOf 64 (forms.lower trimmed) then .ok (forms.lower trimmed)
  else if (addressHrp ++ [unit '1']).isPrefixOf (forms.lower trimmed) then
    decodeAddress forms trimmed
  else
    .error (lit "\"" ++ input ++
      lit "\" is not an address: expected a checksummed l1… address or 64 hex characters")

/-! ## Bytes and digits -/

/-- The digits that stand for 32 bytes: 52 of them, the last with four bits of padding. -/
structure Payload (bytes : List UInt8) (data : List ℕ) : Prop where
  length : bytes.length = 32
  lt : ∀ v ∈ data, v < 2 ^ 5
  bits : groupBits 5 data = groupBits 8 (bytes.map UInt8.toNat) ++ List.replicate 4 false

theorem map_toNat_lt (bytes : List UInt8) : ∀ v ∈ bytes.map UInt8.toNat, v < 2 ^ 8 :=
  forall_mem_map.2 fun b _ => b.toNat_lt

variable {bytes : List UInt8} {data : List ℕ} {r : Text}

/-- Less than a digit of padding is four bits of it. -/
theorem Payload.of_bits {k : ℕ} (hlength : bytes.length = 32) (hlt : ∀ v ∈ data, v < 2 ^ 5)
    (hk : k < 5)
    (hbits : groupBits 5 data = groupBits 8 (bytes.map UInt8.toNat) ++ List.replicate k false) :
    Payload bytes data := by
  have hcount := congrArg List.length hbits
  rw [length_groupBits, length_append, length_groupBits, length_map, hlength,
    length_replicate] at hcount
  obtain rfl : k = 4 := by omega
  exact ⟨hlength, hlt, hbits⟩

theorem Payload.length_data (h : Payload bytes data) : data.length = 52 := by
  have hcount := congrArg List.length h.bits
  rw [length_groupBits, length_append, length_groupBits, length_map, h.length,
    length_replicate] at hcount
  omega

theorem Payload.data_unique {data' : List ℕ} (h : Payload bytes data) (h' : Payload bytes data') :
    data = data' :=
  groupBits_inj h.lt h'.lt (h.length_data.trans h'.length_data.symm) (h.bits.trans h'.bits.symm)

theorem convertBits_bytes (hlength : bytes.length = 32) :
    ∃ data, convertBits (bytes.map UInt8.toNat) 8 5 true = .ok data ∧ Payload bytes data := by
  obtain ⟨data, k, hok, hk, hlt, hbits⟩ :=
    convertBits_pad (by decide : 0 < 5) (by decide : 8 + 5 ≤ 32) (map_toNat_lt bytes)
  exact ⟨data, hok, .of_bits hlength hlt hk hbits⟩

theorem encodeAddress_eq_ok {s : Text} :
    encodeAddress r = .ok s ↔
      ∃ bytes data, Payload bytes data ∧ r = bytesHex bytes ∧ s = bech32mEncode addressHrp data := by
  simp only [encodeAddress, bind_eq_ok]
  constructor
  · rintro ⟨_, hraw, data, hdata, hs⟩
    rw [reject_eq_ok, not_not] at hraw
    obtain ⟨hlength, hhex⟩ := bytesHex_hexBytes_of_hexOf (n := 32) hraw
    obtain ⟨data', hok, hpayload⟩ := convertBits_bytes hlength
    obtain rfl : data' = data := Except.ok.inj (hok.symm.trans hdata)
    exact ⟨hexBytes r, data', hpayload, hhex.symm, (Except.ok.inj hs).symm⟩
  · rintro ⟨bytes, data, hpayload, rfl, rfl⟩
    have hraw := hexOf_bytesHex bytes
    rw [hpayload.length] at hraw
    obtain ⟨data', hok, hpayload'⟩ := convertBits_bytes hpayload.length
    obtain rfl := hpayload.data_unique hpayload'
    exact ⟨(), reject_eq_ok.2 (not_not.2 hraw), data, by rw [hexBytes_bytesHex, hok], rfl⟩

/-- Decoding finds what is encoded as the text in lower case, if the text is in one case. -/
theorem decodeAddress_eq_ok {forms : CaseMapping} {s : Text} :
    decodeAddress forms s = .ok r ↔
      (forms.lower s = s ∨ forms.upper s = s) ∧ encodeAddress r = .ok (forms.lower s) := by
  simp only [decodeAddress, bind_eq_ok, encodeAddress_eq_ok]
  constructor
  · rintro ⟨⟨hrp, data⟩, hdecode, _, hhrp, bytes, hbytes, _, hlength, hr⟩
    rw [reject_eq_ok, not_not] at hhrp hlength
    obtain rfl : hrp = addressHrp := hhrp
    obtain ⟨hcase, _, hlt, hlower⟩ := bech32mDecode_eq_ok.1 hdecode
    obtain ⟨hbyte, k, hk, _, hbits⟩ := (convertBits_noPad (by decide) (by decide) hlt).1 hbytes
    have hback : (bytes.map UInt8.ofNat).map UInt8.toNat = bytes := by
      rw [map_map]
      refine (map_congr_left fun b hb => ?_).trans (map_id _)
      rw [Function.comp_apply, UInt8.toNat_ofNat', Nat.mod_eq_of_lt (hbyte b hb)]
      rfl
    refine ⟨hcase, bytes.map UInt8.ofNat, data, ?_, (Except.ok.inj hr).symm, hlower⟩
    exact .of_bits (by rw [length_map, hlength]) hlt hk (by rw [hback, hbits])
  · rintro ⟨hcase, bytes, data, hpayload, rfl, hlower⟩
    have hdecode : bech32mDecode forms s = .ok (addressHrp, data) :=
      bech32mDecode_eq_ok.2 ⟨hcase, by decide, hpayload.lt, hlower⟩
    have hbytes : convertBits data 5 8 false = .ok (bytes.map UInt8.toNat) :=
      (convertBits_noPad (by decide) (by decide) hpayload.lt).2
        ⟨map_toNat_lt bytes, 4, by decide, by decide, hpayload.bits⟩
    refine ⟨_, hdecode, (), reject_eq_ok.2 (not_not.2 rfl), _, hbytes, (), ?_, ?_⟩
    · rw [reject_eq_ok, not_not, length_map, hpayload.length]
    · rw [map_map]
      congr 2
      exact (map_congr_left fun b _ => UInt8.ofNat_toNat).trans (map_id _)

/-! ## The text of an address -/

/-- A raw address has an encoding. -/
theorem exists_encodeAddress (h : hexOf 64 r) : ∃ s, encodeAddress r = .ok s := by
  obtain ⟨hlength, hhex⟩ := bytesHex_hexBytes_of_hexOf (n := 32) h
  obtain ⟨data, _, hpayload⟩ := convertBits_bytes hlength
  exact ⟨_, encodeAddress_eq_ok.2 ⟨hexBytes r, data, hpayload, hhex.symm, rfl⟩⟩

section Encoded

variable {r s : Text} (h : encodeAddress r = .ok s)

include h

theorem encoded_eq : ∃ values : List ℕ, (∀ v ∈ values, v < 2 ^ 5) ∧ values.length = 58 ∧
    s = unit 'l' :: unit '1' :: unit '1' :: values.map charsetUnit := by
  obtain ⟨bytes, data, hpayload, _, rfl⟩ := encodeAddress_eq_ok.1 h
  refine ⟨codeword addressHrp data, codeword_lt _ hpayload.lt, ?_, ?_⟩
  · rw [length_codeword, hpayload.length_data]
  · rw [bech32mEncode_eq _ hpayload.lt]
    rfl

theorem length_encoded : s.length = 61 := by
  obtain ⟨values, _, hlength, rfl⟩ := encoded_eq h
  simp [hlength]

/-- It begins with a lower-case letter. -/
theorem encoded_cons : ∃ rest, s = unit 'l' :: rest := by
  obtain ⟨values, _, _, rfl⟩ := encoded_eq h
  exact ⟨_, rfl⟩

theorem lowerPlain_encoded : LowerPlain s := by
  obtain ⟨values, hlt, _, rfl⟩ := encoded_eq h
  have hspace : ∀ {u : UInt16}, 32 < u.toNat → u.toNat < 128 → u ∉ whiteSpace :=
    fun hlow hhigh hmem => by have := whiteSpace_toNat hmem; omega
  have hdigits : ∀ v < 2 ^ 5, 32 < (charsetUnit v).toNat := by decide
  have hl : (unit 'l').toNat < 128 ∧ isUpperLetter (unit 'l') = false ∧ unit 'l' ∉ whiteSpace :=
    ⟨by decide, by decide, hspace (by decide) (by decide)⟩
  have hone : (unit '1').toNat < 128 ∧ isUpperLetter (unit '1') = false ∧ unit '1' ∉ whiteSpace :=
    ⟨by decide, by decide, hspace (by decide) (by decide)⟩
  simp only [LowerPlain, forall_mem_cons]
  refine ⟨hl, hone, hone, forall_mem_map.2 fun v hv => ?_⟩
  have hplain := charset_plain (charsetUnit_mem v (hlt v hv))
  exact ⟨hplain.1, hplain.2.1, hspace (hdigits v (hlt v hv)) hplain.1⟩

theorem decodeAddress_encoded (forms : CaseMapping) : decodeAddress forms s = .ok r :=
  decodeAddress_eq_ok.2 ⟨.inl ((lowerPlain_encoded h).lower forms),
    by rwa [(lowerPlain_encoded h).lower forms]⟩

theorem encodeAddress_inj {r' : Text} (h' : encodeAddress r' = .ok s) : r' = r :=
  Except.ok.inj ((decodeAddress_encoded h' asciiForms.toCaseMapping).symm.trans
    (decodeAddress_encoded h asciiForms.toCaseMapping))

/-- Two encodings do not differ in one place. -/
theorem encoded_one_error {r' a b : Text} {u v : UInt16} (hs : s = a ++ u :: b)
    (h' : encodeAddress r' = .ok (a ++ v :: b)) : u = v := by
  obtain ⟨_, data, hpayload, _, hdata⟩ := encodeAddress_eq_ok.1 h
  obtain ⟨_, data', hpayload', _, hdata'⟩ := encodeAddress_eq_ok.1 h'
  exact bech32m_one_error hpayload.lt hpayload'.lt (hdata.symm.trans hs) hdata'.symm

end Encoded

/-! ## Typed addresses -/

theorem lowerPlain_raw (h : hexOf 64 r) : LowerPlain r := fun u hu => by
  have hdigit := isHexDigit_iff.1 (isHexDigit_of_mem_hexOf h hu)
  refine ⟨by omega, ?_, fun hspace => ?_⟩
  · simp only [isUpperLetter, Bool.and_eq_false_iff, decide_eq_false_iff_not]
    omega
  · have := whiteSpace_toNat hspace
    omega

section Typed

variable {forms : CaseMapping} {r s t : Text} (htrim : trim t = t)

include htrim

theorem normalizeAddress_raw (hr : hexOf 64 r) (hlower : forms.lower t = r) :
    normalizeAddress forms t = .ok r := by
  simp only [normalizeAddress, htrim, hlower, hr, if_true]

theorem normalizeAddress_encoded (h : encodeAddress r = .ok s) (hlower : forms.lower t = s)
    (hcase : forms.lower t = t ∨ forms.upper t = t) : normalizeAddress forms t = .ok r := by
  have hnot : ¬ hexOf 64 s := fun hraw => by
    have := length_of_hexOf hraw
    have := length_encoded h
    omega
  have hstart : (addressHrp ++ [unit '1']).isPrefixOf s := by
    obtain ⟨values, _, _, rfl⟩ := encoded_eq h
    rfl
  simp only [normalizeAddress, htrim, hlower, hnot, hstart, if_true]
  exact decodeAddress_eq_ok.2 ⟨hcase, by rw [hlower, h]⟩

end Typed

/-! ## Edits -/

/-- A character: a unit, or a surrogate pair. -/
def Character (c : Text) : Prop := c.length = 1 ∨ ∃ u v, isHigh u ∧ isLow v ∧ c = [u, v]

/-- `t` is `s` with a character in the place of another. -/
def Substitution (s t : Text) : Prop :=
  ∃ a u b c, s = a ++ u :: b ∧ Character c ∧ t = a ++ c ++ b

/-- `t` is `s` without one of its characters. -/
def Deletion (s t : Text) : Prop := ∃ a u b, s = a ++ u :: b ∧ t = a ++ b

/-- `t` is `s` with one more character. -/
def Insertion (s t : Text) : Prop := ∃ a b c, s = a ++ b ∧ Character c ∧ t = a ++ c ++ b

/-- `t` is `s` with another character of the alphabet in the place of a digit, of data or
    of the checksum; the digits follow `l11`. -/
def DigitSubstitution (s t : Text) : Prop :=
  ∃ a u b v, s = a ++ u :: b ∧ 3 ≤ a.length ∧ v ∈ charset ∧ v ≠ u ∧ t = a ++ v :: b

theorem Character.ne_nil {c : Text} (h : Character c) : 0 < c.length := by
  rcases h with h | ⟨u, v, _, _, rfl⟩
  · omega
  · exact Nat.succ_pos 1

section Edits

variable {forms : CaseMapping} {r r' s t : Text} (h : encodeAddress r = .ok s)

/-- A text with the first letter of an address is not in upper case. -/
theorem upper_ne (hl : unit 'l' ∈ t) : forms.upper t ≠ t := fun hupper => by
  rw [← hupper] at hl
  exact absurd (forms.not_lower_upper t _ hl) (by decide)

include h

theorem mem_of_append {a b : Text} (hs : s = a ++ b) (ha : a ≠ []) : unit 'l' ∈ a := by
  obtain ⟨rest, hcons⟩ := encoded_cons h
  obtain ⟨x, xs, rfl⟩ := exists_cons_of_ne_nil ha
  rw [hcons, cons_append, List.cons.injEq] at hs
  rw [← hs.1]
  exact mem_cons_self

theorem deletion_rejected (hedit : Deletion s t) : decodeAddress forms t ≠ .ok r' := by
  rintro hok
  obtain ⟨a, u, b, hs, rfl⟩ := hedit
  obtain ⟨hcase, h'⟩ := decodeAddress_eq_ok.1 hok
  have hlength := length_encoded h
  rw [hs, length_append, length_cons] at hlength
  have hlength' := length_encoded h'
  rcases hcase with hlower | hupper
  · rw [hlower, length_append] at hlength'
    omega
  · -- the first letter is gone, and the case of the rest changes no length
    have ha : a = [] := by
      by_contra hne
      exact upper_ne (mem_append_left b (mem_of_append h hs hne)) hupper
    subst ha
    have hascii : Ascii b := fun x hx =>
      (lowerPlain_encoded h).ascii x (by rw [hs]; exact mem_cons_of_mem u hx)
    rw [nil_append, forms.lower_ascii b hascii, length_map] at hlength'
    rw [length_nil] at hlength
    omega

theorem insertion_rejected (hedit : Insertion s t) : decodeAddress forms t ≠ .ok r' := by
  rintro hok
  obtain ⟨a, b, c, rfl, hc, rfl⟩ := hedit
  obtain ⟨hcase, h'⟩ := decodeAddress_eq_ok.1 hok
  have hpos := hc.ne_nil
  rcases hcase with hlower | hupper
  · have hlength := length_encoded h
    have hlength' := length_encoded h'
    rw [hlower, length_append, length_append] at hlength'
    rw [length_append] at hlength
    omega
  · refine upper_ne ?_ hupper
    obtain ⟨rest, hcons⟩ := encoded_cons h
    have hmem : unit 'l' ∈ a ++ b := by
      rw [hcons]
      exact mem_cons_self
    simp only [mem_append] at hmem ⊢
    tauto

theorem digit_rejected (hedit : DigitSubstitution s t) : decodeAddress forms t ≠ .ok r' := by
  rintro hok
  obtain ⟨a, u, b, v, hs, hdigit, _, hne, rfl⟩ := hedit
  obtain ⟨hcase, h'⟩ := decodeAddress_eq_ok.1 hok
  rcases hcase with hlower | hupper
  · rw [hlower] at h'
    exact hne (encoded_one_error h hs h').symm
  · have ha : a ≠ [] := ne_nil_of_length_pos (by omega)
    exact upper_ne (mem_append_left _ (mem_of_append h hs ha)) hupper

theorem substitution_same (hedit : Substitution s t) (hok : decodeAddress forms t = .ok r') :
    r' = r := by
  obtain ⟨a, u, b, c, hs, hc, rfl⟩ := hedit
  obtain ⟨hcase, h'⟩ := decodeAddress_eq_ok.1 hok
  have hlength := length_encoded h
  rw [hs, length_append, length_cons] at hlength
  have hlength' := length_encoded h'
  rcases hcase with hlower | hupper
  · rw [hlower] at h' hlength'
    rw [length_append, length_append] at hlength'
    obtain ⟨v, rfl⟩ : ∃ v, c = [v] := length_eq_one_iff.1 (by omega)
    rw [append_assoc, singleton_append] at h'
    obtain rfl := encoded_one_error h hs h'
    rw [← hs] at h'
    exact encodeAddress_inj h h'
  · have ha : a = [] := by
      by_contra hne
      refine upper_ne (mem_append_left b (mem_append_left c ?_)) hupper
      exact mem_of_append h hs hne
    subst ha
    -- what stands for the first letter becomes it in lower case
    have hplain : LowerPlain b := fun x hx =>
      lowerPlain_encoded h x (by rw [hs]; exact mem_cons_of_mem u hx)
    obtain ⟨c', hc'⟩ := forms.lower_append c b hplain.ascii
    rw [← forms.lower_ascii b hplain.ascii, hplain.lower] at hc'
    rw [nil_append, hc'] at h' hlength'
    rw [length_nil] at hlength
    rw [length_append] at hlength'
    obtain ⟨v, rfl⟩ : ∃ v, c' = [v] := length_eq_one_iff.1 (by omega)
    obtain ⟨rest, hcons⟩ := encoded_cons h
    obtain ⟨rest', hcons'⟩ := encoded_cons h'
    rw [hs, nil_append, List.cons.injEq] at hcons
    rw [singleton_append, List.cons.injEq] at hcons'
    rw [singleton_append, hcons'.1, ← hcons.1, ← nil_append (u :: b), ← hs] at h'
    exact encodeAddress_inj h h'

end Edits

/-- Encoded addresses are read back, as are raw ones, in either case; what is read is, in lower
    case, the encoding of what it is read as; a single edit never makes another address of
    one, and is refused unless it is a substitution before the digits or of a foreign
    character. -/
theorem addressCodec_single_edit (forms : CaseMapping) :
    (∀ r, hexOf 64 r → ∃ s, encodeAddress r = .ok s ∧ decodeAddress forms s = .ok r ∧
      ∀ t ∈ [r, forms.upper r, s, forms.upper s], normalizeAddress forms t = .ok r) ∧
    (∀ s r, decodeAddress forms s = .ok r → encodeAddress r = .ok (forms.lower s)) ∧
    (∀ r s t, encodeAddress r = .ok s → Substitution s t ∨ Deletion s t ∨ Insertion s t →
      ∀ r', decodeAddress forms t = .ok r' → r' = r) ∧
    ∀ r s t, encodeAddress r = .ok s → Deletion s t ∨ Insertion s t ∨ DigitSubstitution s t →
      ∀ r', decodeAddress forms t ≠ .ok r' := by
  refine ⟨fun r hr => ?_, fun s r h => (decodeAddress_eq_ok.1 h).2, fun r s t h hedit r' hok => ?_,
    fun r s t h hedit r' => ?_⟩
  · obtain ⟨s, hs⟩ := exists_encodeAddress hr
    refine ⟨s, hs, decodeAddress_encoded hs forms, ?_⟩
    have hraw := lowerPlain_raw hr
    have hplain := lowerPlain_encoded hs
    simp only [forall_mem_cons, not_mem_nil, false_imp_iff, implies_true, and_true]
    exact ⟨normalizeAddress_raw hraw.trim hr (hraw.lower forms),
      normalizeAddress_raw (hraw.trim_upper forms) hr (hraw.lower_upper forms),
      normalizeAddress_encoded hplain.trim hs (hplain.lower forms) (.inl (hplain.lower forms)),
      normalizeAddress_encoded (hplain.trim_upper forms) hs (hplain.lower_upper forms)
        (.inr (hplain.upper_upper forms))⟩
  · rcases hedit with hedit | hedit | hedit
    · exact substitution_same h hedit hok
    · exact absurd hok (deletion_rejected h hedit)
    · exact absurd hok (insertion_rejected h hedit)
  · rcases hedit with hedit | hedit | hedit
    · exact deletion_rejected h hedit
    · exact insertion_rejected h hedit
    · exact digit_rejected h hedit

end Plainchain
