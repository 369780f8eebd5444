import Plainchain.Lib.Check
import Plainchain.Lib.Forms
import Plainchain.Lib.Remainder

/-!
# Bech32m

The encoding below the addresses, from `src/ledger/address.ts`: digits of five bits, written
in an alphabet of 32 characters after a readable part, with six digits of checksum; and the
regrouping of bytes into such digits.

* `convertBits_pad`, `convertBits_noPad`: regrouping keeps the bits. The accumulator is a
  32-bit integer that keeps wrapping around; the bits still to be written are its lowest;
* `bech32mDecode_eq_ok`: what is decoded is what `bech32mEncode` writes, in either case;
* `bech32m_one_error`: two encodings do not differ in one digit.
-/

namespace Plainchain

open Js Bits List

/-! ## Definitions -/

def charset : Text := lit "qpzry9x8gf2tvdw0s3jn54khce6mua7l"

def bech32mConst : ℕ := 0x2bc830a3

def generator : List ℕ := [0x3b6a57b2, 0x26508e6d, 0x1ea119fa, 0x3d4233dd, 0x2a1462b3]

/-- A round of the loop of `polymod`. The register has 30 bits (`polymod_lt`), so that the
    32-bit operations neither wrap nor change a sign. -/
def polymodStep (chk v : ℕ) : ℕ :=
  let top := chk >>> 25
  generator.zipIdx.foldl (fun chk g => if (top >>> g.2) &&& 1 ≠ 0 then chk ^^^ g.1 else chk)
    (((chk &&& 0x1ffffff) <<< 5) ^^^ v)

def polymod (values : List ℕ) : ℕ := values.foldl polymodStep 1

/-- `c.charCodeAt(0)`. -/
def charCode (c : Text) : ℕ := (c.headD 0).toNat

def hrpExpand (hrp : Text) : List ℕ :=
  ((characters hrp).map fun c => charCode c >>> 5) ++ 0 ::
    (characters hrp).map fun c => charCode c &&& 31

/-- The digits of the checksum. -/
def checksumDigits (mod : ℕ) : List ℕ := (List.range 6).map fun i => (mod >>> (5 * (5 - i))) &&& 31

def bech32mEncode (hrp : Text) (data : List ℕ) : Text :=
  let mod := polymod (hrpExpand hrp ++ data ++ [0, 0, 0, 0, 0, 0]) ^^^ bech32mConst
  -- what is not in the alphabet is `undefined`, and joined as nothing
  hrp ++ unit '1' :: (data ++ checksumDigits mod).filterMap (charset[·]?)

/-- `CHARSET.indexOf(c)`, for a character; those of the alphabet have one unit. -/
def charsetIndex : Text → Option ℕ
  | [u] => if u ∈ charset then some (charset.idxOf u) else none
  | _ => none

/-- The loop that reads the digits. -/
def charsetValues : List Text → Except Text (List ℕ) :=
  readAll charsetIndex fun c => lit "address contains an invalid character \"" ++ c ++ lit "\""

def bech32mDecode (forms : CaseMapping) (input : Text) : Except Text (Text × List ℕ) := do
  let lower := forms.lower input
  reject (lower ≠ input ∧ forms.upper input ≠ input)
    (lit "address must not mix upper and lower case")
  match lastIndexOf (unit '1') lower with
  | none => .error (lit "address is missing its separator or checksum")
  | some sep => do
    reject (sep < 1 ∨ sep + 7 > lower.length) (lit "address is missing its separator or checksum")
    let hrp := lower.take sep
    let data ← charsetValues (characters (lower.drop (sep + 1)))
    reject (polymod (hrpExpand hrp ++ data) ≠ bech32mConst)
      (lit "address checksum does not match (typo?)")
    .ok (hrp, data.take (data.length - 6))

/-- The variables of the loop of `convertBits`, with the accumulator as an unsigned number. -/
structure Regroup where
  acc : ℕ
  bits : ℕ
  out : List ℕ

/-- The inner loop of `convertBits`. A round takes at least a bit, so as many rounds as bits
    are enough (`drain_spec`). -/
def drain (toBits acc : ℕ) : (fuel bits : ℕ) → (out : List ℕ) → ℕ × List ℕ
  | 0, bits, out => (bits, out)
  | fuel + 1, bits, out =>
    if toBits ≤ bits then
      drain toBits acc fuel (bits - toBits)
        (out ++ [(acc >>> (bits - toBits)) &&& ((1 <<< toBits) - 1)])
    else (bits, out)

/-- A round of the outer loop. -/
def Regroup.next (fromBits toBits : ℕ) (s : Regroup) (value : ℕ) : Regroup :=
  let acc := ((s.acc <<< fromBits) % 2 ^ 32) ||| value
  let r := drain toBits acc (s.bits + fromBits) (s.bits + fromBits) s.out
  ⟨acc, r.1, r.2⟩

def convertBits (data : List ℕ) (fromBits toBits : ℕ) (pad : Bool) : Except Text (List ℕ) :=
  let s := data.foldl (Regroup.next fromBits toBits) ⟨0, 0, []⟩
  let rest := ((s.acc <<< (toBits - s.bits)) % 2 ^ 32) &&& ((1 <<< toBits) - 1)
  if pad then .ok (if 0 < s.bits then s.out ++ [rest] else s.out)
  else if fromBits ≤ s.bits ∨ rest ≠ 0 then .error (lit "address payload has invalid padding")
  else .ok s.out

/-! ## Regrouping -/

theorem bitsOf_mask (w n : ℕ) : bitsOf w (n &&& ((1 <<< w) - 1)) = bitsOf w n := by
  rw [Nat.one_shiftLeft, Nat.and_two_pow_sub_one_eq_mod, bitsOf_mod le_rfl]

theorem mask_lt (w n : ℕ) : n &&& ((1 <<< w) - 1) < 2 ^ w := by
  rw [Nat.one_shiftLeft, Nat.and_two_pow_sub_one_eq_mod]
  exact Nat.mod_lt n (Nat.two_pow_pos w)

theorem drain_spec (acc : ℕ) {toBits fuel bits : ℕ} {out : List ℕ} (hto : 0 < toBits)
    (hfuel : bits ≤ fuel) (hout : ∀ o ∈ out, o < 2 ^ toBits) :
    (drain toBits acc fuel bits out).1 < toBits ∧
    (∀ o ∈ (drain toBits acc fuel bits out).2, o < 2 ^ toBits) ∧
    groupBits toBits (drain toBits acc fuel bits out).2 ++
        bitsOf (drain toBits acc fuel bits out).1 acc =
      groupBits toBits out ++ bitsOf bits acc := by
  induction fuel generalizing bits out with
  | zero =>
    rw [Nat.le_zero.1 hfuel]
    exact ⟨hto, hout, rfl⟩
  | succ fuel ih =>
    rw [drain]
    split_ifs with h
    · have hout' : ∀ o ∈ out ++ [(acc >>> (bits - toBits)) &&& ((1 <<< toBits) - 1)],
          o < 2 ^ toBits := by
        rw [forall_mem_append, forall_mem_singleton]
        exact ⟨hout, mask_lt _ _⟩
      have hfuel' : bits - toBits ≤ fuel := by omega
      obtain ⟨hlt, hlts, hsame⟩ := ih hfuel' hout'
      refine ⟨hlt, hlts, hsame.trans ?_⟩
      have hsplit := bitsOf_add toBits (bits - toBits) acc
      rw [Nat.add_sub_cancel' h] at hsplit
      rw [groupBits_append, groupBits_cons, groupBits_nil, bitsOf_mask, hsplit, append_nil,
        append_assoc]
    · exact ⟨not_le.1 h, hout, rfl⟩

/-- What the loop keeps: the digits written and the bits left over are the bits read. -/
structure Regroup.Holds (fromBits toBits : ℕ) (data : List ℕ) (s : Regroup) : Prop where
  bits_lt : s.bits < toBits
  out_lt : ∀ o ∈ s.out, o < 2 ^ toBits
  same : groupBits toBits s.out ++ bitsOf s.bits s.acc = groupBits fromBits data

variable {data vs : List ℕ} {hrp : Text} {u : UInt16}

section Regrouping

variable {fromBits toBits : ℕ} (hto : 0 < toBits) (hwidth : fromBits + toBits ≤ 32)

include hto hwidth

theorem Regroup.Holds.next {s : Regroup} {value : ℕ} (h : s.Holds fromBits toBits data)
    (hvalue : value < 2 ^ fromBits) :
    (s.next fromBits toBits value).Holds fromBits toBits (data ++ [value]) := by
  have hle : s.bits + fromBits ≤ 32 := by have := h.bits_lt; omega
  have hacc : bitsOf (s.bits + fromBits) (((s.acc <<< fromBits) % 2 ^ 32) ||| value) =
      bitsOf s.bits s.acc ++ bitsOf fromBits value := by
    rw [← bitsOf_or s.acc hvalue]
    refine bitsOf_congr fun i hi => ?_
    rw [Nat.testBit_or, Nat.testBit_or, Nat.testBit_mod_two_pow, decide_eq_true (hi.trans_le hle),
      Bool.true_and]
  obtain ⟨hlt, hlts, hsame⟩ := drain_spec (((s.acc <<< fromBits) % 2 ^ 32) ||| value) hto
    (le_refl (s.bits + fromBits)) h.out_lt
  refine ⟨hlt, hlts, hsame.trans ?_⟩
  rw [hacc, ← append_assoc, h.same, groupBits_append, groupBits_cons, groupBits_nil,
    append_nil]

theorem Regroup.holds_foldl (hdata : ∀ v ∈ data, v < 2 ^ fromBits) :
    (data.foldl (Regroup.next fromBits toBits) ⟨0, 0, []⟩).Holds fromBits toBits data := by
  induction data using List.reverseRecOn with
  | nil => exact ⟨hto, by simp, rfl⟩
  | append_singleton data v ih =>
    rw [forall_mem_append, forall_mem_singleton] at hdata
    rw [foldl_append]
    exact (ih hdata.1).next hto hwidth hdata.2

omit hto in
/-- What is written at the end are the bits left over, with zeros after them. -/
theorem bitsOf_rest (acc : ℕ) {bits : ℕ} (hbits : bits < toBits) :
    bitsOf toBits (((acc <<< (toBits - bits)) % 2 ^ 32) &&& ((1 <<< toBits) - 1)) =
      bitsOf bits acc ++ List.replicate (toBits - bits) false := by
  have hshift := bitsOf_or (a := bits) acc (Nat.two_pow_pos (toBits - bits))
  rw [Nat.or_zero, bitsOf_zero, Nat.add_sub_cancel' hbits.le] at hshift
  rw [bitsOf_mask, bitsOf_mod (by omega), hshift]

/-- With padding the digits have the bits of the data, and zeros. -/
theorem convertBits_pad (hdata : ∀ v ∈ data, v < 2 ^ fromBits) :
    ∃ out k, convertBits data fromBits toBits true = .ok out ∧ k < toBits ∧
      (∀ o ∈ out, o < 2 ^ toBits) ∧
      groupBits toBits out = groupBits fromBits data ++ List.replicate k false := by
  have h := Regroup.holds_foldl hto hwidth hdata
  rw [convertBits]
  set s := data.foldl (Regroup.next fromBits toBits) ⟨0, 0, []⟩
  by_cases hbits : 0 < s.bits
  · refine ⟨_, toBits - s.bits, by rw [if_pos rfl, if_pos hbits], by omega, ?_, ?_⟩
    · rw [forall_mem_append, forall_mem_singleton]
      exact ⟨h.out_lt, mask_lt _ _⟩
    · rw [groupBits_append, groupBits_cons, groupBits_nil, append_nil,
        bitsOf_rest hwidth s.acc h.bits_lt, ← append_assoc, h.same]
  · refine ⟨s.out, 0, by rw [if_pos rfl, if_neg hbits], hto, h.out_lt, ?_⟩
    have hzero : s.bits = 0 := by omega
    have hsame := h.same
    rw [hzero, bitsOf, append_nil] at hsame
    rw [hsame, replicate_zero, append_nil]

/-- Without padding the data must have the bits of the digits, and less than a digit of zeros. -/
theorem convertBits_noPad {out : List ℕ} (hdata : ∀ v ∈ data, v < 2 ^ fromBits) :
    convertBits data fromBits toBits false = .ok out ↔
      (∀ o ∈ out, o < 2 ^ toBits) ∧ ∃ k < fromBits, k < toBits ∧
        groupBits fromBits data = groupBits toBits out ++ List.replicate k false := by
  have h := Regroup.holds_foldl hto hwidth hdata
  simp only [convertBits, Bool.false_eq_true, if_false]
  set s := data.foldl (Regroup.next fromBits toBits) ⟨0, 0, []⟩
  have hrest : ((s.acc <<< (toBits - s.bits)) % 2 ^ 32) &&& ((1 <<< toBits) - 1) = 0 ↔
      bitsOf s.bits s.acc = List.replicate s.bits false := by
    have hbits := bitsOf_rest hwidth s.acc h.bits_lt
    have hzeros : List.replicate toBits false =
        List.replicate s.bits false ++ List.replicate (toBits - s.bits) false := by
      rw [replicate_append_replicate, Nat.add_sub_cancel' h.bits_lt.le]
    constructor
    · intro hzero
      rw [hzero, bitsOf_zero, hzeros] at hbits
      exact (append_cancel_right hbits).symm
    · intro hsame
      rw [hsame, ← hzeros, ← bitsOf_zero] at hbits
      rw [← valueOf_bitsOf_of_lt (mask_lt toBits _), hbits,
        valueOf_bitsOf_of_lt (Nat.two_pow_pos toBits)]
  constructor
  · intro hok
    split_ifs at hok with hbad
    rw [not_or, not_le, not_not, hrest] at hbad
    obtain rfl := Except.ok.inj hok
    exact ⟨h.out_lt, s.bits, hbad.1, h.bits_lt, by rw [← h.same, hbad.2]⟩
  · rintro ⟨hout, k, hkfrom, hkto, hsame⟩
    -- the number of bits tells how many of them are left over
    have hboth := h.same.trans hsame
    have hcount := congrArg List.length hboth
    simp only [length_append, length_groupBits, length_bitsOf, length_replicate]
      at hcount
    have hk : s.bits = k := by
      have hmod := congrArg (· % toBits) hcount
      simpa [Nat.mod_eq_of_lt h.bits_lt, Nat.mod_eq_of_lt hkto] using hmod
    have hlength : s.out.length = out.length := by
      rw [hk, Nat.add_right_cancel_iff] at hcount
      exact Nat.eq_of_mul_eq_mul_left hto hcount
    obtain ⟨hdigits, hzeros⟩ := append_inj hboth (by
      rw [length_groupBits, length_groupBits, hlength])
    rw [if_neg, groupBits_inj h.out_lt hout hlength hdigits]
    rw [not_or, not_le, not_not, hrest, hk]
    rw [hk] at hzeros
    exact ⟨hkfrom, hzeros⟩

end Regrouping

/-! ## The checksum -/

theorem polymodStep_eq : polymodStep = Remainder.step generator 5 25 := by
  funext chk v
  have hmask : chk &&& 0x1ffffff = chk % 2 ^ 25 := Nat.and_two_pow_sub_one_eq_mod chk 25
  have hbit : ∀ top i : ℕ, (top >>> i) &&& 1 ≠ 0 ↔ top.testBit i := fun top i => by
    rw [Nat.testBit, Nat.and_comm, bne_iff_ne]
  simp only [polymodStep, Remainder.step, Remainder.feedback, hmask, hbit]

theorem polymod_eq (values : List ℕ) :
    polymod values = Remainder.run generator 5 25 1 values := by
  rw [polymod, polymodStep_eq, Remainder.run]

def bech32Generators : Remainder.Generators 5 25 where
  list := generator
  lt := by decide
  kernel := by decide

theorem hrpExpand_lt (hrp : Text) : ∀ v ∈ hrpExpand hrp, v < 2 ^ (25 + 5) := by
  have hcode : ∀ c, charCode c < 2 ^ 16 := fun c => (c.headD 0).toNat_lt
  rw [hrpExpand, forall_mem_append, forall_mem_cons]
  refine ⟨forall_mem_map.2 fun c _ => ?_, by decide, forall_mem_map.2 fun c _ => ?_⟩
  · exact (Nat.shiftRight_le _ _).trans_lt ((hcode c).trans (by decide))
  · exact Nat.and_le_right.trans_lt (by decide)

/-- The register of `polymod` has 30 bits. -/
theorem polymod_lt {values : List ℕ} (h : ∀ v ∈ values, v < 2 ^ (25 + 5)) :
    polymod values < 2 ^ (25 + 5) := by
  rw [polymod_eq]
  exact Remainder.run_lt bech32Generators (by decide) h

theorem groupBits_checksumDigits (mod : ℕ) : groupBits 5 (checksumDigits mod) = bitsOf 30 mod := by
  have hdigit : ∀ m, bitsOf 5 (m &&& 31) = bitsOf 5 m := bitsOf_mask 5
  rw [bitsOf_add 5 25, bitsOf_add 5 20, bitsOf_add 5 15, bitsOf_add 5 10, bitsOf_add 5 5]
  simp only [checksumDigits, range_succ, range_zero, map_cons, map_nil,
    nil_append, cons_append, groupBits_cons, groupBits_nil, hdigit]
  simp

theorem checksumDigits_lt (mod : ℕ) : ∀ v ∈ checksumDigits mod, v < 2 ^ 5 :=
  forall_mem_map.2 fun _ _ => mask_lt 5 _

@[simp] theorem length_checksumDigits (mod : ℕ) : (checksumDigits mod).length = 6 := rfl

/-- What is missing to the constant. -/
def checksumOf (hrp : Text) (data : List ℕ) : ℕ :=
  polymod (hrpExpand hrp ++ data ++ [0, 0, 0, 0, 0, 0]) ^^^ bech32mConst

/-- There is one checksum for given data. -/
theorem polymod_append_iff {cs : List ℕ} (hdata : ∀ v ∈ data, v < 2 ^ 5) (hcs : ∀ v ∈ cs, v < 2 ^ 5)
    (hlength : cs.length = 6) :
    polymod (hrpExpand hrp ++ (data ++ cs)) = bech32mConst ↔
      cs = checksumDigits (checksumOf hrp data) := by
  have hlt : checksumOf hrp data < 2 ^ 30 := by
    refine Nat.xor_lt_two_pow (polymod_lt ?_) (by decide)
    rw [forall_mem_append, forall_mem_append]
    exact ⟨⟨hrpExpand_lt hrp, fun v hv => (hdata v hv).trans (by decide)⟩, by decide⟩
  have hiff : polymod (hrpExpand hrp ++ (data ++ cs)) = bech32mConst ↔
      valueOf (groupBits 5 cs) = checksumOf hrp data := by
    rw [polymod_eq, ← append_assoc,
      Remainder.run_append_eq_iff hcs (by rw [hlength]), hlength, ← polymod_eq]
    rfl
  rw [hiff]
  constructor
  · intro h
    refine groupBits_inj hcs (checksumDigits_lt _) (by rw [hlength, length_checksumDigits]) ?_
    rw [groupBits_checksumDigits, ← h]
    have hbits := bitsOf_valueOf (groupBits 5 cs)
    rw [length_groupBits, hlength] at hbits
    exact hbits.symm
  · rintro rfl
    rw [groupBits_checksumDigits, valueOf_bitsOf_of_lt hlt]

/-! ## The alphabet -/

/-- `CHARSET[v]`, for a digit. -/
def charsetUnit (v : ℕ) : UInt16 := charset.getD v 0

theorem charsetUnit_mem : ∀ v < 2 ^ 5, charsetUnit v ∈ charset := by decide

theorem idxOf_charsetUnit : ∀ v < 2 ^ 5, charset.idxOf (charsetUnit v) = v := by decide

theorem exists_charsetUnit (hu : u ∈ charset) : ∃ v < 2 ^ 5, charsetUnit v = u := by
  obtain ⟨v, hv, rfl⟩ := getElem_of_mem hu
  exact ⟨v, hv, getD_eq_getElem _ _ hv⟩

/-- The characters of the alphabet are in lower case, and none is the separator. -/
theorem charset_plain (hu : u ∈ charset) :
    u.toNat < 128 ∧ isUpperLetter u = false ∧ u ≠ unit '1' := by
  have hdigits : ∀ v < 2 ^ 5, (charsetUnit v).toNat < 128 ∧
      isUpperLetter (charsetUnit v) = false ∧ charsetUnit v ≠ unit '1' := by decide
  obtain ⟨v, hv, rfl⟩ := exists_charsetUnit hu
  exact hdigits v hv

theorem charsetUnit_idxOf (hu : u ∈ charset) :
    charset.idxOf u < 2 ^ 5 ∧ charsetUnit (charset.idxOf u) = u := by
  obtain ⟨v, hv, rfl⟩ := exists_charsetUnit hu
  rw [idxOf_charsetUnit v hv]
  exact ⟨hv, rfl⟩

theorem filterMap_charset (h : ∀ v ∈ vs, v < 2 ^ 5) :
    vs.filterMap (charset[·]?) = vs.map charsetUnit := by
  have hdigit : ∀ v < 2 ^ 5, charset[v]? = some (charsetUnit v) := by decide
  rw [← filterMap_eq_map]
  exact filterMap_congr fun v hv => hdigit v (h v hv)

theorem map_charsetUnit_mem (h : ∀ v ∈ vs, v < 2 ^ 5) : ∀ u ∈ vs.map charsetUnit, u ∈ charset :=
  forall_mem_map.2 fun v hv => charsetUnit_mem v (h v hv)

/-- Digits are told by their characters. -/
theorem map_charsetUnit_inj {us : List ℕ} (hvs : ∀ v ∈ vs, v < 2 ^ 5) (hus : ∀ v ∈ us, v < 2 ^ 5)
    (h : vs.map charsetUnit = us.map charsetUnit) : vs = us := by
  have hback : ∀ {l : List ℕ}, (∀ v ∈ l, v < 2 ^ 5) →
      (l.map charsetUnit).map charset.idxOf = l := fun hl => by
    rw [map_map]
    exact (map_congr_left fun v hv => idxOf_charsetUnit v (hl v hv)).trans (map_id _)
  rw [← hback hvs, h, hback hus]

theorem charsetIndex_eq_some {c : Text} {v : ℕ} :
    charsetIndex c = some v ↔ v < 2 ^ 5 ∧ c = [charsetUnit v] := by
  constructor
  · intro h
    rcases c with _ | ⟨u, _ | ⟨_, _⟩⟩
    · cases h
    · rw [charsetIndex, Option.ite_none_right_eq_some, Option.some.injEq] at h
      obtain ⟨hu, rfl⟩ := h
      obtain ⟨hlt, hunit⟩ := charsetUnit_idxOf hu
      exact ⟨hlt, by rw [hunit]⟩
    · cases h
  · rintro ⟨hv, rfl⟩
    rw [charsetIndex, if_pos (charsetUnit_mem v hv), idxOf_charsetUnit v hv]

theorem charsetValues_eq_ok {cs : List Text} :
    charsetValues cs = .ok data ↔
      (∀ v ∈ data, v < 2 ^ 5) ∧ cs = data.map fun v => [charsetUnit v] :=
  readAll_eq_ok fun _ _ => charsetIndex_eq_some

/-- The loop over the characters of a text. -/
theorem charsetValues_characters {t : Text} :
    charsetValues (characters t) = .ok data ↔
      (∀ v ∈ data, v < 2 ^ 5) ∧ t = data.map charsetUnit := by
  rw [charsetValues_eq_ok]
  refine and_congr_right fun hdata => ⟨fun h => ?_, ?_⟩
  · have hflat := congrArg List.flatten h
    rw [flatten_characters] at hflat
    rw [hflat, ← flatMap_def, map_eq_flatMap]
  · rintro rfl
    have hascii : Ascii (data.map charsetUnit) := fun u hu =>
      (charset_plain (map_charsetUnit_mem hdata u hu)).1
    rw [characters_of_ascii hascii, map_map]
    rfl

/-! ## Encoding and decoding -/

/-- The digits of an encoding. -/
def codeword (hrp : Text) (data : List ℕ) : List ℕ := data ++ checksumDigits (checksumOf hrp data)

section Codeword

variable (hrp : Text) {data : List ℕ} (hdata : ∀ v ∈ data, v < 2 ^ 5)

theorem length_codeword (data : List ℕ) : (codeword hrp data).length = data.length + 6 := by
  rw [codeword, length_append, length_checksumDigits]

include hdata

theorem codeword_lt : ∀ v ∈ codeword hrp data, v < 2 ^ 5 :=
  forall_mem_append.2 ⟨hdata, checksumDigits_lt _⟩

theorem polymod_codeword : polymod (hrpExpand hrp ++ codeword hrp data) = bech32mConst :=
  (polymod_append_iff hdata (checksumDigits_lt _) (length_checksumDigits _)).2 rfl

theorem bech32mEncode_eq :
    bech32mEncode hrp data = hrp ++ unit '1' :: (codeword hrp data).map charsetUnit := by
  rw [bech32mEncode, ← checksumOf, ← codeword, filterMap_charset (codeword_lt hrp hdata)]

end Codeword

/-- Digits with the remainder of an encoding are one. -/
theorem eq_codeword {values : List ℕ} (hvalues : ∀ v ∈ values, v < 2 ^ 5)
    (hlength : 6 ≤ values.length) (h : polymod (hrpExpand hrp ++ values) = bech32mConst) :
    values = codeword hrp (values.take (values.length - 6)) := by
  have hcs : (values.drop (values.length - 6)).length = 6 := by
    rw [length_drop]
    omega
  rw [← take_append_drop (values.length - 6) values, polymod_append_iff
    (fun v hv => hvalues v (mem_of_mem_take hv))
    (fun v hv => hvalues v (mem_of_mem_drop hv)) hcs] at h
  rw [codeword, ← h, take_append_drop]

theorem drop_append_cons {c : UInt16} (a b : Text) : (a ++ c :: b).drop (a.length + 1) = b := by
  rw [← drop_drop, drop_left, drop_succ_cons, drop_zero]

/-- A text is decoded if it is in one case and, in lower case, an encoding. -/
theorem bech32mDecode_eq_ok {forms : CaseMapping} {s : Text} :
    bech32mDecode forms s = .ok (hrp, data) ↔
      (forms.lower s = s ∨ forms.upper s = s) ∧ hrp ≠ [] ∧ (∀ v ∈ data, v < 2 ^ 5) ∧
        forms.lower s = bech32mEncode hrp data := by
  have hcase : reject (forms.lower s ≠ s ∧ forms.upper s ≠ s)
      (lit "address must not mix upper and lower case") = .ok () ↔
      (forms.lower s = s ∨ forms.upper s = s) := by
    rw [reject_eq_ok]
    tauto
  rw [bech32mDecode, bind_eq_ok]
  constructor
  · rintro ⟨_, hok, h⟩
    cases hsep : lastIndexOf (unit '1') (forms.lower s) with
    | none => simp [hsep] at h
    | some sep =>
      simp only [hsep, bind_eq_ok] at h
      obtain ⟨_, hsize, values, hvalues, _, hmod, hpair⟩ := h
      obtain ⟨a, b, hlower, _, rfl⟩ := lastIndexOf_eq_some hsep
      rw [reject_eq_ok, hlower, length_append, length_cons, not_or] at hsize
      rw [hlower, drop_append_cons, charsetValues_characters] at hvalues
      rw [reject_eq_ok, not_not, hlower, take_left] at hmod
      rw [hlower, take_left, Except.ok.injEq, Prod.mk.injEq] at hpair
      obtain ⟨rfl, hdata⟩ := hpair
      obtain ⟨hlt, rfl⟩ := hvalues
      rw [length_map] at hsize
      have hdigits : ∀ v ∈ data, v < 2 ^ 5 := by
        rw [← hdata]
        exact fun v hv => hlt v (mem_of_mem_take hv)
      refine ⟨hcase.1 hok, ne_nil_of_length_pos (by omega), hdigits, ?_⟩
      have hcodeword := eq_codeword hlt (by omega) hmod
      rw [hdata] at hcodeword
      rw [hlower, bech32mEncode_eq _ hdigits, ← hcodeword]
  · rintro ⟨hone, hne, hdata, hlower⟩
    have hnot : unit '1' ∉ (codeword hrp data).map charsetUnit :=
      fun hmem => (charset_plain (map_charsetUnit_mem (codeword_lt hrp hdata) _ hmem)).2.2 rfl
    have hpos := length_pos_iff.2 hne
    refine ⟨(), hcase.2 hone, ?_⟩
    rw [bech32mEncode_eq _ hdata] at hlower
    simp only [hlower, lastIndexOf_append _ hnot, take_left, drop_append_cons, bind_eq_ok]
    refine ⟨(), ?_, _, charsetValues_characters.2 ⟨codeword_lt hrp hdata, rfl⟩, (), ?_, ?_⟩
    · rw [reject_eq_ok, length_append, length_cons, length_map, length_codeword]
      omega
    · rw [reject_eq_ok, not_not, polymod_codeword hrp hdata]
    · rw [length_codeword, Nat.add_sub_cancel, codeword, take_left]

/-! ## One wrong character -/

/-- Encodings with one readable part do not differ in one place. -/
theorem bech32m_one_error {a b : Text} {data' : List ℕ} {v : UInt16} (hdata : ∀ d ∈ data, d < 2 ^ 5)
    (hdata' : ∀ d ∈ data', d < 2 ^ 5) (h : bech32mEncode hrp data = a ++ u :: b)
    (h' : bech32mEncode hrp data' = a ++ v :: b) : u = v := by
  rw [bech32mEncode_eq _ hdata, List.append_cons] at h
  rw [bech32mEncode_eq _ hdata', List.append_cons] at h'
  rcases lt_or_ge a.length (hrp ++ [unit '1']).length with hshort | hlong
  · -- both are the same character of the readable part
    have hu : (hrp ++ [unit '1'])[a.length]? = some u := by
      rw [← getElem?_append_left hshort, h]
      simp
    have hv : (hrp ++ [unit '1'])[a.length]? = some v := by
      rw [← getElem?_append_left hshort, h']
      simp
    exact Option.some.inj (hu.symm.trans hv)
  · obtain ⟨c, rfl⟩ : hrp ++ [unit '1'] <+: a :=
      prefix_of_prefix_length_le ⟨_, h⟩ ⟨u :: b, rfl⟩ hlong
    rw [append_assoc _ c, append_cancel_left_eq, map_eq_append_iff] at h h'
    obtain ⟨xs, rest, hcode, hxs, hrest⟩ := h
    obtain ⟨x, ys, rfl, hx, hys⟩ := map_eq_cons_iff.1 hrest
    obtain ⟨xs', rest', hcode', hxs', hrest'⟩ := h'
    obtain ⟨x', ys', rfl, hx', hys'⟩ := map_eq_cons_iff.1 hrest'
    have hlt := codeword_lt hrp hdata
    have hlt' := codeword_lt hrp hdata'
    have hmod := polymod_codeword hrp hdata
    have hmod' := polymod_codeword hrp hdata'
    rw [hcode, forall_mem_append, forall_mem_cons] at hlt
    rw [hcode', forall_mem_append, forall_mem_cons] at hlt'
    obtain rfl : xs = xs' := map_charsetUnit_inj hlt.1 hlt'.1 (hxs.trans hxs'.symm)
    obtain rfl : ys = ys' := map_charsetUnit_inj hlt.2.2 hlt'.2.2 (hys.trans hys'.symm)
    rw [hcode, polymod_eq, ← append_assoc] at hmod
    rw [hcode', polymod_eq, ← append_assoc] at hmod'
    have hsame : x = x' := Remainder.run_one_error bech32Generators (hlt.2.1.trans (by decide))
      (hlt'.2.1.trans (by decide)) (fun y hy => (hlt.2.2 y hy).trans (by decide))
      (hmod.trans hmod'.symm)
    rw [← hx, ← hx', hsame]

end Plainchain
