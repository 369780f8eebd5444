import Plainchain.Lib.Hex

/-!
# Bytes in hex

`Buffer.from(text, "hex")` and `buffer.toString("hex")`: hex digits in pairs are bytes, in
lower case in one way.
-/

namespace Js

open List

/-- `Buffer.from(t, "hex")`, which stops at the first pair that is not one of hex digits. -/
def hexBytes : Text → List UInt8
  | u :: v :: t =>
    match hexDigitValue u, hexDigitValue v with
    | some a, some b => UInt8.ofNat (16 * a + b) :: hexBytes t
    | _, _ => []
  | _ => []

/-- A lower-case hex digit. -/
def hexChar (n : ℕ) : UInt16 := unit n.digitChar

/-- `buffer.toString("hex")`. -/
def bytesHex (bytes : List UInt8) : Text :=
  bytes.flatMap fun b => [hexChar (b.toNat / 16), hexChar (b.toNat % 16)]

theorem hexDigitValue_hexChar : ∀ n < 16, hexDigitValue (hexChar n) = some n := by decide

theorem isHexDigit_hexChar : ∀ n < 16, isHexDigit (hexChar n) := by decide

theorem hexChar_of_value {u : UInt16} {n : ℕ} (hu : isHexDigit u)
    (h : hexDigitValue u = some n) (hn : n < 16) : hexChar n = u :=
  hexDigitValue_injOn (isHexDigit_hexChar n hn) hu ((hexDigitValue_hexChar n hn).trans h.symm)

theorem bytesHex_cons (b : UInt8) (bytes : List UInt8) :
    bytesHex (b :: bytes) = hexChar (b.toNat / 16) :: hexChar (b.toNat % 16) :: bytesHex bytes :=
  rfl

theorem length_bytesHex (bytes : List UInt8) : (bytesHex bytes).length = 2 * bytes.length := by
  induction bytes with
  | nil => rfl
  | cons b bytes ih =>
    rw [bytesHex_cons, length_cons, length_cons, ih, length_cons]
    ring

theorem hexOf_bytesHex (bytes : List UInt8) : hexOf (2 * bytes.length) (bytesHex bytes) := by
  rw [hexOf, Bool.and_eq_true, beq_iff_eq, all_eq_true]
  refine ⟨length_bytesHex bytes, fun u hu => ?_⟩
  obtain ⟨b, _, hu⟩ := mem_flatMap.1 hu
  have hlt : b.toNat < 256 := b.toNat_lt
  simp only [mem_cons, not_mem_nil, or_false] at hu
  rcases hu with rfl | rfl
  · exact isHexDigit_hexChar _ (by omega)
  · exact isHexDigit_hexChar _ (by omega)

theorem hexBytes_bytesHex (bytes : List UInt8) : hexBytes (bytesHex bytes) = bytes := by
  induction bytes with
  | nil => rfl
  | cons b bytes ih =>
    have hlt : b.toNat < 256 := b.toNat_lt
    rw [bytesHex_cons, hexBytes, hexDigitValue_hexChar _ (by omega),
      hexDigitValue_hexChar _ (by omega)]
    simp only [ih, Nat.div_add_mod, UInt8.ofNat_toNat]

/-- Lower-case digits in pairs are the hex of their bytes. -/
theorem bytesHex_hexBytes {n : ℕ} {t : Text} (hlength : t.length = 2 * n)
    (h : ∀ u ∈ t, isHexDigit u) : (hexBytes t).length = n ∧ bytesHex (hexBytes t) = t := by
  induction n generalizing t with
  | zero => obtain rfl := length_eq_zero_iff.1 hlength; exact ⟨rfl, rfl⟩
  | succ n ih =>
    obtain ⟨u, v, rest, rfl⟩ : ∃ u v rest, t = u :: v :: rest := by
      rcases t with _ | ⟨u, _ | ⟨v, rest⟩⟩
      · simp at hlength
      · rw [length_singleton] at hlength
        omega
      · exact ⟨u, v, rest, rfl⟩
    simp only [forall_mem_cons] at h
    obtain ⟨a, ha, hua⟩ := hexDigitValue_of_isHexDigit h.1
    obtain ⟨b, hb, hvb⟩ := hexDigitValue_of_isHexDigit h.2.1
    have hrest := ih (by simpa [Nat.mul_add] using hlength) h.2.2
    have hbyte : (UInt8.ofNat (16 * a + b)).toNat = 16 * a + b := by
      rw [UInt8.toNat_ofNat', Nat.mod_eq_of_lt (by omega)]
    simp only [hexBytes, hua, hvb, length_cons, bytesHex_cons, hrest, hbyte]
    rw [show (16 * a + b) / 16 = a by omega, show (16 * a + b) % 16 = b by omega,
      hexChar_of_value h.1 hua ha, hexChar_of_value h.2.1 hvb hb]
    exact ⟨trivial, rfl⟩

theorem bytesHex_hexBytes_of_hexOf {n : ℕ} {t : Text} (h : hexOf (2 * n) t) :
    (hexBytes t).length = n ∧ bytesHex (hexBytes t) = t :=
  bytesHex_hexBytes (length_of_hexOf h) fun _ hu => isHexDigit_of_mem_hexOf h hu

end Js
