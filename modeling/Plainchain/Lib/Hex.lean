import Mathlib
import Plainchain.Lib.Value

/-!
# Numbers in hex

Fixed-width lowercase hex is a canonical form of a number: `paddedHex` writes it,
`hexBigInt` reads it back, and no other text of the width has the same value.
-/

namespace Js

open List

theorem hexDigitsValue_append (n : ℕ) (s t : Text) :
    hexDigitsValue n (s ++ t) = (hexDigitsValue n s).bind (hexDigitsValue · t) := by
  induction s generalizing n with
  | nil => rfl
  | cons u s ih =>
    simp only [cons_append, hexDigitsValue, Option.bind_eq_bind]
    cases hexDigitValue u with
    | none => rfl
    | some d => exact ih (16 * n + d)

theorem hexDigitsValue_zeros (count : ℕ) :
    hexDigitsValue 0 (List.replicate count (unit '0')) = some 0 := by
  induction count with
  | zero => rfl
  | succ count ih => exact ih

theorem hexDigitsValue_toDigits (n : ℕ) :
    hexDigitsValue 0 ((Nat.toDigits 16 n).map unit) = some n := by
  have hdigit : ∀ d < 16, hexDigitValue (unit d.digitChar) = some d := by decide
  induction n using Nat.strong_induction_on with
  | _ n ih =>
    rw [Nat.toDigits_eq_if (by norm_num)]
    split
    next hlt =>
      simp [hexDigitsValue, hdigit n hlt]
    next hge =>
      rw [map_append, hexDigitsValue_append, ih (n / 16) (by omega)]
      simp [hexDigitsValue, hdigit _ (Nat.mod_lt n (by norm_num)), Nat.div_add_mod]

theorem hexDigitsValue_paddedHex (width n : ℕ) :
    hexDigitsValue 0 (paddedHex width n) = some n := by
  rw [paddedHex, hexDigitsValue_append, hexDigitsValue_zeros]
  exact hexDigitsValue_toDigits n

/-- The value of hex digits. -/
theorem hexBigInt_eq_ok_iff {n v : ℕ} {t : Text} (hn : 0 < n) (h : hexOf n t) :
    hexBigInt t = .ok v ↔ hexDigitsValue 0 t = some v := by
  have hall : ∀ u ∈ t, isHexDigit u := fun u hu => isHexDigit_of_mem_hexOf h hu
  have hlen := length_of_hexOf h
  rw [hexBigInt, trimEnd_of_isHexDigit hall]
  cases t with
  | nil => simp at hlen; omega
  | cons u t =>
    dsimp only
    cases hexDigitsValue 0 (u :: t) <;> simp

theorem hexBigInt_paddedHex {width n : ℕ} (hw : 0 < width) (h : n < 16 ^ width) :
    hexBigInt (paddedHex width n) = .ok n :=
  (hexBigInt_eq_ok_iff hw (hexOf_paddedHex hw h)).2 (hexDigitsValue_paddedHex width n)

theorem hexDigitValue_injOn {u u' : UInt16} (h : isHexDigit u) (h' : isHexDigit u')
    (heq : hexDigitValue u = hexDigitValue u') : u = u' := by
  have hvalue : ∀ {u : UInt16}, isHexDigit u →
      (48 ≤ u.toNat ∧ u.toNat ≤ 57 ∧ hexDigitValue u = some (u.toNat - 48)) ∨
      (97 ≤ u.toNat ∧ u.toNat ≤ 102 ∧ hexDigitValue u = some (u.toNat - 87)) := by
    intro u hu
    by_cases hd : isDigit u
    · obtain ⟨hge, hle⟩ := isDigit_iff.1 hd
      exact .inl ⟨hge, hle, by rw [hexDigitValue, if_pos hd]⟩
    · rcases isHexDigit_iff.1 hu with hrange | hrange
      · exact absurd (isDigit_iff.2 hrange) hd
      · have ha : unit 'a' ≤ u ∧ u ≤ unit 'f' := by
          simpa [UInt16.le_iff_toNat_le, unit] using hrange
        exact .inr ⟨hrange.1, hrange.2, by rw [hexDigitValue, if_neg hd, if_pos ha]⟩
  apply UInt16.toNat_inj.1
  rcases hvalue h with ⟨hge, hle, hv⟩ | ⟨hge, hle, hv⟩ <;>
    rcases hvalue h' with ⟨hge', hle', hv'⟩ | ⟨hge', hle', hv'⟩ <;>
    rw [hv, hv', Option.some.injEq] at heq <;> omega

/-- Hex digits of one length have different values. -/
theorem hexDigitsValue_injOn {m k : ℕ} {s t : Text} (hlen : s.length = t.length)
    (hs : ∀ u ∈ s, isHexDigit u) (ht : ∀ u ∈ t, isHexDigit u)
    (h : hexDigitsValue m s = hexDigitsValue k t) : m = k ∧ s = t := by
  induction s generalizing m k t with
  | nil =>
    obtain rfl := length_eq_zero_iff.1 hlen.symm
    exact ⟨Option.some.inj h, rfl⟩
  | cons u s ih =>
    cases t with
    | nil => simp at hlen
    | cons u' t =>
      have hu := hs u mem_cons_self
      have hu' := ht u' mem_cons_self
      obtain ⟨d, hd, hdu⟩ := hexDigitValue_of_isHexDigit hu
      obtain ⟨d', hd', hdu'⟩ := hexDigitValue_of_isHexDigit hu'
      simp only [hexDigitsValue, hdu, hdu', Option.bind_eq_bind, Option.bind_some] at h
      obtain ⟨hvalue, rfl⟩ := ih (Nat.succ.inj hlen) (fun u hu => hs u (mem_cons_of_mem _ hu))
        (fun u hu => ht u (mem_cons_of_mem _ hu)) h
      obtain rfl : d = d' := by omega
      obtain rfl := hexDigitValue_injOn hu hu' (hdu.trans hdu'.symm)
      exact ⟨by omega, rfl⟩

/-- Hex digits are what their value is written as. -/
theorem paddedHex_of_hexOf {width v : ℕ} {t : Text} (hw : 0 < width) (h : hexOf width t)
    (hv : hexBigInt t = .ok v) : paddedHex width v = t := by
  obtain ⟨v', hlt, hv'⟩ := hexBigInt_of_hexOf hw h
  cases hv.symm.trans hv'
  have hpadded := hexOf_paddedHex hw hlt
  refine (hexDigitsValue_injOn (m := 0) (k := 0) ?_ (fun u hu => isHexDigit_of_mem_hexOf hpadded hu)
    (fun u hu => isHexDigit_of_mem_hexOf h hu) ?_).2
  · rw [length_of_hexOf hpadded, length_of_hexOf h]
  · rw [hexDigitsValue_paddedHex, (hexBigInt_eq_ok_iff hw h).1 hv]

end Js
