import Mathlib

/-!
# Text

A string is a sequence of UTF-16 code units, as in ECMAScript: comparisons,
concatenations and patterns all work on units, and nothing forbids a surrogate
without its partner. Bytes only appear when a text is hashed or measured, in
UTF-8, and there an unpaired surrogate becomes `U+FFFD`.

* `decimal`, `decimalInt`: numbers as `toString` prints them.
* `TextLE`: the order by units. The order by characters is that of the bytes in UTF-8,
  by which a database has its keys; `between_iff` says what lies between two keys, and
  `not_le_of_digits` that padded numbers are in their own order.
* `hexPairs`, `hexOf`: the patterns `/^([0-9a-f]{2})*$/` and `/^[0-9a-f]{n}$/`.
* `join`: pieces with a separator between them; `join_injective` says when the
  pieces can be read back.
* `scalars`, `utf8`: the bytes of a text. `utf8` tells well-formed texts apart
  (`WellFormed.eq_of_utf8_eq`), and no others.
-/

namespace Js

open List

/-- A string: its UTF-16 code units. -/
abbrev Text := List UInt16

/-- Membership in lists of texts is decided through this instance everywhere. -/
instance : LawfulBEq Text := inferInstance

/-- The code unit of a character of the basic plane. -/
def unit (c : Char) : UInt16 := c.toNat.toUInt16

/-- A literal of the source, in the basic plane. -/
def lit (s : String) : Text := s.toList.map unit

/-- The order of texts by their code units. -/
def TextLE (s t : Text) : Prop := s.map UInt16.toNat ≤ t.map UInt16.toNat

instance : DecidableRel TextLE := fun _ _ => inferInstanceAs (Decidable (_ ≤ _))

instance : IsTrans Text TextLE := ⟨fun _ _ _ h h' => le_trans h h'⟩

instance : Std.Total TextLE := ⟨fun _ _ => le_total _ _⟩

instance : Std.Antisymm TextLE :=
  ⟨fun _ _ h h' => map_injective_iff.2 (fun _ _ => UInt16.toNat_inj.1) (le_antisymm h h')⟩

/-! ## Numbers in decimal -/

/-- The decimal digits of a natural number. -/
def decimal (n : ℕ) : Text := (Nat.toDigits 10 n).map unit

/-- An integer in decimal, as `BigInt.prototype.toString` prints it. -/
def decimalInt : ℤ → Text
  | .ofNat n => decimal n
  | .negSucc n => unit '-' :: decimal (n + 1)

/-- The pattern `[0-9]`. -/
def isDigit (u : UInt16) : Bool := unit '0' ≤ u && u ≤ unit '9'

/-- The pattern `[0-9a-f]`. -/
def isHexDigit (u : UInt16) : Bool := isDigit u || (unit 'a' ≤ u && u ≤ unit 'f')

/-- The pattern `/^[0-9a-f]{n}$/`. -/
def hexOf (n : ℕ) (t : Text) : Bool := t.length == n && t.all isHexDigit

/-- The pattern `/^([0-9a-f]{2})*$/`. -/
def hexPairs (t : Text) : Bool := t.length % 2 == 0 && t.all isHexDigit

/-- The character of a code unit of the basic plane. -/
def char (u : UInt16) : Char := Char.ofNat u.toNat

theorem toNat_unit {c : Char} (hc : c.toNat < 65536) : (unit c).toNat = c.toNat := by
  simp [unit, Nat.toUInt16, Nat.mod_eq_of_lt hc]

theorem char_unit {c : Char} (hc : c.toNat < 65536) : char (unit c) = c := by
  rw [char, toNat_unit hc, Char.ofNat_toNat]

theorem toNat_of_isDigit {c : Char} (hc : c.isDigit) : 48 ≤ c.toNat ∧ c.toNat ≤ 57 := by
  simpa [Char.isDigit, UInt32.le_iff_toNat_le] using hc

variable {u c v : UInt16} {t a : Text} {ts us : List Text} {α : Type} {n : ℕ}

theorem isDigit_iff : isDigit u ↔ 48 ≤ u.toNat ∧ u.toNat ≤ 57 := by
  simp [isDigit, UInt16.le_iff_toNat_le, unit]

theorem isHexDigit_iff :
    isHexDigit u ↔ (48 ≤ u.toNat ∧ u.toNat ≤ 57) ∨ (97 ≤ u.toNat ∧ u.toNat ≤ 102) := by
  simp [isHexDigit, isDigit, UInt16.le_iff_toNat_le, unit]

theorem isDigit_of_mem_decimal (h : u ∈ decimal n) : isDigit u := by
  obtain ⟨c, hc, rfl⟩ := mem_map.1 h
  have hd := toNat_of_isDigit (Nat.isDigit_of_mem_toDigits (by norm_num) (by norm_num) hc)
  rw [isDigit_iff, toNat_unit (by omega)]
  exact hd

theorem isHexDigit_of_isDigit (h : isDigit u) : isHexDigit u := by
  simp [isHexDigit, h]

theorem isHexDigit_of_mem_hexOf (h : hexOf n t) (hu : u ∈ t) : isHexDigit u := by
  simp only [hexOf, Bool.and_eq_true] at h
  exact all_eq_true.1 h.2 u hu

theorem length_of_hexOf (h : hexOf n t) : t.length = n := by
  simp only [hexOf, Bool.and_eq_true, beq_iff_eq] at h
  exact h.1

theorem isHexDigit_of_mem_hexPairs (h : hexPairs t) (hu : u ∈ t) : isHexDigit u := by
  simp only [hexPairs, Bool.and_eq_true] at h
  exact all_eq_true.1 h.2 u hu

theorem decimal_ne_nil (n : ℕ) : decimal n ≠ [] := by
  simp [decimal]

/-- The number that digits print, with zeros before them or not. -/
def digitsValue (t : Text) : ℕ := Nat.ofDigitChars 10 (t.map char) 0

theorem digitsValue_zeros_decimal (k n : ℕ) :
    digitsValue (List.replicate k (unit '0') ++ decimal n) = n := by
  have hchars : (decimal n).map char = Nat.toDigits 10 n := by
    rw [decimal, map_map]
    refine (map_congr_left fun c hc => ?_).trans (map_id _)
    have hd := toNat_of_isDigit (Nat.isDigit_of_mem_toDigits (by norm_num) (by norm_num) hc)
    exact char_unit (by omega)
  have hzero : char (unit '0') = '0' := rfl
  rw [digitsValue, map_append, map_replicate, hchars, hzero, Nat.ofDigitChars_append,
    Nat.ofDigitChars_replicate_zero, Nat.mul_zero, Nat.ofDigitChars_ten_toDigits]

/-- Digits determine the number they print. -/
theorem decimal_injective : Function.Injective decimal := by
  intro m n h
  rw [← digitsValue_zeros_decimal 0 m, h, digitsValue_zeros_decimal]

/-- `Number` of a text, where the text is of digits. What it makes of other texts
    is left open. -/
def numberOf (t : Text) : Option ℕ := if t.all isDigit then some (digitsValue t) else none

theorem decimalInt_natCast (n : ℕ) : decimalInt n = decimal n := rfl

theorem mem_decimalInt {z : ℤ} (h : u ∈ decimalInt z) : u = unit '-' ∨ isDigit u := by
  cases z with
  | ofNat n => exact .inr (isDigit_of_mem_decimal h)
  | negSucc n => exact (mem_cons.1 h).imp id isDigit_of_mem_decimal

theorem decimalInt_injective : Function.Injective decimalInt := by
  have hsign : ∀ m n : ℕ, decimal m ≠ unit '-' :: decimal n := fun m n h => by
    have := isDigit_of_mem_decimal (h ▸ mem_cons_self : unit '-' ∈ decimal m)
    revert this
    decide
  intro x y h
  cases x with
  | ofNat m =>
    cases y with
    | ofNat n => exact congrArg _ (decimal_injective h)
    | negSucc n => exact absurd h (hsign _ _)
  | negSucc m =>
    cases y with
    | ofNat n => exact absurd h.symm (hsign _ _)
    | negSucc n =>
      have := decimal_injective (List.cons.inj h).2
      rw [Nat.succ.inj this]

/-- A larger number has no fewer digits. -/
theorem length_decimalInt_mono {x y : ℤ} (hx : 0 ≤ x) (hle : x ≤ y) :
    (decimalInt x).length ≤ (decimalInt y).length := by
  lift x to ℕ using hx
  lift y to ℕ using (Int.natCast_nonneg x).trans hle
  have hpos : 0 < (decimal y).length := length_pos_iff.2 (decimal_ne_nil y)
  have hlt : y < 10 ^ (decimal y).length := by
    rw [decimal, length_map] at hpos ⊢
    exact (Nat.length_toDigits_le_iff (by norm_num) hpos).1 le_rfl
  rw [decimalInt_natCast, decimalInt_natCast, decimal, length_map]
  exact (Nat.length_toDigits_le_iff (by norm_num) hpos).2 ((Int.ofNat_le.1 hle).trans_lt hlt)

/-! ## The order of keys -/

section Order

variable {α : Type} [LinearOrder α]

theorem cons_le_cons_iff {a b : α} {s t : List α} : a :: s ≤ b :: t ↔ a < b ∨ a = b ∧ s ≤ t := by
  rw [← not_lt, cons_lt_cons_iff, ← not_lt]
  rcases lt_trichotomy a b with h | rfl | h
  · simp [h, h.not_gt, h.ne']
  · simp
  · simp [h, h.not_gt, h.ne']

theorem append_le_append_iff (p : List α) {s t : List α} : p ++ s ≤ p ++ t ↔ s ≤ t := by
  induction p with
  | nil => rfl
  | cons a p ih =>
    rw [cons_append, cons_append, cons_le_cons_iff, or_iff_right (lt_irrefl _),
      and_iff_right rfl, ih]

/-- What lies from `p` on and before what has `c` after it. -/
theorem between_iff {p t : List α} {c : α} :
    p ≤ t ∧ ¬p ++ [c] ≤ t ↔ ∃ r, t = p ++ r ∧ ∀ u ∈ r.head?, u < c := by
  induction p generalizing t with
  | nil =>
    cases t with
    | nil => simp
    | cons b t =>
      have hnil : ∀ s : List α, [] ≤ s := fun s => not_lt.1 (not_lt_nil s)
      have hle : [] ++ [c] ≤ b :: t ↔ c ≤ b := by
        rw [nil_append, cons_le_cons_iff, and_iff_left (hnil t), le_iff_lt_or_eq]
      rw [hle, not_le, and_iff_right (hnil _)]
      simp
  | cons a p ih =>
    cases t with
    | nil => simp
    | cons b t =>
      rw [cons_append, cons_le_cons_iff, cons_le_cons_iff]
      constructor
      · rintro ⟨hlt | ⟨rfl, hle⟩, hnot⟩
        · exact absurd (.inl hlt) hnot
        · obtain ⟨r, rfl, hr⟩ := ih.1 ⟨hle, fun h => hnot (.inr ⟨rfl, h⟩)⟩
          exact ⟨r, rfl, hr⟩
      · rintro ⟨r, heq, hr⟩
        obtain ⟨rfl, rfl⟩ := List.cons.inj heq
        obtain ⟨hle, hnot⟩ := ih.2 ⟨r, rfl, hr⟩
        exact ⟨.inr ⟨rfl, hle⟩, fun h => h.elim (fun h => absurd h (lt_irrefl _)) fun h => hnot h.2⟩

end Order

/-- Digits read after a smaller number are a smaller number. -/
theorem ofDigitChars_lt {s t : List Char} (hs : ∀ c ∈ s, c.isDigit) (hlen : s.length = t.length)
    {i j : ℕ} (h : i < j) : Nat.ofDigitChars 10 s i < Nat.ofDigitChars 10 t j := by
  induction s generalizing t i j with
  | nil =>
    rw [length_nil, eq_comm, length_eq_zero_iff] at hlen
    subst hlen
    exact h
  | cons a s ih =>
    cases t with
    | nil => simp at hlen
    | cons b t =>
      rw [forall_mem_cons] at hs
      rw [Nat.ofDigitChars_cons, Nat.ofDigitChars_cons]
      refine ih hs.2 (by simpa using hlen) ?_
      have ha := toNat_of_isDigit hs.1
      have : '0'.toNat = 48 := rfl
      omega

/-- Among what begins with as many digits, the order is that of the numbers. -/
theorem not_le_of_digits {s t x y : List Char} (hs : ∀ c ∈ s, c.isDigit) (ht : ∀ c ∈ t, c.isDigit)
    (hlen : s.length = t.length) {i : ℕ} (h : Nat.ofDigitChars 10 s i < Nat.ofDigitChars 10 t i) :
    ¬t ++ y ≤ s ++ x := by
  induction s generalizing t i with
  | nil =>
    rw [length_nil, eq_comm, length_eq_zero_iff] at hlen
    subst hlen
    exact absurd h (lt_irrefl _)
  | cons a s ih =>
    cases t with
    | nil => simp at hlen
    | cons b t =>
      rw [forall_mem_cons] at hs ht
      rw [Nat.ofDigitChars_cons, Nat.ofDigitChars_cons] at h
      rw [cons_append, cons_append, cons_le_cons_iff]
      rintro (hlt | ⟨rfl, hle⟩)
      · -- A smaller digit makes a smaller number, whatever follows.
        refine absurd h (not_lt.2 (ofDigitChars_lt ht.2 (by simpa using hlen.symm) ?_).le)
        have hlt : b.toNat < a.toNat := hlt
        have ha := toNat_of_isDigit hs.1
        have hb := toNat_of_isDigit ht.1
        have : '0'.toNat = 48 := rfl
        omega
      · exact ih hs.2 ht.2 (by simpa using hlen) h hle

/-! ## Pieces and separators -/

/-- Lists with the same images under `f` have the same images under what `f`
    determines. -/
theorem map_eq_of_map_eq {β γ : Type} {f : α → β} {g : α → γ} {P : α → Prop}
    (hfg : ∀ a b, P a → P b → f a = f b → g a = g b) {as bs : List α} (ha : ∀ a ∈ as, P a)
    (hb : ∀ b ∈ bs, P b) (h : as.map f = bs.map f) : as.map g = bs.map g := by
  induction as generalizing bs with
  | nil => rw [map_eq_nil_iff.1 h.symm]
  | cons a as ih =>
    cases bs with
    | nil => exact absurd h (cons_ne_nil _ _)
    | cons b bs =>
      rw [forall_mem_cons] at ha hb
      obtain ⟨hab, hrest⟩ := List.cons.inj h
      rw [map_cons, map_cons, hfg a b ha.1 hb.1 hab, ih ha.2 hb.2 hrest]

/-- Two texts cut at their first separator. -/
theorem append_cons_inj_left {c : α} {a b x y : List α} (ha : c ∉ a) (hb : c ∉ b)
    (h : a ++ c :: x = b ++ c :: y) : a = b ∧ x = y := by
  induction a generalizing b with
  | nil =>
    cases b with
    | nil => exact ⟨rfl, (List.cons.inj h).2⟩
    | cons d b => exact absurd (mem_cons.2 (.inl (List.cons.inj h).1)) hb
  | cons d a ih =>
    cases b with
    | nil => exact absurd (mem_cons.2 (.inl (List.cons.inj h).1.symm)) ha
    | cons e b =>
      obtain ⟨rfl, ht⟩ := List.cons.inj h
      obtain ⟨rfl, rfl⟩ := ih (fun hc => ha (mem_cons_of_mem _ hc))
        (fun hc => hb (mem_cons_of_mem _ hc)) ht
      exact ⟨rfl, rfl⟩

/-- Two texts cut at their last separator. -/
theorem append_cons_inj_right {c : α} {a b x y : List α} (hx : c ∉ x) (hy : c ∉ y)
    (h : a ++ c :: x = b ++ c :: y) : a = b ∧ x = y := by
  have hr : x.reverse ++ c :: a.reverse = y.reverse ++ c :: b.reverse := by
    simpa using congrArg List.reverse h
  obtain ⟨hxy, hab⟩ := append_cons_inj_left (by simpa using hx) (by simpa using hy) hr
  exact ⟨reverse_injective hab, reverse_injective hxy⟩

/-- The pieces with a separator between them: `Array.prototype.join`. -/
def join (c : UInt16) (ts : List Text) : Text := List.intercalate [c] ts

@[simp] theorem join_nil (c : UInt16) : join c [] = [] := rfl

@[simp] theorem join_singleton (c : UInt16) (t : Text) : join c [t] = t := by simp [join]

@[simp] theorem join_cons_cons (c : UInt16) (t u : Text) (ts : List Text) :
    join c (t :: u :: ts) = t ++ c :: join c (u :: ts) := by
  simp [join]

theorem mem_join (h : u ∈ join c ts) : u = c ∨ ∃ t ∈ ts, u ∈ t := by
  induction ts with
  | nil => simp at h
  | cons t ts ih =>
    cases ts with
    | nil => exact .inr ⟨t, by simp, by simpa using h⟩
    | cons t' ts =>
      rw [join_cons_cons, mem_append, mem_cons] at h
      rcases h with h | h | h
      · exact .inr ⟨t, by simp, h⟩
      · exact .inl h
      · exact (ih h).imp id fun ⟨s, hs, hu⟩ => ⟨s, mem_cons_of_mem _ hs, hu⟩

theorem join_append (ht : ts ≠ []) (hu : us ≠ []) :
    join c (ts ++ us) = join c ts ++ c :: join c us := by
  induction ts with
  | nil => exact absurd rfl ht
  | cons t ts ih =>
    cases ts with
    | nil =>
      obtain ⟨u, us, rfl⟩ := exists_cons_of_ne_nil hu
      rw [singleton_append, join_cons_cons, join_singleton]
    | cons t' ts =>
      rw [cons_append, cons_append, join_cons_cons, join_cons_cons, ← cons_append,
        ih (cons_ne_nil _ _), append_assoc, cons_append]

/-- Pieces without the separator can be read back from their join, if there is
    one at all. -/
theorem join_cons_inj {u : Text} (ht : ∀ s ∈ t :: ts, c ∉ s) (hu : ∀ s ∈ u :: us, c ∉ s)
    (h : join c (t :: ts) = join c (u :: us)) : t :: ts = u :: us := by
  induction ts generalizing t u us with
  | nil =>
    rcases us with _ | ⟨u', us⟩
    · simpa using h
    · rw [join_singleton, join_cons_cons] at h
      exact absurd (h ▸ by simp : c ∈ t) (ht t mem_cons_self)
  | cons t' ts ih =>
    rcases us with _ | ⟨u', us⟩
    · rw [join_singleton, join_cons_cons] at h
      exact absurd (h ▸ by simp : c ∈ u) (hu u mem_cons_self)
    · rw [join_cons_cons, join_cons_cons] at h
      obtain ⟨rfl, hrest⟩ :=
        append_cons_inj_left (ht t mem_cons_self) (hu u mem_cons_self) h
      rw [ih (fun s hs => ht s (mem_cons_of_mem _ hs))
        (fun s hs => hu s (mem_cons_of_mem _ hs)) hrest]

/-- A known number of pieces without the separator can be cut from the end of a
    text. -/
theorem append_join_inj {x y u : Text} (hlen : ts.length = us.length) (ht : ∀ s ∈ t :: ts, c ∉ s)
    (hu : ∀ s ∈ u :: us, c ∉ s) (h : x ++ c :: join c (t :: ts) = y ++ c :: join c (u :: us)) :
    x = y ∧ t :: ts = u :: us := by
  induction ts generalizing x y t u us with
  | nil =>
    obtain rfl := length_eq_zero_iff.1 hlen.symm
    rw [join_singleton, join_singleton] at h
    obtain ⟨rfl, rfl⟩ :=
      append_cons_inj_right (ht t mem_cons_self) (hu u mem_cons_self) h
    exact ⟨rfl, rfl⟩
  | cons t' ts ih =>
    cases us with
    | nil => simp at hlen
    | cons u' us =>
      have hassoc : ∀ p q r : Text, p ++ c :: (q ++ c :: r) = (p ++ c :: q) ++ c :: r := by simp
      rw [join_cons_cons, join_cons_cons, hassoc, hassoc] at h
      obtain ⟨hxy, hrest⟩ := ih (Nat.succ.inj hlen) (fun s hs => ht s (mem_cons_of_mem _ hs))
        (fun s hs => hu s (mem_cons_of_mem _ hs)) h
      obtain ⟨rfl, rfl⟩ :=
        append_cons_inj_right (ht t mem_cons_self) (hu u mem_cons_self) hxy
      exact ⟨rfl, congrArg _ hrest⟩

/-- Pieces without the separator, none of them empty, can be read back from
    their join. -/
theorem join_injective (ht : ∀ t ∈ ts, c ∉ t ∧ t ≠ []) (hu : ∀ u ∈ us, c ∉ u ∧ u ≠ [])
    (h : join c ts = join c us) : ts = us := by
  have hne : ∀ vs : List Text, (∀ v ∈ vs, c ∉ v ∧ v ≠ []) → join c vs = [] → vs = [] := by
    intro vs hvs hnil
    rcases vs with _ | ⟨v, _ | ⟨v', vs⟩⟩
    · rfl
    · exact absurd (by simpa using hnil) (hvs v mem_cons_self).2
    · simp at hnil
  rcases ts with _ | ⟨t, ts⟩
  · exact (hne us hu h.symm).symm
  rcases us with _ | ⟨u, us⟩
  · exact hne _ ht h
  · exact join_cons_inj (fun s hs => (ht s hs).1) (fun s hs => (hu s hs).1) h

/-! ## Bytes -/

/-- A high surrogate: the first half of a character outside the basic plane. -/
def isHigh (u : UInt16) : Bool := 0xD800 ≤ u && u ≤ 0xDBFF

/-- A low surrogate: the second half. -/
def isLow (u : UInt16) : Bool := 0xDC00 ≤ u && u ≤ 0xDFFF

/-- The character of a unit on its own, `U+FFFD` for half of a pair. -/
def single (u : UInt16) : Char := if isHigh u || isLow u then Char.ofNat 0xFFFD else char u

/-- The character of a surrogate pair. -/
def pair (u v : UInt16) : Char :=
  Char.ofNat (0x10000 + (u.toNat - 0xD800) * 0x400 + (v.toNat - 0xDC00))

/-- The characters of a text, unpaired surrogates replaced by `U+FFFD`. -/
def scalars : Text → List Char
  | [] => []
  | [u] => [single u]
  | u :: v :: t => if isHigh u && isLow v then pair u v :: scalars t else single u :: scalars (v :: t)

/-- The units of a character. -/
def unitsOf (c : Char) : Text :=
  if c.toNat < 0x10000 then [unit c]
  else [(0xD800 + (c.toNat - 0x10000) / 0x400).toUInt16,
    (0xDC00 + (c.toNat - 0x10000) % 0x400).toUInt16]

/-- The units of a sequence of characters. -/
def utf16 (cs : List Char) : Text := cs.flatMap unitsOf

/-- The bytes of a text in UTF-8, as `Buffer.from` and a hash see it. -/
def utf8 (t : Text) : List UInt8 := (scalars t).flatMap String.utf8EncodeChar

/-- The text without unpaired surrogates. -/
def WellFormed (t : Text) : Prop := utf16 (scalars t) = t

instance (t : Text) : Decidable (WellFormed t) := inferInstanceAs (Decidable (_ = _))

/-- A unit that is a character on its own. -/
def Scalar (u : UInt16) : Prop := isHigh u = false ∧ isLow u = false

instance (u : UInt16) : Decidable (Scalar u) := inferInstanceAs (Decidable (_ ∧ _))

theorem isHigh_iff : isHigh u ↔ 0xD800 ≤ u.toNat ∧ u.toNat ≤ 0xDBFF := by
  simp [isHigh, UInt16.le_iff_toNat_le]

theorem isLow_iff : isLow u ↔ 0xDC00 ≤ u.toNat ∧ u.toNat ≤ 0xDFFF := by
  simp [isLow, UInt16.le_iff_toNat_le]

theorem Scalar.of_toNat_lt (h : u.toNat < 0xD800) : Scalar u := by
  refine ⟨Bool.eq_false_iff.2 fun hu => ?_, Bool.eq_false_iff.2 fun hu => ?_⟩
  · exact absurd (isHigh_iff.1 hu).1 (by omega)
  · exact absurd (isLow_iff.1 hu).1 (by omega)

theorem Scalar.of_isHexDigit (h : isHexDigit u) : Scalar u :=
  .of_toNat_lt (by have := isHexDigit_iff.1 h; omega)

theorem Scalar.toNat (h : Scalar u) : u.toNat < 0xD800 ∨ 0xE000 ≤ u.toNat := by
  have h₁ : ¬(0xD800 ≤ u.toNat ∧ u.toNat ≤ 0xDBFF) := mt isHigh_iff.2 (by rw [h.1]; simp)
  have h₂ : ¬(0xDC00 ≤ u.toNat ∧ u.toNat ≤ 0xDFFF) := mt isLow_iff.2 (by rw [h.2]; simp)
  omega

theorem single_of_scalar (h : Scalar u) : single u = char u := by
  simp [single, h.1, h.2]

/-- A unit that completes no pair starts afresh. -/
theorem scalars_append_cons (hu : isLow u = false) (a t : Text) :
    scalars (a ++ u :: t) = scalars a ++ scalars (u :: t) := by
  induction a using scalars.induct with
  | case1 => rfl
  | case2 v => simp [scalars, hu]
  | case3 v w a hvw ih => simp [scalars, hvw, ih]
  | case4 v w a hvw ih =>
    simp only [cons_append, scalars, if_neg hvw] at ih ⊢
    rw [ih]

theorem scalars_cons (hu : Scalar u) (t : Text) : scalars (u :: t) = char u :: scalars t := by
  cases t with
  | nil => simp [scalars, single_of_scalar hu]
  | cons v t => simp [scalars, hu.1, single_of_scalar hu]

theorem toNat_char (hu : Scalar u) : (char u).toNat = u.toNat := by
  have hlt := u.toNat_lt
  rw [char, Char.toNat_ofNat, if_pos]
  rcases hu.toNat with h | h
  · exact .inl h
  · exact .inr ⟨by omega, by omega⟩

theorem unitsOf_char (hu : Scalar u) : unitsOf (char u) = [u] := by
  have hlt := u.toNat_lt
  have hn := toNat_char hu
  rw [unitsOf, hn, if_pos (by omega), unit, hn]
  simp

theorem utf16_append (a b : List Char) : utf16 (a ++ b) = utf16 a ++ utf16 b := by
  simp [utf16]

theorem wellFormed_nil : WellFormed [] := rfl

theorem WellFormed.cons (hu : Scalar u) (ht : WellFormed t) : WellFormed (u :: t) := by
  rw [WellFormed, scalars_cons hu, utf16, flatMap_cons, unitsOf_char hu]
  exact congrArg _ ht

theorem WellFormed.append_cons (ha : WellFormed a) (hu : Scalar u) (ht : WellFormed t) :
    WellFormed (a ++ u :: t) := by
  rw [WellFormed, scalars_append_cons hu.2, utf16_append, ha, ht.cons hu]

theorem WellFormed.of_scalars (h : ∀ u ∈ t, Scalar u) : WellFormed t := by
  induction t with
  | nil => rfl
  | cons u t ih =>
    exact (ih fun v hv => h v (mem_cons_of_mem _ hv)).cons (h u mem_cons_self)

/-- The characters of a sequence written in UTF-16 are read back. -/
theorem scalars_utf16 (cs : List Char) : scalars (utf16 cs) = cs := by
  induction cs with
  | nil => rfl
  | cons c cs ih =>
    rw [utf16, flatMap_cons, ← utf16, unitsOf]
    have hvalid := c.valid
    have hc : c.toNat < 0xD800 ∨ 0xDFFF < c.toNat ∧ c.toNat < 0x110000 := hvalid
    split
    · next hlt =>
      -- In the basic plane: one unit, which is no surrogate.
      have hn : (unit c).toNat = c.toNat := toNat_unit (by omega)
      have hs : Scalar (unit c) := by
        refine ⟨Bool.eq_false_iff.2 fun hu => ?_, Bool.eq_false_iff.2 fun hu => ?_⟩
        · have := isHigh_iff.1 hu
          omega
        · have := isLow_iff.1 hu
          omega
      rw [singleton_append, scalars_cons hs, ih, char_unit (by omega)]
    · next hge =>
      -- Outside it: a surrogate pair.
      have hhi : ((0xD800 + (c.toNat - 0x10000) / 0x400).toUInt16).toNat =
          0xD800 + (c.toNat - 0x10000) / 0x400 := by
        simp only [Nat.toUInt16, UInt16.toNat_ofNat']
        omega
      have hlo : ((0xDC00 + (c.toNat - 0x10000) % 0x400).toUInt16).toNat =
          0xDC00 + (c.toNat - 0x10000) % 0x400 := by
        simp only [Nat.toUInt16, UInt16.toNat_ofNat']
        omega
      have h₁ := isHigh_iff.2 (by rw [hhi]; omega :
        0xD800 ≤ ((0xD800 + (c.toNat - 0x10000) / 0x400).toUInt16).toNat ∧
          ((0xD800 + (c.toNat - 0x10000) / 0x400).toUInt16).toNat ≤ 0xDBFF)
      have h₂ := isLow_iff.2 (by rw [hlo]; omega :
        0xDC00 ≤ ((0xDC00 + (c.toNat - 0x10000) % 0x400).toUInt16).toNat ∧
          ((0xDC00 + (c.toNat - 0x10000) % 0x400).toUInt16).toNat ≤ 0xDFFF)
      have hn : 0x10000 + (0xD800 + (c.toNat - 0x10000) / 0x400 - 0xD800) * 0x400 +
          (0xDC00 + (c.toNat - 0x10000) % 0x400 - 0xDC00) = c.toNat := by
        omega
      rw [cons_append, singleton_append, scalars, h₁, h₂, Bool.and_self, if_pos rfl, ih,
        pair, hhi, hlo, hn, Char.ofNat_toNat]

theorem wellFormed_utf16 (cs : List Char) : WellFormed (utf16 cs) :=
  congrArg utf16 (scalars_utf16 cs)

/-- Replacing unpaired surrogates keeps the length. -/
theorem length_utf16_scalars (t : Text) : (utf16 (scalars t)).length = t.length := by
  have hsingle : ∀ u : UInt16, (unitsOf (single u)).length = 1 := by
    intro u
    by_cases hu : Scalar u
    · rw [single_of_scalar hu, unitsOf_char hu, length_singleton]
    · have hrep : single u = Char.ofNat 0xFFFD := by
        rw [single, if_pos]
        by_contra hne
        exact hu (by simpa [Scalar] using hne)
      rw [hrep]
      rfl
  have hpair : ∀ u v : UInt16, isHigh u → isLow v → (unitsOf (pair u v)).length = 2 := by
    intro u v hu hv
    have hu := isHigh_iff.1 hu
    have hv := isLow_iff.1 hv
    have hvalid : (0x10000 + (u.toNat - 0xD800) * 0x400 + (v.toNat - 0xDC00)).isValidChar :=
      .inr ⟨by omega, by omega⟩
    have hn : (pair u v).toNat = 0x10000 + (u.toNat - 0xD800) * 0x400 + (v.toNat - 0xDC00) := by
      rw [pair, Char.ofNat, dif_pos hvalid]
      rfl
    rw [unitsOf, if_neg (by omega)]
    rfl
  induction t using scalars.induct with
  | case1 => rfl
  | case2 u => simp [scalars, utf16, hsingle]
  | case3 u v t huv ih =>
    rw [Bool.and_eq_true] at huv
    simp only [scalars, huv.1, huv.2, Bool.and_self, if_true, utf16, flatMap_cons,
      length_append, hpair u v huv.1 huv.2, length_cons] at ih ⊢
    omega
  | case4 u v t huv ih =>
    simp only [scalars, if_neg huv, utf16, flatMap_cons, length_append, hsingle,
      length_cons] at ih ⊢
    omega

/-- The two sides of a character of a well-formed text are well-formed. -/
theorem WellFormed.of_append_cons (hu : Scalar u) (h : WellFormed (a ++ u :: t)) :
    WellFormed a ∧ WellFormed t := by
  rw [WellFormed, scalars_append_cons hu.2, utf16_append] at h
  obtain ⟨ha, hut⟩ := append_inj h (length_utf16_scalars a)
  rw [scalars_cons hu, utf16, flatMap_cons, unitsOf_char hu] at hut
  exact ⟨ha, (List.cons.inj hut).2⟩

theorem WellFormed.join (hc : Scalar c) (h : ∀ t ∈ ts, WellFormed t) : WellFormed (join c ts) := by
  induction ts with
  | nil => exact wellFormed_nil
  | cons t ts ih =>
    rw [forall_mem_cons] at h
    cases ts with
    | nil => simpa using h.1
    | cons t' ts =>
      rw [join_cons_cons]
      exact h.1.append_cons hc (ih h.2)

/-- Joins of pieces with the same characters have the same characters. -/
theorem scalars_join (hc : Scalar c) (f g : α → Text) {as : List α}
    (h : ∀ a ∈ as, scalars (f a) = scalars (g a)) :
    scalars (join c (as.map f)) = scalars (join c (as.map g)) := by
  induction as with
  | nil => rfl
  | cons a as ih =>
    rw [forall_mem_cons] at h
    cases as with
    | nil => simpa using h.1
    | cons b as =>
      simp only [map_cons, join_cons_cons] at ih ⊢
      rw [scalars_append_cons hc.2, scalars_append_cons hc.2, scalars_cons hc, scalars_cons hc, h.1,
        ih h.2]

/-- UTF-8 determines the characters it encodes. -/
theorem scalars_eq_of_utf8_eq {s : Text} (h : utf8 s = utf8 t) : scalars s = scalars t := by
  have henc : (scalars s).utf8Encode = (scalars t).utf8Encode := congrArg List.toByteArray h
  have hdec : (scalars s).utf8Encode.utf8Decode? = (scalars t).utf8Encode.utf8Decode? := by
    rw [henc]
  rw [utf8Decode?_utf8Encode, utf8Decode?_utf8Encode] at hdec
  simpa using hdec

/-- The bytes of a well-formed text determine it. -/
theorem WellFormed.eq_of_utf8_eq {s : Text} (hs : WellFormed s) (ht : WellFormed t)
    (h : utf8 s = utf8 t) : s = t := by
  rw [← hs, ← ht, scalars_eq_of_utf8_eq h]

theorem scalars_append (ha : ∀ u ∈ a, Scalar u) (t : Text) :
    scalars (a ++ t) = scalars a ++ scalars t := by
  induction a with
  | nil => rfl
  | cons u a ih =>
    rw [forall_mem_cons] at ha
    rw [cons_append, scalars_cons ha.1, scalars_cons ha.1, ih ha.2, cons_append]

/-- A beginning without surrogates is left as it is. -/
theorem utf16_scalars_append (ha : ∀ u ∈ a, Scalar u) (t : Text) :
    utf16 (scalars (a ++ t)) = a ++ utf16 (scalars t) := by
  rw [scalars_append ha, utf16_append, WellFormed.of_scalars ha]

theorem scalars_eq_map (h : ∀ u ∈ t, Scalar u) : scalars t = t.map char := by
  induction t with
  | nil => rfl
  | cons u t ih =>
    rw [scalars_cons (h u mem_cons_self), ih fun v hv => h v (mem_cons_of_mem _ hv),
      map_cons]

theorem le_toNat_single (hv : 0xD800 ≤ v.toNat) : 0xD800 ≤ (single v).toNat := by
  by_cases hscalar : Scalar v
  · rwa [single_of_scalar hscalar, toNat_char hscalar]
  · have hrep : single v = Char.ofNat 0xFFFD :=
      if_pos (by simpa [Scalar, or_iff_not_imp_left] using hscalar)
    rw [hrep]
    decide

theorem le_toNat_pair {w : UInt16} (h : (isHigh v && isLow w) = true) :
    0xD800 ≤ (pair v w).toNat := by
  rw [Bool.and_eq_true, isHigh_iff, isLow_iff] at h
  rw [pair, Char.toNat_ofNat, if_pos (.inr ⟨by omega, by omega⟩)]
  omega

section Basic

variable {u : UInt16} (hu : u.toNat < 0xD800)

include hu

theorem eq_of_single_eq (h : single v = char u) : v = u := by
  have hlt : v.toNat < 0xD800 := by
    by_contra hge
    have := le_toNat_single (Nat.not_lt.1 hge)
    rw [h, toNat_char (.of_toNat_lt hu)] at this
    omega
  rw [single_of_scalar (.of_toNat_lt hlt)] at h
  have htoNat := congrArg Char.toNat h
  rw [toNat_char (.of_toNat_lt hlt), toNat_char (.of_toNat_lt hu)] at htoNat
  exact UInt16.toNat_inj.1 htoNat

theorem pair_ne_char {w : UInt16} (h : (isHigh v && isLow w) = true) : pair v w ≠ char u := by
  intro heq
  have := le_toNat_pair h
  rw [heq, toNat_char (.of_toNat_lt hu)] at this
  omega

/-- No replacement makes a character below the surrogates. -/
theorem mem_of_mem_scalars (h : char u ∈ scalars t) : u ∈ t := by
  induction t using scalars.induct with
  | case1 => cases h
  | case2 v => rw [eq_of_single_eq hu (mem_singleton.1 h).symm]; exact mem_singleton_self _
  | case3 v w t hpair ih =>
    rw [scalars, if_pos hpair, mem_cons] at h
    rcases h with h | h
    · exact absurd h.symm (pair_ne_char hu hpair)
    · exact mem_cons_of_mem _ (mem_cons_of_mem _ (ih h))
  | case4 v w t hpair ih =>
    rw [scalars, if_neg hpair, mem_cons] at h
    rcases h with h | h
    · rw [eq_of_single_eq hu h.symm]
      exact mem_cons_self
    · exact mem_cons_of_mem _ (ih h)

theorem mem_of_mem_utf16_scalars (h : u ∈ utf16 (scalars t)) : u ∈ t := by
  refine mem_of_mem_scalars hu ?_
  obtain ⟨a, b, hab⟩ := append_of_mem h
  have hscalar : Scalar u := .of_toNat_lt hu
  rw [← scalars_utf16 (scalars t), hab, scalars_append_cons hscalar.2, scalars_cons hscalar]
  exact mem_append_right _ mem_cons_self

theorem eq_cons_of_scalars_eq {cs : List Char} (h : scalars t = char u :: cs) :
    ∃ r, t = u :: r ∧ scalars r = cs := by
  match t, h with
  | [v], h =>
    obtain ⟨hv, rfl⟩ := List.cons.inj h
    exact ⟨[], by rw [eq_of_single_eq hu hv], rfl⟩
  | v :: w :: t, h =>
    rw [scalars] at h
    split at h
    · next hpair => exact absurd (List.cons.inj h).1 (pair_ne_char hu hpair)
    · obtain ⟨hv, rfl⟩ := List.cons.inj h
      exact ⟨w :: t, by rw [eq_of_single_eq hu hv], rfl⟩

end Basic

/-- What begins with characters below the surrogates begins with their units. -/
theorem eq_append_of_scalars_eq {q : Text} {cs : List Char} (hq : ∀ u ∈ q, u.toNat < 0xD800)
    (h : scalars t = q.map char ++ cs) : ∃ r, t = q ++ r ∧ scalars r = cs := by
  induction q generalizing t with
  | nil => exact ⟨t, rfl, h⟩
  | cons u q ih =>
    rw [forall_mem_cons] at hq
    obtain ⟨t, rfl, ht⟩ := eq_cons_of_scalars_eq hq.1 h
    obtain ⟨r, rfl, hr⟩ := ih hq.2 ht
    exact ⟨r, rfl, hr⟩

/-- A text whose characters are those of hex digits is made of them. -/
theorem eq_of_scalars_eq_hex {q : Text} (hq : ∀ u ∈ q, isHexDigit u) (h : scalars t = scalars q) :
    t = q := by
  rw [scalars_eq_map fun u hu => .of_isHexDigit (hq u hu), ← append_nil (q.map char)] at h
  obtain ⟨r, rfl, hr⟩ := eq_append_of_scalars_eq (fun u hu => by
    have := isHexDigit_iff.1 (hq u hu)
    omega) h
  match r, hr with
  | [], _ => rw [append_nil]
  | v :: w :: r, hr =>
    rw [scalars] at hr
    split at hr <;> cases hr

/-- A range of keys from what is below the surrogates, by the units of the texts in it. -/
theorem scalars_between {p : Text} (hp : ∀ u ∈ p, u.toNat < 0xD800) (hc : c.toNat < 0xD800) :
    scalars p ≤ scalars t ∧ ¬scalars (p ++ [c]) ≤ scalars t ↔
      ∃ r, t = p ++ r ∧ ∀ u ∈ r.head?, u < c := by
  have hscalar : ∀ u ∈ p, Scalar u := fun u hu => .of_toNat_lt (hp u hu)
  have hlast : scalars (p ++ [c]) = scalars p ++ [char c] := by
    rw [scalars_append_cons (Scalar.of_toNat_lt hc).2, scalars_cons (.of_toNat_lt hc)]
    rfl
  -- The first character is before `c` if the first unit is.
  have hhead : ∀ r : Text, (∀ x ∈ (scalars r).head?, x < char c) ↔ ∀ u ∈ r.head?, u < c := by
    have hlt : ∀ u : UInt16, u.toNat < 0xD800 → (char u < char c ↔ u < c) := fun u hu => by
      rw [UInt16.lt_iff_toNat_lt, ← toNat_char (.of_toNat_lt hu), ← toNat_char (.of_toNat_lt hc)]
      rfl
    have hge : ∀ (x : Char) (v : UInt16), 0xD800 ≤ x.toNat → 0xD800 ≤ v.toNat →
        (x < char c ↔ v < c) := fun x v hx hv => by
      refine iff_of_false (fun h => ?_) fun h => ?_
      · have h : x.toNat < (char c).toNat := h
        rw [toNat_char (.of_toNat_lt hc)] at h
        omega
      · rw [UInt16.lt_iff_toNat_lt] at h
        omega
    have hsingle : ∀ v : UInt16, single v < char c ↔ v < c := fun v => by
      rcases lt_or_ge v.toNat 0xD800 with h | h
      · rw [single_of_scalar (.of_toNat_lt h)]
        exact hlt v h
      · exact hge _ v (le_toNat_single h) h
    intro r
    match r with
    | [] => simp [scalars]
    | [v] => simp [scalars, hsingle]
    | v :: w :: r =>
      rw [scalars]
      split
      · next hpair =>
        have hv := (isHigh_iff.1 (Bool.and_eq_true _ _ |>.mp hpair).1).1
        simp [hge _ v (le_toNat_pair hpair) hv]
      · simp [hsingle]
  rw [hlast, between_iff]
  constructor
  · rintro ⟨r, heq, hr⟩
    rw [scalars_eq_map hscalar] at heq
    obtain ⟨r, rfl, rfl⟩ := eq_append_of_scalars_eq hp heq
    exact ⟨r, rfl, (hhead r).1 hr⟩
  · rintro ⟨r, rfl, hr⟩
    exact ⟨scalars r, scalars_append hscalar r, (hhead r).2 hr⟩

/-! ## Lengths in bytes -/

/-- The number of bytes of a text. -/
def byteLength (t : Text) : ℕ := (utf8 t).length

/-- A text cut at an ASCII character. -/
theorem byteLength_append_cons (hu : u.toNat < 128) (a t : Text) :
    byteLength (a ++ u :: t) = byteLength a + 1 + byteLength t := by
  have hscalar : Scalar u := .of_toNat_lt (by omega)
  have hv := toNat_char hscalar
  have hone : (String.utf8EncodeChar (char u)).length = 1 := by
    have hle : (char u).val ≤ 0x7F := by
      rw [UInt32.le_iff_toNat_le]
      exact (show (char u).toNat ≤ 127 by omega)
    rw [String.length_utf8EncodeChar]
    exact if_pos hle
  simp only [byteLength, utf8, scalars_append_cons hscalar.2, scalars_cons hscalar,
    flatMap_append, flatMap_cons, length_append, hone]
  omega

theorem byteLength_cons (hu : u.toNat < 128) (t : Text) :
    byteLength (u :: t) = 1 + byteLength t := by
  have := byteLength_append_cons hu [] t
  rwa [nil_append, show byteLength [] = 0 from rfl, zero_add] at this

theorem byteLength_of_ascii (h : ∀ u ∈ t, u.toNat < 128) : byteLength t = t.length := by
  induction t with
  | nil => rfl
  | cons u t ih =>
    rw [byteLength_cons (h u mem_cons_self), ih fun v hv => h v (mem_cons_of_mem _ hv),
      length_cons, add_comm]

/-- A list of texts, each followed by a separator but the last. -/
theorem byteLength_join (hc : c.toNat < 128) (hne : ts ≠ []) :
    byteLength (join c ts) + 1 = (ts.map fun t => byteLength t + 1).sum := by
  induction ts with
  | nil => exact absurd rfl hne
  | cons t ts ih =>
    cases ts with
    | nil => simp
    | cons t' ts =>
      rw [join_cons_cons, byteLength_append_cons hc, map_cons, sum_cons,
        ← ih (cons_ne_nil _ _)]
      omega

theorem byteLength_append_singleton (hu : u.toNat < 128) (a : Text) :
    byteLength (a ++ [u]) = byteLength a + 1 := byteLength_append_cons hu a []

end Js
