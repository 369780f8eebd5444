import Plainchain.Lib.Text

/-!
# Values

The values of ECMAScript that reach a program from outside: what
`JSON.parse` builds, with the big integers a reviver may put in. Programs test
such a value before they trust it; the types of what they read are those tests.

Numbers are kept as they print. `Number.int` is an integer printed in plain
decimal, and everything else (a fraction, a magnitude from `1e21` on, an
infinity) is `Number.other`, known by its text. Two numbers of the language
print alike only when they are equal (or are the two zeros, which no comparison
tells apart), so that nothing is lost.
-/

namespace Js

open List

/-- A number. The text of `other` is never a run of hex digits: it has a point,
    a signed exponent, or is the name of an infinity. -/
inductive Number
  | int (z : ℤ)
  | other (text : Text) (h : ∃ u ∈ text, isHexDigit u = false)
  deriving DecidableEq

variable {t : Text} {n : ℕ} {x : Number} {u : UInt16}

namespace Number

/-- `Number.prototype.toString`. -/
def toText : Number → Text
  | int z => decimalInt z
  | other t _ => t

/-- `Number.isSafeInteger`. -/
def isSafeInteger : Number → Bool
  | int z => z.natAbs < 2 ^ 53
  | other _ _ => false

/-- The number of a natural number, such as an index. -/
def ofNat (n : ℕ) : Number := int n

/-- A safe integer that is not below `0`. -/
def IsIndex (x : Number) : Prop := ∃ n : ℕ, n < 2 ^ 53 ∧ x = ofNat n

@[simp] theorem toText_ofNat (n : ℕ) : (ofNat n).toText = decimal n := rfl

theorem ofNat_injective : Function.Injective ofNat := fun m n h => by
  simpa [ofNat] using h

theorem IsIndex.toText_injective {y : Number} (hx : x.IsIndex) (hy : y.IsIndex)
    (h : x.toText = y.toText) : x = y := by
  obtain ⟨m, -, rfl⟩ := hx
  obtain ⟨n, -, rfl⟩ := hy
  rw [decimal_injective h]

theorem IsIndex.isDigit_of_mem (hx : x.IsIndex) (hu : u ∈ x.toText) : isDigit u := by
  obtain ⟨n, -, rfl⟩ := hx
  exact isDigit_of_mem_decimal hu

end Number

/-! ## Big integers in hex -/

/-- The value of a hex digit, of either case. -/
def hexDigitValue (u : UInt16) : Option ℕ :=
  if isDigit u then some (u.toNat - 48)
  else if unit 'a' ≤ u ∧ u ≤ unit 'f' then some (u.toNat - 87)
  else if unit 'A' ≤ u ∧ u ≤ unit 'F' then some (u.toNat - 55)
  else none

/-- The value of a run of hex digits, `n` being that of the digits before. -/
def hexDigitsValue : ℕ → Text → Option ℕ
  | n, [] => some n
  | n, u :: t => do
    let d ← hexDigitValue u
    hexDigitsValue (16 * n + d) t

/-- White space, which conversions to numbers trim. -/
def whiteSpace : List UInt16 :=
  [9, 10, 11, 12, 13, 32, 0xA0, 0x1680, 0x2000, 0x2001, 0x2002, 0x2003, 0x2004, 0x2005, 0x2006,
    0x2007, 0x2008, 0x2009, 0x200A, 0x2028, 0x2029, 0x202F, 0x205F, 0x3000, 0xFEFF]

/-- A text without its white space at the end. -/
def trimEnd (t : Text) : Text := (t.reverse.dropWhile (· ∈ whiteSpace)).reverse

/-- `BigInt` of `0x` and a text. -/
def hexBigInt (t : Text) : Except Text ℕ :=
  match trimEnd t with
  | [] => .error (lit "Cannot convert 0x" ++ t ++ lit " to a BigInt")
  | u :: digits =>
    match hexDigitsValue 0 (u :: digits) with
    | some n => .ok n
    | none => .error (lit "Cannot convert 0x" ++ t ++ lit " to a BigInt")

/-- `n.toString(16).padStart(width, "0")`. -/
def paddedHex (width n : ℕ) : Text :=
  let digits := (Nat.toDigits 16 n).map unit
  List.replicate (width - digits.length) (unit '0') ++ digits

theorem hexDigitValue_of_isHexDigit (h : isHexDigit u) : ∃ d < 16, hexDigitValue u = some d := by
  rw [isHexDigit_iff] at h
  rcases h with h | h
  · have hd : isDigit u := isDigit_iff.2 h
    exact ⟨u.toNat - 48, by omega, by rw [hexDigitValue, if_pos hd]⟩
  · have hd : ¬isDigit u := fun hd => by
      have := isDigit_iff.1 hd
      omega
    have ha : unit 'a' ≤ u ∧ u ≤ unit 'f' := by
      simpa [UInt16.le_iff_toNat_le, unit] using h
    exact ⟨u.toNat - 87, by omega, by rw [hexDigitValue, if_neg hd, if_pos ha]⟩

theorem hexDigitsValue_lt (h : ∀ u ∈ t, ∃ d < 16, hexDigitValue u = some d) (m : ℕ) :
    ∃ v < (m + 1) * 16 ^ t.length, hexDigitsValue m t = some v := by
  induction t generalizing m with
  | nil => exact ⟨m, by simp, rfl⟩
  | cons u t ih =>
    obtain ⟨d, hd, hu⟩ := h u mem_cons_self
    obtain ⟨v, hv, ht⟩ := ih (fun u hu => h u (mem_cons_of_mem _ hu)) (16 * m + d)
    refine ⟨v, hv.trans_le ?_, by rw [hexDigitsValue, hu, Option.bind_eq_bind, Option.bind_some, ht]⟩
    calc (16 * m + d + 1) * 16 ^ t.length ≤ (16 * (m + 1)) * 16 ^ t.length :=
          Nat.mul_le_mul_right _ (by omega)
      _ = (m + 1) * 16 ^ (u :: t).length := by
          rw [length_cons, pow_succ]
          ring

theorem trimEnd_of_isHexDigit (h : ∀ u ∈ t, isHexDigit u) : trimEnd t = t := by
  have hspace : ∀ u ∈ whiteSpace, ¬isHexDigit u := by
    intro u hu
    have hvalue : u.toNat ∈ whiteSpace.map UInt16.toNat := mem_map_of_mem hu
    rw [isHexDigit_iff]
    simp [whiteSpace] at hvalue
    omega
  have hdrop : t.reverse.dropWhile (· ∈ whiteSpace) = t.reverse := by
    cases hr : t.reverse with
    | nil => rfl
    | cons u r =>
      have hu : u ∉ whiteSpace := fun hu =>
        hspace u hu (h u (mem_reverse.1 (hr ▸ mem_cons_self)))
      rw [dropWhile_cons_of_neg (by simpa using hu)]
  rw [trimEnd, hdrop, reverse_reverse]

/-- Hex digits read as a big integer. -/
theorem hexBigInt_of_hexOf (hn : 0 < n) (h : hexOf n t) : ∃ v < 16 ^ n, hexBigInt t = .ok v := by
  have hall : ∀ u ∈ t, isHexDigit u := fun u hu => isHexDigit_of_mem_hexOf h hu
  obtain ⟨v, hv, hvalue⟩ :=
    hexDigitsValue_lt (fun u hu => hexDigitValue_of_isHexDigit (hall u hu)) 0
  rw [length_of_hexOf h] at hv
  refine ⟨v, by omega, ?_⟩
  rw [hexBigInt, trimEnd_of_isHexDigit hall]
  cases t with
  | nil =>
    have := length_of_hexOf h
    simp at this
    omega
  | cons u t =>
    dsimp only
    rw [hvalue]

theorem isHexDigit_of_mem_toDigits {c : Char} (h : c ∈ Nat.toDigits 16 n) :
    isHexDigit (unit c) := by
  have hdigit : ∀ d < 16, isHexDigit (unit d.digitChar) := by decide
  induction n using Nat.strong_induction_on with
  | _ n ih =>
    rw [Nat.toDigits_eq_if (by norm_num)] at h
    split at h
    · next hlt =>
      rw [mem_singleton.1 h]
      exact hdigit n hlt
    · rcases mem_append.1 h with h | h
      · exact ih (n / 16) (by omega) h
      · rw [mem_singleton.1 h]
        exact hdigit _ (Nat.mod_lt _ (by norm_num))

theorem hexOf_paddedHex {width : ℕ} (hw : 0 < width) (h : n < 16 ^ width) :
    hexOf width (paddedHex width n) := by
  have hlen := (Nat.length_toDigits_le_iff (b := 16) (by norm_num) hw).2 h
  simp only [hexOf, Bool.and_eq_true, beq_iff_eq, all_eq_true]
  refine ⟨?_, fun u hu => ?_⟩
  · simp only [paddedHex, length_append, length_replicate, length_map]
    omega
  · rcases mem_append.1 hu with hu | hu
    · rw [eq_of_mem_replicate hu]
      decide
    · obtain ⟨c, hc, rfl⟩ := mem_map.1 hu
      exact isHexDigit_of_mem_toDigits hc

/-- A value. The fields of an object are listed in their order, each key once. -/
inductive Value
  | undefined
  | null
  | bool (b : Bool)
  | num (x : Number)
  | bigint (z : ℤ)
  | str (t : Text)
  | arr (vs : List Value)
  | obj (fields : List (Text × Value))

namespace Value

/-- Reading a field of an object: `undefined` where it has none. -/
def get : Value → Text → Value
  | obj fields, key => (fields.lookup key).getD undefined
  | _, _ => undefined

/-- Reading a field of any value: `undefined` and `null` have none, and reading
    throws. -/
def read (value : Value) (key : Text) : Except Text Value :=
  match value with
  | undefined => .error (lit "Cannot read properties of undefined (reading '" ++ key ++ lit "')")
  | null => .error (lit "Cannot read properties of null (reading '" ++ key ++ lit "')")
  | value => .ok (value.get key)

/-- `value === t` for a text `t`. -/
def isText (value : Value) (t : Text) : Bool :=
  match value with
  | str s => s = t
  | _ => false

/-- `value === x` for a number `x`. -/
def isNumber (value : Value) (x : Number) : Bool :=
  match value with
  | num y => y = x
  | _ => false

@[simp] theorem isText_iff {value : Value} : value.isText t ↔ value = str t := by
  cases value <;> simp [isText]

@[simp] theorem isNumber_iff {value : Value} : value.isNumber x ↔ value = num x := by
  cases value <;> simp [isNumber]

/-- The values a `for ... of` goes through. (A text gives its characters: as one
    is like another where no field of them is used, they are its units.) -/
def iterate (value : Value) : Except Text (List Value) :=
  match value with
  | arr vs => .ok vs
  | str t => .ok (t.map fun u => str [u])
  | _ => .error (lit "is not iterable")

/-- A text as `JSON.stringify` writes it between quotes: quotes, backslashes,
    control characters and unpaired surrogates are escaped. -/
def escapeUnit (u : UInt16) : Text :=
  if u = 0x08 then lit "\\b"
  else if u = 0x09 then lit "\\t"
  else if u = 0x0A then lit "\\n"
  else if u = 0x0C then lit "\\f"
  else if u = 0x0D then lit "\\r"
  else if u = 0x22 then lit "\\\""
  else if u = 0x5C then lit "\\\\"
  else if u < 0x20 || isHigh u || isLow u then
    lit "\\u" ++ [12, 8, 4, 0].map fun i =>
      let d := u.toNat / 2 ^ i % 16
      if d < 10 then (48 + d).toUInt16 else (87 + d).toUInt16
  else [u]

/-- The escaped units of a text; a surrogate pair is kept. -/
def escape : Text → Text
  | [] => []
  | [u] => escapeUnit u
  | u :: v :: t => if isHigh u && isLow v then u :: v :: escape t else escapeUnit u ++ escape (v :: t)

/-- A text in quotes. -/
def quote (t : Text) : Text := 0x22 :: (escape t ++ [0x22])

/-- The texts of the numbers that JSON has no notation for. -/
def notFinite : List Text := [lit "Infinity", lit "-Infinity", lit "NaN"]

mutual

/-- `JSON.stringify`. `none` where it throws (a big integer) or gives nothing
    (`undefined`). -/
def stringify : Value → Option Text
  | undefined => none
  | null => some (lit "null")
  | bool b => some (if b then lit "true" else lit "false")
  | num x => some (if x.toText ∈ notFinite then lit "null" else x.toText)
  | bigint _ => none
  | str t => some (quote t)
  | arr vs => (stringifyItems vs).map fun items => 0x5B :: (join (unit ',') items ++ [0x5D])
  | obj fields => (stringifyFields fields).map fun items => 0x7B :: (join (unit ',') items ++ [0x7D])

/-- The elements of an array: `undefined` is written as `null`. -/
def stringifyItems : List Value → Option (List Text)
  | [] => some []
  | undefined :: vs => (stringifyItems vs).map (lit "null" :: ·)
  | v :: vs => do
    let t ← stringify v
    let ts ← stringifyItems vs
    pure (t :: ts)

/-- The fields of an object: those that are `undefined` are left out. -/
def stringifyFields : List (Text × Value) → Option (List Text)
  | [] => some []
  | (_, undefined) :: fields => stringifyFields fields
  | (key, v) :: fields => do
    let t ← stringify v
    let ts ← stringifyFields fields
    pure ((quote key ++ unit ':' :: t) :: ts)

end

mutual

/-- The text an implicit conversion gives: `none` where the conversion throws,
    because an object hides its `toString`. -/
def toText : Value → Option Text
  | undefined => some (lit "undefined")
  | null => some (lit "null")
  | bool b => some (if b then lit "true" else lit "false")
  | num x => some x.toText
  | bigint z => some (decimalInt z)
  | str t => some t
  | arr vs => (toTexts vs).map (join (unit ','))
  | obj fields => if (fields.lookup (lit "toString")).isSome then none else some (lit "[object Object]")

/-- The elements of an array: `null` and `undefined` convert to nothing. -/
def toTexts : List Value → Option (List Text)
  | [] => some []
  | undefined :: vs => (toTexts vs).map ([] :: ·)
  | null :: vs => (toTexts vs).map ([] :: ·)
  | v :: vs => do
    let t ← toText v
    let ts ← toTexts vs
    pure (t :: ts)

end

/-- A value within a template literal. -/
def interpolate (value : Value) : Except Text Text :=
  match value.toText with
  | some t => .ok t
  | none => .error (lit "Cannot convert object to primitive value")

/-! ## The size of a written value -/

/-- The size of what `JSON.stringify` writes. -/
def byteSize (v : Value) : ℕ := byteLength (v.stringify.getD [])

variable {fields : List (Text × Value)} {vs : List Value}

/-- What `JSON.stringify` writes of an object whose fields it all writes. -/
theorem stringifyFields_eq (h : ∀ f ∈ fields, f.2.stringify.isSome) :
    stringifyFields fields =
      some (fields.map fun f => quote f.1 ++ unit ':' :: f.2.stringify.getD []) := by
  induction fields with
  | nil => rfl
  | cons f fields ih =>
    obtain ⟨key, v⟩ := f
    obtain ⟨t, ht⟩ := Option.isSome_iff_exists.1 (h _ mem_cons_self)
    have hrest := ih fun f hf => h f (mem_cons_of_mem _ hf)
    cases v with
    | undefined => cases ht
    | _ =>
      simp only at ht
      simp [stringifyFields, hrest, ht]

theorem stringifyItems_eq (h : ∀ v ∈ vs, v.stringify.isSome) :
    stringifyItems vs = some (vs.map fun v => v.stringify.getD []) := by
  induction vs with
  | nil => rfl
  | cons v vs ih =>
    obtain ⟨t, ht⟩ := Option.isSome_iff_exists.1 (h _ mem_cons_self)
    have hrest := ih fun v hv => h v (mem_cons_of_mem _ hv)
    cases v with
    | undefined => cases ht
    | _ => simp [stringifyItems, hrest, ht]

theorem isSome_stringify_obj (h : ∀ f ∈ fields, f.2.stringify.isSome) :
    (obj fields).stringify.isSome := by
  simp [stringify, stringifyFields_eq h]

theorem isSome_stringify_arr (h : ∀ v ∈ vs, v.stringify.isSome) : (arr vs).stringify.isSome := by
  simp [stringify, stringifyItems_eq h]

/-- An object takes a brace, and for each field its name, a colon, its value and a
    comma or the other brace. -/
theorem byteSize_obj (hne : fields ≠ []) (h : ∀ f ∈ fields, f.2.stringify.isSome) :
    (obj fields).byteSize =
      1 + (fields.map fun f => byteLength (quote f.1) + f.2.byteSize + 2).sum := by
  have hitems : (fields.map fun f => quote f.1 ++ unit ':' :: f.2.stringify.getD []) ≠ [] := by
    simpa using hne
  have hjoin := byteLength_join (c := unit ',') (by decide) hitems
  rw [byteSize, stringify, stringifyFields_eq h, Option.map_some, Option.getD_some,
    byteLength_cons (by decide), byteLength_append_singleton (by decide), hjoin, map_map]
  refine congrArg (fun l => 1 + List.sum l) (map_congr_left fun f _ => ?_)
  rw [Function.comp_apply, byteLength_append_cons (by decide), byteSize]
  omega

/-- An array takes a bracket, and for each item its value and a comma or the other
    bracket. -/
theorem byteSize_arr (hne : vs ≠ []) (h : ∀ v ∈ vs, v.stringify.isSome) :
    (arr vs).byteSize = 1 + (vs.map fun v => v.byteSize + 1).sum := by
  have hitems : (vs.map fun v => v.stringify.getD []) ≠ [] := by simpa using hne
  have hjoin := byteLength_join (c := unit ',') (by decide) hitems
  rw [byteSize, stringify, stringifyItems_eq h, Option.map_some, Option.getD_some,
    byteLength_cons (by decide), byteLength_append_singleton (by decide), hjoin, map_map]
  rfl

/-- Items that grow make the array grow by as much. -/
theorem byteSize_arr_add {α : Type} {f g : α → Value} {d : α → ℕ} {as : List α}
    (hf : ∀ a ∈ as, (f a).stringify.isSome) (hg : ∀ a ∈ as, (g a).stringify.isSome)
    (h : ∀ a ∈ as, (f a).byteSize = (g a).byteSize + d a) :
    (arr (as.map f)).byteSize = (arr (as.map g)).byteSize + (as.map d).sum := by
  cases as with
  | nil => rfl
  | cons a as =>
    rw [byteSize_arr (by simp) (forall_mem_map.2 hf), byteSize_arr (by simp)
      (forall_mem_map.2 hg), map_map, map_map, add_assoc, ← sum_map_add]
    refine congrArg (fun l => 1 + List.sum l) (map_congr_left fun a ha => ?_)
    simp only [Function.comp_apply, h a ha]
    omega

/-- An array is larger than its items. -/
theorem sum_byteSize_le {α : Type} {g : α → Value} {as : List α}
    (hg : ∀ a ∈ as, (g a).stringify.isSome) :
    (as.map fun a => (g a).byteSize).sum ≤ (arr (as.map g)).byteSize := by
  cases as with
  | nil => simp
  | cons a as =>
    rw [byteSize_arr (by simp) (forall_mem_map.2 hg), map_map]
    refine le_trans (sum_le_sum fun a _ => ?_) (Nat.le_add_left _ _)
    exact Nat.le_succ _

theorem byteSize_nat (n : ℕ) : (num (.ofNat n)).byteSize = (decimal n).length := by
  have hdigits : ∀ u ∈ decimal n, u.toNat < 128 := fun u hu => by
    have := isDigit_iff.1 (isDigit_of_mem_decimal hu)
    omega
  have hfinite : decimal n ∉ notFinite := by
    intro h
    have hbad : ∃ u ∈ decimal n, isDigit u = false := by
      simp only [notFinite, mem_cons, not_mem_nil, or_false] at h
      rcases h with h | h | h <;> rw [h] <;> decide
    obtain ⟨u, hu, hd⟩ := hbad
    rw [isDigit_of_mem_decimal hu] at hd
    cases hd
  rw [byteSize, stringify, Number.toText_ofNat, if_neg hfinite, Option.getD_some,
    byteLength_of_ascii hdigits]

theorem byteSize_str (t : Text) : (str t).byteSize = byteLength (quote t) := rfl

theorem escapeUnit_of_isHexDigit (h : isHexDigit u) : escapeUnit u = [u] := by
  have hne : ∀ v, isHexDigit v = false → u ≠ v := by
    rintro v hv rfl
    rw [h] at hv
    cases hv
  have hscalar := Scalar.of_isHexDigit h
  have hlow : ¬u < 0x20 := by
    rw [UInt16.lt_iff_toNat_lt]
    rcases isHexDigit_iff.1 h with h | h
    · exact not_lt.2 (le_trans (by decide) h.1)
    · exact not_lt.2 (le_trans (by decide) h.1)
  rw [escapeUnit, if_neg (hne _ (by decide)), if_neg (hne _ (by decide)), if_neg (hne _ (by decide)),
    if_neg (hne _ (by decide)), if_neg (hne _ (by decide)), if_neg (hne _ (by decide)),
    if_neg (hne _ (by decide)), if_neg (by simp [hlow, hscalar.1, hscalar.2])]

theorem escape_eq_self (h : ∀ u ∈ t, escapeUnit u = [u]) : escape t = t := by
  induction t using escape.induct with
  | case1 => rfl
  | case2 u => exact h u mem_cons_self
  | case3 u v t hpair ih =>
    rw [escape, if_pos hpair, ih fun w hw => h w (mem_cons_of_mem _ (mem_cons_of_mem _ hw))]
  | case4 u v t hpair ih =>
    rw [escape, if_neg hpair, h u mem_cons_self, ih fun w hw => h w (mem_cons_of_mem _ hw),
      singleton_append]

theorem escape_of_isHexDigit (h : ∀ u ∈ t, isHexDigit u) : escape t = t :=
  escape_eq_self fun u hu => escapeUnit_of_isHexDigit (h u hu)

/-- A text that is written as it is, in quotes. -/
theorem byteLength_quote (h : ∀ u ∈ t, escapeUnit u = [u] ∧ u.toNat < 128) :
    byteLength (quote t) = t.length + 2 := by
  rw [quote, byteLength_cons (by decide), byteLength_append_singleton (by decide),
    escape_eq_self fun u hu => (h u hu).1, byteLength_of_ascii fun u hu => (h u hu).2]
  omega

theorem byteLength_quote_of_hexOf (h : hexOf n t) : byteLength (quote t) = n + 2 := by
  rw [byteLength_quote, length_of_hexOf h]
  intro u hu
  have hhex := isHexDigit_of_mem_hexOf h hu
  have := isHexDigit_iff.1 hhex
  exact ⟨escapeUnit_of_isHexDigit hhex, by omega⟩

theorem byteLength_quote_decimalInt (z : ℤ) :
    byteLength (quote (decimalInt z)) = (decimalInt z).length + 2 := by
  refine byteLength_quote fun u hu => ?_
  rcases mem_decimalInt hu with rfl | hdigit
  · decide
  · have := isDigit_iff.1 hdigit
    exact ⟨escapeUnit_of_isHexDigit (isHexDigit_of_isDigit hdigit), by omega⟩

end Value

end Js
