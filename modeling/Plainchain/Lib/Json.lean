import Plainchain.Lib.Value

/-!
# Documents

JSON as a format: what `JSON.parse` reads of what `JSON.stringify` writes.

Texts are not parsed here: `JSON.parse` and `JSON.stringify` are taken to be correct,
and a text stands for the document that it denotes. What is not taken for granted is
what a document keeps of a value (`Value.written`): fields that are `undefined` are
left out, a number without a notation is written as `null`, and a big integer is not
written at all.

* `Value.induct`: induction over values;
* `Value.stringify_written`: a value and its document have one text;
* `Value.written_of_plain`: what is kept as it is;
* `bigIntOf`: `BigInt` of a text, which reads what `toString` printed.
-/

namespace Js

open List

/-! ## Big integers from texts -/

/-- A text without the white space around it. -/
def trim (t : Text) : Text := trimEnd (t.dropWhile (· ∈ whiteSpace))

/-- The base that the first two units of a literal announce. -/
def radixOf : Text → Option ℕ
  | zero :: letter :: _ =>
    if zero = unit '0' then
      if letter = unit 'x' ∨ letter = unit 'X' then some 16
      else if letter = unit 'o' ∨ letter = unit 'O' then some 8
      else if letter = unit 'b' ∨ letter = unit 'B' then some 2
      else none
    else none
  | _ => none

/-- The value of digits in a base. -/
def radixValue (radix : ℕ) (digits : Text) : Option ℕ :=
  if digits = [] then none
  else digits.foldlM (fun n u => do
    let d ← hexDigitValue u
    if d < radix then some (radix * n + d) else none) 0

def decimalValue (digits : Text) : Option ℕ :=
  if digits ≠ [] ∧ digits.all isDigit then some (digitsValue digits) else none

/-- Decimal digits after a sign, if any. -/
def signedValue : Text → Option ℤ
  | [] => none
  | u :: t =>
    if u = unit '-' then (decimalValue t).map fun n => -(n : ℤ)
    else if u = unit '+' then (decimalValue t).map fun n => (n : ℤ)
    else (decimalValue (u :: t)).map fun n => (n : ℤ)

/-- `BigInt` of a text. -/
def bigIntOf (t : Text) : Except Text ℤ :=
  let literal := trim t
  let value : Option ℤ :=
    if literal = [] then some 0
    else match radixOf literal with
      | some radix => (radixValue radix (literal.drop 2)).map fun n => (n : ℤ)
      | none => signedValue literal
  match value with
  | some z => .ok z
  | none => .error (lit "Cannot convert " ++ t ++ lit " to a BigInt")

theorem trim_of_forall {t : Text} (h : ∀ u ∈ t, u ∉ whiteSpace) : trim t = t := by
  have hdrop : ∀ s : Text, (∀ u ∈ s, u ∉ whiteSpace) → s.dropWhile (· ∈ whiteSpace) = s := by
    intro s hs
    cases s with
    | nil => rfl
    | cons u s => rw [dropWhile_cons_of_neg (by simpa using hs u mem_cons_self)]
  rw [trim, hdrop t h, trimEnd, hdrop t.reverse fun u hu => h u (mem_reverse.1 hu),
    reverse_reverse]

theorem notMem_whiteSpace_of_mem_decimalInt {z : ℤ} {u : UInt16} (h : u ∈ decimalInt z) :
    u ∉ whiteSpace := by
  rcases mem_decimalInt h with rfl | hd
  · decide
  · intro hu
    have hvalue : u.toNat ∈ whiteSpace.map UInt16.toNat := mem_map_of_mem hu
    have hdigit := isDigit_iff.1 hd
    simp [whiteSpace] at hvalue
    omega

theorem decimalValue_decimal (n : ℕ) : decimalValue (decimal n) = some n := by
  have hall : (decimal n).all isDigit := all_eq_true.2 fun u hu => isDigit_of_mem_decimal hu
  rw [decimalValue, if_pos ⟨decimal_ne_nil n, hall⟩]
  exact congrArg some (digitsValue_zeros_decimal 0 n)

theorem radixOf_decimalInt (z : ℤ) : radixOf (decimalInt z) = none := by
  rcases hz : decimalInt z with _ | ⟨u, _ | ⟨v, t⟩⟩
  · rfl
  · rfl
  · -- The second unit is a digit, so it announces no base.
    have hv : isDigit v := by
      cases z with
      | ofNat n => exact isDigit_of_mem_decimal (n := n) (by rw [show decimal n = _ from hz]; simp)
      | negSucc n =>
        have htail : decimal (n + 1) = v :: t := (List.cons.inj hz).2
        exact isDigit_of_mem_decimal (n := n + 1) (by rw [htail]; exact mem_cons_self)
    have hne : ∀ c : UInt16, isDigit c = false → v ≠ c := by
      rintro c hc rfl
      rw [hv] at hc
      cases hc
    simp only [radixOf, hne _ (show isDigit (unit 'x') = false from rfl),
      hne _ (show isDigit (unit 'X') = false from rfl), hne _ (show isDigit (unit 'o') = false from rfl),
      hne _ (show isDigit (unit 'O') = false from rfl), hne _ (show isDigit (unit 'b') = false from rfl),
      hne _ (show isDigit (unit 'B') = false from rfl), or_self, if_false, ite_self]

theorem signedValue_decimalInt (z : ℤ) : signedValue (decimalInt z) = some z := by
  cases z with
  | ofNat n =>
    have hfirst : ∀ u t, decimal n = u :: t → u ≠ unit '-' ∧ u ≠ unit '+' := by
      intro u t hd
      have hu : isDigit u := isDigit_of_mem_decimal (n := n) (by rw [hd]; exact mem_cons_self)
      constructor
      · rintro rfl
        revert hu
        decide
      · rintro rfl
        revert hu
        decide
    rw [decimalInt]
    rcases hd : decimal n with _ | ⟨u, t⟩
    · exact absurd hd (decimal_ne_nil n)
    · obtain ⟨hminus, hplus⟩ := hfirst u t hd
      rw [signedValue, if_neg hminus, if_neg hplus, ← hd, decimalValue_decimal]
      rfl
  | negSucc n =>
    rw [decimalInt, signedValue, if_pos rfl, decimalValue_decimal]
    rfl

/-- What `toString` prints of a big integer is read back. -/
theorem bigIntOf_decimalInt (z : ℤ) : bigIntOf (decimalInt z) = .ok z := by
  have htrim : trim (decimalInt z) = decimalInt z :=
    trim_of_forall fun _ => notMem_whiteSpace_of_mem_decimalInt
  have hne : decimalInt z ≠ [] := by
    cases z with
    | ofNat n => exact decimal_ne_nil n
    | negSucc n => simp [decimalInt]
  rw [bigIntOf]
  simp only [htrim, hne, if_false, radixOf_decimalInt, signedValue_decimalInt]

/-! ## Values and documents -/

/-- A number that JSON has a notation for. -/
def Number.Finite (x : Number) : Prop := x.toText ∉ Value.notFinite

instance (x : Number) : Decidable x.Finite := inferInstanceAs (Decidable (_ ∉ _))

theorem Number.finite_int (z : ℤ) : (Number.int z).Finite := by
  have hbad : ∀ t ∈ Value.notFinite, ∃ u ∈ t, u ≠ unit '-' ∧ isDigit u = false := by
    intro t ht
    simp only [Value.notFinite, mem_cons, not_mem_nil, or_false] at ht
    rcases ht with rfl | rfl | rfl <;> decide
  intro h
  obtain ⟨u, hu, hminus, hdigit⟩ := hbad _ h
  rcases mem_decimalInt hu with rfl | hd
  · exact hminus rfl
  · rw [hd] at hdigit
    cases hdigit

theorem Number.finite_ofNat (n : ℕ) : (Number.ofNat n).Finite := Number.finite_int n

theorem Number.IsIndex.finite {x : Number} (h : x.IsIndex) : x.Finite := by
  obtain ⟨n, -, rfl⟩ := h
  exact Number.finite_ofNat n

namespace Value

section Induct

variable {P : Value → Prop} (undefined : P undefined) (null : P null) (bool : ∀ b, P (bool b))
  (num : ∀ x, P (num x)) (bigint : ∀ z, P (bigint z)) (str : ∀ t, P (str t))
  (arr : ∀ vs, (∀ v ∈ vs, P v) → P (arr vs)) (obj : ∀ fields, (∀ f ∈ fields, P f.2) → P (obj fields))

include undefined null bool num bigint str arr obj

/-- Induction over a value, its elements and its fields. -/
@[elab_as_elim]
theorem induct (v : Value) : P v := by
  refine @Value.rec P (fun vs => ∀ v ∈ vs, P v) (fun fields => ∀ f ∈ fields, P f.2)
    (fun f => P f.2) undefined null bool num bigint str arr obj (by simp) ?_ (by simp) ?_ ?_ v
  · intro v vs hv hvs
    exact forall_mem_cons.2 ⟨hv, hvs⟩
  · intro f fields hf hfields
    exact forall_mem_cons.2 ⟨hf, hfields⟩
  · exact fun _ _ hv => hv

end Induct

mutual

/-- What `JSON.parse` reads of what `JSON.stringify` wrote: `none` where nothing was
    written. -/
def written : Value → Option Value
  | undefined => none
  | null => some null
  | bool b => some (bool b)
  | num x => some (if x.toText ∈ notFinite then null else num x)
  | bigint _ => none
  | str t => some (str t)
  | arr vs => (writtenItems vs).map arr
  | obj fields => (writtenFields fields).map obj

def writtenItems : List Value → Option (List Value)
  | [] => some []
  | undefined :: vs => (writtenItems vs).map (null :: ·)
  | v :: vs => do
    let d ← written v
    let ds ← writtenItems vs
    pure (d :: ds)

def writtenFields : List (Text × Value) → Option (List (Text × Value))
  | [] => some []
  | (_, undefined) :: fields => writtenFields fields
  | (key, v) :: fields => do
    let d ← written v
    let ds ← writtenFields fields
    pure ((key, d) :: ds)

end

variable {fields : List (Text × Value)} {vs : List Value}

section Written

variable {f g : Value → Value}

/-- The elements of an array, where all of them are written. -/
theorem writtenItems_map (h : ∀ v ∈ vs, (f v).written = some (g v)) :
    writtenItems (vs.map f) = some (vs.map g) := by
  induction vs with
  | nil => rfl
  | cons v vs ih =>
    rw [forall_mem_cons] at h
    have hrest := ih h.2
    have hv := h.1
    rw [map_cons, map_cons]
    cases hf : f v with
    | undefined =>
      rw [hf] at hv
      cases hv
    | _ =>
      rw [hf] at hv
      simp [writtenItems, hv, hrest]

/-- The fields of an object, where all of them are written. -/
theorem writtenFields_map (h : ∀ p ∈ fields, (f p.2).written = some (g p.2)) :
    writtenFields (fields.map fun p => (p.1, f p.2)) = some (fields.map fun p => (p.1, g p.2)) := by
  induction fields with
  | nil => rfl
  | cons p fields ih =>
    rw [forall_mem_cons] at h
    have hrest := ih h.2
    have hv := h.1
    rw [map_cons, map_cons]
    cases hf : f p.2 with
    | undefined =>
      rw [hf] at hv
      cases hv
    | _ =>
      rw [hf] at hv
      simp [writtenFields, hv, hrest]

end Written

theorem written_ne_undefined (v : Value) : v.written ≠ some undefined := by
  cases v with
  | num x =>
    rw [written]
    split <;> simp
  | _ => simp [written]

section Cons

variable {v : Value} (hv : v ≠ undefined)

include hv

theorem stringifyItems_cons (vs : List Value) :
    stringifyItems (v :: vs) = (stringify v).bind fun t => (stringifyItems vs).map (t :: ·) := by
  cases v with
  | undefined => exact absurd rfl hv
  | _ => simp [stringifyItems, Option.map_eq_bind]

theorem writtenItems_cons (vs : List Value) :
    writtenItems (v :: vs) = (written v).bind fun d => (writtenItems vs).map (d :: ·) := by
  cases v with
  | undefined => exact absurd rfl hv
  | _ => simp [writtenItems, Option.map_eq_bind]

theorem stringifyFields_cons (key : Text) (fields : List (Text × Value)) :
    stringifyFields ((key, v) :: fields) = (stringify v).bind fun t =>
      (stringifyFields fields).map ((quote key ++ unit ':' :: t) :: ·) := by
  cases v with
  | undefined => exact absurd rfl hv
  | _ => simp [stringifyFields, Option.map_eq_bind]

theorem writtenFields_cons (key : Text) (fields : List (Text × Value)) :
    writtenFields ((key, v) :: fields) =
      (written v).bind fun d => (writtenFields fields).map ((key, d) :: ·) := by
  cases v with
  | undefined => exact absurd rfl hv
  | _ => simp [writtenFields, Option.map_eq_bind]

end Cons

theorem stringifyItems_written (h : ∀ v ∈ vs, v.written.bind stringify = v.stringify) :
    (writtenItems vs).bind stringifyItems = stringifyItems vs := by
  induction vs with
  | nil => rfl
  | cons v vs ih =>
    rw [forall_mem_cons] at h
    by_cases hv : v = undefined
    · subst hv
      rw [writtenItems, stringifyItems, ← ih h.2]
      cases writtenItems vs with
      | none => rfl
      | some ds => simp [stringifyItems_cons, stringify]
    · rw [writtenItems_cons hv, stringifyItems_cons hv, ← h.1, ← ih h.2]
      cases hd : v.written with
      | none => rfl
      | some d =>
        have hne : d ≠ undefined := fun heq => written_ne_undefined v (heq ▸ hd)
        cases writtenItems vs with
        | none => simp
        | some ds => simp [stringifyItems_cons hne]

theorem stringifyFields_written (h : ∀ f ∈ fields, f.2.written.bind stringify = f.2.stringify) :
    (writtenFields fields).bind stringifyFields = stringifyFields fields := by
  induction fields with
  | nil => rfl
  | cons f fields ih =>
    obtain ⟨key, v⟩ := f
    rw [forall_mem_cons] at h
    by_cases hv : v = undefined
    · subst hv
      rw [writtenFields, stringifyFields, ih h.2]
    · rw [writtenFields_cons hv, stringifyFields_cons hv, ← h.1, ← ih h.2]
      cases hd : v.written with
      | none => rfl
      | some d =>
        have hne : d ≠ undefined := fun heq => written_ne_undefined v (heq ▸ hd)
        cases writtenFields fields with
        | none => simp
        | some ds => simp [stringifyFields_cons hne]

/-- A value and its document have one text. -/
theorem stringify_written (v : Value) : v.written.bind stringify = v.stringify := by
  induction v using induct with
  | num x =>
    rw [written, Option.bind_some, stringify]
    split
    · rfl
    · next hfinite => rw [stringify, if_neg hfinite]
  | arr vs ih =>
    rw [written, stringify, ← stringifyItems_written ih]
    cases writtenItems vs <;> rfl
  | obj fields ih =>
    rw [written, stringify, ← stringifyFields_written ih]
    cases writtenFields fields <;> rfl
  | _ => rfl

mutual

/-- A value that JSON keeps as it is. -/
def Plain : Value → Prop
  | undefined => False
  | bigint _ => False
  | num x => x.Finite
  | arr vs => PlainItems vs
  | obj fields => PlainFields fields
  | _ => True

def PlainItems : List Value → Prop
  | [] => True
  | v :: vs => Plain v ∧ PlainItems vs

def PlainFields : List (Text × Value) → Prop
  | [] => True
  | (_, v) :: fields => Plain v ∧ PlainFields fields

end

@[simp] theorem plain_str (t : Text) : (str t).Plain := trivial

@[simp] theorem plain_bool (b : Bool) : (bool b).Plain := trivial

@[simp] theorem plain_num {x : Number} : (num x).Plain ↔ x.Finite := Iff.rfl

@[simp] theorem plain_arr : (arr vs).Plain ↔ ∀ v ∈ vs, v.Plain := by
  change PlainItems vs ↔ _
  induction vs with
  | nil => exact iff_of_true trivial (forall_mem_nil _)
  | cons v vs ih =>
    rw [forall_mem_cons]
    exact and_congr_right fun _ => ih

@[simp] theorem plain_obj : (obj fields).Plain ↔ ∀ f ∈ fields, f.2.Plain := by
  change PlainFields fields ↔ _
  induction fields with
  | nil => exact iff_of_true trivial (forall_mem_nil _)
  | cons f fields ih =>
    rw [forall_mem_cons]
    exact and_congr_right fun _ => ih

/-- A plain value is its own document. -/
theorem written_of_plain {v : Value} (h : v.Plain) : v.written = some v := by
  induction v using induct with
  | undefined => exact h.elim
  | bigint z => exact h.elim
  | num x => rw [written, if_neg (plain_num.1 h)]
  | null => rfl
  | bool b => rfl
  | str t => rfl
  | arr vs ih =>
    rw [plain_arr] at h
    have hitems := writtenItems_map (f := id) (g := id) fun v hv => ih v hv (h v hv)
    rw [map_id] at hitems
    rw [written, hitems, Option.map_some]
  | obj fields ih =>
    rw [plain_obj] at h
    have hfields := writtenFields_map (f := id) (g := id) fun p hp => ih p hp (h p hp)
    rw [show (fun p : Text × Value => (p.1, id p.2)) = id from rfl, map_id] at hfields
    rw [written, hfields, Option.map_some]

/-! ## Replacing big integers -/

mutual

/-- A value with something else for each of its big integers, as a replacer puts it. -/
def mapBigints (f : ℤ → Value) : Value → Value
  | bigint z => f z
  | arr vs => arr (mapBigintsItems f vs)
  | obj fields => obj (mapBigintsFields f fields)
  | v => v

def mapBigintsItems (f : ℤ → Value) : List Value → List Value
  | [] => []
  | v :: vs => mapBigints f v :: mapBigintsItems f vs

def mapBigintsFields (f : ℤ → Value) : List (Text × Value) → List (Text × Value)
  | [] => []
  | (key, v) :: fields => (key, mapBigints f v) :: mapBigintsFields f fields

end

section MapBigints

variable (f : ℤ → Value)

@[simp] theorem mapBigints_bigint (z : ℤ) : mapBigints f (bigint z) = f z := rfl

@[simp] theorem mapBigints_str (t : Text) : mapBigints f (str t) = str t := rfl

@[simp] theorem mapBigints_num (x : Number) : mapBigints f (num x) = num x := rfl

@[simp] theorem mapBigints_bool (b : Bool) : mapBigints f (bool b) = bool b := rfl

@[simp] theorem mapBigints_null : mapBigints f null = null := rfl

@[simp] theorem mapBigints_arr (vs : List Value) :
    mapBigints f (arr vs) = arr (vs.map (mapBigints f)) := by
  refine congrArg arr ?_
  induction vs with
  | nil => rfl
  | cons v vs ih => exact congrArg (mapBigints f v :: ·) ih

@[simp] theorem mapBigints_obj (fields : List (Text × Value)) :
    mapBigints f (obj fields) = obj (fields.map fun p => (p.1, mapBigints f p.2)) := by
  refine congrArg obj ?_
  induction fields with
  | nil => rfl
  | cons p fields ih => exact congrArg ((p.1, mapBigints f p.2) :: ·) ih

end MapBigints

/-- What is read of a value that was written: `JSON.parse` of `JSON.stringify`, and what
    `read` makes of it. -/
def reread {α : Type} (v : Value) (read : Value → Except Text α) : Except Text α :=
  match v.written with
  | some document => read document
  | none => .error (lit "nothing is written")

theorem reread_of_plain {α : Type} {v : Value} (h : v.Plain) (read : Value → Except Text α) :
    v.reread read = read v := by
  rw [reread, written_of_plain h]

end Value

end Js
