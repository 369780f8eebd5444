import Plainchain.Lib.Check
import Plainchain.Lib.Json

/-!
# Big integers in documents

JSON has no big integers. A replacer writes them as objects with one field, whose
key is a marker, and a reviver, which `JSON.parse` applies to every value from the
innermost on, makes big integers of objects that have the marker. So a value without
the marker is read back as it was written, but for its numbers that are not finite,
which are `null` (`resend`).

The marker and the numbers that `BigInt` takes beyond the safe integers are
parameters.
-/

namespace Js.Value

open List

/-! ## Parts of a value -/

mutual

/-- A property of a value and of all its parts. -/
def Everywhere (P : Value → Prop) : Value → Prop
  | arr vs => P (arr vs) ∧ EverywhereItems P vs
  | obj fields => P (obj fields) ∧ EverywhereFields P fields
  | v => P v

def EverywhereItems (P : Value → Prop) : List Value → Prop
  | [] => True
  | v :: vs => Everywhere P v ∧ EverywhereItems P vs

def EverywhereFields (P : Value → Prop) : List (Text × Value) → Prop
  | [] => True
  | (_, v) :: fields => Everywhere P v ∧ EverywhereFields P fields

end

variable {fields rest : List (Text × Value)} {vs : List Value} {v : Value} {key : Text}

section Everywhere

variable {P : Value → Prop}

@[simp] theorem everywhere_str {t : Text} : (str t).Everywhere P ↔ P (str t) := Iff.rfl

@[simp] theorem everywhere_arr : (arr vs).Everywhere P ↔ P (arr vs) ∧ ∀ v ∈ vs, v.Everywhere P := by
  change P (arr vs) ∧ EverywhereItems P vs ↔ _
  refine and_congr_right fun h => ?_
  clear h
  induction vs with
  | nil => exact iff_of_true trivial (forall_mem_nil _)
  | cons v vs ih =>
    rw [forall_mem_cons]
    exact and_congr_right fun _ => ih

@[simp] theorem everywhere_obj :
    (obj fields).Everywhere P ↔ P (obj fields) ∧ ∀ f ∈ fields, f.2.Everywhere P := by
  change P (obj fields) ∧ EverywhereFields P fields ↔ _
  refine and_congr_right fun h => ?_
  clear h
  induction fields with
  | nil => exact iff_of_true trivial (forall_mem_nil _)
  | cons f fields ih =>
    rw [forall_mem_cons]
    exact and_congr_right fun _ => ih

theorem Everywhere.self (h : v.Everywhere P) : P v := by
  cases v with
  | arr vs => exact (everywhere_arr.1 h).1
  | obj fields => exact (everywhere_obj.1 h).1
  | _ => exact h

/-- A field of an object, where it has one. -/
theorem Everywhere.get (h : v.Everywhere P) (hne : v.get key ≠ undefined) :
    (v.get key).Everywhere P := by
  cases v with
  | obj fields =>
    cases hl : fields.lookup key with
    | none => exact absurd (by simp [Value.get, hl]) hne
    | some w =>
      rw [Value.get, hl]
      obtain ⟨before, after, rfl, -⟩ := lookup_eq_some_iff.1 hl
      exact (everywhere_obj.1 h).2 (key, w) (by simp)
  | _ => exact absurd rfl hne

end Everywhere

/-- What `JSON.parse` builds without a reviver. -/
def IsDocument : Value → Prop := Everywhere fun v => v ≠ undefined ∧ ∀ z, v ≠ bigint z

/-- All numbers have a notation. -/
def Finite : Value → Prop := Everywhere fun v => ∀ x, v = num x → x.Finite

@[simp] theorem finite_str (t : Text) : (str t).Finite := fun _ h => nomatch h

@[simp] theorem finite_null : null.Finite := fun _ h => nomatch h

@[simp] theorem finite_bool (b : Bool) : (bool b).Finite := fun _ h => nomatch h

@[simp] theorem finite_bigint (z : ℤ) : (bigint z).Finite := fun _ h => nomatch h

@[simp] theorem finite_num {x : Number} : (num x).Finite ↔ x.Finite :=
  ⟨fun h => h x rfl, fun h _ heq => by cases heq; exact h⟩

@[simp] theorem finite_arr : (arr vs).Finite ↔ ∀ v ∈ vs, v.Finite := by
  simp [Finite, everywhere_arr]

@[simp] theorem finite_obj : (obj fields).Finite ↔ ∀ f ∈ fields, f.2.Finite := by
  simp [Finite, everywhere_obj]

mutual

/-- A value with `null` for every number that is not finite. -/
def nulled : Value → Value
  | num x => if x.Finite then num x else null
  | arr vs => arr (nulledItems vs)
  | obj fields => obj (nulledFields fields)
  | v => v

def nulledItems : List Value → List Value
  | [] => []
  | v :: vs => nulled v :: nulledItems vs

def nulledFields : List (Text × Value) → List (Text × Value)
  | [] => []
  | (key, v) :: fields => (key, nulled v) :: nulledFields fields

end

@[simp] theorem nulled_arr (vs : List Value) : (arr vs).nulled = arr (vs.map nulled) := by
  rw [nulled]
  congr 1
  induction vs with
  | nil => rfl
  | cons v vs ih => rw [nulledItems, ih, map_cons]

@[simp] theorem nulled_obj (fields : List (Text × Value)) :
    (obj fields).nulled = obj (fields.map fun p => (p.1, p.2.nulled)) := by
  rw [nulled]
  congr 1
  induction fields with
  | nil => rfl
  | cons p fields ih => rw [nulledFields, ih, map_cons]

@[simp] theorem nulled_null : null.nulled = null := rfl

@[simp] theorem nulled_bool (b : Bool) : (bool b).nulled = bool b := rfl

@[simp] theorem nulled_bigint (z : ℤ) : (bigint z).nulled = bigint z := rfl

@[simp] theorem nulled_str (t : Text) : (str t).nulled = str t := rfl

theorem map_eq_self_iff {α : Type} {f : α → α} {l : List α} : l.map f = l ↔ ∀ a ∈ l, f a = a := by
  conv_lhs => rhs; rw [← map_id l]
  rw [map_inj_left]
  rfl

/-- A value stays what it is where its numbers are finite. -/
theorem nulled_eq_iff : v.nulled = v ↔ v.Finite := by
  induction v using induct with
  | num x =>
    rw [nulled, finite_num]
    split <;> simp_all
  | arr vs ih =>
    rw [nulled_arr, finite_arr, Value.arr.injEq, map_eq_self_iff]
    exact forall₂_congr ih
  | obj fields ih =>
    rw [nulled_obj, finite_obj, Value.obj.injEq, map_eq_self_iff]
    refine forall₂_congr fun f hf => ?_
    rw [← ih f hf]
    exact ⟨fun h => congrArg Prod.snd h, fun h => Prod.ext rfl h⟩
  | _ => simp [nulled, Finite, Everywhere]

/-! ## Revivers -/

section Revive

variable (reviver : Value → Except Text Value)

mutual

/-- What `JSON.parse` builds with a reviver that does not look at keys. -/
def revive : Value → Except Text Value
  | arr vs => do
    let vs ← reviveItems vs
    reviver (arr vs)
  | obj fields => do
    let fields ← reviveFields fields
    reviver (obj fields)
  | v => reviver v

def reviveItems : List Value → Except Text (List Value)
  | [] => .ok []
  | v :: vs => do
    let w ← revive v
    let ws ← reviveItems vs
    pure (w :: ws)

def reviveFields : List (Text × Value) → Except Text (List (Text × Value))
  | [] => .ok []
  | (key, v) :: fields => do
    let w ← revive v
    let rest ← reviveFields fields
    pure ((key, w) :: rest)

end

variable {reviver}

theorem reviveItems_eq_ok {ws : List Value} :
    reviveItems reviver vs = .ok ws ↔ List.Forall₂ (fun v w => revive reviver v = .ok w) vs ws := by
  induction vs generalizing ws with
  | nil => simp [reviveItems, eq_comm]
  | cons v vs ih =>
    simp only [reviveItems, bind_eq_ok, ih, forall₂_cons_left_iff]
    constructor
    · rintro ⟨w, hw, rest, hrest, heq⟩
      cases heq
      exact ⟨w, rest, hw, hrest, rfl⟩
    · rintro ⟨w, rest, hw, hrest, rfl⟩
      exact ⟨w, hw, rest, hrest, rfl⟩

theorem reviveFields_eq_ok :
    reviveFields reviver fields = .ok rest ↔
      List.Forall₂ (fun p q => p.1 = q.1 ∧ revive reviver p.2 = .ok q.2) fields rest := by
  induction fields generalizing rest with
  | nil => simp [reviveFields, eq_comm]
  | cons p fields ih =>
    obtain ⟨key, v⟩ := p
    simp only [reviveFields, bind_eq_ok, ih, forall₂_cons_left_iff]
    constructor
    · rintro ⟨w, hw, rest, hrest, heq⟩
      cases heq
      exact ⟨(key, w), rest, ⟨rfl, hw⟩, hrest, rfl⟩
    · rintro ⟨⟨_, w⟩, rest, ⟨rfl, hw⟩, hrest, rfl⟩
      exact ⟨w, hw, rest, hrest, rfl⟩

theorem reviveItems_map {f g : Value → Value} (h : ∀ v ∈ vs, revive reviver (f v) = .ok (g v)) :
    reviveItems reviver (vs.map f) = .ok (vs.map g) := by
  rw [reviveItems_eq_ok, forall₂_map_left_iff, forall₂_map_right_iff, forall₂_same]
  exact h

theorem reviveFields_map {f g : Value → Value}
    (h : ∀ p ∈ fields, revive reviver (f p.2) = .ok (g p.2)) :
    reviveFields reviver (fields.map fun p => (p.1, f p.2)) = .ok (fields.map fun p => (p.1, g p.2)) := by
  rw [reviveFields_eq_ok, forall₂_map_left_iff, forall₂_map_right_iff, forall₂_same]
  exact fun p hp => ⟨rfl, h p hp⟩

end Revive

/-! ## Markers -/

section Marker

variable (marker : Text) (integral : Number → Option ℤ)

/-- `BigInt` of a value. -/
def toBigInt (value : Value) : Except Text ℤ :=
  match value with
  | undefined => .error (lit "Cannot convert undefined to a BigInt")
  | null => .error (lit "Cannot convert null to a BigInt")
  | bool b => .ok (if b then 1 else 0)
  | num x =>
    match x with
    | .int z =>
      if x.isSafeInteger then .ok z
      else (integral x).elim (.error (lit "cannot be converted to a BigInt")) .ok
    | x => (integral x).elim (.error (lit "cannot be converted to a BigInt")) .ok
  | bigint z => .ok z
  | str t => bigIntOf t
  | value =>
    match value.toText with
    | some t => bigIntOf t
    | none => .error (lit "Cannot convert object to primitive value")

/-- The object of a big integer. -/
def tagged (z : ℤ) : Value := obj [(marker, str (decimalInt z))]

/-- The reviver. -/
def untag : Value → Except Text Value
  | obj fields =>
    match fields.lookup marker with
    | some encoded => do
      let z ← toBigInt integral encoded
      pure (bigint z)
    | none => .ok (obj fields)
  | v => .ok v

/-- A value without the marker. -/
def Untagged : Value → Prop :=
  Everywhere fun v => v ≠ undefined ∧ ∀ fields, v = obj fields → fields.lookup marker = none

mutual

/-- The numbers of a document are finite, but for those in objects that have the
    marker, of which a big integer is made. -/
def FiniteOutside : Value → Prop
  | num x => x.Finite
  | arr vs => FiniteOutsideItems vs
  | obj fields => (fields.lookup marker).isSome ∨ FiniteOutsideFields fields
  | _ => True

def FiniteOutsideItems : List Value → Prop
  | [] => True
  | v :: vs => FiniteOutside v ∧ FiniteOutsideItems vs

def FiniteOutsideFields : List (Text × Value) → Prop
  | [] => True
  | (_, v) :: fields => FiniteOutside v ∧ FiniteOutsideFields fields

end

variable {marker integral}

@[simp] theorem finiteOutside_str (t : Text) : FiniteOutside marker (str t) := by simp [FiniteOutside]

@[simp] theorem finiteOutside_arr :
    FiniteOutside marker (arr vs) ↔ ∀ v ∈ vs, FiniteOutside marker v := by
  rw [FiniteOutside]
  induction vs with
  | nil => simp [FiniteOutsideItems]
  | cons v vs ih => rw [FiniteOutsideItems, ih, forall_mem_cons]

@[simp] theorem finiteOutside_obj :
    FiniteOutside marker (obj fields) ↔
      (fields.lookup marker).isSome ∨ ∀ f ∈ fields, FiniteOutside marker f.2 := by
  rw [FiniteOutside]
  refine or_congr_right ?_
  induction fields with
  | nil => simp [FiniteOutsideFields]
  | cons f fields ih => rw [FiniteOutsideFields, ih, forall_mem_cons]

theorem untagged_arr : Untagged marker (arr vs) ↔ ∀ v ∈ vs, Untagged marker v := by
  simp [Untagged, everywhere_arr]

theorem untagged_obj :
    Untagged marker (obj fields) ↔
      fields.lookup marker = none ∧ ∀ f ∈ fields, Untagged marker f.2 := by
  simp [Untagged, everywhere_obj]

@[simp] theorem untagged_null : Untagged marker null := by simp [Untagged, Everywhere]

@[simp] theorem untagged_bool (b : Bool) : Untagged marker (bool b) := by simp [Untagged, Everywhere]

@[simp] theorem untagged_bigint (z : ℤ) : Untagged marker (bigint z) := by
  simp [Untagged, Everywhere]

@[simp] theorem untagged_str (t : Text) : Untagged marker (str t) := by simp [Untagged, Everywhere]

@[simp] theorem untagged_num (x : Number) : Untagged marker (num x) := by simp [Untagged, Everywhere]

theorem untagged_obj_iff :
    Untagged marker (obj fields) ↔ ∀ f ∈ fields, f.1 ≠ marker ∧ Untagged marker f.2 := by
  rw [untagged_obj, lookup_eq_none_iff, ← forall₂_and]
  simp only [bne_iff_ne, ne_comm]

/-- Keys decide whether an object has the marker. -/
theorem lookup_isSome_of_forall₂ {R : Text × Value → Text × Value → Prop}
    (hR : ∀ p q, R p q → p.1 = q.1) (h : List.Forall₂ R fields rest) (key : Text) :
    (fields.lookup key).isSome = (rest.lookup key).isSome := by
  induction h with
  | nil => rfl
  | @cons p q fields rest hpq _ ih =>
    obtain ⟨k, v⟩ := p
    obtain ⟨k', w⟩ := q
    obtain rfl : k = k' := hR _ _ hpq
    rw [lookup_cons, lookup_cons]
    split <;> simp_all

theorem lookup_of_forall₂ {R : Text × Value → Text × Value → Prop} (hR : ∀ p q, R p q → p.1 = q.1)
    (h : List.Forall₂ R fields rest) {w : Value} (hw : rest.lookup key = some w) :
    ∃ v, fields.lookup key = some v ∧ R (key, v) (key, w) := by
  induction h with
  | nil => cases hw
  | @cons p q fields rest hpq _ ih =>
    obtain ⟨k, v⟩ := p
    obtain ⟨k', w'⟩ := q
    obtain rfl : k = k' := hR _ _ hpq
    rw [lookup_cons] at hw ⊢
    split at hw
    · next heq =>
      cases hw
      obtain rfl : key = k := eq_of_beq heq
      exact ⟨v, rfl, hpq⟩
    · exact ih hw

theorem lookup_map_snd (fields : List (Text × Value)) (f : Value → Value) (key : Text) :
    (fields.map fun p => (p.1, f p.2)).lookup key = (fields.lookup key).map f := by
  induction fields with
  | nil => rfl
  | cons p fields ih =>
    rw [map_cons, lookup_cons, lookup_cons, ih]
    split <;> rfl

/-- A reviver leaves no marker, and it leaves numbers as they are. -/
theorem untagged_of_revive {d : Value} (hd : d.IsDocument)
    (h : revive (untag marker integral) d = .ok v) :
    Untagged marker v ∧ (v.Finite ↔ FiniteOutside marker d) := by
  induction d using induct generalizing v with
  | undefined => exact absurd rfl hd.self.1
  | bigint z => exact absurd rfl (hd.self.2 z)
  | arr ds ih =>
    rw [revive, bind_eq_ok] at h
    obtain ⟨vs, hvs, h⟩ := h
    cases h
    rw [reviveItems_eq_ok] at hvs
    have hall := (everywhere_arr.1 hd).2
    rw [untagged_arr, finite_arr, finiteOutside_arr]
    clear hd
    induction hvs with
    | nil => simp
    | @cons d v ds vs hv _ ih' =>
      rw [forall_mem_cons] at ih hall
      obtain ⟨hu, hf⟩ := ih.1 hall.1 hv
      obtain ⟨hus, hfs⟩ := ih' ih.2 hall.2
      simp only [forall_mem_cons]
      exact ⟨⟨hu, hus⟩, and_congr hf hfs⟩
  | obj fields ih =>
    rw [revive, bind_eq_ok] at h
    obtain ⟨rest, hrest, h⟩ := h
    rw [reviveFields_eq_ok] at hrest
    have hkey := lookup_isSome_of_forall₂ (fun _ _ hpq => hpq.1) hrest marker
    rw [finiteOutside_obj, hkey]
    rw [untag] at h
    cases hl : rest.lookup marker with
    | some encoded =>
      rw [hl] at h
      simp only [bind_eq_ok] at h
      obtain ⟨z, -, h⟩ := h
      cases h
      simp
    | none =>
      rw [hl] at h
      cases h
      have hall := (everywhere_obj.1 hd).2
      rw [untagged_obj, finite_obj]
      simp only [hl, Option.isSome_none, Bool.false_eq_true, false_or, true_and]
      clear hd hkey hl
      induction hrest with
      | nil => simp
      | @cons p q fields rest hpq _ ih' =>
        rw [forall_mem_cons] at ih hall
        obtain ⟨hu, hf⟩ := ih.1 hall.1 hpq.2
        obtain ⟨hus, hfs⟩ := ih' ih.2 hall.2
        simp only [forall_mem_cons]
        exact ⟨⟨hu, hus⟩, and_congr hf hfs⟩
  | _ =>
    cases h
    simp [FiniteOutside]

/-- A field of what a reviver leaves is what it makes of the field. -/
theorem revive_get {d : Value} (h : revive (untag marker integral) d = .ok v)
    (hne : v.get key ≠ undefined) :
    d.get key ≠ undefined ∧ revive (untag marker integral) (d.get key) = .ok (v.get key) := by
  cases v with
  | obj rest =>
    obtain ⟨w, hw⟩ : ∃ w, rest.lookup key = some w := by
      cases hl : rest.lookup key with
      | none => exact absurd (by simp [Value.get, hl]) hne
      | some w => exact ⟨w, rfl⟩
    cases d with
    | obj fields =>
      rw [revive, bind_eq_ok] at h
      obtain ⟨rest', hrest, h⟩ := h
      rw [untag] at h
      split at h
      · simp only [bind_eq_ok] at h
        obtain ⟨z, -, h⟩ := h
        cases h
      · cases h
        rw [reviveFields_eq_ok] at hrest
        obtain ⟨u, hu, -, hrevive⟩ := lookup_of_forall₂ (fun _ _ hpq => hpq.1) hrest hw
        simp only [Value.get, hw, hu, Option.getD_some] at hne ⊢
        refine ⟨?_, hrevive⟩
        rintro rfl
        cases hrevive
        exact hne rfl
    | arr vs =>
      rw [revive, bind_eq_ok] at h
      obtain ⟨ws, -, h⟩ := h
      cases h
    | _ => cases h
  | _ => exact absurd rfl hne

theorem Untagged.nulled (h : Untagged marker v) : Untagged marker v.nulled := by
  induction v using induct with
  | num x =>
    rw [Value.nulled]
    split <;> simp
  | arr vs ih =>
    rw [untagged_arr] at h
    rw [nulled_arr, untagged_arr, forall_mem_map]
    exact fun v hv => ih v hv (h v hv)
  | obj fields ih =>
    rw [untagged_obj] at h
    rw [nulled_obj, untagged_obj, lookup_map_snd, h.1, forall_mem_map]
    exact ⟨rfl, fun f hf => ih f hf (h.2 f hf)⟩
  | undefined => exact absurd rfl h.self.1
  | _ => simp

/-- What is written of a value: big integers as objects, and `null` for numbers that
    are not finite. -/
theorem written_mapBigints (h : Untagged marker v) :
    (mapBigints (tagged marker) v).written = some (mapBigints (tagged marker) v.nulled) := by
  induction v using induct with
  | undefined => exact absurd rfl h.self.1
  | num x =>
    rw [nulled, mapBigints_num, written]
    by_cases hx : x.Finite
    · rw [if_pos hx, mapBigints_num, if_neg hx]
    · rw [if_neg hx, mapBigints_null, if_pos (not_not.1 hx)]
  | bigint z =>
    rw [nulled_bigint, mapBigints_bigint]
    exact written_of_plain (by simp [tagged])
  | arr vs ih =>
    rw [untagged_arr] at h
    have hitems := writtenItems_map fun v hv => ih v hv (h v hv)
    rw [nulled_arr, mapBigints_arr, mapBigints_arr, map_map, written, hitems, Option.map_some]
    rfl
  | obj fields ih =>
    rw [untagged_obj] at h
    have hfields := writtenFields_map (f := mapBigints (tagged marker))
      (g := fun v => mapBigints (tagged marker) v.nulled) fun f hf => ih f hf (h.2 f hf)
    rw [nulled_obj, mapBigints_obj, mapBigints_obj, map_map, written, hfields, Option.map_some]
    rfl
  | _ => simp [written]

theorem revive_tagged (z : ℤ) : revive (untag marker integral) (tagged marker z) = .ok (bigint z) := by
  have hfields : reviveFields (untag marker integral) [(marker, str (decimalInt z))] =
      .ok [(marker, str (decimalInt z))] := rfl
  have hlookup : List.lookup marker [(marker, str (decimalInt z))] = some (str (decimalInt z)) := by
    simp
  rw [tagged, revive, hfields]
  change untag marker integral (obj [(marker, str (decimalInt z))]) = _
  rw [untag, hlookup]
  simp only [toBigInt, bigIntOf_decimalInt]
  rfl

/-- A value without markers of its own is read back. -/
theorem revive_mapBigints (h : Untagged marker v) :
    revive (untag marker integral) (mapBigints (tagged marker) v) = .ok v := by
  induction v using induct with
  | undefined => exact absurd rfl h.self.1
  | bigint z => rw [mapBigints_bigint, revive_tagged]
  | arr vs ih =>
    rw [untagged_arr] at h
    have hitems := reviveItems_map (g := id) fun v hv => ih v hv (h v hv)
    rw [mapBigints_arr, revive, hitems, map_id]
    rfl
  | obj fields ih =>
    rw [untagged_obj] at h
    have hfields := reviveFields_map (g := id) fun f hf => ih f hf (h.2 f hf)
    rw [show (fun p : Text × Value => (p.1, id p.2)) = id from rfl, map_id] at hfields
    rw [mapBigints_obj, revive, hfields]
    change untag marker integral (obj fields) = _
    rw [untag, h.1]
  | _ =>
    simp only [mapBigints_num, mapBigints_null, mapBigints_bool, mapBigints_str]
    rfl

/-- What is read of a value that was written without markers of its own. -/
theorem resend (h : Untagged marker v) :
    ∃ d, (mapBigints (tagged marker) v).written = some d ∧
      revive (untag marker integral) d = .ok v.nulled :=
  ⟨_, written_mapBigints h, revive_mapBigints h.nulled⟩

variable (marker) in
/-- A value that is read back as it was. -/
def Sendable (v : Value) : Prop := Untagged marker v ∧ v.Finite

@[simp] theorem sendable_str (t : Text) : Sendable marker (str t) := by simp [Sendable]

@[simp] theorem sendable_bigint (z : ℤ) : Sendable marker (bigint z) := by simp [Sendable]

@[simp] theorem sendable_num {x : Number} : Sendable marker (num x) ↔ x.Finite := by simp [Sendable]

@[simp] theorem sendable_arr : Sendable marker (arr vs) ↔ ∀ v ∈ vs, Sendable marker v := by
  simp only [Sendable, untagged_arr, finite_arr]
  exact forall₂_and.symm

@[simp] theorem sendable_obj :
    Sendable marker (obj fields) ↔ ∀ f ∈ fields, f.1 ≠ marker ∧ Sendable marker f.2 := by
  simp only [Sendable, untagged_obj_iff, finite_obj, ← forall₂_and, and_assoc]

end Marker

end Js.Value
