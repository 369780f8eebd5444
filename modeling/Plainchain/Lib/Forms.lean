import Plainchain.Lib.Check
import Plainchain.Lib.Json

/-!
# Forms of a text

What a typed text is brought to before it is read: its case, its normal form, its ends
without white space, and its words.

The tables of Unicode are a parameter. Of them it is only used that ASCII texts are mapped
letter by letter, that no ASCII letter of the other case is left over, and that what comes
before an ASCII text does not change how it is mapped.

* `CaseMapping`, `TextForms`: `toLowerCase`, `toUpperCase` and `normalize("NFKD")`;
* `words`: the words of a text (`mem_words`), which `join` writes (`words_join`);
* `readAll`: items read one by one (`readAll_eq_ok`);
* `characters`, `lastIndexOf`: the characters of a text, and where one is last.
-/

namespace Js

open List

/-! ## Case -/

/-- Texts of ASCII characters. -/
def Ascii (t : Text) : Prop := ∀ u ∈ t, u.toNat < 128

def isLowerLetter (u : UInt16) : Bool := 97 ≤ u.toNat && u.toNat ≤ 122

def isUpperLetter (u : UInt16) : Bool := 65 ≤ u.toNat && u.toNat ≤ 90

/-- The lower case of an ASCII character. -/
def lowerUnit (u : UInt16) : UInt16 := if isUpperLetter u then u + 32 else u

/-- The upper case of an ASCII character. -/
def upperUnit (u : UInt16) : UInt16 := if isLowerLetter u then u - 32 else u

/-- `toLowerCase` and `toUpperCase`. The lower case of a character may depend on the ones
    around it (a sigma at the end of a word), though not that of an ASCII character. -/
structure CaseMapping where
  lower : Text → Text
  upper : Text → Text
  lower_ascii : ∀ t, Ascii t → lower t = t.map lowerUnit
  upper_ascii : ∀ t, Ascii t → upper t = t.map upperUnit
  lower_append : ∀ s t, Ascii t → ∃ s', lower (s ++ t) = s' ++ t.map lowerUnit
  not_lower_upper : ∀ t, ∀ u ∈ upper t, isLowerLetter u = false

/-- `normalize("NFKD")` with the case mappings. -/
structure TextForms extends CaseMapping where
  nfkd : Text → Text
  nfkd_ascii : ∀ t, Ascii t → nfkd t = t

variable {t : Text} {ws : List Text} {u : UInt16}

theorem lowerUnit_of_not_upper (h : isUpperLetter u = false) : lowerUnit u = u := by
  simp [lowerUnit, h]

theorem toNat_upperUnit (h : isLowerLetter u) : (upperUnit u).toNat = u.toNat - 32 := by
  have hrange : 97 ≤ u.toNat ∧ u.toNat ≤ 122 := by simpa [isLowerLetter] using h
  rw [upperUnit, if_pos h, UInt16.toNat_sub_of_le]
  · rfl
  · exact UInt16.le_iff_toNat_le.2 (le_trans (by decide) hrange.1)

theorem isLowerLetter_upperUnit (u : UInt16) : isLowerLetter (upperUnit u) = false := by
  by_cases h : isLowerLetter u
  · have hrange : 97 ≤ u.toNat ∧ u.toNat ≤ 122 := by simpa [isLowerLetter] using h
    have hnot : ¬ 97 ≤ (upperUnit u).toNat := by
      rw [toNat_upperUnit h]
      omega
    simp [isLowerLetter, hnot]
  · rw [upperUnit, if_neg h]
    simpa using h

theorem lowerUnit_upperUnit (u : UInt16) : lowerUnit (upperUnit u) = lowerUnit u := by
  by_cases h : isLowerLetter u
  · have hrange : 97 ≤ u.toNat ∧ u.toNat ≤ 122 := by simpa [isLowerLetter] using h
    have hupper : isUpperLetter (upperUnit u) := by
      simp only [isUpperLetter, toNat_upperUnit h, Bool.and_eq_true, decide_eq_true_eq]
      omega
    have hnot : isUpperLetter u = false := by
      simp only [isUpperLetter, Bool.and_eq_false_iff, decide_eq_false_iff_not]
      omega
    rw [lowerUnit_of_not_upper hnot, lowerUnit, if_pos hupper, upperUnit, if_pos h]
    exact UInt16.sub_add_cancel u 32
  · rw [upperUnit, if_neg h]

/-- The mappings that leave alone all but ASCII letters. -/
def asciiForms : TextForms where
  lower := List.map lowerUnit
  upper := List.map upperUnit
  nfkd := id
  lower_ascii _ _ := rfl
  upper_ascii _ _ := rfl
  lower_append s t _ := ⟨s.map lowerUnit, map_append⟩
  not_lower_upper _ _ hu := by
    obtain ⟨v, _, rfl⟩ := mem_map.1 hu
    exact isLowerLetter_upperUnit v
  nfkd_ascii _ _ := rfl

theorem CaseMapping.lower_eq_self (forms : CaseMapping) (hascii : Ascii t)
    (h : ∀ u ∈ t, isUpperLetter u = false) : forms.lower t = t := by
  rw [forms.lower_ascii t hascii]
  exact (map_congr_left fun u hu => lowerUnit_of_not_upper (h u hu)).trans (map_id t)

/-! ## White space -/

/-- `t.split(/\s+/).filter((w) => w.length > 0)`: white space, in runs or at the ends, makes
    no word. -/
def words (t : Text) : List Text := (t.splitOnP (· ∈ whiteSpace)).filter (· ≠ [])

theorem whiteSpace_toNat (h : u ∈ whiteSpace) : u.toNat ≤ 32 ∨ 128 ≤ u.toNat := by
  simp only [whiteSpace, mem_cons, not_mem_nil, or_false] at h
  rcases h with rfl | rfl | rfl | rfl | rfl | rfl | rfl | rfl | rfl | rfl | rfl | rfl | rfl |
    rfl | rfl | rfl | rfl | rfl | rfl | rfl | rfl | rfl | rfl | rfl | rfl <;> decide

theorem dropWhile_whiteSpace (h : ∀ u ∈ t.head?, u ∉ whiteSpace) :
    t.dropWhile (· ∈ whiteSpace) = t := by
  cases t with
  | nil => rfl
  | cons u t => rw [dropWhile_cons_of_neg (by simpa using h u rfl)]

/-- A text with no white space at its ends. -/
theorem trim_eq_self (hhead : ∀ u ∈ t.head?, u ∉ whiteSpace)
    (hlast : ∀ u ∈ t.getLast?, u ∉ whiteSpace) : trim t = t := by
  rw [trim, dropWhile_whiteSpace hhead, trimEnd, dropWhile_whiteSpace, reverse_reverse]
  rwa [head?_reverse]

/-! ### Texts that are typed in either case -/

/-- ASCII texts in lower case, without white space. -/
def LowerPlain (t : Text) : Prop :=
  ∀ u ∈ t, u.toNat < 128 ∧ isUpperLetter u = false ∧ u ∉ whiteSpace

namespace LowerPlain

variable {t : Text} (h : LowerPlain t) (forms : CaseMapping)

include h

theorem ascii : Ascii t := fun u hu => (h u hu).1

theorem lower : forms.lower t = t := forms.lower_eq_self h.ascii fun u hu => (h u hu).2.1

theorem trim : Js.trim t = t := trim_of_forall fun u hu => (h u hu).2.2

/-- In upper case there is still nothing to trim. -/
theorem upper_plain : ∀ u ∈ t.map upperUnit, u.toNat < 128 ∧ u ∉ whiteSpace :=
  forall_mem_map.2 fun u hu => by
    by_cases hletter : isLowerLetter u
    · have hrange : 97 ≤ u.toNat ∧ u.toNat ≤ 122 := by simpa [isLowerLetter] using hletter
      have hupper := toNat_upperUnit hletter
      refine ⟨by omega, fun hspace => ?_⟩
      have := whiteSpace_toNat hspace
      omega
    · rw [upperUnit, if_neg hletter]
      exact ⟨(h u hu).1, (h u hu).2.2⟩

theorem trim_upper : Js.trim (forms.upper t) = forms.upper t := by
  rw [forms.upper_ascii t h.ascii]
  exact trim_of_forall fun u hu => (h.upper_plain u hu).2

theorem lower_upper : forms.lower (forms.upper t) = t := by
  rw [forms.upper_ascii t h.ascii, forms.lower_ascii _ fun u hu => (h.upper_plain u hu).1,
    map_map]
  refine (map_congr_left fun u hu => ?_).trans (map_id t)
  rw [Function.comp_apply, lowerUnit_upperUnit, lowerUnit_of_not_upper (h u hu).2.1]
  rfl

theorem upper_upper : forms.upper (forms.upper t) = forms.upper t := by
  rw [forms.upper_ascii t h.ascii, forms.upper_ascii _ fun u hu => (h.upper_plain u hu).1,
    map_map]
  refine map_congr_left fun u _ => ?_
  rw [Function.comp_apply, upperUnit, if_neg]
  rw [isLowerLetter_upperUnit]
  exact Bool.false_ne_true

end LowerPlain

/-! ### Words -/

/-- What is left of a text that is split are the units it is not split at. -/
theorem flatten_splitOnP {α : Type} (p : α → Bool) (t : List α) :
    (t.splitOnP p).flatten = t.filter fun u => !p u := by
  induction t with
  | nil => rfl
  | cons x t ih =>
    rw [splitOnP_cons_eq_if_modifyHead]
    cases hx : p x with
    | true => simpa [hx] using ih
    | false =>
      obtain ⟨r, rs, hr⟩ := exists_cons_of_ne_nil (splitOnP_ne_nil p t)
      simpa [hx, hr] using ih

/-- A word is not empty and has no white space in it. -/
theorem mem_words {w : Text} (h : w ∈ words t) : w ≠ [] ∧ ∀ u ∈ w, u ∉ whiteSpace := by
  obtain ⟨hw, hne⟩ := mem_filter.1 h
  refine ⟨by simpa using hne, fun u hu => ?_⟩
  have hmem : u ∈ (t.splitOnP (· ∈ whiteSpace)).flatten := mem_flatten_of_mem hw hu
  rw [flatten_splitOnP] at hmem
  simpa using (mem_filter.1 hmem).2

theorem words_append_space (s t : Text) : words (s ++ unit ' ' :: t) = words s ++ words t := by
  rw [words, splitOnP_append_cons s t (by decide), filter_append]
  rfl

theorem words_singleton {w : Text} (hne : w ≠ []) (h : ∀ u ∈ w, u ∉ whiteSpace) :
    words w = [w] := by
  rw [words, splitOnP_eq_singleton fun u hu => by simpa using h u hu]
  simp [hne]

/-- Words with a space between them. -/
theorem words_join (h : ∀ w ∈ ws, w ≠ [] ∧ ∀ u ∈ w, u ∉ whiteSpace) :
    words (join (unit ' ') ws) = ws := by
  induction ws with
  | nil => rfl
  | cons w ws ih =>
    rw [forall_mem_cons] at h
    cases ws with
    | nil => rw [join_singleton, words_singleton h.1.1 h.1.2]
    | cons w' ws =>
      rw [join_cons_cons, words_append_space, words_singleton h.1.1 h.1.2, ih h.2,
        singleton_append]

/-- The words are found again by splitting at spaces only. -/
theorem filter_splitOn_join (h : ∀ w ∈ ws, w ≠ [] ∧ ∀ u ∈ w, u ∉ whiteSpace) :
    ((join (unit ' ') ws).splitOn (unit ' ')).filter (· ≠ []) = ws := by
  cases ws with
  | nil => decide
  | cons w ws =>
    have hspace : ∀ t ∈ w :: ws, unit ' ' ∉ t := fun t ht hmem => (h t ht).2 _ hmem (by decide)
    have hsplit : (join (unit ' ') (w :: ws)).splitOn (unit ' ') = w :: ws :=
      splitOn_intercalate _ hspace (cons_ne_nil _ _)
    rw [hsplit, filter_eq_self]
    exact fun t ht => by simpa using (h t ht).1

/-- The ends of joined words are those of words. -/
theorem trim_join (h : ∀ w ∈ ws, w ≠ [] ∧ ∀ u ∈ w, u ∉ whiteSpace) :
    trim (join (unit ' ') ws) = join (unit ' ') ws := by
  have hends : (∀ u ∈ (join (unit ' ') ws).head?, u ∉ whiteSpace) ∧
      ∀ u ∈ (join (unit ' ') ws).getLast?, u ∉ whiteSpace := by
    induction ws with
    | nil => simp
    | cons w ws ih =>
      rw [forall_mem_cons] at h
      cases ws with
      | nil =>
        rw [join_singleton]
        exact ⟨fun u hu => h.1.2 u (mem_of_mem_head? hu),
          fun u hu => h.1.2 u (mem_of_mem_getLast? hu)⟩
      | cons w' ws =>
        rw [join_cons_cons]
        refine ⟨fun u hu => h.1.2 u ?_, fun u hu => (ih h.2).2 u ?_⟩
        · rw [head?_append_of_ne_nil _ h.1.1] at hu
          exact mem_of_mem_head? hu
        · have hne : join (unit ' ') (w' :: ws) ≠ [] := by
            have hw' := (h.2 w' mem_cons_self).1
            cases ws with
            | nil => rwa [join_singleton]
            | cons _ _ => simp [join_cons_cons]
          rw [getLast?_append_of_ne_nil _ (cons_ne_nil _ _),
            getLast?_cons_of_ne_nil hne] at hu
          exact hu
  exact trim_eq_self hends.1 hends.2

/-! ## Reading -/

/-- The loop that reads items one after the other, up to the first that cannot be read. -/
def readAll {α β : Type} (read : α → Option β) (error : α → Text) : List α → Except Text (List β)
  | [] => .ok []
  | a :: as =>
    match read a with
    | none => .error (error a)
    | some b => do
      let bs ← readAll read error as
      .ok (b :: bs)

/-- Items that are written in one way are read as what they are written from. -/
theorem readAll_eq_ok {α β : Type} {read : α → Option β} {error : α → Text} {P : β → Prop}
    {write : β → α} (hread : ∀ a b, read a = some b ↔ P b ∧ a = write b) {as : List α}
    {bs : List β} :
    readAll read error as = .ok bs ↔ (∀ b ∈ bs, P b) ∧ as = bs.map write := by
  induction as generalizing bs with
  | nil =>
    rw [readAll, Except.ok.injEq]
    constructor
    · rintro rfl
      simp
    · rintro ⟨_, h⟩
      exact (map_eq_nil_iff.1 h.symm).symm
  | cons a as ih =>
    rw [readAll]
    cases ha : read a with
    | none =>
      refine iff_of_false (by simp) ?_
      rintro ⟨hP, h⟩
      cases bs with
      | nil => cases h
      | cons b bs =>
        rw [map_cons, List.cons.injEq] at h
        have hsome := (hread a b).2 ⟨hP b mem_cons_self, h.1⟩
        cases hsome.symm.trans ha
    | some b =>
      have hb := (hread a b).1 ha
      simp only [bind_eq_ok, ih, Except.ok.injEq]
      constructor
      · rintro ⟨bs, ⟨hP, rfl⟩, rfl⟩
        rw [forall_mem_cons, map_cons, hb.2]
        exact ⟨⟨hb.1, hP⟩, rfl⟩
      · rintro ⟨hP, h⟩
        cases bs with
        | nil => cases h
        | cons b' bs =>
          rw [map_cons, List.cons.injEq] at h
          rw [forall_mem_cons] at hP
          have hsame := (hread a b').2 ⟨hP.1, h.1⟩
          obtain rfl : b = b' := Option.some.inj (ha.symm.trans hsame)
          exact ⟨bs, ⟨hP.2, h.2⟩, rfl⟩

/-! ## Characters -/

/-- `[...t]`: the characters of a text, two units where they are a surrogate pair. -/
def characters : Text → List Text
  | [] => []
  | [u] => [[u]]
  | u :: v :: t => if isHigh u && isLow v then [u, v] :: characters t else [u] :: characters (v :: t)

theorem flatten_characters (t : Text) : (characters t).flatten = t := by
  induction t using characters.induct with
  | case1 => rfl
  | case2 u => rfl
  | case3 u v t h ih => simp [characters, h, ih]
  | case4 u v t h ih => simp [characters, h, ih]

theorem characters_of_ascii (h : Ascii t) : characters t = t.map fun u => [u] := by
  induction t using characters.induct with
  | case1 => rfl
  | case2 u => rfl
  | case3 u v t hpair _ =>
    have hhigh := isHigh_iff.1 (Bool.and_eq_true_iff.1 hpair).1
    have hlt := h u mem_cons_self
    omega
  | case4 u v t hpair ih =>
    rw [characters, if_neg hpair, ih fun x hx => h x (mem_cons_of_mem u hx)]
    rfl

/-- `t.lastIndexOf(c)`, for one unit. -/
def lastIndexOf (c : UInt16) (t : Text) : Option ℕ :=
  if c ∈ t then some (t.length - 1 - t.reverse.idxOf c) else none

theorem lastIndexOf_append {c : UInt16} (a : Text) {b : Text} (h : c ∉ b) :
    lastIndexOf c (a ++ c :: b) = some a.length := by
  have hmem : c ∈ a ++ c :: b := mem_append_right a mem_cons_self
  have hidx : (a ++ c :: b).reverse.idxOf c = b.length := by
    rw [reverse_append, reverse_cons, append_assoc, idxOf_append_of_notMem]
    · simp
    · rwa [mem_reverse]
  rw [lastIndexOf, if_pos hmem, hidx, length_append, length_cons]
  congr 1
  omega

/-- A text is what is before and after the last occurrence. -/
theorem lastIndexOf_eq_some {c : UInt16} {i : ℕ} (h : lastIndexOf c t = some i) :
    ∃ a b, t = a ++ c :: b ∧ c ∉ b ∧ a.length = i := by
  have hmem : c ∈ t := by
    by_contra hnot
    rw [lastIndexOf, if_neg hnot] at h
    cases h
  -- the first occurrence from behind
  obtain ⟨b, a, hreverse, hnot⟩ := eq_append_cons_of_mem (mem_reverse.2 hmem)
  have ht : t = a.reverse ++ c :: b.reverse := by
    rw [← reverse_reverse t, hreverse]
    simp
  have hnot' : c ∉ b.reverse := by rwa [mem_reverse]
  rw [ht, lastIndexOf_append _ hnot', Option.some.injEq] at h
  exact ⟨a.reverse, b.reverse, ht, hnot', h⟩

end Js
