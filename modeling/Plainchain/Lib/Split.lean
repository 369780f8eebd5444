import Plainchain.Lib.Text

/-!
# Texts in pieces

`String.prototype.split` with a separator of two equal units. A text without two of them
in a row, and without one at its end, is split off as it is.

For a single unit there is `List.splitOn`.

* `splitDouble`, `intercalate_splitDouble`: the pieces, and the text of pieces;
* `Spaced`: what a piece looks like; `spaced_join` for pieces that are joined themselves.
-/

namespace Js

open List

variable {c : UInt16}

/-- `t.split(cc)`. -/
def splitDouble (c : UInt16) : Text → List Text
  | [] => [[]]
  | [u] => [[u]]
  | u :: v :: t =>
    if u = c ∧ v = c then [] :: splitDouble c t
    else (splitDouble c (v :: t)).modifyHead (u :: ·)

/-- No two units `c` in a row, and none at the end. -/
def Spaced (c : UInt16) : Text → Prop
  | [] => True
  | [u] => u ≠ c
  | u :: v :: t => ¬ (u = c ∧ v = c) ∧ Spaced c (v :: t)

theorem splitDouble_cons {u v : UInt16} {t : Text} (h : ¬ (u = c ∧ v = c)) :
    splitDouble c (u :: v :: t) = (splitDouble c (v :: t)).modifyHead (u :: ·) := by
  rw [splitDouble, if_neg h]

theorem splitDouble_sep (t : Text) : splitDouble c (c :: c :: t) = [] :: splitDouble c t := by
  rw [splitDouble, if_pos ⟨rfl, rfl⟩]

/-- The first piece. -/
theorem splitDouble_append {a : Text} (h : Spaced c a) (b : Text) :
    splitDouble c (a ++ c :: c :: b) = a :: splitDouble c b := by
  induction a with
  | nil => exact splitDouble_sep b
  | cons u a ih =>
    cases a with
    | nil =>
      have hu : u ≠ c := h
      rw [singleton_append, splitDouble_cons fun hc => hu hc.1, splitDouble_sep]
      rfl
    | cons v a =>
      obtain ⟨hne, hspaced⟩ := h
      have hrest := ih hspaced
      rw [cons_append] at hrest
      rw [cons_append, cons_append, splitDouble_cons hne, hrest]
      rfl

/-- The last piece. -/
theorem splitDouble_spaced {a : Text} (h : Spaced c a) : splitDouble c a = [a] := by
  induction a with
  | nil => rfl
  | cons u a ih =>
    cases a with
    | nil => rfl
    | cons v a =>
      rw [splitDouble_cons h.1, ih h.2]
      rfl

theorem spaced_of_notMem {a : Text} (h : c ∉ a) : Spaced c a := by
  induction a with
  | nil => trivial
  | cons u a ih =>
    rw [mem_cons, not_or] at h
    cases a with
    | nil => exact fun hu => h.1 hu.symm
    | cons v a => exact ⟨fun hc => h.1 hc.1.symm, ih h.2⟩

theorem Spaced.append_cons {a b : Text} (ha : c ∉ a) (hne : a ≠ []) (hb : Spaced c b)
    (hhead : b.head? ≠ some c) (hb0 : b ≠ []) : Spaced c (a ++ c :: b) := by
  induction a with
  | nil => exact absurd rfl hne
  | cons u a ih =>
    rw [mem_cons, not_or] at ha
    cases a with
    | nil =>
      cases b with
      | nil => exact absurd rfl hb0
      | cons v b => exact ⟨fun hc => ha.1 hc.1.symm, fun hc => hhead (by rw [hc.2]; rfl), hb⟩
    | cons v a => exact ⟨fun hc => ha.1 hc.1.symm, ih ha.2 (by simp)⟩

/-- Pieces of another split, joined again. -/
theorem spaced_join {ts : List Text} (h : ∀ t ∈ ts, c ∉ t ∧ t ≠ []) : Spaced c (join c ts) := by
  induction ts with
  | nil => trivial
  | cons t ts ih =>
    rw [forall_mem_cons] at h
    cases ts with
    | nil =>
      rw [join_singleton]
      exact spaced_of_notMem h.1.1
    | cons t' ts =>
      obtain ⟨u, r, hu⟩ := exists_cons_of_ne_nil (h.2 t' mem_cons_self).2
      have hnot := (h.2 t' mem_cons_self).1
      rw [hu, mem_cons, not_or] at hnot
      have hjoin : ∃ r', join c (t' :: ts) = u :: r' := by
        cases ts with
        | nil => exact ⟨r, by rw [join_singleton, hu]⟩
        | cons t'' ts => exact ⟨r ++ c :: join c (t'' :: ts), by rw [join_cons_cons, hu]; rfl⟩
      obtain ⟨r', hr'⟩ := hjoin
      rw [join_cons_cons]
      refine .append_cons h.1.1 h.1.2 (ih h.2) ?_ ?_
      · rw [hr']
        exact fun hc => hnot.1 (Option.some.inj hc).symm
      · rw [hr']
        exact cons_ne_nil _ _

theorem splitDouble_ne_nil (t : Text) : splitDouble c t ≠ [] := by
  induction t using splitDouble.induct c with
  | case1 => simp [splitDouble]
  | case2 u => simp [splitDouble]
  | case3 u v t h _ => simp [splitDouble, h]
  | case4 u v t h ih =>
    rw [splitDouble_cons h]
    simpa using ih

/-- The text of the pieces. -/
theorem intercalate_splitDouble (t : Text) :
    List.intercalate [c, c] (splitDouble c t) = t := by
  induction t using splitDouble.induct c with
  | case1 => simp [splitDouble]
  | case2 u => simp [splitDouble]
  | case3 u v t h ih =>
    obtain ⟨rfl, rfl⟩ := h
    obtain ⟨p, ps, hp⟩ := exists_cons_of_ne_nil (splitDouble_ne_nil (c := v) t)
    rw [hp] at ih
    rw [splitDouble_sep, hp, intercalate_cons_cons, ih]
    rfl
  | case4 u v t h ih =>
    obtain ⟨p, ps, hp⟩ := exists_cons_of_ne_nil (splitDouble_ne_nil (c := c) (v :: t))
    rw [hp] at ih
    rw [splitDouble_cons h, hp, modifyHead_cons]
    cases ps with
    | nil => simpa using ih
    | cons q qs =>
      rw [intercalate_cons_cons] at ih ⊢
      rw [cons_append, cons_append, ih]

end Js
