import Mathlib

/-!
# Greedy covers

Items are taken in order until their weights add up to a target. Where the heaviest
come first this fails only if no choice of items would do (`takeUntil_covers_iff`), and
no choice does with fewer items (`length_takeUntil_le_of_covers`). Weights may be
negative. A sort by a key that no two items share gives the same whatever order the
items come in (`insertionSort_eq_of_perm`).
-/

namespace Greedy

open List

variable {α : Type} (weight : α → ℤ)

/-- Items until the target is reached, and what they come to. -/
def takeUntil (target : ℤ) : (total : ℤ) → List α → List α × ℤ
  | total, [] => ([], total)
  | total, item :: rest =>
    if target ≤ total then ([], total)
    else
      let (chosen, sum) := takeUntil target (total + weight item) rest
      (item :: chosen, sum)

/-- Some of the items add up to the target. -/
def Covers (items : List α) (target : ℤ) : Prop :=
  ∃ part : List α, part.Subperm items ∧ target ≤ (part.map weight).sum

variable {weight} {target total : ℤ} {items items' : List α}

theorem takeUntil_sublist : (takeUntil weight target total items).1.Sublist items := by
  induction items generalizing total with
  | nil => exact List.Sublist.refl _
  | cons item rest ih =>
    rw [takeUntil]
    split
    · exact nil_sublist _
    · exact ih.cons_cons item

theorem takeUntil_snd : (takeUntil weight target total items).2 =
    total + ((takeUntil weight target total items).1.map weight).sum := by
  induction items generalizing total with
  | nil => simp [takeUntil]
  | cons item rest ih =>
    rw [takeUntil]
    split
    · simp
    · simp only [ih, map_cons, sum_cons]
      ring

/-- What is left out would not have helped: an item that is passed over weighs at
    most as much as those that were taken, and if it weighs less than nothing so do
    all that follow. -/
theorem sum_lt_of_takeUntil_lt (hsorted : items.Pairwise fun a b => weight b ≤ weight a)
    (hlt : (takeUntil weight target total items).2 < target) {part : List α}
    (hpart : part.Sublist items) : total + (part.map weight).sum < target := by
  induction items generalizing total part with
  | nil =>
    obtain rfl := sublist_nil.1 hpart
    simpa [takeUntil] using hlt
  | cons item rest ih =>
    obtain ⟨hfirst, hsorted⟩ := pairwise_cons.1 hsorted
    rw [takeUntil] at hlt
    split at hlt
    next hreached => exact absurd hlt hreached.not_gt
    next hnot =>
    have hrest : ∀ part : List α, part.Sublist rest →
        total + weight item + (part.map weight).sum < target :=
      fun part hpart => ih hsorted hlt hpart
    cases hpart with
    | cons _ hpart =>
      rcases le_or_gt 0 (weight item) with hpos | hneg
      · have := hrest part hpart
        omega
      · have hsum : (part.map weight).sum ≤ (part.map weight).length • 0 :=
          sum_le_card_nsmul _ 0 fun w hw => by
            obtain ⟨other, hother, rfl⟩ := mem_map.1 hw
            exact (hfirst other (hpart.subset hother)).trans hneg.le
        rw [smul_zero] at hsum
        omega
    | cons_cons _ hpart =>
      have := hrest _ hpart
      rw [map_cons, sum_cons]
      omega

/-- The heaviest first: the target is reached if some choice of items reaches it. -/
theorem takeUntil_covers_iff (hsorted : items.Pairwise fun a b => weight b ≤ weight a) :
    target ≤ (takeUntil weight target 0 items).2 ↔ Covers weight items target := by
  constructor
  · intro h
    rw [takeUntil_snd, zero_add] at h
    exact ⟨_, takeUntil_sublist.subperm, h⟩
  · rintro ⟨part, ⟨part', hperm, hsub⟩, hle⟩
    by_contra h
    have hlt := sum_lt_of_takeUntil_lt hsorted (not_le.1 h) hsub
    rw [(hperm.map weight).sum_eq, zero_add] at hlt
    omega

theorem Covers.perm (h : Covers weight items target) (hperm : items.Perm items') :
    Covers weight items' target := by
  obtain ⟨part, hpart, hle⟩ := h
  exact ⟨part, hpart.trans hperm.subperm, hle⟩

/-! ## As few as possible -/

theorem takeUntil_eq_take : (takeUntil weight target total items).1 =
    items.take (takeUntil weight target total items).1.length := by
  induction items generalizing total with
  | nil => simp [takeUntil]
  | cons item rest ih =>
    rw [takeUntil]
    split
    · simp
    · simpa using ih

/-- No shorter run of items from the front reaches the target. -/
theorem length_takeUntil_le {k : ℕ} (hreach : target ≤ total + ((items.take k).map weight).sum) :
    (takeUntil weight target total items).1.length ≤ k := by
  induction items generalizing total k with
  | nil => simp [takeUntil]
  | cons item rest ih =>
    rw [takeUntil]
    split
    · simp
    next hnot =>
    cases k with
    | zero =>
      rw [take_zero, map_nil, sum_nil, add_zero] at hreach
      exact absurd hreach hnot
    | succ k =>
      rw [take_succ_cons, map_cons, sum_cons, ← add_assoc] at hreach
      simpa using ih hreach

/-- The heaviest first: as many items from the front weigh at least as much as any. -/
theorem sum_le_sum_take (hsorted : items.Pairwise fun a b => weight b ≤ weight a) {part : List α}
    (hpart : part.Sublist items) :
    (part.map weight).sum ≤ ((items.take part.length).map weight).sum := by
  induction items generalizing part with
  | nil =>
    obtain rfl := sublist_nil.1 hpart
    simp
  | cons item rest ih =>
    obtain ⟨hfirst, hsorted⟩ := pairwise_cons.1 hsorted
    cases hpart with
    | cons_cons _ hpart => simpa using ih hsorted hpart
    | cons _ hpart =>
      cases part with
      | nil => simp
      | cons a part =>
        -- `item` stands in for the first item of the part
        have hle := hfirst a (hpart.subset mem_cons_self)
        have hrest := ih hsorted (sublist_of_cons_sublist hpart)
        simp only [length_cons, take_succ_cons, map_cons, sum_cons]
        omega

/-- The heaviest first: no choice of items reaches the target with fewer. -/
theorem length_takeUntil_le_of_covers
    (hsorted : items.Pairwise fun a b => weight b ≤ weight a) {part : List α}
    (hpart : part.Subperm items) (hreach : target ≤ (part.map weight).sum) :
    (takeUntil weight target 0 items).1.length ≤ part.length := by
  obtain ⟨part', hperm, hsub⟩ := hpart
  refine length_takeUntil_le ?_
  have hle := sum_le_sum_take hsorted hsub
  rw [(hperm.map weight).sum_eq, hperm.length_eq] at hle
  omega

/-- Without the last of them the items do not reach the target. -/
theorem sum_init_lt {init : List α} {last : α}
    (h : (takeUntil weight target 0 items).1 = init ++ [last]) : (init.map weight).sum < target := by
  have htake : init ++ [last] = items.take (init.length + 1) := by
    have := takeUntil_eq_take.symm.trans h
    rw [h, length_append, length_singleton] at this
    exact this.symm
  have hinit : init = items.take init.length := by
    have := congrArg (List.take init.length) htake
    rwa [take_left, take_take, min_eq_left (Nat.le_succ _)] at this
  by_contra hge
  have hlength : (takeUntil weight target 0 items).1.length ≤ init.length :=
    length_takeUntil_le (by rw [← hinit]; omega)
  rw [h, length_append, length_singleton] at hlength
  omega

/-! ## Sorting -/

/-- A sort by a relation that compares weights first puts the heaviest first. -/
theorem pairwise_insertionSort {r : α → α → Prop} [DecidableRel r]
    (hle : ∀ a b, r a b → weight b ≤ weight a) (hge : ∀ a b, ¬ r a b → weight a ≤ weight b)
    (items : List α) : (items.insertionSort r).Pairwise fun a b => weight b ≤ weight a := by
  have hinsert : ∀ (a : α) (l : List α), l.Pairwise (fun a b => weight b ≤ weight a) →
      (l.orderedInsert r a).Pairwise fun a b => weight b ≤ weight a := by
    intro a l hl
    induction l with
    | nil => simp
    | cons b l ih =>
      obtain ⟨hb, hl'⟩ := pairwise_cons.1 hl
      rw [List.orderedInsert]
      split
      next hab =>
        refine pairwise_cons.2 ⟨fun c hc => ?_, hl⟩
        rcases mem_cons.1 hc with rfl | hc
        · exact hle a c hab
        · exact (hb c hc).trans (hle a b hab)
      next hab =>
        refine pairwise_cons.2 ⟨fun c hc => ?_, ih hl'⟩
        rcases mem_orderedInsert r |>.1 hc with rfl | hc
        · exact hge c b hab
        · exact hb c hc
  induction items with
  | nil => simp
  | cons a items ih => exact hinsert a _ ih

/-- A sort by a key that no two items share does not see the order the items come in. -/
theorem insertionSort_eq_of_perm {β : Type} [LinearOrder β] {r : α → α → Prop} [DecidableRel r]
    {key : α → β} (hr : ∀ a ∈ items, ∀ b ∈ items, r a b ↔ key a ≤ key b)
    (hinj : ∀ a ∈ items, ∀ b ∈ items, key a = key b → a = b) (hperm : items'.Perm items) :
    items'.insertionSort r = items.insertionSort r := by
  have hsorted : ∀ l : List α, (∀ a ∈ l, a ∈ items) →
      (l.insertionSort r).Pairwise fun a b => key a ≤ key b := by
    intro l hl
    rw [← pairwise_map (R := (· ≤ ·)), map_insertionSort r (· ≤ ·) key l
      fun a ha b hb => hr a (hl a ha) b (hl b hb)]
    exact List.pairwise_insertionSort _ _
  have hsame := ((perm_insertionSort r items').trans hperm).trans
    (perm_insertionSort r items).symm
  refine List.Perm.eq_of_pairwise (fun a b ha hb hab hba => ?_)
    (hsorted items' fun a => hperm.mem_iff.1) (hsorted items fun _ h => h) hsame
  refine hinj a ?_ b ?_ (le_antisymm hab hba)
  · exact hperm.mem_iff.1 ((mem_insertionSort r).1 ha)
  · exact (mem_insertionSort r).1 hb

end Greedy
