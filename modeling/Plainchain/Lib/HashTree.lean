import Mathlib

/-!
# Hash trees over lists

The root of a list: neighbours are joined level by level, and an odd last element is
joined with itself (`up`), until one element is left (`Rooted`). Such a tree does not
tell `[a, b, c]` from `[a, b, c, c]`, so what it commits to depends on its leaves.

Joining is injective on the pairs that `J` allows, which are those that are joined:

* `Rooted.leaves_eq`: lists without repetitions whose elements are no joints have one
  root only if they are equal;
* `Rooted.mem_of_fold`: what siblings lead from to the root, and is no joint itself,
  is one of the leaves;
* `getElem?_up`: the element that a sibling leads to.
-/

namespace HashTree

open List

variable {α : Type*}

/-- The pairs that are joined to go up by one level. -/
def pairs : List α → List (α × α)
  | [] => []
  | [x] => [(x, x)]
  | x :: y :: l => (x, y) :: pairs l

variable {l l' : List α} {r x : α} {d : ℕ}

theorem mem_of_mem_pairs {p : α × α} (h : p ∈ pairs l) : p.1 ∈ l ∧ p.2 ∈ l := by
  induction l using pairs.induct with
  | case1 => cases h
  | case2 x =>
    rw [pairs, mem_singleton] at h
    simp [h]
  | case3 x y l ih =>
    rw [pairs, mem_cons] at h
    rcases h with rfl | h
    · simp
    · have := ih h
      simp [this.1, this.2]

theorem sublist_pairs (l : List α) : ((pairs l).map Prod.fst).Sublist l := by
  induction l using pairs.induct with
  | case1 => exact List.Sublist.refl _
  | case2 x => exact List.Sublist.refl _
  | case3 x y l ih => exact (ih.cons y).cons_cons x

/-- Without repetitions, an odd last element is told by its pair. -/
theorem eq_of_pairs_eq (h : l.Nodup) (h' : l'.Nodup) (heq : pairs l = pairs l') : l = l' := by
  induction l using pairs.induct generalizing l' with
  | case1 =>
    match l' with
    | [] => rfl
    | [x] => cases heq
    | x :: y :: l' => cases heq
  | case2 x =>
    match l' with
    | [] => cases heq
    | [y] =>
      cases heq
      rfl
    | y :: z :: l' =>
      rw [pairs, pairs, List.cons.injEq, Prod.mk.injEq] at heq
      obtain ⟨⟨rfl, rfl⟩, -⟩ := heq
      exact absurd mem_cons_self (nodup_cons.1 h').1
  | case3 x y l ih =>
    match l' with
    | [] => cases heq
    | [z] =>
      rw [pairs, pairs, List.cons.injEq, Prod.mk.injEq] at heq
      obtain ⟨⟨rfl, rfl⟩, -⟩ := heq
      exact absurd mem_cons_self (nodup_cons.1 h).1
    | x' :: y' :: l' =>
      rw [pairs, pairs, List.cons.injEq, Prod.mk.injEq] at heq
      obtain ⟨⟨rfl, rfl⟩, heq⟩ := heq
      rw [nodup_cons, nodup_cons] at h h'
      rw [ih h.2.2 h'.2.2 heq]

variable (node : α → α → α) (J : α → α → Prop)

/-- The next level. -/
def up (l : List α) : List α := (pairs l).map fun p => node p.1 p.2

/-- The list has the root `r` at the height `d`, and all pairs on the way are allowed. -/
inductive Rooted : List α → ℕ → α → Prop
  | leaf (r : α) : Rooted [r] 0 r
  | step {l : List α} {d : ℕ} {r : α} : 2 ≤ l.length → (∀ p ∈ pairs l, J p.1 p.2) →
      Rooted (up node l) d r → Rooted l (d + 1) r

/-- Joining is injective on the pairs that are allowed. -/
def Injective : Prop :=
  ∀ a b c d, J a b → J c d → node a b = node c d → a = c ∧ b = d

/-- The element is the joint of a pair that is allowed. -/
def Joint (x : α) : Prop := ∃ a b, J a b ∧ x = node a b

variable {node J}

theorem joint_of_mem_up (hJ : ∀ p ∈ pairs l, J p.1 p.2) (h : x ∈ up node l) : Joint node J x := by
  obtain ⟨p, hp, rfl⟩ := mem_map.1 h
  exact ⟨p.1, p.2, hJ p hp, rfl⟩

section Injective

variable (hinj : Injective node J)

include hinj

theorem nodup_up (h : l.Nodup) (hJ : ∀ p ∈ pairs l, J p.1 p.2) : (up node l).Nodup := by
  have hpairs : (pairs l).Nodup := ((sublist_pairs l).nodup h).of_map
  refine hpairs.map_on fun p hp q hq heq => ?_
  obtain ⟨h₁, h₂⟩ := hinj _ _ _ _ (hJ p hp) (hJ q hq) heq
  exact Prod.ext h₁ h₂

theorem pairs_eq_of_up_eq (hJ : ∀ p ∈ pairs l, J p.1 p.2) (hJ' : ∀ p ∈ pairs l', J p.1 p.2)
    (h : up node l = up node l') : pairs l = pairs l' := by
  unfold up at h
  generalize pairs l = ps at h hJ
  generalize pairs l' = qs at h hJ'
  induction ps generalizing qs with
  | nil => exact (map_eq_nil_iff.1 h.symm).symm
  | cons p ps ih =>
    cases qs with
    | nil => cases h
    | cons q qs =>
      rw [map_cons, map_cons, List.cons.injEq] at h
      obtain ⟨h₁, h₂⟩ := hinj _ _ _ _ (hJ p mem_cons_self) (hJ' q mem_cons_self) h.1
      rw [Prod.ext h₁ h₂, ih (fun p hp => hJ p (mem_cons_of_mem _ hp)) _ h.2
        fun q hq => hJ' q (mem_cons_of_mem _ hq)]

/-- At one height, a root has one list without repetitions. -/
theorem Rooted.eq_of_height (h : Rooted node J l d r) (h' : Rooted node J l' d r) (hl : l.Nodup)
    (hl' : l'.Nodup) : l = l' := by
  induction h generalizing l' with
  | leaf r =>
    cases h'
    rfl
  | step _ hJ _ ih =>
    cases h' with
    | step _ hJ' h' =>
      have hup := ih h' (nodup_up hinj hl hJ) (nodup_up hinj hl' hJ')
      exact eq_of_pairs_eq hl hl' (pairs_eq_of_up_eq hinj hJ hJ' hup)

/-- Some levels up, there are joints only. -/
theorem Rooted.level (k : ℕ) (h : Rooted node J l (d + (k + 1)) r) (hl : l.Nodup) :
    ∃ m, Rooted node J m d r ∧ m.Nodup ∧ ∀ x ∈ m, Joint node J x := by
  induction k generalizing l with
  | zero =>
    cases h with
    | step _ hJ h => exact ⟨_, h, nodup_up hinj hl hJ, fun x hx => joint_of_mem_up hJ hx⟩
  | succ k ih =>
    cases h with
    | step _ hJ h => exact ih h (nodup_up hinj hl hJ)

theorem Rooted.height_le {d' : ℕ} (h : Rooted node J l d r) (h' : Rooted node J l' d' r)
    (hl : l.Nodup) (hl' : l'.Nodup) (hleaf : ∀ x ∈ l, ¬Joint node J x) (hne : l ≠ []) : d' ≤ d := by
  by_contra hlt
  obtain ⟨k, rfl⟩ := Nat.exists_eq_add_of_lt (not_le.1 hlt)
  obtain ⟨m, hm, hnodup, hjoint⟩ := Rooted.level hinj k h' hl'
  cases h.eq_of_height hinj hm hl hnodup
  obtain ⟨x, hx⟩ := exists_mem_of_ne_nil _ hne
  exact hleaf x hx (hjoint x hx)

/-- Lists without repetitions and without joints have one root only if they are
    equal. -/
theorem Rooted.leaves_eq {d' : ℕ} (h : Rooted node J l d r) (h' : Rooted node J l' d' r)
    (hl : l.Nodup) (hl' : l'.Nodup) (hleaf : ∀ x ∈ l, ¬Joint node J x)
    (hleaf' : ∀ x ∈ l', ¬Joint node J x) (hne : l ≠ []) (hne' : l' ≠ []) : l = l' := by
  have hd : d = d' := le_antisymm (h'.height_le hinj h hl' hl hleaf' hne')
    (h.height_le hinj h' hl hl' hleaf hne)
  subst hd
  exact h.eq_of_height hinj h' hl hl'

end Injective

/-! ## Siblings -/

section Fold

/-- An element is joined with a sibling on one of its sides. -/
def beside (node : α → α → α) (current : α) (sibling : α × Bool) : α :=
  if sibling.2 then node current sibling.1 else node sibling.1 current

/-- The sibling may be joined so. -/
def Beside (J : α → α → Prop) (current : α) (sibling : α × Bool) : Prop :=
  if sibling.2 then J current sibling.1 else J sibling.1 current

/-- The siblings are joined one after the other, and each of the pairs is allowed. -/
inductive Fold (node : α → α → α) (J : α → α → Prop) : α → List (α × Bool) → α → Prop
  | nil (x : α) : Fold node J x [] x
  | snoc {x y : α} {steps : List (α × Bool)} {sibling : α × Bool} : Fold node J x steps y →
      Beside J y sibling → Fold node J x (steps ++ [sibling]) (beside node y sibling)

variable {steps : List (α × Bool)} {sibling : α × Bool}

theorem Fold.cons (hx : Beside J x sibling) (h : Fold node J (beside node x sibling) steps r) :
    Fold node J x (sibling :: steps) r := by
  generalize hy : beside node x sibling = y at h
  induction h with
  | nil =>
    subst hy
    exact (Fold.nil x).snoc hx
  | snoc _ hbeside ih => exact ih.snoc hbeside

theorem joint_beside (h : Beside J x sibling) : Joint node J (beside node x sibling) := by
  unfold Beside at h
  unfold beside
  split at h
  · next hright => exact ⟨_, _, h, if_pos hright⟩
  · next hleft => exact ⟨_, _, h, if_neg hleft⟩

variable (hinj : Injective node J)

include hinj

/-- What a sibling leads to the next level from is on this one. -/
theorem mem_of_beside_mem_up (hJ : ∀ p ∈ pairs l, J p.1 p.2) (hx : Beside J x sibling)
    (h : beside node x sibling ∈ up node l) : x ∈ l := by
  obtain ⟨p, hp, heq⟩ := mem_map.1 h
  have hmem := mem_of_mem_pairs hp
  unfold Beside at hx
  unfold beside at heq
  split at hx
  · next hright =>
    rw [if_pos hright] at heq
    exact (hinj _ _ _ _ (hJ p hp) hx heq).1 ▸ hmem.1
  · next hleft =>
    rw [if_neg hleft] at heq
    exact (hinj _ _ _ _ (hJ p hp) hx heq).2 ▸ hmem.2

/-- Siblings that lead to the root pass through an element of the list, or begin above
    it, at a joint. -/
theorem Rooted.passes (h : Rooted node J l d r) (hfold : Fold node J x steps r) :
    Joint node J x ∨ ∃ y ∈ l, ∃ below, Fold node J x below y := by
  induction h with
  | leaf r => exact .inr ⟨r, mem_singleton_self r, steps, hfold⟩
  | step _ hJ _ ih =>
    rcases ih hfold with hjoint | ⟨y, hy, below, hbelow⟩
    · exact .inl hjoint
    · cases hbelow with
      | nil => exact .inl (joint_of_mem_up hJ hy)
      | snoc hbelow hbeside =>
        exact .inr ⟨_, mem_of_beside_mem_up hinj hJ hbeside hy, _, hbelow⟩

/-- Where leaves are no joints, what siblings lead from to the root is a leaf. -/
theorem Rooted.mem_of_fold (h : Rooted node J l d r) (hfold : Fold node J x steps r)
    (hleaf : ∀ y ∈ l, ¬Joint node J y) (hx : ¬Joint node J x) : x ∈ l := by
  rcases h.passes hinj hfold with hjoint | ⟨y, hy, below, hbelow⟩
  · exact absurd hjoint hx
  · cases hbelow with
    | nil => exact hy
    | snoc _ hbeside => exact absurd (joint_beside hbeside) (hleaf _ hy)

end Fold

/-- The joint of the pair that an element is in. -/
theorem getElem?_up (l : List α) (i : ℕ) (x : α) (h : l[i]? = some x) :
    (up node l)[i / 2]? =
      if i % 2 = 0 then some (node x ((l[i + 1]?).getD x)) else l[i - 1]?.map fun y => node y x := by
  induction l using pairs.induct generalizing i with
  | case1 => cases h
  | case2 y =>
    cases i with
    | zero =>
      cases h
      rfl
    | succ i => cases h
  | case3 y z l ih =>
    match i with
    | 0 =>
      cases h
      rfl
    | 1 =>
      cases h
      rfl
    | i + 2 =>
      have hdiv : (i + 2) / 2 = i / 2 + 1 := by omega
      have hmod : (i + 2) % 2 = i % 2 := by omega
      rw [hdiv, hmod]
      change (up node l)[i / 2]? = _
      rw [ih i h]
      split
      · rfl
      · next hodd =>
        obtain ⟨j, rfl⟩ : ∃ j, i = j + 1 := ⟨i - 1, by omega⟩
        rfl

end HashTree
