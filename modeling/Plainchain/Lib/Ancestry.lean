import Plainchain.Lib.Store

/-!
# Ancestry

Nodes that point to their parent, and the paths along these pointers. Every node
is one higher than its parent.

* `Path`: the nodes passed on the way from a node down to an ancestor of it;
* `Anc.eq_of_height`: at each height a node has at most one ancestor;
* `Path.anc_iff`: the ancestors of a node are those on a path from it, and those
  of the end of the path;
* `HeightIndex.reorg`: an index of the ancestors of a node by height, moved to
  another node by writing the path to it from a common ancestor.
-/

namespace Ancestry

open List

variable {K : Type} (parent : K → Option K)

/-- The nodes from `x` down to `y`, which they exclude. -/
def Path : K → List K → K → Prop
  | x, [], y => x = y
  | x, z :: l, y => z = x ∧ ∃ p, parent x = some p ∧ Path p l y

/-- `y` is `x` or an ancestor of it. -/
def Anc (x y : K) : Prop := ∃ l, Path parent x l y

variable {parent} {x y z : K} {l m : List K}

theorem Path.append (h : Path parent x l y) (h' : Path parent y m z) :
    Path parent x (l ++ m) z := by
  induction l generalizing x with
  | nil =>
    rw [show x = y from h]
    exact h'
  | cons a l ih =>
    obtain ⟨rfl, p, hp, h⟩ := h
    exact ⟨rfl, p, hp, ih h⟩

theorem Path.single {p : K} (h : parent x = some p) : Path parent x [x] p := ⟨rfl, p, h, rfl⟩

/-- A node of a path is an ancestor of where it starts. -/
theorem Path.anc_of_mem (h : Path parent x l y) (hz : z ∈ l) : Anc parent x z := by
  induction l generalizing x with
  | nil => simp at hz
  | cons a l ih =>
    obtain ⟨rfl, p, hp, h⟩ := h
    rcases mem_cons.1 hz with rfl | hz
    · exact ⟨[], rfl⟩
    · obtain ⟨k, hk⟩ := ih h hz
      exact ⟨a :: k, rfl, p, hp, hk⟩

theorem Anc.refl (x : K) : Anc parent x x := ⟨[], rfl⟩

theorem Anc.trans (h : Anc parent x y) (h' : Anc parent y z) : Anc parent x z := by
  obtain ⟨l, hl⟩ := h
  obtain ⟨m, hm⟩ := h'
  exact ⟨_, hl.append hm⟩

theorem Anc.of_parent {p : K} (h : parent x = some p) : Anc parent x p := ⟨[x], Path.single h⟩

/-- An ancestor is the node itself, or one of its parent. -/
theorem Anc.eq_or_parent (h : Anc parent x y) :
    x = y ∨ ∃ p, parent x = some p ∧ Anc parent p y := by
  obtain ⟨l, hl⟩ := h
  cases l with
  | nil => exact .inl hl
  | cons a l =>
    obtain ⟨rfl, p, hp, h⟩ := hl
    exact .inr ⟨p, hp, l, h⟩

/-- The ancestors of a node are those on a path from it, and those of the end of
    the path. -/
theorem Path.anc_iff (h : Path parent x l y) : Anc parent x z ↔ z ∈ l ∨ Anc parent y z := by
  induction l generalizing x with
  | nil =>
    rw [show x = y from h]
    simp
  | cons a l ih =>
    have hpath := h
    obtain ⟨rfl, p, hp, h⟩ := h
    rw [mem_cons, or_assoc, ← ih h]
    constructor
    · intro hz
      rcases hz.eq_or_parent with rfl | ⟨p', hp', hz⟩
      · exact .inl rfl
      · rw [hp] at hp'
        cases hp'
        exact .inr hz
    · rintro (rfl | hz)
      · exact Anc.refl z
      · exact (Anc.of_parent hp).trans hz

/-- Where two sets of pointers agree on the ancestors of a node, it has the same
    ancestors by both. -/
theorem Anc.congr {parent' : K → Option K} (h : ∀ y, Anc parent x y → parent' y = parent y) :
    Anc parent' x z ↔ Anc parent x z := by
  constructor
  · rintro ⟨l, hl⟩
    induction l generalizing x with
    | nil => exact ⟨[], hl⟩
    | cons a l ih =>
      obtain ⟨rfl, p, hp, hl⟩ := hl
      rw [h a (Anc.refl a)] at hp
      exact (Anc.of_parent hp).trans (ih (fun y hy => h y ((Anc.of_parent hp).trans hy)) hl)
  · rintro ⟨l, hl⟩
    induction l generalizing x with
    | nil => exact ⟨[], hl⟩
    | cons a l ih =>
      obtain ⟨rfl, p, hp, hl⟩ := hl
      exact (Anc.of_parent ((h a (Anc.refl a)).trans hp)).trans
        (ih (fun y hy => h y ((Anc.of_parent hp).trans hy)) hl)

/-! ## Heights -/

section Height

variable {height : K → ℕ} (hheight : ∀ x p, parent x = some p → height x = height p + 1)

include hheight

theorem Path.height_eq (h : Path parent x l y) : height x = height y + l.length := by
  induction l generalizing x with
  | nil =>
    rw [show x = y from h]
    rfl
  | cons a l ih =>
    obtain ⟨rfl, p, hp, h⟩ := h
    rw [hheight a p hp, ih h, length_cons]
    omega

theorem Anc.height_le (h : Anc parent x y) : height y ≤ height x := by
  obtain ⟨l, hl⟩ := h
  rw [hl.height_eq hheight]
  omega

/-- The nodes of a path are above its end. -/
theorem Path.height_lt (h : Path parent x l y) (hz : z ∈ l) : height y < height z := by
  induction l generalizing x with
  | nil => simp at hz
  | cons a l ih =>
    have hx := h.height_eq hheight
    obtain ⟨rfl, p, hp, h⟩ := h
    rcases mem_cons.1 hz with rfl | hz
    · rw [hx, length_cons]
      omega
    · exact ih h hz

/-- At each height a node has at most one ancestor. -/
theorem Anc.eq_of_height (hy : Anc parent x y) (hz : Anc parent x z)
    (h : height y = height z) : y = z := by
  obtain ⟨l, hl⟩ := hy
  induction l generalizing x with
  | nil =>
    obtain rfl : x = y := hl
    rcases hz.eq_or_parent with rfl | ⟨p, hp, hz⟩
    · rfl
    · have := hz.height_le hheight
      rw [hheight x p hp] at h
      omega
  | cons a l ih =>
    have hx := hl.height_eq hheight
    obtain ⟨rfl, p, hp, hl⟩ := hl
    rcases hz.eq_or_parent with rfl | ⟨p', hp', hz⟩
    · rw [length_cons] at hx
      omega
    · rw [hp] at hp'
      cases hp'
      exact ih hz hl

/-- Of two ancestors of a node the higher one descends from the lower one. -/
theorem Anc.of_height_le (hy : Anc parent x y) (hz : Anc parent x z) (h : height z ≤ height y) :
    Anc parent y z := by
  obtain ⟨l, hl⟩ := hy
  rcases hl.anc_iff.1 hz with hmem | hanc
  · have := hl.height_lt hheight hmem
    omega
  · exact hanc

/-- The nodes of a path have different heights. -/
theorem Path.nodup_height (h : Path parent x l y) : (l.map height).Nodup := by
  induction l generalizing x with
  | nil => exact nodup_nil
  | cons a l ih =>
    obtain ⟨rfl, p, hp, h⟩ := h
    rw [map_cons, nodup_cons]
    refine ⟨fun hmem => ?_, ih h⟩
    obtain ⟨b, hb, hbh⟩ := mem_map.1 hmem
    have := (h.anc_of_mem hb).height_le hheight
    rw [hheight a p hp] at hbh
    omega

/-- A path meets every height between its ends. -/
theorem Path.exists_height (h : Path parent x l y) {i : ℕ} (hy : height y < i)
    (hx : i ≤ height x) : ∃ a ∈ l, height a = i := by
  induction l generalizing x with
  | nil =>
    rw [show x = y from h] at hx
    omega
  | cons a l ih =>
    obtain ⟨rfl, p, hp, h⟩ := h
    have hap := hheight a p hp
    by_cases hi : i ≤ height p
    · obtain ⟨b, hb, hbi⟩ := ih h hi
      exact ⟨b, mem_cons_of_mem _ hb, hbi⟩
    · exact ⟨a, mem_cons_self, by omega⟩

end Height

/-! ## Indexes -/

section Index

open Kv

variable (parent) (height : K → ℕ)

/-- The index holds the ancestors of a node, each at its height, and nothing
    else. -/
def HeightIndex (index : Store ℕ K) (x : K) : Prop :=
  ∀ i y, index.get i = some y ↔ Anc parent x y ∧ height y = i

/-- There are records of the ancestors of a node but the lowest one, and no
    others. -/
def Recorded {V : Type} [DecidableEq K] (records : Store K V) (x : K) : Prop :=
  ∀ y, (records.get y).isSome ↔ Anc parent x y ∧ 0 < height y

variable {parent} {height}

section Congr

variable {parent' : K → Option K} {height' : K → ℕ}
  (hanc : ∀ y, Anc parent' x y ↔ Anc parent x y) (hsame : ∀ y, Anc parent x y → height' y = height y)

include hanc hsame

theorem HeightIndex.congr {index : Store ℕ K} (h : HeightIndex parent height index x) :
    HeightIndex parent' height' index x := by
  intro i y
  rw [h i y, hanc]
  exact and_congr_right fun hy => by rw [hsame y hy]

theorem Recorded.congr {V : Type} [DecidableEq K] {records : Store K V}
    (h : Recorded parent height records x) : Recorded parent' height' records x := by
  intro y
  rw [h y, hanc]
  exact and_congr_right fun hy => by rw [hsame y hy]

end Congr

variable (hheight : ∀ x p, parent x = some p → height x = height p + 1)
  {tip head fork : K} {d c : List K}

include hheight

/-- The writes of the nodes of a path, each at its height. -/
theorem lastWrite_path (hc : Path parent head c fork) (i : ℕ) :
    (∀ y, lastWrite (c.reverse.map fun y => (height y, some y)) i = some (some y) ↔
      y ∈ c ∧ height y = i) ∧
    (lastWrite (c.reverse.map fun y => (height y, some y)) i = none ↔
      ¬(height fork < i ∧ i ≤ height head)) ∧
    lastWrite (c.reverse.map fun y => (height y, some y)) i ≠ some none := by
  have hnodup : ((c.reverse.map fun y => (height y, some y)).map Prod.fst).Nodup := by
    rw [map_map, map_reverse, nodup_reverse]
    exact hc.nodup_height hheight
  refine ⟨fun y => ⟨fun h => ?_, fun ⟨hy, hi⟩ => ?_⟩, ?_, fun h => ?_⟩
  · obtain ⟨y', hy', heq⟩ := mem_map.1 (mem_of_lastWrite h)
    cases heq
    exact ⟨mem_reverse.1 hy', rfl⟩
  · exact lastWrite_of_mem hnodup (mem_map.2 ⟨y, mem_reverse.2 hy, by rw [hi]⟩)
  · rw [lastWrite_eq_none]
    constructor
    · rintro h ⟨hf, hh⟩
      obtain ⟨y, hy, hyi⟩ := hc.exists_height hheight hf hh
      exact h _ (mem_map.2 ⟨y, mem_reverse.2 hy, rfl⟩) hyi
    · intro h op hop heq
      obtain ⟨y, hy, rfl⟩ := mem_map.1 hop
      rw [mem_reverse] at hy
      refine h ⟨?_, ?_⟩
      · exact heq ▸ hc.height_lt hheight hy
      · exact heq ▸ (hc.anc_of_mem hy).height_le hheight
  · obtain ⟨y, -, heq⟩ := mem_map.1 (mem_of_lastWrite h)
    cases heq

/-- An index of the ancestors of `tip` becomes one of the ancestors of `head`, by
    writing the path from `head` to a common ancestor and clearing the heights
    above `head`. -/
theorem HeightIndex.reorg {index : Store ℕ K} (h : HeightIndex parent height index tip)
    (hd : Path parent tip d fork) (hc : Path parent head c fork) {clear : List ℕ}
    (hclear : ∀ i, i ∈ clear ↔ height head < i ∧ i ≤ height tip) :
    HeightIndex parent height (index.batch ((c.reverse.map fun y => (height y, some y)) ++
      clear.map fun i => (i, none))) head := by
  intro i y
  obtain ⟨hput, hnone, hsome⟩ := lastWrite_path hheight hc i
  have hfork : height fork ≤ height head := by
    rw [hc.height_eq hheight]
    omega
  rw [Store.get_batch, lastWrite_append, lastWrite_map clear (fun _ => none) i]
  by_cases hi : i ∈ clear
  · -- Above the new head nothing is left.
    rw [if_pos hi, Option.some_or, Option.getD_some]
    simp only [reduceCtorEq, false_iff, not_and]
    intro hanc heq
    have := hanc.height_le hheight
    have := (hclear i).1 hi
    omega
  · rw [if_neg hi, Option.none_or]
    cases hw : lastWrite (c.reverse.map fun y => (height y, some y)) i with
    | some w =>
      cases w with
      | none => exact absurd hw hsome
      | some y' =>
        -- A height of the new branch.
        obtain ⟨hy', hi'⟩ := (hput y').1 hw
        rw [Option.getD_some, Option.some.injEq]
        constructor
        · rintro rfl
          exact ⟨hc.anc_of_mem hy', hi'⟩
        · rintro ⟨hanc, hyi⟩
          exact (hc.anc_of_mem hy').eq_of_height hheight hanc (hi'.trans hyi.symm)
    | none =>
      -- A height up to the fork, where both chains agree, or above both.
      rw [Option.getD_none, h i y, hd.anc_iff, hc.anc_iff]
      have hout := hnone.1 hw
      constructor
      · rintro ⟨hy | hy, hyi⟩
        · have hlt := hd.height_lt hheight hy
          have hle := (hd.anc_of_mem hy).height_le hheight
          exact absurd ((hclear i).2 (by omega)) hi
        · exact ⟨.inr hy, hyi⟩
      · rintro ⟨hy | hy, hyi⟩
        · have hlt := hc.height_lt hheight hy
          have hle := (hc.anc_of_mem hy).height_le hheight
          exact absurd ⟨by omega, by omega⟩ hout
        · exact ⟨.inr hy, hyi⟩

/-- Up to the height of an ancestor, an index has the ancestors of that. -/
theorem HeightIndex.get_below {index : Store ℕ K} (h : HeightIndex parent height index tip)
    (hanc : Anc parent tip fork) {i : ℕ} (hi : i ≤ height fork) {y : K} :
    index.get i = some y ↔ Anc parent fork y ∧ height y = i := by
  rw [h i y]
  refine and_congr_left fun hy => ⟨fun hxy => ?_, hanc.trans⟩
  exact hanc.of_height_le hheight hxy (by omega)

/-- Indexes of two nodes agree up to a common ancestor. -/
theorem HeightIndex.agree {index index' : Store ℕ K} (h : HeightIndex parent height index tip)
    (h' : HeightIndex parent height index' head) (ht : Anc parent tip fork)
    (hh : Anc parent head fork) {i : ℕ} (hi : i ≤ height fork) : index'.get i = index.get i := by
  ext y
  rw [get_below hheight h' hh hi, get_below hheight h ht hi]

/-- Records of the ancestors of `tip` become records of those of `head`, by
    deleting those down to a common ancestor and putting those up to `head`. -/
theorem Recorded.reorg {V : Type} [DecidableEq K] {records : Store K V}
    (h : Recorded parent height records tip) (hd : Path parent tip d fork)
    (hc : Path parent head c fork) {puts : List (K × Option V)}
    (hputs : puts.map Prod.fst = c.reverse) (hsome : ∀ op ∈ puts, op.2.isSome) :
    Recorded parent height (records.batch ((d.map fun y => (y, none)) ++ puts)) head := by
  intro y
  rw [Store.get_batch, lastWrite_append, lastWrite_map d (fun _ => none) y, hc.anc_iff]
  cases hw : lastWrite puts y with
  | some v =>
    have hmem := mem_of_lastWrite hw
    have hy : y ∈ c := by
      rw [← mem_reverse, ← hputs]
      exact mem_map.2 ⟨_, hmem, rfl⟩
    have hpos := hc.height_lt hheight hy
    rw [Option.some_or, Option.getD_some]
    exact ⟨fun _ => ⟨.inl hy, by omega⟩, fun _ => hsome _ hmem⟩
  | none =>
    have hyc : y ∉ c := by
      intro hy
      rw [← mem_reverse, ← hputs, mem_map] at hy
      obtain ⟨op, hop, heq⟩ := hy
      exact lastWrite_eq_none.1 hw op hop heq
    rw [Option.none_or]
    by_cases hyd : y ∈ d
    · -- Disconnected, and below the fork there is no node of the old branch.
      rw [if_pos hyd, Option.getD_some]
      simp only [Option.isSome_none, Bool.false_eq_true, hyc, false_or, false_iff, not_and]
      intro hanc
      have := hanc.height_le hheight
      have := hd.height_lt hheight hyd
      omega
    · rw [if_neg hyd, Option.getD_none, h y, hd.anc_iff]
      simp only [hyd, hyc, false_or]

end Index

end Ancestry
