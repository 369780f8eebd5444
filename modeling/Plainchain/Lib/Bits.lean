import Mathlib.Data.Nat.Bitwise
import Mathlib.Data.List.Flatten
import Mathlib.Tactic.Ring

/-!
# Bits in groups

Numbers of a fixed width, written one after the other, are a list of bits; to write them
in another width is to cut the same bits elsewhere.

* `bitsOf`, `valueOf`: a number of a width as bits, the highest first, and back;
* `groupBits`: the bits of numbers, which tell the numbers (`groupBits_inj`);
* `slices`: a list cut into equal parts, and the numbers of the parts (`groupBits_slices`,
  `slices_eq_of_groupBits`).
-/

namespace Bits

open List

/-! ## One number -/

/-- The `w` low bits of a number, the highest first. -/
def bitsOf : (w n : ℕ) → List Bool
  | 0, _ => []
  | w + 1, n => n.testBit w :: bitsOf w n

/-- The number of which bits are given, the highest first. -/
def valueOf (bs : List Bool) : ℕ := bs.foldl (fun n b => 2 * n + b.toNat) 0

@[simp] theorem length_bitsOf (w n : ℕ) : (bitsOf w n).length = w := by
  induction w with
  | zero => rfl
  | succ w ih => rw [bitsOf, length_cons, ih]

/-- Only the low bits count. -/
theorem bitsOf_congr {w n m : ℕ} (h : ∀ i < w, n.testBit i = m.testBit i) :
    bitsOf w n = bitsOf w m := by
  induction w with
  | zero => rfl
  | succ w ih =>
    rw [bitsOf, bitsOf, h w (Nat.lt_succ_self w), ih fun i hi => h i (Nat.lt_succ_of_lt hi)]

/-- The high bits come first. -/
theorem bitsOf_add (a b n : ℕ) : bitsOf (a + b) n = bitsOf a (n >>> b) ++ bitsOf b n := by
  induction a with
  | zero => rw [Nat.zero_add]; rfl
  | succ a ih =>
    rw [Nat.add_right_comm, bitsOf, ih, bitsOf, Nat.testBit_shiftRight, Nat.add_comm b a,
      cons_append]

theorem bitsOf_zero (w : ℕ) : bitsOf w 0 = List.replicate w false := by
  induction w with
  | zero => rfl
  | succ w ih => rw [bitsOf, Nat.zero_testBit, ih, replicate_succ]

theorem bitsOf_mod {w m : ℕ} (h : w ≤ m) (n : ℕ) : bitsOf w (n % 2 ^ m) = bitsOf w n :=
  bitsOf_congr fun i hi => by rw [Nat.testBit_mod_two_pow, decide_eq_true (hi.trans_le h), Bool.true_and]

/-- A number with others below it. -/
theorem bitsOf_or {a f v : ℕ} (n : ℕ) (hv : v < 2 ^ f) :
    bitsOf (a + f) (n <<< f ||| v) = bitsOf a n ++ bitsOf f v := by
  rw [bitsOf_add]
  congr 1
  · refine bitsOf_congr fun i _ => ?_
    have hhigh : v.testBit (f + i) = false :=
      Nat.testBit_lt_two_pow (hv.trans_le (Nat.pow_le_pow_right two_pos (Nat.le_add_right f i)))
    simp [hhigh]
  · refine bitsOf_congr fun i hi => ?_
    simp [not_le.2 hi]

theorem foldl_value (n : ℕ) (bs : List Bool) :
    bs.foldl (fun n b => 2 * n + b.toNat) n = n * 2 ^ bs.length + valueOf bs := by
  induction bs generalizing n with
  | nil => simp [valueOf]
  | cons b bs ih =>
    have hcons : valueOf (b :: bs) = (2 * 0 + b.toNat) * 2 ^ bs.length + valueOf bs := ih _
    rw [foldl_cons, ih, hcons, length_cons, pow_succ]
    ring

theorem valueOf_cons (b : Bool) (bs : List Bool) :
    valueOf (b :: bs) = 2 ^ bs.length * b.toNat + valueOf bs := by
  rw [valueOf, foldl_cons, foldl_value]
  ring

theorem valueOf_append (bs cs : List Bool) :
    valueOf (bs ++ cs) = valueOf bs * 2 ^ cs.length + valueOf cs := by
  rw [valueOf, foldl_append]
  exact foldl_value _ _

theorem valueOf_lt (bs : List Bool) : valueOf bs < 2 ^ bs.length := by
  induction bs with
  | nil => exact Nat.one_pos
  | cons b bs ih =>
    rw [valueOf_cons, length_cons, pow_succ]
    cases b <;> simp only [Bool.toNat_false, Bool.toNat_true] <;> omega

theorem bitsOf_valueOf (bs : List Bool) : bitsOf bs.length (valueOf bs) = bs := by
  induction bs with
  | nil => rfl
  | cons b bs ih =>
    have hbit := Nat.testBit_two_pow_mul_add b.toNat (valueOf_lt bs)
    rw [length_cons, bitsOf, valueOf_cons, hbit, if_neg (lt_irrefl _), Nat.sub_self]
    congr 1
    · cases b <;> rfl
    · refine (bitsOf_congr fun i hi => ?_).trans ih
      rw [hbit, if_pos hi]

theorem valueOf_bitsOf (w n : ℕ) : valueOf (bitsOf w n) = n % 2 ^ w := by
  induction w with
  | zero => rw [pow_zero, Nat.mod_one]; rfl
  | succ w ih =>
    rw [bitsOf, valueOf_cons, ih, length_bitsOf, Nat.mod_pow_succ, Nat.toNat_testBit,
      Nat.add_comm]

theorem valueOf_bitsOf_of_lt {w n : ℕ} (h : n < 2 ^ w) : valueOf (bitsOf w n) = n := by
  rw [valueOf_bitsOf, Nat.mod_eq_of_lt h]

/-! ## Many numbers -/

/-- The bits of numbers of a width. -/
def groupBits (w : ℕ) (ns : List ℕ) : List Bool := (ns.map (bitsOf w)).flatten

@[simp] theorem groupBits_nil (w : ℕ) : groupBits w [] = [] := rfl

@[simp] theorem groupBits_cons (w n : ℕ) (ns : List ℕ) :
    groupBits w (n :: ns) = bitsOf w n ++ groupBits w ns := rfl

theorem groupBits_append (w : ℕ) (ns ms : List ℕ) :
    groupBits w (ns ++ ms) = groupBits w ns ++ groupBits w ms := by
  simp [groupBits]

@[simp] theorem length_groupBits (w : ℕ) (ns : List ℕ) : (groupBits w ns).length = w * ns.length := by
  induction ns with
  | nil => rfl
  | cons n ns ih =>
    rw [groupBits_cons, length_append, ih, length_bitsOf, length_cons]
    ring

/-- The bits tell the numbers. -/
theorem groupBits_inj {w : ℕ} {ns ms : List ℕ} (hn : ∀ n ∈ ns, n < 2 ^ w) (hm : ∀ m ∈ ms, m < 2 ^ w)
    (hlength : ns.length = ms.length) (h : groupBits w ns = groupBits w ms) : ns = ms := by
  induction ns generalizing ms with
  | nil => exact (length_eq_zero_iff.1 hlength.symm).symm
  | cons n ns ih =>
    cases ms with
    | nil => cases hlength
    | cons m ms =>
      rw [forall_mem_cons] at hn hm
      rw [groupBits_cons, groupBits_cons] at h
      obtain ⟨hhead, htail⟩ := append_inj h (by rw [length_bitsOf, length_bitsOf])
      have hvalue : n = m := by
        rw [← valueOf_bitsOf_of_lt hn.1, hhead, valueOf_bitsOf_of_lt hm.1]
      rw [hvalue, ih hn.2 hm.2 (Nat.succ.inj hlength) htail]

/-! ## Equal parts -/

/-- A list cut into `k` parts of `w` entries. -/
def slices {α : Type} (w k : ℕ) (l : List α) : List (List α) :=
  (List.range k).map fun i => (l.drop (i * w)).take w

section Slices

variable {α : Type} {w k : ℕ} {l : List α}

theorem slices_succ : slices w (k + 1) l = l.take w :: slices w k (l.drop w) := by
  simp only [slices, range_succ_eq_map, map_cons, map_map, Nat.zero_mul,
    drop_zero]
  congr 1
  refine map_congr_left fun i _ => ?_
  simp only [Function.comp_apply, drop_drop]
  rw [Nat.succ_mul, Nat.add_comm]

@[simp] theorem length_slices : (slices w k l).length = k := by
  simp [slices]

/-- The parts make up what was cut. -/
theorem flatten_slices (h : k * w ≤ l.length) : (slices w k l).flatten = l.take (k * w) := by
  induction k generalizing l with
  | zero => rw [Nat.zero_mul, take_zero]; rfl
  | succ k ih =>
    rw [Nat.succ_mul] at h
    rw [slices_succ, flatten_cons, ih (by rw [length_drop]; omega), Nat.succ_mul,
      Nat.add_comm, take_add]

theorem length_of_mem_slices (h : k * w ≤ l.length) {s : List α} (hs : s ∈ slices w k l) :
    s.length = w := by
  obtain ⟨i, hi, rfl⟩ := mem_map.1 hs
  have hle : i * w + w ≤ k * w := by
    rw [← Nat.succ_mul]
    exact Nat.mul_le_mul_right w (mem_range.1 hi)
  rw [length_take, length_drop]
  omega

end Slices

/-- The numbers of the parts have the bits that were cut. -/
theorem groupBits_slices {w k : ℕ} {bs : List Bool} (h : k * w ≤ bs.length) :
    groupBits w ((slices w k bs).map valueOf) = bs.take (k * w) := by
  have hparts : ((slices w k bs).map valueOf).map (bitsOf w) = slices w k bs := by
    rw [map_map]
    refine (map_congr_left fun s hs => ?_).trans (map_id _)
    have hlength := length_of_mem_slices h hs
    rw [Function.comp_apply, ← hlength, bitsOf_valueOf]
    rfl
  rw [groupBits, hparts, flatten_slices h]

/-- The number of a part is one of the width. -/
theorem lt_of_mem_slices {w k : ℕ} {bs : List Bool} (h : k * w ≤ bs.length) {n : ℕ}
    (hn : n ∈ (slices w k bs).map valueOf) : n < 2 ^ w := by
  obtain ⟨s, hs, rfl⟩ := mem_map.1 hn
  have hlt := valueOf_lt s
  rwa [length_of_mem_slices h hs] at hlt

/-- Numbers with the bits that were cut are those of the parts. -/
theorem slices_eq_of_groupBits {w : ℕ} {bs : List Bool} {ns : List ℕ} (hn : ∀ n ∈ ns, n < 2 ^ w)
    (h : groupBits w ns = bs.take (ns.length * w)) (hlength : ns.length * w ≤ bs.length) :
    (slices w ns.length bs).map valueOf = ns :=
  groupBits_inj (fun _ => lt_of_mem_slices hlength) hn (by rw [length_map, length_slices])
    ((groupBits_slices hlength).trans h.symm)

end Bits
