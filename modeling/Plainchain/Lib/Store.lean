import Mathlib

/-!
# Key-value stores

A store holds at most one value for a key, and is written in batches: lists of
puts and deletions (`none`), applied in order and all at once.

* `Store.get_batch`: a read after a batch sees the last write to its key, or
  else what was there;
* `Store.total`: a weight summed over the values held, and what a write does to
  it (`total_set`).

`OrdMap` is the map of ECMAScript, which is iterated in the order its keys were
first set.
-/

namespace Kv

open List

/-- A finite map, equal to another when all reads are (`Store.ext`). -/
def Store (K V : Type) : Type := Finmap fun _ : K => V

namespace Store

variable {K V : Type} [DecidableEq K]

def empty : Store K V := (∅ : Finmap fun _ : K => V)

def get (s : Store K V) (k : K) : Option V := Finmap.lookup k s

/-- A put, or a deletion. -/
def set (s : Store K V) (k : K) : Option V → Store K V
  | some v => Finmap.insert k v s
  | none => Finmap.erase k s

/-- The keys held. -/
def keys (s : Store K V) : Finset K := Finmap.keys s

@[simp] theorem get_empty (k : K) : (empty : Store K V).get k = none := Finmap.lookup_empty k

variable {s : Store K V}

@[ext] theorem ext {t : Store K V} (h : ∀ k, s.get k = t.get k) : s = t := Finmap.ext_lookup h

instance [DecidableEq V] : DecidableEq (Store K V) :=
  inferInstanceAs (DecidableEq (Finmap fun _ : K => V))

theorem mem_keys {k : K} : k ∈ s.keys ↔ (s.get k).isSome :=
  Finmap.mem_keys.trans Finmap.lookup_isSome.symm

theorem get_set (s : Store K V) (k k' : K) (v : Option V) :
    (s.set k v).get k' = if k' = k then v else s.get k' := by
  split
  · next h =>
    subst h
    cases v with
    | none => exact Finmap.lookup_erase k' s
    | some v => exact Finmap.lookup_insert s
  · next h =>
    cases v with
    | none => exact Finmap.lookup_erase_ne h
    | some v => exact Finmap.lookup_insert_of_ne s h

@[simp] theorem get_set_self (s : Store K V) (k : K) (v : Option V) : (s.set k v).get k = v := by
  rw [get_set, if_pos rfl]

theorem get_set_of_ne (s : Store K V) {k k' : K} (h : k' ≠ k) (v : Option V) :
    (s.set k v).get k' = s.get k' := by
  rw [get_set, if_neg h]

/-- An entry is the one that was written, or was there. -/
theorem get_set_some {k k' : K} {v v' : V} (h : (s.set k (some v)).get k' = some v') :
    (k' = k ∧ v' = v) ∨ s.get k' = some v' := by
  rw [get_set] at h
  split at h
  · next hk => exact .inl ⟨hk, (Option.some.inj h).symm⟩
  · exact .inr h

/-- A batch of writes, in order. -/
def batch (s : Store K V) (ops : List (K × Option V)) : Store K V :=
  ops.foldl (fun s op => s.set op.1 op.2) s

@[simp] theorem batch_nil (s : Store K V) : s.batch [] = s := rfl

@[simp] theorem batch_cons (s : Store K V) (op : K × Option V) (ops : List (K × Option V)) :
    s.batch (op :: ops) = (s.set op.1 op.2).batch ops := rfl

theorem batch_append (s : Store K V) (ops ops' : List (K × Option V)) :
    s.batch (ops ++ ops') = (s.batch ops).batch ops' :=
  foldl_append

end Store

/-! ## The last write -/

section LastWrite

variable {K V : Type} [DecidableEq K]

/-- The last write to a key in a batch, if there is one. -/
def lastWrite : List (K × Option V) → K → Option (Option V)
  | [], _ => none
  | op :: ops, k => (lastWrite ops k).or (if op.1 = k then some op.2 else none)

@[simp] theorem lastWrite_nil (k : K) : lastWrite ([] : List (K × Option V)) k = none := rfl

theorem lastWrite_cons (op : K × Option V) (ops : List (K × Option V)) (k : K) :
    lastWrite (op :: ops) k = (lastWrite ops k).or (if op.1 = k then some op.2 else none) := rfl

theorem lastWrite_append (ops ops' : List (K × Option V)) (k : K) :
    lastWrite (ops ++ ops') k = (lastWrite ops' k).or (lastWrite ops k) := by
  induction ops with
  | nil => simp
  | cons op ops ih => rw [cons_append, lastWrite_cons, ih, lastWrite_cons, Option.or_assoc]

variable {ops : List (K × Option V)}

theorem lastWrite_eq_none {k : K} : lastWrite ops k = none ↔ ∀ op ∈ ops, op.1 ≠ k := by
  induction ops with
  | nil => simp
  | cons op ops ih => simp [lastWrite_cons, ih, and_comm]

/-- The last write is one of the batch. -/
theorem mem_of_lastWrite {k : K} {v : Option V} (h : lastWrite ops k = some v) : (k, v) ∈ ops := by
  induction ops with
  | nil => simp at h
  | cons op ops ih =>
    rw [lastWrite_cons] at h
    cases hl : lastWrite ops k with
    | some w =>
      rw [hl, Option.some_or] at h
      exact mem_cons_of_mem _ (ih (hl.trans h))
    | none =>
      rw [hl, Option.none_or] at h
      split at h
      · next hk =>
        cases h
        exact hk ▸ mem_cons_self
      · cases h

/-- Where a batch writes each key once, every write is the last. -/
theorem lastWrite_of_mem (hnodup : (ops.map Prod.fst).Nodup) {k : K} {v : Option V}
    (h : (k, v) ∈ ops) : lastWrite ops k = some v := by
  induction ops with
  | nil => simp at h
  | cons op ops ih =>
    rw [map_cons, nodup_cons] at hnodup
    rw [lastWrite_cons]
    rcases mem_cons.1 h with rfl | h
    · rw [lastWrite_eq_none.2 fun op' hop' heq => hnodup.1 (mem_map.2 ⟨op', hop', heq⟩)]
      simp
    · rw [ih hnodup.2 h, Option.some_or]

/-- The last of writes whose value depends on the key only. -/
theorem lastWrite_map (ks : List K) (g : K → Option V) (k : K) :
    lastWrite (ks.map fun k => (k, g k)) k = if k ∈ ks then some (g k) else none := by
  induction ks with
  | nil => simp
  | cons k' ks ih =>
    rw [map_cons, lastWrite_cons, ih]
    by_cases hk : k ∈ ks
    · rw [if_pos hk, if_pos (mem_cons_of_mem _ hk), Option.some_or]
    · rw [if_neg hk, Option.none_or]
      by_cases heq : k' = k
      · simp [heq]
      · simp [heq, hk, Ne.symm heq]

namespace Store

/-- A read after a batch. -/
theorem get_batch (s : Store K V) (ops : List (K × Option V)) (k : K) :
    (s.batch ops).get k = (lastWrite ops k).getD (s.get k) := by
  induction ops generalizing s with
  | nil => rfl
  | cons op ops ih =>
    rw [batch_cons, ih, get_set, lastWrite_cons]
    cases lastWrite ops k with
    | some v => rfl
    | none =>
      rw [Option.none_or]
      split
      · next h => rw [if_pos h.symm]; rfl
      · next h => rw [if_neg (Ne.symm h), Option.getD_none]

end Store

end LastWrite

/-! ## Totals -/

namespace Store

variable {K V : Type} [DecidableEq K]

/-- A weight of the values, summed over the store. -/
def total (f : V → ℤ) (s : Store K V) : ℤ := ∑ k ∈ s.keys, (s.get k).elim 0 f

@[simp] theorem total_empty (f : V → ℤ) : total f (empty : Store K V) = 0 := rfl

/-- Keys that are not held add nothing. -/
theorem total_eq_sum (f : V → ℤ) (s : Store K V) {T : Finset K} (hT : s.keys ⊆ T) :
    s.total f = ∑ k ∈ T, (s.get k).elim 0 f := by
  refine Finset.sum_subset hT fun k _ hk => ?_
  rw [mem_keys, Option.not_isSome_iff_eq_none] at hk
  rw [hk]
  rfl

/-- What a write does to the total: the weight it replaces goes, its own
    comes. -/
theorem total_set (f : V → ℤ) (s : Store K V) (k : K) (v : Option V) :
    (s.set k v).total f = s.total f - (s.get k).elim 0 f + v.elim 0 f := by
  have hkeys : (s.set k v).keys ⊆ insert k s.keys := by
    intro k' hk'
    rw [mem_keys, get_set] at hk'
    split at hk'
    · next h => exact h ▸ Finset.mem_insert_self _ _
    · exact Finset.mem_insert_of_mem (mem_keys.2 hk')
  have hk := Finset.mem_insert_self k s.keys
  -- Away from `k` the two sums have the same terms.
  have hrest : ∑ k' ∈ (insert k s.keys).erase k, ((s.set k v).get k').elim 0 f =
      ∑ k' ∈ (insert k s.keys).erase k, (s.get k').elim 0 f :=
    Finset.sum_congr rfl fun k' hk' => by rw [get_set_of_ne s (Finset.ne_of_mem_erase hk')]
  rw [total_eq_sum f s (Finset.subset_insert k _), total_eq_sum f _ hkeys,
    ← Finset.add_sum_erase _ _ hk, ← Finset.add_sum_erase _ _ hk, hrest, get_set_self]
  ring

/-- Deleting keys, each once, takes away what they held. -/
theorem total_batch_delete (f : V → ℤ) (s : Store K V) {ks : List K} (h : ks.Nodup) :
    (s.batch (ks.map fun k => (k, none))).total f =
      s.total f - (ks.map fun k => (s.get k).elim 0 f).sum := by
  induction ks generalizing s with
  | nil => simp
  | cons k ks ih =>
    rw [nodup_cons] at h
    -- Deleting `k` leaves what the later keys hold.
    have hrest : ks.map (fun k' => ((s.set k none).get k').elim 0 f) =
        ks.map fun k' => (s.get k').elim 0 f :=
      map_congr_left fun k' hk' => by
        have hne : k' ≠ k := fun heq => h.1 (heq ▸ hk')
        rw [get_set_of_ne s hne]
    rw [map_cons, batch_cons, ih _ h.2, hrest, total_set, map_cons, sum_cons,
      Option.elim_none]
    ring

/-- Putting values adds at most their weights, where no weight is negative: a
    put may replace a value. -/
theorem total_batch_put_le (f : V → ℤ) (s : Store K V) (hs : ∀ k v, s.get k = some v → 0 ≤ f v)
    {es : List (K × V)} (hes : ∀ e ∈ es, 0 ≤ f e.2) :
    (s.batch (es.map fun e => (e.1, some e.2))).total f ≤
      s.total f + (es.map fun e => f e.2).sum := by
  induction es generalizing s with
  | nil => simp
  | cons e es ih =>
    rw [forall_mem_cons] at hes
    have hs' : ∀ k v, (s.set e.1 (some e.2)).get k = some v → 0 ≤ f v := by
      intro k v hk
      rw [get_set] at hk
      split at hk
      · cases hk
        exact hes.1
      · exact hs k v hk
    have hold : 0 ≤ (s.get e.1).elim 0 f := by
      cases hg : s.get e.1 with
      | none => rfl
      | some v => exact hs _ _ hg
    have hrest := ih _ hs' hes.2
    rw [total_set, Option.elim_some] at hrest
    simp only [map_cons, batch_cons, sum_cons]
    linarith

end Store

/-! ## Maps in insertion order -/

/-- The `Map` of ECMAScript: each key once, in the order of first insertion. -/
structure OrdMap (K V : Type) where
  entries : List (K × V)
  nodup : (entries.map Prod.fst).Nodup

namespace OrdMap

variable {K V : Type}

variable {m : OrdMap K V} {k : K} {v : V}

@[ext] theorem ext {n : OrdMap K V} (h : m.entries = n.entries) : m = n := by
  cases m
  cases n
  congr

variable [DecidableEq K]

instance [DecidableEq V] : DecidableEq (OrdMap K V) := fun m n =>
  decidable_of_iff (m.entries = n.entries) ⟨ext, congrArg entries⟩

def empty : OrdMap K V := ⟨[], nodup_nil⟩

def keys (m : OrdMap K V) : List K := m.entries.map Prod.fst

def values (m : OrdMap K V) : List V := m.entries.map Prod.snd

def size (m : OrdMap K V) : ℕ := m.entries.length

def get (m : OrdMap K V) (k : K) : Option V := m.entries.lookup k

/-- The entries after `set`: a key that is there keeps its place. -/
def setEntries (l : List (K × V)) (k : K) (v : V) : List (K × V) :=
  if k ∈ l.map Prod.fst then l.map fun e => if e.1 = k then (k, v) else e else l ++ [(k, v)]

theorem nodup_setEntries {l : List (K × V)} (h : (l.map Prod.fst).Nodup) (k : K) (v : V) :
    ((setEntries l k v).map Prod.fst).Nodup := by
  unfold setEntries
  split
  · have hkeys : (l.map fun e => if e.1 = k then (k, v) else e).map Prod.fst =
        l.map Prod.fst := by
      rw [map_map]
      refine map_congr_left fun e _ => ?_
      simp only [Function.comp_apply]
      split
      · next he => exact he.symm
      · rfl
    rwa [hkeys]
  · next hk =>
    rw [map_append, nodup_append]
    refine ⟨h, nodup_singleton k, ?_⟩
    intro a ha b hb hab
    rw [map_singleton, mem_singleton] at hb
    rw [hab, hb] at ha
    exact hk ha

def set (m : OrdMap K V) (k : K) (v : V) : OrdMap K V :=
  ⟨setEntries m.entries k v, nodup_setEntries m.nodup k v⟩

def delete (m : OrdMap K V) (k : K) : OrdMap K V :=
  ⟨m.entries.filter fun e => e.1 ≠ k, m.nodup.sublist (filter_sublist.map _)⟩

/-- The entries that a loop over the map leaves, where it deletes the others. -/
def filter (m : OrdMap K V) (p : K × V → Bool) : OrdMap K V :=
  ⟨m.entries.filter p, m.nodup.sublist (filter_sublist.map _)⟩

/-- A value is read where it is listed. -/
theorem get_eq_some : m.get k = some v ↔ (k, v) ∈ m.entries := by
  obtain ⟨l, hl⟩ := m
  change l.lookup k = some v ↔ (k, v) ∈ l
  induction l with
  | nil => simp
  | cons e l ih =>
    obtain ⟨k', v'⟩ := e
    rw [map_cons, nodup_cons] at hl
    rw [lookup_cons, mem_cons, Prod.mk.injEq]
    split
    · next h =>
      obtain rfl : k = k' := by simpa using h
      simp only [Option.some.injEq, true_and]
      refine ⟨fun hv => .inl hv.symm, ?_⟩
      rintro (hv | hv)
      · exact hv.symm
      · exact absurd (mem_map.2 ⟨_, hv, rfl⟩) hl.1
    · next h =>
      have hne : k ≠ k' := by simpa using h
      simp only [hne, false_and, false_or]
      exact ih hl.2

theorem mem_keys : k ∈ m.keys ↔ (m.get k).isSome := by
  rw [Option.isSome_iff_exists, keys, mem_map]
  constructor
  · rintro ⟨⟨k', v⟩, he, rfl⟩
    exact ⟨v, get_eq_some.2 he⟩
  · rintro ⟨v, hv⟩
    exact ⟨(k, v), get_eq_some.1 hv, rfl⟩

theorem mem_set {k' : K} {v' : V} :
    (k', v') ∈ (m.set k v).entries ↔
      (k' = k ∧ v' = v) ∨ (k' ≠ k ∧ (k', v') ∈ m.entries) := by
  simp only [set, setEntries]
  split
  · next hk =>
    rw [mem_map]
    constructor
    · rintro ⟨e, he, heq⟩
      split at heq
      · exact .inl ⟨(congrArg Prod.fst heq).symm, (congrArg Prod.snd heq).symm⟩
      · next hne =>
        subst heq
        exact .inr ⟨hne, he⟩
    · rintro (⟨rfl, rfl⟩ | ⟨hne, he⟩)
      · obtain ⟨e, he, rfl⟩ := mem_map.1 hk
        exact ⟨e, he, if_pos rfl⟩
      · exact ⟨_, he, if_neg hne⟩
  · next hk =>
    rw [mem_append, mem_singleton, Prod.mk.injEq]
    constructor
    · rintro (he | he)
      · exact .inr ⟨fun h => hk (mem_map.2 ⟨_, he, h⟩), he⟩
      · exact .inl he
    · rintro (he | ⟨-, he⟩)
      · exact .inr he
      · exact .inl he

theorem mem_delete {e : K × V} : e ∈ (m.delete k).entries ↔ e.1 ≠ k ∧ e ∈ m.entries := by
  simp [delete, and_comm]

theorem get_set (m : OrdMap K V) (k k' : K) (v : V) :
    (m.set k v).get k' = if k' = k then some v else m.get k' := by
  ext v'
  rw [get_eq_some, mem_set]
  split
  · next h => simp [h, eq_comm]
  · next h => simp [h, get_eq_some]

/-- A fold of which some steps set a key to one value, and the others keep it. -/
theorem get_foldl {α : Type*} {step : OrdMap K V → α → OrdMap K V} {P : α → Prop} [DecidablePred P]
    (h : ∀ m a, (step m a).get k = if P a then some v else m.get k) (as : List α) (m : OrdMap K V) :
    (as.foldl step m).get k = if ∃ a ∈ as, P a then some v else m.get k := by
  induction as generalizing m with
  | nil => simp
  | cons a as ih =>
    rw [foldl_cons, ih, h]
    by_cases hrest : ∃ a ∈ as, P a
    · rw [if_pos hrest, if_pos ((exists_mem_cons_iff _ _ _).2 (.inr hrest))]
    · rw [if_neg hrest]
      simp only [exists_mem_cons_iff, hrest, or_false]

theorem get_delete (m : OrdMap K V) (k k' : K) :
    (m.delete k).get k' = if k' = k then none else m.get k' := by
  ext v'
  rw [get_eq_some, mem_delete]
  split
  · next h => simp [h]
  · next h => simp [h, get_eq_some]

@[simp] theorem get_empty (k : K) : (empty : OrdMap K V).get k = none := rfl

/-- A new key comes last. -/
theorem entries_set_of_get (h : m.get k = none) (v : V) :
    (m.set k v).entries = m.entries ++ [(k, v)] := by
  have hk : k ∉ m.entries.map Prod.fst := fun hmem => by
    have := mem_keys.1 hmem
    rw [h] at this
    cases this
  exact if_neg hk

theorem get_filter {p : K × V → Bool} :
    (m.filter p).get k = some v ↔ m.get k = some v ∧ p (k, v) := by
  rw [get_eq_some, get_eq_some]
  exact mem_filter

theorem size_set_of_get (h : m.get k = some v) (v' : V) : (m.set k v').size = m.size := by
  have hk : k ∈ m.entries.map Prod.fst := mem_map_of_mem (get_eq_some.1 h)
  simp [set, setEntries, size, hk]

theorem size_set_le (m : OrdMap K V) (k : K) (v : V) : (m.set k v).size ≤ m.size + 1 := by
  cases h : m.get k with
  | some v' => rw [size_set_of_get h]; omega
  | none => rw [size, entries_set_of_get h, length_append]; exact le_rfl

/-- A map that loses an entry is smaller. -/
theorem size_filter_lt {p : K × V → Bool} (h : m.get k = some v) (hp : ¬ p (k, v)) :
    (m.filter p).size < m.size :=
  length_filter_lt_length_iff_exists.2 ⟨(k, v), get_eq_some.1 h, hp⟩

/-- A deletion undoes what was set before. -/
theorem delete_set (m : OrdMap K V) (k : K) (v : V) : (m.set k v).delete k = m.delete k := by
  refine ext ?_
  simp only [delete, set, setEntries]
  split
  · rw [filter_map]
    have hp : ((fun e : K × V => decide (e.1 ≠ k)) ∘ fun e => if e.1 = k then (k, v) else e) =
        fun e => decide (e.1 ≠ k) := by
      funext e
      simp only [Function.comp_apply]
      split_ifs with he
      · simp [he]
      · rfl
    rw [hp]
    refine (map_congr_left fun e he => ?_).trans (map_id _)
    exact if_neg (by simpa using (mem_filter.1 he).2)
  · simp

/-- There is nothing to delete. -/
theorem delete_of_get (h : m.get k = none) : m.delete k = m := by
  refine ext (filter_eq_self.2 fun e he => ?_)
  have hne : e.1 ≠ k := by
    rintro rfl
    have := get_eq_some.2 he
    rw [h] at this
    cases this
  simpa using hne

/-- A deletion takes one entry. -/
theorem perm_delete (h : m.get k = some v) : m.entries.Perm ((k, v) :: (m.delete k).entries) := by
  have hnodup : ((k, v) :: (m.delete k).entries).Nodup :=
    nodup_cons.2 ⟨fun hmem => (mem_delete.1 hmem).1 rfl, (m.delete k).nodup.of_map⟩
  refine (perm_ext_iff_of_nodup m.nodup.of_map hnodup).2 fun e => ?_
  rw [mem_cons, mem_delete]
  constructor
  · intro he
    by_cases hk : e.1 = k
    · -- The key has one value.
      obtain ⟨k', v'⟩ := e
      cases hk
      cases (get_eq_some.2 he).symm.trans h
      exact .inl rfl
    · exact .inr ⟨hk, he⟩
  · rintro (rfl | ⟨-, he⟩)
    · exact get_eq_some.1 h
    · exact he

/-- A map of writes, taken as a batch, writes each of its keys once. -/
theorem lastWrite_entries (m : OrdMap K (Option V)) (k : K) : lastWrite m.entries k = m.get k := by
  cases hm : m.get k with
  | some v => exact lastWrite_of_mem m.nodup (get_eq_some.1 hm)
  | none =>
    refine lastWrite_eq_none.2 fun op hop hk => ?_
    have := mem_keys.1 (mem_map.2 ⟨op, hop, hk⟩ : k ∈ m.keys)
    rw [hm] at this
    cases this

end OrdMap

end Kv
