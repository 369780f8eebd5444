import Plainchain.Lib.Store

/-!
# Indexes made of pages

A store that indexes a sequence of pages holds the entries of some of them, and
nothing else (`Holds`). That is, what it holds is of those pages (`Within`), and what
is on those pages it holds (`Covers`). Where a page has a key more than once, its last
entry counts (`onPage`). Pages are put and deleted as a whole, and the relations
follow (`Paging`).

A window of the last `d` pages, or of all of them for `d = 0`, slides by one page
at a time: the page that is left behind goes and the one ahead comes
(`Paging.slide_up`), or the other way round (`Paging.slide_down`).
-/

namespace Kv

open List

variable {K V : Type}

/-- The writes that put the entries of a page. -/
def putAll (page : List (K × V)) : List (K × Option V) := page.map fun e => (e.1, some e.2)

/-- The writes that delete the entries of a page. -/
def deleteAll (page : List (K × V)) : List (K × Option V) := page.map fun e => (e.1, none)

/-- The writes that delete keys. -/
def deleteKeys (keys : List K) : List (K × Option V) := keys.map fun k => (k, none)

/-- A key is on one page only. -/
def Paged (pages : ℕ → List (K × V)) : Prop :=
  ∀ i j, ∀ e ∈ pages i, ∀ e' ∈ pages j, e.1 = e'.1 → i = j

/-- A key is on one page, and there once. -/
structure PagedOnce (pages : ℕ → List (K × V)) : Prop where
  nodup : ∀ i, ((pages i).map Prod.fst).Nodup
  paged : Paged pages

/-- The heights from the floor of a window of `d` pages to its top `t`. -/
def Window (d t i : ℕ) : Prop := i ≤ t ∧ (d = 0 ∨ t < i + d)

variable [DecidableEq K]

/-- What a page has under a key: its last entry there. -/
def onPage (page : List (K × V)) (k : K) : Option V := (Store.empty.batch (putAll page)).get k

/-- The store holds the entries of the pages of `W`, and nothing else. -/
def Holds (pages : ℕ → List (K × V)) (s : Store K V) (W : ℕ → Prop) : Prop :=
  ∀ k v, s.get k = some v ↔ ∃ i, W i ∧ onPage (pages i) k = some v

/-- What the store holds are entries of the pages of `W`. -/
def Within (pages : ℕ → List (K × V)) (s : Store K V) (W : ℕ → Prop) : Prop :=
  ∀ k v, s.get k = some v → ∃ i, W i ∧ onPage (pages i) k = some v

/-- The entries of the pages of `W` are in the store. -/
def Covers (pages : ℕ → List (K × V)) (s : Store K V) (W : ℕ → Prop) : Prop :=
  ∀ i, W i → ∀ k v, onPage (pages i) k = some v → s.get k = some v

variable {pages : ℕ → List (K × V)} {W : ℕ → Prop}

theorem holds_iff {s : Store K V} : Holds pages s W ↔ Within pages s W ∧ Covers pages s W :=
  ⟨fun h => ⟨fun k v => (h k v).1, fun i hi k v he => (h k v).2 ⟨i, hi, he⟩⟩,
    fun h k v => ⟨h.1 k v, fun ⟨i, hi, he⟩ => h.2 i hi k v he⟩⟩

section Write

variable {s : Store K V} {page : List (K × V)} {k : K} {v : V}

theorem lastWrite_putAll (page : List (K × V)) (k : K) :
    lastWrite (putAll page) k = (onPage page k).map some := by
  rw [onPage, Store.get_batch, Store.get_empty]
  cases hlast : lastWrite (putAll page) k with
  | none => rfl
  | some w =>
    obtain ⟨e, -, heq⟩ := mem_map.1 (mem_of_lastWrite hlast)
    cases heq
    rfl

/-- What is put hides what was there. -/
theorem get_batch_putAll (s : Store K V) (page : List (K × V)) (k : K) :
    (s.batch (putAll page)).get k = (onPage page k).or (s.get k) := by
  rw [Store.get_batch, lastWrite_putAll]
  cases onPage page k <;> rfl

theorem mem_of_onPage (h : onPage page k = some v) : (k, v) ∈ page := by
  have hlast : lastWrite (putAll page) k = some (some v) := by rw [lastWrite_putAll, h]; rfl
  obtain ⟨e, he, heq⟩ := mem_map.1 (mem_of_lastWrite hlast)
  cases heq
  exact he

theorem onPage_eq_none : onPage page k = none ↔ k ∉ page.map Prod.fst := by
  rw [← Option.map_eq_none_iff, ← lastWrite_putAll, lastWrite_eq_none, putAll, forall_mem_map]
  exact ⟨fun h hk => (mem_map.1 hk).elim fun e he => h e he.1 he.2,
    fun h e he hk => h (mem_map.2 ⟨e, he, hk⟩)⟩

theorem mem_keys_of_onPage (h : onPage page k = some v) : k ∈ page.map Prod.fst :=
  mem_map.2 ⟨_, mem_of_onPage h, rfl⟩

/-- Where the keys are distinct, all entries of a page count. -/
theorem onPage_eq_some (hnodup : (page.map Prod.fst).Nodup) :
    onPage page k = some v ↔ (k, v) ∈ page := by
  refine ⟨mem_of_onPage, fun h => ?_⟩
  have hkeys : ((putAll page).map Prod.fst).Nodup := by rwa [putAll, map_map]
  have hlast := lastWrite_of_mem hkeys (mem_map.2 ⟨(k, v), h, rfl⟩)
  rw [lastWrite_putAll] at hlast
  cases hpage : onPage page k <;> simp_all

theorem PagedOnce.holds_iff_mem (hp : PagedOnce pages) :
    Holds pages s W ↔ ∀ k v, s.get k = some v ↔ ∃ i, W i ∧ (k, v) ∈ pages i := by
  simp only [Holds, onPage_eq_some (hp.nodup _)]

theorem Paged.eq_of_onPage (hp : Paged pages) {i j : ℕ} {v' : V} (h : onPage (pages i) k = some v)
    (h' : onPage (pages j) k = some v') : i = j :=
  hp i j _ (mem_of_onPage h) _ (mem_of_onPage h') rfl

theorem get_batch_deleteKeys (s : Store K V) (keys : List K) (k : K) :
    (s.batch (deleteKeys keys)).get k = if k ∈ keys then none else s.get k := by
  rw [Store.get_batch, deleteKeys, lastWrite_map]
  split <;> rfl

theorem get_batch_deleteAll (s : Store K V) (page : List (K × V)) (k : K) :
    (s.batch (deleteAll page)).get k = if k ∈ page.map Prod.fst then none else s.get k := by
  rw [← get_batch_deleteKeys, deleteKeys, map_map]
  rfl

theorem Within.deleteKeys (h : Within pages s W) (keys : List K) :
    Within pages (s.batch (deleteKeys keys)) W := by
  intro k v hget
  rw [get_batch_deleteKeys] at hget
  split at hget
  · cases hget
  · exact h k v hget

/-- Other pages are out of reach of what is put. -/
theorem Paged.get_batch_putAll (hp : Paged pages) (s : Store K V) {heights : List ℕ} {i : ℕ}
    (hi : i ∉ heights) (he : onPage (pages i) k = some v) :
    (s.batch (putAll (heights.flatMap pages))).get k = s.get k := by
  rw [Kv.get_batch_putAll, onPage_eq_none.2, Option.none_or]
  intro hmem
  obtain ⟨e', he', heq⟩ := mem_map.1 hmem
  obtain ⟨j, hj, he'⟩ := mem_flatMap.1 he'
  exact hi (hp i j _ (mem_of_onPage he) e' he' heq.symm ▸ hj)

end Write

/-- A relation between pages, a store and the pages that it is to have, which
    follows the puts and the deletions of pages. -/
structure Paging (R : (ℕ → List (K × V)) → Store K V → (ℕ → Prop) → Prop) : Prop where
  put : ∀ {pages s W}, Paged pages → R pages s W → ∀ i,
    R pages (s.batch (putAll (pages i))) fun j => W j ∨ j = i
  delete : ∀ {pages s W}, Paged pages → R pages s W → ∀ i,
    R pages (s.batch (deleteAll (pages i))) fun j => W j ∧ j ≠ i
  congr : ∀ {pages pages' s W W'}, R pages s W → (∀ i, W' i ↔ W i) →
    (∀ i, W i → pages' i = pages i) → R pages' s W'

theorem paging_holds : Paging (Holds : (ℕ → List (K × V)) → Store K V → (ℕ → Prop) → Prop) where
  put := by
    intro pages s W hp h i k v
    rw [get_batch_putAll]
    cases hk : onPage (pages i) k with
    | some v' =>
      rw [Option.some_or]
      constructor
      · rintro ⟨⟩
        exact ⟨i, .inr rfl, hk⟩
      · rintro ⟨j, -, hj⟩
        cases hp.eq_of_onPage hk hj
        rw [← hk, hj]
    | none =>
      rw [Option.none_or, h k v]
      refine exists_congr fun j => and_congr_left fun hj => (or_iff_left ?_).symm
      rintro rfl
      cases hk.symm.trans hj
  delete := by
    intro pages s W hp h i k v
    rw [get_batch_deleteAll]
    split
    · next hk =>
      obtain ⟨e, he, rfl⟩ := mem_map.1 hk
      refine iff_of_false (by simp) ?_
      rintro ⟨j, ⟨-, hne⟩, hj⟩
      exact hne (hp i j e he _ (mem_of_onPage hj) rfl).symm
    · next hk =>
      rw [h k v]
      refine exists_congr fun j => and_congr_left fun hj => (and_iff_left ?_).symm
      rintro rfl
      exact hk (mem_keys_of_onPage hj)
  congr := by
    intro pages pages' s W W' h hW hpages k v
    rw [h k v]
    refine exists_congr fun i => ?_
    rw [hW i]
    exact and_congr_right fun hi => by rw [hpages i hi]

theorem paging_within : Paging (Within : (ℕ → List (K × V)) → Store K V → (ℕ → Prop) → Prop) where
  put := by
    intro pages s W hp h i k v hget
    rw [get_batch_putAll] at hget
    cases hk : onPage (pages i) k with
    | some v' =>
      rw [hk, Option.some_or] at hget
      exact ⟨i, .inr rfl, hk.trans hget⟩
    | none =>
      rw [hk, Option.none_or] at hget
      obtain ⟨j, hj, hmem⟩ := h k v hget
      exact ⟨j, .inl hj, hmem⟩
  delete := by
    intro pages s W hp h i k v hget
    rw [get_batch_deleteAll] at hget
    split at hget
    · cases hget
    · next hk =>
      obtain ⟨j, hj, hmem⟩ := h k v hget
      refine ⟨j, ⟨hj, ?_⟩, hmem⟩
      rintro rfl
      exact hk (mem_keys_of_onPage hmem)
  congr := by
    intro pages pages' s W W' h hW hpages k v hget
    obtain ⟨i, hi, hmem⟩ := h k v hget
    exact ⟨i, (hW i).2 hi, by rwa [hpages i hi]⟩

namespace Paging

variable {R : (ℕ → List (K × V)) → Store K V → (ℕ → Prop) → Prop} (hR : Paging R)
  {pages : ℕ → List (K × V)} {s : Store K V} {d t : ℕ}

include hR

/-- Several pages are put. -/
theorem puts (hp : Paged pages) (h : R pages s W) (heights : List ℕ) :
    R pages (s.batch (putAll (heights.flatMap pages))) fun j => W j ∨ j ∈ heights := by
  induction heights generalizing s W with
  | nil => exact hR.congr h (fun i => by simp) fun _ _ => rfl
  | cons i heights ih =>
    rw [flatMap_cons, putAll, map_append, Store.batch_append]
    refine hR.congr (ih (hR.put hp h i)) (fun j => ?_) fun _ _ => rfl
    rw [mem_cons, or_assoc]

/-- The window goes down by one page: its top goes, and the page below it comes
    back, if there is one. -/
theorem slide_down (hp : Paged pages) (h : R pages s (Window d (t + 1))) :
    R pages (s.batch (deleteAll (pages (t + 1)) ++
      if 0 < d ∧ d ≤ t + 1 then putAll (pages (t + 1 - d)) else [])) (Window d t) := by
  rw [Store.batch_append]
  have hdel := hR.delete hp h (t + 1)
  split
  · refine hR.congr (hR.put hp hdel (t + 1 - d)) (fun i => ?_) fun _ _ => rfl
    simp only [Window]
    omega
  · refine hR.congr hdel (fun i => ?_) fun _ _ => rfl
    simp only [Window]
    omega

/-- The window goes up by one page: the next page comes, and the one that falls
    out of it goes, if there is one. -/
theorem slide_up (hp : Paged pages) (h : R pages s (Window d t)) :
    R pages (s.batch (putAll (pages (t + 1)) ++
      if 0 < d ∧ d ≤ t + 1 then deleteAll (pages (t + 1 - d)) else [])) (Window d (t + 1)) := by
  rw [Store.batch_append]
  have hput := hR.put hp h (t + 1)
  split
  · refine hR.congr (hR.delete hp hput (t + 1 - d)) (fun i => ?_) fun _ _ => rfl
    simp only [Window]
    omega
  · refine hR.congr hput (fun i => ?_) fun _ _ => rfl
    simp only [Window]
    omega

end Paging

end Kv
