import Mathlib.Data.List.Nodup

/-!
# Logs of coins

A log is a list of transfers, each of which spends coins by their keys and creates coins
under keys. It is played on a set of coins, a partial function from keys (`Plays`): what a
transfer spends has to be there, and is gone after it.

Where a log creates no key twice (`Fresh`) the coins after it are those that it created
and did not spend (`Plays.get_iff`), and no key is spent twice (`Plays.spent_once`).
-/

namespace Coins

open List

variable {K V : Type*}

/-- The keys that are spent, and the coins that are created. -/
structure Transfer (K V : Type*) where
  spends : List K
  creates : List (K × V)

/-- The keys of the coins that are created. -/
def Transfer.created (t : Transfer K V) : List K := t.creates.map Prod.fst

/-- A transfer, from one set of coins to the next. -/
structure Transfer.Plays (t : Transfer K V) (coins coins' : K → Option V) : Prop where
  there : ∀ k ∈ t.spends, coins k ≠ none
  put : ∀ k v, (k, v) ∈ t.creates → coins' k = some v
  gone : ∀ k ∈ t.spends, k ∉ t.created → coins' k = none
  frame : ∀ k, k ∉ t.spends → k ∉ t.created → coins' k = coins k

/-- Transfers one after the other. -/
def Plays : (K → Option V) → List (Transfer K V) → (K → Option V) → Prop
  | coins, [], coins' => coins = coins'
  | coins, t :: log, coins' => ∃ mid, t.Plays coins mid ∧ Plays mid log coins'

/-- No key is created twice. -/
def Fresh (log : List (Transfer K V)) : Prop := (log.flatMap Transfer.created).Nodup

theorem fresh_append {l l' : List (Transfer K V)} : Fresh (l ++ l') ↔
    Fresh l ∧ Fresh l' ∧ ∀ t ∈ l, ∀ k ∈ t.created, ∀ t' ∈ l', k ∉ t'.created := by
  simp only [Fresh, flatMap_append, nodup_append', disjoint_left, mem_flatMap,
    not_exists, not_and, forall_exists_index, and_imp]
  refine and_congr_right fun _ => and_congr_right fun _ => ?_
  exact ⟨fun h t ht k hk => h t ht hk, fun h k t ht hk => h t ht k hk⟩

theorem Fresh.tail {t : Transfer K V} {log : List (Transfer K V)} (h : Fresh (t :: log)) : Fresh log :=
  ((fresh_append (l := [t])).1 h).2.1

theorem Transfer.mem_created {t : Transfer K V} {k : K} :
    k ∈ t.created ↔ ∃ v, (k, v) ∈ t.creates := by
  simp [created]

section Plays

variable {coins coins' : K → Option V} {log : List (Transfer K V)} {k : K}

theorem plays_append {l l' : List (Transfer K V)} :
    Plays coins (l ++ l') coins' ↔ ∃ mid, Plays coins l mid ∧ Plays mid l' coins' := by
  induction l generalizing coins with
  | nil => simp [Plays]
  | cons t l ih =>
    simp only [cons_append, Plays, ih]
    constructor
    · rintro ⟨a, ha, b, hb, hl'⟩
      exact ⟨b, ⟨a, ha, hb⟩, hl'⟩
    · rintro ⟨b, ⟨a, ha, hb⟩, hl'⟩
      exact ⟨a, ha, b, hb, hl'⟩

/-- A coin was there before, or was created. -/
theorem Plays.created_of_some (h : Plays coins log coins') {v : V} (hk : coins' k = some v) :
    coins k = some v ∨ ∃ t ∈ log, (k, v) ∈ t.creates := by
  induction log generalizing coins with
  | nil =>
    cases h
    exact .inl hk
  | cons t log ih =>
    obtain ⟨mid, ht, h⟩ := h
    rcases ih h with hmid | ⟨t', ht', hmem⟩
    · by_cases hcreated : k ∈ t.created
      · obtain ⟨v', hv'⟩ := Transfer.mem_created.1 hcreated
        rw [ht.put k v' hv', Option.some.injEq] at hmid
        exact .inr ⟨t, mem_cons_self, hmid ▸ hv'⟩
      · by_cases hspent : k ∈ t.spends
        · rw [ht.gone k hspent hcreated] at hmid
          cases hmid
        · rw [ht.frame k hspent hcreated] at hmid
          exact .inl hmid
    · exact .inr ⟨t', mem_cons_of_mem _ ht', hmem⟩

/-- What is not there and is not created is not spent. -/
theorem Plays.not_spent (h : Plays coins log coins') (hnone : coins k = none)
    (hcreated : ∀ t ∈ log, k ∉ t.created) : ∀ t ∈ log, k ∉ t.spends := by
  induction log generalizing coins with
  | nil => simp
  | cons t log ih =>
    obtain ⟨mid, ht, h⟩ := h
    rw [forall_mem_cons] at hcreated ⊢
    have hspent : k ∉ t.spends := fun hmem => ht.there k hmem hnone
    exact ⟨hspent, ih h (by rw [ht.frame k hspent hcreated.1, hnone]) hcreated.2⟩

/-- In the middle of a fresh log, what the rest of it creates is not there yet. -/
theorem Plays.absent {l l' : List (Transfer K V)} (h : Plays coins l coins') (hfresh : Fresh (l ++ l'))
    (habsent : ∀ t ∈ l ++ l', ∀ k ∈ t.created, coins k = none) :
    ∀ t ∈ l', ∀ k ∈ t.created, coins' k = none := by
  intro t ht k hk
  rw [Option.eq_none_iff_forall_not_mem]
  intro v hv
  rcases h.created_of_some hv with hcoins | ⟨t', ht', hmem⟩
  · rw [habsent t (mem_append_right _ ht) k hk] at hcoins
    cases hcoins
  · exact (fresh_append.1 hfresh).2.2 t' ht' k (Transfer.mem_created.2 ⟨v, hmem⟩) t ht hk

theorem Transfer.Plays.absent_cons {t : Transfer K V} {mid : K → Option V} (ht : t.Plays coins mid)
    (hfresh : Fresh (t :: log)) (habsent : ∀ t' ∈ t :: log, ∀ k ∈ t'.created, coins k = none) :
    ∀ t' ∈ log, ∀ k ∈ t'.created, mid k = none :=
  Plays.absent (l := [t]) ⟨mid, ht, rfl⟩ hfresh habsent

/-- The coins after a fresh log are those that were there or were created, and were not
    spent. -/
theorem Plays.get_iff (h : Plays coins log coins') (hfresh : Fresh log)
    (habsent : ∀ t ∈ log, ∀ k ∈ t.created, coins k = none) (v : V) :
    coins' k = some v ↔
      (coins k = some v ∨ ∃ t ∈ log, (k, v) ∈ t.creates) ∧ ∀ t ∈ log, k ∉ t.spends := by
  induction log generalizing coins with
  | nil =>
    cases h
    simp
  | cons t log ih =>
    obtain ⟨mid, ht, h⟩ := h
    rw [ih h hfresh.tail (ht.absent_cons hfresh habsent),
      forall_mem_cons]
    simp only [mem_cons, exists_eq_or_imp]
    by_cases hcreated : k ∈ t.created
    · -- the transfer creates the coin, which was not there and so is not spent by it
      have hnone := habsent t mem_cons_self k hcreated
      have hspent : k ∉ t.spends := fun hmem => ht.there k hmem hnone
      obtain ⟨v', hv'⟩ := Transfer.mem_created.1 hcreated
      have hmid : mid k = some v ↔ (k, v) ∈ t.creates := by
        refine ⟨fun hv => ?_, ht.put k v⟩
        rw [ht.put k v' hv', Option.some.injEq] at hv
        exact hv ▸ hv'
      rw [hmid, hnone]
      simp [hspent]
    · have hnot : (k, v) ∉ t.creates := fun hmem => hcreated (Transfer.mem_created.2 ⟨v, hmem⟩)
      by_cases hspent : k ∈ t.spends
      · -- the transfer spends the coin, and nothing creates it again
        rw [ht.gone k hspent hcreated]
        refine iff_of_false ?_ fun hall => hall.2.1 hspent
        rintro ⟨hv | ⟨t', ht', hmem⟩, -⟩
        · cases hv
        · exact ht.there k hspent (habsent t' (mem_cons_of_mem _ ht') k
            (Transfer.mem_created.2 ⟨v, hmem⟩))
      · rw [ht.frame k hspent hcreated]
        simp [hspent, hnot]

/-- No key is spent by two transfers of a fresh log. -/
theorem Plays.spent_once (h : Plays coins log coins') (hfresh : Fresh log)
    (habsent : ∀ t ∈ log, ∀ k ∈ t.created, coins k = none) :
    log.Pairwise fun t t' => ∀ k ∈ t.spends, k ∉ t'.spends := by
  induction log generalizing coins with
  | nil => exact List.Pairwise.nil
  | cons t log ih =>
    obtain ⟨mid, ht, h⟩ := h
    refine pairwise_cons.2 ⟨fun t' ht' k hk => ?_,
      ih h hfresh.tail (ht.absent_cons hfresh habsent)⟩
    have hcreated : ∀ t' ∈ t :: log, k ∉ t'.created := fun t' ht' hmem =>
      ht.there k hk (habsent t' ht' k hmem)
    rw [forall_mem_cons] at hcreated
    exact h.not_spent (ht.gone k hk hcreated.1) hcreated.2 t' ht'

end Plays

end Coins
