import Plainchain.Mempool

/-!
# The books of the mempool

The mempool has two maps: the pending transactions, and for each outpoint the one
that claims it. Admissions and removals edit both.

* `Exact`: the claims are those of the pending transactions, and the pool keeps to its
  policy;
* `Reached.exact`: this holds after any calls;
* `addTransaction_spec`: what an admission to such a pool does.
-/

namespace Plainchain

open Js Kv Prog List

variable {id : Text} {tx : Transaction} {roomy : Mempool}

namespace Mempool

/-- A transaction spends the outpoint with a text. -/
def Spends (tx : Transaction) (outpoint : Text) : Prop := ∃ input ∈ tx.inputs, input.key = outpoint

/-- The pool is as its policy wants it, and a claim stands for a pending transaction
    that spends the outpoint. -/
structure Exact (policy : MempoolPolicy) (pool : Mempool) : Prop where
  keyed : ∀ id tx, pool.Pending id tx → tx.id = id
  claimed : ∀ outpoint id, pool.claimedOutpoints.get outpoint = some id ↔
    ∃ tx, pool.Pending id tx ∧ Spends tx outpoint
  inputs : ∀ id tx, pool.Pending id tx → tx.inputs ≠ []
  fee : ∀ id tx, pool.Pending id tx → policy.minFee ≤ tx.fee
  size : ∀ n ∈ policy.maxSize, pool.transactions.size ≤ n

/-! ## Edits of the claims -/

section Claims

variable {claimed : OrdMap Text Text} {outpoint : Text}

theorem get_release (claimed : OrdMap Text Text) (tx : Transaction) (outpoint : Text) (id : Text) :
    (release claimed tx).get outpoint = some id ↔
      claimed.get outpoint = some id ∧ ¬(Spends tx outpoint ∧ id = tx.id) := by
  unfold release Spends
  generalize tx.inputs = inputs
  induction inputs generalizing claimed with
  | nil => simp
  | cons input inputs ih =>
    rw [foldl_cons, ih]
    simp only [exists_mem_cons_iff]
    split
    · next h =>
      rw [OrdMap.get_delete]
      by_cases hkey : outpoint = input.key
      · subst hkey
        rw [if_pos rfl, h]
        simp [eq_comm]
      · rw [if_neg hkey]
        simp [Ne.symm hkey]
    · next h =>
      -- The claim is of another transaction, and stays.
      refine and_congr_right fun hget => not_congr (and_congr_left fun hid => ?_)
      rw [or_iff_right]
      rintro rfl
      exact h (hid ▸ hget)

theorem get_claim (claimed : OrdMap Text Text) (inputs : List TxInput) (id : Text) (outpoint : Text) :
    (inputs.foldl (fun claimed input => claimed.set input.key id) claimed).get outpoint =
      if ∃ input ∈ inputs, input.key = outpoint then some id else claimed.get outpoint := by
  induction inputs generalizing claimed with
  | nil => simp
  | cons input inputs ih =>
    rw [foldl_cons, ih, OrdMap.get_set]
    simp only [exists_mem_cons_iff]
    by_cases hrest : ∃ input ∈ inputs, input.key = outpoint
    · rw [if_pos hrest, if_pos (.inr hrest)]
    · rw [if_neg hrest]
      by_cases hkey : outpoint = input.key
      · rw [if_pos hkey, if_pos (.inl hkey.symm)]
      · rw [if_neg hkey, if_neg]
        rintro (h | h)
        · exact hkey h.symm
        · exact hrest h

end Claims

/-! ## Removals -/

section Remove

variable {policy : MempoolPolicy} {pool : Mempool}

theorem size_remove (h : pool.Pending id tx) :
    (pool.remove id).transactions.size + 1 = pool.transactions.size := by
  rw [remove, h]
  exact (OrdMap.perm_delete h).length_eq.symm

theorem remove_of_not_pending (h : pool.transactions.get id = none) : pool.remove id = pool := by
  rw [remove, h]

theorem Exact.remove (h : Exact policy pool) (id : Text) : Exact policy (pool.remove id) := by
  cases hp : pool.transactions.get id with
  | none => rwa [remove_of_not_pending hp]
  | some tx =>
    refine ⟨fun id' tx' h' => h.keyed _ _ (pending_remove.1 h').2, fun outpoint id' => ?_,
      fun id' tx' h' => h.inputs _ _ (pending_remove.1 h').2,
      fun id' tx' h' => h.fee _ _ (pending_remove.1 h').2, fun n hn => ?_⟩
    · have hclaims : (pool.remove id).claimedOutpoints = release pool.claimedOutpoints { tx with id } := by
        rw [Mempool.remove, hp]
      rw [hclaims, get_release, h.claimed]
      simp only [pending_remove]
      constructor
      · rintro ⟨⟨tx', hp', hspends⟩, hnot⟩
        refine ⟨tx', ⟨?_, hp'⟩, hspends⟩
        rintro rfl
        cases hp.symm.trans hp'
        exact hnot ⟨hspends, rfl⟩
      · rintro ⟨tx', ⟨hne, hp'⟩, hspends⟩
        exact ⟨⟨tx', hp', hspends⟩, fun hid => hne hid.2⟩
    · have hsize := size_remove hp
      have hle := h.size n hn
      omega

theorem Exact.removeAll (h : Exact policy pool) (ids : List Text) :
    Exact policy (ids.foldl Mempool.remove pool) := by
  induction ids generalizing pool with
  | nil => exact h
  | cons id ids ih => exact ih (h.remove id)

end Remove

/-! ## Admissions -/

section Admit

variable {policy : MempoolPolicy} {pool pool' : Mempool} {tx : Transaction}

theorem get_conflicts (pool : Mempool) (tx : Transaction) (id : Text) (found : Option Transaction) :
    (pool.conflicts tx).get id = some found ↔
      (∃ input ∈ tx.inputs, pool.claimedOutpoints.get input.key = some id) ∧
        found = pool.transactions.get id := by
  have hget : (pool.conflicts tx).get id =
      if ∃ input ∈ tx.inputs, pool.claimedOutpoints.get input.key = some id then
        some (pool.transactions.get id) else (.empty : OrdMap Text (Option Transaction)).get id := by
    refine OrdMap.get_foldl (fun found input => ?_) tx.inputs .empty
    cases hclaim : pool.claimedOutpoints.get input.key with
    | none => simp
    | some claimant =>
      dsimp only
      rw [OrdMap.get_set]
      by_cases hid : id = claimant
      · rw [hid, if_pos rfl, if_pos rfl]
      · rw [if_neg hid, if_neg fun h => hid (Option.some.inj h).symm]
  rw [hget, OrdMap.get_empty]
  split
  · next h => rw [and_iff_right h, Option.some.injEq, eq_comm]
  · next h => simp [h]

/-- In an exact pool, conflicts are the pending transactions that spend an outpoint of
    the new one. -/
theorem Exact.mem_conflicts (h : Exact policy pool) :
    id ∈ (pool.conflicts tx).keys ↔
      ∃ t, pool.Pending id t ∧ ∃ input ∈ tx.inputs, Spends t input.key := by
  rw [OrdMap.mem_keys, Option.isSome_iff_exists]
  simp only [get_conflicts, exists_and_left, exists_eq, and_true, h.claimed]
  constructor
  · rintro ⟨input, hinput, t, hp, hspends⟩
    exact ⟨t, hp, input, hinput, hspends⟩
  · rintro ⟨t, hp, input, hinput, hspends⟩
    exact ⟨input, hinput, t, hp, hspends⟩

/-- Once the conflicts are removed, nothing claims what the new transaction spends. -/
theorem Exact.unclaimed (h : Exact policy pool) {input : TxInput} (hinput : input ∈ tx.inputs) :
    ((pool.conflicts tx).keys.foldl Mempool.remove pool).claimedOutpoints.get input.key = none := by
  rw [Option.eq_none_iff_forall_ne_some]
  intro id hclaim
  obtain ⟨t, hp, hspends⟩ := ((h.removeAll _).claimed _ _).1 hclaim
  obtain ⟨hnot, hp⟩ := pending_removeAll.1 hp
  exact hnot (h.mem_conflicts.2 ⟨t, hp, input, hinput, hspends⟩)

/-- The transaction has the lowest fee of a list; only an empty list has none. -/
def LowestOf (seen : List Transaction) : Option Transaction → Prop
  | none => seen = []
  | some low => low ∈ seen ∧ ∀ t ∈ seen, low.fee ≤ t.fee

theorem LowestOf.next {seen : List Transaction} {lowest : Option Transaction} (t : Transaction) :
    LowestOf seen lowest → LowestOf (seen ++ [t]) (match lowest with
      | none => some t
      | some low => if t.fee < low.fee then some t else lowest) := by
  intro h
  cases lowest with
  | none =>
    have hseen : seen = [] := h
    simp [LowestOf, hseen]
  | some low =>
    obtain ⟨hmem, hle⟩ := h
    dsimp only
    split
    · next hlt =>
      refine ⟨by simp, fun t' ht' => ?_⟩
      rcases mem_append.1 ht' with ht' | ht'
      · exact hlt.le.trans (hle t' ht')
      · rw [mem_singleton.1 ht']
    · next hge =>
      refine ⟨by simp [hmem], fun t' ht' => ?_⟩
      rcases mem_append.1 ht' with ht' | ht'
      · exact hle t' ht'
      · rw [mem_singleton.1 ht']
        exact not_lt.1 hge

theorem lowestOf_lowestFeeTransaction (pool : Mempool) :
    LowestOf pool.getTransactions pool.lowestFeeTransaction := by
  have hfold : ∀ (l seen : List Transaction) (lowest : Option Transaction), LowestOf seen lowest →
      LowestOf (seen ++ l) (l.foldl (fun lowest tx =>
        match lowest with
        | none => some tx
        | some low => if tx.fee < low.fee then some tx else lowest) lowest) := by
    intro l
    induction l with
    | nil =>
      intro seen lowest h
      rwa [append_nil]
    | cons t l ih =>
      intro seen lowest h
      rw [List.append_cons, foldl_cons]
      exact ih (seen ++ [t]) _ (LowestOf.next t h)
  exact hfold pool.getTransactions [] none rfl

/-- A full pool gives up a transaction of the lowest fee, which is below that of the
    new one. -/
theorem makeRoom_spec (h : Exact policy pool) (hroom : makeRoom policy pool tx = .ok pool') :
    (∀ n ∈ policy.maxSize, pool'.transactions.size + 1 ≤ n) ∧
      ((pool' = pool ∧ ¬∃ n ∈ policy.maxSize, n ≤ pool.transactions.size) ∨
        (∃ n ∈ policy.maxSize, n ≤ pool.transactions.size) ∧
          ∃ low, pool.Pending low.id low ∧ (∀ t ∈ pool.getTransactions, low.fee ≤ t.fee) ∧
            low.fee < tx.fee ∧ pool' = pool.remove low.id) := by
  unfold makeRoom at hroom
  dsimp only at hroom
  split at hroom
  · next hfull =>
    have hlow := lowestOf_lowestFeeTransaction pool
    split at hroom
    · cases hroom
    · next low heq =>
      rw [heq] at hlow
      split at hroom
      · cases hroom
      · next hlt =>
        cases hroom
        obtain ⟨id, hp⟩ := mem_getTransactions.1 hlow.1
        cases h.keyed _ _ hp
        refine ⟨fun n hn => ?_, .inr ⟨hfull, low, hp, hlow.2, not_le.1 hlt, rfl⟩⟩
        rw [size_remove hp]
        exact h.size n hn
  · next hroomy =>
    cases hroom
    refine ⟨fun n hn => ?_, .inl ⟨rfl, hroomy⟩⟩
    exact not_le.1 fun hle => hroomy ⟨n, hn, hle⟩

theorem Exact.insert (h : Exact policy pool) (hnew : pool.transactions.get tx.id = none)
    (hunclaimed : ∀ input ∈ tx.inputs, pool.claimedOutpoints.get input.key = none)
    (hinputs : tx.inputs ≠ []) (hfee : policy.minFee ≤ tx.fee)
    (hsize : ∀ n ∈ policy.maxSize, pool.transactions.size + 1 ≤ n) :
    Exact policy (pool.insert tx) := by
  refine ⟨fun id t hp => ?_, fun outpoint id => ?_, fun id t hp => ?_, fun id t hp => ?_, fun n hn => ?_⟩
  · rcases pending_insert.1 hp with ⟨rfl, rfl⟩ | ⟨-, hp⟩
    · rfl
    · exact h.keyed _ _ hp
  · change (tx.inputs.foldl (fun claimed input => claimed.set input.key tx.id)
      pool.claimedOutpoints).get outpoint = some id ↔ _
    rw [get_claim]
    simp only [pending_insert]
    split
    · next hspends =>
      obtain ⟨input, hinput, hkey⟩ := hspends
      constructor
      · rintro ⟨⟩
        exact ⟨tx, .inl ⟨rfl, rfl⟩, input, hinput, hkey⟩
      · rintro ⟨t, ⟨rfl, rfl⟩ | ⟨-, hp⟩, hspends⟩
        · rfl
        · -- No pending transaction spends what the new one does.
          have hclaim := (h.claimed outpoint id).2 ⟨t, hp, hspends⟩
          rw [← hkey, hunclaimed input hinput] at hclaim
          cases hclaim
    · next hnot =>
      rw [h.claimed]
      constructor
      · rintro ⟨t, hp, hspends⟩
        refine ⟨t, .inr ⟨?_, hp⟩, hspends⟩
        rintro rfl
        cases hnew.symm.trans hp
      · rintro ⟨t, ⟨rfl, rfl⟩ | ⟨-, hp⟩, hspends⟩
        · exact absurd hspends hnot
        · exact ⟨t, hp, hspends⟩
  · rcases pending_insert.1 hp with ⟨rfl, rfl⟩ | ⟨-, hp⟩
    · exact hinputs
    · exact h.inputs _ _ hp
  · rcases pending_insert.1 hp with ⟨rfl, rfl⟩ | ⟨-, hp⟩
    · exact hfee
    · exact h.fee _ _ hp
  · have hlength := congrArg List.length (OrdMap.entries_set_of_get hnew tx)
    rw [length_append] at hlength
    exact hlength.le.trans (hsize n hn)

end Admit

/-! ## Sizes and fees -/

/-- The sum of the pending fees. -/
def fees (pool : Mempool) : ℤ := (pool.getTransactions.map (·.fee)).sum

section Fees

variable {pool : Mempool} {tx : Transaction}

theorem fees_remove (h : pool.Pending id tx) : (pool.remove id).fees + tx.fee = pool.fees := by
  have hsum := ((OrdMap.perm_delete h).map fun e => e.2.fee).sum_eq
  rw [map_cons, sum_cons] at hsum
  rw [remove, h]
  simp only [fees, getTransactions, OrdMap.values, map_map]
  rw [add_comm]
  exact hsum.symm

theorem fees_insert (h : pool.transactions.get tx.id = none) :
    (pool.insert tx).fees = pool.fees + tx.fee := by
  simp only [fees, getTransactions, OrdMap.values, insert, OrdMap.entries_set_of_get h,
    map_append, sum_append, map_cons, map_nil, sum_cons, sum_nil, add_zero]

/-- Distinct pending transactions are removed: the pool has so many less, and the fees
    that are summed up before. -/
theorem removeAll_spec (displaced : List (Text × Option Transaction)) :
    ∀ {pool : Mempool}, (displaced.map Prod.fst).Nodup →
      (∀ e ∈ displaced, ∃ t, e.2 = some t ∧ pool.Pending e.1 t) →
      ((displaced.map Prod.fst).foldl remove pool).transactions.size + displaced.length =
          pool.transactions.size ∧
        ∀ start : ℤ, (displaced.map Prod.snd).foldlM (fun fees found =>
            match found with
            | some tx => Except.ok (fees + tx.fee)
            | none => .error (Objection.thrown (lit "Cannot read properties of undefined (reading 'fee')")))
            start =
          .ok (start + (pool.fees - ((displaced.map Prod.fst).foldl remove pool).fees)) := by
  induction displaced with
  | nil =>
    intro pool _ _
    refine ⟨rfl, fun start => ?_⟩
    change Except.ok start = Except.ok (start + (pool.fees - pool.fees))
    rw [sub_self, add_zero]
  | cons e displaced ih =>
    intro pool hnodup hpending
    rw [map_cons, nodup_cons] at hnodup
    obtain ⟨t, het, hp⟩ := hpending e mem_cons_self
    -- The others are still pending after the first one is removed.
    have hrest : ∀ e' ∈ displaced, ∃ t, e'.2 = some t ∧ (pool.remove e.1).Pending e'.1 t := by
      intro e' he'
      obtain ⟨t', het', hp'⟩ := hpending e' (mem_cons_of_mem _ he')
      refine ⟨t', het', pending_remove.2 ⟨?_, hp'⟩⟩
      intro heq
      exact hnodup.1 (heq ▸ mem_map_of_mem he')
    obtain ⟨hsize, hfees⟩ := ih hnodup.2 hrest
    have hsize₁ := size_remove hp
    have hfees₁ := fees_remove hp
    rw [map_cons, map_cons, foldl_cons, length_cons]
    refine ⟨by omega, fun start => ?_⟩
    rw [foldlM_cons, het]
    refine (hfees (start + t.fee)).trans (congrArg Except.ok ?_)
    omega

end Fees

end Mempool

section Admitted

variable {S : SignatureScheme} {policy : MempoolPolicy} {u : UtxoSet} {pool pool' : Mempool}
  {tx : Transaction} {spendingHeight : ℕ}

theorem Mempool.Exact.conflicts_pending (h : pool.Exact policy) :
    ∀ e ∈ (pool.conflicts tx).entries, ∃ t, e.2 = some t ∧ pool.Pending e.1 t := by
  rintro ⟨id, found⟩ he
  obtain ⟨-, hfound⟩ := (Mempool.get_conflicts pool tx id found).1 (OrdMap.get_eq_some.2 he)
  obtain ⟨t, hp, -⟩ := h.mem_conflicts.1 (mem_map.2 ⟨_, he, rfl⟩ : id ∈ (pool.conflicts tx).keys)
  exact ⟨t, hfound.trans hp, hp⟩

/-- What is admitted, before the conflicts are removed. -/
structure Admissible (S : SignatureScheme) (policy : MempoolPolicy) (u : UtxoSet) (pool : Mempool)
    (tx : Transaction) (spendingHeight : ℕ) : Prop where
  fresh : pool.transactions.get tx.id = none
  inputs : tx.inputs ≠ []
  fee : policy.minFee ≤ tx.fee
  replaces : (pool.conflicts tx).size ≤ policy.maxReplacements
  /-- It pays for what it replaces. -/
  pays : (pool.conflicts tx).size ≠ 0 →
    pool.fees - ((pool.conflicts tx).keys.foldl Mempool.remove pool).fees + policy.minFee ≤ tx.fee
  valid : validateTransaction S u tx spendingHeight = .ok ()

theorem Mempool.Exact.admissible (h : pool.Exact policy)
    (hok : admissible S policy u pool tx spendingHeight = .ok ()) :
    Admissible S policy u pool tx spendingHeight := by
  simp only [Plainchain.admissible, seq_eq_ok, refuse_eq_ok] at hok
  obtain ⟨hfresh, hinputs, hfee, hpays, hvalid⟩ := hok
  rw [paysForConflicts, seq_eq_ok, refuse_eq_ok] at hpays
  obtain ⟨hreplaces, hpays⟩ := hpays
  refine ⟨?_, hinputs, not_lt.1 hfee, not_lt.1 hreplaces, fun hne => ?_, hvalid⟩
  · rw [Mempool.has, Bool.not_eq_true, Option.isSome_eq_false_iff, Option.isNone_iff_eq_none] at hfresh
    exact hfresh
  · obtain ⟨-, hfees⟩ := Mempool.removeAll_spec (pool.conflicts tx).entries (pool.conflicts tx).nodup
      h.conflicts_pending
    have hdisplaced : Mempool.displacedFees (pool.conflicts tx) =
        .ok (0 + (pool.fees - ((pool.conflicts tx).keys.foldl Mempool.remove pool).fees)) := hfees 0
    rw [if_neg hne, hdisplaced, zero_add] at hpays
    exact not_lt.1 (refuse_eq_ok.1 hpays)

/-- An admission that is refused changes nothing. One that is not removes the conflicts,
    makes room and adds the transaction. -/
theorem addTransaction_cases (h : pool.Exact policy) :
    (∃ e, (addTransaction S policy u tx spendingHeight).exec pool = (.error e, pool)) ∨
      Admissible S policy u pool tx spendingHeight ∧
        ∃ roomy, makeRoom policy ((pool.conflicts tx).keys.foldl Mempool.remove pool) tx = .ok roomy ∧
          (addTransaction S policy u tx spendingHeight).exec pool =
            (.ok (pool.conflicts tx).keys, roomy.insert tx) := by
  simp only [addTransaction, exec_bind, exec_reads, exec_lift, exec_writes, id_eq]
  cases hadm : Plainchain.admissible S policy u pool tx spendingHeight with
  | error e => exact .inl ⟨e, rfl⟩
  | ok v =>
    dsimp only
    cases hroom : makeRoom policy ((pool.conflicts tx).keys.foldl Mempool.remove pool) tx with
    | ok roomy => exact .inr ⟨h.admissible hadm, roomy, rfl, rfl⟩
    | error e =>
      refine .inl ⟨e, ?_⟩
      -- The pool is full, so nothing was removed.
      have hfull : ∃ n ∈ policy.maxSize,
          n ≤ ((pool.conflicts tx).keys.foldl Mempool.remove pool).transactions.size := by
        by_contra hnot
        rw [makeRoom, if_neg hnot] at hroom
        cases hroom
      obtain ⟨n, hn, hle⟩ := hfull
      obtain ⟨hsize, -⟩ := Mempool.removeAll_spec (pool.conflicts tx).entries (pool.conflicts tx).nodup
        h.conflicts_pending
      have hmax := h.size n hn
      have hnone : (pool.conflicts tx).entries = [] := by
        refine eq_nil_of_length_eq_zero ?_
        change ((pool.conflicts tx).keys.foldl Mempool.remove pool).transactions.size + _ = _ at hsize
        omega
      rw [OrdMap.keys, hnone]
      rfl

theorem Admissible.get_roomy (hadm : Admissible S policy u pool tx spendingHeight)
    (hroom : makeRoom policy ((pool.conflicts tx).keys.foldl Mempool.remove pool) tx = .ok roomy) :
    roomy.transactions.get tx.id = none := by
  rw [Option.eq_none_iff_forall_ne_some]
  intro t hp
  have hpending := (Mempool.pending_removeAll.1 (makeRoom_pending hroom hp)).2
  cases hadm.fresh.symm.trans hpending

theorem Mempool.Exact.addTransaction (h : pool.Exact policy) :
    ((Plainchain.addTransaction S policy u tx spendingHeight).exec pool).2.Exact policy := by
  rcases addTransaction_cases h with ⟨e, hexec⟩ | ⟨hadm, roomy, hroom, hexec⟩
  · rwa [hexec]
  · rw [hexec]
    have hremoved := h.removeAll (pool.conflicts tx).keys
    obtain ⟨hsize, hcases⟩ := Mempool.makeRoom_spec hremoved hroom
    have hroomy : roomy.Exact policy := by
      rcases hcases with ⟨rfl, -⟩ | ⟨-, low, -, -, -, rfl⟩
      · exact hremoved
      · exact hremoved.remove low.id
    refine hroomy.insert (hadm.get_roomy hroom) (fun input hinput => ?_) hadm.inputs hadm.fee hsize
    -- Making room takes claims away and adds none.
    have hunclaimed := h.unclaimed hinput
    rw [Option.eq_none_iff_forall_ne_some]
    intro id hclaim
    obtain ⟨t, hp, hspends⟩ := (hroomy.claimed _ _).1 hclaim
    have hclaim' := (hremoved.claimed _ _).2 ⟨t, makeRoom_pending hroom hp, hspends⟩
    cases hunclaimed.symm.trans hclaim'

end Admitted

/-! ## Any sequence of calls -/

/-- The pools that calls lead to, from an empty one. Each admission is against a UTXO
    set of its own. -/
inductive Mempool.Reached (S : SignatureScheme) (policy : MempoolPolicy) : Mempool → Prop
  | empty : Reached S policy .empty
  | add {pool : Mempool} (u : UtxoSet) (tx : Transaction) (spendingHeight : ℕ) :
      Reached S policy pool →
      Reached S policy ((addTransaction S policy u tx spendingHeight).exec pool).2
  | remove {pool : Mempool} (id : Text) : Reached S policy pool → Reached S policy (pool.remove id)

section Reached

variable {S : SignatureScheme} {policy : MempoolPolicy} {pool : Mempool}

theorem Mempool.exact_empty (policy : MempoolPolicy) : Mempool.empty.Exact policy := by
  have hnone : ∀ id tx, ¬Mempool.empty.Pending id tx := fun id tx h => by cases h
  refine ⟨fun id tx h => absurd h (hnone id tx), fun outpoint id => ?_,
    fun id tx h => absurd h (hnone id tx), fun id tx h => absurd h (hnone id tx), fun n _ => n.zero_le⟩
  constructor
  · intro h
    cases h
  · rintro ⟨tx, h, -⟩
    exact absurd h (hnone id tx)

theorem Mempool.Reached.exact (h : Reached S policy pool) : pool.Exact policy := by
  induction h with
  | empty => exact exact_empty policy
  | add _ _ _ _ ih => exact ih.addTransaction
  | remove id _ ih => exact ih.remove id

/-- After any calls, an outpoint is claimed by the pending transaction that spends it
    and by no other, pending transactions have inputs and pay the minimum fee, and there
    are at most as many as the pool holds. -/
theorem mempool_bookkeeping (h : Mempool.Reached S policy pool) :
    (∀ outpoint id, pool.claimedOutpoints.get outpoint = some id ↔
      ∃ tx, pool.Pending id tx ∧ ∃ input ∈ tx.inputs, input.key = outpoint) ∧
    (∀ id id' tx tx', pool.Pending id tx → pool.Pending id' tx' →
      ∀ input ∈ tx.inputs, ∀ input' ∈ tx'.inputs, input.key = input'.key → id = id') ∧
    (∀ id tx, pool.Pending id tx → tx.id = id ∧ tx.inputs ≠ [] ∧ policy.minFee ≤ tx.fee) ∧
    (∀ n ∈ policy.maxSize, pool.transactions.size ≤ n) ∧
    ∀ txId outputIndex, pool.isClaimed txId outputIndex = true ↔
      ∃ id tx, pool.Pending id tx ∧ ∃ input ∈ tx.inputs, input.key = utxoKey txId outputIndex := by
  have he := h.exact
  refine ⟨he.claimed, fun id id' tx tx' hp hp' input hi input' hi' hkey => ?_,
    fun id tx hp => ⟨he.keyed _ _ hp, he.inputs _ _ hp, he.fee _ _ hp⟩, he.size,
    fun txId outputIndex => ?_⟩
  · -- The outpoint has one claimant.
    have hclaim := (he.claimed input.key id).2 ⟨tx, hp, input, hi, rfl⟩
    have hclaim' := (he.claimed input.key id').2 ⟨tx', hp', input', hi', hkey.symm⟩
    exact Option.some.inj (hclaim.symm.trans hclaim')
  · rw [Mempool.isClaimed, Option.isSome_iff_exists]
    exact exists_congr fun id => he.claimed _ id

/-! ## What an admission does -/

/-- There is no room for another transaction. -/
def MempoolPolicy.Full (policy : MempoolPolicy) (pool : Mempool) : Prop :=
  ∃ n ∈ policy.maxSize, n ≤ pool.transactions.size

/-- A transaction was pending and is not any more. -/
def Mempool.Removed (pool pool' : Mempool) (id : Text) : Prop :=
  (∃ t, pool.Pending id t) ∧ ¬∃ t, pool'.Pending id t

theorem removed_insert {pool : Mempool} (hnew : pool.transactions.get tx.id = none) :
    pool.Removed (roomy.insert tx) id ↔ pool.Removed roomy id := by
  refine and_congr_right fun ⟨t, hp⟩ => not_congr (exists_congr fun t' => ?_)
  have hne : id ≠ tx.id := by
    rintro rfl
    cases hnew.symm.trans hp
  rw [Mempool.pending_insert]
  simp [hne]

theorem removed_removeAll {pool : Mempool} {ids : List Text}
    (hpending : ∀ id ∈ ids, ∃ t, pool.Pending id t) :
    pool.Removed (ids.foldl Mempool.remove pool) id ↔ id ∈ ids := by
  simp only [Mempool.Removed, Mempool.pending_removeAll, exists_and_left, not_and]
  constructor
  · rintro ⟨hp, hnot⟩
    by_contra hid
    exact hnot hid hp
  · exact fun hid => ⟨hpending id hid, fun hnot => absurd hid hnot⟩

/-- What is removed is what was replaced, or a transaction of the lowest fee. -/
theorem Admissible.removed {u : UtxoSet} {spendingHeight : ℕ} (h : pool.Exact policy)
    (hadm : Admissible S policy u pool tx spendingHeight)
    (hroom : makeRoom policy ((pool.conflicts tx).keys.foldl Mempool.remove pool) tx = .ok roomy) :
    ((pool.conflicts tx).keys ≠ [] →
      roomy = (pool.conflicts tx).keys.foldl Mempool.remove pool ∧
        ∀ id, pool.Removed (roomy.insert tx) id ↔ id ∈ (pool.conflicts tx).keys) ∧
    ((pool.conflicts tx).keys = [] → policy.Full pool →
      ∃ low, pool.Pending low.id low ∧ (∀ t ∈ pool.getTransactions, low.fee ≤ t.fee) ∧
        low.fee < tx.fee ∧ roomy = pool.remove low.id ∧
          ∀ id, pool.Removed (roomy.insert tx) id ↔ id = low.id) ∧
    ((pool.conflicts tx).keys = [] → ¬policy.Full pool →
      roomy = pool ∧ ∀ id, ¬pool.Removed (roomy.insert tx) id) := by
  simp only [removed_insert hadm.fresh]
  have hremoved := h.removeAll (pool.conflicts tx).keys
  obtain ⟨-, hcases⟩ := Mempool.makeRoom_spec hremoved hroom
  refine ⟨fun hne => ?_, fun hnil hfull => ?_, fun hnil hnot => ?_⟩
  · -- The conflicts leave room.
    obtain ⟨hsize, -⟩ := Mempool.removeAll_spec (pool.conflicts tx).entries (pool.conflicts tx).nodup
      h.conflicts_pending
    change ((pool.conflicts tx).keys.foldl Mempool.remove pool).transactions.size + _ = _ at hsize
    have hpos : 0 < (pool.conflicts tx).entries.length :=
      length_pos_iff.2 fun hnil => hne (congrArg (List.map Prod.fst) hnil)
    rcases hcases with ⟨rfl, -⟩ | ⟨⟨n, hn, hle⟩, -⟩
    · refine ⟨rfl, fun id => removed_removeAll fun id hid => ?_⟩
      obtain ⟨t, hp, -⟩ := h.mem_conflicts.1 hid
      exact ⟨t, hp⟩
    · have hmax := h.size n hn
      omega
  · rw [hnil] at hcases
    rcases hcases with ⟨-, hnot⟩ | ⟨-, low, hp, hlowest, hlt, rfl⟩
    · exact absurd hfull hnot
    · refine ⟨low, hp, hlowest, hlt, rfl, fun id => ?_⟩
      rw [← mem_singleton]
      change pool.Removed ([low.id].foldl Mempool.remove pool) id ↔ _
      refine removed_removeAll fun id hid => ?_
      rw [mem_singleton.1 hid]
      exact ⟨low, hp⟩
  · rw [hnil] at hcases
    rcases hcases with ⟨rfl, -⟩ | ⟨hfull, -⟩
    · exact ⟨rfl, fun id hid => hid.2 hid.1⟩
    · exact absurd hfull hnot

/-- An admission to a pool with a positive minimum fee that is refused leaves the pool
    as it was. One that is not raises the sum of the pending fees, by the minimum fee
    at least where transactions were replaced. It removes what it says it replaced, or
    one transaction of the lowest fee where nothing was replaced and the pool was full,
    and it replaces no more than the policy allows. -/
theorem addTransaction_pays (hminFee : 1 ≤ policy.minFee) (hreached : Mempool.Reached S policy pool)
    (u : UtxoSet) (tx : Transaction) (spendingHeight : ℕ) :
    match (addTransaction S policy u tx spendingHeight).exec pool with
    | (.error _, pool') => pool' = pool
    | (.ok replaced, pool') =>
      pool.fees < pool'.fees ∧
      (replaced ≠ [] → pool.fees + policy.minFee ≤ pool'.fees ∧
        ∀ id, pool.Removed pool' id ↔ id ∈ replaced) ∧
      (replaced = [] → policy.Full pool → ∃ low, pool.Pending low.id low ∧
        (∀ t ∈ pool.getTransactions, low.fee ≤ t.fee) ∧ ∀ id, pool.Removed pool' id ↔ id = low.id) ∧
      (replaced = [] → ¬policy.Full pool → ∀ id, ¬pool.Removed pool' id) ∧
      replaced.Nodup ∧ replaced.length ≤ policy.maxReplacements := by
  have h := hreached.exact
  rcases addTransaction_cases h with ⟨e, hexec⟩ | ⟨hadm, roomy, hroom, hexec⟩
  · rw [hexec]
  rw [hexec]
  obtain ⟨hreplaced, hevicted, hplain⟩ := hadm.removed h hroom
  have hfees := Mempool.fees_insert (hadm.get_roomy hroom)
  have hfee := hadm.fee
  have hlength : (pool.conflicts tx).keys.length = (pool.conflicts tx).size := length_map _
  -- In each of the three cases the fee is above what was removed.
  have hpays : (pool.conflicts tx).keys ≠ [] → pool.fees + policy.minFee ≤ (roomy.insert tx).fees := by
    intro hne
    have hpays := hadm.pays fun hzero => hne (eq_nil_of_length_eq_zero (hlength.trans hzero))
    rw [← (hreplaced hne).1] at hpays
    omega
  refine ⟨?_, fun hne => ⟨hpays hne, (hreplaced hne).2⟩, fun hnil hfull => ?_, fun hnil hnot =>
    (hplain hnil hnot).2, (pool.conflicts tx).nodup, hlength.le.trans hadm.replaces⟩
  · by_cases hne : (pool.conflicts tx).keys = []
    · by_cases hfull : policy.Full pool
      · obtain ⟨low, hp, -, hlt, rfl, -⟩ := hevicted hne hfull
        have hremove := Mempool.fees_remove hp
        omega
      · rw [(hplain hne hfull).1] at hfees
        rw [(hplain hne hfull).1]
        omega
    · have := hpays hne
      omega
  · obtain ⟨low, hp, hlowest, -, -, hremoved⟩ := hevicted hnil hfull
    exact ⟨low, hp, hlowest, hremoved⟩

end Reached

/-! ## A pool for one transaction -/

/-- Two coins of the key `k`. -/
def bidCoins : UtxoSet :=
  let coin : UtxoEntry :=
    { address := deriveAddress (lit "k"), amount := 50, blockHeight := 0, isCoinbase := false }
  .new (Store.empty.batch [(utxoKey (lit "t") (.ofNat 0), some coin),
    (utxoKey (lit "t") (.ofNat 1), some coin)]) 0

/-- A spend of one of them. -/
def bid (index : ℕ) (fee : ℤ) : Transaction :=
  UnsignedTransactionBody.identified
    { inputs := [⟨lit "t", .ofNat index, lit "", lit "k"⟩], outputs := [⟨lit "a", 50 - fee⟩],
      timestamp := .ofNat 1, fee, data := none }

/-- One transaction is held, and none is replaced. -/
def bidPolicy : MempoolPolicy := { maxSize := some 1, minFee := 1, maxReplacements := 0 }

/-- The pool after a first spend. -/
def bidPool : Mempool :=
  ((addTransaction anySignatures bidPolicy bidCoins (bid 0 1) 1).exec .empty).2

theorem reached_bidPool : Mempool.Reached anySignatures bidPolicy bidPool := .add _ _ _ .empty

/-- What an admission answers, as far as it is accepted. -/
def accepted (policy : MempoolPolicy) (tx : Transaction) (pool : Mempool) : Option (List Text) :=
  ((addTransaction anySignatures policy bidCoins tx 1).exec pool).1.toOption

/-- The outpoint is claimed by the one transaction. -/
theorem mempool_bookkeeping_bid :
    bidPool.claimedOutpoints.get (utxoKey (lit "t") (.ofNat 0)) = some (bid 0 1).id ∧
    ∃ tx, bidPool.Pending (bid 0 1).id tx ∧ ∃ input ∈ tx.inputs, input.key = utxoKey (lit "t") (.ofNat 0) := by
  have hclaim : bidPool.claimedOutpoints.get (utxoKey (lit "t") (.ofNat 0)) = some (bid 0 1).id := by
    decide +kernel
  exact ⟨hclaim, ((mempool_bookkeeping reached_bidPool).1 _ _).1 hclaim⟩

/-- A spend of the other coin for a higher fee is accepted. -/
theorem addTransaction_pays_bid : accepted bidPolicy (bid 1 2) bidPool = some [] ∧
    bidPool.fees < ((addTransaction anySignatures bidPolicy bidCoins (bid 1 2) 1).exec bidPool).2.fees := by
  have haccepted : accepted bidPolicy (bid 1 2) bidPool = some [] := by decide +kernel
  have hpays := addTransaction_pays (by decide) reached_bidPool bidCoins (bid 1 2) 1
  refine ⟨haccepted, ?_⟩
  rw [accepted] at haccepted
  generalize (addTransaction anySignatures bidPolicy bidCoins (bid 1 2) 1).exec bidPool = outcome
    at haccepted hpays
  obtain ⟨_ | replaced, pool'⟩ := outcome
  · cases haccepted
  · exact hpays.1

/-- It evicts the first one, whatever number may be replaced. -/
theorem addTransaction_evicts : Mempool.Reached anySignatures bidPolicy bidPool ∧
    bidPolicy.maxReplacements = 0 ∧ accepted bidPolicy (bid 1 2) bidPool = some [] ∧
    bidPool.Removed ((addTransaction anySignatures bidPolicy bidCoins (bid 1 2) 1).exec bidPool).2
      (bid 0 1).id := by
  have hreads : accepted bidPolicy (bid 1 2) bidPool = some [] ∧
      bidPool.transactions.get (bid 0 1).id = some (bid 0 1) ∧
      ((addTransaction anySignatures bidPolicy bidCoins (bid 1 2) 1).exec bidPool).2.transactions.get
        (bid 0 1).id = none := by decide +kernel
  obtain ⟨haccepted, hbefore, hafter⟩ := hreads
  refine ⟨reached_bidPool, rfl, haccepted, ⟨_, hbefore⟩, ?_⟩
  rintro ⟨t, hp⟩
  cases hafter.symm.trans hp

end Plainchain
