import Plainchain.Mempool.Bookkeeping
import Plainchain.Wallet.Spend

/-!
# Fee bumps in the mempool

A bump (`bumpFee`, on the sender's side) is a replacement in the sense of the mempool
(`addTransaction`, on the node's side): it spends the same outpoints, stays valid, and
displaces the original alone. Whether it is admitted is then a matter of its fee.

* `BumpOf`: what a bump changes;
* `BumpOf.valid`: it is valid where the original is;
* `Mempool.Fed`: pools as a node fills them, in which no transaction but the original
  shares an outpoint with the bump, or its id;
* `bump_replaces`: the whole.
-/

namespace Plainchain

open Js Kv Prog List

/-! ## What a bump changes -/

theorem changeOutput_eq_some {ownAddress : Text} {outputs : List TxOutput} {i : ℕ}
    {change : TxOutput} (h : changeOutput ownAddress outputs = some (i, change)) :
    ∃ before after, outputs = before ++ change :: after ∧ i = before.length ∧
      change.address = ownAddress ∧ ∀ o ∈ after, o.address ≠ ownAddress := by
  have hnone : ∀ {outputs : List TxOutput}, changeOutput ownAddress outputs = none →
      ∀ o ∈ outputs, o.address ≠ ownAddress := by
    intro outputs
    induction outputs with
    | nil => simp
    | cons output outputs ih =>
      intro hout
      rw [changeOutput] at hout
      split at hout
      · cases hout
      next hrest =>
      split at hout
      · cases hout
      next hne => exact forall_mem_cons.2 ⟨hne, ih hrest⟩
  induction outputs generalizing i with
  | nil => cases h
  | cons output outputs ih =>
    rw [changeOutput] at h
    split at h
    next j c hc =>
      cases h
      obtain ⟨before, after, rfl, rfl, haddress, hafter⟩ := ih hc
      exact ⟨output :: before, after, rfl, rfl, haddress, hafter⟩
    next hrest =>
      split at h
      next haddress =>
        cases h
        exact ⟨[], outputs, rfl, rfl, haddress, hnone hrest⟩
      next => cases h

/-- The change with `extra` taken out: nothing where nothing is left. -/
def reduced (change : TxOutput) (extra : ℤ) : List TxOutput :=
  if change.amount - extra = 0 then [] else [{ change with amount := change.amount - extra }]

theorem reduceChange_append (before after : List TxOutput) (change : TxOutput) (extra : ℤ) :
    reduceChange (before ++ change :: after) before.length change extra =
      before ++ reduced change extra ++ after := by
  rw [reduceChange, reduced]
  split
  · simp [eraseIdx_append_of_length_le]
  · simp

theorem totalAmount_reduced (change : TxOutput) (extra : ℤ) :
    totalAmount (reduced change extra) = change.amount - extra := by
  rw [reduced]
  split
  next h => exact h.symm
  next => simp [totalAmount]

/-- A bump: the outpoints, the keys and the data are those of the original; the last
    output to the own address is reduced by what the fee grows, or dropped. -/
structure BumpOf (S : SignatureScheme) (keyPair : KeyPair) (original : Transaction) (newFee : ℤ)
    (r : Transaction) : Prop where
  fee : r.fee = newFee
  higher : original.fee < newFee
  data : r.data = original.data
  outpoints : r.inputs.map (fun input => (input.txId, input.outputIndex)) =
    original.inputs.map fun input => (input.txId, input.outputIndex)
  outputs : ∃ before change after, original.outputs = before ++ change :: after ∧
    change.address = deriveAddress keyPair.publicKey ∧
    (∀ o ∈ after, o.address ≠ deriveAddress keyPair.publicKey) ∧
    newFee - original.fee ≤ change.amount ∧
    r.outputs = before ++ reduced change (newFee - original.fee) ++ after
  outputs_ne : r.outputs ≠ []
  id_eq : computeTransactionId r.toUnsignedTransactionBody = r.id
  /-- All inputs have the signature of the wallet, which signs what the bump says. -/
  signed : ∃ signature, S.sign keyPair.privateKey
      (getSigningPayload r.toUnsignedTransactionBody) = some signature ∧
    r.inputs = original.inputs.map fun input => { input with signature }

section Bump

variable {S : SignatureScheme} {keyPair : KeyPair} {original r : Transaction} {newFee : ℤ}
  {timestamp : Number}

theorem bumpFee_bumpOf (h : bumpFee S keyPair original newFee timestamp = .ok r) :
    BumpOf S keyPair original newFee r ∧
      ∀ input ∈ original.inputs, input.publicKey = keyPair.publicKey := by
  obtain ⟨hfee, hkeys, i, change, hchange, hle, hne, hsign⟩ := bumpFee_eq_ok.1 h
  obtain ⟨signature, hsigned, rfl⟩ := signBody_eq_ok.1 hsign
  obtain ⟨before, after, hout, rfl, haddress, hafter⟩ := changeOutput_eq_some hchange
  have hreduced : reduceChange original.outputs before.length change (newFee - original.fee) =
      before ++ reduced change (newFee - original.fee) ++ after := by
    rw [hout, reduceChange_append]
  refine ⟨⟨rfl, hfee, rfl, ?_, ⟨before, change, after, hout, haddress, hafter, hle, hreduced⟩, hne,
    rfl, signature, ?_, ?_⟩, hkeys⟩
  · simp [bumpedBody, UnsignedTransactionBody.identified]
  · -- signatures are no part of what is signed
    rw [← hsigned]
    simp [bumpedBody, UnsignedTransactionBody.identified, getSigningPayload, serializeTail,
      UnsignedTransactionBody.dataPart, Function.comp_def, TxInput.key]
  · simp [bumpedBody, UnsignedTransactionBody.identified]

end Bump

namespace BumpOf

variable {S : SignatureScheme} {keyPair : KeyPair} {original r : Transaction} {newFee : ℤ}

theorem keys_eq (h : BumpOf S keyPair original newFee r) :
    r.inputs.map TxInput.key = original.inputs.map TxInput.key := by
  obtain ⟨signature, -, hinputs⟩ := h.signed
  rw [hinputs, map_map]
  rfl

theorem total (h : BumpOf S keyPair original newFee r) :
    totalAmount r.outputs + r.fee = totalAmount original.outputs + original.fee := by
  obtain ⟨before, change, after, hout, -, -, -, hr⟩ := h.outputs
  have htotal := totalAmount_reduced change (newFee - original.fee)
  rw [hr, hout, h.fee]
  simp only [totalAmount, map_append, sum_append, map_cons, sum_cons] at htotal ⊢
  omega

theorem amount_pos (h : BumpOf S keyPair original newFee r)
    (hpos : ∀ o ∈ original.outputs, 0 < o.amount) : ∀ o ∈ r.outputs, 0 < o.amount := by
  obtain ⟨before, change, after, hout, -, -, hle, hr⟩ := h.outputs
  intro o ho
  simp only [hr, mem_append, reduced] at ho
  rw [hout] at hpos
  rcases ho with (ho | ho) | ho
  · exact hpos o (by simp [ho])
  · split at ho
    · cases ho
    next hne =>
      obtain rfl := mem_singleton.1 ho
      change 0 < change.amount - (newFee - original.fee)
      omega
  · exact hpos o (by simp [ho])

/-- A bump is valid wherever the original is: it takes the same coins under the same
    key, and pays as much in all. -/
theorem valid (h : BumpOf S keyPair original newFee r) (hmatches : S.Matches keyPair)
    (hkeys : ∀ input ∈ original.inputs, input.publicKey = keyPair.publicKey) {u : UtxoSet}
    {spendingHeight : ℕ} (hvalid : ValidTransaction S u original spendingHeight) :
    ValidTransaction S u r spendingHeight := by
  obtain ⟨hstruct, hspends, hcovered⟩ := hvalid
  obtain ⟨signature, hsigned, hinputs⟩ := h.signed
  have hhigher := h.higher
  have hnonneg := hstruct.fee_nonneg
  refine ⟨⟨h.id_eq, h.outputs_ne, h.amount_pos hstruct.amount_pos, by rw [h.fee]; omega,
    ?_, ?_, ?_, ?_⟩, fun input hinput => ?_, fun hne => ?_⟩
  · rw [h.data]; exact hstruct.data_hex
  · rw [h.data]; exact hstruct.data_ne
  · rw [h.data]; exact hstruct.data_length
  · rw [h.keys_eq]; exact hstruct.nodup_inputs
  · rw [hinputs] at hinput
    obtain ⟨input, hmem, rfl⟩ := mem_map.1 hinput
    obtain ⟨entry, hread, hmature, howner, -⟩ := hspends input hmem
    refine ⟨entry, hread, hmature, howner, ?_⟩
    rw [hkeys input hmem]
    exact hmatches _ _ hsigned
  · have hsum : r.inputs.map (fun input => u.amountAt input.key) =
        original.inputs.map fun input => u.amountAt input.key := by
      have := congrArg (List.map u.amountAt) h.keys_eq
      rwa [map_map, map_map] at this
    rw [h.total, hsum]
    refine hcovered fun hnil => hne ?_
    rw [hinputs, hnil, map_nil]

end BumpOf

/-! ## Ids that are not shared -/

/-- The key of an output of a transaction whose id is a digest. -/
def DigestKey (key : Text) : Prop := ∃ txId i, hexOf 64 txId ∧ key = utxoKey txId (.ofNat i)

/-- What a text becomes as bytes, read back: unpaired surrogates are replaced. -/
theorem utf16_scalars_append_cons {c : UInt16} (hc : Scalar c) (a t : Text) :
    utf16 (scalars (a ++ c :: t)) = utf16 (scalars a) ++ c :: utf16 (scalars t) := by
  rw [scalars_append_cons hc.2, utf16_append, scalars_cons hc, utf16, utf16, flatMap_cons,
    unitsOf_char hc]
  rfl

/-- The bytes that are hashed begin with the first outpoint. -/
theorem key_eq_of_scalars_eq {a b : UnsignedTransactionBody} {i j : TxInput} {is js : List TxInput}
    (ha : a.inputs = i :: is) (hb : b.inputs = j :: js) (hi : DigestKey i.key) (hj : DigestKey j.key)
    (h : scalars (serializeTransactionBody a) = scalars (serializeTransactionBody b)) :
    i.key = j.key := by
  have hcut : ∀ {c : UnsignedTransactionBody} {k : TxInput} {ks : List TxInput},
      c.inputs = k :: ks → ∃ rest, serializeTransactionBody c = k.key ++ unit ':' :: rest := by
    intro c k ks hc
    rw [serializeTransactionBody, hc, map_cons, serializeInput]
    cases ks <;> simp [serializeTail]
  obtain ⟨x, hx⟩ := hcut ha
  obtain ⟨y, hy⟩ := hcut hb
  obtain ⟨txId, n, hid, hkey⟩ := hi
  obtain ⟨txId', n', hid', hkey'⟩ := hj
  have hcolon : Scalar (unit ':') := by decide
  have hself : ∀ {t : Text}, (∀ u ∈ t, isHexDigit u) → utf16 (scalars t) = t :=
    fun ht => WellFormed.of_scalars fun u hu => .of_isHexDigit (ht u hu)
  have hdigits : ∀ n, ∀ u ∈ decimal n, isHexDigit u := fun _ _ hu =>
    isHexDigit_of_isDigit (isDigit_of_mem_decimal hu)
  have hno : ∀ {t : Text}, (∀ u ∈ t, isHexDigit u) → unit ':' ∉ t := fun ht hu =>
    absurd (ht _ hu) (by decide)
  have heq := congrArg utf16 h
  rw [hx, hy, hkey, hkey', utxoKey, utxoKey, append_assoc, append_assoc,
    cons_append, cons_append, utf16_scalars_append_cons hcolon,
    utf16_scalars_append_cons hcolon, utf16_scalars_append_cons hcolon,
    utf16_scalars_append_cons hcolon, hself fun _ hu => isHexDigit_of_mem_hexOf hid hu,
    hself fun _ hu => isHexDigit_of_mem_hexOf hid' hu, Number.toText_ofNat, Number.toText_ofNat,
    hself (hdigits n), hself (hdigits n')] at heq
  obtain ⟨rfl, hrest⟩ := append_cons_inj_left (hno fun _ hu => isHexDigit_of_mem_hexOf hid hu)
    (hno fun _ hu => isHexDigit_of_mem_hexOf hid' hu) heq
  obtain ⟨hn, -⟩ := append_cons_inj_left (hno (hdigits n)) (hno (hdigits n')) hrest
  rw [hkey, hkey', decimal_injective hn]

/-- The bytes that are hashed end with the fee, and the data if there is any. -/
theorem fee_eq_of_scalars_eq {a b : UnsignedTransactionBody} (hdata : a.data = b.data)
    (hhex : ∀ d ∈ a.data, hexPairs d)
    (h : scalars (serializeTransactionBody a) = scalars (serializeTransactionBody b)) :
    a.fee = b.fee := by
  have hbar : Scalar (unit '|') := by decide
  have hfee : ∀ z, unit '|' ∉ decimalInt z := fun z hu => by
    rcases mem_decimalInt hu with hu | hu
    · exact absurd hu (by decide)
    · exact absurd hu (by decide)
  have hself : ∀ z, utf16 (scalars (decimalInt z)) = decimalInt z := fun z =>
    WellFormed.of_scalars fun u hu => by
      rcases mem_decimalInt hu with rfl | hu
      · decide
      · exact .of_isHexDigit (isHexDigit_of_isDigit hu)
  have hcut : ∀ c : UnsignedTransactionBody, ∃ x, serializeTransactionBody c =
      join (unit '|') ((x ++ unit '|' :: decimalInt c.fee) :: c.dataPart) := by
    intro c
    refine ⟨join (unit ',') (c.inputs.map serializeInput) ++ unit '|' ::
      (join (unit ',') (c.outputs.map serializeOutput) ++ unit '|' :: c.timestamp.toText), ?_⟩
    cases hc : c.data <;>
      simp [serializeTransactionBody, serializeTail, UnsignedTransactionBody.dataPart, hc]
  obtain ⟨x, hx⟩ := hcut a
  obtain ⟨y, hy⟩ := hcut b
  have heq := congrArg utf16 h
  rw [hx, hy] at heq
  cases hd : a.data with
  | none =>
    simp only [UnsignedTransactionBody.dataPart, ← hdata, hd, join_singleton,
      utf16_scalars_append_cons hbar, hself] at heq
    exact decimalInt_injective (append_cons_inj_right (hfee _) (hfee _) heq).2
  | some d =>
    have hlabel : ∀ u ∈ lit "data:", u.toNat < 124 := by simp [lit, unit]
    have hpart : ∀ u ∈ lit "data:" ++ d, Scalar u ∧ u ≠ unit '|' := by
      intro u hu
      rcases mem_append.1 hu with hu | hu
      · refine ⟨.of_toNat_lt ((hlabel u hu).trans (by decide)), ?_⟩
        rintro rfl
        exact absurd (hlabel _ hu) (by decide)
      · have hdigit := isHexDigit_of_mem_hexPairs (hhex d hd) hu
        refine ⟨.of_isHexDigit hdigit, ?_⟩
        rintro rfl
        exact absurd hdigit (by decide)
    have hwell : utf16 (scalars (lit "data:" ++ d)) = lit "data:" ++ d :=
      WellFormed.of_scalars fun u hu => (hpart u hu).1
    have hno : unit '|' ∉ lit "data:" ++ d := fun hu => (hpart _ hu).2 rfl
    simp only [UnsignedTransactionBody.dataPart, ← hdata, hd, join_cons_cons, join_singleton,
      utf16_scalars_append_cons hbar, hself, hwell] at heq
    exact decimalInt_injective
      (append_cons_inj_right (hfee _) (hfee _) (append_cons_inj_right hno hno heq).1).2

/-! ## The pools of a node -/

/-- The pools that calls lead to where every admission is against a UTXO set: its keys
    are those of outputs. -/
inductive Mempool.Fed (S : SignatureScheme) (policy : MempoolPolicy) : Mempool → Prop
  | empty : Fed S policy .empty
  | add {pool : Mempool} (u : UtxoSet) (hu : ∀ key entry, u.readRaw key = some entry → DigestKey key)
      (tx : Transaction) (spendingHeight : ℕ) : Fed S policy pool →
      Fed S policy ((addTransaction S policy u tx spendingHeight).exec pool).2
  | remove {pool : Mempool} (id : Text) : Fed S policy pool → Fed S policy (pool.remove id)

/-- The texts that the ids of the pending transactions are hashes of. -/
def Mempool.texts (pool : Mempool) : Set Text :=
  {text | ∃ id t, pool.Pending id t ∧ text = serializeTransactionBody t.toUnsignedTransactionBody}

namespace Mempool.Fed

variable {S : SignatureScheme} {policy : MempoolPolicy} {pool : Mempool}

theorem reached (h : Fed S policy pool) : Reached S policy pool := by
  induction h with
  | empty => exact .empty
  | add u _ tx spendingHeight _ ih => exact .add u tx spendingHeight ih
  | remove id _ ih => exact .remove id ih

/-- What is pending was checked when it was admitted. -/
theorem admitted (h : Fed S policy pool) {id : Text} {t : Transaction} (hp : pool.Pending id t) :
    WellStructured t ∧ ∀ input ∈ t.inputs, DigestKey input.key := by
  induction h with
  | empty => cases hp
  | add u hu tx spendingHeight _ ih =>
    rcases addTransaction_pending rfl hp with hp | ⟨-, rfl, -, hvalid⟩
    · exact ih hp
    · obtain ⟨hstruct, hspends, -⟩ := validateTransaction_eq_ok.1 hvalid
      refine ⟨hstruct, fun input hinput => ?_⟩
      obtain ⟨entry, hread, -⟩ := hspends input hinput
      exact hu _ _ hread
  | remove id' _ ih => exact ih (pending_remove.1 hp).2

end Mempool.Fed

section Replace

variable {S : SignatureScheme} {policy : MempoolPolicy} {pool : Mempool} {keyPair : KeyPair}
  {original r : Transaction} {newFee : ℤ}

/-- The bump conflicts with the original and nothing else. -/
theorem BumpOf.conflicts (h : BumpOf S keyPair original newFee r) (hexact : pool.Exact policy)
    (hp : pool.Pending original.id original) :
    (pool.conflicts r).entries = [(original.id, some original)] := by
  have hclaim : ∀ input ∈ r.inputs, pool.claimedOutpoints.get input.key = some original.id := by
    intro input hinput
    have hkey : input.key ∈ original.inputs.map TxInput.key :=
      h.keys_eq ▸ mem_map_of_mem hinput
    obtain ⟨input', hinput', hkey⟩ := mem_map.1 hkey
    exact (hexact.claimed _ _).2 ⟨original, hp, input', hinput', hkey⟩
  have hne : r.inputs ≠ [] := fun hnil => hexact.inputs _ _ hp (by simpa [hnil] using h.keys_eq.symm)
  obtain ⟨first, hfirst⟩ := exists_mem_of_ne_nil _ hne
  refine perm_singleton.1 ((perm_ext_iff_of_nodup (pool.conflicts r).nodup.of_map
    (nodup_singleton _)).2 fun e => ?_)
  obtain ⟨id, found⟩ := e
  rw [← OrdMap.get_eq_some, Mempool.get_conflicts, mem_singleton, Prod.mk.injEq]
  constructor
  · rintro ⟨⟨input, hinput, hid⟩, rfl⟩
    obtain rfl := Option.some.inj ((hclaim input hinput).symm.trans hid)
    exact ⟨rfl, hp⟩
  · rintro ⟨rfl, rfl⟩
    exact ⟨⟨first, hfirst, hclaim first hfirst⟩, hp.symm⟩

/-- No pending transaction has the id of the bump: it would begin with the same outpoint,
    so it would be the original, which pays another fee. -/
theorem BumpOf.fresh (h : BumpOf S keyPair original newFee r) (hfed : Mempool.Fed S policy pool)
    (hp : pool.Pending original.id original)
    (hcollision : NoCollision (insert (serializeTransactionBody r.toUnsignedTransactionBody)
      pool.texts)) : pool.transactions.get r.id = none := by
  have hexact := hfed.reached.exact
  rw [Option.eq_none_iff_forall_ne_some]
  intro t ht
  obtain ⟨hstruct, hkeys⟩ := hfed.admitted ht
  obtain ⟨hstruct₀, hkeys₀⟩ := hfed.admitted hp
  have hscalars : scalars (serializeTransactionBody t.toUnsignedTransactionBody) =
      scalars (serializeTransactionBody r.toUnsignedTransactionBody) := by
    refine scalars_eq_of_utf8_eq (hcollision _ (.inr ⟨_, t, ht, rfl⟩) _ (.inl rfl) ?_)
    exact (hstruct.id_eq.trans (hexact.keyed _ _ ht)).trans h.id_eq.symm
  -- the first outpoint of each
  obtain ⟨i, is, hi⟩ := exists_cons_of_ne_nil (hexact.inputs _ _ ht)
  obtain ⟨j, js, hj⟩ := exists_cons_of_ne_nil (hexact.inputs _ _ hp)
  obtain ⟨signature, -, hinputs⟩ := h.signed
  rw [hj, map_cons] at hinputs
  have hkey : i.key = j.key := key_eq_of_scalars_eq (j := { j with signature }) hi hinputs
    (hkeys i (by simp [hi])) (hkeys₀ j (by simp [hj])) hscalars
  -- it has one claimant
  have hclaim := (hexact.claimed i.key r.id).2 ⟨t, ht, i, by simp [hi], rfl⟩
  have hclaim₀ := (hexact.claimed i.key original.id).2 ⟨original, hp, j, by simp [hj], hkey.symm⟩
  rw [Option.some.inj (hclaim.symm.trans hclaim₀)] at ht
  obtain rfl := Option.some.inj (hp.symm.trans ht)
  have hfee := fee_eq_of_scalars_eq h.data.symm hstruct₀.data_hex hscalars
  have hhigher := h.higher
  rw [h.fee] at hfee
  omega

theorem exec_addTransaction {u : UtxoSet} {tx : Transaction} {spendingHeight : ℕ} {roomy : Mempool}
    (hadm : admissible S policy u pool tx spendingHeight = .ok ())
    (hroom : makeRoom policy ((pool.conflicts tx).keys.foldl Mempool.remove pool) tx = .ok roomy) :
    (addTransaction S policy u tx spendingHeight).exec pool =
      (.ok (pool.conflicts tx).keys, roomy.insert tx) := by
  simp only [addTransaction, exec_bind, exec_reads, exec_lift, exec_writes,
    id_eq, hadm, hroom]
  rfl

/-- The bump is admitted in place of the original if it pays the minimum fee on top. -/
theorem BumpOf.addTransaction_iff (h : BumpOf S keyPair original newFee r)
    (hexact : pool.Exact policy) (hp : pool.Pending original.id original)
    (hfresh : pool.transactions.get r.id = none) (hreplacements : 1 ≤ policy.maxReplacements)
    {u : UtxoSet} {spendingHeight : ℕ} (hvalid : ValidTransaction S u r spendingHeight)
    (hnonneg : 0 ≤ original.fee) :
    (∃ pool', (addTransaction S policy u r spendingHeight).exec pool = (.ok [original.id], pool')) ↔
      original.fee + policy.minFee ≤ newFee := by
  have hentries := h.conflicts hexact hp
  have hkeys : (pool.conflicts r).keys = [original.id] := congrArg (List.map Prod.fst) hentries
  have hsize : (pool.conflicts r).size = 1 := congrArg List.length hentries
  constructor
  · rintro ⟨pool', hexec⟩
    rcases addTransaction_cases hexact with ⟨e, herror⟩ | ⟨hadm, -⟩
    · cases hexec.symm.trans herror
    · have hpays := hadm.pays (by omega)
      have hfees := Mempool.fees_remove hp
      rw [hkeys, h.fee, foldl_cons, foldl_nil] at hpays
      omega
  · intro hle
    have hpays : paysForConflicts policy (pool.conflicts r) r = .ok () := by
      have hdisplaced : Mempool.displacedFees (pool.conflicts r) = .ok (0 + original.fee) := by
        rw [Mempool.displacedFees, OrdMap.values, hentries]
        rfl
      rw [paysForConflicts, hsize, hdisplaced]
      refine seq_eq_ok.2 ⟨refuse_eq_ok.2 (by omega), ?_⟩
      exact refuse_eq_ok.2 (by rw [h.fee]; omega)
    have hadm : admissible S policy u pool r spendingHeight = .ok () := by
      simp only [admissible, seq_eq_ok, refuse_eq_ok]
      refine ⟨by simp [Mempool.has, hfresh], fun hnil => hexact.inputs _ _ hp ?_, ?_, hpays,
        validateTransaction_eq_ok.2 hvalid⟩
      · simpa [hnil] using h.keys_eq.symm
      · rw [h.fee]
        omega
    -- the slot of the original is free
    have hroom : makeRoom policy (pool.remove original.id) r = .ok (pool.remove original.id) := by
      have hremove := Mempool.size_remove hp
      refine if_neg ?_
      rintro ⟨n, hn, hfull⟩
      have hmax := hexact.size n hn
      omega
    have hexec := exec_addTransaction hadm (by rw [hkeys]; exact hroom)
    rw [hkeys] at hexec
    exact ⟨_, hexec⟩

/-- **A fee bump is a replacement.** It spends the same outpoints, carries the same data,
    pays as much in all, and takes what the fee grows by out of the last output to the
    own address; a node that has the original pending admits it in the place of the
    original if the new fee is the old one and the minimum fee at least. -/
theorem bump_replaces {u : UtxoSet} {spendingHeight : ℕ} {timestamp : Number}
    (hmatches : S.Matches keyPair) (hfed : Mempool.Fed S policy pool)
    (hpending : pool.Pending original.id original)
    (hvalid : validateTransaction S u original spendingHeight = .ok ())
    (hreplacements : 1 ≤ policy.maxReplacements)
    (hbump : bumpFee S keyPair original newFee timestamp = .ok r)
    (hcollision : NoCollision (insert (serializeTransactionBody r.toUnsignedTransactionBody)
      pool.texts)) :
    r.inputs.map (fun input => (input.txId, input.outputIndex)) =
      original.inputs.map (fun input => (input.txId, input.outputIndex)) ∧
    r.data = original.data ∧
    totalAmount r.outputs + r.fee = totalAmount original.outputs + original.fee ∧
    (∃ before change after, original.outputs = before ++ change :: after ∧
      change.address = deriveAddress keyPair.publicKey ∧
      (∀ o ∈ after, o.address ≠ deriveAddress keyPair.publicKey) ∧
      r.outputs = before ++ (if change.amount - (newFee - original.fee) = 0 then [] else
        [{ change with amount := change.amount - (newFee - original.fee) }]) ++ after) ∧
    ((∃ pool', (addTransaction S policy u r spendingHeight).exec pool =
        (.ok [original.id], pool')) ↔ original.fee + policy.minFee ≤ newFee) := by
  obtain ⟨h, hkeys⟩ := bumpFee_bumpOf hbump
  obtain ⟨before, change, after, hout, haddress, hafter, -, hr⟩ := h.outputs
  have hvalid := validateTransaction_eq_ok.1 hvalid
  exact ⟨h.outpoints, h.data, h.total, ⟨before, change, after, hout, haddress, hafter, hr⟩,
    h.addTransaction_iff hfed.reached.exact hpending (h.fresh hfed hpending hcollision) hreplacements
      (h.valid hmatches hkeys hvalid) hvalid.structured.fee_nonneg⟩

end Replace

/-! ## A bump of a pending payment -/

/-- A coin of the wallet. -/
def bumpCoins : UtxoSet :=
  let coin : UtxoEntry :=
    { address := deriveAddress walletKey.publicKey, amount := 16, blockHeight := 0, isCoinbase := false }
  .new (Store.empty.batch [(utxoKey ZERO_HASH (.ofNat 0), some coin)]) 0

/-- A payment of `5` for a fee of `1`, with `10` of change. -/
def bumpOriginal : Transaction :=
  UnsignedTransactionBody.identified
    { inputs := [⟨ZERO_HASH, .ofNat 0, [], walletKey.publicKey⟩]
      outputs := [⟨lit "m", 5⟩, ⟨deriveAddress walletKey.publicKey, 10⟩], timestamp := .ofNat 1
      fee := 1, data := none }

def bumpPolicy : MempoolPolicy := { maxSize := some 1, minFee := 1, maxReplacements := 1 }

def bumpPool : Mempool :=
  ((addTransaction anySignatures bumpPolicy bumpCoins bumpOriginal 1).exec .empty).2

/-- The payment for a fee of `2`. -/
def bumped : Transaction :=
  ((bumpFee anySignatures walletKey bumpOriginal 2 (.ofNat 2)).toOption).getD bumpOriginal

theorem reads_bump :
    bumpPool.transactions.entries = [(bumpOriginal.id, bumpOriginal)] ∧
    (validateTransaction anySignatures bumpCoins bumpOriginal 1).toOption = some () ∧
    (bumpFee anySignatures walletKey bumpOriginal 2 (.ofNat 2)).toOption.isSome ∧
    sha256 (serializeTransactionBody bumped.toUnsignedTransactionBody) ≠
      sha256 (serializeTransactionBody bumpOriginal.toUnsignedTransactionBody) := by
  decide +kernel

theorem fed_bumpPool : Mempool.Fed anySignatures bumpPolicy bumpPool := by
  refine .add bumpCoins (fun key entry hread => ?_) bumpOriginal 1 .empty
  rw [bumpCoins, UtxoSet.readRaw_new, Store.get_batch, lastWrite_cons] at hread
  by_cases hkey : utxoKey ZERO_HASH (.ofNat 0) = key
  · exact ⟨ZERO_HASH, 0, by decide, hkey.symm⟩
  · simp [hkey] at hread

/-- The bump replaces the payment in a full pool. -/
theorem bump_replaces_sample :
    bumpFee anySignatures walletKey bumpOriginal 2 (.ofNat 2) = .ok bumped ∧
    ∃ pool', (addTransaction anySignatures bumpPolicy bumpCoins bumped 1).exec bumpPool =
      (.ok [bumpOriginal.id], pool') := by
  obtain ⟨hentries, hvalid, hsome, hdistinct⟩ := reads_bump
  have hbump : bumpFee anySignatures walletKey bumpOriginal 2 (.ofNat 2) = .ok bumped := by
    rw [bumped]
    cases hr : bumpFee anySignatures walletKey bumpOriginal 2 (.ofNat 2) with
    | error e => rw [hr] at hsome; cases hsome
    | ok r => rfl
  have hvalid : validateTransaction anySignatures bumpCoins bumpOriginal 1 = .ok () := by
    cases hv : validateTransaction anySignatures bumpCoins bumpOriginal 1 with
    | error e => rw [hv] at hvalid; cases hvalid
    | ok => rfl
  have hpending : ∀ id t, bumpPool.Pending id t ↔ id = bumpOriginal.id ∧ t = bumpOriginal := by
    intro id t
    rw [Mempool.Pending, OrdMap.get_eq_some, hentries, mem_singleton, Prod.mk.injEq]
  have htexts : insert (serializeTransactionBody bumped.toUnsignedTransactionBody) bumpPool.texts ⊆
      {serializeTransactionBody bumped.toUnsignedTransactionBody,
        serializeTransactionBody bumpOriginal.toUnsignedTransactionBody} := by
    rintro text (rfl | ⟨id, t, hp, rfl⟩)
    · exact .inl rfl
    · rw [((hpending id t).1 hp).2]
      exact .inr rfl
  have hcollision : NoCollision {serializeTransactionBody bumped.toUnsignedTransactionBody,
      serializeTransactionBody bumpOriginal.toUnsignedTransactionBody} :=
    .of_injOn (Set.injOn_pair.2 fun h => absurd h hdistinct)
  exact ⟨hbump, (bump_replaces (fun _ _ _ => rfl) fed_bumpPool ((hpending _ _).2 ⟨rfl, rfl⟩) hvalid
    (by decide) hbump (hcollision.mono htexts)).2.2.2.2.2 (by decide)⟩

end Plainchain
