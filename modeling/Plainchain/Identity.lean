import Plainchain.Network.WireShapes

/-!
# What a transaction id commits to

The id is the hash of the fields of a transaction, joined by delimiters, and the
signing payload is joined in the same way. Everything but the outputs can be
read back from the text: the inputs are hex, and the timestamp, the fee and the
data stand at its end (`bodyText_inj`).

An address is any text, however. One that contains `:n,` for an amount `n` reads
like the end of an output and the beginning of the next (`Plain` excludes it),
and one with an unpaired surrogate hashes like the one with `U+FFFD` in its
place. Without these, an output list is determined by its text
(`outputsText_inj`), and every other list has the text of one without
(`exists_readable`): so the transactions with readable addresses are those whose
id determines them among the readable ones (`id_determines_iff`).
-/

namespace Plainchain

open Js List

/-- An address in which nothing reads like the end of an output. -/
def Plain (address : Text) : Prop :=
  ∀ (a b : Text) (n : ℕ), 0 < n → address ≠ a ++ unit ':' :: (decimal n ++ unit ',' :: b)

/-- An address without a colon, such as one in hex, is plain. -/
theorem Plain.of_not_mem {address : Text} (h : unit ':' ∉ address) : Plain address := by
  rintro a b n - rfl
  exact h (by simp)

/-- The outputs of a transaction as they are hashed and signed. -/
def outputsText (outputs : List TxOutput) : Text := join (unit ',') (outputs.map serializeOutput)

/-- What follows the amount of an output: nothing, or a comma and the others. -/
def outputsRest : List TxOutput → Text
  | [] => []
  | outputs => unit ',' :: outputsText outputs

theorem outputsText_cons (o : TxOutput) (os : List TxOutput) :
    outputsText (o :: os) = o.address ++ unit ':' :: (decimalInt o.amount ++ outputsRest os) := by
  cases os with
  | nil => simp [outputsText, outputsRest, serializeOutput]
  | cons o' os => simp [outputsText, outputsRest, serializeOutput]

theorem outputsRest_cases (os : List TxOutput) :
    outputsRest os = [] ∨ ∃ t, outputsRest os = unit ',' :: t := by
  cases os with
  | nil => exact .inl rfl
  | cons o os => exact .inr ⟨_, rfl⟩

theorem not_mem_decimal {c : UInt16} (hc : isDigit c = false) (n : ℕ) : c ∉ decimal n := by
  intro h
  rw [isDigit_of_mem_decimal h] at hc
  cases hc

theorem exists_decimal {z : ℤ} (hz : 0 < z) : ∃ n : ℕ, 0 < n ∧ decimalInt z = decimal n := by
  obtain ⟨n, rfl⟩ := Int.eq_ofNat_of_zero_le hz.le
  exact ⟨n, by omega, rfl⟩

/-! ## Reading outputs back -/

/-- Digits are read up to a comma or to the end. -/
theorem decimal_append_inj {m n : ℕ} {r r' : Text} (hr : r = [] ∨ ∃ t, r = unit ',' :: t)
    (hr' : r' = [] ∨ ∃ t, r' = unit ',' :: t) (h : decimal m ++ r = decimal n ++ r') :
    m = n ∧ r = r' := by
  have hcomma : ∀ k, unit ',' ∉ decimal k := not_mem_decimal (by decide)
  rcases hr with rfl | ⟨t, rfl⟩ <;> rcases hr' with rfl | ⟨t', rfl⟩
  · simp only [append_nil] at h
    exact ⟨decimal_injective h, rfl⟩
  · rw [append_nil] at h
    exact absurd (h ▸ by simp : unit ',' ∈ decimal m) (hcomma m)
  · rw [append_nil] at h
    exact absurd (h ▸ by simp : unit ',' ∈ decimal n) (hcomma n)
  · obtain ⟨hmn, rfl⟩ := append_cons_inj_left (hcomma m) (hcomma n) h
    exact ⟨decimal_injective hmn, rfl⟩

/-- A plain address does not reach beyond the end of the first output. -/
theorem Plain.length_le {a a' y r : Text} {n : ℕ} (ha' : Plain a') (hn : 0 < n)
    (hr : r = [] ∨ ∃ t, r = unit ',' :: t)
    (h : a ++ unit ':' :: (decimal n ++ r) = a' ++ unit ':' :: y) : a'.length ≤ a.length := by
  rcases append_eq_append_iff.1 h with ⟨e, rfl, he⟩ | ⟨e, rfl, -⟩
  · cases e with
    | nil => simp
    | cons c w =>
      -- The address goes on after `a` and a colon: with the digits of the
      -- amount, and what ends them.
      obtain ⟨rfl, hw⟩ := List.cons.inj he
      exfalso
      have hcolon : unit ':' ∉ decimal n := not_mem_decimal (by decide) n
      rcases append_eq_append_iff.1 hw with ⟨e', rfl, he'⟩ | ⟨e', hdec, he'⟩
      · rcases hr with rfl | ⟨t, rfl⟩
        · simp at he'
        · cases e' with
          | nil => exact absurd (List.cons.inj he').1 (by decide)
          | cons c v =>
            obtain ⟨rfl, -⟩ := List.cons.inj he'
            exact ha' a v n hn rfl
      · cases e' with
        | nil =>
          rcases hr with rfl | ⟨t, rfl⟩
          · simp at he'
          · exact absurd (List.cons.inj he').1 (by decide)
        | cons c v =>
          obtain ⟨rfl, -⟩ := List.cons.inj he'
          exact hcolon (hdec ▸ by simp)
  · simp

/-- Outputs with plain addresses are determined by their text. -/
theorem outputsText_inj {os os' : List TxOutput}
    (hos : ∀ o ∈ os, Plain o.address ∧ 0 < o.amount)
    (hos' : ∀ o ∈ os', Plain o.address ∧ 0 < o.amount)
    (h : outputsText os = outputsText os') : os = os' := by
  have hne : ∀ (o : TxOutput) (os : List TxOutput), outputsText (o :: os) ≠ [] := by
    simp [outputsText_cons]
  induction os generalizing os' with
  | nil =>
    cases os' with
    | nil => rfl
    | cons o' os' => exact absurd h.symm (hne _ _)
  | cons o os ih =>
    cases os' with
    | nil => exact absurd h (hne _ _)
    | cons o' os' =>
      rw [forall_mem_cons] at hos hos'
      obtain ⟨⟨hplain, hpos⟩, hos⟩ := hos
      obtain ⟨⟨hplain', hpos'⟩, hos'⟩ := hos'
      obtain ⟨n, hn, hdec⟩ := exists_decimal hpos
      obtain ⟨n', hn', hdec'⟩ := exists_decimal hpos'
      rw [outputsText_cons, outputsText_cons, hdec, hdec'] at h
      have hlen : o.address.length = o'.address.length :=
        le_antisymm (hplain.length_le hn' (outputsRest_cases _) h.symm)
          (hplain'.length_le hn (outputsRest_cases _) h)
      obtain ⟨haddr, htail⟩ := append_inj h hlen
      obtain ⟨rfl, hrest⟩ := decimal_append_inj (outputsRest_cases _) (outputsRest_cases _)
        (List.cons.inj htail).2
      have hamount : o.amount = o'.amount := decimalInt_injective (hdec.trans hdec'.symm)
      have hos : os = os' := by
        cases os with
        | nil =>
          cases os' with
          | nil => rfl
          | cons _ _ => simp [outputsRest] at hrest
        | cons _ _ =>
          cases os' with
          | nil => simp [outputsRest] at hrest
          | cons _ _ => exact ih hos hos' (List.cons.inj hrest).2
      rw [hos]
      cases o
      cases o'
      simp_all

/-! ## Readable outputs with a given text -/

theorem outputsText_append {os os' : List TxOutput} (h : os ≠ []) (h' : os' ≠ []) :
    outputsText (os ++ os') = outputsText os ++ unit ',' :: outputsText os' := by
  rw [outputsText, map_append, join_append (by simpa using h) (by simpa using h')]
  rfl

/-- Cutting an address where it reads like the end of an output gives outputs
    with plain addresses and the same text. -/
theorem exists_plain (address : Text) (amount : ℤ) (hpos : 0 < amount) :
    ∃ os ≠ [], outputsText os = outputsText [⟨address, amount⟩] ∧
      (∀ o ∈ os, Plain o.address ∧ 0 < o.amount) ∧
      (WellFormed address → ∀ o ∈ os, WellFormed o.address) := by
  -- On the length of the address: both sides of a cut are shorter.
  induction hlen : address.length using Nat.strong_induction_on generalizing address amount with
  | _ len ih =>
    by_cases hplain : Plain address
    · exact ⟨[⟨address, amount⟩], cons_ne_nil _ _, rfl, by simpa using ⟨hplain, hpos⟩, by simp⟩
    · unfold Plain at hplain
      push Not at hplain
      obtain ⟨a, b, n, hn, rfl⟩ := hplain
      simp only [length_append, length_cons] at hlen
      obtain ⟨os, hne, htext, hos, hwf⟩ := ih a.length (by omega) a n (by omega) rfl
      obtain ⟨os', hne', htext', hos', hwf'⟩ := ih b.length (by omega) b amount hpos rfl
      refine ⟨os ++ os', by simp [hne], ?_, ?_, fun hw o ho => ?_⟩
      · rw [outputsText_append hne hne', htext, htext']
        simp [outputsText, serializeOutput, decimalInt_natCast]
      · intro o ho
        exact (mem_append.1 ho).elim (hos o) (hos' o)
      · -- The cuts are at characters of their own, so no pair is torn.
        obtain ⟨ha, hrest⟩ := hw.of_append_cons (by decide)
        obtain ⟨-, hb⟩ := hrest.of_append_cons (by decide)
        exact (mem_append.1 ho).elim (hwf ha o) (hwf' hb o)

/-- Every list of outputs has the text of one with plain addresses. -/
theorem exists_plain_outputs {os : List TxOutput} (hne : os ≠ []) (hpos : ∀ o ∈ os, 0 < o.amount) :
    ∃ os' ≠ [], outputsText os' = outputsText os ∧
      (∀ o ∈ os', Plain o.address ∧ 0 < o.amount) ∧
      ((∀ o ∈ os, WellFormed o.address) → ∀ o ∈ os', WellFormed o.address) := by
  induction os with
  | nil => exact absurd rfl hne
  | cons o os ih =>
    rw [forall_mem_cons] at hpos
    obtain ⟨os₁, hne₁, htext₁, hos₁, hwf₁⟩ := exists_plain o.address o.amount hpos.1
    by_cases hos : os = []
    · subst hos
      exact ⟨os₁, hne₁, htext₁, hos₁, fun hw => hwf₁ (hw o (by simp))⟩
    · obtain ⟨os₂, hne₂, htext₂, hos₂, hwf₂⟩ := ih hos hpos.2
      refine ⟨os₁ ++ os₂, by simp [hne₁], ?_, ?_, fun hw o' ho' => ?_⟩
      · rw [outputsText_append hne₁ hne₂, htext₁, htext₂,
          ← outputsText_append (cons_ne_nil _ _) hos, singleton_append]
      · intro o' ho'
        exact (mem_append.1 ho').elim (hos₁ o') (hos₂ o')
      · rw [forall_mem_cons] at hw
        exact (mem_append.1 ho').elim (hwf₁ hw.1 o') (hwf₂ hw.2 o')

/-- The output with the unpaired surrogates of its address replaced. -/
def TxOutput.repaired (o : TxOutput) : TxOutput := { o with address := utf16 (scalars o.address) }

theorem scalars_serializeOutput_repaired (o : TxOutput) :
    scalars (serializeOutput o.repaired) = scalars (serializeOutput o) := by
  have hcolon : Scalar (unit ':') := by decide
  rw [serializeOutput, serializeOutput, scalars_append_cons hcolon.2, scalars_append_cons hcolon.2]
  simp only [TxOutput.repaired, scalars_utf16]

/-! ## The other fields -/

/-- The text of a transaction, with its inputs written by `part`. -/
def bodyText (part : TxInput → Text) (body : UnsignedTransactionBody) : Text :=
  join (unit '|') (join (unit ',') (body.inputs.map part) :: serializeTail body)

theorem serializeTransactionBody_eq (body : UnsignedTransactionBody) :
    serializeTransactionBody body = bodyText serializeInput body := rfl

theorem getSigningPayload_eq (body : UnsignedTransactionBody) :
    getSigningPayload body = bodyText TxInput.key body := rfl

/-- The fields at the end of the text are digits and hex. -/
structure UnsignedTransactionBody.Readable (body : UnsignedTransactionBody) : Prop where
  timestamp : body.timestamp.IsIndex
  fee : 0 ≤ body.fee
  data : ∀ data ∈ body.data, hexPairs data

section Fields

variable {part : TxInput → Text} {b b' : UnsignedTransactionBody}

/-- The fields that stand after the outputs in the text. -/
def endFields (body : UnsignedTransactionBody) : List Text :=
  body.timestamp.toText :: decimalInt body.fee :: body.dataPart

theorem bodyText_eq (part : TxInput → Text) (b : UnsignedTransactionBody) :
    bodyText part b = join (unit ',') (b.inputs.map part) ++
      unit '|' :: (outputsText b.outputs ++ unit '|' :: join (unit '|') (endFields b)) := by
  simp [bodyText, serializeTail, endFields, outputsText]

/-- The bar is in no field after the outputs. -/
theorem UnsignedTransactionBody.Readable.bar (h : b.Readable) : ∀ t ∈ endFields b, unit '|' ∉ t := by
  simp only [endFields, forall_mem_cons]
  refine ⟨fun hmem => ?_, fun hmem => ?_, fun t ht hmem => ?_⟩
  · exact absurd (h.timestamp.isDigit_of_mem hmem) (by decide)
  · rcases mem_decimalInt hmem with heq | hd
    · exact absurd heq (by decide)
    · exact absurd hd (by decide)
  · unfold UnsignedTransactionBody.dataPart at ht
    cases hdata : b.data with
    | none => simp [hdata] at ht
    | some d =>
      rw [hdata] at ht
      obtain rfl := mem_singleton.1 ht
      rcases mem_append.1 hmem with hlit | hd
      · exact absurd hlit (by decide)
      · exact absurd (isHexDigit_of_mem_hexPairs (h.data d hdata) hd) (by decide)

/-- A fee does not read like data. -/
theorem decimalInt_ne_data (z : ℤ) (d : Text) : decimalInt z ≠ lit "data:" ++ d := by
  intro heq
  have hmem : unit 'd' ∈ decimalInt z := heq ▸ mem_append_left _ (by decide)
  rcases mem_decimalInt hmem with hd | hd
  · exact absurd hd (by decide)
  · exact absurd hd (by decide)

/-- Only one of two transactions with the same text cannot have data. -/
theorem data_isSome_of_text_eq {x x' d : Text} (h : b.Readable) (h' : b'.Readable)
    (hd : b'.data = some d)
    (heq : x ++ unit '|' :: join (unit '|') (endFields b) =
      x' ++ unit '|' :: join (unit '|') (endFields b')) : b.data.isSome := by
  by_contra hnone
  rw [Option.not_isSome_iff_eq_none] at hnone
  have hbar := h.bar
  have hbar' := h'.bar
  simp only [endFields, UnsignedTransactionBody.dataPart, hd, hnone] at heq hbar hbar'
  -- The last two fields would be the timestamp and the fee of one, and the fee
  -- and the data of the other.
  rw [join_cons_cons _ b'.timestamp.toText,
    show ∀ p q r : Text, p ++ unit '|' :: (q ++ unit '|' :: r) =
      (p ++ unit '|' :: q) ++ unit '|' :: r by simp] at heq
  obtain ⟨-, hfields⟩ := append_join_inj (by simp) hbar
    (fun s hs => hbar' s (mem_cons_of_mem _ hs)) heq
  simp only [List.cons.injEq, and_true] at hfields
  exact decimalInt_ne_data _ _ hfields.2

/-- A text is cut from its end into the outputs and the fields after them. -/
theorem endFields_inj {x x' : Text} (h : b.Readable) (h' : b'.Readable)
    (heq : x ++ unit '|' :: join (unit '|') (endFields b) =
      x' ++ unit '|' :: join (unit '|') (endFields b')) :
    x = x' ∧ b.timestamp = b'.timestamp ∧ b.fee = b'.fee ∧ b.data = b'.data := by
  have hsome : b.data.isSome = b'.data.isSome := by
    cases hd : b.data with
    | some d =>
      cases hd' : b'.data with
      | some d' => rfl
      | none => simpa [hd'] using data_isSome_of_text_eq h' h hd heq.symm
    | none =>
      cases hd' : b'.data with
      | some d' => simpa [hd] using data_isSome_of_text_eq h h' hd' heq
      | none => rfl
  have hlen : (decimalInt b.fee :: b.dataPart).length = (decimalInt b'.fee :: b'.dataPart).length := by
    simp only [UnsignedTransactionBody.dataPart, length_cons]
    cases hd : b.data <;> cases hd' : b'.data <;> simp_all
  obtain ⟨hx, hfields⟩ := append_join_inj hlen h.bar h'.bar heq
  simp only [List.cons.injEq] at hfields
  obtain ⟨hts, hfee, hdata⟩ := hfields
  refine ⟨hx, h.timestamp.toText_injective h'.timestamp hts, decimalInt_injective hfee, ?_⟩
  simp only [UnsignedTransactionBody.dataPart] at hdata
  cases hd : b.data <;> cases hd' : b'.data <;> simp_all

/-- The text of a transaction determines its inputs' text, its outputs' text and
    the other fields. -/
theorem bodyText_inj (h : b.Readable) (h' : b'.Readable)
    (hin : ∀ input ∈ b.inputs, unit '|' ∉ part input)
    (hin' : ∀ input ∈ b'.inputs, unit '|' ∉ part input)
    (heq : bodyText part b = bodyText part b') :
    join (unit ',') (b.inputs.map part) = join (unit ',') (b'.inputs.map part) ∧
      outputsText b.outputs = outputsText b'.outputs ∧ b.timestamp = b'.timestamp ∧
      b.fee = b'.fee ∧ b.data = b'.data := by
  have hbar : ∀ {inputs : List TxInput}, (∀ input ∈ inputs, unit '|' ∉ part input) →
      unit '|' ∉ join (unit ',') (inputs.map part) := by
    intro inputs hinputs hmem
    rcases mem_join hmem with hc | ⟨t, ht, hmem⟩
    · exact absurd hc (by decide)
    · obtain ⟨input, hinput, rfl⟩ := mem_map.1 ht
      exact hinputs input hinput hmem
  rw [bodyText_eq, bodyText_eq] at heq
  obtain ⟨hinputs, hrest⟩ := append_cons_inj_left (hbar hin) (hbar hin') heq
  exact ⟨hinputs, endFields_inj h h' hrest⟩

end Fields

/-! ## Inputs -/

section Inputs

variable {input x y : TxInput}

theorem serializeInput_eq_join (input : TxInput) : serializeInput input =
    join (unit ':') [input.txId, input.outputIndex.toText, input.signature, input.publicKey] := by
  simp [serializeInput, TxInput.key, utxoKey]

theorem TxInput.Wire.isHexDigit_of_mem (h : input.Wire) {t : Text}
    (ht : t ∈ [input.txId, input.outputIndex.toText, input.signature, input.publicKey])
    {u : UInt16} (hu : u ∈ t) : isHexDigit u := by
  simp only [mem_cons, not_mem_nil, or_false] at ht
  rcases ht with rfl | rfl | rfl | rfl
  · exact isHexDigit_of_mem_hexOf h.txId hu
  · exact isHexDigit_of_isDigit (h.outputIndex.isDigit_of_mem hu)
  · exact isHexDigit_of_mem_hexPairs h.signature hu
  · exact isHexDigit_of_mem_hexPairs h.publicKey hu

/-- The text of an input has hex digits and colons only. -/
theorem TxInput.Wire.mem_serializeInput (h : input.Wire) {u : UInt16}
    (hu : u ∈ serializeInput input) : u = unit ':' ∨ isHexDigit u := by
  rw [serializeInput_eq_join] at hu
  exact (mem_join hu).imp id fun ⟨t, ht, hut⟩ => h.isHexDigit_of_mem ht hut

theorem TxInput.Wire.not_mem_serializeInput (h : input.Wire) {c : UInt16}
    (hc : c ≠ unit ':' ∧ isHexDigit c = false) : c ∉ serializeInput input := fun hmem =>
  (h.mem_serializeInput hmem).elim hc.1 fun hd => absurd hd (by simp [hc.2])

theorem TxInput.Wire.not_mem_key (h : input.Wire) {c : UInt16}
    (hc : c ≠ unit ':' ∧ isHexDigit c = false) : c ∉ input.key := fun hmem =>
  h.not_mem_serializeInput hc (mem_append_left _ hmem)

theorem TxInput.Wire.not_mem_colon (h : input.Wire) :
    ∀ t ∈ [input.txId, input.outputIndex.toText, input.signature, input.publicKey],
      unit ':' ∉ t :=
  fun _ ht hu => absurd (h.isHexDigit_of_mem ht hu) (by decide)

theorem serializeInput_inj (hx : x.Wire) (hy : y.Wire)
    (h : serializeInput x = serializeInput y) : x = y := by
  rw [serializeInput_eq_join, serializeInput_eq_join] at h
  have hparts := join_cons_inj hx.not_mem_colon hy.not_mem_colon h
  simp only [List.cons.injEq, and_true] at hparts
  obtain ⟨ht, ho, hs, hp⟩ := hparts
  cases x
  cases y
  simp only [TxInput.mk.injEq]
  exact ⟨ht, hx.outputIndex.toText_injective hy.outputIndex ho, hs, hp⟩

theorem key_inj (hx : x.Wire) (hy : y.Wire) (h : x.key = y.key) :
    x.txId = y.txId ∧ x.outputIndex = y.outputIndex := by
  obtain ⟨ht, ho⟩ := utxoKey_inj hx.txId hy.txId h
  exact ⟨ht, hx.outputIndex.toText_injective hy.outputIndex ho⟩

end Inputs

/-! ## The identity of a transaction -/

/-- A transaction that came from a peer and passed the rules on its structure. -/
def Accepted (tx : Transaction) : Prop :=
  (∃ value what, parseP2PTransaction value what = .ok tx) ∧
    validateTransactionStructure tx = .ok ()

theorem accepted_iff {tx : Transaction} : Accepted tx ↔ tx.Wire ∧ WellStructured tx := by
  rw [Accepted, validateTransactionStructure_eq_ok]
  refine and_congr_left fun _ => ⟨fun ⟨_, _, h⟩ => parseP2PTransaction_wire h, fun h => ?_⟩
  exact ⟨_, [], parseP2PTransaction_value h []⟩

def PlainOutputs (tx : Transaction) : Prop := ∀ o ∈ tx.outputs, Plain o.address

/-- The addresses are plain, and have no unpaired surrogates. -/
def ReadableOutputs (tx : Transaction) : Prop :=
  ∀ o ∈ tx.outputs, Plain o.address ∧ WellFormed o.address

section Identity

variable {tx tx' : Transaction}

theorem Accepted.readable (h : Accepted tx) : tx.toUnsignedTransactionBody.Readable := by
  obtain ⟨hw, hs⟩ := accepted_iff.1 h
  exact ⟨hw.timestamp, hs.fee_nonneg, hw.data⟩

/-- The hashed text of a readable transaction has no unpaired surrogates. -/
theorem Accepted.wellFormed (h : Accepted tx) (hr : ReadableOutputs tx) :
    WellFormed (serializeTransactionBody tx.toUnsignedTransactionBody) := by
  obtain ⟨hw, hs⟩ := accepted_iff.1 h
  have hdigits : ∀ z : ℤ, WellFormed (decimalInt z) := fun z => .of_scalars fun u hu => by
    rcases mem_decimalInt hu with rfl | hd
    · decide
    · exact .of_isHexDigit (isHexDigit_of_isDigit hd)
  rw [serializeTransactionBody, serializeTail]
  refine .join (by decide) ?_
  simp only [forall_mem_cons, cons_append, nil_append]
  refine ⟨.join (by decide) ?_, .join (by decide) ?_, ?_, hdigits _, ?_⟩
  · simp only [forall_mem_map]
    refine fun input hinput => .of_scalars fun u hu => ?_
    rcases (hw.inputs input hinput).mem_serializeInput hu with rfl | hd
    · decide
    · exact .of_isHexDigit hd
  · simp only [forall_mem_map]
    exact fun o ho => (hr o ho).2.append_cons (by decide) (hdigits _)
  · exact .of_scalars fun u hu =>
      .of_isHexDigit (isHexDigit_of_isDigit (hw.timestamp.isDigit_of_mem hu))
  · intro t ht
    unfold UnsignedTransactionBody.dataPart at ht
    cases hdata : tx.data with
    | none => simp [hdata] at ht
    | some d =>
      rw [hdata] at ht
      obtain rfl := mem_singleton.1 ht
      refine .of_scalars fun u hu => ?_
      rcases mem_append.1 hu with hlit | hd
      · have hall : (lit "data:").all (fun u => decide (Scalar u)) := by decide
        exact of_decide_eq_true (all_eq_true.1 hall u hlit)
      · exact .of_isHexDigit (isHexDigit_of_mem_hexPairs (hw.data d hdata) hd)

/-- Equal hashed texts of transactions with plain addresses are those of equal
    transactions. -/
theorem Accepted.eq_of_text_eq (h : Accepted tx) (h' : Accepted tx') (hp : PlainOutputs tx)
    (hp' : PlainOutputs tx')
    (heq : serializeTransactionBody tx.toUnsignedTransactionBody =
      serializeTransactionBody tx'.toUnsignedTransactionBody) : tx = tx' := by
  obtain ⟨hw, hs⟩ := accepted_iff.1 h
  obtain ⟨hw', hs'⟩ := accepted_iff.1 h'
  obtain ⟨hinputs, houtputs, hts, hfee, hdata⟩ := bodyText_inj h.readable h'.readable
    (fun input hi => (hw.inputs input hi).not_mem_serializeInput (by decide))
    (fun input hi => (hw'.inputs input hi).not_mem_serializeInput (by decide)) heq
  have hpieces : ∀ {t : Transaction}, t.Wire → ∀ p ∈ t.inputs.map serializeInput,
      unit ',' ∉ p ∧ p ≠ [] := by
    intro t ht p hp
    obtain ⟨input, hi, rfl⟩ := mem_map.1 hp
    exact ⟨(ht.inputs input hi).not_mem_serializeInput (by decide), by simp [serializeInput]⟩
  have hins : tx.inputs = tx'.inputs := by
    simpa only [map_id] using map_eq_of_map_eq (g := id)
      (fun _ _ hx hy => serializeInput_inj hx hy) hw.inputs hw'.inputs
      (join_injective (hpieces hw) (hpieces hw') hinputs)
  have houts : tx.outputs = tx'.outputs :=
    outputsText_inj (fun o ho => ⟨hp o ho, hs.amount_pos o ho⟩)
      (fun o ho => ⟨hp' o ho, hs'.amount_pos o ho⟩) houtputs
  refine Transaction.ext ?_ (hs.id_eq ▸ hs'.id_eq ▸ congrArg sha256 heq)
  obtain ⟨⟨_, _, _, _, _⟩, _⟩ := tx
  obtain ⟨⟨_, _, _, _, _⟩, _⟩ := tx'
  simp_all

/-- The same for payloads, which do not hold signatures and public keys. -/
theorem Accepted.eq_of_payload_eq (h : Accepted tx) (h' : Accepted tx') (hp : PlainOutputs tx)
    (hp' : PlainOutputs tx')
    (heq : getSigningPayload tx.toUnsignedTransactionBody =
      getSigningPayload tx'.toUnsignedTransactionBody) :
    tx.inputs.map (fun i => (i.txId, i.outputIndex)) =
        tx'.inputs.map (fun i => (i.txId, i.outputIndex)) ∧
      tx.outputs = tx'.outputs ∧ tx.timestamp = tx'.timestamp ∧ tx.fee = tx'.fee ∧
      tx.data = tx'.data := by
  obtain ⟨hw, hs⟩ := accepted_iff.1 h
  obtain ⟨hw', hs'⟩ := accepted_iff.1 h'
  obtain ⟨hinputs, houtputs, hts, hfee, hdata⟩ := bodyText_inj h.readable h'.readable
    (fun input hi => (hw.inputs input hi).not_mem_key (by decide))
    (fun input hi => (hw'.inputs input hi).not_mem_key (by decide)) heq
  have hpieces : ∀ {t : Transaction}, t.Wire → ∀ p ∈ t.inputs.map TxInput.key,
      unit ',' ∉ p ∧ p ≠ [] := by
    intro t ht p hp
    obtain ⟨input, hi, rfl⟩ := mem_map.1 hp
    exact ⟨(ht.inputs input hi).not_mem_key (by decide), by simp [TxInput.key, utxoKey]⟩
  refine ⟨map_eq_of_map_eq (fun x y hx hy hkey => ?_) hw.inputs hw'.inputs
    (join_injective (hpieces hw) (hpieces hw') hinputs),
    outputsText_inj (fun o ho => ⟨hp o ho, hs.amount_pos o ho⟩)
      (fun o ho => ⟨hp' o ho, hs'.amount_pos o ho⟩) houtputs, hts, hfee, hdata⟩
  obtain ⟨ht, ho⟩ := key_inj hx hy hkey
  rw [ht, ho]

/-- Other outputs with the same characters in their text keep the id. -/
theorem Accepted.withOutputs (h : Accepted tx) {os : List TxOutput} (hne : os ≠ [])
    (hpos : ∀ o ∈ os, 0 < o.amount)
    (htext : scalars (outputsText os) = scalars (outputsText tx.outputs)) :
    utf8 (serializeTransactionBody { tx.toUnsignedTransactionBody with outputs := os }) =
        utf8 (serializeTransactionBody tx.toUnsignedTransactionBody) ∧
      Accepted { tx with outputs := os } := by
  obtain ⟨hw, hs⟩ := accepted_iff.1 h
  have hutf8 : utf8 (serializeTransactionBody { tx.toUnsignedTransactionBody with outputs := os }) =
      utf8 (serializeTransactionBody tx.toUnsignedTransactionBody) := by
    have hbar : Scalar (unit '|') := by decide
    rw [utf8, utf8, serializeTransactionBody_eq, serializeTransactionBody_eq, bodyText_eq,
      bodyText_eq]
    simp only [scalars_append_cons hbar.2, scalars_cons hbar, htext]
    rfl
  refine ⟨hutf8, accepted_iff.2 ⟨⟨hw.id, hw.inputs, hw.timestamp, hw.data⟩, ?_, hne, hpos,
    hs.fee_nonneg, hs.data_hex, hs.data_ne, hs.data_length, hs.nodup_inputs⟩⟩
  rw [← hs.id_eq, computeTransactionId, computeTransactionId, sha256_eq, sha256_eq]
  exact congrArg _ hutf8

/-- Among accepted transactions, the readable ones are those that their id
    determines among the readable ones, where the hash has no collision; and
    the ones with plain addresses are those whose outpoints, outputs, timestamp,
    fee and data their payload determines among these. -/
theorem id_determines_iff (h : Accepted tx) :
    (ReadableOutputs tx ↔ ∀ tx', Accepted tx' → ReadableOutputs tx' →
      NoCollision {serializeTransactionBody tx.toUnsignedTransactionBody,
        serializeTransactionBody tx'.toUnsignedTransactionBody} →
      tx.id = tx'.id → tx = tx') ∧
    (PlainOutputs tx ↔ ∀ tx', Accepted tx' → PlainOutputs tx' →
      getSigningPayload tx.toUnsignedTransactionBody =
        getSigningPayload tx'.toUnsignedTransactionBody →
      tx.inputs.map (fun i => (i.txId, i.outputIndex)) =
          tx'.inputs.map (fun i => (i.txId, i.outputIndex)) ∧
        tx.outputs = tx'.outputs ∧ tx.timestamp = tx'.timestamp ∧ tx.fee = tx'.fee ∧
        tx.data = tx'.data) := by
  obtain ⟨-, hs⟩ := accepted_iff.1 h
  refine ⟨⟨fun hr tx' h' hr' hfree hid => ?_, fun hdet => ?_⟩,
    ⟨fun hp tx' h' hp' => h.eq_of_payload_eq h' hp hp', fun hdet => ?_⟩⟩
  · obtain ⟨-, hs'⟩ := accepted_iff.1 h'
    refine h.eq_of_text_eq h' (fun o ho => (hr o ho).1) (fun o ho => (hr' o ho).1) ?_
    refine hfree.eq (by simp) (by simp) (h.wellFormed hr) (h'.wellFormed hr') ?_
    exact hs.id_eq.trans (hid.trans hs'.id_eq.symm)
  · -- The outputs repaired and cut are readable, and have the same id.
    have hpos : ∀ o ∈ tx.outputs.map TxOutput.repaired, 0 < o.amount := by
      simp only [forall_mem_map]
      exact hs.amount_pos
    obtain ⟨os, hne, htext, hos, hwf⟩ :=
      exists_plain_outputs (by simpa using hs.outputs_ne) hpos
    have hwf := hwf (by simp only [forall_mem_map]; exact fun o _ => wellFormed_utf16 _)
    have hscalars : scalars (outputsText os) = scalars (outputsText tx.outputs) := by
      rw [htext, outputsText, map_map]
      exact scalars_join (by decide) _ _ fun o _ => scalars_serializeOutput_repaired o
    obtain ⟨hutf8, h'⟩ := h.withOutputs hne (fun o ho => (hos o ho).2) hscalars
    have heq : tx = { tx with outputs := os } := by
      refine hdet _ h' (fun o ho => ⟨(hos o ho).1, hwf o ho⟩) ?_ rfl
      rintro a (rfl | rfl) b (rfl | rfl) -
      · rfl
      · exact hutf8.symm
      · exact hutf8
      · rfl
    rw [heq]
    exact fun o ho => ⟨(hos o ho).1, hwf o ho⟩
  · -- The outputs cut are plain, and have the same payload.
    obtain ⟨os, hne, htext, hos, -⟩ := exists_plain_outputs hs.outputs_ne hs.amount_pos
    obtain ⟨-, h'⟩ := h.withOutputs hne (fun o ho => (hos o ho).2) (congrArg scalars htext)
    obtain ⟨-, heq, -⟩ := hdet _ h' (fun o ho => (hos o ho).1) (by
      rw [getSigningPayload_eq, getSigningPayload_eq, bodyText_eq, bodyText_eq, htext]
      rfl)
    intro o ho
    rw [heq] at ho
    exact (hos o ho).1

end Identity

/-! ## Two transactions with one id -/

/-- A transaction with one input. -/
def sampleSpend (outputs : List TxOutput) : Transaction :=
  UnsignedTransactionBody.identified
    { inputs := [⟨ZERO_HASH, .ofNat 0, [], []⟩], outputs, timestamp := .ofNat 2, fee := 0,
      data := none }

theorem accepted_sampleSpend (outputs : List TxOutput)
    (h : validateTransactionStructure (sampleSpend outputs) = .ok ()) :
    Accepted (sampleSpend outputs) := by
  refine accepted_iff.2 ⟨⟨hexOf_sha256 _, ?_, ⟨2, by norm_num, rfl⟩, by simp [sampleSpend,
    UnsignedTransactionBody.identified]⟩, validateTransactionStructure_eq_ok.1 h⟩
  intro input hinput
  obtain rfl := mem_singleton.1 hinput
  exact ⟨by decide, ⟨0, by norm_num, rfl⟩, rfl, rfl⟩

/-- A payment to `a` and `b` is determined by its id among readable
    transactions. -/
theorem id_determines_sample :
    Accepted (sampleSpend [⟨lit "a", 1⟩, ⟨lit "b", 2⟩]) ∧
    ∀ tx', Accepted tx' → ReadableOutputs tx' →
      NoCollision {serializeTransactionBody
          (sampleSpend [⟨lit "a", 1⟩, ⟨lit "b", 2⟩]).toUnsignedTransactionBody,
        serializeTransactionBody tx'.toUnsignedTransactionBody} →
      (sampleSpend [⟨lit "a", 1⟩, ⟨lit "b", 2⟩]).id = tx'.id →
      sampleSpend [⟨lit "a", 1⟩, ⟨lit "b", 2⟩] = tx' := by
  have h := accepted_sampleSpend [⟨lit "a", 1⟩, ⟨lit "b", 2⟩] (by decide +kernel)
  refine ⟨h, (id_determines_iff h).1.1 fun o ho => ?_⟩
  simp only [sampleSpend, UnsignedTransactionBody.identified, mem_cons, not_mem_nil,
    or_false] at ho
  rcases ho with rfl | rfl
  · exact ⟨.of_not_mem (by decide), by decide⟩
  · exact ⟨.of_not_mem (by decide), by decide⟩

/-- Paying `1` to `a` and `2` to `b` has the id and the payload of paying `2` to
    the address `a:1,b`. -/
theorem id_shared : ∃ tx tx', Accepted tx ∧ Accepted tx' ∧ tx.id = tx'.id ∧
    getSigningPayload tx.toUnsignedTransactionBody =
      getSigningPayload tx'.toUnsignedTransactionBody ∧ tx.outputs ≠ tx'.outputs :=
  ⟨sampleSpend [⟨lit "a", 1⟩, ⟨lit "b", 2⟩], sampleSpend [⟨lit "a:1,b", 2⟩],
    accepted_sampleSpend _ (by decide +kernel), accepted_sampleSpend _ (by decide +kernel),
    congrArg sha256 (by decide), by decide, by decide⟩

end Plainchain
