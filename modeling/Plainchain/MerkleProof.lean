import Plainchain.Crypto
import Plainchain.Lib.Check
import Plainchain.Lib.Value

/-!
# Merkle proofs

`verifyMerkleProof` of `src/crypto/merkle.ts`. A light client calls it on what a
node answered, which nothing has checked before: the leaf and the siblings are
values of any type, and the pattern test converts them to texts.

* `verifyMerkleProof_inj`: without collisions, one list of siblings leads to one
  root from one leaf only.
-/

namespace Plainchain

open Js List

/-- `HASH_HEX.test(value)`: the text of the value if it is 64 hex digits. -/
def hashText (value : Value) : Except Text (Option Text) := do
  let t ← value.interpolate
  pure (if hexOf 64 t then some t else none)

/-- A sibling on the path from a leaf to the root, and which side it sits on. -/
structure Sibling where
  hash : Text
  right : Bool

/-- What is hashed to go up by one level. -/
def Sibling.beside (sibling : Sibling) (current : Text) : Text :=
  if sibling.right then current ++ sibling.hash else sibling.hash ++ current

/-- One step of a proof, if it is one. -/
def siblingOf (step : Value) : Except Text (Option Sibling) := do
  match ← hashText (← step.read (lit "hash")) with
  | none => pure none
  | some hash =>
    if (step.get (lit "position")).isText (lit "right") then pure (some ⟨hash, true⟩)
    else if (step.get (lit "position")).isText (lit "left") then pure (some ⟨hash, false⟩)
    else pure none

/-- The loop of `verifyMerkleProof`: the hash reached, or none where a step is
    not one. -/
def foldProof : (current : Text) → (steps : List Value) → Except Text (Option Text)
  | current, [] => .ok (some current)
  | current, step :: steps => do
    match ← siblingOf step with
    | none => pure none
    | some sibling => foldProof (sha256 (sibling.beside current)) steps

/-- True if folding `leaf` up through `proof` reproduces `root`. -/
def verifyMerkleProof (leaf proof : Value) (root : Text) : Except Text Bool := do
  match ← hashText leaf with
  | none => pure false
  | some t =>
    if hexOf 64 root then
      match ← proof.iterate with
      -- Nothing was hashed: the leaf itself is compared, and has to be a text.
      | [] => pure (leaf.isText root)
      | steps => pure ((← foldProof t steps) = some root)
    else pure false

/-! ## One leaf for a root -/

/-- The texts that are hashed on the way up. -/
def foldTexts : (current : Text) → (steps : List Value) → List Text
  | _, [] => []
  | current, step :: steps =>
    match siblingOf step with
    | .ok (some sibling) =>
      sibling.beside current :: foldTexts (sha256 (sibling.beside current)) steps
    | _ => []

theorem hashText_eq_ok {value : Value} {t : Text} :
    hashText value = .ok (some t) ↔ value.toText = some t ∧ hexOf 64 t := by
  rw [hashText, Value.interpolate]
  cases value.toText with
  | none => simp [bind, Except.bind]
  | some s =>
    simp only [bind, Except.bind, pure, Except.pure, Except.ok.injEq, Option.some.injEq]
    split
    · next hs =>
      rw [Option.some.injEq]
      exact ⟨fun h => ⟨h, h ▸ hs⟩, fun h => h.1⟩
    · next hs =>
      simp only [reduceCtorEq, false_iff]
      rintro ⟨rfl, h⟩
      exact hs h

theorem wellFormed_of_hexOf {n : ℕ} {t : Text} (h : hexOf n t) : WellFormed t :=
  .of_scalars fun _ hu => .of_isHexDigit (isHexDigit_of_mem_hexOf h hu)

theorem siblingOf_hexOf {step : Value} {sibling : Sibling}
    (h : siblingOf step = .ok (some sibling)) : hexOf 64 sibling.hash := by
  simp only [siblingOf, bind_eq_ok] at h
  obtain ⟨field, -, found, hfound, h⟩ := h
  cases found with
  | none => cases h
  | some hash =>
    have hhash := (hashText_eq_ok.1 hfound).2
    dsimp only at h
    split_ifs at h
    · cases h
      exact hhash
    · cases h
      exact hhash
    · cases h

/-- Beside one hash, hex texts of one length give different texts. -/
theorem Sibling.beside_inj {sibling : Sibling} (hs : hexOf 64 sibling.hash) {a b : Text}
    (ha : hexOf 64 a) (hb : hexOf 64 b) {S : Set Text} (hS : NoCollision S)
    (haS : sibling.beside a ∈ S) (hbS : sibling.beside b ∈ S)
    (h : sha256 (sibling.beside a) = sha256 (sibling.beside b)) : a = b := by
  have hwf : ∀ {t : Text}, hexOf 64 t → WellFormed (sibling.beside t) := by
    intro t ht
    refine .of_scalars fun u hu => .of_isHexDigit ?_
    have hu' : u ∈ t ∨ u ∈ sibling.hash := by
      unfold Sibling.beside at hu
      split at hu
      · exact mem_append.1 hu
      · exact (mem_append.1 hu).symm
    exact hu'.elim (isHexDigit_of_mem_hexOf ht) (isHexDigit_of_mem_hexOf hs)
  have heq := hS.eq haS hbS (hwf ha) (hwf hb) h
  unfold Sibling.beside at heq
  split at heq
  · exact append_cancel_right heq
  · exact append_cancel_left heq

/-- Without collisions on the way, siblings lead to a root from one leaf only. -/
theorem foldProof_inj {S : Set Text} (hS : NoCollision S) {steps : List Value} {a b root : Text}
    (ha : hexOf 64 a) (hb : hexOf 64 b) (haS : ∀ t ∈ foldTexts a steps, t ∈ S)
    (hbS : ∀ t ∈ foldTexts b steps, t ∈ S) (hra : foldProof a steps = .ok (some root))
    (hrb : foldProof b steps = .ok (some root)) : a = b := by
  induction steps generalizing a b with
  | nil =>
    cases hra
    cases hrb
    rfl
  | cons step steps ih =>
    rw [foldProof, bind_eq_ok] at hra hrb
    obtain ⟨found, hfound, hra⟩ := hra
    obtain ⟨found', hfound', hrb⟩ := hrb
    cases hfound.symm.trans hfound'
    cases found with
    | none => cases hra
    | some sibling =>
      rw [foldTexts, hfound] at haS hbS
      obtain ⟨haS, haS'⟩ := forall_mem_cons.1 haS
      obtain ⟨hbS, hbS'⟩ := forall_mem_cons.1 hbS
      have hnext := ih (hexOf_sha256 _) (hexOf_sha256 _) haS' hbS' hra hrb
      exact Sibling.beside_inj (siblingOf_hexOf hfound) ha hb hS haS hbS hnext

/-- What an accepted proof is. -/
theorem verifyMerkleProof_eq_true {leaf proof : Value} {root : Text} :
    verifyMerkleProof leaf proof root = .ok true ↔
      hexOf 64 root ∧ ∃ t steps, leaf.toText = some t ∧ hexOf 64 t ∧
        proof.iterate = .ok steps ∧ foldProof t steps = .ok (some root) ∧
        (steps = [] → leaf = .str root) := by
  rw [verifyMerkleProof, bind_eq_ok]
  constructor
  · rintro ⟨found, hfound, h⟩
    cases found with
    | none => cases h
    | some t =>
      obtain ⟨htext, ht⟩ := hashText_eq_ok.1 hfound
      dsimp only at h
      split at h
      · next hroot =>
        rw [bind_eq_ok] at h
        obtain ⟨steps, hsteps, h⟩ := h
        refine ⟨hroot, t, steps, htext, ht, hsteps, ?_⟩
        cases steps with
        | nil =>
          simp only [pure, Except.pure, Except.ok.injEq, Value.isText_iff] at h
          subst h
          cases htext
          exact ⟨rfl, fun _ => rfl⟩
        | cons step steps =>
          simp only [bind_eq_ok] at h
          obtain ⟨r, hr, h⟩ := h
          simp only [pure, Except.pure, Except.ok.injEq, decide_eq_true_eq] at h
          exact ⟨h ▸ hr, by simp⟩
      · cases h
  · rintro ⟨hroot, t, steps, htext, ht, hsteps, hfold, hnil⟩
    refine ⟨some t, hashText_eq_ok.2 ⟨htext, ht⟩, ?_⟩
    dsimp only
    rw [if_pos hroot, bind_eq_ok]
    refine ⟨steps, hsteps, ?_⟩
    cases steps with
    | nil =>
      rw [hnil rfl]
      simp [pure, Except.pure]
    | cons step steps =>
      simp only [bind_eq_ok]
      exact ⟨_, hfold, by simp [pure, Except.pure]⟩

/-- The texts that are hashed when a proof is verified. -/
def proofTexts (leaf proof : Value) : Set Text :=
  {t | ∃ l steps, leaf.toText = some l ∧ proof.iterate = .ok steps ∧ t ∈ foldTexts l steps}

/-- A proof accepted for a value is one for its text. -/
theorem verifyMerkleProof_str {leaf proof : Value} {root t : Text}
    (h : verifyMerkleProof leaf proof root = .ok true) (ht : leaf.toText = some t) :
    verifyMerkleProof (.str t) proof root = .ok true := by
  rw [verifyMerkleProof_eq_true] at h ⊢
  obtain ⟨hroot, t', steps, htext, hhex, hsteps, hfold, hnil⟩ := h
  cases ht.symm.trans htext
  refine ⟨hroot, t, steps, rfl, hhex, hsteps, hfold, fun hs => ?_⟩
  subst hs
  cases hfold
  rfl

/-- Without collisions, a proof is accepted for one text only. -/
theorem verifyMerkleProof_inj {leaf leaf' proof : Value} {root : Text}
    (hcoll : NoCollision (proofTexts leaf proof ∪ proofTexts leaf' proof))
    (h : verifyMerkleProof leaf proof root = .ok true)
    (h' : verifyMerkleProof leaf' proof root = .ok true) : leaf.toText = leaf'.toText := by
  obtain ⟨-, t, steps, htext, hhex, hsteps, hfold, -⟩ := verifyMerkleProof_eq_true.1 h
  obtain ⟨-, t', steps', htext', hhex', hsteps', hfold', -⟩ := verifyMerkleProof_eq_true.1 h'
  cases hsteps.symm.trans hsteps'
  rw [htext, htext', foldProof_inj hcoll hhex hhex'
    (fun u hu => .inl ⟨t, steps, htext, hsteps, hu⟩)
    (fun u hu => .inr ⟨t', steps, htext', hsteps', hu⟩) hfold hfold']

end Plainchain
