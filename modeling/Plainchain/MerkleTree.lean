import Plainchain.Consensus.BlockValidator
import Plainchain.Lib.HashTree
import Plainchain.MerkleProof

/-!
# Merkle trees of transaction ids

`merkleRoot` and `merkleProof` of `src/crypto/merkle.ts` hash inner nodes and leaves with
one function and without a tag, and pair an odd last node with itself. What keeps them
apart is what was hashed: an id is the hash of the text of a transaction, which is no
two hashes put together.

* `merkleRoot_commits`: so the root determines a list of ids without repetitions, and
  the hash of a valid block determines the list of its ids;
* `merkleProof_correct`: and a proof that is accepted for the id of a transaction is of
  one that is in the list. One for each of them is made.
-/

namespace Plainchain

open Js List

/-! ## Texts that are hashed -/

/-- An inner node. -/
def joinHashes (left right : Text) : Text := sha256 (left ++ right)

theorem nextLevel_eq (level : List Text) : nextLevel level = HashTree.up joinHashes level := by
  fun_induction nextLevel level with
  | case1 => rfl
  | case2 => rfl
  | case3 left right level ih => rw [ih]; rfl

/-- The texts that `climb` hashes. -/
def climbTexts : ℕ → List Text → List Text
  | fuel + 1, left :: right :: level =>
    ((HashTree.pairs (left :: right :: level)).map fun p => p.1 ++ p.2) ++
      climbTexts fuel (nextLevel (left :: right :: level))
  | _, _ => []

/-- The texts that are hashed for a root. -/
def merkleTexts (hashes : List Text) : List Text := climbTexts hashes.length hashes

/-- Two hashes that are hashed together. -/
def Hashed (S : Set Text) (left right : Text) : Prop :=
  left ++ right ∈ S ∧ hexOf 64 left ∧ hexOf 64 right

variable {level : List Text} {root t : Text} {fuel : ℕ}

theorem hexOf_append {m n : ℕ} {s : Text} (hs : hexOf m s) (ht : hexOf n t) :
    hexOf (m + n) (s ++ t) := by
  simp only [hexOf, Bool.and_eq_true, beq_iff_eq, length_append, all_append] at hs ht ⊢
  exact ⟨by rw [hs.1, ht.1], hs.2, ht.2⟩

theorem hexOf_of_mem_map_sha256 {pre : List Text} : ∀ t ∈ pre.map sha256, hexOf 64 t := by
  intro t ht
  obtain ⟨s, -, rfl⟩ := mem_map.1 ht
  exact hexOf_sha256 s

section Tree

variable {S : Set Text}

theorem hexOf_nextLevel : ∀ t ∈ nextLevel level, hexOf 64 t := by
  intro t ht
  rw [nextLevel_eq] at ht
  obtain ⟨p, -, rfl⟩ := mem_map.1 ht
  exact hexOf_sha256 _

theorem hexOf_climb (h : hexOf 64 t) : hexOf 64 (climb fuel (t :: level)) := by
  induction fuel generalizing t level with
  | zero => exact h
  | succ fuel ih =>
    match level with
    | [] => exact h
    | right :: level => exact ih (hexOf_sha256 _)

/-- A root is a hash if the first of the hashes is, whatever the others are. -/
theorem hexOf_merkleRoot (h : hexOf 64 t) (hashes : List Text) :
    ∃ root, merkleRoot (t :: hashes) = .ok root ∧ hexOf 64 root :=
  ⟨_, if_neg (cons_ne_nil _ _), hexOf_climb h⟩

theorem hexOf_of_merkleRoot {hashes : List Text} (h : merkleRoot hashes = .ok root)
    (hhex : ∀ t ∈ hashes, hexOf 64 t) : hexOf 64 root := by
  cases hashes with
  | nil => cases h
  | cons t hashes =>
    obtain ⟨root', hroot, hhex'⟩ := hexOf_merkleRoot (hhex t mem_cons_self) hashes
    cases hroot.symm.trans h
    exact hhex'

/-- The loop of `merkleRoot` climbs to the root of a tree. -/
theorem rooted_climb (hne : level ≠ []) (hlen : level.length ≤ fuel + 1)
    (hhex : ∀ t ∈ level, hexOf 64 t) (hS : ∀ t ∈ climbTexts fuel level, t ∈ S) :
    ∃ d, HashTree.Rooted joinHashes (Hashed S) level d (climb fuel level) := by
  induction fuel generalizing level with
  | zero =>
    match level with
    | [] => exact absurd rfl hne
    | [root] => exact ⟨0, .leaf root⟩
  | succ fuel ih =>
    match level with
    | [] => exact absurd rfl hne
    | [root] => exact ⟨0, .leaf root⟩
    | left :: right :: level =>
      rw [climbTexts, forall_mem_append] at hS
      rw [climb]
      have hnext : (nextLevel (left :: right :: level)).length ≤ fuel + 1 := by
        rw [length_nextLevel]
        simp only [length_cons] at hlen ⊢
        omega
      have hne' : nextLevel (left :: right :: level) ≠ [] := cons_ne_nil _ _
      obtain ⟨d, hrooted⟩ := ih hne' hnext hexOf_nextLevel hS.2
      refine ⟨d + 1, .step (by simp) (fun p hp => ?_) (nextLevel_eq _ ▸ hrooted)⟩
      have hmem := HashTree.mem_of_mem_pairs hp
      exact ⟨hS.1 _ (mem_map.2 ⟨p, hp, rfl⟩), hhex _ hmem.1, hhex _ hmem.2⟩

theorem merkleRoot_eq_ok {hashes : List Text} (h : merkleRoot hashes = .ok root) :
    hashes ≠ [] ∧ climb hashes.length hashes = root := by
  rw [merkleRoot] at h
  split at h
  · cases h
  · next hne =>
    cases h
    exact ⟨hne, rfl⟩

variable (hS : NoCollision S)

include hS

/-- Without collisions, the hash of two hashes determines them. -/
theorem injective_joinHashes : HashTree.Injective joinHashes (Hashed S) := by
  rintro a b c d ⟨hab, ha, hb⟩ ⟨hcd, hc, hd⟩ heq
  have happend := hS.eq hab hcd (wellFormed_of_hexOf (hexOf_append ha hb))
    (wellFormed_of_hexOf (hexOf_append hc hd)) heq
  exact append_inj happend ((length_of_hexOf ha).trans (length_of_hexOf hc).symm)

/-- The hash of what is no two hashes is no inner node. -/
theorem not_joint (ht : t ∈ S) (hhex : ¬hexOf 128 t) :
    ¬HashTree.Joint joinHashes (Hashed S) (sha256 t) := by
  rintro ⟨a, b, ⟨hab, ha, hb⟩, heq⟩
  have happend := hexOf_append ha hb
  have hbytes := hS t ht (a ++ b) hab heq
  have hscalars := scalars_eq_of_utf8_eq hbytes
  rw [eq_of_scalars_eq_hex (fun u hu => isHexDigit_of_mem_hexOf happend hu) hscalars] at hhex
  exact hhex happend

/-- Roots of hashes of texts determine the hashes, if there are no repetitions. -/
theorem merkleRoot_inj {pre pre' : List Text} (hpre : ∀ t ∈ pre, t ∈ S ∧ ¬hexOf 128 t)
    (hpre' : ∀ t ∈ pre', t ∈ S ∧ ¬hexOf 128 t) (hnodup : (pre.map sha256).Nodup)
    (hnodup' : (pre'.map sha256).Nodup) (htexts : ∀ t ∈ merkleTexts (pre.map sha256), t ∈ S)
    (htexts' : ∀ t ∈ merkleTexts (pre'.map sha256), t ∈ S)
    (hroot : merkleRoot (pre.map sha256) = .ok root)
    (hroot' : merkleRoot (pre'.map sha256) = .ok root) : pre.map sha256 = pre'.map sha256 := by
  have hleaf : ∀ {pre : List Text}, (∀ t ∈ pre, t ∈ S ∧ ¬hexOf 128 t) →
      ∀ x ∈ pre.map sha256, ¬HashTree.Joint joinHashes (Hashed S) x := by
    intro pre hpre x hx
    obtain ⟨t, ht, rfl⟩ := mem_map.1 hx
    exact not_joint hS (hpre t ht).1 (hpre t ht).2
  obtain ⟨hne, rfl⟩ := merkleRoot_eq_ok hroot
  obtain ⟨hne', heq⟩ := merkleRoot_eq_ok hroot'
  obtain ⟨d, hrooted⟩ := rooted_climb hne (Nat.le_succ _) hexOf_of_mem_map_sha256 htexts
  obtain ⟨d', hrooted'⟩ := rooted_climb hne' (Nat.le_succ _) hexOf_of_mem_map_sha256 htexts'
  rw [heq] at hrooted'
  exact hrooted.leaves_eq (injective_joinHashes hS) hrooted' hnodup hnodup' (hleaf hpre) (hleaf hpre')
    hne hne'

end Tree

/-! ## Blocks -/

/-- The text of a transaction has a separator. -/
theorem not_hexOf_serializeTransactionBody (body : UnsignedTransactionBody) (n : ℕ) :
    ¬hexOf n (serializeTransactionBody body) := by
  intro h
  have hbar : unit '|' ∈ serializeTransactionBody body := by
    simp [serializeTransactionBody, serializeTail]
  exact absurd (isHexDigit_of_mem_hexOf h hbar) (by decide)

/-- The texts that are hashed for a block: those of its header, of its transactions and
    of the nodes of its tree. -/
def blockTexts (block : Block) : List Text :=
  serializeHeader block.header ::
    (block.transactions.map fun tx => serializeTransactionBody tx.toUnsignedTransactionBody) ++
      merkleTexts (block.transactions.map Transaction.id)

/-- A header on top of a hash tells its root by its text. -/
theorem merkleRoot_of_serializeHeader {x y : BlockHeader} (hx : hexOf 64 x.previousHash)
    (hy : hexOf 64 y.previousHash) (hxm : hexOf 64 x.merkleRoot) (hym : hexOf 64 y.merkleRoot)
    (h : utf8 (serializeHeader x) = utf8 (serializeHeader y)) : x.merkleRoot = y.merkleRoot := by
  -- The first three fields have no separator, and neither can what follows change them.
  have hread : ∀ {z : BlockHeader}, hexOf 64 z.previousHash → hexOf 64 z.merkleRoot → ∃ rest,
      utf16 (scalars (serializeHeader z)) = decimal z.version ++ unit '|' ::
        (z.previousHash ++ unit '|' :: (z.merkleRoot ++ unit '|' :: rest)) := by
    intro z hz hzm
    have htext : serializeHeader z = (decimal z.version ++ unit '|' :: (z.previousHash ++ unit '|' ::
        (z.merkleRoot ++ [unit '|']))) ++ join (unit '|') (decimal z.timestamp :: z.difficultyTarget ::
          decimal z.nonce :: decimal z.height :: (z.signer.toList ++ z.signature.toList)) := by
      simp [serializeHeader, BlockHeader.fields]
    have hscalar : ∀ u ∈ decimal z.version ++ unit '|' :: (z.previousHash ++ unit '|' ::
        (z.merkleRoot ++ [unit '|'])), Scalar u := by
      have hbar : Scalar (unit '|') := by decide
      simp only [mem_append, mem_cons, not_mem_nil, or_false]
      rintro u (hu | rfl | hu | rfl | hu | rfl)
      · exact .of_isHexDigit (isHexDigit_of_isDigit (isDigit_of_mem_decimal hu))
      · exact hbar
      · exact .of_isHexDigit (isHexDigit_of_mem_hexOf hz hu)
      · exact hbar
      · exact .of_isHexDigit (isHexDigit_of_mem_hexOf hzm hu)
      · exact hbar
    rw [htext, utf16_scalars_append hscalar]
    generalize utf16 (scalars _) = rest
    exact ⟨rest, by simp⟩
  have hbar : ∀ {t : Text}, (∀ u ∈ t, isHexDigit u) → unit '|' ∉ t := fun ht hu =>
    absurd (ht _ hu) (by decide)
  have hdecimal : ∀ n, unit '|' ∉ decimal n := fun n =>
    hbar fun u hu => isHexDigit_of_isDigit (isDigit_of_mem_decimal hu)
  have hhex : ∀ {t : Text}, hexOf 64 t → unit '|' ∉ t := fun ht =>
    hbar fun u hu => isHexDigit_of_mem_hexOf ht hu
  obtain ⟨rest, hrest⟩ := hread hx hxm
  obtain ⟨rest', hrest'⟩ := hread hy hym
  have heq := congrArg utf16 (scalars_eq_of_utf8_eq h)
  rw [hrest, hrest'] at heq
  have hversion := append_cons_inj_left (hdecimal _) (hdecimal _) heq
  have hprevious := append_cons_inj_left (hhex hx) (hhex hy) hversion.2
  exact (append_cons_inj_left (hhex hxm) (hhex hym) hprevious.2).1

/-- The ids of a valid block are hashes of the texts of its transactions. -/
theorem ValidBlock.ids_eq {sig : SignatureScheme} {block : Block} {ctx : BlockValidationContext}
    {coinbase : Transaction} {rest : List Transaction} (h : ValidBlock sig block ctx coinbase rest) :
    block.transactions.map Transaction.id = (block.transactions.map fun tx =>
      serializeTransactionBody tx.toUnsignedTransactionBody).map sha256 := by
  rw [map_map]
  refine map_congr_left fun tx htx => ?_
  exact (h.structured tx htx).id_eq.symm

/-- Without collisions among the texts that are hashed: two lists of hashes of texts that
    are not of 128 hex digits, each without repetitions, have one root only if they are
    equal; and two valid blocks on top of hashes have one hash only if they have the same
    list of ids. -/
theorem merkleRoot_commits {S : Set Text} (hS : NoCollision S) :
    (∀ pre pre' : List Text, pre ≠ [] → pre' ≠ [] → (∀ t ∈ pre, t ∈ S ∧ ¬hexOf 128 t) →
      (∀ t ∈ pre', t ∈ S ∧ ¬hexOf 128 t) → (pre.map sha256).Nodup → (pre'.map sha256).Nodup →
      (∀ t ∈ merkleTexts (pre.map sha256), t ∈ S) → (∀ t ∈ merkleTexts (pre'.map sha256), t ∈ S) →
      merkleRoot (pre.map sha256) = merkleRoot (pre'.map sha256) →
      pre.map sha256 = pre'.map sha256) ∧
    ∀ (sig : SignatureScheme) (block block' : Block) (ctx ctx' : BlockValidationContext),
      validateBlock sig block ctx = .ok () → validateBlock sig block' ctx' = .ok () →
      hexOf 64 ctx.parent.hash → hexOf 64 ctx'.parent.hash →
      (∀ t ∈ blockTexts block, t ∈ S) → (∀ t ∈ blockTexts block', t ∈ S) → block.hash = block'.hash →
      block.transactions.map Transaction.id = block'.transactions.map Transaction.id := by
  constructor
  · intro pre pre' hne hne' hpre hpre' hnodup hnodup' htexts htexts' heq
    have hroot : merkleRoot (pre.map sha256) = .ok (climb (pre.map sha256).length (pre.map sha256)) :=
      if_neg fun hnil => hne (map_eq_nil_iff.1 hnil)
    exact merkleRoot_inj hS hpre hpre' hnodup hnodup' htexts htexts' hroot (heq.symm.trans hroot)
  · intro sig block block' ctx ctx' hvalid hvalid' hparent hparent' htexts htexts' hhash
    obtain ⟨coinbase, rest, hv⟩ := validateBlock_eq_ok.1 hvalid
    obtain ⟨coinbase', rest', hv'⟩ := validateBlock_eq_ok.1 hvalid'
    have hids := hv.ids_eq
    have hids' := hv'.ids_eq
    have hroot := hv.root_eq
    have hroot' := hv'.root_eq
    have hnodup := hv.nodup_ids
    have hnodup' := hv'.nodup_ids
    simp only [blockTexts, cons_append, forall_mem_cons, forall_mem_append] at htexts htexts'
    rw [hids] at htexts hroot hnodup ⊢
    rw [hids'] at htexts' hroot' hnodup' ⊢
    have hheader : utf8 (serializeHeader block.header) = utf8 (serializeHeader block'.header) := by
      refine hS _ htexts.1 _ htexts'.1 ?_
      exact hv.header.hash_eq.trans (hhash.trans hv'.header.hash_eq.symm)
    have hprevious : hexOf 64 block.header.previousHash := hv.header.previousHash_eq ▸ hparent
    have hprevious' : hexOf 64 block'.header.previousHash := hv'.header.previousHash_eq ▸ hparent'
    have hrooteq := merkleRoot_of_serializeHeader hprevious hprevious'
      (hexOf_of_merkleRoot hroot hexOf_of_mem_map_sha256)
      (hexOf_of_merkleRoot hroot' hexOf_of_mem_map_sha256) hheader
    have hpre : ∀ {txs : List Transaction},
        (∀ t ∈ txs.map fun tx => serializeTransactionBody tx.toUnsignedTransactionBody, t ∈ S) →
        ∀ t ∈ txs.map fun tx => serializeTransactionBody tx.toUnsignedTransactionBody,
          t ∈ S ∧ ¬hexOf 128 t := by
      intro txs hmem t ht
      refine ⟨hmem t ht, ?_⟩
      obtain ⟨tx, -, rfl⟩ := mem_map.1 ht
      exact not_hexOf_serializeTransactionBody _ _
    rw [← hrooteq] at hroot'
    exact merkleRoot_inj hS (hpre htexts.2.1) (hpre htexts'.2.1) hnodup hnodup' htexts.2.2 htexts'.2.2
      hroot hroot'

/-- Two hashes and the first of them have different roots. -/
theorem merkleRoot_commits_two :
    merkleRoot [sha256 (lit "a"), sha256 (lit "b")] ≠ merkleRoot [sha256 (lit "a")] := by
  have hcoll : NoCollision {t | t ∈ [lit "a", lit "b", sha256 (lit "a") ++ sha256 (lit "b")]} := by
    have hall : ∀ a ∈ [lit "a", lit "b", sha256 (lit "a") ++ sha256 (lit "b")],
        ∀ b ∈ [lit "a", lit "b", sha256 (lit "a") ++ sha256 (lit "b")],
          sha256 a = sha256 b → utf8 a = utf8 b := by decide +kernel
    exact hall
  intro heq
  have hlists := (merkleRoot_commits hcoll).1 [lit "a", lit "b"] [lit "a"] (by simp) (by simp)
    (by decide +kernel) (by decide +kernel) (by decide +kernel) (by simp) (by decide +kernel)
    (by decide +kernel) heq
  cases hlists

/-! ## Proofs -/

/-- The loop of `merkleProof`: the sibling on each level on the way up from an index. A
    node without one is its own. -/
def proofSteps : ℕ → List Text → ℕ → List Sibling
  | fuel + 1, left :: right :: level, i =>
    let level := left :: right :: level
    let sibling := (level[if i % 2 = 0 then i + 1 else i - 1]?).getD (level[i]?.getD [])
    { hash := sibling, right := i % 2 = 0 } :: proofSteps fuel (nextLevel level) (i / 2)
  | _, _, _ => []

/-- The siblings needed to recompute the root from the hash at an index, bottom up. -/
def merkleProof (hashes : List Text) (index : Number) : Except Text (List Sibling) :=
  if hashes = [] then .error (lit "merkleProof: cannot prove membership in an empty list")
  else
    match index with
    | .int z =>
      if 0 ≤ z ∧ z < hashes.length then .ok (proofSteps hashes.length hashes z.toNat)
      else .error (lit "merkleProof: index " ++ index.toText ++ lit " out of range for "
        ++ decimal hashes.length ++ lit " leaves")
    | .other _ _ => .error (lit "merkleProof: index " ++ index.toText ++ lit " out of range for "
        ++ decimal hashes.length ++ lit " leaves")

/-- A sibling as it is sent. -/
def Sibling.toValue (sibling : Sibling) : Value :=
  .obj [(lit "hash", .str sibling.hash),
    (lit "position", .str (if sibling.right then lit "right" else lit "left"))]

theorem siblingOf_toValue {sibling : Sibling} (h : hexOf 64 sibling.hash) :
    siblingOf sibling.toValue = .ok (some sibling) := by
  have hhash : hashText (.str sibling.hash) = .ok (some sibling.hash) := hashText_eq_ok.2 ⟨rfl, h⟩
  have hread : sibling.toValue.read (lit "hash") = .ok (.str sibling.hash) := rfl
  have hposition : sibling.toValue.get (lit "position") =
      .str (if sibling.right then lit "right" else lit "left") := rfl
  obtain ⟨hash, right⟩ := sibling
  simp only [siblingOf, hread, hposition, bind, Except.bind, hhash]
  cases right <;> rfl

/-- The proof of an index folds its hash up to where the loop of `merkleRoot` climbs. -/
theorem foldProof_proofSteps {i : ℕ} {leaf : Text} (hlen : level.length ≤ fuel + 1)
    (hhex : ∀ t ∈ level, hexOf 64 t) (hi : level[i]? = some leaf) :
    foldProof leaf ((proofSteps fuel level i).map Sibling.toValue) = .ok (some (climb fuel level)) := by
  -- The index stays that of the hash reached, on every level.
  induction fuel generalizing level i leaf with
  | zero =>
    match level, i with
    | [], _ => cases hi
    | [t], 0 =>
      cases hi
      rfl
  | succ fuel ih =>
    match level, i with
    | [], _ => cases hi
    | [t], 0 =>
      cases hi
      rfl
    | left :: right :: level, i =>
      rw [proofSteps, climb, map_cons, foldProof]
      set sibling : Sibling :=
        { hash := ((left :: right :: level)[if i % 2 = 0 then i + 1 else i - 1]?).getD
            ((left :: right :: level)[i]?.getD [])
          right := i % 2 = 0 } with hsibling
      have hsib : hexOf 64 sibling.hash := by
        rw [hsibling]
        dsimp only
        rw [hi, Option.getD_some]
        cases hget : (left :: right :: level)[if i % 2 = 0 then i + 1 else i - 1]? with
        | none => exact hhex _ (mem_of_getElem? hi)
        | some t => exact hhex _ (mem_of_getElem? hget)
      have hup : (nextLevel (left :: right :: level))[i / 2]? = some (sha256 (sibling.beside leaf)) := by
        rw [nextLevel_eq, HashTree.getElem?_up _ i leaf hi, hsibling, Sibling.beside]
        by_cases heven : i % 2 = 0
        · simp only [heven, if_true, decide_true, hi, Option.getD_some]
          rfl
        · have hlt := (List.getElem?_eq_some_iff.1 hi).1
          have hleft : i - 1 < (left :: right :: level).length := by omega
          simp only [heven, if_false, decide_false, getElem?_eq_getElem hleft, Option.getD_some,
            Option.map_some]
          rfl
      have hnext : (nextLevel (left :: right :: level)).length ≤ fuel + 1 := by
        rw [length_nextLevel]
        simp only [length_cons] at hlen ⊢
        omega
      rw [siblingOf_toValue hsib]
      exact ih hnext hexOf_nextLevel hup

/-- What an accepted proof goes up through. -/
theorem fold_of_foldProof {S : Set Text} {steps : List Value} {leaf : Text} (hleaf : hexOf 64 leaf)
    (hS : ∀ t ∈ foldTexts leaf steps, t ∈ S) (h : foldProof leaf steps = .ok (some root)) :
    ∃ siblings, HashTree.Fold joinHashes (Hashed S) leaf siblings root := by
  induction steps generalizing leaf with
  | nil =>
    cases h
    exact ⟨[], .nil _⟩
  | cons step steps ih =>
    rw [foldProof, bind_eq_ok] at h
    obtain ⟨found, hfound, h⟩ := h
    cases found with
    | none => cases h
    | some sibling =>
      rw [foldTexts, hfound] at hS
      obtain ⟨htext, hrest⟩ := forall_mem_cons.1 hS
      obtain ⟨siblings, hfold⟩ := ih (hexOf_sha256 _) hrest h
      have hsib := siblingOf_hexOf hfound
      obtain ⟨hash, right⟩ := sibling
      refine ⟨(hash, right) :: siblings, .cons ?_ ?_⟩
      · cases right with
        | true => exact ⟨htext, hleaf, hsib⟩
        | false => exact ⟨htext, hsib, hleaf⟩
      · cases right with
        | true => exact hfold
        | false => exact hfold

/-- The proof that is made for an index of a list of hashes is accepted. -/
theorem merkleProof_verified {ids : List Text} {i : ℕ} {id : Text} (hhex : ∀ t ∈ ids, hexOf 64 t)
    (hi : ids[i]? = some id) :
    ∃ proof root, merkleProof ids (.ofNat i) = .ok proof ∧ merkleRoot ids = .ok root ∧
      verifyMerkleProof (.str id) (.arr (proof.map Sibling.toValue)) root = .ok true := by
  have hlt := (List.getElem?_eq_some_iff.1 hi).1
  have hne : ids ≠ [] := ne_nil_of_length_pos (Nat.zero_lt_of_lt hlt)
  have hroot : merkleRoot ids = .ok (climb ids.length ids) := if_neg hne
  have hproof : merkleProof ids (.ofNat i) = .ok (proofSteps ids.length ids i) := by
    unfold merkleProof Number.ofNat
    rw [if_neg hne]
    exact if_pos ⟨Int.natCast_nonneg i, Int.ofNat_lt.2 hlt⟩
  refine ⟨_, _, hproof, hroot, verifyMerkleProof_eq_true.2 ⟨hexOf_of_merkleRoot hroot hhex, id, _, rfl,
    hhex id (mem_of_getElem? hi), rfl, foldProof_proofSteps (Nat.le_succ _) hhex hi, ?_⟩⟩
  -- There is no sibling where there is no other id.
  intro hnil
  have hfold := foldProof_proofSteps (Nat.le_succ _) hhex hi
  rw [hnil] at hfold
  cases hfold
  rfl

/-- The proof that is made for an id of a list is accepted for it. Without collisions
    among the texts that are hashed, where the ids are those of transactions, a proof of
    any form is accepted for the id of a transaction only if it is in the list. -/
theorem merkleProof_correct :
    (∀ (ids : List Text) (i : ℕ) (id : Text), (∀ t ∈ ids, hexOf 64 t) → ids[i]? = some id →
      ∃ proof root, merkleProof ids (.ofNat i) = .ok proof ∧ merkleRoot ids = .ok root ∧
        verifyMerkleProof (.str id) (.arr (proof.map Sibling.toValue)) root = .ok true) ∧
    ∀ (S : Set Text) (bodies : List UnsignedTransactionBody) (tx : Transaction) (proof : Value)
      (root : Text), NoCollision S →
      (∀ body ∈ bodies, serializeTransactionBody body ∈ S) →
      serializeTransactionBody tx.toUnsignedTransactionBody ∈ S →
      (∀ t ∈ merkleTexts (bodies.map computeTransactionId), t ∈ S) →
      proofTexts (.str tx.id) proof ⊆ S →
      tx.id = computeTransactionId tx.toUnsignedTransactionBody →
      merkleRoot (bodies.map computeTransactionId) = .ok root →
      verifyMerkleProof (.str tx.id) proof root = .ok true →
      tx.id ∈ bodies.map computeTransactionId := by
  constructor
  · intro ids i id hhex hi
    exact merkleProof_verified hhex hi
  · intro S bodies tx proof root hS hbodies htx htexts hproof hid hroot hverify
    have hids : bodies.map computeTransactionId = (bodies.map serializeTransactionBody).map sha256 := by
      rw [map_map]
      rfl
    obtain ⟨-, t, steps, htext, hhex, hsteps, hfold, -⟩ := verifyMerkleProof_eq_true.1 hverify
    cases htext
    obtain ⟨siblings, hsiblings⟩ := fold_of_foldProof hhex
      (fun t ht => hproof ⟨tx.id, steps, rfl, hsteps, ht⟩) hfold
    rw [hids] at hroot htexts ⊢
    obtain ⟨hne, rfl⟩ := merkleRoot_eq_ok hroot
    obtain ⟨d, hrooted⟩ := rooted_climb hne (Nat.le_succ _) hexOf_of_mem_map_sha256 htexts
    refine hrooted.mem_of_fold (injective_joinHashes hS) hsiblings (fun y hy => ?_) ?_
    · obtain ⟨s, hs, rfl⟩ := mem_map.1 hy
      obtain ⟨body, hbody, rfl⟩ := mem_map.1 hs
      exact not_joint hS (hbodies body hbody) (not_hexOf_serializeTransactionBody body _)
    · rw [hid]
      exact not_joint hS htx (not_hexOf_serializeTransactionBody _ _)

/-- A body with one output. -/
def payingBody (amount : ℤ) : UnsignedTransactionBody :=
  { inputs := [], outputs := [⟨lit "a", amount⟩], timestamp := .ofNat 1, fee := 0, data := none }

/-- The ids of two transactions. -/
def twoIds : List Text := [payingBody 1, payingBody 2].map computeTransactionId

/-- The second of two ids is proved with one sibling, and what that proof is accepted for
    is one of the two. -/
theorem merkleProof_correct_two : ∃ sibling root,
    merkleProof twoIds (.ofNat 1) = .ok [sibling] ∧ merkleRoot twoIds = .ok root ∧
    verifyMerkleProof (.str (payingBody 2).identified.id) (.arr [sibling.toValue]) root = .ok true ∧
    (payingBody 2).identified.id ∈ twoIds := by
  have hhex : ∀ t ∈ twoIds, hexOf 64 t := by
    intro t ht
    obtain ⟨body, -, rfl⟩ := mem_map.1 ht
    exact hexOf_sha256 _
  obtain ⟨proof, root, hproof, hroot, hverify⟩ :=
    merkleProof_correct.1 twoIds 1 (payingBody 2).identified.id hhex rfl
  obtain rfl : proof = [⟨(payingBody 1).identified.id, false⟩] := (Except.ok.inj hproof).symm
  -- Three texts are hashed: the two bodies, and the two ids together.
  let texts := [serializeTransactionBody (payingBody 1), serializeTransactionBody (payingBody 2),
    (payingBody 1).identified.id ++ (payingBody 2).identified.id]
  have hreads : (texts.map sha256).Nodup ∧ (∀ t ∈ merkleTexts twoIds, t ∈ texts) ∧
      ∀ t ∈ foldTexts (payingBody 2).identified.id
        [Sibling.toValue ⟨(payingBody 1).identified.id, false⟩], t ∈ texts := by decide +kernel
  obtain ⟨hnodup, hmerkle, hfold⟩ := hreads
  refine ⟨_, root, hproof, hroot, hverify, ?_⟩
  refine merkleProof_correct.2 {t | t ∈ texts} _ (payingBody 2).identified _ root ?_ ?_ ?_ hmerkle ?_
    rfl hroot hverify
  · intro t ht t' ht' hhash
    rw [inj_on_of_nodup_map hnodup ht ht' hhash]
  · simp [texts]
  · exact mem_cons_of_mem _ mem_cons_self
  · rintro t ⟨_, _, ⟨⟩, ⟨⟩, ht⟩
    exact hfold t ht

end Plainchain
