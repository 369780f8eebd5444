import Plainchain.Node.Handlers
import Plainchain.Wallet.Spv

/-!
# Turns of authorities

`PoaEngine` of `src/consensus/engine.ts`: no authority signs more than one of any
`n / 2 + 1` consecutive blocks. The engine is given the signers before a header, and
compares with these only. A node collects them along the ancestry of the parent
(`recentSignersFor` of `src/node/node.ts`), a light client from the headers it holds
(`verifyFrom` of `src/wallet/spv.ts`); both skip headers without a signer, which only
genesis may be.

* `Supplies`: what the two collect, which is the same (`Supplies.eq_recentSigners`);
* `AcceptedChain`: a chain that was accepted header by header;
* `authorities_take_turns`: no minority of the authorities can run such a chain.
-/

/-! ## Windows without repetitions

A list no element of which is among the `k` before it is `Spread k`: any `k + 1`
consecutive elements are distinct. Hence a run of elements of a set of at most `k`
is no longer than the set is large. -/

namespace List

variable {α : Type*}

/-- No element is equal to one of the `k` elements before it. -/
def Spread (k : ℕ) (l : List α) : Prop :=
  ∀ i j a, i < j → j ≤ i + k → l[j]? = some a → l[i]? ≠ some a

variable {k : ℕ} {l run : List α}

theorem Spread.of_isInfix (h : l.Spread k) (hrun : run <:+: l) : run.Spread k := by
  obtain ⟨before, after, rfl⟩ := hrun
  have hget : ∀ {i a}, run[i]? = some a → (before ++ run ++ after)[before.length + i]? = some a := by
    intro i a hi
    have hlt : i < run.length := (List.getElem?_eq_some_iff.1 hi).1
    rw [append_assoc, getElem?_append_right (Nat.le_add_right _ _),
      Nat.add_sub_cancel_left, getElem?_append_left hlt, hi]
  intro i j a hlt hle hj hi
  exact h _ _ a (Nat.add_lt_add_left hlt _) (by omega) (hget hj) (hget hi)

/-- The elements of a window are distinct. -/
theorem Spread.nodup (h : l.Spread k) (hlen : l.length ≤ k + 1) : l.Nodup := by
  rw [nodup_iff_getElem?_ne_getElem?]
  intro i j hlt hj heq
  have hget : l[j]? = some l[j] := getElem?_eq_getElem hj
  exact h i j l[j] hlt (by omega) hget (heq.trans hget)

/-- A run of elements of a small set is no longer than the set is large: its first
    elements would be distinct. -/
theorem Spread.length_le (h : l.Spread k) (s : Finset α) (hs : s.card ≤ k) (hl : ∀ a ∈ l, a ∈ s) :
    l.length ≤ s.card := by
  classical
  by_contra hlong
  have hpre : l.take (s.card + 1) <:+: l := (List.take_prefix _ _).isInfix
  have hlen : (l.take (s.card + 1)).length = s.card + 1 := by
    rw [length_take]
    omega
  have hnodup : (l.take (s.card + 1)).Nodup := (h.of_isInfix hpre).nodup (by omega)
  have hsub : (l.take (s.card + 1)).toFinset ⊆ s := fun a ha =>
    hl a (mem_of_mem_take (mem_toFinset.1 ha))
  have hcard := Finset.card_le_card hsub
  rw [toFinset_card_of_nodup hnodup, hlen] at hcard
  omega

end List

namespace Plainchain

open Js Kv List

/-! ## The seal -/

/-- What a seal satisfies: an authority signed, and none of the signers before is the
    same. -/
theorem verifyAuthority_eq_ok {S : SignatureScheme} {authorities : Authorities}
    {header : BlockHeader} {signers : List Text}
    (h : ConsensusEngine.verifyAuthority S authorities header signers = .ok ()) :
    ∃ signer ∈ authorities.list, header.signer = some signer ∧
      signer ∉ signers.take (authorities.list.length / 2) := by
  rw [ConsensusEngine.verifyAuthority] at h
  split at h
  · cases h
  next signer hsigner =>
  simp only [seq_eq_ok, refuse_eq_ok, not_not] at h
  obtain ⟨hmem, h⟩ := h
  split at h
  · cases h
  simp only [seq_eq_ok, refuse_eq_ok, not_not] at h
  exact ⟨signer, hmem, hsigner, h.2⟩

/-- A block weighs one or two. -/
theorem blockWork_poa (authorities : Authorities) (header : BlockHeader) :
    ∃ work, (ConsensusEngine.poa authorities).blockWork header = .ok work ∧ 1 ≤ work ∧ work ≤ 2 := by
  rw [ConsensusEngine.blockWork]
  split_ifs
  · exact ⟨_, rfl, by decide, by decide⟩
  · exact ⟨_, rfl, by decide, by decide⟩

theorem chainWork_poa (authorities : Authorities) (chain : List ChainHeader) :
    ∃ work, chainWork (.poa authorities) chain = .ok work ∧ chain.length ≤ work ∧
      work ≤ 2 * chain.length := by
  -- The loop adds to what it has summed so far.
  have hloop : ∀ (chain : List ChainHeader) (start : ℕ), ∃ work,
      chain.foldlM (fun work c => do
        pure (work + (← (ConsensusEngine.poa authorities).blockWork c.header))) start =
        (.ok (start + work) : Except Text ℕ) ∧ chain.length ≤ work ∧ work ≤ 2 * chain.length := by
    intro chain
    induction chain with
    | nil => exact fun start => ⟨0, rfl, le_rfl, le_rfl⟩
    | cons c chain ih =>
      intro start
      obtain ⟨added, hadded, hlow, hhigh⟩ := blockWork_poa authorities c.header
      obtain ⟨work, hwork, hlow', hhigh'⟩ := ih (start + added)
      refine ⟨added + work, ?_, ?_, ?_⟩
      · rw [foldlM_cons, hadded, ← Nat.add_assoc]
        exact hwork
      · rw [length_cons]
        omega
      · rw [length_cons]
        omega
  obtain ⟨work, hwork, hbounds⟩ := hloop chain 0
  rw [Nat.zero_add] at hwork
  exact ⟨work, hwork, hbounds⟩

/-! ## The signers before a header -/

section Known

variable {opts : NodeOptions} {H : Set BlockHeader} {w : World} {batch : OrdMap Text BlockHeader}

/-- What a node finds by a hash is a header of that hash, and from it, unless it is at
    height `0`, its parent is found. -/
theorem Sound.lookupHeader (hs : Sound opts H w)
    (hbatch : ∀ hash header, batch.get hash = some header →
      (w.headers.get hash).map (·.header) = some header) {hash : Text} {header : BlockHeader}
    (hfound : lookupHeader w.chain w.headers batch hash = some header) :
    computeBlockHash header = hash ∧ header ∈ H ∧ (header.height ≠ 0 →
      (Plainchain.lookupHeader w.chain w.headers batch header.previousHash).isSome) := by
  have hindexed : ∀ {entry : IndexedHeader}, w.headers.get hash = some entry →
      computeBlockHash entry.header = hash ∧ entry.header ∈ H ∧ (entry.header.height ≠ 0 →
        (Plainchain.lookupHeader w.chain w.headers batch entry.header.previousHash).isSome) := by
    intro entry he
    obtain ⟨hhash, hmem⟩ := hs.indexed.hashed _ _ he
    refine ⟨hhash, hmem, fun h0 => ?_⟩
    rcases hs.indexed.linked _ _ he with hgen | ⟨parent, _, hp, -⟩
    · obtain ⟨work, -, hg⟩ := hs.indexed.genesis
      rw [hgen, hg] at he
      cases he
      exact absurd (genesis_height opts) h0
    · simp [Plainchain.lookupHeader, hp]
  rw [Plainchain.lookupHeader, Option.or_eq_some_iff, Option.or_eq_some_iff] at hfound
  rcases hfound with (hb | ⟨-, he⟩) | ⟨-, hb⟩
  · obtain ⟨entry, he, rfl⟩ := Option.map_eq_some_iff.1 (hbatch _ _ hb)
    exact hindexed he
  · obtain ⟨entry, hentry, rfl⟩ := Option.map_eq_some_iff.1 he
    exact hindexed hentry
  · obtain ⟨block, hblock, rfl⟩ := Option.map_eq_some_iff.1 hb
    obtain ⟨hhash, hmem⟩ := hs.stored.hashed _ _ hblock
    refine ⟨hhash, hmem, fun h0 => ?_⟩
    obtain ⟨parent, hp, -⟩ := hs.stored.linked _ _ hblock h0
    simp [Plainchain.lookupHeader, hp]

end Known

/-- The signers that are collected for the header after a chain: by a light client that
    holds the chain, or by a node that knows its last header, in any state that the node
    passes through. The headers of a batch are indexed as they are validated. -/
inductive Supplies (authorities : Authorities) (chain : List ChainHeader) : List Text → Prop
  | client : Supplies authorities chain (recentSigners (.poa authorities) chain chain.length)
  | node {opts : NodeOptions} {H : Set BlockHeader} {s : Session} {w : World}
      {batch : OrdMap Text BlockHeader} {last : ChainHeader} :
      opts.engine = .poa authorities → Set.InjOn computeBlockHash H →
      (∀ c ∈ chain, computeBlockHash c.header = c.hash ∧ c.header ∈ H) →
      Reachable opts H s → Trace opts H (fun _ _ => True) s.toWorld w →
      (∀ hash header, batch.get hash = some header →
        (w.headers.get hash).map (·.header) = some header) →
      chain.getLast? = some last →
      lookupHeader w.chain w.headers batch last.hash = some last.header →
      Supplies authorities chain (recentSignersFor opts w.chain w.headers batch last.hash)

/-- A chain accepted header by header, from a header at height `0` on: each is valid
    after the last one, by the engine and the signers that are supplied. -/
inductive AcceptedChain (S : SignatureScheme) (authorities : Authorities) : List ChainHeader → Prop
  | genesis {first : ChainHeader} : first.header.height = 0 → AcceptedChain S authorities [first]
  | next {chain : List ChainHeader} {last c : ChainHeader} {ctx : HeaderValidationContext}
      {signers : List Text} : AcceptedChain S authorities chain → chain.getLast? = some last →
      Supplies authorities chain signers → ctx.parent = last →
      ctx.engine = some (.poa authorities) → ctx.recentSigners = some signers →
      validateHeader S c.header c.hash ctx = .ok () → AcceptedChain S authorities (chain ++ [c])

section Turns

variable {S : SignatureScheme} {authorities : Authorities} {chain : List ChainHeader}

/-- The headers of a chain are in line. -/
structure Unbroken (chain : List ChainHeader) : Prop where
  heights : ∀ (i : ℕ) (c : ChainHeader), chain[i]? = some c → c.header.height = i
  links : ∀ (i : ℕ) (p c : ChainHeader), chain[i]? = some p → chain[i + 1]? = some c →
    c.header.previousHash = p.hash

/-- A node that knows the last header of a chain finds all of them. -/
theorem Unbroken.resolves {opts : NodeOptions} {H : Set BlockHeader} {w : World}
    {batch : OrdMap Text BlockHeader} {last : ChainHeader} (h : Unbroken chain) (hs : Sound opts H w)
    (hinj : Set.InjOn computeBlockHash H)
    (hchain : ∀ c ∈ chain, computeBlockHash c.header = c.hash ∧ c.header ∈ H)
    (hbatch : ∀ hash header, batch.get hash = some header →
      (w.headers.get hash).map (·.header) = some header)
    (hlast : chain.getLast? = some last)
    (hknown : lookupHeader w.chain w.headers batch last.hash = some last.header) :
    Resolves w.chain w.headers batch chain := by
  -- One step back, from a header that is found.
  have hback : ∀ i c, chain[i + 1]? = some c →
      lookupHeader w.chain w.headers batch c.hash = some c.header →
      ∃ p, chain[i]? = some p ∧ p.hash = c.header.previousHash ∧
        lookupHeader w.chain w.headers batch p.hash = some p.header := by
    intro i c hc hfound
    have hlt : i + 1 < chain.length := (List.getElem?_eq_some_iff.1 hc).1
    have hp : chain[i]? = some chain[i] := getElem?_eq_getElem (by omega)
    have hlink := h.links i _ c hp hc
    obtain ⟨-, -, hparent⟩ := hs.lookupHeader hbatch hfound
    obtain ⟨header, hheader⟩ := Option.isSome_iff_exists.1
      (hparent (by rw [h.heights _ c hc]; exact Nat.succ_ne_zero i))
    obtain ⟨hhash, hmem, -⟩ := hs.lookupHeader hbatch hheader
    obtain ⟨hphash, hpmem⟩ := hchain _ (mem_of_getElem? hp)
    refine ⟨_, hp, hlink.symm, ?_⟩
    rw [← hlink, hheader, hinj hmem hpmem (by rw [hhash, hlink, hphash])]
  -- Back from the last one.
  have hall : ∀ steps i c, chain[i]? = some c → i + steps + 1 = chain.length →
      lookupHeader w.chain w.headers batch c.hash = some c.header := by
    intro steps
    induction steps with
    | zero =>
      intro i c hc hi
      rw [getLast?_eq_getElem?, ← hi, Nat.add_sub_cancel, Nat.add_zero, hc] at hlast
      cases hlast
      exact hknown
    | succ steps ih =>
      intro i c hc hi
      have hnext : chain[i + 1]? = some chain[i + 1] := getElem?_eq_getElem (by omega)
      obtain ⟨p, hp, -, hfound⟩ := hback i _ hnext (ih (i + 1) _ hnext (by omega))
      rw [hc] at hp
      cases hp
      exact hfound
  refine ⟨h.heights, fun i c hc => ?_⟩
  have hlt : i + 1 < chain.length := (List.getElem?_eq_some_iff.1 hc).1
  obtain ⟨p, hp, hhash, hfound⟩ := hback i c hc (hall (chain.length - i - 2) (i + 1) c hc (by omega))
  exact ⟨p, hp, by rw [← hhash, hfound]⟩

/-- Nodes and light clients collect the same signers. -/
theorem Supplies.eq_recentSigners (h : Unbroken chain) {signers : List Text}
    (hs : Supplies authorities chain signers) :
    signers = recentSigners (.poa authorities) chain chain.length := by
  cases hs with
  | client => rfl
  | @node opts H s w batch last hengine hinj hchain hr ht hbatch hlast hknown =>
    have hresolves := h.resolves (ht.sound hinj (hr.sound hinj)) hinj hchain hbatch hlast hknown
    rw [getLast?_eq_getElem?] at hlast
    have hlt := (List.getElem?_eq_some_iff.1 hlast).1
    have hpos : chain.length - 1 + 1 = chain.length := by omega
    rw [recentSignersFor, hknown, hresolves.signersFrom_eq hlast, recentSigners, signersBefore,
      hengine, hpos]

/-- A header that was signed lately is among the signers. -/
theorem mem_recentSigners {i : ℕ} {p : ChainHeader} {signer : Text} (hp : chain[i]? = some p)
    (hsigner : p.header.signer = some signer)
    (hrecent : chain.length ≤ i + authorities.list.length / 2) :
    signer ∈ (recentSigners (.poa authorities) chain chain.length).take
      (authorities.list.length / 2) := by
  have hlt : i < chain.length := (List.getElem?_eq_some_iff.1 hp).1
  rw [recentSigners, signersBefore, take_length, take_of_length_le]
  · refine mem_filterMap.2 ⟨p, mem_reverse.2 ?_, hsigner⟩
    refine mem_of_getElem? (i := i - (chain.length - authorities.list.length / 2)) ?_
    rw [getElem?_drop]
    change chain[chain.length - authorities.list.length / 2 +
      (i - (chain.length - authorities.list.length / 2))]? = some p
    rw [← hp]
    congr 1
    omega
  · refine (length_filterMap_le _ _).trans ?_
    rw [length_reverse, length_drop]
    change chain.length - (chain.length - authorities.list.length / 2) ≤ _
    omega

/-- A chain whose headers after the first are signed by authorities, none of which
    signed one of the `n / 2` headers before. -/
structure TakesTurns (authorities : Authorities) (chain : List ChainHeader) : Prop extends
    Unbroken chain where
  signed : ∀ c ∈ chain.tail, ∃ a ∈ authorities.list, c.header.signer = some a
  spread : (chain.map (·.header.signer)).Spread (authorities.list.length / 2)

/-- One more header, by an authority that may sign. -/
theorem TakesTurns.next (h : TakesTurns authorities chain) {last c : ChainHeader}
    (hlast : chain.getLast? = some last) (hprev : c.header.previousHash = last.hash)
    (hheight : c.header.height = last.header.height + 1)
    (hseal : ConsensusEngine.verifyAuthority S authorities c.header
      (recentSigners (.poa authorities) chain chain.length) = .ok ()) :
    TakesTurns authorities (chain ++ [c]) := by
  obtain ⟨signer, hmem, hsigner, hrecent⟩ := verifyAuthority_eq_ok hseal
  have hlast' := hlast
  rw [getLast?_eq_getElem?] at hlast'
  have hpos : 0 < chain.length := by
    have := (List.getElem?_eq_some_iff.1 hlast').1
    omega
  have hend : ∀ {i : ℕ} {d : ChainHeader}, (chain ++ [c])[i]? = some d →
      chain[i]? = some d ∨ (i = chain.length ∧ d = c) := by
    intro i d hd
    rcases Nat.lt_or_ge i chain.length with hlt | hge
    · rw [getElem?_append_left hlt] at hd
      exact .inl hd
    · rw [getElem?_append_right hge, getElem?_singleton] at hd
      split at hd
      · cases hd
        exact .inr ⟨by omega, rfl⟩
      · cases hd
  refine ⟨⟨fun i d hd => ?_, fun i p d hp hd => ?_⟩, fun d hd => ?_, fun i j a hlt hle hj hi => ?_⟩
  · rcases hend hd with hd | ⟨rfl, rfl⟩
    · exact h.heights i d hd
    · rw [hheight, h.heights _ _ hlast']
      omega
  · rcases hend hd with hd' | ⟨hi, rfl⟩
    · have hlt : i + 1 < chain.length := (List.getElem?_eq_some_iff.1 hd').1
      rw [getElem?_append_left (by omega)] at hp
      exact h.links i p d hp hd'
    · rw [getElem?_append_left (by omega)] at hp
      rw [show chain.length - 1 = i by omega, hp] at hlast'
      cases hlast'
      exact hprev
  · rw [tail_append_of_ne_nil (ne_nil_of_length_pos hpos)] at hd
    rcases mem_append.1 hd with hd | hd
    · exact h.signed d hd
    · cases mem_singleton.1 hd
      exact ⟨signer, hmem, hsigner⟩
  · rw [getElem?_map, Option.map_eq_some_iff] at hi hj
    obtain ⟨d, hd, hda⟩ := hj
    obtain ⟨p, hp, hpa⟩ := hi
    rcases hend hd with hd' | ⟨rfl, rfl⟩
    · have hjlt : j < chain.length := (List.getElem?_eq_some_iff.1 hd').1
      rw [getElem?_append_left (by omega)] at hp
      refine h.spread i j a hlt hle ?_ ?_
      · rw [getElem?_map, hd', Option.map_some, hda]
      · rw [getElem?_map, hp, Option.map_some, hpa]
    · -- The header is the new one: its signer is not one of the recent ones.
      rw [getElem?_append_left hlt] at hp
      rw [hsigner] at hda
      cases hda
      exact hrecent (mem_recentSigners hp hpa hle)

theorem AcceptedChain.takesTurns (h : AcceptedChain S authorities chain) : TakesTurns authorities chain := by
  induction h with
  | @genesis first h0 =>
    refine ⟨⟨fun i c hc => ?_, fun i p c _ hc => ?_⟩, by simp, fun i j a hlt _ hj => ?_⟩
    · rw [getElem?_singleton] at hc
      split at hc
      · next hi =>
        cases hc
        rw [h0, hi]
      · cases hc
    · simp at hc
    · rw [map_singleton, getElem?_singleton, if_neg (by omega)] at hj
      cases hj
  | @next chain last c ctx signers _ hlast hsupplies hparent hengine hrecent hvalid ih =>
    have hv := validateHeader_eq_ok.1 hvalid
    have hseal := hv.seal_ok
    rw [hengine, hrecent, hsupplies.eq_recentSigners ih.toUnbroken] at hseal
    exact ih.next hlast (hparent ▸ hv.previousHash_eq) (hparent ▸ hv.height_eq) hseal

/-- No minority of the authorities can run the chain. Any `n / 2 + 1` consecutive
    headers but genesis are signed by authorities, all of them different; a run of blocks
    signed by members of a set of at most `n / 2` authorities is no longer than the set
    is large; and `m` consecutive blocks are of work between `m` and `2 * m`. -/
theorem authorities_take_turns (h : AcceptedChain S authorities chain) :
    (∀ run, run <:+: chain.tail → run.length ≤ authorities.list.length / 2 + 1 →
      (run.map (·.header.signer)).Nodup ∧
      ∀ c ∈ run, ∃ a ∈ authorities.list, c.header.signer = some a) ∧
    (∀ (K : Finset Text) (run : List ChainHeader), K.card ≤ authorities.list.length / 2 →
      run <:+: chain → (∀ c ∈ run, ∃ a ∈ K, c.header.signer = some a) → run.length ≤ K.card) ∧
    ∀ run, run <:+: chain → ∃ work, chainWork (.poa authorities) run = .ok work ∧
      run.length ≤ work ∧ work ≤ 2 * run.length := by
  have hturns := h.takesTurns
  refine ⟨fun run hrun hlen => ?_, fun K run hK hrun hsigned => ?_, fun run _ => ?_⟩
  · have hwithin : run <:+: chain := hrun.trans (tail_suffix chain).isInfix
    refine ⟨(hturns.spread.of_isInfix (hwithin.map _)).nodup (by rwa [length_map]),
      fun c hc => hturns.signed c (hrun.subset hc)⟩
  · have hlen := (hturns.spread.of_isInfix (hrun.map _)).length_le (K.map Function.Embedding.some) (by rwa [Finset.card_map]) ?_
    · rwa [length_map, Finset.card_map] at hlen
    · intro signer hmem
      obtain ⟨c, hc, rfl⟩ := mem_map.1 hmem
      obtain ⟨a, ha, hca⟩ := hsigned c hc
      exact Finset.mem_map.2 ⟨a, ha, hca.symm⟩
  · exact chainWork_poa authorities run

end Turns

/-- Two authorities, which have to take turns. -/
def twoAuthorities : Authorities := ⟨[lit "a", lit "b"], by simp, by decide⟩

/-- A header after another one, signed by an authority. -/
def signedAfter (parent : ChainHeader) (signer : Text) : ChainHeader :=
  let header : BlockHeader :=
    { parent.header with
      previousHash := parent.hash, height := parent.header.height + 1,
      timestamp := parent.header.timestamp + 1, signer := some signer, signature := some (lit "s") }
  ⟨computeBlockHash header, header⟩

def firstTurn : ChainHeader := signedAfter ⟨sampleGenesis.hash, sampleGenesis.header⟩ (lit "a")

/-- Genesis, and a header of either authority. -/
def twoTurns : List ChainHeader :=
  [⟨sampleGenesis.hash, sampleGenesis.header⟩, firstTurn, signedAfter firstTurn (lit "b")]

/-- What a header after `parent` is judged by, where `signers` have signed before. -/
def turnContext (parent : ChainHeader) (signers : List Text) : HeaderValidationContext :=
  { parent, expectedTarget := parent.header.difficultyTarget, now := 100, maxFutureDriftMs := 0,
    checkpoint := none, engine := some (.poa twoAuthorities), recentSigners := some signers }

theorem accepted_twoTurns : AcceptedChain anySignatures twoAuthorities twoTurns := by
  have hvalid : validateHeader anySignatures firstTurn.header firstTurn.hash
      (turnContext ⟨sampleGenesis.hash, sampleGenesis.header⟩
        (recentSigners (.poa twoAuthorities) (twoTurns.take 1) 1)) = .ok () ∧
      validateHeader anySignatures (signedAfter firstTurn (lit "b")).header
        (signedAfter firstTurn (lit "b")).hash
        (turnContext firstTurn (recentSigners (.poa twoAuthorities) (twoTurns.take 2) 2)) = .ok () := by
    decide +kernel
  exact .next (.next (.genesis rfl) rfl .client rfl rfl rfl hvalid.1) rfl .client rfl rfl rfl hvalid.2

/-- One of the two cannot sign two blocks in a row. -/
theorem authorities_take_turns_two : AcceptedChain anySignatures twoAuthorities twoTurns ∧
    ∀ run, run <:+: twoTurns → (∀ c ∈ run, ∃ a ∈ ({lit "a"} : Finset Text),
      c.header.signer = some a) → run.length ≤ ({lit "a"} : Finset Text).card :=
  ⟨accepted_twoTurns, fun run => (authorities_take_turns accepted_twoTurns).2.1 _ run (by decide)⟩

end Plainchain
