import Plainchain.Lib.CommonPrefix
import Plainchain.Wallet.Spv

/-!
# Synchronising headers

What `syncHeaders` of `src/wallet/spv.ts` returns. A run has two parts: the source
offers a fork height and the headers above it (`offer`), and what it offers is
verified and weighed against the stored chain (`concludeSync`).

* `verifyHeaderChain_append`: a valid chain is a valid one with more headers that
  pass on top of it;
* `syncHeaders_safe`: what holds of every source, however it answers;
* `syncHeaders_complete_iff`: what is returned where the source serves one chain;
* `incremental_verification`: verifying what is new is verifying the whole, and a
  chain that was valid stays valid.
-/

namespace Plainchain

open Js Prog List

/-! ## Parts of valid chains -/

variable {mismatch i agreed : ℕ} {r' : HeaderChainResult} {c : ChainHeader}

section Chains

variable {S : SignatureScheme} {params : SpvParams} {engine : ConsensusEngine}
  {chain chain' additions : List ChainHeader} {r : HeaderChainResult}

/-- The height of a header in a valid chain is its position. -/
theorem height_of_verifyFrom (hgenesis : ∀ first ∈ chain.head?, first.header.height = 0)
    (h : verifyFrom S params chain 1 = .ok ()) (hc : chain[i]? = some c) : c.header.height = i := by
  obtain ⟨engine, -, hround⟩ := verifyFrom_eq_ok.1 h
  induction i generalizing c with
  | zero => exact hgenesis c (by rw [head?_eq_getElem?, hc]; rfl)
  | succ i ih =>
    have hlt : i + 1 < chain.length := (List.getElem?_eq_some_iff.1 hc).1
    have hp : chain[i]? = some chain[i] := getElem?_eq_getElem (by omega)
    obtain ⟨target, -, hvalid⟩ := (verifyAt_eq_ok hp hc).1 (hround (i + 1) (by omega) hlt)
    rw [hvalid.height_eq]
    exact congrArg (· + 1) (ih hp)

/-- A round looks at the chain up to its header only. -/
theorem verifyAt_congr (htake : chain.take (i + 1) = chain'.take (i + 1))
    (hheight : ∀ c, chain[i]? = some c → c.header.height = i) (hi : 0 < i) :
    verifyAt params engine chain S i = verifyAt params engine chain' S i := by
  have hget : ∀ j, j ≤ i → chain[j]? = chain'[j]? := by
    intro j hj
    have := congrArg (·[j]?) htake
    simpa [getElem?_take, Nat.lt_succ_of_le hj] using this
  have htake' : chain.take i = chain'.take i := by
    simpa [take_take] using congrArg (List.take i) htake
  rw [verifyAt, verifyAt, HeaderRules.verifyAt, HeaderRules.verifyAt, ← hget i le_rfl,
    ← hget (i - 1) (by omega)]
  cases hc : chain[i]? with
  | none => rfl
  | some c =>
    cases chain[i - 1]? with
    | none => rfl
    | some parent =>
      -- A retarget looks at a header below.
      have htarget : requiredTarget params engine chain c.header parent.header =
          requiredTarget params engine chain' c.header parent.header := by
        rw [requiredTarget_eq, requiredTarget_eq, retargetWindow, hheight c hc, hget _ (by omega)]
      have hcontext : ∀ target, headerContext params engine chain parent target i =
          headerContext params engine chain' parent target i := by
        simp only [headerContext, recentSigners, signersBefore, htake', implies_true]
      change (requiredTarget params engine chain c.header parent.header >>= fun target =>
        Except.mapError _ (validateHeader S c.header c.hash (headerContext _ _ _ _ target i))) = _
      rw [htarget]
      simp only [hcontext]
      rfl

theorem foldlM_sum {C : Type} {weight : C → Except Text ℕ} {cs : List C} {work total : ℕ} :
    cs.foldlM (fun work c => do pure (work + (← weight c))) work = .ok total ↔
      ∃ added, sumWork weight cs = .ok added ∧ total = work + added := by
  induction cs generalizing work total with
  | nil => simp [sumWork, pure, Except.pure, eq_comm]
  | cons c cs ih =>
    rw [sumWork, foldlM_cons, foldlM_cons]
    cases weight c with
    | error e => simp [bind, Except.bind]
    | ok b =>
      change List.foldlM _ (work + b) cs = Except.ok total ↔
        ∃ added, List.foldlM _ (0 + b) cs = Except.ok added ∧ total = work + added
      simp only [ih]
      constructor
      · rintro ⟨added, hadded, rfl⟩
        exact ⟨0 + b + added, ⟨added, hadded, rfl⟩, by omega⟩
      · rintro ⟨_, ⟨added, hadded, rfl⟩, rfl⟩
        exact ⟨added, hadded, by omega⟩

theorem chainWork_append {as bs : List ChainHeader} {work : ℕ} :
    chainWork engine (as ++ bs) = .ok work ↔
      ∃ a b, chainWork engine as = .ok a ∧ chainWork engine bs = .ok b ∧ work = a + b := by
  rw [chainWork, sumWork, foldlM_append, bind_eq_ok]
  simp only [foldlM_sum, zero_add]
  constructor
  · rintro ⟨a, ⟨_, ha, rfl⟩, b, hb, hwork⟩
    exact ⟨a, b, ha, hb, hwork⟩
  · rintro ⟨a, b, ha, hb, hwork⟩
    exact ⟨a, ⟨a, ha, rfl⟩, b, hb, hwork⟩

/-- A valid chain with headers on top is valid if these pass. -/
theorem verifyHeaderChain_append (hne : chain ≠ []) :
    verifyHeaderChain S params (chain ++ additions) = .ok r ↔
      (∃ r', verifyHeaderChain S params chain = .ok r') ∧
      verifyFrom S params (chain ++ additions) chain.length = .ok () ∧
      params.rules.headerChainResult (chain ++ additions) = .ok r := by
  obtain ⟨first, rest, rfl⟩ := exists_cons_of_ne_nil hne
  have hsame : ∀ engine (i : ℕ), first.header.height = 0 →
      (verifyFrom S params (first :: rest) 1 = .ok () ∨
        verifyFrom S params (first :: rest ++ additions) 1 = .ok ()) →
      0 < i → i < (first :: rest).length →
      verifyAt params engine (first :: rest) S i =
        verifyAt params engine (first :: rest ++ additions) S i := by
    intro engine i hgenesis hfrom hpos hi
    have htake : (first :: rest ++ additions).take (i + 1) = (first :: rest).take (i + 1) :=
      take_append_of_le_length hi
    rcases hfrom with hfrom | hfrom
    · exact verifyAt_congr htake.symm
        (fun c hc => height_of_verifyFrom (by simpa using hgenesis) hfrom hc) hpos
    · exact (verifyAt_congr htake
        (fun c hc => height_of_verifyFrom (by simpa using hgenesis) hfrom hc) hpos).symm
  simp only [verifyHeaderChain_eq_ok]
  constructor
  · rintro ⟨⟨_, _, heq, hgenesis, hhash⟩, hfrom, hresult⟩
    obtain ⟨rfl, -⟩ := cons_eq_cons.1 heq
    obtain ⟨engine, hengine, hrounds⟩ := verifyFrom_eq_ok.1 hfrom
    obtain ⟨engine', hengine', hwork, -⟩ := headerChainResult_eq_ok.1 hresult
    obtain ⟨work, _, hwork, -, -⟩ := chainWork_append.1 hwork
    refine ⟨⟨⟨((first :: rest).getLast?.map (·.header.height)).getD 0, work⟩,
      ⟨first, rest, rfl, hgenesis, hhash⟩, ?_, ?_⟩, ?_, hresult⟩
    · refine verifyFrom_eq_ok.2 ⟨engine, hengine, fun i hpos hi => ?_⟩
      rw [hsame engine i hgenesis (.inr hfrom) hpos hi]
      exact hrounds i hpos (by rw [length_append]; omega)
    · exact headerChainResult_eq_ok.2 ⟨engine', hengine', hwork, rfl⟩
    · exact verifyFrom_eq_ok.2
        ⟨engine, hengine, fun i hpos hi => hrounds i (Nat.le_trans (by simp) hpos) hi⟩
  · rintro ⟨⟨r', ⟨_, _, heq, hgenesis, hhash⟩, hfrom, -⟩, htail, hresult⟩
    obtain ⟨rfl, -⟩ := cons_eq_cons.1 heq
    refine ⟨⟨first, rest ++ additions, rfl, hgenesis, hhash⟩, ?_, hresult⟩
    obtain ⟨engine, hengine, hrounds⟩ := verifyFrom_eq_ok.1 hfrom
    obtain ⟨engine', hengine', hrounds'⟩ := verifyFrom_eq_ok.1 htail
    cases hengine.symm.trans hengine'
    refine verifyFrom_eq_ok.2 ⟨engine, hengine, fun i hpos hi => ?_⟩
    rcases Nat.lt_or_ge i (first :: rest).length with hlt | hge
    · rw [← hsame engine i hgenesis (.inl hfrom) hpos hlt]
      exact hrounds i hpos hlt
    · exact hrounds' i hge hi

theorem ne_nil_of_verifyHeaderChain (hvalid : verifyHeaderChain S params chain = .ok r) :
    chain ≠ [] := by
  obtain ⟨⟨first, rest, rfl, -, -⟩, -, -⟩ := verifyHeaderChain_eq_ok.1 hvalid
  exact cons_ne_nil first rest

/-- Extending a valid chain is verifying the longer one. -/
theorem extendHeaderChain_eq_ok (hvalid : verifyHeaderChain S params chain = .ok r) :
    extendHeaderChain S params chain additions = .ok (chain', r') ↔
      chain' = chain ++ additions ∧ verifyHeaderChain S params (chain ++ additions) = .ok r' := by
  obtain ⟨first, rest, rfl⟩ := exists_cons_of_ne_nil (ne_nil_of_verifyHeaderChain hvalid)
  rw [verifyHeaderChain_append (by simp)]
  rw [extendHeaderChain, HeaderRules.extendHeaderChain, seq_eq_ok, bind_eq_ok]
  constructor
  · rintro ⟨hfrom, _, hresult, h⟩
    cases h
    exact ⟨rfl, ⟨r, hvalid⟩, hfrom, hresult⟩
  · rintro ⟨rfl, -, hfrom, hresult⟩
    exact ⟨hfrom, r', hresult, rfl⟩

/-- A part of a valid chain from its start on is valid. -/
theorem verifyHeaderChain_take (hvalid : verifyHeaderChain S params chain = .ok r) (n : ℕ) :
    ∃ r', verifyHeaderChain S params (chain.take (n + 1)) = .ok r' := by
  have hne := ne_nil_of_verifyHeaderChain hvalid
  rw [← take_append_drop (n + 1) chain] at hvalid
  exact ((verifyHeaderChain_append (by simpa using hne)).1 hvalid).1

/-- What the result for a valid chain says. -/
theorem verifyHeaderChain_result (hvalid : verifyHeaderChain S params chain = .ok r) :
    r.tipHeight = chain.length - 1 ∧ ∃ engine,
      createEngine params.consensus.toEngineRules = .ok engine ∧
      chainWork engine chain = .ok r.totalWork := by
  obtain ⟨⟨first, rest, hchain, hgenesis, -⟩, hfrom, hresult⟩ := verifyHeaderChain_eq_ok.1 hvalid
  obtain ⟨engine, hengine, hwork, htip⟩ := headerChainResult_eq_ok.1 hresult
  refine ⟨?_, engine, hengine, hwork⟩
  have hne : chain ≠ [] := by simp [hchain]
  rw [getLast?_eq_getLast_of_ne_nil hne, getLast_eq_getElem] at htip
  rw [← htip]
  exact height_of_verifyFrom (by simpa [hchain] using hgenesis) hfrom
    (getElem?_eq_getElem _)

end Chains

/-! ## Offers -/

section Offer

variable {σ : Type} {S : SignatureScheme} {source : HeaderSource σ} {params : SpvParams}
  {stored : List ChainHeader} {pageSize fuel : ℕ}

/-- A synchronisation of stored headers takes what the source offers. -/
theorem syncHeaders_eq (hne : stored ≠ []) :
    syncHeaders S source params stored pageSize fuel =
      offer source params stored pageSize fuel >>= fun o =>
        Prog.lift (concludeSync S params stored o.1 o.2) := if_neg hne

/-! ## The search for the fork -/

variable {s s' : σ}

section Search

variable (asked : σ → ℕ)
  (hasked : ∀ fromHeight count s, asked ((source fromHeight count).exec s).2 ≤ asked s + 1)

include hasked

theorem wp_agreesAt {height : ℕ} :
    Prog.Wp (agreesAt source stored height) s (fun _ s' => asked s' ≤ asked s + 1)
      fun _ s' => asked s' ≤ asked s + 1 := by
  have h := hasked height 1 s
  rw [agreesAt, wp_bind, Prog.Wp]
  rcases hr : (source height 1).exec s with ⟨_ | page, s'⟩ <;> rw [hr] at h <;> exact h

theorem wp_bisect :
    Prog.Wp (bisect source stored agreed mismatch) s
      (fun f s' => f ≤ max agreed mismatch ∧ asked s' ≤ asked s + (mismatch - agreed - 1))
      fun _ s' => asked s' ≤ asked s + (mismatch - agreed - 1) := by
  induction agreed, mismatch using bisect.induct generalizing s with
  | case1 agreed mismatch hgap ih ih' =>
    rw [bisect, dif_pos hgap, wp_bind]
    refine (wp_agreesAt asked hasked).mono (fun agrees s' hs' => ?_) fun _ s' hs' => by omega
    split_ifs
    · exact ih.mono (fun _ _ h => by omega) fun _ _ h => by omega
    · exact ih'.mono (fun _ _ h => by omega) fun _ _ h => by omega
  | case2 agreed mismatch hgap =>
    rw [bisect, dif_neg hgap, wp_pure]
    omega

theorem wp_backOff {k : ℕ} :
    Prog.Wp (backOff source stored mismatch k) s
      (fun r s' => (r.1 ≤ mismatch ∧ ∀ agreed ∈ r.2, agreed < r.1) ∧
        asked s' + r.1 ≤ asked s + mismatch + r.2.toList.length)
      fun _ s' => asked s' ≤ asked s + mismatch := by
  induction mismatch, k using backOff.induct generalizing s with
  | case1 mismatch k hle ih =>
    have hpos := Nat.two_pow_pos k
    rw [backOff, dif_pos hle, wp_bind]
    refine (wp_agreesAt asked hasked).mono (fun agrees s' hs' => ?_) fun _ s' hs' => by omega
    split_ifs
    · rw [wp_pure]
      simp only [Option.toList_some, length_singleton, Option.mem_some_iff, forall_eq']
      omega
    · exact ih.mono (fun _ _ h => ⟨⟨by omega, h.1.2⟩, by omega⟩) fun _ _ h => by omega
  | case2 mismatch k hle =>
    rw [backOff, dif_neg hle, wp_pure]
    simp

/-- The search ends at a stored height, and asks for at most one header for each. -/
theorem wp_findFork {storedTip : ℕ} :
    Prog.Wp (findFork source params stored storedTip) s
      (fun f s' => f ≤ storedTip ∧ asked s' ≤ asked s + storedTip + 1)
      fun _ s' => asked s' ≤ asked s + storedTip + 1 := by
  rw [findFork, wp_bind]
  refine (wp_backOff asked hasked).mono (fun r s' hr => ?_) fun _ s' h => by omega
  obtain ⟨mismatch, found⟩ := r
  obtain ⟨⟨hle, hagreed⟩, hcount⟩ := hr
  cases found with
  | some agreed =>
    have := hagreed agreed rfl
    simp only [Option.toList_some, length_singleton] at hcount hle this
    exact (wp_bisect asked hasked).mono (fun _ _ h => by omega) fun _ _ h => by omega
  | none =>
    simp only [Option.toList_none, length_nil] at hcount hle
    rw [wp_bind]
    refine (wp_agreesAt asked hasked).mono (fun agrees s'' hs'' => ?_) fun _ s'' hs'' => by omega
    split_ifs
    · exact (wp_bisect asked hasked).mono (fun _ _ h => by omega) fun _ _ h => by omega
    · rw [wp_throw]
      omega

end Search

/-- The source offers to fork at a stored height. -/
theorem offer_le {o : ℕ × List ChainHeader}
    (h : (offer source params stored pageSize fuel).exec s = (.ok o, s')) :
    o.1 ≤ stored.length - 1 := by
  rw [offer, bind_returns] at h
  obtain ⟨page, s₁, -, h⟩ := h
  cases page <;>
  · rw [bind_returns] at h
    obtain ⟨atTip, s₂, -, h⟩ := h
    beta_reduce at h
    split_ifs at h
    · cases h
      exact le_rfl
    · rw [bind_returns] at h
      obtain ⟨f, s₃, hfork, h⟩ := h
      rw [bind_returns] at h
      obtain ⟨tail, s₄, -, h⟩ := h
      cases h
      exact ((wp_eq_ok hfork).1 (wp_findFork (fun _ => 0) fun _ _ _ => Nat.zero_le _)).1

/-- A source that counts what it is asked. -/
def counted (source : HeaderSource σ) : HeaderSource (σ × ℕ) := fun fromHeight count =>
  .of fun s =>
    let (page, s') := (source fromHeight count).exec s.1
    (page, s', s.2 + 1)

theorem findFork_probes (s : σ) (n : ℕ) :
    ((findFork (counted source) params stored (stored.length - 1)).exec (s, n)).2.2 ≤
      n + (stored.length - 1) + 1 :=
  Prog.Wp.exec (P := fun s' : σ × ℕ => s'.2 ≤ n + (stored.length - 1) + 1)
    ((wp_findFork Prod.snd fun _ _ _ => le_rfl).mono (fun _ _ h => h.2) fun _ _ h => h)

end Offer

/-! ## Safety -/

section Safe

variable {σ : Type} {S : SignatureScheme} {source : HeaderSource σ} {params : SpvParams}
  {stored tail : List ChainHeader} {pageSize fuel forkHeight : ℕ} {r : HeaderChainResult}
  {result : SyncResult}

/-- What is made of an offer to a valid chain: it is refused for its work, or taken. -/
theorem concludeSync_eq_ok (hstored : verifyHeaderChain S params stored = .ok r)
    (h : concludeSync S params stored forkHeight tail = .ok result) :
    ∃ r', verifyHeaderChain S params (stored.take (forkHeight + 1) ++ tail) = .ok r' ∧
      ((forkHeight < stored.length - 1 ∧ r'.totalWork ≤ r.totalWork ∧ result.chain = stored ∧
          result.discarded = 0 ∧ result.totalWork = r.totalWork ∧
          result.tipHeight = stored.length - 1) ∨
        ((forkHeight < stored.length - 1 → r.totalWork < r'.totalWork) ∧
          result.chain = stored.take (forkHeight + 1) ++ tail ∧
          result.discarded = stored.length - 1 - forkHeight ∧
          result.totalWork = r'.totalWork ∧ result.tipHeight = r'.tipHeight)) ∧
      result.forkHeight = some forkHeight := by
  obtain ⟨-, engine, hengine, hwork⟩ := verifyHeaderChain_result hstored
  obtain ⟨rtake, htake⟩ := verifyHeaderChain_take hstored forkHeight
  simp only [concludeSync, bind_eq_ok, mapError_eq_ok] at h
  obtain ⟨⟨chain, r'⟩, hextend, engine', hengine', work, hwork', h⟩ := h
  cases hengine.symm.trans hengine'
  cases hwork.symm.trans hwork'
  obtain ⟨rfl, hvalid⟩ := (extendHeaderChain_eq_ok htake).1 hextend
  refine ⟨r', hvalid, ?_⟩
  split_ifs at h with hlight
  · cases h
    exact ⟨.inl ⟨hlight.1, hlight.2, rfl, rfl, rfl, rfl⟩, rfl⟩
  · cases h
    exact ⟨.inr ⟨fun hlt => not_le.1 fun hle => hlight ⟨hlt, hle⟩, rfl, rfl, rfl, rfl⟩, rfl⟩

/-- A source that does not serve, above the height it claims to fork at, the stored
    header there as part of a heavier chain. -/
def Consistent (S : SignatureScheme) (params : SpvParams) (stored : List ChainHeader)
    (forkHeight : ℕ) (tail : List ChainHeader) : Prop :=
  ∀ r r', verifyHeaderChain S params stored = .ok r →
    verifyHeaderChain S params (stored.take (forkHeight + 1) ++ tail) = .ok r' →
    r.totalWork < r'.totalWork → ∀ c ∈ stored[forkHeight + 1]?, tail.head? ≠ some c

/-- Headers on top of a valid chain add work. -/
theorem totalWork_le_append {additions : List ChainHeader}
    (hstored : verifyHeaderChain S params stored = .ok r)
    (h : verifyHeaderChain S params (stored ++ additions) = .ok r') :
    r.totalWork ≤ r'.totalWork := by
  obtain ⟨-, engine, hengine, hwork⟩ := verifyHeaderChain_result hstored
  obtain ⟨-, engine', hengine', hwork'⟩ := verifyHeaderChain_result h
  cases hengine.symm.trans hengine'
  obtain ⟨a, b, ha, -, heq⟩ := chainWork_append.1 hwork'
  cases hwork.symm.trans ha
  omega

/-- The stored headers that a taken offer gives up are those above the fork height,
    unless it begins with the first of them. -/
theorem discarded_eq_iff (hf : forkHeight < stored.length) :
    stored.length - 1 - forkHeight =
        stored.length - (stored.take (forkHeight + 1) ++ tail).commonLength stored ↔
      ∀ c ∈ stored[forkHeight + 1]?, tail.head? ≠ some c := by
  have hlength : (stored.take (forkHeight + 1)).length = forkHeight + 1 := by
    rw [length_take]
    omega
  have hcommon := List.commonLength_append (stored.take (forkHeight + 1)) tail
    (stored.drop (forkHeight + 1))
  rw [take_append_drop, hlength] at hcommon
  have hle := List.commonLength_le_right tail (stored.drop (forkHeight + 1))
  rw [length_drop] at hle
  rw [← head?_drop, ← List.commonLength_eq_zero, hcommon]
  omega

/-- **Safety.** Whatever the source answers, what is returned is valid, described by
    its results, and no loss of work; the search for the fork ends. The number of
    discarded headers is that of the stored headers that are gone exactly when the
    source is consistent. -/
theorem syncHeaders_safe (hstored : verifyHeaderChain S params stored = .ok r) {s s' : σ}
    (h : (syncHeaders S source params stored pageSize fuel).exec s = (.ok result, s')) :
    verifyHeaderChain S params result.chain = .ok ⟨result.tipHeight, result.totalWork⟩ ∧
    r.totalWork ≤ result.totalWork ∧
    (stored <+: result.chain ∨ r.totalWork < result.totalWork) ∧
    (∀ s n, ((findFork (counted source) params stored (stored.length - 1)).exec (s, n)).2.2 ≤
      n + stored.length) ∧
    ∃ forkHeight tail,
      (offer source params stored pageSize fuel).exec s = (.ok (forkHeight, tail), s') ∧
      (result.discarded = stored.length - result.chain.commonLength stored ↔
        Consistent S params stored forkHeight tail) := by
  have hne := ne_nil_of_verifyHeaderChain hstored
  have hpos := length_pos_iff.2 hne
  rw [syncHeaders_eq hne, bind_returns] at h
  obtain ⟨⟨f, tail⟩, s₁, hoffer, h⟩ := h
  rw [exec_lift, Prod.mk.injEq] at h
  obtain ⟨hconclude, rfl⟩ := h
  have hf : f ≤ stored.length - 1 := offer_le hoffer
  have hprobes : ∀ s n, ((findFork (counted source) params stored (stored.length - 1)).exec
      (s, n)).2.2 ≤ n + stored.length := fun s n => (findFork_probes s n).trans (by omega)
  obtain ⟨htip, -⟩ := verifyHeaderChain_result hstored
  obtain ⟨r', hvalid, hcases, -⟩ := concludeSync_eq_ok hstored hconclude
  rcases hcases with ⟨hlt, hle, hchain, hdiscarded, hwork, hheight⟩ |
    ⟨hheavier, hchain, hdiscarded, hwork, hheight⟩
  · -- The fork is refused: the stored chain stays.
    rw [hchain, hdiscarded, hwork, hheight]
    refine ⟨htip ▸ hstored, le_rfl, .inl (prefix_refl _), hprobes, f, tail, hoffer, ?_⟩
    rw [List.commonLength_self, Nat.sub_self]
    refine iff_of_true rfl fun r₁ r₂ h₁ h₂ hlt => ?_
    cases hstored.symm.trans h₁
    cases hvalid.symm.trans h₂
    exact absurd hlt (not_lt.2 hle)
  · rw [hchain, hdiscarded, hwork, hheight]
    refine ⟨hvalid, ?_, ?_, hprobes, f, tail, hoffer, ?_⟩
    · rcases Nat.lt_or_ge f (stored.length - 1) with hlt | hge
      · exact (hheavier hlt).le
      · rw [take_of_length_le (by omega)] at hvalid
        exact totalWork_le_append hstored hvalid
    · rcases Nat.lt_or_ge f (stored.length - 1) with hlt | hge
      · exact .inr (hheavier hlt)
      · rw [take_of_length_le (by omega)]
        exact .inl (prefix_append _ _)
    · rw [discarded_eq_iff (by omega)]
      constructor
      · intro hhead _ _ _ _ _
        exact hhead
      · intro hconsistent c hc
        -- There is a stored header above the fork, so the offer is heavier.
        have hlt : f + 1 < stored.length := (List.getElem?_eq_some_iff.1 hc).1
        exact hconsistent r r' hstored hvalid (hheavier (by omega)) c hc

/-- The header after another, found without work; the nonce tells branches apart. -/
def easyNext (nonce : ℕ) (parent : ChainHeader) : ChainHeader := parent.successor ({ · with nonce })

/-- A chain of easy headers from genesis. -/
def easyChain (nonce length : ℕ) : List ChainHeader :=
  List.iterate (easyNext nonce) ⟨easyParams.genesisHash, easyGenesis⟩ length

/-- Serves one chain. -/
def serves (chain : List ChainHeader) : HeaderSource Unit :=
  fun fromHeight count => pure ((chain.drop fromHeight).take count)

theorem easyChain_starts (nonce m n : ℕ) : easyChain nonce m <+: easyChain nonce (m + n) := by
  rw [easyChain, easyChain, iterate_add]
  exact prefix_append _ _

/-- Says that it has the genesis only, and then serves the whole chain. -/
def wavering : HeaderSource Unit := fun fromHeight count =>
  if fromHeight = 1 ∧ 1 < count then serves (easyChain 0 3) fromHeight count
  else serves (easyChain 0 1) fromHeight count

/-- What verification says of the easy chains, and what comes of synchronising
    with them. -/
theorem easyChains :
    (verifyHeaderChain noSignatures easyParams (easyChain 0 3) = .ok ⟨2, 3⟩ ∧
      verifyHeaderChain noSignatures easyParams (easyChain 0 2) = .ok ⟨1, 2⟩ ∧
      verifyHeaderChain noSignatures easyParams (easyChain 0 1) = .ok ⟨0, 1⟩) ∧
    (((easyChain 0 2).map fun c => computeBlockHash c.header).Nodup ∧
      chainWork .pow (easyChain 0 2) = .ok 2 ∧ chainWork .pow (easyChain 0 1) = .ok 1) ∧
    ((syncHeaders noSignatures (serves (easyChain 0 2)) easyParams (easyChain 0 1) 10 10).exec
      ()).1.toOption.isSome ∧
    ((syncHeaders noSignatures wavering easyParams (easyChain 0 2) 10 10).exec
      ()).1.toOption.map (fun result => (result.chain, result.discarded)) =
        some (easyChain 0 3, 1) ∧
    ((syncHeaders noSignatures (serves (easyChain 0 3)) easyParams (easyChain 0 1) 1 10).exec
      ()).1.toOption.map (·.chain.length) = some 2 := by
  decide +kernel

theorem syncHeaders_safe_easy : ∃ result s',
    (syncHeaders noSignatures (serves (easyChain 0 2)) easyParams (easyChain 0 1) 10 10).exec () =
      (.ok result, s') ∧ 1 ≤ result.totalWork ∧
    verifyHeaderChain noSignatures easyParams result.chain =
      .ok ⟨result.tipHeight, result.totalWork⟩ := by
  have hreturns := easyChains.2.2.1
  rcases hexec : (syncHeaders noSignatures (serves (easyChain 0 2)) easyParams (easyChain 0 1) 10
    10).exec () with ⟨_ | result, s'⟩
  · rw [hexec] at hreturns
    cases hreturns
  · have h := syncHeaders_safe easyChains.1.2.2 hexec
    exact ⟨result, s', rfl, h.2.1, h.1⟩

/-- A stored header is reported as discarded, and is part of the chain returned. -/
theorem discarded_kept :
    verifyHeaderChain noSignatures easyParams (easyChain 0 2) = .ok ⟨1, 2⟩ ∧
    ((syncHeaders noSignatures wavering easyParams (easyChain 0 2) 10 10).exec
      ()).1.toOption.map (fun result => (result.chain, result.discarded)) =
        some (easyChain 0 3, 1) ∧
    easyChain 0 2 <+: easyChain 0 3 :=
  ⟨easyChains.1.2.1, easyChains.2.2.2.1, easyChain_starts 0 2 1⟩

end Safe

/-! ## Completeness -/

section Complete

variable {S : SignatureScheme} {params : SpvParams} {chain stored : List ChainHeader}
  {r rstored : HeaderChainResult} {pageSize fuel : ℕ}

/-- The headers of two chains. -/
def headersOf (chain stored : List ChainHeader) : Set BlockHeader :=
  {header | ∃ c ∈ chain ++ stored, c.header = header}

/-- A header of a valid chain has the hash of the one before it. -/
theorem previousHash_of_verifyHeaderChain (h : verifyHeaderChain S params chain = .ok r)
    {parent : ChainHeader} (hp : chain[i]? = some parent) (hc : chain[i + 1]? = some c) :
    c.header.previousHash = parent.hash := by
  obtain ⟨-, engine, hengine, -⟩ := verifyHeaderChain_result h
  obtain ⟨target, -, hvalid⟩ := verifyHeaderChain_step h hengine hp hc
  exact hvalid.previousHash_eq

theorem hash_of_verifyHeaderChain (h : verifyHeaderChain S params chain = .ok r)
    (hc : chain[i + 1]? = some c) : computeBlockHash c.header = c.hash := by
  refine hash_eq_of_verifyHeaderChain h (mem_of_getElem? (i := i) ?_)
  rw [getElem?_tail]
  exact hc

/-- Two valid chains of one genesis, no two of whose headers have one hash. -/
structure Comparable (S : SignatureScheme) (params : SpvParams) (chain stored : List ChainHeader)
    (r rstored : HeaderChainResult) : Prop where
  valid : verifyHeaderChain S params chain = .ok r
  valid_stored : verifyHeaderChain S params stored = .ok rstored
  head : stored.head? = chain.head?
  inj : Set.InjOn computeBlockHash (headersOf chain stored)

section Comparable

variable (h : Comparable S params chain stored r rstored)

include h

/-- Chains that agree on a hash agree up to there. -/
theorem Comparable.take_eq {c' : ChainHeader} (hc : chain[i]? = some c) (hc' : stored[i]? = some c') (hhash : c.hash = c'.hash) :
    chain.take (i + 1) = stored.take (i + 1) := by
  induction i generalizing c c' with
  | zero => rw [take_one, take_one, h.head]
  | succ i ih =>
    have hlt : i + 1 < chain.length := (List.getElem?_eq_some_iff.1 hc).1
    have hlt' : i + 1 < stored.length := (List.getElem?_eq_some_iff.1 hc').1
    have hp : chain[i]? = some chain[i] := getElem?_eq_getElem (by omega)
    have hp' : stored[i]? = some stored[i] := getElem?_eq_getElem (by omega)
    -- The same hash means the same header, and so the same parent.
    have hheader : c.header = c'.header := by
      refine h.inj ⟨c, mem_append_left _ (mem_of_getElem? hc), rfl⟩
        ⟨c', mem_append_right _ (mem_of_getElem? hc'), rfl⟩ ?_
      rw [hash_of_verifyHeaderChain h.valid hc, hash_of_verifyHeaderChain h.valid_stored hc', hhash]
    have hparent : chain[i].hash = stored[i].hash := by
      rw [← previousHash_of_verifyHeaderChain h.valid hp hc,
        ← previousHash_of_verifyHeaderChain h.valid_stored hp' hc', hheader]
    have hcc : c = c' := by
      cases c
      cases c'
      simp_all
    rw [take_add_one (l := chain), take_add_one (l := stored), hc, hc', hcc,
      ih hp hp' hparent]

theorem Comparable.hash_eq_iff (hi : i < stored.length) :
    chain[i]?.map (·.hash) = stored[i]?.map (·.hash) ↔ i < chain.commonLength stored := by
  constructor
  · intro heq
    rw [getElem?_eq_getElem hi, Option.map_some, Option.map_eq_some_iff] at heq
    obtain ⟨c, hc, hhash⟩ := heq
    exact List.lt_commonLength.2 ⟨hi, h.take_eq hc (getElem?_eq_getElem hi) hhash⟩
  · intro hlt
    have htake := congrArg (·[i]?) (List.lt_commonLength.1 hlt).2
    simp only [getElem?_take, Nat.lt_succ_self, if_true] at htake
    rw [htake]

theorem Comparable.common_pos : 0 < chain.commonLength stored :=
  List.lt_commonLength.2 ⟨length_pos_iff.2 (ne_nil_of_verifyHeaderChain h.valid_stored),
    by rw [take_one, take_one, h.head]⟩

end Comparable

/-- A search that is answered by one chain. -/
def Answered (chain stored : List ChainHeader) : Prop :=
  ∀ i, i < stored.length → (agreesAt (serves chain) stored i).exec () =
    (.ok (decide (i < chain.commonLength stored)), ())

/-- The source agrees with the stored headers of the common part. -/
theorem Comparable.answered (h : Comparable S params chain stored r rstored) :
    Answered chain stored := by
  intro i hi
  have hexec : (agreesAt (serves chain) stored i).exec () =
      (.ok (decide (((chain.drop i).take 1).head?.map (·.hash) = stored[i]?.map (·.hash))), ()) :=
    rfl
  rw [hexec, head?_take, if_neg one_ne_zero, head?_drop,
    decide_eq_decide.2 (h.hash_eq_iff hi)]

theorem exec_bisect (hanswered : Answered chain stored)
    (hagreed : agreed < chain.commonLength stored)
    (hmismatch : chain.commonLength stored ≤ mismatch) (hlt : mismatch < stored.length) :
    (bisect (serves chain) stored agreed mismatch).exec () =
      (.ok (chain.commonLength stored - 1), ()) := by
  induction agreed, mismatch using bisect.induct with
  | case1 agreed mismatch hgap ih ih' =>
    rw [bisect, dif_pos hgap, exec_bind, hanswered _ (by omega)]
    dsimp only
    split_ifs with hmid
    · exact ih (by simpa using hmid) hmismatch hlt
    · exact ih' hagreed (by simpa using hmid) (by omega)
  | case2 agreed mismatch hgap =>
    have hlast : agreed = chain.commonLength stored - 1 := by omega
    rw [bisect, dif_neg hgap, exec_pure, hlast]

theorem exec_backOff (hanswered : Answered chain stored) (mismatch k : ℕ)
    (hmismatch : chain.commonLength stored ≤ mismatch) (hlt : mismatch < stored.length) :
    ∃ m found, (backOff (serves chain) stored mismatch k).exec () = (.ok (m, found), ()) ∧
      chain.commonLength stored ≤ m ∧ m < stored.length ∧
      ∀ agreed ∈ found, agreed < chain.commonLength stored := by
  induction mismatch, k using backOff.induct with
  | case1 mismatch k hle ih =>
    have hpos := Nat.two_pow_pos k
    rw [backOff, dif_pos hle, exec_bind, hanswered _ (by omega)]
    dsimp only
    split_ifs with hagrees
    · exact ⟨mismatch, _, rfl, hmismatch, hlt, by simpa using hagrees⟩
    · exact ih (by simpa using hagrees) (by omega)
  | case2 mismatch k hle =>
    rw [backOff, dif_neg hle]
    exact ⟨mismatch, none, rfl, hmismatch, hlt, by simp⟩

/-- The search finds the end of the common part. -/
theorem exec_findFork (hanswered : Answered chain stored) (hpos : 0 < chain.commonLength stored)
    (hlt : chain.commonLength stored < stored.length) :
    (findFork (serves chain) params stored (stored.length - 1)).exec () =
      (.ok (chain.commonLength stored - 1), ()) := by
  obtain ⟨m, found, hexec, hle, hm, hfound⟩ :=
    exec_backOff hanswered (stored.length - 1) 0 (by omega) (by omega)
  rw [findFork, exec_bind, hexec]
  cases found with
  | some agreed => exact exec_bisect hanswered (hfound agreed rfl) hle hm
  | none =>
    dsimp only
    rw [exec_bind, hanswered 0 (by omega), decide_eq_true hpos]
    exact exec_bisect hanswered hpos hle hm

/-- All pages are downloaded. -/
theorem exec_fetchFrom (hpage : 0 < pageSize) {fromHeight : ℕ} (hpos : 0 < fuel)
    (hfuel : chain.length < fromHeight + fuel) (out : List ChainHeader) :
    (fetchFrom (serves chain) pageSize fuel fromHeight out).exec () =
      (.ok (out ++ chain.drop fromHeight), ()) := by
  induction fuel generalizing fromHeight out with
  | zero => cases hpos
  | succ fuel ih =>
    have hexec : (serves chain fromHeight pageSize).exec () =
      (.ok ((chain.drop fromHeight).take pageSize), ()) := rfl
    rw [fetchFrom, exec_bind, hexec]
    dsimp only
    split_ifs with hshort
    · rw [length_take, length_drop] at hshort
      rw [take_of_length_le (by rw [length_drop]; omega)]
      rfl
    · rw [length_take, length_drop] at hshort
      rw [ih (by omega) (by omega), append_assoc, ← drop_drop, take_append_drop]

/-- What a source of one chain offers: the next page, where it extends the stored
    chain, and the whole rest of its branch, where it does not. -/
theorem exec_offer (h : Comparable S params chain stored r rstored) (hpage : 0 < pageSize)
    (hfuel : chain.length < fuel) :
    (offer (serves chain) params stored pageSize fuel).exec () =
      (.ok (if stored <+: chain then
          (stored.length - 1, (chain.drop stored.length).take pageSize)
        else
          (chain.commonLength stored - 1, chain.drop (chain.commonLength stored))), ()) := by
  have hanswered := h.answered
  have hcommon := h.common_pos
  have hle := List.commonLength_le_right chain stored
  have hsucc : stored.length - 1 + 1 = stored.length := by omega
  have hstarts : stored.length - 1 < chain.commonLength stored ↔ stored <+: chain := by
    rw [← List.commonLength_eq_length]
    omega
  have hfirst : (serves chain (stored.length - 1 + 1) pageSize).exec () =
      (.ok ((chain.drop stored.length).take pageSize), ()) := by
    rw [hsucc]
    rfl
  -- What follows the test of the tip, where that is whether the chain extends the stored one.
  have hrest : ∀ page,
      (if decide (stored <+: chain) = true then pure (stored.length - 1, page)
        else do
          let forkHeight ← findFork (serves chain) params stored (stored.length - 1)
          let tail ← fetchFrom (serves chain) pageSize fuel (forkHeight + 1) []
          pure (forkHeight, tail) : Prog Unit WalletError _).exec () =
      (.ok (if stored <+: chain then (stored.length - 1, page)
        else (chain.commonLength stored - 1, chain.drop (chain.commonLength stored))), ()) := by
    intro page
    by_cases hp : stored <+: chain
    · simp [hp]
    · have hlt : chain.commonLength stored < stored.length := by
        have := mt hstarts.1 hp
        omega
      have hfetch : (fetchFrom (serves chain) pageSize fuel (chain.commonLength stored) []).exec () =
          (.ok (chain.drop (chain.commonLength stored)), ()) :=
        exec_fetchFrom hpage (by omega) (by omega) []
      simp only [hp, decide_false, Bool.false_eq_true, if_false]
      rw [exec_bind, exec_findFork hanswered hcommon hlt]
      dsimp only
      rw [exec_bind, Nat.sub_add_cancel hcommon, hfetch]
      rfl
  rw [offer, exec_bind, hfirst]
  cases hnext : (chain.drop stored.length).take pageSize with
  | nil =>
    dsimp only
    rw [exec_bind, hanswered _ (by omega), decide_eq_decide.2 hstarts]
    exact hrest []
  | cons next page =>
    -- The next header builds on the header of the chain at the height of the tip.
    have hget : chain[stored.length - 1 + 1]? = some next := by
      have := congrArg List.head? hnext
      rwa [head?_take, if_neg (by omega), head?_drop, ← hsucc] at this
    have hlt : stored.length < chain.length := hsucc ▸ (List.getElem?_eq_some_iff.1 hget).1
    have hparent : chain[stored.length - 1]? = some chain[stored.length - 1] :=
      getElem?_eq_getElem (by omega)
    have htip : (some next.header.previousHash = stored[stored.length - 1]?.map (·.hash)) ↔
        stored <+: chain := by
      rw [← hstarts, ← h.hash_eq_iff (by omega), hparent,
        previousHash_of_verifyHeaderChain h.valid hparent hget]
      rfl
    dsimp only
    rw [pure_bind, decide_eq_decide.2 htip]
    exact hrest _

/-- What has to come of a synchronisation with a node of the given chain. -/
structure Synced (chain stored : List ChainHeader) (work storedWork : ℕ) (result : SyncResult) :
    Prop where
  better : stored <+: chain ∨ storedWork < work → result.chain = chain ∧
    result.forkHeight.elim 0 (· + 1) = chain.commonLength stored
  other : ¬(stored <+: chain ∨ storedWork < work) → result.chain = stored

theorem concludeSync_isOk {tail : List ChainHeader} {forkHeight : ℕ}
    (hstored : verifyHeaderChain S params stored = .ok rstored)
    (h : verifyHeaderChain S params (stored.take (forkHeight + 1) ++ tail) = .ok r') :
    ∃ result, concludeSync S params stored forkHeight tail = .ok result := by
  obtain ⟨-, engine, hengine, hwork⟩ := verifyHeaderChain_result hstored
  obtain ⟨rtake, htake⟩ := verifyHeaderChain_take hstored forkHeight
  simp only [concludeSync, (extendHeaderChain_eq_ok htake).2 ⟨rfl, h⟩, hengine, Except.mapError, bind,
    Except.bind, hwork]
  by_cases hlight : forkHeight < stored.length - 1 ∧ r'.totalWork ≤ rstored.totalWork
  · exact ⟨_, if_pos hlight⟩
  · exact ⟨_, if_neg hlight⟩

/-- The first synchronisation: everything is downloaded. -/
theorem syncHeaders_fresh (hchain : verifyHeaderChain S params chain = .ok r) (hpage : 0 < pageSize)
    (hfuel : chain.length < fuel) :
    ∃ result, (syncHeaders S (serves chain) params [] pageSize fuel).exec () = (.ok result, ()) ∧
      result.chain = chain ∧ result.forkHeight = none := by
  have hfetch : (fetchFrom (serves chain) pageSize fuel 0 []).exec () = (.ok chain, ()) :=
    exec_fetchFrom hpage (by omega) (by omega) []
  refine ⟨⟨chain, chain.length, 0, none, r.totalWork, r.tipHeight, none⟩, ?_, rfl, rfl⟩
  rw [syncHeaders, if_pos rfl, syncFresh, exec_bind, hfetch]
  dsimp only
  rw [hchain]
  rfl

/-- A synchronisation with a node that extends the stored chain: it takes one page. -/
theorem syncHeaders_extension (h : Comparable S params chain stored r rstored) (hpage : 0 < pageSize)
    (hfuel : chain.length < fuel) (hstarts : stored <+: chain) :
    ∃ result, (syncHeaders S (serves chain) params stored pageSize fuel).exec () =
        (.ok result, ()) ∧ result.chain = chain.take (stored.length + pageSize) ∧
      result.forkHeight = some (stored.length - 1) := by
  have hne := ne_nil_of_verifyHeaderChain h.valid_stored
  have hpos := length_pos_iff.2 hne
  have htake : stored.take (stored.length - 1 + 1) ++ (chain.drop stored.length).take pageSize =
      chain.take (stored.length + pageSize) := by
    obtain ⟨additions, rfl⟩ := hstarts
    rw [Nat.sub_add_cancel hpos, take_length, drop_left, take_length_add_append]
  obtain ⟨r', hvalid⟩ := verifyHeaderChain_take h.valid (stored.length + pageSize - 1)
  rw [Nat.sub_add_cancel (by omega), ← htake] at hvalid
  obtain ⟨result, hconclude⟩ := concludeSync_isOk h.valid_stored hvalid
  obtain ⟨_, -, hcases, hfork⟩ := concludeSync_eq_ok h.valid_stored hconclude
  refine ⟨result, ?_, ?_, hfork⟩
  · rw [syncHeaders_eq hne, exec_bind, exec_offer h hpage hfuel, if_pos hstarts]
    exact congrArg (·, ()) hconclude
  · rcases hcases with ⟨hlt, -⟩ | ⟨-, htaken, -⟩
    · omega
    · exact htaken.trans htake

/-- A synchronisation with a node on another branch: the heavier chain wins. -/
theorem syncHeaders_fork (h : Comparable S params chain stored r rstored) (hpage : 0 < pageSize)
    (hfuel : chain.length < fuel) (hstarts : ¬stored <+: chain) :
    ∃ result, (syncHeaders S (serves chain) params stored pageSize fuel).exec () =
        (.ok result, ()) ∧ Synced chain stored r.totalWork rstored.totalWork result := by
  have hcommon := h.common_pos
  have hlt : chain.commonLength stored < stored.length :=
    lt_of_le_of_ne (List.commonLength_le_right _ _) (mt List.commonLength_eq_length.1 hstarts)
  have htake : stored.take (chain.commonLength stored - 1 + 1) ++
      chain.drop (chain.commonLength stored) = chain := by
    rw [Nat.sub_add_cancel hcommon, ← List.take_commonLength, take_append_drop]
  obtain ⟨result, hconclude⟩ := concludeSync_isOk h.valid_stored (htake.symm ▸ h.valid)
  obtain ⟨r', hvalid, hcases, hfork⟩ := concludeSync_eq_ok h.valid_stored hconclude
  rw [htake] at hvalid hcases
  cases h.valid.symm.trans hvalid
  refine ⟨result, ?_, ?_⟩
  · rw [syncHeaders_eq (ne_nil_of_verifyHeaderChain h.valid_stored), exec_bind,
      exec_offer h hpage hfuel, if_neg hstarts]
    exact congrArg (·, ()) hconclude
  · rcases hcases with ⟨-, hle, hkept, -⟩ | ⟨hheavier, htaken, -⟩
    · exact ⟨fun h => absurd (h.resolve_left hstarts) (not_lt.2 hle), fun _ => hkept⟩
    · refine ⟨fun _ => ⟨htaken, ?_⟩, fun h => absurd (.inr (hheavier (by omega))) h⟩
      rw [hfork]
      exact Nat.sub_add_cancel hcommon

/-- **Completeness.** A synchronisation with a node of one chain returns what it has
    to, except that an extension of the stored chain is cut after one page. -/
theorem syncHeaders_complete_iff {work storedWork : ℕ} {engine : ConsensusEngine}
    (hchain : verifyHeaderChain S params chain = .ok r)
    (hstored : stored = [] ∨
      (∃ rstored, verifyHeaderChain S params stored = .ok rstored) ∧ stored.head? = chain.head?)
    (hinj : Set.InjOn computeBlockHash (headersOf chain stored)) (hpage : 1 ≤ pageSize)
    (hfuel : chain.length < fuel) (hengine : createEngine params.consensus.toEngineRules = .ok engine)
    (hwork : chainWork engine chain = .ok work)
    (hstoredWork : chainWork engine stored = .ok storedWork) :
    (∃ result s', (syncHeaders S (serves chain) params stored pageSize fuel).exec () =
        (.ok result, s') ∧ Synced chain stored work storedWork result) ↔
      (stored ≠ [] → stored <+: chain → chain.length ≤ stored.length + pageSize) := by
  rcases hstored with rfl | ⟨⟨rstored, hstored⟩, hhead⟩
  · obtain ⟨result, hexec, hresult, hfork⟩ := syncHeaders_fresh hchain hpage hfuel
    refine iff_of_true ⟨result, (), hexec, ?_⟩ fun h => absurd rfl h
    exact ⟨fun _ => ⟨hresult, by simp [hfork]⟩, fun h => absurd (.inl nil_prefix) h⟩
  · obtain ⟨-, engine₁, hengine₁, hwork₁⟩ := verifyHeaderChain_result hchain
    obtain ⟨-, engine₂, hengine₂, hwork₂⟩ := verifyHeaderChain_result hstored
    cases hengine.symm.trans hengine₁
    cases hengine.symm.trans hengine₂
    cases hwork.symm.trans hwork₁
    cases hstoredWork.symm.trans hwork₂
    have hne := ne_nil_of_verifyHeaderChain hstored
    have hpos := length_pos_iff.2 hne
    by_cases hstarts : stored <+: chain
    · obtain ⟨result, hexec, hresult, hfork⟩ :=
        syncHeaders_extension ⟨hchain, hstored, hhead, hinj⟩ hpage hfuel hstarts
      rw [hexec]
      constructor
      · rintro ⟨_, _, heq, hsynced⟩ - -
        cases heq
        have := (hsynced.better (.inl hstarts)).1
        rw [hresult, take_eq_self_iff] at this
        exact this
      · intro hshort
        refine ⟨result, (), rfl, fun _ => ⟨?_, ?_⟩, fun h => absurd (.inl hstarts) h⟩
        · rw [hresult, take_of_length_le (hshort hne hstarts)]
        · rw [hfork, List.commonLength_eq_length.2 hstarts]
          exact Nat.sub_add_cancel hpos
    · obtain ⟨result, hexec, hsynced⟩ :=
        syncHeaders_fork ⟨hchain, hstored, hhead, hinj⟩ hpage hfuel hstarts
      exact iff_of_true ⟨result, (), hexec, hsynced⟩ fun _ h => absurd h hstarts

theorem injOn_headersOf (hstarts : stored <+: chain)
    (h : (chain.map fun c => computeBlockHash c.header).Nodup) :
    Set.InjOn computeBlockHash (headersOf chain stored) := by
  have hmem : ∀ c ∈ chain ++ stored, c ∈ chain := by
    intro c hc
    exact (mem_append.1 hc).elim id fun hc => hstarts.subset hc
  rintro _ ⟨c, hc, rfl⟩ _ ⟨c', hc', rfl⟩ hhash
  rw [inj_on_of_nodup_map h (hmem c hc) (hmem c' hc') hhash]

theorem syncHeaders_complete_easy : ∃ result s',
    (syncHeaders noSignatures (serves (easyChain 0 2)) easyParams (easyChain 0 1) 10 10).exec () =
      (.ok result, s') ∧ Synced (easyChain 0 2) (easyChain 0 1) 2 1 result := by
  have hinj : Set.InjOn computeBlockHash (headersOf (easyChain 0 2) (easyChain 0 1)) :=
    injOn_headersOf (easyChain_starts 0 1 1) easyChains.2.1.1
  obtain ⟨hwork, hstoredWork⟩ := easyChains.2.1.2
  exact (syncHeaders_complete_iff easyChains.1.2.1
    (.inr ⟨⟨_, easyChains.1.2.2⟩, rfl⟩) hinj (by decide) (by decide) rfl hwork
    hstoredWork).2 fun _ _ => by decide

/-- A wallet that is two pages behind is not brought up to date. -/
theorem second_page_missing :
    verifyHeaderChain noSignatures easyParams (easyChain 0 3) = .ok ⟨2, 3⟩ ∧
    verifyHeaderChain noSignatures easyParams (easyChain 0 1) = .ok ⟨0, 1⟩ ∧
    easyChain 0 1 <+: easyChain 0 3 ∧
    ((syncHeaders noSignatures (serves (easyChain 0 3)) easyParams (easyChain 0 1) 1 10).exec
      ()).1.toOption.map (·.chain.length) = some 2 ∧
    (easyChain 0 3).length = 3 :=
  ⟨easyChains.1.1, easyChains.1.2.2, easyChain_starts 0 1 2,
    easyChains.2.2.2.2, rfl⟩

end Complete

/-! ## Growing chains

What a wallet keeps between two synchronisations, `src/wallet/headerStore.ts`, grows:
new headers are verified on top of those that were, and the whole is verified again
when it is loaded, at a later time. -/

section Later

variable {S : SignatureScheme} {params : SpvParams} {chain : List ChainHeader}
  {r : HeaderChainResult} {now : ℕ}

theorem verifyHeaderChain_later (hlater : params.now ≤ now)
    (h : verifyHeaderChain S params chain = .ok r) :
    verifyHeaderChain S { params with now := now } chain = .ok r := by
  obtain ⟨hfirst, hfrom, hresult⟩ := verifyHeaderChain_eq_ok.1 h
  obtain ⟨engine, hengine, hrounds⟩ := verifyFrom_eq_ok.1 hfrom
  refine verifyHeaderChain_eq_ok.2 ⟨hfirst, verifyFrom_eq_ok.2 ⟨engine, hengine, ?_⟩, hresult⟩
  intro i hpos hi
  obtain ⟨i, rfl⟩ := Nat.exists_eq_add_of_le' hpos
  have hp : chain[i]? = some chain[i] := getElem?_eq_getElem (by omega)
  have hc : chain[i + 1]? = some chain[i + 1] := getElem?_eq_getElem hi
  obtain ⟨target, htarget, hvalid⟩ := (verifyAt_eq_ok hp hc).1 (hrounds (i + 1) hpos hi)
  -- The clock bounds the time of a header from above only.
  exact (verifyAt_eq_ok hp hc).2 ⟨target, htarget, { hvalid with
    timestamp_le := hvalid.timestamp_le.trans (Nat.add_le_add_right hlater _) }⟩

end Later

/-- Verifying the headers on top of a verified chain is verifying all of them, and
    what is valid once stays valid. -/
theorem incremental_verification (S : SignatureScheme) (params : SpvParams)
    (chain additions : List ChainHeader) {r : HeaderChainResult}
    (hvalid : verifyHeaderChain S params chain = .ok r) :
    (∀ extended r', extendHeaderChain S params chain additions = .ok (extended, r') ↔
      extended = chain ++ additions ∧ verifyHeaderChain S params (chain ++ additions) = .ok r') ∧
    ∀ (accepted : List ChainHeader) (r' : HeaderChainResult) (now : ℕ),
      verifyHeaderChain S params accepted = .ok r' → params.now ≤ now →
      verifyHeaderChain S { params with now := now } accepted = .ok r' :=
  ⟨fun _ _ => extendHeaderChain_eq_ok hvalid, fun _ _ _ haccepted hlater =>
    verifyHeaderChain_later hlater haccepted⟩

/-- Two headers on top of one, and all three an hour later. -/
theorem incremental_verification_easy :
    extendHeaderChain noSignatures easyParams (easyChain 0 1) ((easyChain 0 3).drop 1) =
      .ok (easyChain 0 3, ⟨2, 3⟩) ∧
    verifyHeaderChain noSignatures { easyParams with now := easyParams.now + 3600000 }
      (easyChain 0 3) = .ok ⟨2, 3⟩ := by
  obtain ⟨hextend, hlater⟩ := incremental_verification noSignatures easyParams (easyChain 0 1)
    ((easyChain 0 3).drop 1) easyChains.1.2.2
  exact ⟨(hextend _ _).2 ⟨rfl, easyChains.1.1⟩,
    hlater _ _ _ easyChains.1.1 (Nat.le_add_right _ _)⟩

end Plainchain
