import Plainchain.Node.ForkChoice

/-!
# Headers after a restart

A block is stored, indexed and adopted by three writes, and a restart forgets which
blocks were evaluated. When a peer sends the headers of a heavier chain, the node
asks for its blocks unless the body of the last header is stored: it takes a
stored body for an adopted one. Nothing else in the handling of the message
changes the tip, so that the body being stored is exactly when a heavier chain is
passed over (`recovers_iff`).
-/

namespace Plainchain

open Js Kv Prog List

/-! ## What accepting headers leaves -/

/-- Between the two states the peer was asked for blocks. -/
def Requests (w w' : World) (peer : Text) : Prop :=
  ∃ sent, w'.actions = w.actions ++ sent ∧
    ∃ fromHeight locator, .send peer (.GET_BLOCKS fromHeight locator) ∈ sent

/-- The chain stays, and no blocks are asked for. -/
structure Quiet (w w' : World) : Prop where
  chain : w'.chain = w.chain
  sent : ∃ sent, w'.actions = w.actions ++ sent ∧
    ∀ peer fromHeight locator, .send peer (.GET_BLOCKS fromHeight locator) ∉ sent

namespace Quiet

instance : Std.Refl Quiet := ⟨fun w => ⟨rfl, [], by simp⟩⟩

instance : IsTrans World Quiet where
  trans w w' w'' h h' := by
    obtain ⟨sent, hsent, hnot⟩ := h.sent
    obtain ⟨sent', hsent', hnot'⟩ := h'.sent
    refine ⟨h'.chain.trans h.chain, sent ++ sent', by rw [hsent', hsent, append_assoc], ?_⟩
    intro peer fromHeight locator hmem
    exact (mem_append.1 hmem).elim (hnot _ _ _) (hnot' _ _ _)

/-- What is asked for after a quiet part is all that is asked for. -/
theorem requests {w w' w'' : World} (h : Quiet w w') {peer : Text} :
    Requests w' w'' peer → Requests w w'' peer := by
  obtain ⟨sent, hsent, -⟩ := h.sent
  rintro ⟨sent', hsent', fromHeight, locator, hmem⟩
  exact ⟨sent ++ sent', by rw [hsent', hsent, append_assoc], fromHeight, locator,
    mem_append_right _ hmem⟩

/-- In a quiet part nothing is asked for. -/
theorem not_requests {w w' : World} (h : Quiet w w') {peer : Text} : ¬Requests w w' peer := by
  obtain ⟨sent, hsent, hnot⟩ := h.sent
  rintro ⟨sent', hsent', fromHeight, locator, hmem⟩
  rw [hsent, append_cancel_left_eq] at hsent'
  exact hnot peer fromHeight locator (hsent' ▸ hmem)

theorem onHeaders {α : Type} (m : Prog HeaderIndex NodeError α) :
    Keeps Quiet (Plainchain.onHeaders m) := fun _ => ⟨rfl, [], by simp [Plainchain.onHeaders]⟩

theorem act {action : Action}
    (h : ∀ peer fromHeight locator, action ≠ .send peer (.GET_BLOCKS fromHeight locator)) :
    Keeps Quiet (Plainchain.act action) :=
  fun _ => ⟨rfl, [action], rfl, fun _ _ _ hmem => h _ _ _ (mem_singleton.1 hmem).symm⟩

theorem acceptHeaders {opts : NodeOptions} {env : Env} {fromNodeId : Text}
    (headers : List BlockHeader) : Keeps Quiet (acceptHeaders opts env fromNodeId headers) :=
  keeps_acceptHeaders onHeaders (fun _ => act (by simp)) headers

end Quiet

section Recovery

variable {opts : NodeOptions} {H : Set BlockHeader} {w w' : World} {env : Env} {fromNodeId : Text}
  {C : World → Label → Prop} (hinj : Set.InjOn computeBlockHash H)

include hinj

theorem Trace.grows (hs : Sound opts H w) (ht : Trace opts H C w w') :
    Grows w.headers w'.headers :=
  ht.invariant (P := fun w' => Grows w.headers w'.headers) hinj
    (fun hs _ hc h => h.trans (hc.grows hinj hs)) hs (.refl _)

/-- Accepting headers leaves the tip, and asks for no blocks. -/
theorem acceptHeaders_quiet {headers : List BlockHeader} (hs : Sound opts H w)
    (hmem : ∀ header ∈ headers, header ∈ H) {last : ChainEnd} {w₁ : World}
    (hrun : (acceptHeaders opts env fromNodeId headers).exec w = (.ok (some last), w₁)) :
    Sound opts H w₁ ∧ Quiet w w₁ ∧ tipWork w₁ = tipWork w ∧ last.Indexed w₁.headers := by
  have hgoes : Goes opts H (fun _ _ => True) (fun _ => True)
      (acceptHeaders opts env fromNodeId headers) w fun found w' =>
        ∀ last, found = some last → last.Indexed w'.headers :=
    acceptHeaders_goes hinj abides_true hs hmem
  obtain ⟨hleads, hlast⟩ := (wp_eq_ok hrun).1 hgoes
  have hquiet : Quiet w ((acceptHeaders opts env fromNodeId headers).exec w).2 :=
    Quiet.acceptHeaders headers w
  rw [hrun] at hquiet
  exact ⟨hleads.trace.sound hinj hs, hquiet,
    hs.tipWork_of_grows w₁ (by rw [hquiet.chain]) (hleads.trace.grows hinj hs), hlast last rfl⟩

omit hinj in
/-- Blocks are asked for if the chain is heavier than the canonical one and its
    last block is not stored. -/
theorem requestIfBetter_outcome (env : Env) (peer : Text) (hs : Sound opts H w)
    (last : ChainEnd) :
    ∃ w', (requestIfBetter opts env peer last).exec w = (.ok (), w') ∧
      w' = { w with actions := w'.actions } ∧
      ((tipWork w < last.work ∧ w.chain.getBlock last.hash = none) ∧ Requests w w' peer ∨
        ¬(tipWork w < last.work ∧ w.chain.getBlock last.hash = none) ∧ Quiet w w') := by
  obtain ⟨tip, entry, htip, hentry, hcurrent⟩ := exec_currentWork env hs
  have hguard : (isBetterChain last.work entry.work = true ∧
      ¬(w.chain.getBlock last.hash).isSome = true) ↔
        entry.work < last.work ∧ w.chain.getBlock last.hash = none := by
    simp [isBetterChain]
  rw [requestIfBetter, exec_bind, hcurrent, tipWork_eq htip hentry]
  dsimp only
  rw [exec_bind, exec_reads]
  dsimp only
  by_cases h : entry.work < last.work ∧ w.chain.getBlock last.hash = none
  · rw [if_pos (hguard.2 h)]
    exact ⟨_, rfl, rfl, .inl ⟨h, _, rfl, _, _, mem_singleton_self _⟩⟩
  · rw [if_neg (fun hg => h (hguard.1 hg))]
    exact ⟨w, rfl, rfl, .inr ⟨h, refl w⟩⟩

omit hinj in
/-- What follows the acceptance of headers is sent, and changes nothing else. -/
theorem followUp_frame (env : Env) (peer : Text) (hs : Sound opts H w)
    (headers : List BlockHeader) (found : Option ChainEnd) :
    ∃ actions, ((followUp opts env peer headers found).exec w).2 = { w with actions } := by
  cases found with
  | none => exact ⟨w.actions, rfl⟩
  | some last =>
    obtain ⟨w₁, hexec, hframe, -⟩ := requestIfBetter_outcome env peer hs last
    rw [followUp, exec_bind, hexec]
    dsimp only
    split_ifs
    · exact ⟨_, by rw [hframe]; rfl⟩
    · exact ⟨_, hframe⟩

omit hinj in
theorem followUp_requests (env : Env) (peer : Text) (hs : Sound opts H w)
    (headers : List BlockHeader) (last : ChainEnd) :
    let w' := ((followUp opts env peer headers (some last)).exec w).2
    tipWork w' = tipWork w ∧
      ((tipWork w < last.work ∧ w.chain.getBlock last.hash = none) ∧ Requests w w' peer ∨
        ¬(tipWork w < last.work ∧ w.chain.getBlock last.hash = none) ∧ Quiet w w') := by
  obtain ⟨w₁, hexec, -, hasked⟩ := requestIfBetter_outcome env peer hs last
  -- More headers may be asked for, which is not asking for blocks.
  have hmore : ∃ w', ((followUp opts env peer headers (some last)).exec w).2 = w' ∧
      Quiet w₁ w' := by
    rw [followUp, exec_bind, hexec]
    dsimp only
    split_ifs
    · exact ⟨_, rfl, (Keeps.bind (.reads _) fun _ => Quiet.act (by simp)) w₁⟩
    · exact ⟨w₁, rfl, refl w₁⟩
  obtain ⟨actions, hframe⟩ := followUp_frame env peer hs headers (some last)
  obtain ⟨w', heq, hquiet⟩ := hmore
  rw [heq] at hframe ⊢
  refine ⟨by rw [hframe]; rfl, ?_⟩
  rcases hasked with ⟨hcond, sent, hsent, fromHeight, locator, hmem⟩ | ⟨hcond, hasked⟩
  · obtain ⟨sent', hsent', -⟩ := hquiet.sent
    exact .inl ⟨hcond, sent ++ sent', by rw [hsent', hsent, append_assoc], fromHeight, locator,
      mem_append_left _ hmem⟩
  · exact .inr ⟨hcond, IsTrans.trans _ _ _ hasked hquiet⟩

/-- What a message with accepted headers does: the tip stays, and blocks are asked
    for if the chain is heavier and its last block is not stored. -/
theorem step_headers {s : Session} (hs : Sound opts H s.toWorld) {headers : List BlockHeader}
    (hmem : ∀ header ∈ headers, header ∈ H) {last : ChainEnd} {w₁ : World}
    (haccept : (acceptHeaders opts env fromNodeId (headers.take opts.maxHeadersPerResponse)).exec
      s.toWorld = (.ok (some last), w₁)) :
    let w' := (step opts s env (.message (.HEADERS headers) fromNodeId)).toWorld
    tipWork w' = tipWork s.toWorld ∧
      ((tipWork s.toWorld < last.work ∧ s.chain.getBlock last.hash = none) ∧
          Requests s.toWorld w' fromNodeId ∨
        ¬(tipWork s.toWorld < last.work ∧ s.chain.getBlock last.hash = none) ∧
          Quiet s.toWorld w') := by
  obtain ⟨hs₁, hquiet, hwork, -⟩ := acceptHeaders_quiet hinj hs
    (fun header hheader => hmem header (mem_of_mem_take hheader)) haccept
  obtain ⟨hsame, hasked⟩ := followUp_requests env fromNodeId hs₁
    (headers.take opts.maxHeadersPerResponse) last
  have hrun : (step opts s env (.message (.HEADERS headers) fromNodeId)).toWorld =
      ((followUp opts env fromNodeId (headers.take opts.maxHeadersPerResponse)
        (some last)).exec w₁).2 := by
    rw [step, Session.run, handleMessage, handleHeaders, exec_bind, haccept]
  rw [hwork, hquiet.chain] at hasked
  rw [hrun]
  refine ⟨hsame.trans hwork, hasked.imp ?_ ?_⟩
  · exact fun h => ⟨h.1, hquiet.requests h.2⟩
  · exact fun h => ⟨h.1, IsTrans.trans _ _ _ hquiet h.2⟩

/-- A heavier chain whose headers are accepted is followed up, the node being there
    or asking the sender for blocks, exactly if the body of its last header is not
    stored. -/
theorem recovers_iff {s : Session} (hr : Reachable opts H s) {headers : List BlockHeader}
    (hmem : ∀ header ∈ headers, header ∈ H) {last : ChainEnd} {w₁ : World}
    (haccept : (acceptHeaders opts env fromNodeId (headers.take opts.maxHeadersPerResponse)).exec
      s.toWorld = (.ok (some last), w₁))
    (hheavier : tipWork s.toWorld < last.work) :
    let w' := (step opts s env (.message (.HEADERS headers) fromNodeId)).toWorld
    (last.work ≤ tipWork w' ∨ Requests s.toWorld w' fromNodeId) ↔
      s.chain.getBlock last.hash = none := by
  obtain ⟨hsame, hasked⟩ := step_headers hinj (hr.sound hinj) hmem haccept
  intro w'
  rw [hsame, or_iff_right (not_le.2 hheavier)]
  rw [and_iff_right hheavier] at hasked
  rcases hasked with ⟨hstored, hasked⟩ | ⟨hstored, hquiet⟩
  · exact iff_of_true hasked hstored
  · exact iff_of_false hquiet.not_requests hstored

end Recovery

/-! ## A block that is stored only -/

/-- The hash of the chain that the header of a first block makes. -/
def acceptedHash (w : World) : Option Text :=
  (((acceptHeaders sampleOptions sampleEnv (lit "p") [firstBlock.header]).exec w).1.toOption.getD
    none).map fun last => last.hash

/-- While genesis is the tip, a first block makes a heavier chain. -/
theorem accepted_of_acceptedHash {w : World} (hs : Sound sampleOptions sampleHeaders w)
    (htip : w.chain.tip = some ⟨sampleGenesis.hash, 0⟩) (h : acceptedHash w = some firstBlock.hash) :
    ∃ last w₁, (acceptHeaders sampleOptions sampleEnv (lit "p") [firstBlock.header]).exec w =
      (.ok (some last), w₁) ∧ last.hash = firstBlock.hash ∧ tipWork w < last.work := by
  rw [acceptedHash] at h
  rcases hrun : (acceptHeaders sampleOptions sampleEnv (lit "p") [firstBlock.header]).exec w with
    ⟨_ | _ | last, w₁⟩
  · simp [hrun, Except.toOption] at h
  · simp [hrun, Except.toOption] at h
  · have hhash : last.hash = firstBlock.hash := by simpa [hrun, Except.toOption] using h
    obtain ⟨hs₁, hquiet, hwork, hindexed⟩ := acceptHeaders_quiet injOn_sampleHeaders hs
      (fun header hheader => .inr (mem_singleton.1 hheader)) hrun
    rw [ChainEnd.Indexed, hhash] at hindexed
    refine ⟨last, w₁, rfl, hhash, ?_⟩
    rw [← hwork]
    exact hs₁.tipWork_lt_firstBlock (by rw [hquiet.chain, htip]) hindexed

/-- A fresh node that is sent the header of a first block asks for it. -/
theorem recovers_sample :
    let s : Session := ⟨started sampleOptions, []⟩
    Requests s.toWorld
      (step sampleOptions s sampleEnv (.message (.HEADERS [firstBlock.header]) (lit "p"))).toWorld
      (lit "p") := by
  have hopened : Reachable sampleOptions sampleHeaders ⟨started sampleOptions, []⟩ :=
    .initial (.inl rfl) start_sample
  have hreads : (started sampleOptions).chain.tip = some ⟨sampleGenesis.hash, 0⟩ ∧
      acceptedHash (started sampleOptions) = some firstBlock.hash ∧
      (started sampleOptions).chain.getBlock firstBlock.hash = none := by decide +kernel
  obtain ⟨htip, haccepted, hnone⟩ := hreads
  obtain ⟨last, w₁, haccept, hhash, hheavier⟩ :=
    accepted_of_acceptedHash (hopened.sound injOn_sampleHeaders) htip haccepted
  have hstored : (started sampleOptions).chain.getBlock last.hash = none := by rwa [hhash]
  have hmem : ∀ header ∈ [firstBlock.header], header ∈ sampleHeaders := fun header hheader =>
    .inr (mem_singleton.1 hheader)
  have hfollowed := (recovers_iff injOn_sampleHeaders hopened hmem haccept hheavier).2 hstored
  have hsame := (step_headers injOn_sampleHeaders (hopened.sound injOn_sampleHeaders) hmem
    haccept).1
  rw [hsame] at hfollowed
  exact hfollowed.resolve_left (not_le.2 hheavier)

/-- A node that was restarted after the batch that would have adopted a first block
    failed. -/
def unadopted : Session :=
  step sampleOptions
    (step sampleOptions { toWorld := started sampleOptions, templates := [] }
      { sampleEnv with fails := fun write => write = .adopt firstBlock.hash }
      (.message (.NEW_BLOCK firstBlock) (lit "p")))
    sampleEnv .restart

theorem reachable_unadopted : Reachable sampleOptions sampleHeaders unadopted := by
  have hopened : Reachable sampleOptions sampleHeaders ⟨started sampleOptions, []⟩ :=
    .initial (.inl rfl) start_sample
  refine .next _ (.next _ hopened trivial fun header hheader => ?_) trivial (by simp [Event.headers])
  exact .inr (mem_singleton.1 hheader)

/-- It is sent the header of that block again. -/
def resentRun : Session :=
  step sampleOptions unadopted sampleEnv (.message (.HEADERS [firstBlock.header]) (lit "p"))

/-- The node stays at genesis and asks for nothing: the block is stored. -/
theorem stored_chain_forgotten : Reachable sampleOptions sampleHeaders unadopted ∧
    ∃ last w₁, (acceptHeaders sampleOptions sampleEnv (lit "p") [firstBlock.header]).exec
      unadopted.toWorld = (.ok (some last), w₁) ∧
      tipWork unadopted.toWorld < last.work ∧ tipWork resentRun.toWorld < last.work ∧
      ¬Requests unadopted.toWorld resentRun.toWorld (lit "p") := by
  have hs := reachable_unadopted.sound injOn_sampleHeaders
  have hreads : unadopted.chain.tip = some ⟨sampleGenesis.hash, 0⟩ ∧
      acceptedHash unadopted.toWorld = some firstBlock.hash ∧
      unadopted.chain.getBlock firstBlock.hash ≠ none := by decide +kernel
  obtain ⟨htip, haccepted, hsome⟩ := hreads
  obtain ⟨last, w₁, haccept, hhash, hheavier⟩ := accepted_of_acceptedHash hs htip haccepted
  obtain ⟨hsame, hasked⟩ := step_headers injOn_sampleHeaders hs
    (fun header hheader => .inr (mem_singleton.1 hheader)) haccept
  have hstored : unadopted.chain.getBlock last.hash ≠ none := by rwa [hhash]
  refine ⟨reachable_unadopted, last, w₁, haccept, hheavier, by rwa [resentRun, hsame], ?_⟩
  rcases hasked with ⟨⟨-, hnone⟩, -⟩ | ⟨-, hquiet⟩
  · exact absurd hnone hstored
  · exact hquiet.not_requests

end Plainchain
