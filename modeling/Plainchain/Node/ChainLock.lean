import Plainchain.Lib.Turns
import Plainchain.Node.AnchorRecord

/-!
# The chain lock

`withChainLock` of `src/node/node.ts`: what reads and then writes the chain, the UTXO set or
the mempool does so in a section that waits for the sections called before it. Handlers run
concurrently, and a section is interrupted wherever it awaits the database.

* `Section.program`: the sections of the node, as they run alone;
* `Implements`: an asynchronous function that does what the program does when nothing
  interrupts it, wherever it awaits;
* `withChainLock_serial`: however handlers, sections and their continuations interleave, the
  sections have the effects and the results of one after the other;
* `withChainLock_unblocked`: a section that throws does not keep the next ones waiting.
-/

namespace Plainchain

open Js Kv Prog Turns List

/-- What a section returns. -/
inductive Answer
  | done
  | admission (verdict : Verdict)
  | template (template : Template)
  | adopted (adopted : Bool)
  | anchored (result : AnchorRecordResult) (tx : Option Transaction)

/-- The functions that are passed to `withChainLock`. -/
inductive Section
  | addTransaction (tx : Transaction)
  | handleIncomingBlock (env : Env) (block : Block) (fromNodeId : Text)
  | handleHeaders (env : Env) (headers : List BlockHeader) (fromNodeId : Text)
  | handleInvBlocks (hashes : List Text) (fromNodeId : Text)
  | buildBlockTemplate (env : Env)
  /-- A sealed block is adopted if the tip has not moved. -/
  | adoptMined (env : Env) (block : Block)
  /-- What `anchorRecord` does between its checks and its announcement. -/
  | anchorRecord (anchorKey : KeyPair) (now : ℕ) (data : Text)

section Sections

variable (opts : NodeOptions)

def Section.program : Section → NodeM Answer
  | .addTransaction tx => do pure (.admission (← admitTransaction opts tx))
  | .handleIncomingBlock env block fromNodeId => do
    Plainchain.handleIncomingBlock opts env block fromNodeId
    pure .done
  | .handleHeaders env headers fromNodeId => do
    Plainchain.handleHeaders opts env fromNodeId (headers.take opts.maxHeadersPerResponse)
    pure .done
  | .handleInvBlocks hashes fromNodeId => do
    Plainchain.handleInvBlocks opts hashes fromNodeId
    pure .done
  | .buildBlockTemplate env => do
    let w ← Prog.reads id
    pure (.template (← Prog.lift (Plainchain.buildBlockTemplate opts env w)))
  | .adoptMined env block => do
    let tip ← Prog.reads fun w => w.chain.tip
    if tip.map (·.hash) ≠ some block.header.previousHash then pure (.adopted false)
    else do
      adoptBlock opts env block
      pure (.adopted true)
  | .anchorRecord anchorKey now data => do
    let (result, tx) ← payForRecord opts anchorKey now data
    pure (.anchored result tx)

/-- The headers that a section brings to the node. -/
def Section.headers : Section → List BlockHeader
  | .handleIncomingBlock _ block _ => [block.header]
  | .handleHeaders _ headers _ => headers
  | .adoptMined _ block => [block.header]
  | _ => []

/-- The sections, one after the other. What one of them throws is its caller's. -/
def runSections (w : World) (sections : List Section) : World :=
  sections.foldl (fun w s => ((s.program opts).exec w).2) w

theorem runSections_concat (w : World) (sections : List Section) (s : Section) :
    runSections opts w (sections ++ [s]) = ((s.program opts).exec (runSections opts w sections)).2 := by
  simp [runSections]

/-- A sealed block is one of a template that a section before returned. -/
def SealsTemplates (w : World) (sections : List Section) : Prop :=
  ∀ before after env block, sections = before ++ .adoptMined env block :: after →
    ∃ made between env' template nonce key header,
      before = made ++ .buildBlockTemplate env' :: between ∧
      buildBlockTemplate opts env' (runSections opts w made) = .ok template ∧
      sealHeader opts.signatures opts.engine nonce key template.header = some header ∧
      block = template.block header

end Sections

/-! ## A section is a trace -/

section Trace

variable {opts : NodeOptions} {H : Set BlockHeader} {w : World}

theorem payForRecord_goes {C : World → Label → Prop} {I : World → Prop} (hK : Abides opts H C I)
    (hs : Sound opts H w) (key : KeyPair) (now : ℕ) (data : Text) :
    Goes opts H C I (payForRecord opts key now data) w fun _ _ => True := by
  refine .read ?_
  split
  · exact .pure trivial
  split
  · exact .pure trivial
  refine .lifted fun tx _ => ?_
  refine (admitTransaction_goes hK hs tx).bind fun verdict w' _ _ => ?_
  split
  · exact .pure trivial
  · exact .throw
  · exact .throw

variable (hinj : Set.InjOn computeBlockHash H)

include hinj

theorem Section.goes (s : Section) (hs : Sound opts H w) (hp : Pooled H w)
    (hmem : ∀ header ∈ s.headers, header ∈ H)
    (hext : ∀ env block, s = .adoptMined env block → Extends H w.chain block) :
    Goes opts H (fun _ _ => True) (fun _ => True) (s.program opts) w fun _ _ => True := by
  cases s with
  | addTransaction tx =>
    exact (admitTransaction_goes abides_true hs tx).done
  | handleIncomingBlock env block fromNodeId =>
    exact (handleIncomingBlock_goes hinj abides_true (settles_true hinj) hs hp
      (hmem _ (mem_singleton_self _)) fromNodeId).done
  | handleHeaders env headers fromNodeId =>
    exact (handleHeaders_goes hinj abides_true hs fun header hheader =>
      hmem _ (mem_of_mem_take hheader)).done
  | handleInvBlocks hashes fromNodeId =>
    have hS : Settles opts H (fun _ _ => True) (fun _ => True) ⟨0, fun _ => false⟩ :=
      settles_true hinj
    exact (handleMessage_goes hinj abides_true hS hs hp (.INV_BLOCKS hashes) fromNodeId
      (by simp [Event.headers])).done
  | buildBlockTemplate env =>
    exact .read (.lifted fun _ _ => .pure trivial)
  | adoptMined env block =>
    refine .read ?_
    split_ifs with htip
    · exact .pure trivial
    · exact (adoptBlock_goes hinj abides_true hs fun w' ha => ⟨.mine block, trivial,
        .mine (hext env block rfl) (not_not.1 htip) ha, by simp⟩).done
  | anchorRecord key now data =>
    exact (payForRecord_goes abides_true hs key now data).done

/-- From any of the sections on, the later ones make changes only. -/
theorem runSections_leads (hs : Sound opts H w) (hp : Pooled H w) {sections : List Section}
    (hmem : ∀ s ∈ sections, ∀ header ∈ s.headers, header ∈ H) (hsealed : SealsTemplates opts w sections)
    {made rest : List Section} (heq : sections = made ++ rest) :
    Sound opts H (runSections opts w made) ∧
      Leads opts H (fun _ _ => True) (fun _ => True) (runSections opts w made)
        (runSections opts w sections) := by
  induction sections using List.reverseRecOn generalizing made rest with
  | nil =>
    obtain ⟨rfl, -⟩ := append_eq_nil_iff.1 heq.symm
    exact ⟨hs, .refl _⟩
  | append_singleton sections s ih =>
    have ih {made rest : List Section} (heq : sections = made ++ rest) :=
      ih (fun s hs => hmem s (mem_append_left _ hs)) (fun before after env block heq =>
        hsealed before (after ++ [s]) env block (by simp [heq])) heq
    obtain ⟨hsound, -⟩ := ih (append_nil sections).symm
    have hlast : Leads opts H (fun _ _ => True) (fun _ => True) (runSections opts w sections)
        (runSections opts w (sections ++ [s])) := by
      rw [runSections_concat]
      have hpooled := (ih (nil_append sections).symm).2.pooled hp
      refine (s.goes hinj hsound hpooled (hmem s (by simp)) ?_).exec
      rintro env block rfl
      -- The template was made on a stored block, which is still stored.
      obtain ⟨made, between, env', template, nonce, key, header, hbefore, hbuild, hseal, rfl⟩ :=
        hsealed sections [] env block rfl
      obtain ⟨hthen, hleads⟩ := ih hbefore
      obtain ⟨parent, hparent, hrest⟩ := buildBlockTemplate_onStored hbuild
      have hstored : template.OnStored (runSections opts w sections) :=
        ⟨parent, hleads.trace.headerOf hinj hthen hparent, hrest⟩
      exact hstored.extends hseal (hmem _ (mem_append_right _ (mem_singleton_self _)) _
        (mem_singleton_self _))
    rcases rest.eq_nil_or_concat with rfl | ⟨rest, last, rfl⟩
    · rw [append_nil] at heq
      exact heq ▸ ⟨hlast.trace.sound hinj hsound, .refl _⟩
    · rw [concat_eq_append, ← append_assoc] at heq
      obtain ⟨hmade, hleads⟩ := ih (append_inj' heq rfl).1
      exact ⟨hmade, hleads.trans hlast⟩

end Trace

/-! ## Interleavings -/

/-- An asynchronous function that, when nothing interrupts it, does what the section does. -/
def Implements (opts : NodeOptions) (s : Section) (task : Task World (Except NodeError Answer)) :
    Prop :=
  ∀ w, task.run w = (s.program opts).exec w

/-- The promises of the sections `done` are settled as if each of them had run alone, in the
    order of the calls. Of the sections `rest` all wait, or the first one is on its way and
    will end as it does after those. -/
structure Serialised (opts : NodeOptions) (w₀ : World) (q : Queue World (Except NodeError Answer))
    (done rest : List Section) : Prop where
  settled : ∀ before s after, done = before ++ s :: after →
    ∃ call released, q.calls[before.length]? = some call ∧
      call.progress = .settled ((s.program opts).exec (runSections opts w₀ before)).1 released
  shared : Waiting (q.calls.drop done.length) ∧ q.shared = runSections opts w₀ done ∨
    ∃ s after call left, rest = s :: after ∧ q.calls[done.length]? = some call ∧
      call.progress = .running left ∧
      left.run q.shared = (s.program opts).exec (runSections opts w₀ done)

section Interleaving

variable {opts : NodeOptions} {w₀ : World} {sections : List Section}
  {q : Queue World (Except NodeError Answer)}

theorem serial_implements {calls : List (Call World (Except NodeError Answer))}
    (h : List.Forall₂ (fun s call => Implements opts s call.task) sections calls) :
    serial w₀ calls = runSections opts w₀ sections := by
  induction h generalizing w₀ with
  | nil => rfl
  | cons hs _ ih =>
    rw [serial_cons, hs, ih]
    rfl

theorem serialised_of_agrees (h : Agrees w₀ q.calls q.shared)
    (himpl : List.Forall₂ (Implements opts) sections (q.calls.map Call.task)) :
    ∃ done rest, sections = done ++ rest ∧ Serialised opts w₀ q done rest := by
  obtain ⟨done, rest, hcalls, hdone, hend⟩ := h.split
  rw [forall₂_map_right_iff, hcalls] at himpl
  have himplDone := forall₂_take_append _ _ _ himpl
  have himplRest := forall₂_drop_append _ _ _ himpl
  have hlength := himplDone.length_eq
  refine ⟨_, _, (take_append_drop done.length sections).symm, fun before s after heq => ?_, ?_⟩
  · rw [heq] at himplDone
    have hbefore := forall₂_take before.length himplDone
    have hafter := forall₂_drop before.length himplDone
    rw [take_left] at hbefore
    rw [drop_left] at hafter
    obtain ⟨call, calls, himpl, -, hdrop⟩ := forall₂_cons_left_iff.1 hafter
    obtain ⟨released, hsettled⟩ := hdone _ _ _ (hdrop ▸ (take_append_drop _ done).symm)
    rw [serial_implements hbefore, himpl] at hsettled
    have hget : done[before.length]? = some call := by
      rw [← Nat.add_zero before.length, ← getElem?_drop, hdrop]
      rfl
    refine ⟨call, released, ?_, hsettled⟩
    rw [hcalls, getElem?_append_left (List.getElem?_eq_some_iff.1 hget).1, hget]
  · rw [serial_implements himplDone] at hend
    rw [hlength, hcalls, drop_left]
    refine hend.imp_right ?_
    rintro ⟨call, waiting, left, rfl, -, hleft, hrun⟩
    obtain ⟨s, after, himpl, -, hdrop⟩ := forall₂_cons_right_iff.1 himplRest
    exact ⟨s, after, call, left, hdrop, by simp, hleft, hrun.trans (himpl _)⟩

end Interleaving

section Main

variable {opts : NodeOptions} {w₀ : World} {sections : List Section}
  {q : Queue World (Except NodeError Answer)} (hrun : Steps w₀ q)
  (himpl : List.Forall₂ (Implements opts) sections (q.calls.map Call.task))

include hrun himpl

/-- However the steps of sections and the calls of other sections interleave, the sections that
    have settled ran one after the other, in the order of their calls, and what they did to
    the node is a trace. -/
theorem withChainLock_serial {H : Set BlockHeader} (hinj : Set.InjOn computeBlockHash H)
    (hgenesis : opts.genesis.header ∈ H) (hstart : start opts = .ok w₀)
    (hmem : ∀ s ∈ sections, ∀ header ∈ s.headers, header ∈ H)
    (hsealed : SealsTemplates opts w₀ sections) :
    ∃ done rest, sections = done ++ rest ∧ Serialised opts w₀ q done rest ∧
      Trace opts H (fun _ _ => True) w₀ (runSections opts w₀ done) := by
  have hgood := start_good hgenesis hstart
  obtain ⟨done, rest, rfl, hserial⟩ := serialised_of_agrees hrun.agrees himpl
  refine ⟨done, rest, rfl, hserial, ?_⟩
  refine (runSections_leads hinj hgood.sound hgood.pooled
    (fun s hs => hmem s (mem_append_left _ hs)) (fun before after env block heq => ?_)
    (nil_append done).symm).2.trace
  exact hsealed before (after ++ rest) env block (by simp [heq])

/-- Nothing blocks, whatever a section threw: there is a next step, or all sections have run
    and each promise is settled. -/
theorem withChainLock_unblocked : (∃ q', Step q q') ∨
    q.shared = runSections opts w₀ sections ∧ Serialised opts w₀ q sections [] := by
  refine (exists_step_or_released q.shared q.calls [] nofun).symm.imp_right fun hsettled => ?_
  obtain ⟨done, rest, rfl, hserial⟩ := serialised_of_agrees hrun.agrees himpl
  have hlength := himpl.length_eq
  rw [length_append, length_map] at hlength
  -- The first section that has not settled would have a call that waits or runs.
  have hrest : rest = [] := by
    by_contra hne
    have hpos := length_pos_iff.2 hne
    have hcall : q.calls[done.length]? = some (q.calls.get ⟨done.length, by omega⟩) :=
      getElem?_eq_getElem _
    obtain ⟨result, hresult⟩ := hsettled _ (mem_of_getElem? hcall)
    rcases hserial.shared with ⟨hwaiting, -⟩ | ⟨s, after, call, left, -, hcall', hleft, -⟩
    · have hmem : q.calls.get ⟨done.length, by omega⟩ ∈ q.calls.drop done.length :=
        mem_of_getElem? (i := 0) (by rwa [getElem?_drop])
      rw [hwaiting _ hmem] at hresult
      cases hresult
    · rw [hcall] at hcall'
      cases hcall'
      rw [hleft] at hresult
      cases hresult
  subst hrest
  rw [append_nil]
  rcases hserial.shared with ⟨-, hshared⟩ | ⟨s, after, -, -, hrest, -⟩
  · exact ⟨hshared, hserial⟩
  · cases hrest

end Main

/-! ## A block and a template -/

/-- A section that awaits once, after all that it does. -/
def Section.task (opts : NodeOptions) (s : Section) : Task World (Except NodeError Answer) :=
  .await (fun w => ((s.program opts).exec w).2) fun w => .settle ((s.program opts).exec w).1

theorem Section.implements_task (opts : NodeOptions) (s : Section) :
    Implements opts s (s.task opts) := fun _ => rfl

/-- A peer sends a first block. -/
def blockSection : Section := .handleIncomingBlock sampleEnv firstBlock (lit "p")

/-- The miner asks for a template. -/
def templateSection : Section := .buildBlockTemplate sampleEnv

/-- The miner asks while the block is being handled. The block has been handled since, but its
    promise has not settled yet. -/
def asked : Queue World (Except NodeError Answer) where
  shared := runSections sampleOptions (started sampleOptions) [blockSection]
  calls :=
    [⟨blockSection.task sampleOptions, .running (.settle
      ((blockSection.program sampleOptions).exec (started sampleOptions)).1)⟩,
     ⟨templateSection.task sampleOptions, .waiting⟩]

theorem steps_asked : Steps (started sampleOptions) asked := by
  have hstarted : Steps (started sampleOptions) ⟨started sampleOptions,
      [⟨blockSection.task sampleOptions, .running (blockSection.task sampleOptions)⟩]⟩ :=
    .step (Steps.start.call (blockSection.task sampleOptions)) (@Step.start _ _ _ [] _ _ nofun)
  exact .step (hstarted.call (templateSection.task sampleOptions)) (@Step.advance _ _ _ [] _ _ _ _)

theorem implements_asked : List.Forall₂ (Implements sampleOptions) [blockSection, templateSection]
    (asked.calls.map Call.task) := by
  simp [asked, Section.implements_task]

theorem withChainLock_serial_asked :
    ∃ done rest, [blockSection, templateSection] = done ++ rest ∧
      Serialised sampleOptions (started sampleOptions) asked done rest ∧
      Trace sampleOptions sampleHeaders (fun _ _ => True) (started sampleOptions)
        (runSections sampleOptions (started sampleOptions) done) := by
  refine withChainLock_serial steps_asked implements_asked injOn_sampleHeaders (.inl rfl)
    start_sample ?_ fun before after env block heq => ?_
  · simp [blockSection, templateSection, Section.headers, sampleHeaders]
  · have hmem : .adoptMined env block ∈ [blockSection, templateSection] := heq ▸ by simp
    simp [blockSection, templateSection] at hmem

theorem withChainLock_unblocked_asked : (∃ q', Step asked q') ∨
    asked.shared =
      runSections sampleOptions (started sampleOptions) [blockSection, templateSection] ∧
    Serialised sampleOptions (started sampleOptions) asked [blockSection, templateSection] [] :=
  withChainLock_unblocked steps_asked implements_asked

end Plainchain
