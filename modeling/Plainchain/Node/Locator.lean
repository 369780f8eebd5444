import Plainchain.Node.Serving

/-!
# Locators

A locator lists canonical hashes from the tip down: ten in a row, then with gaps that
double, and genesis at last. So it is short, and the first of its entries that a peer has
on its own canonical chain is at most twice as far from the tip as the fork is.

* `visited`: the heights of a locator;
* `Phase`: how the next height follows from the ones before;
* `locator_near`: the two chains, the entries and the height that the peer finds.
-/

namespace Plainchain

open Js Kv List

/-! ## Heights -/

/-- The heights that `locatorFrom` visits, where every height has a hash and `count` of
    them are listed already. -/
def visited : (fuel h step count : ℕ) → List ℕ
  | 0, _, _, _ => []
  | fuel + 1, h, step, count =>
    if h = 0 then []
    else
      let step := if 10 ≤ count + 1 then step * 2 else step
      h :: visited fuel (h - step) step (count + 1)

/-- Where the loop stands. The first ten heights are consecutive; from then on the height
    last visited is `step + 7` below the tip, and the next one is `step` below that. -/
inductive Phase (tip : ℕ) : (h step count : ℕ) → Prop
  | consecutive {h count : ℕ} (hcount : count ≤ 9) (hh : h = tip - count) : Phase tip h 1 count
  | doubling {h step count : ℕ} (hcount : 10 ≤ count) (hstep : 2 ≤ step)
    (hh : h = tip - (2 * step + 7)) : Phase tip h step count

/-- A height `s` up to `f` is at most twice as far from the tip as `f`, and it is `f`
    itself near the tip. -/
def Near (tip f s : ℕ) : Prop := s ≤ f ∧ tip - s ≤ 2 * (tip - f) ∧ (tip - f ≤ 9 → s = f)

namespace Phase

variable {tip h step count : ℕ}

theorem start (tip : ℕ) : Phase tip tip 1 0 := .consecutive (Nat.zero_le _) rfl

theorem step_pos (p : Phase tip h step count) : 1 ≤ step := by
  cases p with
  | consecutive => exact le_rfl
  | doubling _ hstep => omega

theorem next (p : Phase tip h step count) :
    Phase tip (h - if 10 ≤ count + 1 then step * 2 else step)
      (if 10 ≤ count + 1 then step * 2 else step) (count + 1) := by
  cases p with
  | consecutive hcount hh =>
    split
    · exact .doubling (by omega) le_rfl (by omega)
    · exact .consecutive (by omega) (by omega)
  | doubling hcount hstep hh =>
    rw [if_pos (by omega)]
    exact .doubling (by omega) (by omega) (by omega)

/-- What was visited is above `f`: the height after `h`, or the one `step + 7` below the
    tip. -/
def Above (_ : Phase tip h step count) (f : ℕ) : Prop :=
  if count ≤ 9 then f ≤ h else f + step + 7 < tip

theorem above_next (p : Phase tip h step count) {f : ℕ} (habove : p.Above f) (hlt : f < h) :
    p.next.Above f := by
  unfold Above at habove ⊢
  cases p with
  | consecutive hcount hh =>
    rw [if_pos hcount] at habove
    by_cases hlast : 10 ≤ count + 1
    · rw [if_neg (by omega), if_pos hlast]
      omega
    · rw [if_pos (by omega), if_neg hlast]
      omega
  | doubling hcount hstep hh =>
    rw [if_neg (by omega)] at habove ⊢
    rw [if_pos (by omega)]
    omega

/-- The next height, where it is not above `f`. -/
theorem near (p : Phase tip h step count) {f : ℕ} (hf : f ≤ tip) (habove : p.Above f)
    (hle : h ≤ f) : Near tip f h := by
  unfold Above at habove
  unfold Near
  cases p with
  | consecutive hcount hh =>
    rw [if_pos hcount] at habove
    omega
  | doubling hcount hstep hh =>
    rw [if_neg (by omega)] at habove
    omega

end Phase

section Visited

variable {tip fuel h step count : ℕ}

theorem visited_succ (hpos : h ≠ 0) : visited (fuel + 1) h step count =
    h :: visited fuel (h - if 10 ≤ count + 1 then step * 2 else step)
      (if 10 ≤ count + 1 then step * 2 else step) (count + 1) := by
  rw [visited, if_neg hpos]

theorem visited_zero : visited fuel 0 step count = [] := by
  cases fuel <;> rfl

theorem mem_visited (hstep : 1 ≤ step) {x : ℕ} (hx : x ∈ visited fuel h step count) :
    0 < x ∧ x ≤ h := by
  induction fuel generalizing h step count with
  | zero => cases hx
  | succ fuel ih =>
    by_cases hpos : h = 0
    · rw [hpos, visited_zero] at hx
      cases hx
    · rw [visited_succ hpos, mem_cons] at hx
      rcases hx with rfl | hx
      · omega
      · have := ih (by split <;> omega) hx
        omega

/-- The heights are strictly decreasing. -/
theorem pairwise_visited (hstep : 1 ≤ step) : (visited fuel h step count).Pairwise (· > ·) := by
  induction fuel generalizing h step count with
  | zero => exact .nil
  | succ fuel ih =>
    by_cases hpos : h = 0
    · rw [hpos, visited_zero]
      exact .nil
    · rw [visited_succ hpos]
      have hnext : 1 ≤ if 10 ≤ count + 1 then step * 2 else step := by split <;> omega
      refine .cons (fun x hx => ?_) (ih hnext)
      have := mem_visited hnext hx
      omega

/-- While the gaps double, a bound on the height leaves few of them. -/
theorem length_visited_doubling {k m : ℕ} (hk : k ≤ m) (htip : tip < 2 ^ (m + 1))
    (hcount : 10 ≤ count) (hh : h = tip - (2 * 2 ^ k + 7)) :
    (visited fuel h (2 ^ k) count).length ≤ m - k := by
  induction fuel generalizing h k count with
  | zero => exact Nat.zero_le _
  | succ fuel ih =>
    by_cases hpos : h = 0
    · rw [hpos, visited_zero]
      exact Nat.zero_le _
    · have hlt : 2 ^ (k + 1) < 2 ^ (m + 1) := by
        rw [pow_succ]
        omega
      have hkm : k + 1 < m + 1 := (Nat.pow_lt_pow_iff_right (by norm_num)).1 hlt
      rw [visited_succ hpos, if_pos (by omega), ← pow_succ, length_cons]
      have := ih (by omega : k + 1 ≤ m) (by omega : 10 ≤ count + 1)
        (by rw [pow_succ] at hlt ⊢; omega : h - 2 ^ (k + 1) = tip - (2 * 2 ^ (k + 1) + 7))
      omega

/-- At first there are ten heights. -/
theorem length_visited {m : ℕ} (hm : 1 ≤ m) (htip : tip < 2 ^ (m + 1)) (hcount : count ≤ 9)
    (hh : h = tip - count) :
    (visited fuel h 1 count).length ≤ (10 - count) + (m - 1) := by
  induction fuel generalizing h count with
  | zero => exact Nat.zero_le _
  | succ fuel ih =>
    by_cases hpos : h = 0
    · rw [hpos, visited_zero]
      exact Nat.zero_le _
    · rw [visited_succ hpos, length_cons]
      by_cases hlast : count = 9
      · have hrest : (visited fuel (h - 2) (2 ^ 1) (count + 1)).length ≤ m - 1 :=
          length_visited_doubling hm htip (by omega) (by omega)
        rw [if_pos (by omega)]
        simp only [pow_one, one_mul] at hrest ⊢
        omega
      · rw [if_neg (by omega)]
        have := ih (by omega : count + 1 ≤ 9) (by omega : h - 1 = tip - (count + 1))
        omega

/-- The first height that is not above `f`, genesis at last. -/
theorem nearest_visited {f : ℕ} (hf : f ≤ tip) (p : Phase tip h step count) (hfuel : h ≤ fuel)
    (habove : p.Above f) : Near tip f (((visited fuel h step count).find? (· ≤ f)).getD 0) := by
  induction fuel generalizing h step count with
  | zero =>
    obtain rfl : h = 0 := by omega
    exact p.near hf habove (Nat.zero_le f)
  | succ fuel ih =>
    by_cases hpos : h = 0
    · subst hpos
      rw [visited_zero]
      exact p.near hf habove (Nat.zero_le f)
    · rw [visited_succ hpos, find?_cons]
      by_cases hle : h ≤ f
      · rw [decide_eq_true hle]
        exact p.near hf habove hle
      · rw [decide_eq_false hle]
        have hstep := p.step_pos
        exact ih p.next (by split <;> omega) (p.above_next habove (not_le.1 hle))

end Visited

/-! ## Two chains -/

/-- The height index lists a stored chain of linked blocks from genesis to the tip. -/
structure Listed (chain : ChainState) (tip : ChainTip) : Prop where
  tip_eq : chain.tip = some tip
  stored : ∀ h ≤ tip.height, ∃ block, chain.getCanonicalHashAtHeight h = some block.hash ∧
    chain.getBlock block.hash = some block ∧ block.header.height = h
  linked : ∀ h hash block, chain.getCanonicalHashAtHeight (h + 1) = some hash →
    chain.getBlock hash = some block →
    chain.getCanonicalHashAtHeight h = some block.header.previousHash
  above : ∀ h hash, chain.getCanonicalHashAtHeight h = some hash → h ≤ tip.height

/-- This is so in every state that a node reaches. -/
theorem Sound.listed {opts : NodeOptions} {H : Set BlockHeader} {w : World} (h : Sound opts H w) :
    ∃ tip, Listed w.chain tip := by
  obtain ⟨head, hspine, -⟩ := h.spine
  refine ⟨⟨head.hash, head.header.height⟩, hspine.tip, ?_, ?_, ?_⟩
  · intro i hi
    obtain ⟨block, -, hblock⟩ := hspine.canonicalBlock_isSome h.stored hi
    exact ⟨block, hblock⟩
  · intro i hash block hc hb
    refine hspine.canonical_link h.stored ?_
    rw [canonicalBlock, hc, Option.bind_some, hb]
  · intro i hash hc
    exact (hspine.exists_canonical h.stored i).1 ⟨hash, hc⟩

section Chains

variable {opts : NodeOptions} {chain chain' : ChainState} {tip tip' : ChainTip}

variable (chain chain') in
/-- The canonical chains have the same block at a height. -/
def Agree (h : ℕ) : Prop :=
  ∃ hash, chain.getCanonicalHashAtHeight h = some hash ∧
    chain'.getCanonicalHashAtHeight h = some hash

variable (chain chain') in
/-- The height of the last block that the canonical chains share. -/
def LastCommon (f : ℕ) : Prop := Agree chain chain' f ∧ ∀ h, Agree chain chain' h → h ≤ f

variable (chain chain') in
/-- A hash stands for one header in both stores. -/
def SameHeaders : Prop := ∀ hash block block', chain.getBlock hash = some block →
  chain'.getBlock hash = some block' → block.header = block'.header

/-- The hashes of the heights that are visited. -/
theorem locatorFrom_eq (hlisted : Listed chain tip) {fuel h step : ℕ} (hh : h ≤ tip.height)
    (locator : List Text) :
    (locatorFrom chain fuel h step locator).map some =
      locator.map some ++
        (visited fuel h step locator.length).map chain.getCanonicalHashAtHeight := by
  induction fuel generalizing h step locator with
  | zero => simp [locatorFrom, visited]
  | succ fuel ih =>
    by_cases hpos : h = 0
    · rw [hpos, visited_zero]
      simp [locatorFrom]
    · obtain ⟨block, hc, -, -⟩ := hlisted.stored h hh
      have hlength : (locator ++ [block.hash]).length = locator.length + 1 := by simp
      rw [visited_succ hpos, locatorFrom, if_neg hpos, hc]
      dsimp only [Option.toList_some]
      rw [hlength, ih (by omega), hlength, map_cons, hc]
      simp

theorem buildLocator_eq (hlisted : Listed chain tip)
    (hgenesis : chain.getCanonicalHashAtHeight 0 = some opts.genesis.hash) :
    (buildLocator opts chain).map some =
      (visited tip.height tip.height 1 0 ++ [0]).map chain.getCanonicalHashAtHeight := by
  simp only [buildLocator, hlisted.tip_eq, map_append, map_cons, map_nil, hgenesis]
  rw [locatorFrom_eq hlisted le_rfl]
  rfl

/-- Where the chains agree, they agree further down. -/
theorem Agree.le (hlisted : Listed chain tip) (hlisted' : Listed chain' tip')
    (hsame : SameHeaders chain chain') {h f : ℕ} (hf : Agree chain chain' f) (hle : h ≤ f) :
    Agree chain chain' h := by
  have hftip : f ≤ tip.height := hlisted.above f _ hf.choose_spec.1
  have hftip' : f ≤ tip'.height := hlisted'.above f _ hf.choose_spec.2
  induction hle using Nat.decreasingInduction with
  | self => exact hf
  | of_succ i hi ih =>
    obtain ⟨hash, hc, hc'⟩ := ih
    obtain ⟨block, hblock, hstored, -⟩ := hlisted.stored (i + 1) (by omega)
    obtain ⟨block', hblock', hstored', -⟩ := hlisted'.stored (i + 1) (by omega)
    rw [hc] at hblock
    rw [hc'] at hblock'
    cases hblock
    have hhash : block.hash = block'.hash := by simpa using hblock'
    have hheader := hsame block.hash block block' hstored (hhash ▸ hstored')
    refine ⟨block.header.previousHash, hlisted.linked i _ block hc hstored, ?_⟩
    rw [hheader]
    exact hlisted'.linked i _ block' (hhash ▸ hc') (hhash ▸ hstored')

/-- What the peer finds of a canonical hash: its height, up to the last common block. -/
theorem sharedHeight_eq (hlisted : Listed chain tip) (hlisted' : Listed chain' tip')
    (hsame : SameHeaders chain chain') {f : ℕ} (hf : LastCommon chain chain' f) {h : ℕ} {hash : Text}
    (hh : h ≤ tip.height) (hc : chain.getCanonicalHashAtHeight h = some hash) :
    sharedHeight chain' hash = if h ≤ f then some h else none := by
  obtain ⟨block, hblock, hstored, hheight⟩ := hlisted.stored h hh
  obtain rfl : block.hash = hash := by simpa [hc] using hblock.symm
  split
  · next hle =>
    obtain ⟨hash', hc₁, hc'⟩ := hf.1.le hlisted hlisted' hsame hle
    obtain rfl : block.hash = hash' := by simpa [hc₁] using hc.symm
    obtain ⟨block', hblock', hstored', hheight'⟩ :=
      hlisted'.stored h (hlisted'.above h _ hc')
    have hhash : block.hash = block'.hash := by simpa [hc'] using hblock'
    rw [sharedHeight, hhash, hstored', Option.bind_eq_bind, Option.bind_some, hheight',
      if_pos hblock']
  · next hlt =>
    cases hb : chain'.getBlock block.hash with
    | none => rw [sharedHeight, hb]; rfl
    | some block' =>
      have hheader := hsame _ _ _ hstored hb
      rw [sharedHeight, hb, Option.bind_eq_bind, Option.bind_some, ← hheader, hheight]
      exact if_neg fun hc' => hlt (hf.2 h ⟨_, hc, hc'⟩)

/-- The first entry that the peer shares is that of the first height up to the last
    common block. -/
theorem findSome?_sharedHeight (hlisted : Listed chain tip) (hlisted' : Listed chain' tip')
    (hsame : SameHeaders chain chain') {f : ℕ} (hf : LastCommon chain chain' f) {heights : List ℕ}
    (hheights : ∀ h ∈ heights, h ≤ tip.height) {locator : List Text}
    (hlocator : locator.map some = heights.map chain.getCanonicalHashAtHeight) :
    locator.findSome? (sharedHeight chain') = heights.find? (· ≤ f) := by
  induction heights generalizing locator with
  | nil =>
    rw [map_nil, map_eq_nil_iff] at hlocator
    rw [hlocator]
    rfl
  | cons h heights ih =>
    cases locator with
    | nil => cases hlocator
    | cons hash locator =>
      rw [map_cons, map_cons, List.cons.injEq] at hlocator
      rw [forall_mem_cons] at hheights
      rw [findSome?_cons, find?_cons,
        sharedHeight_eq hlisted hlisted' hsame hf hheights.1 hlocator.1.symm]
      by_cases hle : h ≤ f
      · rw [if_pos hle, decide_eq_true hle]
      · rw [if_neg hle, decide_eq_false hle]
        exact ih hheights.2 hlocator.2

/-- The entries of a locator, and what a peer finds of them: a height at which the chains
    agree and that is not far below their last common block. -/
theorem locator_near (hlisted : Listed chain tip)
    (hgenesis : chain.getCanonicalHashAtHeight 0 = some opts.genesis.hash)
    (htip : tip.height < 2 ^ 53) :
    (∃ heights : List ℕ, heights.Pairwise (· > ·) ∧ heights.getLast? = some 0 ∧
      (buildLocator opts chain).map some = heights.map chain.getCanonicalHashAtHeight) ∧
    (buildLocator opts chain).getLast? = some opts.genesis.hash ∧
    (∀ fromHash, (fromHash :: buildLocator opts chain).length ≤ MAX_LOCATOR_ENTRIES) ∧
    ∀ chain' tip', Listed chain' tip' →
      chain'.getCanonicalHashAtHeight 0 = some opts.genesis.hash → SameHeaders chain chain' →
      (∃ f, LastCommon chain chain' f) ∧
      ∀ f, LastCommon chain chain' f →
        Agree chain chain' (highestSharedHeight chain' (buildLocator opts chain)) ∧
        Near tip.height f (highestSharedHeight chain' (buildLocator opts chain)) := by
  have hlocator := buildLocator_eq hlisted hgenesis
  have hlength : (buildLocator opts chain).length ≤ 62 := by
    have hvisited : (visited tip.height tip.height 1 0).length ≤ 10 - 0 + (52 - 1) :=
      length_visited (by norm_num) htip (Nat.zero_le _) rfl
    have := congrArg List.length hlocator
    simp only [length_map, length_append, length_singleton] at this
    omega
  have hmem : ∀ h ∈ visited tip.height tip.height 1 0 ++ [0], h ≤ tip.height := by
    intro h hh
    rcases mem_append.1 hh with hh | hh
    · exact (mem_visited le_rfl hh).2
    · rw [mem_singleton.1 hh]
      exact Nat.zero_le _
  refine ⟨⟨_, ?_, by simp, hlocator⟩, ?_, ?_, ?_⟩
  · rw [pairwise_append]
    refine ⟨pairwise_visited le_rfl, pairwise_singleton _ _, fun x hx y hy => ?_⟩
    rw [mem_singleton.1 hy]
    exact (mem_visited le_rfl hx).1
  · simp [buildLocator, hlisted.tip_eq]
  · intro fromHash
    rw [length_cons, MAX_LOCATOR_ENTRIES]
    omega
  · intro chain' tip' hlisted' hgenesis' hsame
    refine ⟨?_, fun f hf => ?_⟩
    · have hmem : {h | Agree chain chain' h}.Nonempty := ⟨0, _, hgenesis, hgenesis'⟩
      have hbdd : BddAbove {h | Agree chain chain' h} :=
        ⟨tip.height, fun h hh => hlisted.above h _ hh.choose_spec.1⟩
      exact ⟨_, Nat.sSup_mem hmem hbdd, fun h hh => le_csSup hbdd hh⟩
    · have hf_tip : f ≤ tip.height := hlisted.above f _ hf.1.choose_spec.1
      have hnear := nearest_visited hf_tip (Phase.start tip.height) le_rfl hf_tip
      have hfind : highestSharedHeight chain' (buildLocator opts chain) =
          ((visited tip.height tip.height 1 0).find? (· ≤ f)).getD 0 := by
        rw [highestSharedHeight, take_of_length_le (hlength.trans (by decide)),
          findSome?_sharedHeight hlisted hlisted' hsame hf hmem hlocator, find?_append]
        cases (visited tip.height tip.height 1 0).find? (· ≤ f) with
        | some h => rfl
        | none => simp
      rw [hfind]
      exact ⟨hf.1.le hlisted hlisted' hsame hnear.1, hnear⟩

end Chains

/-! ## Nodes -/

section Nodes

variable {opts : NodeOptions} {H : Set BlockHeader} {w w' : World}

theorem Sound.canonical_genesis (h : Sound opts H w) :
    w.chain.getCanonicalHashAtHeight 0 = some opts.genesis.hash := by
  obtain ⟨tip, hlisted⟩ := h.listed
  obtain ⟨block, hc, hblock, hheight⟩ := hlisted.stored 0 (Nat.zero_le _)
  rw [hc, h.stored.root _ _ hblock hheight]

/-- Nodes that meet no two headers of one hash. -/
theorem Sound.sameHeaders (hinj : Set.InjOn computeBlockHash H) (h : Sound opts H w)
    (h' : Sound opts H w') : SameHeaders w.chain w'.chain := by
  intro hash block block' hb hb'
  obtain ⟨hhash, hmem⟩ := h.stored.hashed _ _ hb
  obtain ⟨hhash', hmem'⟩ := h'.stored.hashed _ _ hb'
  exact hinj hmem hmem' (hhash.trans hhash'.symm)

end Nodes

/-- A node before and after it goes over to another branch. -/
theorem locator_near_reorg :
    (buildLocator sampleOptions beforeReorg.chain).length < MAX_LOCATOR_ENTRIES ∧
      ∃ f, LastCommon beforeReorg.chain afterReorg.chain f ∧
        Near 2 f (highestSharedHeight afterReorg.chain
          (buildLocator sampleOptions beforeReorg.chain)) := by
  have hs := reachable_beforeReorg.sound injOn_forkHeaders
  have hs' := (reachable_beforeReorg.deliver
    (mem_map_of_mem (by simp [forkBlocks]) : (branch 3).header ∈ forkHeaders)).sound
    injOn_forkHeaders
  obtain ⟨tip, hlisted⟩ := hs.listed
  obtain ⟨tip', hlisted'⟩ := hs'.listed
  have htip : tip.height = 2 := by
    have := hlisted.tip_eq.symm.trans reads_reorg.2.2.1.1
    cases this
    rfl
  obtain ⟨-, -, hlength, hpeer⟩ := locator_near hlisted hs.canonical_genesis (by rw [htip]; norm_num)
  obtain ⟨⟨f, hf⟩, hnear⟩ := hpeer _ _ hlisted' hs'.canonical_genesis
    (hs.sameHeaders injOn_forkHeaders hs')
  exact ⟨hlength [], f, hf, htip ▸ (hnear f hf).2⟩

end Plainchain
