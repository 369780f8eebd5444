import Mathlib.Data.List.Sort
import Plainchain.Lib.Store
import Plainchain.Lib.Text

/-!
# Rate limit

A counter per client for a window of fixed length. A client without a window, or with
one that has run out, gets a new window; what does not fit into the window is refused.
A call that is allowed evicts, when too many clients are tracked: the windows that have
run out, and then the oldest of the others.

* `Sound`: within each window as much was granted as it counts, and a window is given up
  only after it has run out;
* `limits_hold`: this keeps the number of clients and the weight of every window bounded
  while there is room for each new client;
* `limits_fail`: a call that is refused tracks its client too, and a client whose open
  window is evicted starts again.
-/

namespace Plainchain

open Js Kv List

structure RateLimitConfig where
  maxRequests : ℕ
  windowMs : ℤ
  maxClients : Option ℕ

inductive RateLimitDecision
  | allowed
  | refused (retryAfterMs : ℤ)
  deriving DecidableEq

/-- The window of a client. -/
structure RateWindow where
  start : ℤ
  count : ℕ
  deriving DecidableEq

structure RateLimiter where
  config : RateLimitConfig
  windows : OrdMap Text RateWindow

/-- A call of `consume`, with the time its clock reads. -/
structure ConsumeCall where
  clientId : Text
  weight : ℕ
  now : ℤ
  deriving DecidableEq

namespace RateLimiter

def new (config : RateLimitConfig) : RateLimiter := ⟨config, .empty⟩

def maxClients (limiter : RateLimiter) : ℕ := limiter.config.maxClients.getD 10000

def trackedClients (limiter : RateLimiter) : ℕ := limiter.windows.size

/-- The window has run out. -/
def stale (limiter : RateLimiter) (now : ℤ) (window : RateWindow) : Bool :=
  decide (limiter.config.windowMs ≤ now - window.start)

def evictStale (limiter : RateLimiter) (now : ℤ) : RateLimiter :=
  let active := limiter.windows.filter fun e => !limiter.stale now e.2
  if limiter.maxClients < active.size then
    -- All are active: drop the oldest windows.
    let oldest := active.entries.insertionSort fun a b => a.2.start ≤ b.2.start
    { limiter with
      windows := (oldest.take (active.size - limiter.maxClients)).foldl
        (fun windows e => windows.delete e.1) active }
  else { limiter with windows := active }

/-- The window that a call counts in. -/
def windowOf (limiter : RateLimiter) (clientId : Text) (now : ℤ) : RateWindow :=
  match limiter.windows.get clientId with
  | some window => if limiter.stale now window then ⟨now, 0⟩ else window
  | none => ⟨now, 0⟩

def consume (limiter : RateLimiter) (call : ConsumeCall) : RateLimitDecision × RateLimiter :=
  let window := limiter.windowOf call.clientId call.now
  if limiter.config.maxRequests < window.count + call.weight then
    -- A new window stays in the map, though nothing is counted in it.
    (.refused (max 1 (window.start + limiter.config.windowMs - call.now)),
      { limiter with windows := limiter.windows.set call.clientId window })
  else
    let counted := { limiter with
      windows := limiter.windows.set call.clientId
        { window with count := window.count + call.weight } }
    (.allowed,
      if counted.maxClients < counted.trackedClients then counted.evictStale call.now else counted)

end RateLimiter

/-! ## Calls one after the other -/

/-- A limiter, and the calls that it has allowed. -/
structure LimiterRun where
  limiter : RateLimiter
  granted : List ConsumeCall

namespace LimiterRun

def step (s : LimiterRun) (call : ConsumeCall) : LimiterRun :=
  ⟨(s.limiter.consume call).2,
    if (s.limiter.consume call).1 = .allowed then s.granted ++ [call] else s.granted⟩

def run (config : RateLimitConfig) (calls : List ConsumeCall) : LimiterRun :=
  calls.foldl step ⟨.new config, []⟩

/-- The weight that a client was allowed in a window that starts at `start`. -/
def spent (s : LimiterRun) (clientId : Text) (start : ℤ) : ℕ :=
  ((s.granted.filter fun g => g.clientId = clientId ∧ start ≤ g.now ∧
    g.now < start + s.limiter.config.windowMs).map ConsumeCall.weight).sum

end LimiterRun

namespace RateLimiter

/-- There is room for the client of a call: it is tracked, or the cap is not reached, or
    the call fits into a window and evicts a window that has run out. -/
def Roomy (limiter : RateLimiter) (call : ConsumeCall) : Prop :=
  (limiter.windows.get call.clientId).isSome ∨ limiter.trackedClients < limiter.maxClients ∨
    (call.weight ≤ limiter.config.maxRequests ∧
      ∃ e ∈ limiter.windows.entries, limiter.stale call.now e.2)

instance (limiter : RateLimiter) (call : ConsumeCall) : Decidable (limiter.Roomy call) := by
  unfold Roomy
  infer_instance

/-! ## One call -/

section Step

variable {limiter : RateLimiter} {call : ConsumeCall} {now : ℤ} {window : RateWindow}

theorem stale_iff : limiter.stale now window ↔ window.start + limiter.config.windowMs ≤ now := by
  rw [stale, decide_eq_true_iff]
  omega

theorem windowOf_of_none {clientId : Text} (h : limiter.windows.get clientId = none) :
    limiter.windowOf clientId now = ⟨now, 0⟩ := by
  rw [windowOf, h]

theorem windowOf_of_some {clientId : Text} (h : limiter.windows.get clientId = some window) :
    limiter.windowOf clientId now = if limiter.stale now window then ⟨now, 0⟩ else window := by
  rw [windowOf, h]

/-- The window of the call after it. -/
def counted (limiter : RateLimiter) (call : ConsumeCall) : RateWindow :=
  let window := limiter.windowOf call.clientId call.now
  if limiter.config.maxRequests < window.count + call.weight then window
  else { window with count := window.count + call.weight }

theorem counted_start :
    (limiter.counted call).start = (limiter.windowOf call.clientId call.now).start := by
  unfold counted
  dsimp only
  split <;> rfl

theorem consume_allowed : (limiter.consume call).1 = .allowed ↔
    (limiter.windowOf call.clientId call.now).count + call.weight ≤ limiter.config.maxRequests := by
  unfold consume
  dsimp only
  split
  · next h => exact iff_of_false (by simp) (by omega)
  · next h => exact iff_of_true rfl (by omega)

theorem counted_count : (limiter.counted call).count =
    (limiter.windowOf call.clientId call.now).count +
      if (limiter.consume call).1 = .allowed then call.weight else 0 := by
  unfold counted
  dsimp only
  split
  · next h => rw [if_neg (by rw [consume_allowed]; omega), add_zero]
  · next h => rw [if_pos (by rw [consume_allowed]; omega)]

theorem counted_count_le
    (h : (limiter.windowOf call.clientId call.now).count ≤ limiter.config.maxRequests) :
    (limiter.counted call).count ≤ limiter.config.maxRequests := by
  rw [counted_count]
  split
  · next hallowed => exact consume_allowed.1 hallowed
  · exact h

theorem evictStale_of_size (h : (limiter.windows.filter fun e => !limiter.stale now e.2).size ≤
    limiter.maxClients) :
    limiter.evictStale now =
      ⟨limiter.config, limiter.windows.filter fun e => !limiter.stale now e.2⟩ := by
  unfold evictStale
  exact if_neg (not_lt.2 h)

/-- The place of a window that has run out is free for a new client. -/
theorem size_evicted (hsize : limiter.trackedClients ≤ limiter.maxClients) {clientId : Text}
    (hnew : limiter.windows.get clientId = none) {e : Text × RateWindow}
    (he : e ∈ limiter.windows.entries) (hstale : limiter.stale now e.2) (w : RateWindow) :
    ((limiter.windows.set clientId w).filter fun e => !limiter.stale now e.2).size ≤
      limiter.maxClients := by
  have hget : limiter.windows.get e.1 = some e.2 := OrdMap.get_eq_some.2 he
  have hne : e.1 ≠ clientId := by
    intro h
    rw [h, hnew] at hget
    cases hget
  have hafter : (limiter.windows.set clientId w).get e.1 = some e.2 := by
    rw [OrdMap.get_set, if_neg hne, hget]
  have hlt : ((limiter.windows.set clientId w).filter fun e => !limiter.stale now e.2).size <
      (limiter.windows.set clientId w).size :=
    OrdMap.size_filter_lt hafter (by simp [hstale])
  have hle := OrdMap.size_set_le limiter.windows clientId w
  unfold trackedClients at hsize
  omega

/-- What a call leaves where there is room: its window is set, and windows that have run
    out may be gone. No open window is dropped. -/
theorem consume_roomy (hsize : limiter.trackedClients ≤ limiter.maxClients)
    (hroomy : limiter.Roomy call) :
    ∃ windows, (limiter.consume call).2 = ⟨limiter.config, windows⟩ ∧
      windows.size ≤ limiter.maxClients ∧
      (windows = limiter.windows.set call.clientId (limiter.counted call) ∨
        windows = (limiter.windows.set call.clientId (limiter.counted call)).filter
          fun e => !limiter.stale call.now e.2) := by
  -- Two of the cases of room leave the map within the cap.
  have hset : (limiter.windows.get call.clientId).isSome ∨
      limiter.trackedClients < limiter.maxClients →
      ∀ w, (limiter.windows.set call.clientId w).size ≤ limiter.maxClients := by
    rintro (h | h) w
    · obtain ⟨w₀, hw₀⟩ := Option.isSome_iff_exists.1 h
      rw [OrdMap.size_set_of_get hw₀]
      exact hsize
    · exact (OrdMap.size_set_le _ _ _).trans h
  unfold consume counted
  dsimp only
  split
  · next hover =>
    refine ⟨_, rfl, ?_, .inl rfl⟩
    rcases hroomy with h | h | ⟨hweight, -⟩
    · exact hset (.inl h) _
    · exact hset (.inr h) _
    · -- A call that fits into a window is refused only in one that is open.
      refine hset (.inl ?_) _
      cases hget : limiter.windows.get call.clientId with
      | some w => rfl
      | none =>
        rw [windowOf_of_none hget] at hover
        dsimp only at hover
        omega
  · split
    · next hcap =>
      obtain ⟨hnew, hfull⟩ := not_or.1 fun h => not_le.2 hcap (hset h _)
      rcases hroomy with h | h | ⟨-, e, he, hstale⟩
      · exact absurd h hnew
      · exact absurd h hfull
      · have hroom := size_evicted hsize (Option.not_isSome_iff_eq_none.1 hnew) he hstale
        exact ⟨_, evictStale_of_size (hroom _), hroom _, .inr rfl⟩
    · next hcap => exact ⟨_, rfl, not_lt.1 hcap, .inl rfl⟩

/-- The window a call counts in is open. -/
theorem windowOf_open (hpos : 0 < limiter.config.windowMs) (clientId : Text) :
    ¬ limiter.stale now (limiter.windowOf clientId now) := by
  have hnew : ¬ limiter.stale now ⟨now, 0⟩ := by
    rw [stale_iff]
    dsimp only
    omega
  cases hget : limiter.windows.get clientId with
  | none => rwa [windowOf_of_none hget]
  | some w =>
    rw [windowOf_of_some hget]
    split
    · exact hnew
    · assumption

theorem counted_open (hpos : 0 < limiter.config.windowMs) :
    ¬ limiter.stale call.now (limiter.counted call) := by
  rw [stale_iff, counted_start, ← stale_iff]
  exact windowOf_open hpos _

/-- The windows after a call for which there is room. -/
structure Consumed (limiter : RateLimiter) (call : ConsumeCall) (limiter' : RateLimiter) :
    Prop where
  config_eq : limiter'.config = limiter.config
  own : limiter'.windows.get call.clientId = some (limiter.counted call)
  other : ∀ clientId, clientId ≠ call.clientId → ∀ w, limiter'.windows.get clientId = some w →
    limiter.windows.get clientId = some w
  kept : ∀ clientId, clientId ≠ call.clientId → ∀ w, limiter.windows.get clientId = some w →
    limiter'.windows.get clientId = some w ∨ limiter.stale call.now w

theorem consumed (hpos : 0 < limiter.config.windowMs)
    (hsize : limiter.trackedClients ≤ limiter.maxClients) (hroomy : limiter.Roomy call) :
    limiter.Consumed call (limiter.consume call).2 := by
  obtain ⟨windows, heq, -, hwindows⟩ := consume_roomy hsize hroomy
  rw [heq]
  -- A window is there afterwards where it was set or there before, stale ones apart.
  have hget : ∀ clientId w, (limiter.windows.set call.clientId (limiter.counted call)).get clientId
      = some w → windows.get clientId = some w ∨ limiter.stale call.now w := by
    intro clientId w hw
    rcases hwindows with h | h
    · exact .inl (h ▸ hw)
    · by_cases hstale : limiter.stale call.now w = true
      · exact .inr hstale
      · rw [h, OrdMap.get_filter]
        exact .inl ⟨hw, by simpa using hstale⟩
  have hfrom : ∀ clientId w, windows.get clientId = some w →
      (limiter.windows.set call.clientId (limiter.counted call)).get clientId = some w := by
    intro clientId w hw
    rcases hwindows with h | h
    · exact h ▸ hw
    · rw [h] at hw
      exact (OrdMap.get_filter.1 hw).1
  have hown : (limiter.windows.set call.clientId (limiter.counted call)).get call.clientId =
      some (limiter.counted call) := by
    rw [OrdMap.get_set, if_pos rfl]
  refine ⟨rfl, (hget _ _ hown).resolve_right (counted_open hpos), ?_, ?_⟩
  · intro clientId hne w hw
    have hset := hfrom _ _ hw
    rwa [OrdMap.get_set, if_neg hne] at hset
  · intro clientId hne w hw
    refine hget _ _ ?_
    rwa [OrdMap.get_set, if_neg hne]

end Step

end RateLimiter

/-! ## Whole runs -/

namespace LimiterRun

variable {config : RateLimitConfig} {calls : List ConsumeCall} {s : LimiterRun}
  {call : ConsumeCall} {now : ℤ}

theorem run_append (config : RateLimitConfig) (calls : List ConsumeCall) (call : ConsumeCall) :
    run config (calls ++ [call]) = (run config calls).step call := by
  simp [run]

theorem spent_eq_zero {clientId : Text} {start : ℤ} (h : ∀ g ∈ s.granted, g.clientId = clientId →
    start ≤ g.now → start + s.limiter.config.windowMs ≤ g.now) : s.spent clientId start = 0 := by
  have hnone : (s.granted.filter fun g => decide (g.clientId = clientId ∧ start ≤ g.now ∧
      g.now < start + s.limiter.config.windowMs)) = [] := by
    rw [filter_eq_nil_iff]
    intro g hg hin
    obtain ⟨hclient, hge, hlt⟩ := of_decide_eq_true hin
    exact not_le.2 hlt (h g hg hclient hge)
  rw [spent, hnone]
  rfl

/-- The calls a limiter grants count in the window they fall in. -/
theorem spent_step (hconfig : (s.step call).limiter.config = s.limiter.config) (clientId : Text)
    (start : ℤ) :
    (s.step call).spent clientId start = s.spent clientId start +
      if (s.limiter.consume call).1 = .allowed ∧ call.clientId = clientId ∧ start ≤ call.now ∧
        call.now < start + s.limiter.config.windowMs then call.weight else 0 := by
  unfold spent
  rw [hconfig]
  by_cases hallowed : (s.limiter.consume call).1 = .allowed
  · have hgranted : (s.step call).granted = s.granted ++ [call] := if_pos hallowed
    rw [hgranted, filter_append, map_append, sum_append]
    by_cases hin : call.clientId = clientId ∧ start ≤ call.now ∧
        call.now < start + s.limiter.config.windowMs
    · simp [hin, hallowed]
    · simp [hin]
  · have hgranted : (s.step call).granted = s.granted := if_neg hallowed
    simp [hgranted, hallowed]

/-- Calls on a clock that does not run back, with room for each of them. -/
structure RoomyRun (config : RateLimitConfig) (calls : List ConsumeCall) : Prop where
  clock : calls.Pairwise fun a b => a.now ≤ b.now
  roomy : ∀ before call after, calls = before ++ call :: after →
    (run config before).limiter.Roomy call

namespace RoomyRun

theorem of_append {after : List ConsumeCall} (h : RoomyRun config (calls ++ after)) :
    RoomyRun config calls where
  clock := (pairwise_append.1 h.clock).1
  roomy before c rest heq := h.roomy before c (rest ++ after) (by rw [heq]; simp)

theorem le_last (h : RoomyRun config (calls ++ [call])) : ∀ c ∈ calls, c.now ≤ call.now :=
  fun c hc => (pairwise_append.1 h.clock).2.2 c hc call (mem_singleton_self _)

/-- The configuration stays, and the cap on clients is kept. -/
theorem tracked (h : RoomyRun config calls) : (run config calls).limiter.config = config ∧
    (run config calls).limiter.trackedClients ≤ (run config calls).limiter.maxClients := by
  induction calls using List.reverseRecOn with
  | nil => exact ⟨rfl, Nat.zero_le _⟩
  | append_singleton calls call ih =>
    obtain ⟨hconfig, hsize⟩ := ih h.of_append
    obtain ⟨windows, heq, hle, -⟩ :=
      RateLimiter.consume_roomy hsize (h.roomy calls call [] rfl)
    have hstep : ((run config calls).step call).limiter = ⟨_, windows⟩ := heq
    rw [run_append, hstep]
    exact ⟨hconfig, hle⟩

theorem consumed (hpos : 0 < config.windowMs) (h : RoomyRun config (calls ++ [call])) :
    (run config calls).limiter.Consumed call ((run config calls).step call).limiter :=
  RateLimiter.consumed (h.of_append.tracked.1.symm ▸ hpos) h.of_append.tracked.2
    (h.roomy calls call [] rfl)

end RoomyRun

/-- What holds at a time `now` after every call so far. -/
structure Sound (s : LimiterRun) (now : ℤ) : Prop where
  /-- A call that was granted at this very time is in the window its client still has. -/
  covered : ∀ g ∈ s.granted, g.now < now ∨ ∃ w, s.limiter.windows.get g.clientId = some w ∧
    w.start ≤ g.now ∧ g.now < w.start + s.limiter.config.windowMs
  counts : ∀ clientId w, s.limiter.windows.get clientId = some w →
    w.start ≤ now ∧ s.spent clientId w.start ≤ w.count ∧ w.count ≤ s.limiter.config.maxRequests

namespace Sound

theorem new (config : RateLimitConfig) (now : ℤ) : Sound ⟨.new config, []⟩ now where
  covered := by simp
  counts := by simp [RateLimiter.new]

theorem mono (h : Sound s now) {now' : ℤ} (hle : now ≤ now') : Sound s now' where
  covered g hg := (h.covered g hg).imp_left fun hlt => hlt.trans_le hle
  counts clientId w hw := ⟨(h.counts clientId w hw).1.trans hle, (h.counts clientId w hw).2⟩

/-- The same for the window in which the next call counts: it is new and nothing was
    granted in it, or it was open. -/
theorem windowOf (h : Sound s now) (clientId : Text) :
    (s.limiter.windowOf clientId now).start ≤ now ∧
      s.spent clientId (s.limiter.windowOf clientId now).start ≤
        (s.limiter.windowOf clientId now).count ∧
      (s.limiter.windowOf clientId now).count ≤ s.limiter.config.maxRequests := by
  have hnew : (∀ w, s.limiter.windows.get clientId = some w → s.limiter.stale now w) →
      s.spent clientId now = 0 := by
    refine fun hstale => spent_eq_zero fun g hg hclient hge => ?_
    subst hclient
    rcases h.covered g hg with hlt | ⟨w, hw, -, hlt⟩
    · omega
    · have := RateLimiter.stale_iff.1 (hstale w hw)
      omega
  cases hget : s.limiter.windows.get clientId with
  | none =>
    rw [RateLimiter.windowOf_of_none hget]
    refine ⟨le_rfl, (hnew fun w hw => ?_).le, Nat.zero_le _⟩
    rw [hget] at hw
    cases hw
  | some w =>
    rw [RateLimiter.windowOf_of_some hget]
    split
    · next hstale =>
      refine ⟨le_rfl, (hnew fun w' hw' => ?_).le, Nat.zero_le _⟩
      rw [hget] at hw'
      cases hw'
      exact hstale
    · exact h.counts clientId w hget

/-- One call for which there is room. -/
theorem step (h : Sound s call.now) (hpos : 0 < s.limiter.config.windowMs)
    (hafter : s.limiter.Consumed call (s.step call).limiter) : Sound (s.step call) call.now := by
  have hcounted : ¬ s.limiter.stale call.now (s.limiter.counted call) :=
    RateLimiter.counted_open hpos
  rw [RateLimiter.stale_iff] at hcounted
  have hconfig : (s.step call).limiter.config = s.limiter.config := hafter.config_eq
  obtain ⟨hstart, hspent, hmax⟩ := h.windowOf call.clientId
  refine ⟨?_, ?_⟩
  · intro g hg
    rw [hconfig]
    have hcases : g ∈ s.granted ∨ g = call := by
      change g ∈ (if _ then _ else _) at hg
      split at hg
      · simpa using hg
      · exact .inl hg
    rcases hcases with hg | rfl
    · rcases h.covered g hg with hlt | ⟨w, hw, hle, hlt⟩
      · exact .inl hlt
      · by_cases hclient : g.clientId = call.clientId
        · by_cases hstale : s.limiter.stale call.now w
          · exact .inl (hlt.trans_le (RateLimiter.stale_iff.1 hstale))
          · rw [hclient] at hw ⊢
            refine .inr ⟨_, hafter.own, ?_⟩
            rw [RateLimiter.counted_start, RateLimiter.windowOf_of_some hw, if_neg hstale]
            exact ⟨hle, hlt⟩
        · rcases hafter.kept _ hclient w hw with hw' | hstale
          · exact .inr ⟨w, hw', hle, hlt⟩
          · exact .inl (hlt.trans_le (RateLimiter.stale_iff.1 hstale))
    · refine .inr ⟨_, hafter.own, ?_, not_le.1 hcounted⟩
      rwa [RateLimiter.counted_start]
  · intro clientId w hw
    rw [hconfig, spent_step hconfig]
    by_cases hclient : clientId = call.clientId
    · subst hclient
      cases hafter.own.symm.trans hw
      rw [RateLimiter.counted_start]
      refine ⟨hstart, ?_, RateLimiter.counted_count_le hmax⟩
      rw [RateLimiter.counted_count]
      refine Nat.add_le_add hspent ?_
      split
      · next hin => rw [if_pos hin.1]
      · exact Nat.zero_le _
    · rw [if_neg fun hin => hclient hin.2.1.symm]
      exact h.counts clientId w (hafter.other _ hclient w hw)

/-- A run with room for every call. -/
theorem run (hpos : 0 < config.windowMs) (h : RoomyRun config calls)
    (hnow : ∀ call ∈ calls, call.now ≤ now) : Sound (LimiterRun.run config calls) now := by
  induction calls using List.reverseRecOn generalizing now with
  | nil => exact new config now
  | append_singleton calls call ih =>
    rw [run_append]
    exact ((ih h.of_append h.le_last).step (h.of_append.tracked.1.symm ▸ hpos) (h.consumed hpos)).mono
      (hnow call (by simp))

end Sound

/-- A window that was seen: its client still has it, or it has run out, and it stays
    within its budget. -/
def Settled (s : LimiterRun) (now : ℤ) (clientId : Text) (start : ℤ) : Prop :=
  (∃ w, s.limiter.windows.get clientId = some w ∧ w.start = start) ∨
    (start + s.limiter.config.windowMs ≤ now ∧
      s.spent clientId start ≤ s.limiter.config.maxRequests)

namespace Settled

variable {clientId : Text} {start : ℤ}

theorem mono (h : Settled s now clientId start) {now' : ℤ} (hle : now ≤ now') :
    Settled s now' clientId start :=
  h.imp_right fun hout => ⟨hout.1.trans hle, hout.2⟩

theorem spent_le (h : Settled s now clientId start) (hsound : Sound s now) :
    s.spent clientId start ≤ s.limiter.config.maxRequests := by
  rcases h with ⟨w, hw, rfl⟩ | ⟨-, hle⟩
  · exact (hsound.counts clientId w hw).2.1.trans (hsound.counts clientId w hw).2.2
  · exact hle

theorem step (h : Settled s call.now clientId start) (hsound : Sound s call.now)
    (hafter : s.limiter.Consumed call (s.step call).limiter) :
    Settled (s.step call) call.now clientId start := by
  have hconfig : (s.step call).limiter.config = s.limiter.config := hafter.config_eq
  -- What is granted now is not in a window that has run out.
  have hout : start + s.limiter.config.windowMs ≤ call.now →
      Settled (s.step call) call.now clientId start := by
    intro hle
    refine .inr ?_
    rw [hconfig, spent_step hconfig, if_neg fun hin => not_le.2 hin.2.2.2 hle]
    exact ⟨hle, h.spent_le hsound⟩
  rcases h with ⟨w, hw, rfl⟩ | ⟨hle, -⟩
  · by_cases hstale : s.limiter.stale call.now w
    · exact hout (RateLimiter.stale_iff.1 hstale)
    · by_cases hclient : clientId = call.clientId
      · subst hclient
        refine .inl ⟨_, hafter.own, ?_⟩
        rw [RateLimiter.counted_start, RateLimiter.windowOf_of_some hw, if_neg hstale]
      · exact .inl ⟨w, (hafter.kept _ hclient w hw).resolve_right hstale, rfl⟩
  · exact hout hle

theorem run {before after : List ConsumeCall} {w : RateWindow}
    (hw : (LimiterRun.run config before).limiter.windows.get clientId = some w)
    (hpos : 0 < config.windowMs) (h : RoomyRun config (before ++ after))
    (hnow : ∀ call ∈ before ++ after, call.now ≤ now) :
    Settled (LimiterRun.run config (before ++ after)) now clientId w.start := by
  induction after using List.reverseRecOn generalizing now with
  | nil =>
    rw [append_nil]
    exact .inl ⟨w, hw, rfl⟩
  | append_singleton after call ih =>
    rw [← append_assoc] at h hnow ⊢
    rw [run_append]
    exact ((ih h.of_append h.le_last).step (Sound.run hpos h.of_append h.le_last)
      (h.consumed hpos)).mono (hnow call (by simp))

end Settled

/-- In a run with room for every call the cap on clients is kept after each call, and no
    window that a client gets, at any point of the run, grants more than its budget. -/
theorem limits_hold (config : RateLimitConfig) (calls : List ConsumeCall)
    (hclock : calls.Pairwise fun a b => a.now ≤ b.now)
    (hroomy : ∀ before call after, calls = before ++ call :: after →
      (run config before).limiter.Roomy call) :
    ∀ before after, calls = before ++ after →
      (run config before).limiter.trackedClients ≤ config.maxClients.getD 10000 ∧
        ∀ clientId w, (run config before).limiter.windows.get clientId = some w →
          (run config calls).spent clientId w.start ≤ config.maxRequests := by
  intro before after heq
  have hrun : RoomyRun config calls := ⟨hclock, hroomy⟩
  obtain ⟨hconfig, hsize⟩ := RoomyRun.tracked (heq ▸ hrun).of_append
  refine ⟨?_, fun clientId w hw => ?_⟩
  · rwa [RateLimiter.maxClients, hconfig] at hsize
  · have hconfig' := hrun.tracked.1
    by_cases hpos : 0 < config.windowMs
    · obtain ⟨now, hmax⟩ := (finite_toSet (calls.map ConsumeCall.now)).bddAbove
      have hnow : ∀ call ∈ calls, call.now ≤ now := fun call hcall =>
        hmax (mem_map_of_mem hcall)
      have hsettled := Settled.run hw hpos (heq ▸ hrun) (heq ▸ hnow)
      rw [← heq] at hsettled
      have hle := hsettled.spent_le (Sound.run hpos hrun hnow)
      rwa [hconfig'] at hle
    · -- A window without length grants nothing.
      rw [spent_eq_zero fun g _ _ hge => by rw [hconfig']; omega]
      exact Nat.zero_le _

/-- Room for every call of a run can be checked. -/
theorem roomy_of_forall (h : ∀ n < calls.length, ∀ call ∈ calls[n]?,
    (run config (calls.take n)).limiter.Roomy call) :
    ∀ before call after, calls = before ++ call :: after →
      (run config before).limiter.Roomy call := by
  rintro before call after rfl
  simpa using h before.length (by simp) call (by simp)

/-- Two requests for each of at most one client, in windows of 100 ms. -/
def smallLimit : RateLimitConfig := ⟨2, 100, some 1⟩

/-- A client that exceeds its budget, and another one after the window of the first. -/
def turns : List ConsumeCall :=
  [⟨lit "10.0.0.1", 1, 0⟩, ⟨lit "10.0.0.1", 2, 50⟩, ⟨lit "10.0.0.2", 2, 100⟩]

theorem limits_hold_turns :
    ((run smallLimit turns).limiter.trackedClients ≤ 1 ∧
      ∀ clientId w, (run smallLimit turns).limiter.windows.get clientId = some w →
        (run smallLimit turns).spent clientId w.start ≤ 2) ∧
      (run smallLimit turns).spent (lit "10.0.0.2") 100 = 2 :=
  ⟨limits_hold smallLimit turns (by decide) (roomy_of_forall (by decide +kernel)) turns []
    (append_nil _).symm, by decide +kernel⟩

/-- Refused calls track their clients beyond the cap; and the call of another client
    evicts an open window, so that its client gets a second budget within it. -/
theorem limits_fail :
    (run smallLimit [⟨lit "10.0.0.1", 3, 0⟩, ⟨lit "10.0.0.2", 3, 0⟩]).limiter.trackedClients = 2 ∧
      (run smallLimit [⟨lit "10.0.0.1", 2, 0⟩]).limiter.windows.get (lit "10.0.0.1") =
        some ⟨0, 2⟩ ∧
      (run smallLimit [⟨lit "10.0.0.1", 2, 0⟩, ⟨lit "10.0.0.2", 1, 0⟩,
        ⟨lit "10.0.0.1", 2, 1⟩]).spent (lit "10.0.0.1") 0 = 4 := by
  decide +kernel

end LimiterRun

end Plainchain
