import Mathlib.Tactic.Common
import Mathlib.Data.Set.Basic
import Mathlib.Order.Defs.Unbundled

/-!
# Programs

Programs that read and write a state and may throw. What was written before a
throw stays written, as in a language with mutable objects: the state is a
result of a run whether it returns or throws (`Prog.exec`).

* `bind_returns`: how a sequence of two programs returns;
* `zoom`: a program over a part of the state, which leaves the rest alone;
* `Keeps`: a relation between the states before and after, however a run ends,
  and the rules that carry it through sequences and loops;
* `Wp`: what a run has to satisfy when it returns, and when it throws; the rules
  follow the program (`wp_bind`, `wp_tryCatch`, `wp_forM`);
* `Along`: both at once, for programs that keep a relation and return with something.
-/

/-- A program over states `σ` that may throw an `ε`. -/
abbrev Prog (σ ε : Type) := ExceptT ε (StateM σ)

namespace Prog

variable {σ ε α β : Type}

/-- Runs a program: how it ends, and the state it leaves. -/
def exec (m : Prog σ ε α) (s : σ) : Except ε α × σ := m s

/-- The program of a function on states. -/
def of (f : σ → Except ε α × σ) : Prog σ ε α := f

/-- A computation that reads the state only. -/
def reads (f : σ → α) : Prog σ ε α := of fun s => (.ok (f s), s)

/-- A write. -/
def writes (f : σ → σ) : Prog σ ε Unit := of fun s => (.ok (), f s)

/-- A computation without effects that may throw. -/
def lift (x : Except ε α) : Prog σ ε α := of fun s => (x, s)

@[simp] theorem exec_of (f : σ → Except ε α × σ) (s : σ) : exec (of f) s = f s := rfl

@[simp] theorem exec_pure (a : α) (s : σ) : exec (pure a : Prog σ ε α) s = (.ok a, s) := rfl

@[simp] theorem exec_throw (e : ε) (s : σ) : exec (throw e : Prog σ ε α) s = (.error e, s) := rfl

@[simp] theorem exec_reads (f : σ → α) (s : σ) :
    exec (reads f : Prog σ ε α) s = (.ok (f s), s) := rfl

@[simp] theorem exec_writes (f : σ → σ) (s : σ) :
    exec (writes f : Prog σ ε Unit) s = (.ok (), f s) := rfl

@[simp] theorem exec_lift (x : Except ε α) (s : σ) : exec (lift x) s = (x, s) := rfl

theorem exec_bind (m : Prog σ ε α) (f : α → Prog σ ε β) (s : σ) :
    exec (m >>= f) s =
      match exec m s with
      | (.ok a, s') => exec (f a) s'
      | (.error e, s') => (.error e, s') := by
  change (ExceptT.bind m f : StateM σ (Except ε β)) s = _
  simp only [ExceptT.bind, ExceptT.mk, exec, bind, StateT.bind]
  rcases m s with ⟨_ | a, s'⟩ <;> rfl

variable {m : Prog σ ε α} {s' : σ}

/-- A sequence returns when both of its parts do. -/
theorem bind_returns {f : α → Prog σ ε β} {s : σ} {b : β} :
    exec (m >>= f) s = (.ok b, s') ↔
      ∃ a s₁, exec m s = (.ok a, s₁) ∧ exec (f a) s₁ = (.ok b, s') := by
  rw [exec_bind]
  rcases exec m s with ⟨_ | a, s₁⟩ <;> simp

/-- A `try ... catch`: the handler starts from the state the throw left. -/
theorem exec_tryCatch (m : Prog σ ε α) (f : ε → Prog σ ε α) (s : σ) :
    exec (tryCatch m f) s =
      match exec m s with
      | (.ok a, s') => (.ok a, s')
      | (.error e, s') => exec (f e) s' := by
  change (ExceptT.tryCatch m f : StateM σ (Except ε α)) s = _
  simp only [ExceptT.tryCatch, ExceptT.mk, exec, bind, StateT.bind]
  rcases m s with ⟨_ | a, s'⟩ <;> rfl

/-! ## A part of the state -/

section Zoom

variable {τ : Type} (view : σ → τ) (update : σ → τ → σ)

/-- A program over a part of the state. -/
def zoom (m : Prog τ ε α) : Prog σ ε α :=
  of fun s => ((exec m (view s)).1, update s (exec m (view s)).2)

@[simp] theorem exec_zoom (m : Prog τ ε α) (s : σ) :
    exec (zoom view update m) s = ((exec m (view s)).1, update s (exec m (view s)).2) := rfl

end Zoom

/-! ## What a program keeps -/

/-- Whether the program returns or throws, the states before and after are
    related. -/
def Keeps (R : σ → σ → Prop) (m : Prog σ ε α) : Prop := ∀ s, R s (exec m s).2

namespace Keeps

variable {R : σ → σ → Prop} {m : Prog σ ε α}

section Refl

variable [Std.Refl R]

theorem pure (a : α) : Keeps R (Pure.pure a : Prog σ ε α) := fun s => refl s

theorem throw (e : ε) : Keeps R (MonadExcept.throw e : Prog σ ε α) := fun s => refl s

theorem lift (x : Except ε α) : Keeps R (Prog.lift x : Prog σ ε α) := fun s => refl s

theorem reads (f : σ → α) : Keeps R (Prog.reads f : Prog σ ε α) := fun s => refl s

end Refl

theorem bind [IsTrans σ R] {f : α → Prog σ ε β} (hm : Keeps R m) (hf : ∀ a, Keeps R (f a)) :
    Keeps R (m >>= f) := by
  intro s
  have h := hm s
  rw [exec_bind]
  rcases hr : exec m s with ⟨_ | a, s'⟩
  · rw [hr] at h
    exact h
  · rw [hr] at h
    exact IsTrans.trans _ _ _ h (hf a s')

end Keeps

/-! ## Weakest preconditions -/

/-- From the state `s` the program returns with `Q`, or throws with `E`. -/
def Wp (m : Prog σ ε α) (s : σ) (Q : α → σ → Prop) (E : ε → σ → Prop) : Prop :=
  match exec m s with
  | (.ok a, s') => Q a s'
  | (.error e, s') => E e s'

section Wp

variable {Q : α → σ → Prop} {E : ε → σ → Prop} {s : σ}

theorem wp_eq_ok {a : α} (h : exec m s = (.ok a, s')) : Wp m s Q E ↔ Q a s' := by
  rw [Wp, h]

theorem wp_eq_error {e : ε} (h : exec m s = (.error e, s')) : Wp m s Q E ↔ E e s' := by
  rw [Wp, h]

@[simp] theorem wp_of (f : σ → Except ε α × σ) :
    Wp (of f) s Q E ↔ match f s with | (.ok a, s') => Q a s' | (.error e, s') => E e s' := Iff.rfl

@[simp] theorem wp_pure (a : α) : Wp (pure a) s Q E ↔ Q a s := Iff.rfl

@[simp] theorem wp_throw (e : ε) : Wp (throw e) s Q E ↔ E e s := Iff.rfl

@[simp] theorem wp_reads (f : σ → α) : Wp (reads f) s Q E ↔ Q (f s) s := Iff.rfl

@[simp] theorem wp_writes {Q : Unit → σ → Prop} (f : σ → σ) :
    Wp (writes f) s Q E ↔ Q () (f s) := Iff.rfl

theorem wp_lift {x : Except ε α} (hok : ∀ a, x = .ok a → Q a s)
    (herror : ∀ e, x = .error e → E e s) : Wp (lift x) s Q E := by
  cases x with
  | error e => exact herror e rfl
  | ok a => exact hok a rfl

@[simp] theorem wp_bind {Q : β → σ → Prop} (m : Prog σ ε α) (f : α → Prog σ ε β) :
    Wp (m >>= f) s Q E ↔ Wp m s (fun a s' => Wp (f a) s' Q E) E := by
  rw [Wp, Wp, exec_bind]
  rcases exec m s with ⟨_ | a, s'⟩ <;> rfl

@[simp] theorem wp_tryCatch (m : Prog σ ε α) (f : ε → Prog σ ε α) :
    Wp (tryCatch m f) s Q E ↔ Wp m s Q fun e s' => Wp (f e) s' Q E := by
  rw [Wp, Wp, exec_tryCatch]
  rcases exec m s with ⟨_ | a, s'⟩ <;> rfl

theorem Wp.mono {Q' : α → σ → Prop} {E' : ε → σ → Prop} (h : Wp m s Q E)
    (hQ : ∀ a s', Q a s' → Q' a s') (hE : ∀ e s', E e s' → E' e s') : Wp m s Q' E' := by
  unfold Wp at h ⊢
  rcases hr : Prog.exec m s with ⟨e | a, s'⟩
  · rw [hr] at h
    exact hE e s' h
  · rw [hr] at h
    exact hQ a s' h

theorem Wp.and {Q' : α → σ → Prop} {E' : ε → σ → Prop} (h : Wp m s Q E) (h' : Wp m s Q' E') :
    Wp m s (fun a s' => Q a s' ∧ Q' a s') fun e s' => E e s' ∧ E' e s' := by
  unfold Wp at h h' ⊢
  rcases hr : Prog.exec m s with ⟨e | a, s'⟩
  · rw [hr] at h h'
    exact ⟨h, h'⟩
  · rw [hr] at h h'
    exact ⟨h, h'⟩

/-- What is kept holds of the last state, however the run ends. -/
theorem Keeps.wp {R : σ → σ → Prop} (h : Keeps R m) (s : σ) :
    Wp m s (fun _ s' => R s s') fun _ s' => R s s' := by
  have hs := h s
  rw [Wp]
  rcases hr : Prog.exec m s with ⟨e | a, s'⟩ <;> rw [hr] at hs <;> exact hs

/-- What holds of the last state, however the run ends. -/
theorem Wp.exec {P : σ → Prop} (h : Wp m s (fun _ => P) fun _ => P) : P (exec m s).2 := by
  rw [Wp] at h
  rcases hr : Prog.exec m s with ⟨e | a, s'⟩ <;> rw [hr] at h <;> exact h

/-- A loop keeps what each of its rounds keeps. -/
theorem wp_forM {ι : Type} {P : σ → Prop} {f : ι → Prog σ ε PUnit} (l : List ι)
    (hf : ∀ i ∈ l, ∀ s, P s → Wp (f i) s (fun _ => P) E) {s : σ} (h : P s) :
    Wp (forM l f) s (fun _ => P) E := by
  induction l generalizing s with
  | nil => exact h
  | cons i l ih =>
    rw [List.forM_cons, wp_bind]
    exact (hf i List.mem_cons_self s h).mono
      (fun _ s' h' => ih (fun j hj => hf j (List.mem_cons_of_mem _ hj)) h') fun _ _ h' => h'

end Wp

/-! ## Programs along a relation -/

/-- However it ends, the program leaves a state that is related to the first one, and it
    returns with `Q`. -/
def Along (R : σ → σ → Prop) (m : Prog σ ε α) (s : σ) (Q : α → σ → Prop) : Prop :=
  Wp m s (fun a s' => R s s' ∧ Q a s') fun _ s' => R s s'

namespace Along

variable {R : σ → σ → Prop} {m : Prog σ ε α} {s : σ} {Q : α → σ → Prop} {Q' : β → σ → Prop}

theorem exec (h : Along R m s Q) : R s (exec m s).2 :=
  Wp.exec (Wp.mono h (fun _ _ h' => h'.1) fun _ _ h' => h')

theorem mono {Q' : α → σ → Prop} (h : Along R m s Q) (hQ : ∀ a s', R s s' → Q a s' → Q' a s') :
    Along R m s Q' :=
  Wp.mono h (fun a s' h' => ⟨h'.1, hQ a s' h'.1 h'.2⟩) fun _ _ h' => h'

theorem of_exec {r : Except ε α} (hexec : Prog.exec m s = (r, s')) (hR : R s s')
    (hQ : ∀ a, r = .ok a → Q a s') : Along R m s Q := by
  cases r with
  | error e => exact (wp_eq_error hexec).2 hR
  | ok a => exact (wp_eq_ok hexec).2 ⟨hR, hQ a rfl⟩

variable {k : α → Prog σ ε β}

/-- A program that goes on with what it has read. -/
theorem read {f : σ → α} (h : Along R (k (f s)) s Q') : Along R (Prog.reads f >>= k) s Q' := by
  rw [Along, wp_bind]
  exact h

/-- A program on a part of the state. -/
theorem zoom {τ : Type} {view : σ → τ} {update : σ → τ → σ} {T : τ → τ → Prop} {m : Prog τ ε α}
    {Q : α → τ → Prop} (h : Along T m (view s) Q)
    (hR : ∀ t, T (view s) t → R s (update s t)) :
    Along R (Prog.zoom view update m) s fun a s' =>
      ∃ t, s' = update s t ∧ T (view s) t ∧ Q a t := by
  unfold Along Wp at *
  rw [exec_zoom]
  rcases hr : Prog.exec m (view s) with ⟨e | a, t⟩ <;> rw [hr] at h
  · exact hR t h
  · exact ⟨hR t h.1, t, rfl, h⟩

section Refl

variable [Std.Refl R]

theorem pure {a : α} (h : Q a s) : Along R (Pure.pure a : Prog σ ε α) s Q := ⟨refl s, h⟩

theorem throw {e : ε} : Along R (MonadExcept.throw e : Prog σ ε α) s Q := refl s

/-- A program that goes on with what was computed, if nothing was thrown. -/
theorem lifted {x : Except ε α} (h : ∀ a, x = .ok a → Along R (k a) s Q') :
    Along R (Prog.lift x >>= k) s Q' := by
  rw [Along, wp_bind]
  exact wp_lift h fun _ _ => refl s

end Refl

variable [IsTrans σ R]

theorem bind (hm : Along R m s Q) (hk : ∀ a s', R s s' → Q a s' → Along R (k a) s' Q') :
    Along R (m >>= k) s Q' := by
  rw [Along, wp_bind]
  refine Wp.mono hm (fun a s' h => ?_) fun _ _ h => h
  exact Wp.mono (hk a s' h.1 h.2) (fun b s'' h' => ⟨IsTrans.trans _ _ _ h.1 h'.1, h'.2⟩)
    fun _ s'' h' => IsTrans.trans _ _ _ h.1 h'

/-- A program that has nothing left to do but to return. -/
theorem done [Std.Refl R] {f : α → β} (hm : Along R m s Q) :
    Along R (m >>= fun a => Pure.pure (f a)) s fun _ _ => True :=
  hm.bind fun _ _ _ _ => .pure trivial

end Along

end Prog
