/-
# Runs

Runs of a labelled step relation whose steps all meet a condition, and invariants of such
runs.  Methods that are cut into steps, so that others may act in between.  Handles that take
turns at a lock.
-/
import ImmuStore.Python

/-! ## Runs of a step relation -/

variable {σ ε : Type} {Step Meets Meets' : σ → ε → σ → Prop} {start s s' : σ}

/-- The states that are reached by steps that all meet a condition. -/
inductive Run (Step Meets : σ → ε → σ → Prop) (start : σ) : σ → Prop
  | refl : Run Step Meets start start
  | step {s s' : σ} {e : ε} : Run Step Meets start s → Step s e s' → Meets s e s' →
      Run Step Meets start s'

namespace Run

/-- What holds at the start, and is kept by every step that meets the condition, holds in
every state that is reached. -/
theorem invariant {I : σ → Prop} (h : Run Step Meets start s) (hstart : I start)
    (hstep : ∀ s e s', I s → Step s e s' → Meets s e s' → I s') : I s := by
  induction h with
  | refl => exact hstart
  | step _ hs hmeets ih => exact hstep _ _ _ ih hs hmeets

end Run

/-! ## Methods in steps -/

section Steps

variable {φ : Type} {step : φ → EStateM ε σ φ} {phase phase' : φ}
  {result : EStateM.Result ε σ φ}

/-- Several steps from a phase on. -/
def iterate (step : φ → EStateM ε σ φ) : ℕ → φ → EStateM ε σ φ
  | 0, phase => pure phase
  | n + 1, phase => do
    let phase ← step phase
    iterate step n phase

/-- What any number of steps gives, if it is large enough. -/
def EndsIn (step : φ → EStateM ε σ φ) (phase : φ) (s : σ) (result : EStateM.Result ε σ φ) : Prop :=
  ∃ n0, ∀ n, n0 ≤ n → iterate step n phase s = result

namespace EndsIn

theorem of_ok (hstep : step phase s = .ok phase' s') (h : EndsIn step phase' s' result) :
    EndsIn step phase s result := by
  obtain ⟨n0, hn0⟩ := h
  refine ⟨n0 + 1, fun n hn => ?_⟩
  obtain ⟨m, rfl⟩ : ∃ m, n = m + 1 := ⟨n - 1, by omega⟩
  rw [iterate, run_bind, hstep]
  exact hn0 m (by omega)

theorem of_error {e : ε} (hstep : step phase s = .error e s') : EndsIn step phase s (.error e s') := by
  refine ⟨1, fun n hn => ?_⟩
  obtain ⟨m, rfl⟩ : ∃ m, n = m + 1 := ⟨n - 1, by omega⟩
  rw [iterate, run_bind, hstep]

/-- A phase that stays as it is has ended. -/
theorem of_fixed (hstep : step phase s = .ok phase s) : EndsIn step phase s (.ok phase s) := by
  refine ⟨0, fun n hn => ?_⟩
  clear hn
  induction n with
  | zero => rfl
  | succ n ih =>
    rw [iterate, run_bind, hstep]
    exact ih

end EndsIn

end Steps

/-! ## Handles that share a lock -/

section Lock

variable {H : Type} (locked : H → Bool) {handles : ℕ → Option H} {i j : ℕ} {h0 : H}

/-- No handle but `i` holds the lock. -/
def LockFree (handles : ℕ → Option H) (i : ℕ) : Prop :=
  ∀ j ≠ i, ∀ h, handles j = some h → locked h = false

/-- A property of every handle after one of them was replaced. -/
theorem forall_update {P : H → Prop} (hothers : ∀ j ≠ i, ∀ h, handles j = some h → P h)
    (hnew : P h0) : ∀ j h, Function.update handles i (some h0) j = some h → P h := by
  intro j h hh
  by_cases hj : j = i
  · subst hj
    rw [Function.update_self] at hh
    cases hh
    exact hnew
  · rw [Function.update_of_ne hj] at hh
    exact hothers j hj h hh

theorem LockFree.update (hfree : LockFree locked handles i) :
    LockFree locked (Function.update handles i (some h0)) i := by
  intro j hj h hh
  rw [Function.update_of_ne hj] at hh
  exact hfree j hj h hh

theorem LockFree.update_unlocked (hfree : LockFree locked handles i) (hl : locked h0 = false) :
    LockFree locked (Function.update handles j (some h0)) i := by
  intro k hk h hh
  by_cases hj : k = j
  · subst hj
    rw [Function.update_self] at hh
    cases hh
    exact hl
  · rw [Function.update_of_ne hj] at hh
    exact hfree k hk h hh

/-- The lock has one holder after a call that took it only if it was free. -/
theorem alone_update
    (halone : ∀ j h, handles j = some h → locked h = true → LockFree locked handles j)
    (hlock : locked h0 = true → LockFree locked handles i) :
    ∀ j h, Function.update handles i (some h0) j = some h → locked h = true →
      LockFree locked (Function.update handles i (some h0)) j := by
  intro j h hh hl
  by_cases hj : j = i
  · subst hj
    rw [Function.update_self] at hh
    cases hh
    exact (hlock hl).update locked
  · rw [Function.update_of_ne hj] at hh
    refine (halone j h hh hl).update_unlocked locked ?_
    by_contra hlocked
    have := hlock (by simpa using hlocked) j hj h hh
    simp [hl] at this

end Lock
