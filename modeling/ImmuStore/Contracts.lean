/-
# Contracts of computations that may raise

`Meets x s Q E` says what a computation begun in the state `s` ends with: a value and a
state for which `Q` holds, or an exception and a state for which `E` does.  There is one
rule for each way of composing computations.
-/
import ImmuStore.Python

variable {ε σ α β : Type}
variable {Q : α → σ → Prop}

/-- Begun in `s`, the computation returns with `Q` or raises with `E`. -/
def Meets (x : EStateM ε σ α) (s : σ) (Q : α → σ → Prop) (E : ε → σ → Prop) : Prop :=
  match x s with
  | .ok a s' => Q a s'
  | .error e s' => E e s'

namespace Meets

variable {x : EStateM ε σ α} {s : σ} {Q Q' : α → σ → Prop} {E E' : ε → σ → Prop}
variable {a : α} {s' : σ} {e : ε} {R : β → σ → Prop}

theorem of_ok (h : x s = .ok a s') (hQ : Q a s') : Meets x s Q E := by
  rw [Meets, h]
  exact hQ

theorem of_error (h : x s = .error e s') (hE : E e s') : Meets x s Q E := by
  rw [Meets, h]
  exact hE

theorem ok (h : Meets x s Q E) (hx : x s = .ok a s') : Q a s' := by
  rw [Meets, hx] at h
  exact h

theorem error (h : Meets x s Q E) (hx : x s = .error e s') : E e s' := by
  rw [Meets, hx] at h
  exact h

theorem mono (h : Meets x s Q E) (hQ : ∀ a s', Q a s' → Q' a s') (hE : ∀ e s', E e s' → E' e s') :
    Meets x s Q' E' := by
  cases hx : x s with
  | ok a s' => exact of_ok hx (hQ a s' (h.ok hx))
  | error e s' => exact of_error hx (hE e s' (h.error hx))

/-- What holds of the state on either way out holds of the state at the end. -/
theorem resultState {P : σ → Prop} (h : Meets x s (fun _ => P) fun _ => P) :
    P (resultState (x s)) := by
  cases hx : x s with
  | ok a s' => exact h.ok hx
  | error e s' => exact h.error hx

protected theorem pure (h : Q a s) : Meets (pure a) s Q E := h

protected theorem throw (h : E e s) : Meets (throw e) s Q E := h

theorem ofExcept {x : Except ε α} (hQ : ∀ a, x = .ok a → Q a s) (hE : ∀ e, x = .error e → E e s) :
    Meets (ofExcept x) s Q E := by
  cases x with
  | ok a => exact hQ a rfl
  | error e => exact hE e rfl

/-- A sequence: what the first part ends with, the second one begins with. -/
protected theorem bind {f : α → EStateM ε σ β} (h : Meets x s (fun a s' => Meets (f a) s' R E) E) :
    Meets (x >>= f) s R E := by
  rw [Meets, run_bind]
  cases hx : x s with
  | ok a s' => exact h.ok hx
  | error e s' => exact h.error hx

protected theorem map {f : α → β} (h : Meets x s (fun a => R (f a)) E) : Meets (f <$> x) s R E := by
  rw [Meets, run_map]
  cases hx : x s with
  | ok a s' => exact h.ok hx
  | error e s' => exact h.error hx

end Meets

/-- A handler of `KeyError` begins with what the exception has left. -/
theorem Meets.onKeyError {x handler : Py σ α} {s : σ} {E : PyError → σ → Prop}
    (h : Meets x s Q fun e s' =>
      (e = .keyError → Meets handler s' Q E) ∧ (e ≠ .keyError → E e s')) :
    Meets (onKeyError x handler) s Q E := by
  cases hx : x s with
  | ok a s' => exact .of_ok (onKeyError_ok hx) (h.ok hx)
  | error e s' =>
    obtain ⟨hhandled, hraised⟩ := h.error hx
    by_cases he : e = .keyError
    · rw [Meets, onKeyError_keyError (he ▸ hx)]
      exact hhandled he
    · exact .of_error (onKeyError_error hx he) (hraised he)

/-- A clean-up that is made on either way out. -/
theorem Meets.cleanup {x : EStateM ε σ α} {s : σ} {E : ε → σ → Prop} {clean : σ → σ}
    (h : Meets x s (fun a s' => Q a (clean s')) fun e s' => E e (clean s')) :
    Meets (andFinally x clean) s Q E := by
  unfold Meets andFinally
  cases hx : x s with
  | ok a s' => exact h.ok hx
  | error e s' => exact h.error hx
