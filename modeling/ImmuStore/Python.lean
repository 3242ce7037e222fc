/-
# Python: exceptions, list items, `bisect`

What the modelled code takes from its language and from the standard library.
Methods that raise run in `Py σ`, where the state an exception leaves behind is the one
it found: assignments made before a `raise` stay made.
-/
import Mathlib

/-- The exceptions the modelled code can raise. -/
inductive PyError where
  | keyError
  | indexError
  | attributeError
  | typeError
  | valueError
  | structError
  | recursionError
  | keyEncodingError
  | conflictError
  | databaseCorruptionError
  | databaseClosedError
  | immuStoreError
  deriving DecidableEq, Repr

/-- What a method computes: it works on a state, and may raise. -/
abbrev Py : Type → Type → Type := EStateM PyError

/-- A `str`, as its code points; they are ordered lexicographically. -/
abbrev Text := List Char

instance : LawfulBEq Text := inferInstance

/-- What stands before a mark, and what stands behind it. -/
theorem eq_of_append_mark {β : Type} {a : β} {x x' rest rest' : List β} (hx : a ∉ x) (hx' : a ∉ x')
    (h : x ++ a :: rest = x' ++ a :: rest') : x = x' ∧ rest = rest' := by
  induction x generalizing x' with
  | nil =>
    cases x' with
    | nil => exact ⟨rfl, (List.cons.inj h).2⟩
    | cons b x' => exact absurd (List.mem_cons.mpr (.inl (List.cons.inj h).1)) hx'
  | cons b x ih =>
    cases x' with
    | nil => exact absurd (List.mem_cons.mpr (.inl (List.cons.inj h).1.symm)) hx
    | cons b' x' =>
      obtain ⟨rfl, htail⟩ := List.cons.inj h
      obtain ⟨rfl, hrest⟩ :=
        ih (List.not_mem_of_not_mem_cons hx) (List.not_mem_of_not_mem_cons hx') htail
      exact ⟨rfl, hrest⟩

/-! ## Running state-and-exception computations -/

section Run

variable {ε σ α β : Type}
variable {Q : α → Prop}
variable {x : Except ε α} {f : α → Except ε β}

/-- An exception skips the rest. -/
@[simp] theorem run_bind (x : EStateM ε σ α) (f : α → EStateM ε σ β) (s : σ) :
    (x >>= f) s = match x s with
      | .ok a s' => f a s'
      | .error e s' => .error e s' := rfl

@[simp] theorem run_map (f : α → β) (x : EStateM ε σ α) (s : σ) :
    (f <$> x) s = match x s with
      | .ok a s' => .ok (f a) s'
      | .error e s' => .error e s' := rfl

@[simp] theorem run_pure (a : α) (s : σ) : (pure a : EStateM ε σ α) s = .ok a s := rfl

@[simp] theorem run_get (s : σ) : (get : EStateM ε σ σ) s = .ok s s := rfl

@[simp] theorem run_modify (f : σ → σ) (s : σ) : (modify f : EStateM ε σ PUnit) s = .ok ⟨⟩ (f s) :=
  rfl

@[simp] theorem run_throw (e : ε) (s : σ) : (throw e : EStateM ε σ α) s = .error e s := rfl

/-- A sequence returns if both of its parts do. -/
theorem Except.bind_eq_ok {b : β} : x >>= f = .ok b ↔ ∃ a, x = .ok a ∧ f a = .ok b := by
  cases x with
  | error e => simp [bind, Except.bind]
  | ok a => simp [bind, Except.bind]

/-- A sequence raises if one of its parts does. -/
theorem Except.bind_eq_error {e : ε} :
    x >>= f = .error e ↔ x = .error e ∨ ∃ a, x = .ok a ∧ f a = .error e := by
  cases x with
  | error e => simp [bind, Except.bind]
  | ok a => simp [bind, Except.bind]

/-- The state a computation ends in, whether it returned or raised. -/
def resultState {α : Type} : EStateM.Result ε σ α → σ
  | .ok _ s => s
  | .error _ s => s

@[simp] theorem resultState_ok (a : α) (s : σ) :
    resultState (.ok a s : EStateM.Result ε σ α) = s := rfl

@[simp] theorem resultState_error (e : ε) (s : σ) :
    resultState (.error e s : EStateM.Result ε σ α) = s := rfl

/-- What a computation gives, without the state it ends in. -/
def resultValue {α : Type} : EStateM.Result ε σ α → Except ε α
  | .ok a _ => .ok a
  | .error e _ => .error e

@[simp] theorem resultValue_ok (a : α) (s : σ) :
    resultValue (.ok a s : EStateM.Result ε σ α) = .ok a := rfl

@[simp] theorem resultValue_error (e : ε) (s : σ) :
    resultValue (.error e s : EStateM.Result ε σ α) = .error e := rfl

/-- `try … finally …`, for a clean-up that cannot raise. -/
def andFinally (x : EStateM ε σ α) (cleanup : σ → σ) : EStateM ε σ α := fun s =>
  match x s with
  | .ok a s' => .ok a (cleanup s')
  | .error e s' => .error e (cleanup s')

@[simp] theorem ofExcept_ok (a : α) (s : σ) : (ofExcept (.ok a) : EStateM ε σ α) s = .ok a s := rfl

@[simp] theorem ofExcept_error (e : ε) (s : σ) :
    (ofExcept (.error e) : EStateM ε σ α) s = .error e s := rfl

/-- `try … except KeyError: …`. -/
def onKeyError (x handler : Py σ α) : Py σ α := fun s =>
  match x s with
  | .ok a s' => .ok a s'
  | .error .keyError s' => handler s'
  | .error e s' => .error e s'

section KeyErrors

variable {x handler : Py σ α} {s s' : σ}

theorem onKeyError_ok {a : α} (h : x s = .ok a s') : onKeyError x handler s = .ok a s' := by
  rw [onKeyError, h]

/-- The handler takes over from the state that `KeyError` has left. -/
theorem onKeyError_keyError (h : x s = .error .keyError s') :
    onKeyError x handler s = handler s' := by
  rw [onKeyError, h]

/-- Other exceptions pass. -/
theorem onKeyError_error {e : PyError} (h : x s = .error e s') (he : e ≠ .keyError) :
    onKeyError x handler s = .error e s' := by
  rw [onKeyError, h]
  cases e with
  | keyError => exact absurd rfl he
  | _ => rfl

end KeyErrors

/-- `try … except KeyError: …` without a state. -/
def Except.onKeyError (x : Except PyError α) (default : α) : Except PyError α :=
  match x with
  | .ok a => .ok a
  | .error .keyError => .ok default
  | .error e => .error e

/-- Whenever `x` returns, its value meets `Q`. -/
def Returns (x : EStateM ε σ α) (Q : α → Prop) : Prop := ∀ s a s', x s = .ok a s' → Q a

/-- What the first part returns is what the second is given. -/
theorem Returns.bind {x : EStateM ε σ α} {f : α → EStateM ε σ β} {P : α → Prop} {Q : β → Prop}
    (hx : Returns x P) (hf : ∀ a, P a → Returns (f a) Q) : Returns (x >>= f) Q := by
  intro s b s' h
  rw [run_bind] at h
  cases hrun : x s with
  | ok a t =>
    rw [hrun] at h
    exact hf a (hx s a t hrun) t b s' h
  | error e t =>
    rw [hrun] at h
    cases h

theorem Returns.pure {a : α} (h : Q a) : Returns (pure a : EStateM ε σ α) Q := by
  intro s b s' hrun
  obtain ⟨rfl, -⟩ : a = b ∧ s = s' := by simpa using hrun
  exact h

theorem Returns.throw {e : ε} : Returns (throw e : EStateM ε σ α) Q := by
  intro s b s' hrun
  cases hrun

theorem Returns.modify (f : σ → σ) : Returns (modify f : EStateM ε σ PUnit) fun _ => True :=
  fun _ _ _ _ => trivial

theorem Returns.ite {c : Prop} [Decidable c] {x y : EStateM ε σ α} (hx : Returns x Q)
    (hy : Returns y Q) : Returns (if c then x else y) Q := by
  split
  · exact hx
  · exact hy

end Run

/-! ## List items -/

section Items

variable {σ α : Type}
variable {a : List α}

/-- `a[i]`. -/
def getItem (a : List α) (i : ℕ) : Py σ α :=
  match a[i]? with
  | some x => pure x
  | none => throw .indexError

/-- `a[i] = x`, as the list it leaves. -/
def setItem (a : List α) (i : ℕ) (x : α) : Py σ (List α) :=
  if i < a.length then pure (a.set i x) else throw .indexError

/-- `del a[i]`, as the list it leaves. -/
def delItem (a : List α) (i : ℕ) : Py σ (List α) :=
  if i < a.length then pure (a.eraseIdx i) else throw .indexError

/-- `a.insert(i, x)`, as the list it leaves. -/
def insertItem (a : List α) (i : ℕ) (x : α) : List α := a.take i ++ x :: a.drop i

/-- `a[-1]`. -/
def lastItem (a : List α) : Py σ α :=
  match a.getLast? with
  | some x => pure x
  | none => throw .indexError

@[simp] theorem getItem_zero (x : α) (R : List α) :
    getItem (x :: R) 0 = (pure x : Py σ α) := rfl

@[simp] theorem getItem_one (x y : α) (R : List α) :
    getItem (x :: y :: R) 1 = (pure y : Py σ α) := rfl

/-- An item is found behind as many others as its index says. -/
@[simp] theorem getItem_append (L : List α) (x : α) (R : List α) :
    getItem (L ++ x :: R) L.length = (pure x : Py σ α) := by
  simp [getItem]

@[simp] theorem setItem_append (L : List α) (x y : α) (R : List α) :
    setItem (L ++ x :: R) L.length y = (pure (L ++ y :: R) : Py σ (List α)) := by
  simp [setItem]

@[simp] theorem delItem_append (L : List α) (x : α) (R : List α) :
    delItem (L ++ x :: R) L.length = (pure (L ++ R) : Py σ (List α)) := by
  simp [delItem, List.eraseIdx_append_of_length_le]

@[simp] theorem setItem_append_succ (L : List α) (x y z : α) (R : List α) :
    setItem (L ++ x :: y :: R) (L.length + 1) z =
      (pure (L ++ x :: z :: R) : Py σ (List α)) := by
  simpa using @setItem_append σ _ (L ++ [x]) y z R

@[simp] theorem delItem_append_succ (L : List α) (x y : α) (R : List α) :
    delItem (L ++ x :: y :: R) (L.length + 1) =
      (pure (L ++ x :: R) : Py σ (List α)) := by
  simpa using @delItem_append σ _ (L ++ [x]) y R

@[simp] theorem lastItem_concat (L : List α) (x : α) :
    lastItem (L ++ [x]) = (pure x : Py σ α) := by
  simp [lastItem]

@[simp] theorem insertItem_append (L R : List α) (x : α) :
    insertItem (L ++ R) L.length x = L ++ x :: R := by
  simp [insertItem]

/-- An item of a list is a member. -/
theorem returns_getItem (a : List α) (i : ℕ) :
    Returns (getItem a i : Py σ α) (· ∈ a) := by
  unfold getItem
  cases h : a[i]? with
  | none => exact .throw
  | some x => exact .pure (List.mem_of_getElem? h)

theorem returns_lastItem (a : List α) : Returns (lastItem a : Py σ α) (· ∈ a) := by
  unfold lastItem
  cases h : a.getLast? with
  | none => exact .throw
  | some x => exact .pure (List.mem_of_getLast? h)

theorem returns_setItem (a : List α) (i : ℕ) (x : α) :
    Returns (setItem a i x : Py σ (List α)) fun b => ∀ y ∈ b, y ∈ a ∨ y = x :=
  .ite (.pure fun _ hy => List.mem_or_eq_of_mem_set hy) .throw

theorem returns_delItem (a : List α) (i : ℕ) :
    Returns (delItem a i : Py σ (List α)) fun b => ∀ y ∈ b, y ∈ a :=
  .ite (.pure fun _ hy => List.mem_of_mem_eraseIdx hy) .throw

theorem mem_insertItem {i : ℕ} {x y : α} (h : y ∈ insertItem a i x) : y ∈ a ∨ y = x := by
  unfold insertItem at h
  rw [List.mem_append, List.mem_cons] at h
  rcases h with h | rfl | h
  · exact .inl (List.mem_of_mem_take h)
  · exact .inr rfl
  · exact .inl (List.mem_of_mem_drop h)

theorem exists_append_of_le {n : ℕ} (h : n ≤ a.length) : ∃ L R, a = L ++ R ∧ L.length = n :=
  ⟨a.take n, a.drop n, by simp, by simpa using h⟩

theorem exists_append_cons_of_lt {n : ℕ} (h : n < a.length) :
    ∃ L x R, a = L ++ x :: R ∧ L.length = n :=
  ⟨a.take n, a[n], a.drop (n + 1), by simp, by simpa using h.le⟩

end Items

/-! ## `bisect` -/

section Bisect

variable {α : Type}

/-- The loop of `bisect`: `goRight y` says that the search goes on to the right of
`y`; every turn shortens `hi - lo`, which `fuel` bounds. -/
def bisectLoop (goRight : α → Bool) (a : List α) : ℕ → ℕ → ℕ → ℕ
  | 0, lo, _ => lo
  | fuel + 1, lo, hi =>
    if lo < hi then
      match a[(lo + hi) / 2]? with
      | some y =>
        if goRight y then bisectLoop goRight a fuel ((lo + hi) / 2 + 1) hi
        else bisectLoop goRight a fuel lo ((lo + hi) / 2)
      | none => lo
    else lo

variable [LinearOrder α]
variable {a : List α}

/-- `bisect.bisect_left(a, x)`. -/
def bisectLeft (a : List α) (x : α) : ℕ :=
  bisectLoop (fun y => decide (y < x)) a a.length 0 a.length

/-- `bisect.bisect_right(a, x)`. -/
def bisectRight (a : List α) (x : α) : ℕ :=
  bisectLoop (fun y => !decide (x < y)) a a.length 0 a.length

omit [LinearOrder α] in
/-- The loop narrows to the index where `goRight` turns false, if it turns false
once. -/
theorem bisectLoop_spec (goRight : α → Bool) (fuel : ℕ)
    (hmono : a.Pairwise fun y z => goRight z = true → goRight y = true) {lo hi : ℕ}
    (hfuel : hi - lo ≤ fuel) (hle : lo ≤ hi) (hhi : hi ≤ a.length)
    (hbelow : ∀ y ∈ a.take lo, goRight y = true) (habove : ∀ y ∈ a.drop hi, goRight y = false) :
    bisectLoop goRight a fuel lo hi ≤ a.length ∧
      (∀ y ∈ a.take (bisectLoop goRight a fuel lo hi), goRight y = true) ∧
      ∀ y ∈ a.drop (bisectLoop goRight a fuel lo hi), goRight y = false := by
  induction fuel generalizing lo hi with
  | zero =>
    obtain rfl : lo = hi := by omega
    exact ⟨hhi, hbelow, habove⟩
  | succ fuel ih =>
    unfold bisectLoop
    by_cases hlt : lo < hi
    · have hmid : (lo + hi) / 2 < a.length := by omega
      rw [if_pos hlt, List.getElem?_eq_getElem hmid]
      rw [List.pairwise_iff_getElem] at hmono
      by_cases hgo : goRight (a[(lo + hi) / 2]) = true
      · simp only [hgo, if_true]
        apply ih (by omega) (by omega) hhi _ habove
        intro y hy
        obtain ⟨i, hi', rfl⟩ := List.mem_take_iff_getElem.mp hy
        rcases Nat.lt_or_ge i ((lo + hi) / 2) with h | h
        · exact hmono i ((lo + hi) / 2) (by omega) hmid h hgo
        · obtain rfl : i = (lo + hi) / 2 := by omega
          exact hgo
      · simp only [hgo]
        apply ih (by omega) (by omega) (by omega) hbelow
        intro y hy
        obtain ⟨i, hi', rfl⟩ := List.mem_drop_iff_getElem.mp hy
        rw [← Bool.not_eq_true]
        intro hy
        rcases Nat.eq_zero_or_pos i with rfl | h
        · exact hgo hy
        · exact hgo (hmono _ _ hmid (by omega) (by omega) hy)
    · obtain rfl : lo = hi := by omega
      rw [if_neg hlt]
      exact ⟨hhi, hbelow, habove⟩

/-- On a sorted list `bisect_left` cuts off the elements below `x`. -/
theorem bisectLeft_spec (h : a.Pairwise (· < ·)) (x : α) :
    ∃ L R, a = L ++ R ∧ bisectLeft a x = L.length ∧ (∀ y ∈ L, y < x) ∧ ∀ y ∈ R, x ≤ y := by
  obtain ⟨hle, hlt, hge⟩ := bisectLoop_spec (fun y => decide (y < x)) a.length
    (h.imp fun hyz => by simpa using fun hz => hyz.trans hz)
    le_rfl (Nat.zero_le _) le_rfl (by simp) (by simp)
  refine ⟨a.take (bisectLeft a x), a.drop (bisectLeft a x), by simp, ?_, ?_, ?_⟩
  · simpa [bisectLeft] using hle
  · simpa [bisectLeft] using hlt
  · simpa [bisectLeft] using hge

/-- On a sorted list `bisect_right` cuts off the elements up to `x`. -/
theorem bisectRight_spec (h : a.Pairwise (· < ·)) (x : α) :
    ∃ L R, a = L ++ R ∧ bisectRight a x = L.length ∧ (∀ y ∈ L, y ≤ x) ∧ ∀ y ∈ R, x < y := by
  obtain ⟨hle, hlt, hge⟩ := bisectLoop_spec (fun y => !decide (x < y)) a.length
    (h.imp fun hyz => by simpa using fun hz => hyz.le.trans hz)
    le_rfl (Nat.zero_le _) le_rfl (by simp) (by simp)
  refine ⟨a.take (bisectRight a x), a.drop (bisectRight a x), by simp, ?_, ?_, ?_⟩
  · simpa [bisectRight] using hle
  · simpa [bisectRight] using hlt
  · simpa [bisectRight] using hge

end Bisect
