/-
# Dictionaries

A `dict` keeps its entries in the order in which their keys were first inserted, and
has one entry for a key.
-/
import Mathlib

variable {κ ν : Type} [DecidableEq κ]
variable {l : List (κ × ν)}

/-- The entries of a dictionary after an assignment: an entry for the key keeps its
place, a new one goes to the end. -/
def setEntry (k : κ) (v : ν) : List (κ × ν) → List (κ × ν)
  | [] => [(k, v)]
  | e :: l => if e.1 = k then (k, v) :: l else e :: setEntry k v l

theorem mem_map_setEntry {k k' : κ} {v : ν} :
    k' ∈ (setEntry k v l).map Prod.fst ↔ k' = k ∨ k' ∈ l.map Prod.fst := by
  induction l with
  | nil => simp [setEntry]
  | cons e l ih =>
    rw [setEntry]
    split_ifs with he
    · subst he
      simp
    · rw [List.map_cons, List.mem_cons, ih, List.map_cons, List.mem_cons]
      tauto

theorem nodup_setEntry {k : κ} {v : ν} (h : (l.map Prod.fst).Nodup) :
    ((setEntry k v l).map Prod.fst).Nodup := by
  induction l with
  | nil => simp [setEntry]
  | cons e l ih =>
    rw [List.map_cons, List.nodup_cons] at h
    rw [setEntry]
    split_ifs with he
    · subst he
      rw [List.map_cons, List.nodup_cons]
      exact h
    · rw [List.map_cons, List.nodup_cons, mem_map_setEntry]
      refine ⟨?_, ih h.2⟩
      rintro (hk | hk)
      · exact he hk
      · exact h.1 hk

/-- A `dict`. -/
structure PyDict (κ ν : Type) where
  entries : List (κ × ν)
  nodup : (entries.map Prod.fst).Nodup

namespace PyDict

/-- `{}`. -/
def empty : PyDict κ ν := ⟨[], by simp⟩

/-- `d.get(k)`. -/
def get? (d : PyDict κ ν) (k : κ) : Option ν :=
  (d.entries.find? fun e => decide (e.1 = k)).map Prod.snd

/-- `d[k] = v`. -/
def set (d : PyDict κ ν) (k : κ) (v : ν) : PyDict κ ν := ⟨setEntry k v d.entries, nodup_setEntry d.nodup⟩

/-- `d.pop(k, None)`. -/
def pop (d : PyDict κ ν) (k : κ) : PyDict κ ν where
  entries := d.entries.filter fun e => e.1 ≠ k
  nodup := d.nodup.sublist (List.filter_sublist.map _)

variable {d : PyDict κ ν} {k k' : κ} {v : ν}

@[simp] theorem get?_empty (k : κ) : (empty : PyDict κ ν).get? k = none := rfl

omit [DecidableEq κ] in
@[simp] theorem entries_empty : (empty : PyDict κ ν).entries = [] := rfl

/-- An entry is what its key is looked up as. -/
theorem mem_entries_iff : (k, v) ∈ d.entries ↔ d.get? k = some v := by
  obtain ⟨l, hl⟩ := d
  simp only [get?]
  induction l with
  | nil => simp
  | cons e l ih =>
    rw [List.map_cons, List.nodup_cons] at hl
    rw [List.mem_cons, List.find?_cons]
    by_cases he : e.1 = k
    · subst he
      have hnot : (e.1, v) ∉ l := fun hmem => hl.1 (List.mem_map.mpr ⟨_, hmem, rfl⟩)
      simp only [hnot, or_false, decide_true, Option.map_some, Option.some.injEq]
      constructor
      · intro h
        rw [← h]
      · intro h
        rw [← h]
    · have hne : (k, v) ≠ e := fun h => he (by rw [← h])
      simp only [hne, false_or, he, decide_false]
      exact ih hl.2

theorem get?_set (d : PyDict κ ν) (k : κ) (v : ν) (k' : κ) :
    (d.set k v).get? k' = if k' = k then some v else d.get? k' := by
  obtain ⟨l, hl⟩ := d
  simp only [get?, set]
  clear hl
  induction l with
  | nil => simp [setEntry, eq_comm]
  | cons e l ih =>
    rw [setEntry]
    by_cases he : e.1 = k
    · subst he
      rw [if_pos rfl, List.find?_cons, List.find?_cons]
      by_cases hk : k' = e.1
      · subst hk
        simp
      · have hk' : ¬ e.1 = k' := fun h => hk h.symm
        simp [hk, hk']
    · rw [if_neg he, List.find?_cons, List.find?_cons]
      by_cases hk : e.1 = k'
      · subst hk
        simp [he]
      · simp only [hk, decide_false]
        exact ih

@[simp] theorem get?_set_self (d : PyDict κ ν) (k : κ) (v : ν) : (d.set k v).get? k = some v := by
  rw [get?_set, if_pos rfl]

theorem get?_set_of_ne (h : k' ≠ k) : (d.set k v).get? k' = d.get? k' := by
  rw [get?_set, if_neg h]

theorem get?_pop (d : PyDict κ ν) (k k' : κ) :
    (d.pop k).get? k' = if k' = k then none else d.get? k' := by
  simp only [get?, pop, List.find?_filter]
  by_cases hk : k' = k
  · subst hk
    rw [if_pos rfl]
    simp
  · rw [if_neg hk]
    congr 2
    funext e
    by_cases he : e.1 = k'
    · simp [he, hk]
    · simp [he]

end PyDict
