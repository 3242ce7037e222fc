/-
# Association lists with increasing keys

A list of bindings whose keys strictly increase stands for a finite partial map
(`Represents`).  Writing and removing one binding is described by where it stands
in the list (`Inserted`, `Removed`), so that a change inside a piece of a larger
list is a change of the larger list, and becomes `update` on the map.
-/
import Mathlib

open Function

variable {α ν : Type} [LinearOrder α]

/-- The keys of the bindings strictly increase. -/
def KeysIncrease (l : List (α × ν)) : Prop := l.Pairwise fun a b => a.1 < b.1

/-- In a list with increasing keys a key is bound once. -/
theorem KeysIncrease.functional {l : List (α × ν)} (h : KeysIncrease l) {k : α} {v w : ν}
    (hv : (k, v) ∈ l) (hw : (k, w) ∈ l) : v = w := by
  induction l with
  | nil => simp at hv
  | cons b l ih =>
    obtain ⟨hlt, hl⟩ := List.pairwise_cons.mp h
    rcases List.mem_cons.mp hv with rfl | hv'
    · rcases List.mem_cons.mp hw with hw' | hw'
      · exact (Prod.mk.inj hw').2.symm
      · exact absurd (hlt _ hw') (lt_irrefl _)
    · rcases List.mem_cons.mp hw with rfl | hw'
      · exact absurd (hlt _ hv') (lt_irrefl _)
      · exact ih hl hv' hw'

/-! ## One binding written, one binding removed -/

/-- `l'` is `l` with `key` bound to `v`; `n` bindings were added. -/
inductive Inserted (key : α) (v : ν) : List (α × ν) → List (α × ν) → ℕ → Prop
  | added (L R : List (α × ν)) : Inserted key v (L ++ R) (L ++ (key, v) :: R) 1
  | replaced (L R : List (α × ν)) (w : ν) :
      Inserted key v (L ++ (key, w) :: R) (L ++ (key, v) :: R) 0

/-- `l'` is `l` without its binding of `key`. -/
inductive Removed (key : α) : List (α × ν) → List (α × ν) → Prop
  | intro (L R : List (α × ν)) (v : ν) : Removed key (L ++ (key, v) :: R) (L ++ R)

section Context

omit [LinearOrder α]

variable {key : α} {v : ν} {l l' : List (α × ν)} {n : ℕ}

theorem Inserted.context (h : Inserted key v l l' n) (A B : List (α × ν)) :
    Inserted key v (A ++ (l ++ B)) (A ++ (l' ++ B)) n := by
  cases h with
  | added L R => simpa using (Inserted.added (A ++ L) (R ++ B) : Inserted key v _ _ 1)
  | replaced L R w => simpa using (Inserted.replaced (A ++ L) (R ++ B) w : Inserted key v _ _ 0)

theorem Inserted.length_eq (h : Inserted key v l l' n) : l'.length = l.length + n := by
  cases h with
  | added L R => simp; omega
  | replaced L R w => simp

theorem Inserted.mem (h : Inserted key v l l' n) {b : α × ν} (hb : b ∈ l') : b.1 = key ∨ b ∈ l := by
  cases h with
  | added L R =>
    simp only [List.mem_append, List.mem_cons] at hb ⊢
    rcases hb with hb | rfl | hb
    · exact .inr (.inl hb)
    · exact .inl rfl
    · exact .inr (.inr hb)
  | replaced L R w =>
    simp only [List.mem_append, List.mem_cons] at hb ⊢
    rcases hb with hb | rfl | hb
    · exact .inr (.inl hb)
    · exact .inl rfl
    · exact .inr (.inr (.inr hb))

theorem Removed.context (h : Removed key l l') (A B : List (α × ν)) :
    Removed key (A ++ (l ++ B)) (A ++ (l' ++ B)) := by
  cases h with
  | intro L R w => simpa using (Removed.intro (A ++ L) (R ++ B) w : Removed key _ _)

theorem Removed.length_eq (h : Removed key l l') : l.length = l'.length + 1 := by
  cases h
  simp
  omega

theorem Removed.sublist (h : Removed key l l') : l'.Sublist l := by
  cases h with
  | intro L R w => exact (List.sublist_cons_self _ _).append_left L

end Context

/-! ## The map a list stands for -/

/-- The list binds exactly the keys of the partial map `f`, in increasing order. -/
structure Represents (l : List (α × ν)) (f : α → Option ν) : Prop where
  increasing : KeysIncrease l
  mem_iff : ∀ k v, (k, v) ∈ l ↔ f k = some v

namespace Represents

variable {l l' : List (α × ν)} {f : α → Option ν} {key : α} {v : ν} {n : ℕ}
variable {L R : List (α × ν)}

theorem nil : Represents ([] : List (α × ν)) fun _ => none := ⟨List.Pairwise.nil, by simp⟩

/-- One binding. -/
theorem single (key : α) (v : ν) : Represents [(key, v)] (update (fun _ => none) key (some v)) := by
  refine ⟨List.pairwise_singleton _ _, fun k w => ?_⟩
  by_cases hk : k = key
  · simp [hk, eq_comm]
  · simp [hk]

/-- The keys next to a binding of an increasing list differ from its key. -/
theorem ne_of_mem (h : KeysIncrease (L ++ (key, v) :: R)) {b : α × ν} (hb : b ∈ L ∨ b ∈ R) :
    b.1 ≠ key := by
  obtain ⟨-, hR, hLR⟩ := List.pairwise_append.mp h
  rcases hb with hb | hb
  · exact (hLR b hb (key, v) (by simp)).ne
  · exact ((List.pairwise_cons.mp hR).1 b hb).ne'

private theorem mem_update (h : KeysIncrease (L ++ (key, v) :: R))
    (hf : ∀ k w, k ≠ key → ((k, w) ∈ L ++ R ↔ f k = some w)) (k : α) (w : ν) :
    (k, w) ∈ L ++ (key, v) :: R ↔ update f key (some v) k = some w := by
  by_cases hk : k = key
  · subst hk
    rw [update_self]
    constructor
    · intro hw
      have hv : (k, v) ∈ L ++ (k, v) :: R := by simp
      rw [h.functional hw hv]
    · intro hw
      obtain rfl : v = w := by simpa using hw
      simp
  · rw [update_of_ne hk, ← hf k w hk]
    simp [hk]

/-- Writing a binding updates the map. -/
theorem inserted (h : Represents l f) (hins : Inserted key v l l' n) (hl' : KeysIncrease l') :
    Represents l' (update f key (some v)) := by
  refine ⟨hl', ?_⟩
  cases hins with
  | added L R => exact mem_update hl' fun k w _ => h.mem_iff k w
  | replaced L R w0 =>
    refine mem_update hl' fun k w hk => ?_
    rw [← h.mem_iff]
    simp [hk]

/-- Removing a binding erases the key from the map. -/
theorem removed (h : Represents l f) (hrem : Removed key l l') :
    Represents l' (update f key none) := by
  refine ⟨h.increasing.sublist hrem.sublist, ?_⟩
  cases hrem with
  | intro L R v0 =>
    intro k w
    by_cases hk : k = key
    · subst hk
      rw [update_self]
      constructor
      · intro hw
        exact absurd rfl (ne_of_mem h.increasing (List.mem_append.mp hw))
      · simp
    · rw [update_of_ne hk, ← h.mem_iff]
      simp [hk]

theorem bound_of_removed (h : Represents l f) (hrem : Removed key l l') : f key ≠ none := by
  cases hrem with
  | intro L R w =>
    have := (h.mem_iff key w).mp (by simp)
    simp [this]

/-- A map is stood for by one list only. -/
theorem unique (h : Represents l f) (h' : Represents l' f) : l = l' := by
  have nodup : ∀ {m : List (α × ν)}, KeysIncrease m → m.Nodup := fun hm =>
    hm.imp fun hab he => absurd (he ▸ hab) (lt_irrefl _)
  have hperm : l.Perm l' := by
    rw [List.perm_ext_iff_of_nodup (nodup h.increasing) (nodup h'.increasing)]
    rintro ⟨k, v⟩
    rw [h.mem_iff, h'.mem_iff]
  have hasymm : ∀ a b : α × ν, a ∈ l → b ∈ l' → a.1 < b.1 → b.1 < a.1 → a = b :=
    fun a b _ _ hab hba => absurd (hab.trans hba) (lt_irrefl _)
  exact hperm.eq_of_pairwise hasymm h.increasing h'.increasing

/-- A map with finitely many keys is stood for by a list. -/
theorem exists_of_keys (f : α → Option ν) (keys : List α) (hkeys : ∀ k, f k ≠ none → k ∈ keys) :
    ∃ l, Represents l f ∧ l.length ≤ keys.length ∧ ∀ e ∈ l, e.1 ∈ keys := by
  have hsort : ∀ k, k ∈ keys.toFinset.sort (· ≤ ·) ↔ k ∈ keys := by simp
  refine ⟨(keys.toFinset.sort (· ≤ ·)).filterMap fun k => (f k).map fun v => (k, v), ⟨?_, ?_⟩, ?_, ?_⟩
  · rw [KeysIncrease, List.pairwise_filterMap]
    refine keys.toFinset.sortedLT_sort.pairwise.imp fun {a b} hlt e he e' he' => ?_
    obtain ⟨v, -, rfl⟩ := Option.map_eq_some_iff.mp he
    obtain ⟨v', -, rfl⟩ := Option.map_eq_some_iff.mp he'
    exact hlt
  · intro k v
    rw [List.mem_filterMap]
    constructor
    · rintro ⟨k', -, hk'⟩
      obtain ⟨v', hv', heq⟩ := Option.map_eq_some_iff.mp hk'
      cases heq
      exact hv'
    · intro hv
      exact ⟨k, (hsort k).mpr (hkeys k (by simp [hv])), by simp [hv]⟩
  · refine (List.length_filterMap_le _ _).trans ?_
    rw [Finset.length_sort]
    exact List.toFinset_card_le keys
  · intro e he
    obtain ⟨k, hk, hmap⟩ := List.mem_filterMap.mp he
    obtain ⟨v, -, rfl⟩ := Option.map_eq_some_iff.mp hmap
    exact (hsort k).mp hk

/-- The list is as long as the map has keys. -/
theorem length_eq (h : Represents l f) : l.length = {k | f k ≠ none}.ncard := by
  have hdom : {k | f k ≠ none} = ((l.map Prod.fst).toFinset : Set α) := by
    ext k
    simp only [Set.mem_ofPred_eq, List.coe_toFinset, List.mem_map, Prod.exists, exists_and_right,
      exists_eq_right, Option.ne_none_iff_exists', h.mem_iff]
  have hnodup : (l.map Prod.fst).Nodup := by
    rw [List.Nodup, List.pairwise_map]
    exact h.increasing.imp ne_of_lt
  rw [hdom, Set.ncard_coe_finset, List.toFinset_card_of_nodup hnodup, List.length_map]

end Represents
