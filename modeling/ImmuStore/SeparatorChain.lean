/-
# Separator chains

Search trees route by separators: between consecutive separators `s` and `t` stands
a child responsible for the keys `s ≤ k < t`.  A `Chain` is a list of separators
with its children, each of which meets a predicate within its own range; the ends
of the outer range may be open.  The rules below cut a chain at a separator, join
two chains, and replace a stretch of a chain by another one for the same range.
-/
import Mathlib

variable {α β γ : Type} [LinearOrder α] {lo hi : Option α}
variable {k s : α}

/-! ## Ranges -/

/-- `k` lies in the half-open range from `lo` to `hi`; an absent bound is open. -/
structure Within (lo hi : Option α) (k : α) : Prop where
  above : ∀ l ∈ lo, l ≤ k
  under : ∀ h ∈ hi, k < h

/-- The range from `lo` to `hi` is not empty by its bounds. -/
def Below (lo hi : Option α) : Prop := ∀ l ∈ lo, ∀ h ∈ hi, l < h

theorem within_open (k : α) : Within none none k := ⟨by simp, by simp⟩

theorem Below.trans (h1 : Below lo (some k)) (h2 : Below (some k) hi) : Below lo hi :=
  fun l hl h hh => (h1 l hl k rfl).trans (h2 k rfl h hh)

theorem Within.below_of_lt (h : Within lo hi k) (hs : k < s) : Below lo (some s) := by
  intro l hl t ht
  obtain rfl : s = t := by simpa using ht
  exact (h.above l hl).trans_lt hs

theorem Within.below (h : Within lo hi k) : Below (some k) hi := by
  intro l hl t ht
  obtain rfl : k = l := by simpa using hl
  exact h.under t ht

/-- Lowering the upper bound to a separator. -/
theorem Within.lt_some (h : Within lo hi k) (hs : k < s) : Within lo (some s) k :=
  ⟨h.above, fun _ ht => by obtain rfl := Option.mem_some.mp ht; exact hs⟩

/-- Raising the lower bound to a separator. -/
theorem Within.some_le (h : Within lo hi k) (hs : s ≤ k) : Within (some s) hi k :=
  ⟨fun _ ht => by obtain rfl := Option.mem_some.mp ht; exact hs, h.under⟩

/-- A key of the left one of two neighbouring ranges lies in their union. -/
theorem Within.widen_right (h : Within lo (some s) k) (hs : Below (some s) hi) : Within lo hi k :=
  ⟨h.above, fun t ht => (h.under s rfl).trans (hs s rfl t ht)⟩

/-- A key of the right one of two neighbouring ranges lies in their union. -/
theorem Within.widen_left (h : Within (some s) hi k) (hs : Below lo (some s)) : Within lo hi k :=
  ⟨fun l hl => (hs l hl s rfl).le.trans (h.above s rfl), h.under⟩

/-! ## Chains -/

/-- Separators `ks` and children `cs` that fill the range from `lo` to `hi`, every
child meeting `P` within its own range. -/
inductive Chain (P : Option α → Option α → β → Prop) :
    Option α → Option α → List α → List β → Prop
  | last {lo hi : Option α} {c : β} : Below lo hi → P lo hi c → Chain P lo hi [] [c]
  | cons {lo hi : Option α} {k : α} {ks : List α} {c : β} {cs : List β} :
      Below lo (some k) → P lo (some k) c → Chain P (some k) hi ks cs →
      Chain P lo hi (k :: ks) (c :: cs)

namespace Chain

variable {P Q : Option α → Option α → β → Prop} {ks ks1 ks2 : List α} {cs cs1 cs2 : List β}
variable {k : α}
variable {c : β} {key : γ → α} {f : β → List γ}

theorem length_eq (h : Chain P lo hi ks cs) : cs.length = ks.length + 1 := by
  induction h with
  | last => rfl
  | cons _ _ _ ih => simp [ih]

/-- Children that list at least `n` elements each list that many times their number. -/
theorem mul_le_length_flatMap (h : Chain P lo hi ks cs) {g : β → List γ} {n : ℕ}
    (hg : ∀ {lo hi : Option α} {c : β}, P lo hi c → n ≤ (g c).length) :
    (ks.length + 1) * n ≤ (cs.flatMap g).length := by
  induction h with
  | last _ hc =>
    have := hg hc
    simpa using this
  | cons _ hc _ ih =>
    have := hg hc
    rw [List.flatMap_cons, List.length_append, List.length_cons, Nat.add_mul, Nat.one_mul]
    omega

theorem range_below (h : Chain P lo hi ks cs) : Below lo hi := by
  induction h with
  | last hb _ => exact hb
  | cons hb _ _ ih => exact hb.trans ih

theorem singleton_iff : Chain P lo hi [] [c] ↔ Below lo hi ∧ P lo hi c := by
  constructor
  · rintro (⟨hb, hc⟩)
    exact ⟨hb, hc⟩
  · rintro ⟨hb, hc⟩
    exact .last hb hc

theorem cons_iff :
    Chain P lo hi (k :: ks) (c :: cs) ↔
      Below lo (some k) ∧ P lo (some k) c ∧ Chain P (some k) hi ks cs := by
  constructor
  · intro h
    cases h with
    | cons hb hc ht => exact ⟨hb, hc, ht⟩
  · rintro ⟨hb, hc, ht⟩
    exact .cons hb hc ht

/-- A chain is two chains that meet in a separator. -/
theorem append_iff (hlen : cs1.length = ks1.length + 1) :
    Chain P lo hi (ks1 ++ k :: ks2) (cs1 ++ cs2) ↔
      Chain P lo (some k) ks1 cs1 ∧ Chain P (some k) hi ks2 cs2 := by
  induction ks1 generalizing lo cs1 with
  | nil =>
    obtain ⟨c, rfl⟩ := List.length_eq_one_iff.mp hlen
    simp only [List.nil_append, List.singleton_append, cons_iff, singleton_iff, and_assoc]
  | cons s ks1 ih =>
    obtain ⟨c, cs1, rfl⟩ := List.exists_cons_of_length_eq_add_one hlen
    simp only [List.cons_append, cons_iff, ih (by simpa using hlen), and_assoc]

/-- A stretch of a chain has a range of its own, and any other chain for that range
may take its place. -/
theorem focus {ks3 : List α} {cs3 : List β}
    (h : Chain P lo hi (ks1 ++ (ks ++ ks3)) (cs1 ++ (cs ++ cs3)))
    (h1 : cs1.length = ks1.length) (h2 : cs.length = ks.length + 1) :
    ∃ l u, (l = lo ∨ ∃ k ∈ ks1, l = some k) ∧ (u = hi ∨ ∃ k ∈ ks3, u = some k) ∧
      Chain P l u ks cs ∧
      ∀ ks' cs', Chain P l u ks' cs' →
        Chain P lo hi (ks1 ++ (ks' ++ ks3)) (cs1 ++ (cs' ++ cs3)) := by
  induction ks1 generalizing lo cs1 with
  | nil =>
    obtain rfl : cs1 = [] := by simpa using h1
    simp only [List.nil_append] at h ⊢
    cases ks3 with
    | nil =>
      have hlen := h.length_eq
      obtain rfl : cs3 = [] := by
        rw [← List.length_eq_zero_iff]
        simp only [List.length_append, List.append_nil] at hlen
        omega
      exact ⟨lo, hi, .inl rfl, .inl rfl, by simpa using h, by simp⟩
    | cons s ks3 =>
      obtain ⟨hleft, hright⟩ := (append_iff h2).mp h
      refine ⟨lo, some s, .inl rfl, .inr ⟨s, by simp, rfl⟩, hleft, ?_⟩
      intro ks' cs' h'
      exact (append_iff h'.length_eq).mpr ⟨h', hright⟩
  | cons s ks1 ih =>
    obtain ⟨c, cs1, rfl⟩ := List.exists_cons_of_length_eq_add_one h1
    obtain ⟨hb, hc, ht⟩ := cons_iff.mp h
    obtain ⟨l, u, hl, hu, hmid, hput⟩ := ih ht (by simpa using h1)
    refine ⟨l, u, .inr ?_, hu, hmid, fun ks' cs' h' => .cons hb hc (hput ks' cs' h')⟩
    rcases hl with rfl | ⟨k, hk, rfl⟩
    · exact ⟨s, by simp, rfl⟩
    · exact ⟨k, by simp [hk], rfl⟩

/-- Children may be replaced by others with the same image under `g`, if `P` sees no
more of them. -/
theorem congr {δ : Type} {g : β → δ}
    (hP : ∀ lo hi c c', g c = g c' → P lo hi c → P lo hi c') (h : Chain P lo hi ks cs)
    {cs' : List β} (hcs : cs.map g = cs'.map g) : Chain P lo hi ks cs' := by
  induction h generalizing cs' with
  | last hb hc =>
    obtain ⟨c', rfl, hc'⟩ := List.map_eq_singleton_iff.mp hcs.symm
    exact .last hb (hP _ _ _ _ hc'.symm hc)
  | cons hb hc _ ih =>
    obtain ⟨c', cs', rfl, hc', hcs'⟩ := List.map_eq_cons_iff.mp hcs.symm
    exact .cons hb (hP _ _ _ _ hc'.symm hc) (ih hcs'.symm)

/-- Two neighbouring children and the separator between them. -/
theorem window {a b : β} (h : Chain P lo hi (ks1 ++ k :: ks2) (cs1 ++ a :: b :: cs2))
    (hlen : cs1.length = ks1.length) :
    ∃ l u, Below l (some k) ∧ P l (some k) a ∧ Below (some k) u ∧ P (some k) u b ∧
      ∀ ks' cs', Chain P l u ks' cs' →
        Chain P lo hi (ks1 ++ (ks' ++ ks2)) (cs1 ++ (cs' ++ cs2)) := by
  have hpair : Chain P lo hi (ks1 ++ ([k] ++ ks2)) (cs1 ++ ([a, b] ++ cs2)) := by simpa using h
  obtain ⟨l, u, -, -, hmid, hput⟩ := hpair.focus hlen (by simp)
  obtain ⟨hlk, ha, hb⟩ := cons_iff.mp hmid
  obtain ⟨hku, hb⟩ := singleton_iff.mp hb
  exact ⟨l, u, hlk, ha, hku, hb, hput⟩

section

variable (h : Chain P lo hi ks cs)
include h

theorem within : ∀ k ∈ ks, Below lo (some k) ∧ Below (some k) hi := by
  induction h with
  | last => simp
  | cons hb _ ht ih =>
    intro s hs
    rcases List.mem_cons.mp hs with rfl | hs
    · exact ⟨hb, ht.range_below⟩
    · exact ⟨hb.trans (ih s hs).1, (ih s hs).2⟩

theorem within_range (hk : k ∈ ks) : Within lo hi k :=
  ⟨fun l hl => ((h.within k hk).1 l hl k rfl).le, fun u hu => (h.within k hk).2 k rfl u hu⟩

theorem pairwise : ks.Pairwise (· < ·) := by
  induction h with
  | last => exact List.Pairwise.nil
  | cons _ _ ht ih =>
    exact List.Pairwise.cons (fun s hs => (ht.within s hs).1 _ rfl s rfl) ih

/-- The child at an index, with the separators beside it. -/
theorem child_at {i : ℕ} (hc : cs[i]? = some c) :
    P (if i = 0 then lo else ks[i - 1]?) (if i < ks.length then ks[i]? else hi) c := by
  induction h generalizing i with
  | last _ hp =>
    rcases i with _ | i
    · simpa using (show _ = c by simpa using hc) ▸ hp
    · simp at hc
  | cons _ hp _ ih =>
    rcases i with _ | i
    · simpa using (show _ = c by simpa using hc) ▸ hp
    · have hi := @ih i (by simpa using hc)
      rcases i with _ | i
      · simpa using hi
      · simpa using hi

end

/-- If the contents of every child increase in key within its range, so do the
contents of the chain. -/
theorem flatMap_pairwise (hP : ∀ lo hi c, P lo hi c →
      (f c).Pairwise (fun a b => key a < key b) ∧ ∀ e ∈ f c, Within lo hi (key e))
    (h : Chain P lo hi ks cs) :
    (cs.flatMap f).Pairwise (fun a b => key a < key b) ∧
      ∀ e ∈ cs.flatMap f, Within lo hi (key e) := by
  induction h with
  | last _ hc => simpa using hP _ _ _ hc
  | cons hb hc ht ih =>
    obtain ⟨hs, hw⟩ := hP _ _ _ hc
    rw [List.flatMap_cons]
    constructor
    · rw [List.pairwise_append]
      refine ⟨hs, ih.1, fun a ha b hb => ?_⟩
      exact ((hw a ha).under _ rfl).trans_le ((ih.2 b hb).above _ rfl)
    · intro e he
      rcases List.mem_append.mp he with he | he
      · exact (hw e he).widen_right ht.range_below
      · exact (ih.2 e he).widen_left hb

/-- A key is found in the child its separators lead to, and nowhere else. -/
theorem mem_flatMap_iff (hP : ∀ lo hi c, P lo hi c → ∀ e ∈ f c, Within lo hi (key e))
    (h : Chain P lo hi (ks1 ++ ks2) (cs1 ++ c :: cs2)) (hlen : cs1.length = ks1.length)
    (hle : ∀ s ∈ ks1, s ≤ k) (hlt : ∀ s ∈ ks2, k < s) {e : γ} (he : key e = k) :
    e ∈ (cs1 ++ c :: cs2).flatMap f ↔ e ∈ f c := by
  have houtside : ∀ {lo hi ks cs}, Chain P lo hi ks cs → ¬ Within lo hi (key e) →
      e ∉ cs.flatMap f := by
    intro lo hi ks cs h hout hmem
    induction h with
    | last _ hp => exact hout (hP _ _ _ hp e (by simpa using hmem))
    | cons hb hp ht ih =>
      rcases List.mem_append.mp (List.flatMap_cons ▸ hmem) with hmem | hmem
      · exact hout ((hP _ _ _ hp e hmem).widen_right ht.range_below)
      · exact ih (fun hw => hout (hw.widen_left hb)) hmem
  induction ks1 generalizing lo cs1 with
  | nil =>
    obtain rfl : cs1 = [] := by simpa using hlen
    cases ks2 with
    | nil =>
      obtain rfl : cs2 = [] := by simpa using h.length_eq
      simp
    | cons s ks2 =>
      obtain ⟨-, -, ht⟩ := cons_iff.mp h
      have hnot : e ∉ cs2.flatMap f :=
        houtside ht fun hw => absurd (hw.above s rfl) (by simpa [he] using hlt s (by simp))
      simp only [List.nil_append, List.flatMap_cons, List.mem_append, hnot, or_false]
  | cons s ks1 ih =>
    obtain ⟨c0, cs1, rfl⟩ := List.exists_cons_of_length_eq_add_one hlen
    obtain ⟨-, hc0, ht⟩ := cons_iff.mp h
    have hnot : e ∉ f c0 := fun hmem => absurd ((hP _ _ _ hc0 e hmem).under s rfl)
      (by simpa [he] using hle s (by simp))
    rw [List.cons_append, List.flatMap_cons, List.mem_append, or_iff_right hnot]
    exact ih ht (by simpa using hlen) fun t ht => hle t (by simp [ht])

end Chain
