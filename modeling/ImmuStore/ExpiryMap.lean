/-
# Maps with expiry

A map whose bindings may carry a time of expiry.  A binding without one is always
visible, any other one before its time.  A reader that goes through the bindings reads the
clock anew for each one that has a time, so that what it sees is stated for a sequence of
readings.
-/
import ImmuStore.StoreSpec

variable {α V T : Type}

/-- Documents with an optional time of expiry. -/
abbrev ExpiryMap (α V T : Type) : Type := α → Option (V × Option T)

namespace ExpiryMap

/-- The map with another binding. -/
def put [LinearOrder α] (m : ExpiryMap α V T) (key : α) (document : V) (expiry : Option T) :
    ExpiryMap α V T := assign m key (some (document, expiry))

/-- The map without some bindings. -/
def without [LinearOrder α] (m : ExpiryMap α V T) (gone : List α) : ExpiryMap α V T := fun key =>
  if key ∈ gone then none else m key

variable [LinearOrder T]
variable {m : ExpiryMap α V T} {l : List (α × V × Option T)}
variable {e : V × Option T} {now now' : T}

/-- A binding is visible if it has no expiry or the time is before it. -/
def live (now : T) (e : V × Option T) : Bool := e.2.all fun expiry => decide (now < expiry)

/-- The visible document under a key. -/
def visible (m : ExpiryMap α V T) (now : T) (key : α) : Option V :=
  ((m key).filter (live now)).map Prod.fst

/-- The map without the bindings that have expired. -/
def sweep (m : ExpiryMap α V T) (now : T) : ExpiryMap α V T := fun key => (m key).filter (live now)

/-- What a reader sees that goes through a list of bindings, with the readings of the clock
it is given. -/
def seen : List (α × V × Option T) → (ℕ → T) → List (α × V)
  | [], _ => []
  | (key, document, none) :: l, clock => (key, document) :: seen l clock
  | (key, document, some expiry) :: l, clock =>
    if clock 0 < expiry then (key, document) :: seen l fun i => clock (i + 1)
    else seen l fun i => clock (i + 1)

theorem visible_of_none {key : α} (h : m key = none) (now : T) : m.visible now key = none := by
  rw [visible, h]
  rfl

theorem visible_of_some {key : α} (h : m key = some e) (now : T) :
    m.visible now key = if live now e then some e.1 else none := by
  rw [visible, h, Option.filter_some]
  split_ifs <;> rfl

/-- The clock is read for a binding with an expiry only. -/
theorem seen_cons (key : α) (document : V) (expiry : Option T) (l : List (α × V × Option T))
    (clock : ℕ → T) :
    seen ((key, document, expiry) :: l) clock =
      if live (clock 0) (document, expiry) then
        (key, document) :: seen l fun i => clock (i + if expiry.isSome then 1 else 0)
      else seen l fun i => clock (i + if expiry.isSome then 1 else 0) := by
  cases expiry with
  | none => rfl
  | some expiry => simp [seen, live]

/-- What has expired stays expired. -/
theorem live_of_le (hle : now ≤ now') (h : live now' e = true) : live now e = true := by
  obtain ⟨document, _ | expiry⟩ := e
  · rfl
  · have hlt : now' < expiry := by simpa [live] using h
    simpa [live] using hle.trans_lt hlt

omit [LinearOrder T] in
/-- The bindings that pass a test, as a list and as a map. -/
theorem represents_filter [LinearOrder α] (h : Represents l m) (p : V × Option T → Bool) :
    Represents (l.filter fun e => p e.2) fun key => (m key).filter p := by
  refine ⟨h.increasing.filter _, fun key e => ?_⟩
  rw [List.mem_filter, h.mem_iff, Option.filter_eq_some_iff]

/-- The visible bindings at one time. -/
theorem seen_const (l : List (α × V × Option T)) (now : T) :
    seen l (fun _ => now) = (l.filter fun e => live now e.2).map fun e => (e.1, e.2.1) := by
  induction l with
  | nil => rfl
  | cons e l ih =>
    obtain ⟨key, document, _ | expiry⟩ := e
    · simp [seen, live, ih]
    · by_cases hlt : now < expiry
      · simp [seen, live, hlt, ih]
      · simp [seen, live, hlt, ih]

/-- Removing bindings that have expired changes nothing that is visible then or later. -/
theorem visible_without [LinearOrder α] (hle : now ≤ now') {gone : List α}
    (hgone : ∀ key ∈ gone, ∃ e, m key = some e ∧ live now e = false) (key : α) :
    (m.without gone).visible now' key = m.visible now' key := by
  by_cases hmem : key ∈ gone
  · obtain ⟨e, hbound, hexpired⟩ := hgone key hmem
    have hlater : ¬ live now' e = true := by
      intro hlive
      rw [live_of_le hle hlive] at hexpired
      cases hexpired
    have habsent : m.without gone key = none := if_pos hmem
    rw [visible_of_none habsent, visible_of_some hbound, if_neg hlater]
  · rw [visible, visible, without, if_neg hmem]

theorem without_eq_sweep [LinearOrder α] {due : List α}
    (hdue : ∀ key, key ∈ due ↔ ∃ e, m key = some e ∧ live now e = false) :
    m.without due = m.sweep now := by
  funext key
  rw [without, sweep]
  split_ifs with hmem
  · obtain ⟨e, hbound, hexpired⟩ := (hdue key).mp hmem
    simp [hbound, Option.filter_some, hexpired]
  · cases hbound : m key with
    | none => rfl
    | some e =>
      have hlive : live now e = true := by
        by_contra hexpired
        exact hmem ((hdue key).mpr ⟨e, hbound, by simpa using hexpired⟩)
      simp [Option.filter_some, hlive]

/-- The number of bindings that have expired. -/
theorem length_expired [LinearOrder α] (h : Represents l m) {due : List α} (hnodup : due.Nodup)
    (hdue : ∀ key, key ∈ due ↔ ∃ e, m key = some e ∧ live now e = false) :
    due.length = (l.filter fun e => !live now e.2).length := by
  have hexpired := represents_filter h fun e => !live now e
  have hperm : due.Perm ((l.filter fun e => !live now e.2).map Prod.fst) := by
    refine (List.perm_ext_iff_of_nodup hnodup ?_).mpr fun key => ?_
    · rw [List.Nodup, List.pairwise_map]
      exact hexpired.increasing.imp fun hlt => hlt.ne
    · rw [hdue, List.mem_map]
      constructor
      · rintro ⟨e, hbound, hlive⟩
        exact ⟨(key, e), (hexpired.mem_iff _ _).mpr (by simp [hbound, Option.filter_some, hlive]), rfl⟩
      · rintro ⟨⟨_, e⟩, he, rfl⟩
        obtain ⟨hbound, hlive⟩ := Option.filter_eq_some_iff.mp ((hexpired.mem_iff _ _).mp he)
        exact ⟨e, hbound, by simpa using hlive⟩
  rw [hperm.length_eq, List.length_map]

/-- What a reader sees at one time is what is visible then. -/
theorem represents_seen [LinearOrder α] (h : Represents l m) (now : T) :
    Represents (seen l fun _ => now) (m.visible now) := by
  have hlive := represents_filter h (live now)
  rw [seen_const]
  constructor
  · rw [KeysIncrease, List.pairwise_map]
    exact hlive.increasing
  · intro key document
    rw [List.mem_map, visible, Option.map_eq_some_iff]
    constructor
    · rintro ⟨⟨key', e⟩, he, heq⟩
      cases heq
      exact ⟨e, (hlive.mem_iff _ _).mp he, rfl⟩
    · rintro ⟨e, he, rfl⟩
      exact ⟨(key, e), (hlive.mem_iff _ _).mpr he, rfl⟩

end ExpiryMap
