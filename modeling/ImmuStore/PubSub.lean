/-
# The changefeed broker (`pubsub.py`)

Subscribers register queues for key prefixes, and a published change is put on every queue
of every matching prefix, unless the queue is full.  What one queue gets is described by
itself, by the history of the calls (`QueueView`), and the broker is shown to give every
queue just that.
-/
import ImmuStore.JsonValue
import ImmuStore.PyDict
import ImmuStore.Python

open Function

namespace PubSub

variable {Q : Type}

/-! ## The broker -/

/-- The arguments of `publish`. -/
structure Change where
  key : Text
  op : Text
  value : Option Text
  deriving DecidableEq, Repr

/-- `["message", prefix, payload]`, where `dumps` is `json.dumps` of a change. -/
def message (dumps : Change → Text) (change : Change) (pre : Text) : List Text :=
  ["message".toList, pre, dumps change]

/-- A `ChangeBroker` with its queues.  A set of queues is a list without duplicates, and
`taken` is all that was ever taken from a queue. -/
structure Broker (Q : Type) where
  subscribers : PyDict Text (List Q)
  dropped : ℕ
  queues : Q → List (List Text)
  taken : Q → List (List Text)

namespace Broker

/-- A broker that has just been made. -/
def new : Broker Q := ⟨.empty, 0, fun _ => [], fun _ => []⟩

variable [DecidableEq Q]

/-- `subscribe`. -/
def subscribe (pre : Text) (queue : Q) (b : Broker Q) : Broker Q :=
  let queues := (b.subscribers.get? pre).getD []
  { b with subscribers := b.subscribers.set pre (if queue ∈ queues then queues else queues ++ [queue]) }

/-- `unsubscribe`. -/
def unsubscribe (pre : Text) (queue : Q) (b : Broker Q) : Broker Q :=
  match b.subscribers.get? pre with
  | none | some [] => b
  | some (q :: queues) =>
    let rest := (q :: queues).erase queue
    { b with subscribers := if rest = [] then b.subscribers.pop pre else b.subscribers.set pre rest }

/-- `unsubscribe_all`. -/
def unsubscribeAll (queue : Q) (b : Broker Q) : Broker Q :=
  (b.subscribers.entries.map Prod.fst).foldl (fun b pre => b.unsubscribe pre queue) b

/-- `Queue.full`; a queue without a positive maximum is never full. -/
def full (maxsize : ℤ) (contents : List (List Text)) : Bool :=
  decide (0 < maxsize) && decide (maxsize ≤ contents.length)

variable (maxsize : Q → ℤ) (dumps : Change → Text)

/-- `put_nowait`, with the count of what is refused. -/
def put (message : List Text) (b : Broker Q) (queue : Q) : Broker Q :=
  if full (maxsize queue) (b.queues queue) then { b with dropped := b.dropped + 1 }
  else { b with queues := update b.queues queue (b.queues queue ++ [message]) }

/-- The turn of the loop of `publish` for one prefix. -/
def offer (change : Change) (b : Broker Q) (entry : Text × List Q) : Broker Q :=
  if entry.1 <+: change.key then entry.2.foldl (put maxsize (message dumps change entry.1)) b else b

/-- `publish`; `order` is the order in which the sets of queues are run through. -/
def publish (change : Change) (order : Text → List Q → List Q) (b : Broker Q) : Broker Q :=
  if b.subscribers.entries = [] then b
  else (b.subscribers.entries.map fun e => (e.1, order e.1 e.2)).foldl (offer maxsize dumps change) b

/-- `get_nowait`: the first message of a queue is taken from it. -/
def drain (queue : Q) (b : Broker Q) : Broker Q :=
  match b.queues queue with
  | [] => b
  | message :: rest =>
    { b with
      queues := update b.queues queue rest
      taken := update b.taken queue (b.taken queue ++ [message]) }

end Broker

/-! ## What one queue gets -/

/-- The calls. -/
inductive Event (Q : Type) where
  | subscribe (pre : Text) (queue : Q)
  | unsubscribe (pre : Text) (queue : Q)
  | unsubscribeAll (queue : Q)
  | publish (change : Change)
  | drain (queue : Q)

variable [DecidableEq Q] (maxsize) (dumps) in
/-- The steps of a broker. -/
inductive Step : Broker Q → Event Q → Broker Q → Prop
  | subscribe (b : Broker Q) (pre : Text) (queue : Q) :
      Step b (.subscribe pre queue) (b.subscribe pre queue)
  | unsubscribe (b : Broker Q) (pre : Text) (queue : Q) :
      Step b (.unsubscribe pre queue) (b.unsubscribe pre queue)
  | unsubscribeAll (b : Broker Q) (queue : Q) :
      Step b (.unsubscribeAll queue) (b.unsubscribeAll queue)
  | publish (b : Broker Q) (change : Change) {order : Text → List Q → List Q}
      (horder : ∀ pre queues, (order pre queues).Perm queues) :
      Step b (.publish change) (b.publish maxsize dumps change order)
  | drain (b : Broker Q) (queue : Q) : Step b (.drain queue) (b.drain queue)

/-- The brokers that a history of calls can lead to. -/
inductive Reached [DecidableEq Q] (maxsize : Q → ℤ) (dumps : Change → Text) : List (Event Q) → Broker Q → Prop
  | new : Reached maxsize dumps [] .new
  | step {history : List (Event Q)} {b b' : Broker Q} {event : Event Q} :
      Reached maxsize dumps history b → Step maxsize dumps b event b' →
      Reached maxsize dumps (history ++ [event]) b'

/-- What there is to say of one queue: its prefixes, its contents, what was taken from it,
the changes that it received with the prefix they matched, and how many it refused. -/
structure QueueView where
  subscribed : Set Text
  contents : List (List Text)
  taken : List (List Text)
  received : List (Change × Text)
  refused : ℕ

namespace QueueView

/-- A queue that has just been made. -/
def new : QueueView := ⟨∅, [], [], [], 0⟩

/-- A matching change arrives for one prefix. -/
def offer (maxsize : ℤ) (dumps : Change → Text) (change : Change) (v : QueueView) (pre : Text) :
    QueueView :=
  if Broker.full maxsize v.contents then { v with refused := v.refused + 1 }
  else { v with
    contents := v.contents ++ [message dumps change pre]
    received := v.received ++ [(change, pre)] }

/-- The first message is taken. -/
def drain (v : QueueView) : QueueView :=
  { v with contents := v.contents.tail, taken := v.taken ++ v.contents.take 1 }

/-- The prefixes of the queue that a key begins with, in some order. -/
def Enumerates (v : QueueView) (key : Text) (order : List Text) : Prop :=
  order.Nodup ∧ ∀ pre, pre ∈ order ↔ pre ∈ v.subscribed ∧ pre <+: key

variable (maxsize : ℤ) (dumps) (queue : Q) in
/-- What a call does to one queue. -/
inductive Sees : QueueView → Event Q → QueueView → Prop
  | subscribe (v : QueueView) (pre : Text) :
      Sees v (.subscribe pre queue) { v with subscribed := insert pre v.subscribed }
  | unsubscribe (v : QueueView) (pre : Text) :
      Sees v (.unsubscribe pre queue) { v with subscribed := v.subscribed \ {pre} }
  | unsubscribeAll (v : QueueView) :
      Sees v (.unsubscribeAll queue) { v with subscribed := ∅ }
  | publish (v : QueueView) {change : Change} {order : List Text} (horder : v.Enumerates change.key order) :
      Sees v (.publish change) (order.foldl (offer maxsize dumps change) v)
  | drain (v : QueueView) : Sees v (.drain queue) v.drain
  | subscribeOther (v : QueueView) (pre : Text) {other : Q} (hne : other ≠ queue) :
      Sees v (.subscribe pre other) v
  | unsubscribeOther (v : QueueView) (pre : Text) {other : Q} (hne : other ≠ queue) :
      Sees v (.unsubscribe pre other) v
  | unsubscribeAllOther (v : QueueView) {other : Q} (hne : other ≠ queue) :
      Sees v (.unsubscribeAll other) v
  | drainOther (v : QueueView) {other : Q} (hne : other ≠ queue) :
      Sees v (.drain other) v

/-- What a history of calls does to one queue. -/
inductive After (maxsize : ℤ) (dumps : Change → Text) (queue : Q) : List (Event Q) → QueueView → Prop
  | new : After maxsize dumps queue [] .new
  | step {history : List (Event Q)} {v v' : QueueView} {event : Event Q} :
      After maxsize dumps queue history v → Sees maxsize dumps queue v event v' →
      After maxsize dumps queue (history ++ [event]) v'

end QueueView

namespace QueueView

variable {maxsize : ℤ} {dumps : Change → Text} {queue : Q} {v v' : QueueView}
  {history later : List (Event Q)}
variable {event : Event Q}

section Offer

variable (maxsize dumps) (change : Change) (v : QueueView) (pre : Text) (order : List Text)

@[simp] theorem subscribed_offer : (v.offer maxsize dumps change pre).subscribed = v.subscribed := by
  unfold offer
  split_ifs <;> rfl

@[simp] theorem subscribed_offers :
    (order.foldl (offer maxsize dumps change) v).subscribed = v.subscribed := by
  induction order generalizing v with
  | nil => rfl
  | cons pre order ih => rw [List.foldl_cons, ih, subscribed_offer]

end Offer

/-- What a queue received is what was taken from it and what it has, and it has no more
than it may. -/
structure Sound (maxsize : ℤ) (dumps : Change → Text) (v : QueueView) : Prop where
  received_eq : v.taken ++ v.contents = v.received.map fun e => message dumps e.1 e.2
  le_maxsize : 0 < maxsize → (v.contents.length : ℤ) ≤ maxsize

section

variable (h : v.Sound maxsize dumps)
include h

/-- An offer adds a notice or counts a loss. -/
theorem Sound.offer (change : Change) (pre : Text) :
    (v.offer maxsize dumps change pre).Sound maxsize dumps := by
  unfold QueueView.offer
  split_ifs with hfull
  · exact ⟨h.received_eq, h.le_maxsize⟩
  · refine ⟨?_, fun hpos => ?_⟩
    · simp only [List.map_append, ← h.received_eq, List.append_assoc, List.map_cons, List.map_nil]
    · simp only [Broker.full, hpos, decide_true, Bool.true_and, decide_eq_true_eq, not_le] at hfull
      simp only [List.length_append, List.length_cons, List.length_nil, Nat.cast_add]
      push_cast
      omega

theorem Sound.offers (change : Change) (order : List Text) :
    (order.foldl (QueueView.offer maxsize dumps change) v).Sound maxsize dumps := by
  induction order generalizing v with
  | nil => exact h
  | cons pre order ih => exact ih (h.offer change pre)

/-- Reading empties the queue. -/
theorem Sound.drain : v.drain.Sound maxsize dumps := by
  refine ⟨?_, fun hpos => ?_⟩
  · simp only [QueueView.drain, List.append_assoc, ← List.drop_one, List.take_append_drop]
    exact h.received_eq
  · have hle := h.le_maxsize hpos
    simp only [QueueView.drain, List.length_tail]
    omega

theorem Sound.sees (hsees : Sees maxsize dumps queue v event v') :
    v'.Sound maxsize dumps := by
  cases hsees with
  | subscribe pre => exact ⟨h.received_eq, h.le_maxsize⟩
  | unsubscribe pre => exact ⟨h.received_eq, h.le_maxsize⟩
  | unsubscribeAll => exact ⟨h.received_eq, h.le_maxsize⟩
  | publish horder => exact h.offers ..
  | drain => exact h.drain
  | subscribeOther | unsubscribeOther | unsubscribeAllOther | drainOther => exact h

end

/-- A view is sound after any history. -/
theorem After.sound (h : After maxsize dumps queue history v) : v.Sound maxsize dumps := by
  induction h with
  | new => exact ⟨rfl, fun hpos => hpos.le⟩
  | step _ hsees ih => exact ih.sees hsees

/-- A queue without prefixes receives nothing until it is subscribed. -/
theorem Sees.received_eq (hsees : Sees maxsize dumps queue v event v') (hnone : v.subscribed = ∅)
    (hevent : ∀ pre, event ≠ .subscribe pre queue) :
    v'.subscribed = ∅ ∧ v'.received = v.received ∧ v'.refused = v.refused := by
  cases hsees with
  | subscribe pre => exact absurd rfl (hevent pre)
  | unsubscribe pre => simp [hnone]
  | unsubscribeAll => exact ⟨rfl, rfl, rfl⟩
  | @publish change order horder =>
    have hnil : order = [] := List.eq_nil_iff_forall_not_mem.mpr fun pre hpre => by
      have hmem := ((horder.2 pre).mp hpre).1
      rw [hnone] at hmem
      exact hmem
    subst hnil
    exact ⟨hnone, rfl, rfl⟩
  | drain => exact ⟨hnone, rfl, rfl⟩
  | subscribeOther | unsubscribeOther | unsubscribeAllOther | drainOther => exact ⟨hnone, rfl, rfl⟩

theorem After.of_concat (h : After maxsize dumps queue (history ++ [event]) v) :
    ∃ v0, After maxsize dumps queue history v0 ∧ Sees maxsize dumps queue v0 event v := by
  generalize hall : history ++ [event] = all at h
  cases h with
  | new => simp at hall
  | step hbefore hsees =>
    obtain ⟨rfl, hevent⟩ := List.append_inj' hall rfl
    obtain rfl := List.singleton_inj.mp hevent
    exact ⟨_, hbefore, hsees⟩

/-- After `unsubscribe_all` nothing more reaches the queue until it is subscribed. -/
theorem After.received_of_unsubscribeAll
    (h : After maxsize dumps queue (history ++ .unsubscribeAll queue :: later) v)
    (hlater : ∀ pre, .subscribe pre queue ∉ later) :
    ∃ v0, After maxsize dumps queue history v0 ∧ v.received = v0.received ∧ v.refused = v0.refused := by
  suffices hkept : ∃ v0, After maxsize dumps queue history v0 ∧ v.subscribed = ∅ ∧
      v.received = v0.received ∧ v.refused = v0.refused by
    obtain ⟨v0, hbefore, -, hsame⟩ := hkept
    exact ⟨v0, hbefore, hsame⟩
  induction later using List.reverseRecOn generalizing v with
  | nil =>
    obtain ⟨v0, hbefore, hsees⟩ := h.of_concat
    cases hsees with
    | unsubscribeAll => exact ⟨v0, hbefore, rfl, rfl, rfl⟩
    | unsubscribeAllOther hne => exact absurd rfl hne
  | append_singleton later event ih =>
    rw [← List.cons_append, ← List.append_assoc] at h
    obtain ⟨v1, hbefore1, hsees⟩ := h.of_concat
    obtain ⟨v0, hbefore, hnone, hreceived, hrefused⟩ :=
      ih hbefore1 fun pre hpre => hlater pre (List.mem_append_left _ hpre)
    have hkept := hsees.received_eq hnone fun pre hevent => hlater pre (by simp [hevent])
    exact ⟨v0, hbefore, hkept.1, hkept.2.1.trans hreceived, hkept.2.2.trans hrefused⟩

end QueueView

/-! ## The broker gives every queue what it should get -/

/-- The broker has the queues of the views, and has dropped what they refused. -/
structure Delivered (b : Broker Q) (views : Q → QueueView) : Prop where
  contents_eq : ∀ queue, b.queues queue = (views queue).contents
  taken_eq : ∀ queue, b.taken queue = (views queue).taken
  finite : (support fun queue => (views queue).refused).Finite
  dropped_eq : b.dropped = ∑ᶠ queue, (views queue).refused

/-- The broker has the given subscriptions, and no set of queues is empty. -/
structure Registered (b : Broker Q) (subscribed : Q → Set Text) : Prop where
  subscribed_iff : ∀ queue pre, pre ∈ subscribed queue ↔
    ∃ queues, b.subscribers.get? pre = some queues ∧ queue ∈ queues
  ne_nil : ∀ pre queues, b.subscribers.get? pre = some queues → queues ≠ []
  nodup : ∀ pre queues, b.subscribers.get? pre = some queues → queues.Nodup

variable [DecidableEq Q] {maxsize : Q → ℤ} {dumps : Change → Text} {b b' : Broker Q}
  {views views' : Q → QueueView}
variable {event : Event Q}

section Delivery

variable (change : Change) (pre : Text) (queue : Q)

/-- One more at one queue is one more in all. -/
theorem finsum_update_succ {f : Q → ℕ} (hf : (support f).Finite) :
    (support (update f queue (f queue + 1))).Finite ∧
      ∑ᶠ q, update f queue (f queue + 1) q = ∑ᶠ q, f q + 1 := by
  have hsingle : update f queue (f queue + 1) = fun q => f q + (Pi.single queue 1 : Q → ℕ) q := by
    funext q
    by_cases hq : q = queue
    · subst hq
      simp
    · simp [hq]
  have hone : (support (Pi.single queue 1 : Q → ℕ)).Finite :=
    (Set.finite_singleton queue).subset Pi.support_single_subset
  constructor
  · rw [hsingle]
    exact (hf.union hone).subset (support_add f (Pi.single queue 1))
  · have hsum : ∑ᶠ q, (Pi.single queue 1 : Q → ℕ) q = 1 := by
      rw [finsum_eq_single _ queue fun q hq => Pi.single_eq_of_ne hq 1, Pi.single_eq_same]
    rw [hsingle, finsum_add_distrib hf hone, hsum]

/-- One queue gets another view. -/
theorem Delivered.update_view (h : Delivered b views) {v : QueueView}
    (hqueues : b'.queues = update b.queues queue v.contents)
    (htaken : b'.taken = update b.taken queue v.taken)
    (hrefused : (support (update (fun q => (views q).refused) queue v.refused)).Finite ∧
      ∑ᶠ q, update (fun q => (views q).refused) queue v.refused q = b'.dropped) :
    Delivered b' (update views queue v) := by
  have hcontents : b.queues = fun q => (views q).contents := funext h.contents_eq
  have hbefore : b.taken = fun q => (views q).taken := funext h.taken_eq
  have hview : ∀ {β : Type} (f : QueueView → β), (fun q => f (update views queue v q)) =
      update (fun q => f (views q)) queue (f v) := fun f => comp_update f views queue v
  refine ⟨fun q => ?_, fun q => ?_, ?_, ?_⟩
  · rw [hqueues, hcontents, ← hview]
  · rw [htaken, hbefore, ← hview]
  · rw [hview]
    exact hrefused.1
  · rw [hview]
    exact hrefused.2.symm

/-- One queue gets another view, in which nothing more has been refused. -/
theorem Delivered.update_accepted (h : Delivered b views) {v : QueueView}
    (hqueues : b'.queues = update b.queues queue v.contents)
    (htaken : b'.taken = update b.taken queue v.taken) (hrefused : v.refused = (views queue).refused)
    (hdropped : b'.dropped = b.dropped) : Delivered b' (update views queue v) := by
  refine h.update_view queue hqueues htaken ?_
  rw [hrefused, update_eq_self, hdropped]
  exact ⟨h.finite, h.dropped_eq.symm⟩

/-- One `put` is one offer. -/
theorem Delivered.put (h : Delivered b views) :
    Delivered (b.put maxsize (message dumps change pre) queue)
      (update views queue ((views queue).offer (maxsize queue) dumps change pre)) := by
  unfold Broker.put QueueView.offer
  rw [h.contents_eq queue]
  split_ifs
  · obtain ⟨hfinite, hsum⟩ := finsum_update_succ queue h.finite
    refine h.update_view queue ?_ ?_ ⟨hfinite, by rw [hsum, h.dropped_eq]⟩
    · simp [← h.contents_eq]
    · simp [← h.taken_eq]
  · refine h.update_accepted queue rfl ?_ rfl rfl
    simp [← h.taken_eq]

/-- A message that goes to the queues of a set, one after the other. -/
theorem Delivered.puts {queues : List Q} (h : Delivered b views) (hnodup : queues.Nodup) :
    Delivered (queues.foldl (Broker.put maxsize (message dumps change pre)) b) fun queue =>
      if queue ∈ queues then (views queue).offer (maxsize queue) dumps change pre else views queue := by
  induction queues generalizing b views with
  | nil => simpa using h
  | cons queue queues ih =>
    rw [List.nodup_cons] at hnodup
    have hput : Delivered (b.put maxsize (message dumps change pre) queue) (update views queue
        ((views queue).offer (maxsize queue) dumps change pre)) := h.put change pre queue
    have hviews : (fun q => if q ∈ queue :: queues then
        (views q).offer (maxsize q) dumps change pre else views q) =
        fun q => if q ∈ queues then (update views queue
          ((views queue).offer (maxsize queue) dumps change pre) q).offer (maxsize q) dumps change pre
        else update views queue ((views queue).offer (maxsize queue) dumps change pre) q := by
      funext q
      by_cases hq : q = queue
      · subst hq
        simp [hnodup.1]
      · simp [hq]
    rw [hviews]
    exact ih hput hnodup.2

/-- The prefixes under which a change is offered to a queue. -/
def offered (entries : List (Text × List Q)) (queue : Q) : List Text :=
  (entries.filter fun e => decide (e.1 <+: change.key ∧ queue ∈ e.2)).map Prod.fst

theorem Delivered.offers {entries : List (Text × List Q)} (h : Delivered b views)
    (hnodup : ∀ e ∈ entries, e.2.Nodup) :
    Delivered (entries.foldl (Broker.offer maxsize dumps change) b) fun queue =>
      (offered change entries queue).foldl (QueueView.offer (maxsize queue) dumps change) (views queue) := by
  induction entries generalizing b views with
  | nil => exact h
  | cons e entries ih =>
    rw [List.forall_mem_cons] at hnodup
    have hentry : Delivered (b.offer maxsize dumps change e) fun queue =>
        if e.1 <+: change.key ∧ queue ∈ e.2 then
          (views queue).offer (maxsize queue) dumps change e.1 else views queue := by
      unfold Broker.offer
      split_ifs with hpre
      · simpa [hpre] using h.puts change e.1 hnodup.1
      · simpa [hpre] using h
    have hviews : ∀ queue, (offered change (e :: entries) queue).foldl
        (QueueView.offer (maxsize queue) dumps change) (views queue) =
        (offered change entries queue).foldl (QueueView.offer (maxsize queue) dumps change)
          (if e.1 <+: change.key ∧ queue ∈ e.2 then
            (views queue).offer (maxsize queue) dumps change e.1 else views queue) := by
      intro queue
      unfold offered
      by_cases he : e.1 <+: change.key ∧ queue ∈ e.2
      · rw [List.filter_cons_of_pos (by simpa using he), if_pos he]
        rfl
      · rw [List.filter_cons_of_neg (by simpa using he), if_neg he]
    simp only [hviews]
    exact ih hentry hnodup.2

end Delivery

section Subscriptions

variable {subscribed : Q → Set Text} (pre : Text) (queue : Q)

section

variable (h : Registered b subscribed)
include h

/-- A prefix is registered once. -/
theorem Registered.subscribe :
    Registered (b.subscribe pre queue) fun q =>
      if q = queue then insert pre (subscribed q) else subscribed q := by
  set queues := (b.subscribers.get? pre).getD [] with hqueues
  set added := if queue ∈ queues then queues else queues ++ [queue] with hadded
  have hmem : ∀ q, q ∈ added ↔ q = queue ∨ q ∈ queues := by
    intro q
    rw [hadded]
    split_ifs with hin
    · refine ⟨.inr, ?_⟩
      rintro (rfl | hq)
      · exact hin
      · exact hq
    · rw [List.mem_append, List.mem_singleton, or_comm]
  have hold : ∀ q, q ∈ queues ↔ pre ∈ subscribed q := by
    intro q
    rw [h.subscribed_iff, hqueues]
    cases b.subscribers.get? pre with
    | none => simp
    | some queues => simp
  have hget : ∀ p, (b.subscribe pre queue).subscribers.get? p =
      if p = pre then some added else b.subscribers.get? p := fun p => PyDict.get?_set ..
  refine ⟨fun q p => ?_, fun p l hl => ?_, fun p l hl => ?_⟩
  · rw [hget]
    by_cases hp : p = pre
    · subst hp
      rw [if_pos rfl]
      simp only [Option.some.injEq, exists_eq_left', hmem, hold]
      by_cases hq : q = queue <;> simp [hq]
    · rw [if_neg hp, ← h.subscribed_iff]
      by_cases hq : q = queue <;> simp [hq, hp]
  · rw [hget] at hl
    split_ifs at hl
    · cases hl
      exact List.ne_nil_of_mem ((hmem queue).mpr (.inl rfl))
    · exact h.ne_nil p l hl
  · rw [hget] at hl
    split_ifs at hl
    · cases hl
      have hnodup : queues.Nodup := by
        rw [hqueues]
        cases hpre : b.subscribers.get? pre with
        | none => simp
        | some queues => exact h.nodup pre queues hpre
      rw [hadded]
      split_ifs with hin
      · exact hnodup
      · exact List.nodup_append.mpr ⟨hnodup, List.nodup_singleton _, fun q hq q' hq' heq =>
          hin (by rwa [← List.mem_singleton.mp hq', ← heq])⟩
    · exact h.nodup p l hl

/-- `unsubscribe` looked up: the queue is gone from the set of the prefix, and with the last
queue the set. -/
theorem Registered.get?_unsubscribe (p : Text) :
    (b.unsubscribe pre queue).subscribers.get? p =
      if p = pre then ((b.subscribers.get? pre).map fun queues => queues.erase queue).filter (· ≠ [])
      else b.subscribers.get? p := by
  unfold Broker.unsubscribe
  cases hpre : b.subscribers.get? pre with
  | none =>
    by_cases hp : p = pre
    · simp [hp, hpre]
    · simp [hp]
  | some queues =>
    cases queues with
    | nil => exact absurd rfl (h.ne_nil pre [] hpre)
    | cons q queues =>
      by_cases hrest : (q :: queues).erase queue = []
      · simp only [hrest, if_true, PyDict.get?_pop, Option.map_some, Option.filter_some]
        simp
      · simp only [hrest, if_false, PyDict.get?_set, Option.map_some, Option.filter_some]
        simp [hrest]

/-- The last subscriber takes the prefix along. -/
theorem Registered.unsubscribe :
    Registered (b.unsubscribe pre queue) fun q =>
      if q = queue then subscribed q \ {pre} else subscribed q := by
  have hget := h.get?_unsubscribe pre queue
  have hfilter : ∀ p l, (b.unsubscribe pre queue).subscribers.get? p = some l →
      l ≠ [] ∧ ∃ l', b.subscribers.get? p = some l' ∧ l.Sublist l' := by
    intro p l hl
    rw [hget] at hl
    split_ifs at hl with hp
    · subst hp
      obtain ⟨hmap, hne⟩ := Option.filter_eq_some_iff.mp hl
      obtain ⟨l', hl', rfl⟩ := Option.map_eq_some_iff.mp hmap
      exact ⟨by simpa using hne, l', hl', List.erase_sublist⟩
    · exact ⟨h.ne_nil p l hl, l, hl, List.Sublist.refl _⟩
  refine ⟨fun q p => ?_, fun p l hl => (hfilter p l hl).1, fun p l hl => ?_⟩
  · rw [hget]
    by_cases hp : p = pre
    · subst hp
      have hold := h.subscribed_iff q p
      rw [if_pos rfl]
      constructor
      · intro hmem
        have hne : q ≠ queue := by
          rintro rfl
          simp at hmem
        rw [if_neg hne, hold] at hmem
        obtain ⟨l, hl, hq⟩ := hmem
        have hq' : q ∈ l.erase queue := (List.mem_erase_of_ne hne).mpr hq
        refine ⟨l.erase queue, Option.filter_eq_some_iff.mpr ⟨by simp [hl], ?_⟩, hq'⟩
        simpa using List.ne_nil_of_mem hq'
      · rintro ⟨l, hl, hq⟩
        obtain ⟨hmap, -⟩ := Option.filter_eq_some_iff.mp hl
        obtain ⟨l', hl', rfl⟩ := Option.map_eq_some_iff.mp hmap
        have hq' := ((h.nodup p l' hl').mem_erase_iff).mp hq
        rw [if_neg hq'.1, hold]
        exact ⟨l', hl', hq'.2⟩
    · rw [if_neg hp, ← h.subscribed_iff]
      by_cases hq : q = queue <;> simp [hq, hp]
  · obtain ⟨-, l', hl', hsub⟩ := hfilter p l hl
    exact (h.nodup p l' hl').sublist hsub

theorem Registered.unsubscribes (prefixes : List Text) :
    Registered (prefixes.foldl (fun b pre => b.unsubscribe pre queue) b) fun q =>
      if q = queue then subscribed q \ {pre | pre ∈ prefixes} else subscribed q := by
  induction prefixes generalizing b subscribed with
  | nil => simpa using h
  | cons pre prefixes ih =>
    have hrest := ih (h.unsubscribe pre queue)
    have hsame : (fun q => if q = queue then subscribed q \ {p | p ∈ pre :: prefixes} else subscribed q) =
        fun q => if q = queue then (if q = queue then subscribed q \ {pre} else subscribed q) \
          {p | p ∈ prefixes} else if q = queue then subscribed q \ {pre} else subscribed q := by
      funext q
      by_cases hq : q = queue
      · rw [if_pos hq, if_pos hq, if_pos hq, Set.sdiff_sdiff]
        congr 1
        ext p
        simp
      · simp [hq]
    rw [hsame]
    exact hrest

theorem Registered.unsubscribeAll :
    Registered (b.unsubscribeAll queue) fun q => if q = queue then ∅ else subscribed q := by
  have hall := h.unsubscribes queue (b.subscribers.entries.map Prod.fst)
  have hnone : ∀ q, subscribed q \ {pre | pre ∈ b.subscribers.entries.map Prod.fst} = ∅ := by
    intro q
    rw [Set.sdiff_eq_empty]
    intro pre hpre
    obtain ⟨queues, hget, -⟩ := (h.subscribed_iff q pre).mp hpre
    exact List.mem_map.mpr ⟨(pre, queues), PyDict.mem_entries_iff.mpr hget, rfl⟩
  simp only [hnone] at hall
  exact hall

end

end Subscriptions

section Publish

variable (change : Change)
variable {order : Text → List Q → List Q}

@[simp] theorem Broker.subscribers_put (message : List Text) (queue : Q) :
    (b.put maxsize message queue).subscribers = b.subscribers := by
  unfold Broker.put
  split_ifs <;> rfl

theorem Broker.subscribers_offers (entries : List (Text × List Q)) :
    (entries.foldl (Broker.offer maxsize dumps change) b).subscribers = b.subscribers := by
  have hputs : ∀ (message : List Text) (queues : List Q) (b : Broker Q),
      (queues.foldl (Broker.put maxsize message) b).subscribers = b.subscribers := by
    intro message queues
    induction queues with
    | nil => exact fun _ => rfl
    | cons queue queues ih => exact fun b => (ih _).trans (subscribers_put ..)
  induction entries generalizing b with
  | nil => rfl
  | cons e entries ih =>
    rw [List.foldl_cons, ih]
    unfold Broker.offer
    split_ifs
    · exact hputs ..
    · rfl

/-- A change is offered to a queue once for each of its prefixes that match. -/
theorem Registered.enumerates (h : Registered b fun queue => (views queue).subscribed)
    (horder : ∀ pre queues, (order pre queues).Perm queues) (queue : Q) :
    (views queue).Enumerates change.key
      (offered change (b.subscribers.entries.map fun e => (e.1, order e.1 e.2)) queue) := by
  constructor
  · have hkeys : ((b.subscribers.entries.map fun e => (e.1, order e.1 e.2)).map Prod.fst).Nodup := by
      rw [List.map_map]
      exact b.subscribers.nodup
    exact hkeys.sublist (List.filter_sublist.map _)
  · intro pre
    rw [h.subscribed_iff, offered]
    simp only [List.mem_map, List.mem_filter, decide_eq_true_eq]
    constructor
    · rintro ⟨-, ⟨⟨e, he, rfl⟩, hpre, hq⟩, rfl⟩
      exact ⟨⟨e.2, PyDict.mem_entries_iff.mp he, (horder _ _).mem_iff.mp hq⟩, hpre⟩
    · rintro ⟨⟨queues, hget, hq⟩, hpre⟩
      exact ⟨(pre, order pre queues), ⟨⟨(pre, queues), PyDict.mem_entries_iff.mpr hget, rfl⟩, hpre,
        (horder _ _).mem_iff.mpr hq⟩, rfl⟩

/-- `publish` shows every queue a view in which the change was offered. -/
theorem Registered.publish (h : Registered b fun queue => (views queue).subscribed)
    (hdelivered : Delivered b views) (horder : ∀ pre queues, (order pre queues).Perm queues) :
    ∃ views' : Q → QueueView,
      (∀ queue, (views queue).Sees (maxsize queue) dumps queue (.publish change) (views' queue)) ∧
      Delivered (b.publish maxsize dumps change order) views' ∧
      Registered (b.publish maxsize dumps change order) fun queue => (views' queue).subscribed := by
  set entries := b.subscribers.entries.map fun e => (e.1, order e.1 e.2) with hentries
  have hpublish : b.publish maxsize dumps change order =
      entries.foldl (Broker.offer maxsize dumps change) b := by
    unfold Broker.publish
    split_ifs with hnil
    · rw [hentries, hnil]
      rfl
    · rfl
  have hnodup : ∀ e ∈ entries, e.2.Nodup := by
    intro e he
    obtain ⟨e, hmem, rfl⟩ := List.mem_map.mp he
    exact (horder _ _).nodup_iff.mpr (h.nodup _ _ (PyDict.mem_entries_iff.mp hmem))
  refine ⟨_, fun queue => .publish _ (h.enumerates change horder queue), ?_, ?_⟩
  · rw [hpublish]
    exact hdelivered.offers change hnodup
  · have hsubscribers : (entries.foldl (Broker.offer maxsize dumps change) b).subscribers =
        b.subscribers := Broker.subscribers_offers change entries
    simp only [QueueView.subscribed_offers]
    rw [hpublish]
    exact ⟨hsubscribers ▸ h.subscribed_iff, hsubscribers ▸ h.ne_nil, hsubscribers ▸ h.nodup⟩

end Publish

theorem Delivered.drain (h : Delivered b views) (queue : Q) :
    Delivered (b.drain queue) (update views queue (views queue).drain) := by
  have hcontents := h.contents_eq queue
  unfold Broker.drain
  cases hqueue : b.queues queue with
  | nil =>
    have hnil : (views queue).drain.contents = b.queues queue := by
      simp [QueueView.drain, ← hcontents, hqueue]
    refine h.update_accepted queue ?_ ?_ rfl rfl
    · rw [hnil, update_eq_self]
    · simp [QueueView.drain, ← hcontents, hqueue, ← h.taken_eq]
  | cons message rest =>
    refine h.update_accepted queue ?_ ?_ rfl rfl
    · simp [QueueView.drain, ← hcontents, hqueue]
    · simp [QueueView.drain, ← hcontents, hqueue, ← h.taken_eq]

/-- Calls that leave the queues alone. -/
def SameQueues (b b' : Broker Q) : Prop :=
  b'.queues = b.queues ∧ b'.taken = b.taken ∧ b'.dropped = b.dropped

theorem sameQueues_unsubscribe (b : Broker Q) (pre : Text) (queue : Q) :
    SameQueues b (b.unsubscribe pre queue) := by
  unfold Broker.unsubscribe
  split <;> exact ⟨rfl, rfl, rfl⟩

theorem sameQueues_unsubscribeAll (b : Broker Q) (queue : Q) : SameQueues b (b.unsubscribeAll queue) := by
  unfold Broker.unsubscribeAll
  generalize b.subscribers.entries.map Prod.fst = prefixes
  induction prefixes generalizing b with
  | nil => exact ⟨rfl, rfl, rfl⟩
  | cons pre prefixes ih =>
    obtain ⟨hqueues, htaken, hdropped⟩ := sameQueues_unsubscribe b pre queue
    obtain ⟨hqueues', htaken', hdropped'⟩ := ih (b.unsubscribe pre queue)
    exact ⟨hqueues'.trans hqueues, htaken'.trans htaken, hdropped'.trans hdropped⟩

/-- A call that changes the subscriptions of one queue. -/
theorem Delivered.resubscribed (h : Delivered b views) {queue : Q} (change : Set Text → Set Text)
    (hsame : SameQueues b b') (hregistered : Registered b' fun q =>
      if q = queue then change (views q).subscribed else (views q).subscribed)
    (hqueue : ∀ v : QueueView, v.Sees (maxsize queue) dumps queue event
      { v with subscribed := change v.subscribed })
    (hother : ∀ q, queue ≠ q → ∀ v : QueueView, v.Sees (maxsize q) dumps q event v) :
    ∃ views' : Q → QueueView,
      (∀ queue, (views queue).Sees (maxsize queue) dumps queue event (views' queue)) ∧
      Delivered b' views' ∧ Registered b' fun queue => (views' queue).subscribed := by
  obtain ⟨hqueues, htaken, hdropped⟩ := hsame
  refine ⟨fun q => { views q with
      subscribed := if q = queue then change (views q).subscribed else (views q).subscribed },
    fun q => ?_, ⟨fun q => ?_, fun q => ?_, h.finite, hdropped.trans h.dropped_eq⟩, hregistered⟩
  · by_cases hq : q = queue
    · subst hq
      simp only [if_true]
      exact hqueue (views q)
    · simp only [hq, if_false]
      exact hother q (Ne.symm hq) (views q)
  · exact (congrFun hqueues q).trans (h.contents_eq q)
  · exact (congrFun htaken q).trans (h.taken_eq q)

/-- Every call shows every queue what it should see. -/
theorem Step.sees (hstep : Step maxsize dumps b event b') (hdelivered : Delivered b views)
    (hregistered : Registered b fun queue => (views queue).subscribed) :
    ∃ views' : Q → QueueView,
      (∀ queue, (views queue).Sees (maxsize queue) dumps queue event (views' queue)) ∧
      Delivered b' views' ∧ Registered b' fun queue => (views' queue).subscribed := by
  cases hstep with
  | subscribe pre queue =>
    exact hdelivered.resubscribed (insert pre) ⟨rfl, rfl, rfl⟩ (hregistered.subscribe pre queue)
      (fun v => .subscribe v pre) fun q hq v => .subscribeOther v pre hq
  | unsubscribe pre queue =>
    exact hdelivered.resubscribed (· \ {pre}) (sameQueues_unsubscribe b pre queue)
      (hregistered.unsubscribe pre queue) (fun v => .unsubscribe v pre)
      fun q hq v => .unsubscribeOther v pre hq
  | unsubscribeAll queue =>
    exact hdelivered.resubscribed (fun _ => ∅) (sameQueues_unsubscribeAll b queue)
      (hregistered.unsubscribeAll queue) (fun v => .unsubscribeAll v)
      fun q hq v => .unsubscribeAllOther v hq
  | publish change horder => exact hregistered.publish change hdelivered horder
  | drain queue =>
    refine ⟨_, fun q => ?_, hdelivered.drain queue, ?_⟩
    · by_cases hq : q = queue
      · subst hq
        rw [update_self]
        exact .drain (views q)
      · rw [update_of_ne hq]
        exact .drainOther (views q) (Ne.symm hq)
    · have hsubscribed : (fun q => (update views queue (views queue).drain q).subscribed) =
          fun q => (views q).subscribed :=
        (comp_update QueueView.subscribed views queue _).trans (update_eq_self queue _)
      have hsubscribers : (b.drain queue).subscribers = b.subscribers := by
        unfold Broker.drain
        split <;> rfl
      rw [hsubscribed]
      exact ⟨hsubscribers ▸ hregistered.subscribed_iff, hsubscribers ▸ hregistered.ne_nil,
        hsubscribers ▸ hregistered.nodup⟩

/-- Each queue shows its own history. -/
theorem Reached.shows {history : List (Event Q)} (h : Reached maxsize dumps history b) :
    ∃ views : Q → QueueView,
      (∀ queue, QueueView.After (maxsize queue) dumps queue history (views queue)) ∧
      Delivered b views ∧ Registered b fun queue => (views queue).subscribed := by
  induction h with
  | new =>
    refine ⟨fun _ => .new, fun _ => .new, ⟨fun _ => rfl, fun _ => rfl, ?_, ?_⟩, ⟨?_, ?_, ?_⟩⟩
    · simp [QueueView.new]
    · simp [QueueView.new, Broker.new]
    · simp [QueueView.new, Broker.new]
    · simp [Broker.new]
    · simp [Broker.new]
  | step _ hstep ih =>
    obtain ⟨views, hafter, hdelivered, hregistered⟩ := ih
    obtain ⟨views', hsees, hdelivered', hregistered'⟩ := hstep.sees hdelivered hregistered
    exact ⟨views', fun queue => (hafter queue).step (hsees queue), hdelivered', hregistered'⟩

/-- **Delivery.**  However the calls follow each other, every queue gets what it should:
each change once for each prefix that it is subscribed to at that moment and that the key
begins with, in the order of the calls, except for what arrives while it is full.  No queue
has more than its maximum; what was dropped is what the queues refused; after
`unsubscribe_all` nothing more reaches the queue until it is subscribed; and no prefix is
kept without a queue. -/
theorem changefeed_delivers {history : List (Event Q)} (h : Reached maxsize dumps history b) :
    ∃ views : Q → QueueView,
      (∀ queue, QueueView.After (maxsize queue) dumps queue history (views queue) ∧
        b.taken queue ++ b.queues queue =
          (views queue).received.map fun e => message dumps e.1 e.2) ∧
      (∀ queue, 0 < maxsize queue → ((b.queues queue).length : ℤ) ≤ maxsize queue) ∧
      (support fun queue => (views queue).refused).Finite ∧
      b.dropped = ∑ᶠ queue, (views queue).refused ∧
      (∀ queue before later, history = before ++ .unsubscribeAll queue :: later →
        (∀ pre, .subscribe pre queue ∉ later) →
        ∃ v, QueueView.After (maxsize queue) dumps queue before v ∧
          (views queue).received = v.received) ∧
      ∀ pre queues, b.subscribers.get? pre = some queues → queues ≠ [] := by
  obtain ⟨views, hafter, hdelivered, hregistered⟩ := h.shows
  refine ⟨views, fun queue => ⟨hafter queue, ?_⟩, fun queue hpos => ?_, hdelivered.finite,
    hdelivered.dropped_eq, fun queue before later hhistory hlater => ?_, hregistered.ne_nil⟩
  · rw [hdelivered.taken_eq, hdelivered.contents_eq]
    exact (hafter queue).sound.received_eq
  · rw [hdelivered.contents_eq]
    exact (hafter queue).sound.le_maxsize hpos
  · subst hhistory
    obtain ⟨v, hbefore, hreceived, -⟩ := (hafter queue).received_of_unsubscribeAll hlater
    exact ⟨v, hbefore, hreceived⟩

/-- `json.dumps` of a change whose texts are ASCII. -/
def dumpsChange (change : Change) : Text :=
  JsonValue.write [] (.dict [("key", .str (String.ofList change.key)), ("op", .str (String.ofList change.op)),
    ("value", change.value.elim .null fun value => .str (String.ofList value))])

theorem changefeed_delivers_sample :
    ∃ (b : Broker ℕ) (views : ℕ → QueueView) (history : List (Event ℕ)),
      history = [.subscribe [] 0, .publish ⟨['a'], ['s', 'e', 't'], some ['1']⟩,
        .publish ⟨['b'], ['d', 'e', 'l'], none⟩] ∧
      Reached (fun _ => 1) dumpsChange history b ∧
      (∀ queue, QueueView.After 1 dumpsChange queue history (views queue)) ∧
      b.queues 0 = [["message".toList, [],
        "\x7b\"key\":\"a\",\"op\":\"set\",\"value\":\"1\"\x7d".toList]] ∧
      b.dropped = 1 ∧ ∑ᶠ queue, (views queue).refused = 1 := by
  have horder : ∀ (pre : Text) (queues : List ℕ), queues.Perm queues := fun _ queues => .refl queues
  have hreached : Reached (fun _ => 1) dumpsChange _ _ :=
    ((Reached.new.step (.subscribe .new [] 0)).step
      (.publish _ ⟨['a'], ['s', 'e', 't'], some ['1']⟩ horder)).step
      (.publish _ ⟨['b'], ['d', 'e', 'l'], none⟩ horder)
  obtain ⟨views, hviews, -, -, hdropped, -⟩ := changefeed_delivers hreached
  exact ⟨_, views, _, rfl, hreached, fun queue => (hviews queue).1, by decide +kernel, by decide,
    hdropped.symm.trans (by decide)⟩

end PubSub
