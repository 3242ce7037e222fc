/-
# Trees on a file

`OnFile` says that a subtree has been written, every record of it below a given
length; `Staged` allows for nodes not written yet above nodes that are.  Storing a
staged tree appends records and leaves it on file with the same contents; loading a
tree that is on file gives it back.
-/
import ImmuStore.BPlusRefs
import ImmuStore.Database

open Storage

variable {α : Type}

namespace NodeRef

/-! ## Contents -/

section Strip

variable {ν : Type}
variable {node node' : NodeRef α ν}

mutual

/-- A subtree without its addresses. -/
def strip : NodeRef α ν → NodeRef α ν
  | .leaf _ keys values => .leaf 0 keys (values.map fun v => ⟨v.referent, 0⟩)
  | .internal _ keys children => .internal 0 keys (stripAll children)

/-- `strip` on a list of subtrees. -/
def stripAll : List (NodeRef α ν) → List (NodeRef α ν)
  | [] => []
  | child :: children => child.strip :: stripAll children

end

theorem stripAll_eq (children : List (NodeRef α ν)) : stripAll children = children.map strip := by
  induction children with
  | nil => rfl
  | cons child children ih => rw [stripAll, ih, List.map_cons]

mutual

/-- Forgetting addresses keeps the entries. -/
theorem items_strip : ∀ node : NodeRef α ν, node.strip.items = node.items
  | .leaf _ keys values => by
    simp only [strip, items, List.zip_map_right, List.map_map]
    rfl
  | .internal _ _ children => by
    rw [strip, items, items]
    exact itemsOf_stripAll children

theorem itemsOf_stripAll : ∀ children : List (NodeRef α ν),
    itemsOf (stripAll children) = itemsOf children
  | [] => rfl
  | child :: children => by
    rw [stripAll, itemsOf, itemsOf, items_strip child, itemsOf_stripAll children]

end

theorem items_congr (h : node.strip = node'.strip) : node.items = node'.items := by
  rw [← items_strip, h, items_strip]

/-- The invariant does not depend on addresses. -/
theorem Wf.congr [LinearOrder α] {order d least : ℕ} {lo hi : Option α}
    (h : Wf order d least lo hi node) (hstrip : node.strip = node'.strip) :
    Wf order d least lo hi node' := by
  induction d generalizing least lo hi node node' with
  | zero =>
    obtain ⟨address, keys, values, rfl, hleaf⟩ := h.exists_leaf
    cases node' with
    | leaf address' keys' values' =>
      simp only [strip, leaf.injEq, true_and] at hstrip
      obtain ⟨rfl, hvalues⟩ := hstrip
      have hlen := congrArg List.length hvalues
      simp only [List.length_map] at hlen
      exact { hleaf with aligned := hlen.symm.trans hleaf.aligned }
    | internal address' keys' children' => simp [strip] at hstrip
  | succ d ih =>
    obtain ⟨address, keys, children, rfl, hint⟩ := h.exists_internal
    cases node' with
    | leaf address' keys' values' => simp [strip] at hstrip
    | internal address' keys' children' =>
      simp only [strip, internal.injEq, true_and, stripAll_eq] at hstrip
      obtain ⟨rfl, hchildren⟩ := hstrip
      have hP : ∀ lo hi (c c' : NodeRef α ν), c.strip = c'.strip → Wf order d (order / 2) lo hi c →
          Wf order d (order / 2) lo hi c' := fun _ _ _ _ hs hc => ih hc hs
      exact { hint with chain := hint.chain.congr hP hchildren }

end Strip

end NodeRef

/-- A tree whose root has the same contents keeps its invariant and its map. -/
theorem BPlusTree.Holds.congr [LinearOrder α] {ν : Type} {order : ℕ} {t : BPlusTree α ν}
    {f : α → Option ν} (h : BPlusTree.Holds order t f) {node node' : NodeRef α ν}
    (hroot : t.treeRef = some node) (hstrip : node.strip = node'.strip) :
    BPlusTree.Holds order { t with treeRef := some node' } f := by
  have hitems : ({ t with treeRef := some node' } : BPlusTree α ν).items = t.items := by
    simp [BPlusTree.items, hroot, NodeRef.items_congr hstrip]
  refine ⟨⟨h.ok.order_ge, ?_, ?_⟩, h.order_eq, ?_⟩
  · rintro root ⟨⟩
    obtain ⟨d, hwf⟩ := h.ok.root_wf node hroot
    exact ⟨d, hwf.congr hstrip⟩
  · rw [hitems]
    exact h.ok.count_eq
  · rw [hitems]
    exact h.represents

namespace NodeRef

/-! ## Trees on file -/

variable (ext : Externals α)

/-- The subtree has been written, with all its records below `L`, children before
their parents. -/
inductive OnFile (f : File) (L : ℕ) : NodeRef α Bytes → Prop
  | leaf {address : ℕ} {keys : List α} {values : List (ValueRef Bytes)} :
      RecordAt ext.crc32 f L address (ext.dumps (payload (.leaf address keys values))) →
      (∀ v ∈ values, RecordAt ext.crc32 f L v.address v.referent) →
      OnFile f L (.leaf address keys values)
  | internal {address : ℕ} {keys : List α} {children : List (NodeRef α Bytes)} :
      RecordAt ext.crc32 f L address (ext.dumps (payload (.internal address keys children))) →
      (∀ c ∈ children, OnFile f L c) → (∀ c ∈ children, c.address < address) →
      OnFile f L (.internal address keys children)

/-- A value reference that is new or has been written. -/
def StagedValue (f : File) (L : ℕ) (v : ValueRef Bytes) : Prop :=
  v.address = 0 ∨ RecordAt ext.crc32 f L v.address v.referent

/-- The subtree consists of new nodes above subtrees that have been written. -/
inductive Staged (f : File) (L : ℕ) : NodeRef α Bytes → Prop
  | stored {node : NodeRef α Bytes} : OnFile ext f L node → Staged f L node
  | leaf {keys : List α} {values : List (ValueRef Bytes)} :
      (∀ v ∈ values, StagedValue ext f L v) → Staged f L (.leaf 0 keys values)
  | internal {keys : List α} {children : List (NodeRef α Bytes)} :
      (∀ c ∈ children, Staged f L c) → Staged f L (.internal 0 keys children)

variable {ext} {f g : File} {L L' : ℕ} {node : NodeRef α Bytes}
variable {v : ValueRef Bytes}

theorem OnFile.recordAt (h : OnFile ext f L node) :
    RecordAt ext.crc32 f L node.address (ext.dumps node.payload) := by
  cases h with
  | leaf hrec _ => exact hrec
  | internal hrec _ _ => exact hrec

/-- A stored node has an address. -/
theorem OnFile.address_ne_zero (h : OnFile ext f L node) : node.address ≠ 0 := by
  have := h.recordAt.ge
  simp only [superblockSize] at this
  omega

/-- A tree stays on file as long as its bytes do. -/
theorem OnFile.mono (h : OnFile ext f L node) (hfg : SameRecords L f g) (hL : L ≤ L')
    (hsize : L' ≤ g.size) : OnFile ext g L' node := by
  induction h with
  | leaf hrec hvalues =>
    exact .leaf ((hrec.congr hfg).mono hL hsize)
      fun v hv => ((hvalues v hv).congr hfg).mono hL hsize
  | internal hrec _ haddress ih =>
    exact .internal ((hrec.congr hfg).mono hL hsize) ih haddress

theorem StagedValue.address_lt (h : StagedValue ext f L v) (hL : superblockSize ≤ L) :
    v.address < L := by
  have hsuper : 0 < superblockSize := by decide
  rcases h with hzero | hrec
  · omega
  · have := hrec.le
    simp only [recordHeaderBytes] at this
    omega

theorem StagedValue.mono (h : StagedValue ext f L v) (hfg : SameRecords L f g) (hL : L ≤ L')
    (hsize : L' ≤ g.size) : StagedValue ext g L' v :=
  h.imp_right fun hrec => (hrec.congr hfg).mono hL hsize

/-- Appending leaves a staged tree staged. -/
theorem Staged.mono (h : Staged ext f L node) (hfg : SameRecords L f g) (hL : L ≤ L')
    (hsize : L' ≤ g.size) : Staged ext g L' node := by
  induction h with
  | stored hon => exact .stored (hon.mono hfg hL hsize)
  | leaf hvalues => exact .leaf fun v hv => (hvalues v hv).mono hfg hL hsize
  | internal _ ih => exact .internal ih

/-- Updates make staged trees from staged trees. -/
theorem hereditary_staged (ext : Externals α) (f : File) (L : ℕ) :
    Hereditary (StagedValue ext f L) (Staged ext f L) where
  leafRef := fun _ _ hv => .leaf hv
  internalRef := fun _ _ hc => .internal hc
  values := by
    intro address keys values h
    cases h with
    | stored hon =>
      cases hon with
      | leaf _ hvalues => exact fun v hv => .inr (hvalues v hv)
    | leaf hvalues => exact hvalues
  children := by
    intro address keys children h
    cases h with
    | stored hon =>
      cases hon with
      | internal _ hchildren _ => exact fun c hc => .stored (hchildren c hc)
    | internal hchildren => exact hchildren

/-! ## Loading -/

theorem mapM_eq_ok {γ : Type} {g : γ → ℕ} {load : ℕ → Except PyError γ} {l : List γ}
    (h : ∀ x ∈ l, load (g x) = .ok x) : (l.map g).mapM load = .ok l := by
  induction l with
  | nil => rfl
  | cons x l ih =>
    rw [List.map_cons, List.mapM_cons, h x (by simp), ih fun y hy => h y (by simp [hy])]
    rfl

/-- A tree on file is loaded as it was stored. -/
theorem OnFile.load_eq (h : OnFile ext f L node) {fuel : ℕ} (hfuel : node.address < fuel) :
    load ext f fuel node.address = .ok node := by
  induction h generalizing fuel with
  | @leaf address keys values hrec hvalues =>
    obtain ⟨fuel, rfl⟩ : ∃ n, fuel = n + 1 := ⟨fuel - 1, by omega⟩
    have hload : (values.map ValueRef.address).mapM (loadValue ext.crc32 f) = .ok values :=
      mapM_eq_ok fun v hv => by
        rw [loadValue, (hvalues v hv).read_eq]
        rfl
    have hread : Storage.read ext.crc32 f (NodeRef.leaf address keys values).address = _ :=
      hrec.read_eq
    rw [load, hread]
    simp only [bind, Except.bind, ext.loads_dumps, payload, if_true, hload]
    rfl
  | @internal address keys children hrec _ haddress ih =>
    obtain ⟨fuel, rfl⟩ : ∃ n, fuel = n + 1 := ⟨fuel - 1, by omega⟩
    have hload : (children.map NodeRef.address).mapM (load ext f fuel) = .ok children :=
      mapM_eq_ok fun c hc => ih c hc (by
        have := haddress c hc
        simp only [NodeRef.address] at hfuel
        omega)
    have hread : Storage.read ext.crc32 f (NodeRef.internal address keys children).address = _ :=
      hrec.read_eq
    rw [load, hread]
    simp only [bind, Except.bind, ext.loads_dumps, payload, hload]
    rfl

theorem OnFile.loadRoot_eq (h : OnFile ext f L node) :
    loadRoot ext f node.address = .ok (some node) := by
  have hlt : node.address < f.size + 1 := by
    have hrec := h.recordAt
    have := hrec.le
    have := hrec.le_size
    omega
  rw [loadRoot, if_neg h.address_ne_zero, h.load_eq hlt]
  rfl

end NodeRef

/-! ## Storing -/

section Store

variable {γ δ : Type} {content : γ → δ} {staged onFile : File → ℕ → γ → Prop}
variable {P : File → ℕ → γ → Prop}
variable {d : Disk} {x : γ} {r : StoreResult γ}

/-- A property of references that bytes added to the file do not end. -/
structure Persistent (P : File → ℕ → γ → Prop) : Prop where
  mono : ∀ {f g : File} {L L' : ℕ} {x : γ}, P f L x → SameRecords L f g → L ≤ L' →
    L' ≤ g.size → P g L' x

theorem Disk.Appends.persistent (hP : Persistent P) {d' : Disk} (h : d.Appends d')
    (hx : P d.live d.live.size x) : P d'.live d'.live.size x :=
  hP.mono hx (.of_sameBelow h.sameBelow) h.sameBelow.le_right le_rfl

/-- What storing `x` does: it appends records, keeps the contents, and unless it raises
leaves everything on file. -/
structure Stored (content : γ → δ) (staged onFile : File → ℕ → γ → Prop) (x : γ) (d : Disk)
    (r : StoreResult γ) : Prop where
  appends : d.Appends r.disk
  content_eq : content r.ref = content x
  staged : staged r.disk.live r.disk.live.size r.ref
  onFile : r.raised = none → onFile r.disk.live r.disk.live.size r.ref

/-- A property of every reference in a list. -/
def AllOf (P : File → ℕ → γ → Prop) (f : File) (L : ℕ) (l : List γ) : Prop := ∀ x ∈ l, P f L x

theorem Persistent.allOf (hP : Persistent P) : Persistent (AllOf P) :=
  ⟨fun h hfg hL hsize x hx => hP.mono (h x hx) hfg hL hsize⟩

/-- The first of a list could not be stored, the rest is left as it was. -/
theorem Stored.stop (hstaged : Persistent staged) {xs : List γ}
    (h : Stored content staged onFile x d r) {e : PyError}
    (hrest : AllOf staged d.live d.live.size xs) :
    Stored (List.map content) (AllOf staged) (AllOf onFile) (x :: xs) d
      ⟨r.ref :: xs, some e, r.disk⟩ where
  appends := h.appends
  content_eq := by simp [h.content_eq]
  staged := by
    rintro y (⟨⟩ | ⟨_, hy⟩)
    · exact h.staged
    · exact h.appends.persistent hstaged (hrest y hy)
  onFile := by simp

/-- The first of a list was stored, and then the rest. -/
theorem Stored.cons (hstaged : Persistent staged) (honFile : Persistent onFile) {xs : List γ}
    {rs : StoreResult (List γ)} (h : Stored content staged onFile x d r) (hraised : r.raised = none)
    (hrest : Stored (List.map content) (AllOf staged) (AllOf onFile) xs r.disk rs) :
    Stored (List.map content) (AllOf staged) (AllOf onFile) (x :: xs) d
      ⟨r.ref :: rs.ref, rs.raised, rs.disk⟩ where
  appends := h.appends.trans hrest.appends
  content_eq := by simp [h.content_eq, hrest.content_eq]
  staged := by
    rintro y (⟨⟩ | ⟨_, hy⟩)
    · exact hrest.appends.persistent hstaged h.staged
    · exact hrest.staged y hy
  onFile := by
    rintro hnone y (⟨⟩ | ⟨_, hy⟩)
    · exact hrest.appends.persistent honFile (h.onFile hraised)
    · exact hrest.onFile hnone y hy

end Store

namespace NodeRef

variable (ext : Externals α)
variable {d : Disk} {values : List (ValueRef Bytes)} {node : NodeRef α Bytes}
variable {v : ValueRef Bytes} {crc32 : Bytes → ℕ} {e : PyError}

/-- A value reference that has been written. -/
def OnFileValue (f : File) (L : ℕ) (v : ValueRef Bytes) : Prop :=
  RecordAt ext.crc32 f L v.address v.referent

theorem persistent_onFileValue : Persistent (OnFileValue ext) :=
  ⟨fun h hfg hL hsize => (h.congr hfg).mono hL hsize⟩

theorem persistent_stagedValue : Persistent (StagedValue ext) :=
  ⟨fun h hfg hL hsize => h.mono hfg hL hsize⟩

theorem persistent_onFile : Persistent (OnFile ext) := ⟨fun h hfg hL hsize => h.mono hfg hL hsize⟩

theorem persistent_staged : Persistent (Staged ext) := ⟨fun h hfg hL hsize => h.mono hfg hL hsize⟩

/-- A value is appended unless it is on file. -/
theorem storeValue_spec (hd : superblockSize ≤ d.live.size)
    (h : StagedValue ext d.live d.live.size v) :
    Stored ValueRef.referent (StagedValue ext) (OnFileValue ext) v d (storeValue ext.crc32 v d) := by
  unfold storeValue
  by_cases hzero : v.address = 0
  · rw [if_pos hzero]
    rcases write_spec ext.crc32 v.referent d hd with ⟨d', hrun, happ, hrec⟩ | ⟨e, hrun⟩
    · rw [hrun]
      exact ⟨happ, rfl, .inr hrec, fun _ => hrec⟩
    · rw [hrun]
      exact ⟨.refl, rfl, .inl hzero, by simp⟩
  · rw [if_neg hzero]
    exact ⟨.refl, rfl, h, fun _ => h.resolve_left hzero⟩

theorem storeValues_spec (hd : superblockSize ≤ d.live.size)
    (h : AllOf (StagedValue ext) d.live d.live.size values) :
    Stored (List.map ValueRef.referent) (AllOf (StagedValue ext)) (AllOf (OnFileValue ext)) values d
      (storeValues ext.crc32 values d) := by
  induction values generalizing d with
  | nil => exact ⟨.refl, rfl, h, fun _ => by simp [AllOf, storeValues]⟩
  | cons v values ih =>
    have hfirst := storeValue_spec ext hd (h v (by simp))
    have hrest : AllOf (StagedValue ext) d.live d.live.size values := fun x hx => h x (by simp [hx])
    unfold storeValues
    cases hraised : (storeValue ext.crc32 v d).raised with
    | some e =>
      simp only [hraised]
      exact hfirst.stop (persistent_stagedValue ext) hrest
    | none =>
      simp only [hraised]
      exact hfirst.cons (persistent_stagedValue ext) (persistent_onFileValue ext) hraised
        (ih (hd.trans hfirst.appends.sameBelow.le_right)
          (hfirst.appends.persistent (persistent_stagedValue ext).allOf hrest))

/-- The end of `store`, for a new node whose parts are staged, and on file unless
storing them raised. -/
theorem storeSelf_spec (node : NodeRef α Bytes) (raised : Option PyError)
    (hd : superblockSize ≤ d.live.size) (hstaged : Staged ext d.live d.live.size node)
    (hstrip : ∀ a, (node.withAddress a).strip = node.strip)
    (honFile : raised = none → ∀ (f : File) (L : ℕ), SameRecords d.live.size d.live f →
      d.live.size ≤ L → L ≤ f.size →
      RecordAt ext.crc32 f L d.live.size (ext.dumps node.payload) →
      OnFile ext f L (node.withAddress d.live.size)) :
    Stored strip (Staged ext) (OnFile ext) node d (storeSelf ext node raised d) := by
  unfold storeSelf
  cases raised with
  | some e => exact ⟨.refl, rfl, hstaged, by simp⟩
  | none =>
    rcases write_spec ext.crc32 (ext.dumps node.payload) d hd with ⟨d', hrun, happ, hrec⟩ | ⟨e, hrun⟩
    · have hon := honFile rfl d'.live d'.live.size (.of_sameBelow happ.sameBelow)
        happ.sameBelow.le_right le_rfl hrec
      simp only [hrun]
      exact ⟨happ, hstrip _, .stored hon, fun _ => hon⟩
    · simp only [hrun]
      exact ⟨.refl, rfl, hstaged, by simp⟩

variable {ext} in
/-- A staged node with an address has been written. -/
theorem Staged.onFile {f : File} {L : ℕ} (h : Staged ext f L node) (hne : node.address ≠ 0) :
    OnFile ext f L node := by
  cases h with
  | stored hon => exact hon
  | leaf _ => exact absurd rfl hne
  | internal _ => exact absurd rfl hne

/-- A node that has an address is not stored again. -/
theorem store_eq_self (hne : node.address ≠ 0) (d : Disk) : node.store ext d = ⟨node, none, d⟩ := by
  cases node with
  | leaf address keys values =>
    rw [store]
    exact if_neg hne
  | internal address keys children =>
    rw [store]
    exact if_neg hne

mutual

/-- `store` leaves a staged tree on file with its contents. -/
theorem store_spec : ∀ {node : NodeRef α Bytes} {d : Disk}, superblockSize ≤ d.live.size →
    Staged ext d.live d.live.size node →
    Stored strip (Staged ext) (OnFile ext) node d (store ext node d)
  | .leaf address keys values, d, hd, h => by
    rw [store]
    by_cases hzero : address = 0
    · subst hzero
      have hvalues := storeValues_spec ext hd ((hereditary_staged ext _ _).values h)
      have hself := storeSelf_spec ext (.leaf 0 keys (storeValues ext.crc32 values d).ref)
        (storeValues ext.crc32 values d).raised
        (hd.trans hvalues.appends.sameBelow.le_right) (.leaf hvalues.staged) (fun _ => rfl)
        fun hnone f L hsame hL hsize hrec => .leaf hrec
          ((persistent_onFileValue ext).allOf.mono (hvalues.onFile hnone) hsame hL hsize)
      have hstrip : (NodeRef.leaf 0 keys (storeValues ext.crc32 values d).ref : NodeRef α Bytes).strip
          = (NodeRef.leaf 0 keys values).strip := by
        have := congrArg (List.map fun b : Bytes => (⟨b, 0⟩ : ValueRef Bytes)) hvalues.content_eq
        simpa [strip, Function.comp_def] using this
      rw [if_pos rfl]
      exact ⟨hvalues.appends.trans hself.appends, hself.content_eq.trans hstrip, hself.staged,
        hself.onFile⟩
    · rw [if_neg hzero]
      exact ⟨.refl, rfl, h, fun _ => h.onFile hzero⟩
  | .internal address keys children, d, hd, h => by
    rw [store]
    by_cases hzero : address = 0
    · subst hzero
      have hchildren := storeAll_spec hd ((hereditary_staged ext _ _).children h)
      have hself := storeSelf_spec ext (.internal 0 keys (storeAll ext children d).ref)
        (storeAll ext children d).raised
        (hd.trans hchildren.appends.sameBelow.le_right) (.internal hchildren.staged) (fun _ => rfl)
        fun hnone f L hsame hL hsize hrec => .internal hrec
          ((persistent_onFile ext).allOf.mono (hchildren.onFile hnone) hsame hL hsize)
          fun c hc => by
            -- children are written before their parent, so below its address
            have hrecord := (hchildren.onFile hnone c hc).recordAt.le
            simp only [recordHeaderBytes] at hrecord
            omega
      have hstrip : (NodeRef.internal 0 keys (storeAll ext children d).ref).strip
          = (NodeRef.internal 0 keys children).strip := by
        simp only [strip, stripAll_eq, hchildren.content_eq]
      rw [if_pos rfl]
      exact ⟨hchildren.appends.trans hself.appends, hself.content_eq.trans hstrip, hself.staged,
        hself.onFile⟩
    · rw [if_neg hzero]
      exact ⟨.refl, rfl, h, fun _ => h.onFile hzero⟩

theorem storeAll_spec : ∀ {children : List (NodeRef α Bytes)} {d : Disk},
    superblockSize ≤ d.live.size → AllOf (Staged ext) d.live d.live.size children →
    Stored (List.map strip) (AllOf (Staged ext)) (AllOf (OnFile ext)) children d
      (storeAll ext children d)
  | [], d, _, h => by
    rw [storeAll]
    exact ⟨.refl, rfl, h, fun _ => by simp [AllOf]⟩
  | child :: children, d, hd, h => by
    have hfirst := store_spec hd (h child (by simp))
    have hrest : AllOf (Staged ext) d.live d.live.size children := fun x hx => h x (by simp [hx])
    rw [storeAll]
    cases hraised : (store ext child d).raised with
    | some e =>
      exact hfirst.stop (persistent_staged ext) hrest
    | none =>
      exact hfirst.cons (persistent_staged ext) (persistent_onFile ext) hraised
        (storeAll_spec (hd.trans hfirst.appends.sameBelow.le_right)
          (hfirst.appends.persistent (persistent_staged ext).allOf hrest))

end

/-! ## What `store` may raise -/

theorem storeValue_raised (h : (storeValue crc32 v d).raised = some e) :
    e = .structError ∧ 256 ^ 4 ≤ (storeValue crc32 v d).ref.referent.length := by
  unfold storeValue at h ⊢
  split_ifs at h ⊢
  cases hwrite : write crc32 v.referent d with
  | ok address d' => simp [hwrite] at h
  | error e' d' =>
    obtain rfl : e' = e := by simpa [hwrite] using h
    exact write_error hwrite

theorem storeValues_raised (h : (storeValues crc32 values d).raised = some e) :
    e = .structError ∧ ∃ v ∈ (storeValues crc32 values d).ref, 256 ^ 4 ≤ v.referent.length := by
  induction values generalizing d with
  | nil => cases h
  | cons v values ih =>
    unfold storeValues at h ⊢
    cases hfirst : (storeValue crc32 v d).raised with
    | some e' =>
      obtain rfl : e' = e := by simpa [hfirst] using h
      obtain ⟨rfl, hlong⟩ := storeValue_raised hfirst
      refine ⟨rfl, ?_⟩
      simp only [hfirst]
      exact ⟨_, .head _, hlong⟩
    | none =>
      simp only [hfirst] at h ⊢
      obtain ⟨rfl, w, hw, hlong⟩ := ih h
      exact ⟨rfl, w, .tail _ hw, hlong⟩

/-- A value or a node of the subtree is too long for a record. -/
inductive TooLong : NodeRef α Bytes → Prop
  | value {address : ℕ} {keys : List α} {values : List (ValueRef Bytes)} {v : ValueRef Bytes} :
      v ∈ values → 256 ^ 4 ≤ v.referent.length → TooLong (.leaf address keys values)
  | node {node : NodeRef α Bytes} : 256 ^ 4 ≤ (ext.dumps node.payload).length → TooLong node
  | child {address : ℕ} {keys : List α} {children : List (NodeRef α Bytes)} {child : NodeRef α Bytes} :
      child ∈ children → TooLong child → TooLong (.internal address keys children)

theorem storeSelf_raised {raised : Option PyError}
    (hparts : ∀ e, raised = some e → e = .structError ∧ TooLong ext node)
    (h : (storeSelf ext node raised d).raised = some e) :
    e = .structError ∧ TooLong ext (storeSelf ext node raised d).ref := by
  unfold storeSelf at h ⊢
  cases raised with
  | some e' =>
    obtain rfl : e' = e := by simpa using h
    exact hparts e' rfl
  | none =>
    cases hwrite : write ext.crc32 (ext.dumps node.payload) d with
    | ok address d' => simp [hwrite] at h
    | error e' d' =>
      obtain rfl : e' = e := by simpa [hwrite] using h
      obtain ⟨rfl, hlong⟩ := write_error hwrite
      exact ⟨rfl, .node hlong⟩

mutual

/-- `store` raises nothing but `struct.error`, for something that is too long. -/
theorem store_raised : ∀ {node : NodeRef α Bytes} {d : Disk} {e : PyError},
    (store ext node d).raised = some e → e = .structError ∧ TooLong ext (store ext node d).ref
  | .leaf address keys values, d, e, h => by
    rw [store] at h ⊢
    split_ifs at h ⊢
    refine storeSelf_raised ext (fun e he => ?_) h
    obtain ⟨rfl, v, hv, hlong⟩ := storeValues_raised he
    exact ⟨rfl, .value hv hlong⟩
  | .internal address keys children, d, e, h => by
    rw [store] at h ⊢
    split_ifs at h ⊢
    refine storeSelf_raised ext (fun e he => ?_) h
    obtain ⟨rfl, child, hchild, hlong⟩ := storeAll_raised he
    exact ⟨rfl, .child hchild hlong⟩

theorem storeAll_raised : ∀ {children : List (NodeRef α Bytes)} {d : Disk} {e : PyError},
    (storeAll ext children d).raised = some e →
    e = .structError ∧ ∃ child ∈ (storeAll ext children d).ref, TooLong ext child
  | [], d, e, h => by
    rw [storeAll] at h
    cases h
  | child :: children, d, e, h => by
    rw [storeAll] at h ⊢
    cases hfirst : (store ext child d).raised with
    | some e' =>
      obtain rfl : e' = e := by simpa [hfirst] using h
      obtain ⟨rfl, hlong⟩ := store_raised hfirst
      exact ⟨rfl, _, .head _, hlong⟩
    | none =>
      simp only [hfirst] at h ⊢
      obtain ⟨rfl, c, hc, hlong⟩ := storeAll_raised h
      exact ⟨rfl, c, .tail _ hc, hlong⟩

end

end NodeRef
