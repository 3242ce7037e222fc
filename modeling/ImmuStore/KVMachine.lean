/-
# The replicated state machine on a database (`raft/statemachine.py`)

`KVStateMachine` stages the change of a command and the index of the command, and
commits both at once.  Whatever point of an `apply` a crash interrupts, the database is
found as the first `k` commands leave it, with `k` as its applied index; going on from
there ends where a run without the crash ends.
-/
import ImmuStore.InterfaceSpec
import ImmuStore.RaftNode
import ImmuStore.Recovery

open Relation Storage

variable {V : Type}

/-! ## The source -/

/-- The functions of `json` that `JsonCodec` rests on, for the values it can dump, and the
conversion of integers. -/
structure JsonModule (V : Type) where
  encode : V → Bytes
  decode : Bytes → Except PyError V
  decode_encode : ∀ value, decode (encode value) = .ok value
  number : ℤ → V
  toInt : V → Except PyError ℤ
  toInt_number : ∀ n, toInt (number n) = .ok n

/-- `JsonCodec`, for keys that are strings. -/
def JsonModule.codec (json : JsonModule V) : Codec String V where
  validKey key := key ≠ ""
  startsWith key pre := pre.toList.isPrefixOf key.toList
  encode value := .ok (json.encode value)
  decode := json.decode

/-- `RAFT_APPLIED_KEY`. -/
def raftAppliedKey : String := "__raft_applied_index__"

namespace KVStateMachine

variable (ext : Externals String) (json : JsonModule V)

/-- `applied_index`. -/
def appliedIndex : Py (Database String) ℤ :=
  onKeyError (do
    let value ← DBDB.getItem ext json.codec raftAppliedKey
    ofExcept (json.toInt value)) (pure 0)

/-- The branches of `apply`. -/
def stage : KVCommand V → Py (Database String) Unit
  | .set key value => DBDB.setItem ext json.codec key value
  | .del key => onKeyError (DBDB.delItem ext json.codec key) (pure ())
  | .noop => pure ()

/-- `apply`. -/
def apply (index : ℕ) (command : KVCommand V) : Py (Database String) Unit := do
  stage ext json command
  -- the applied index rides in the same commit as the data
  DBDB.setItem ext json.codec raftAppliedKey (json.number index)
  Database.commit ext

end KVStateMachine

namespace Recorder

/-- One turn of the loop of `kv`. -/
def kvStep (state : PyDict String V) : KVCommand V → PyDict String V
  | .set key value => state.set key value
  | .del key => state.pop key
  | .noop => state

/-- `kv`. -/
def kv (r : Recorder (KVCommand V)) : PyDict String V :=
  r.applied.foldl (fun state entry => kvStep state entry.2) .empty

/-- The recorder after `apply(1, c1)`, `apply(2, c2)` and so on. -/
def applyAll (commands : List (KVCommand V)) : Recorder (KVCommand V) :=
  commands.zipIdx.foldl (fun r entry => resultState (StateMachine.apply (entry.2 + 1) entry.1 r)) {}

/-- `kv` after one more command. -/
theorem kv_applyAll_concat (commands : List (KVCommand V)) (command : KVCommand V) :
    (applyAll (commands ++ [command])).kv = kvStep (applyAll commands).kv command := by
  simp only [applyAll, List.zipIdx_append, List.zipIdx_cons, List.zipIdx_nil, List.foldl_append,
    List.foldl_cons, List.foldl_nil]
  simp [kv, StateMachine.apply]

end Recorder

/-! ## Applying a command -/

/-- A command that has a key, if it needs one. -/
def KVCommand.Valid : KVCommand V → Prop
  | .set key _ => key ≠ ""
  | .del key => key ≠ ""
  | .noop => True

/-- What the branches of `apply` stage. -/
def KVCommand.onMap (json : JsonModule V) (s : String → Option Bytes) :
    KVCommand V → String → Option Bytes
  | .set key value => Function.update s key (some (json.encode value))
  | .del key => Function.update s key none
  | .noop => s

/-- The map after the given commands: what they stage, and their number. -/
def machineMap (json : JsonModule V) (commands : List (KVCommand V)) : String → Option Bytes :=
  commands.zipIdx.foldl (fun s entry => Function.update (entry.1.onMap json s) raftAppliedKey
    (some (json.encode (json.number (entry.2 + 1))))) fun _ => none

variable {ext : Externals String} {json : JsonModule V} {order : ℕ} {db db' : Database String}
  {c s : String → Option Bytes} {command : KVCommand V} {commands : List (KVCommand V)} {k : ℕ}
variable {key : String}

section

variable (json) (commands)

theorem machineMap_concat (command : KVCommand V) :
    machineMap json (commands ++ [command]) =
      Function.update (command.onMap json (machineMap json commands)) raftAppliedKey
        (some (json.encode (json.number (commands.length + 1)))) := by
  simp [machineMap, List.zipIdx_append]

/-- Away from the reserved key the map is the dictionary of the recorder. -/
theorem machineMap_eq (hkey : key ≠ raftAppliedKey) :
    machineMap json commands key = ((Recorder.applyAll commands).kv.get? key).map json.encode := by
  induction commands using List.reverseRecOn with
  | nil => rfl
  | append_singleton commands command ih =>
    rw [machineMap_concat, Function.update_of_ne hkey, Recorder.kv_applyAll_concat]
    cases command with
    | set key' value =>
      rw [KVCommand.onMap, Recorder.kvStep, PyDict.get?_set]
      by_cases heq : key = key'
      · subst heq
        simp
      · rw [Function.update_of_ne heq, if_neg heq, ih]
    | del key' =>
      rw [KVCommand.onMap, Recorder.kvStep, PyDict.get?_pop]
      by_cases heq : key = key'
      · subst heq
        simp
      · rw [Function.update_of_ne heq, if_neg heq, ih]
    | noop => exact ih

/-- The reserved key is bound to the number of commands, if there are any. -/
theorem machineMap_applied :
    machineMap json commands raftAppliedKey =
      if commands = [] then none else some (json.encode (json.number commands.length)) := by
  induction commands using List.reverseRecOn with
  | nil => rfl
  | append_singleton commands command =>
    rw [machineMap_concat, Function.update_self, if_neg (by simp), List.length_append]
    simp

end

theorem JsonModule.validKey_of_ne (json : JsonModule V) (h : key ≠ "") :
    json.codec.validKey key = true := decide_eq_true h

/-- Staging a binding of a key that is not empty. -/
theorem Database.Attached.setJson {m : Meta} (h : db.Attached ext order m c s) (json : JsonModule V)
    (hkey : key ≠ "") (value : V) :
    ∃ db', DBDB.setItem ext json.codec key value db = .ok () db' ∧ db'.disk = db.disk ∧
      db'.Writing ext order m c (Function.update s key (some (json.encode value))) :=
  h.setItem (json.validKey_of_ne hkey) rfl

namespace KVStateMachine

/-- The branches of `apply` stage the effect of the command. -/
theorem stage_spec {m : Meta} (h : db.Attached ext order m c s) (json : JsonModule V)
    (hvalid : command.Valid) :
    ∃ db', stage ext json command db = .ok () db' ∧ db'.disk = db.disk ∧
      db'.Attached ext order m c (command.onMap json s) := by
  cases command with
  | set key value =>
    obtain ⟨db', hrun, hdisk, hwriting⟩ := h.setJson json hvalid value
    exact ⟨db', hrun, hdisk, hwriting.attached⟩
  | del key =>
    have hkey := json.validKey_of_ne hvalid
    by_cases hbound : s key = none
    · obtain ⟨db', hrun, hdisk, hwriting⟩ := h.delItem_absent hkey hbound
      refine ⟨db', ?_, hdisk, ?_⟩
      · simp [stage, onKeyError, hrun]
      · rw [KVCommand.onMap, Function.update_eq_self_iff.mpr hbound.symm]
        exact hwriting.attached
    · obtain ⟨db', hrun, hdisk, hwriting⟩ := h.delItem hkey hbound
      refine ⟨db', ?_, hdisk, hwriting.attached⟩
      simp [stage, onKeyError, hrun]
  | noop => exact ⟨db, rfl, rfl, h⟩

/-- `apply` is one commit of the staged change and the index. -/
theorem apply_spec (h : db.Running ext order c c) (json : JsonModule V) (hvalid : command.Valid)
    (index : ℕ) :
    ∃ db1 : Database String, apply ext json index command db = db1.commit ext ∧ db1.disk = db.disk ∧
      db1.Running ext order c (Function.update (command.onMap json c) raftAppliedKey
        (some (json.encode (json.number index)))) := by
  obtain ⟨db', hstage, hdisk, hattached⟩ := stage_spec h.attached json hvalid
  obtain ⟨db1, hset, hdisk1, hwriting⟩ :=
    hattached.setJson json (by decide : raftAppliedKey ≠ "") (json.number index)
  refine ⟨db1, ?_, hdisk1.trans hdisk, ?_⟩
  · simp only [apply, run_bind, hstage, hset]
  · have hsafe := h.safe
    rw [← hdisk, ← hdisk1, ← hwriting.cached_eq] at hsafe
    exact ⟨hsafe, hwriting.holding, fun hl => absurd (hwriting.locked.symm.trans hl) (by decide)⟩

end KVStateMachine

/-! ## Runs with crashes -/

/-- A state machine on a database: running, after so many commands, or down; and how many
calls of `apply` have returned. -/
inductive MachineRun where
  | running (db : Database String) (index returned : ℕ)
  | down (f : File) (returned : ℕ)

namespace MachineRun

variable (ext) (json) (order) (commands) in
/-- The steps: `apply` of the next command, a crash at any point, and opening the database
again, which goes on after the applied index that it finds. -/
inductive Step : MachineRun → MachineRun → Prop
  | apply {db db' : Database String} {k returned : ℕ} {command : KVCommand V} :
      commands[k]? = some command →
      KVStateMachine.apply ext json (k + 1) command db = .ok () db' →
      Step (.running db k returned) (.running db' (k + 1) (returned + 1))
  | crash {db : Database String} {k returned : ℕ} {f : File} :
      db.disk.Crashed (TornSlotFails ext.crc32) f →
      Step (.running db k returned) (.down f returned)
  | crashInApply {db : Database String} {k returned : ℕ} {command : KVCommand V} {d : Disk}
      {f : File} : commands[k]? = some command → db.disk.Later d →
      d.Later (resultState (KVStateMachine.apply ext json (k + 1) command db)).disk →
      d.Crashed (TornSlotFails ext.crc32) f →
      Step (.running db k returned) (.down f returned)
  | reopen {f : File} {db db' : Database String} {k returned : ℕ} :
      Database.connect ext (.blank order (.powerOn f)) = .ok () db →
      KVStateMachine.appliedIndex ext json db = .ok (k : ℤ) db' →
      Step (.down f returned) (.running db' k returned)
  | crashInRecovery {f g : File} {returned : ℕ} {d : Disk} : (Disk.powerOn f).Later d →
      d.Later (resultState (Database.connect ext (.blank order (.powerOn f)))).disk →
      d.Crashed (TornSlotFails ext.crc32) g →
      Step (.down f returned) (.down g returned)

/-- The invariant: the database holds what the first commands leave. -/
def Inv (ext : Externals String) (json : JsonModule V) (order : ℕ)
    (commands : List (KVCommand V)) : MachineRun → Prop
  | .running db k returned => returned ≤ k ∧ k ≤ commands.length ∧
      db.Running ext order (machineMap json (commands.take k)) (machineMap json (commands.take k))
  | .down f returned => ∃ k, returned ≤ k ∧ k ≤ commands.length ∧
      ∃ m, Committed ext order f m (machineMap json (commands.take k))

end MachineRun

/-- The map after the next command. -/
theorem machineMap_next (json : JsonModule V) (h : commands[k]? = some command) :
    machineMap json (commands.take (k + 1)) =
      Function.update (command.onMap json (machineMap json (commands.take k))) raftAppliedKey
        (some (json.encode (json.number (k + 1 : ℕ)))) := by
  obtain ⟨hlt, rfl⟩ := List.getElem?_eq_some_iff.mp h
  rw [List.take_succ_eq_append_getElem hlt, machineMap_concat, List.length_take,
    Nat.min_eq_left hlt.le]
  push_cast
  rfl

namespace KVStateMachine

section

variable (h : db.Running ext order (machineMap json commands) (machineMap json commands))
include h

/-- Looking a key up in a database that holds what the first commands leave. -/
theorem getItem_eq {key : String} (hempty : key ≠ "") (hkey : key ≠ raftAppliedKey) :
    ∃ db', DBDB.getItem ext json.codec key db =
      match (Recorder.applyAll commands).kv.get? key with
      | some value => .ok value db'
      | none => .error .keyError db' := by
  obtain ⟨db', -, hget⟩ := h.attached.getItem (json.validKey_of_ne hempty)
  refine ⟨db', ?_⟩
  rw [hget, mapGet, if_pos (json.validKey_of_ne hempty), machineMap_eq json commands hkey]
  cases (Recorder.applyAll commands).kv.get? key with
  | none => rfl
  | some value => simp [JsonModule.codec, json.decode_encode, Except.inState]

/-- `applied_index` of a database that holds what the first commands leave. -/
theorem appliedIndex_eq :
    ∃ db', appliedIndex ext json db = .ok (commands.length : ℤ) db' ∧
      db'.Running ext order (machineMap json commands) (machineMap json commands) := by
  have hkey : raftAppliedKey ≠ "" := by decide
  obtain ⟨db', hrefresh, hget⟩ := h.attached.getItem (json.validKey_of_ne hkey)
  refine ⟨db', ?_, h.refreshUnlocked hrefresh⟩
  rw [mapGet, if_pos (json.validKey_of_ne hkey), machineMap_applied] at hget
  by_cases hnil : commands = []
  · rw [if_pos hnil] at hget
    simp [appliedIndex, onKeyError, hget, Except.inState, hnil]
  · rw [if_neg hnil] at hget
    have hdecode : json.codec.decode (json.encode (json.number commands.length)) =
        .ok (json.number commands.length) := json.decode_encode _
    simp [appliedIndex, onKeyError, hget, hdecode, Except.inState, json.toInt_number]

end

end KVStateMachine

namespace MachineRun

variable {σ : MachineRun}

/-- One step keeps the invariant. -/
theorem Step.inv {σ' : MachineRun} (hvalid : ∀ command ∈ commands, command.Valid)
    (hstep : σ.Step ext json order commands σ') (h : σ.Inv ext json order commands) :
    σ'.Inv ext json order commands := by
  cases hstep with
  | apply hcommand hrun =>
    obtain ⟨hle, hlen, hrunning⟩ := h
    obtain ⟨db1, heq, -, hrunning1⟩ := KVStateMachine.apply_spec hrunning json
      (hvalid _ (List.mem_of_getElem? hcommand)) _
    obtain ⟨hlt, -⟩ := List.getElem?_eq_some_iff.mp hcommand
    refine ⟨by omega, hlt, ?_⟩
    rw [heq] at hrun
    rw [machineMap_next json hcommand]
    exact hrunning1.commit hrun
  | crash hcrashed =>
    obtain ⟨hle, hlen, hrunning⟩ := h
    obtain ⟨m, c, rfl, hc⟩ := hrunning.safe.crashSafe (Set.mem_singleton _) _ hcrashed
    exact ⟨_, hle, hlen, m, hc⟩
  | crashInApply hcommand hlater hlater' hcrashed =>
    obtain ⟨hle, hlen, hrunning⟩ := h
    obtain ⟨db1, heq, hdisk, hrunning1⟩ := KVStateMachine.apply_spec hrunning json
      (hvalid _ (List.mem_of_getElem? hcommand)) _
    obtain ⟨hlt, -⟩ := List.getElem?_eq_some_iff.mp hcommand
    rw [heq] at hlater'
    rw [← hdisk] at hlater
    rw [← machineMap_next json hcommand] at hrunning1
    -- the commit leaves the map before the command, or the one after it
    obtain ⟨m, c, hmem, hc⟩ :=
      commit_crashSafe hrunning1.safe hrunning1.holding _ hlater hlater' _ hcrashed
    rcases hmem with rfl | rfl
    · exact ⟨_, hle, hlen, m, hc⟩
    · exact ⟨_, by omega, hlt, m, hc⟩
  | reopen hopen hindex =>
    obtain ⟨k', hle, hlen, m, hc⟩ := h
    obtain ⟨db, hopen', hrunning⟩ := Database.connect_running hc
    obtain rfl : db = _ := by simpa [hopen] using hopen'.symm
    obtain ⟨db', hindex', hrunning'⟩ := KVStateMachine.appliedIndex_eq hrunning
    rw [hindex'] at hindex
    obtain ⟨hk, rfl⟩ := EStateM.Result.ok.inj hindex
    rw [List.length_take, Nat.min_eq_left hlen, Nat.cast_inj] at hk
    subst hk
    exact ⟨hle, hlen, hrunning'⟩
  | crashInRecovery hlater hlater' hcrashed =>
    obtain ⟨k, hle, hlen, m, hc⟩ := h
    obtain ⟨d, t, hrun, -, -, hsafe⟩ := connect_safe hc
    rw [hrun] at hlater'
    obtain ⟨m', c, rfl, hc'⟩ :=
      (hsafe _ hlater hlater').crashSafe (Set.mem_singleton _) _ hcrashed
    exact ⟨k, hle, hlen, m', hc'⟩

theorem inv_of_run {db0 : Database String} (hvalid : ∀ command ∈ commands, command.Valid)
    (hnew : Database.connect ext (.blank order (.powerOn .empty)) = .ok () db0)
    (hrun : ReflTransGen (Step ext json order commands) (.running db0 0 0) σ) :
    σ.Inv ext json order commands := by
  induction hrun with
  | refl => exact ⟨le_rfl, Nat.zero_le _, Database.connect_new_running hnew⟩
  | tail _ hstep ih => exact hstep.inv hvalid ih

end MachineRun

/-! ## Exactly once -/

/-- The database reads as the first `k` commands leave it: its applied index is `k`, and
its other keys are those of `Recorder.kv`. -/
def KVStateMachine.ReadsAs (ext : Externals String) (json : JsonModule V)
    (commands : List (KVCommand V)) (k : ℕ) (db : Database String) : Prop :=
  (∃ db', appliedIndex ext json db = .ok (k : ℤ) db') ∧
  ∀ key, key ≠ "" → key ≠ raftAppliedKey → ∃ db', DBDB.getItem ext json.codec key db =
    match (Recorder.applyAll (commands.take k)).kv.get? key with
    | some value => .ok value db'
    | none => .error .keyError db'

theorem Database.Running.readsAs (hlen : k ≤ commands.length)
    (h : db.Running ext order (machineMap json (commands.take k))
      (machineMap json (commands.take k))) :
    KVStateMachine.ReadsAs ext json commands k db := by
  refine ⟨?_, fun key hempty hkey => KVStateMachine.getItem_eq h hempty hkey⟩
  obtain ⟨db', hindex, -⟩ := KVStateMachine.appliedIndex_eq h
  rw [List.length_take, Nat.min_eq_left hlen] at hindex
  exact ⟨db', hindex⟩

/-- **Every command is applied exactly once.**  However often the commands are interrupted
by crashes and taken up again: a database that is down is opened as the first `k` commands
leave it, with `k` as its applied index, and `k` is at least the number of calls of
`apply` that have returned; and a database on which the commands have been applied up to
`k` reads as the first `k` commands leave it, whether there was a crash or not. -/
theorem commands_applied_once (ext : Externals String) (json : JsonModule V) (order : ℕ)
    (commands : List (KVCommand V)) (hvalid : ∀ command ∈ commands, command.Valid)
    {db0 : Database String}
    (hnew : Database.connect ext (.blank order (.powerOn .empty)) = .ok () db0) :
    (∀ f returned, ReflTransGen (MachineRun.Step ext json order commands)
        (.running db0 0 0) (.down f returned) →
      ∃ db k, Database.connect ext (.blank order (.powerOn f)) = .ok () db ∧ returned ≤ k ∧
        KVStateMachine.ReadsAs ext json commands k db) ∧
    ∀ db k returned, ReflTransGen (MachineRun.Step ext json order commands)
        (.running db0 0 0) (.running db k returned) →
      KVStateMachine.ReadsAs ext json commands k db := by
  constructor
  · intro f returned hrun
    obtain ⟨k, hle, hlen, m, hc⟩ := MachineRun.inv_of_run hvalid hnew hrun
    obtain ⟨db, hopen, hrunning⟩ := Database.connect_running hc
    exact ⟨db, k, hopen, hle, hrunning.readsAs hlen⟩
  · intro db k returned hrun
    obtain ⟨-, hlen, hrunning⟩ := MachineRun.inv_of_run hvalid hnew hrun
    exact hrunning.readsAs hlen

/-! ## A sample -/

/-- The pickle for keys that are strings. -/
noncomputable def sampleMachineExt : Externals String :=
  (pickleOf String.toList fun _ _ => String.toList_injective).ext

/-- Integers as JSON values: a sign, and as many bytes as the integer says. -/
def sampleJson : JsonModule ℤ where
  encode
    | .ofNat n => List.replicate n 0
    | .negSucc n => 1 :: List.replicate n 0
  decode
    | 1 :: bytes => .ok (.negSucc bytes.length)
    | bytes => .ok bytes.length
  decode_encode n := by
    cases n with
    | ofNat n => cases n <;> simp [List.replicate_succ]
    | negSucc n => simp
  number n := n
  toInt n := .ok n
  toInt_number _ := rfl

/-- A key is bound and deleted. -/
def sampleCommands : List (KVCommand ℤ) := [.set "k" 7, .del "k"]

theorem few_sampleCommands (k : ℕ) :
    Few ["k", raftAppliedKey] (machineMap sampleJson (sampleCommands.take k)) := by
  have hone : Few ["k", raftAppliedKey] (machineMap sampleJson [.set "k" 7]) :=
    ((few_empty _).update (by decide) (by decide)).update (by decide) (by decide)
  have htwo : Few ["k", raftAppliedKey] (Function.update
      (Function.update (machineMap sampleJson [.set "k" 7]) "k" none) raftAppliedKey
      (some (sampleJson.encode 2))) :=
    (hone.update (by decide) (by decide)).update (by decide) (by decide)
  rcases k with _ | _ | k
  · exact few_empty _
  · exact hone
  · rw [List.take_of_length_le (by simp [sampleCommands])]
    exact htwo

/-- The next command is applied, if what it leaves is short. -/
theorem MachineRun.Inv.apply {n returned : ℕ} (hvalid : ∀ command ∈ commands, command.Valid)
    (h : (running db k returned).Inv ext json order commands) (hcommand : commands[k]? = some command)
    (hshort : Short ext order (machineMap json (commands.take (k + 1))))
    (hroom : Roomy ext order (n + 1) db.disk) :
    ∃ db', Step ext json order commands (.running db k returned)
        (.running db' (k + 1) (returned + 1)) ∧ Roomy ext order n db'.disk := by
  obtain ⟨db1, heq, hdisk, hrunning⟩ := KVStateMachine.apply_spec h.2.2 json
    (hvalid _ (List.mem_of_getElem? hcommand)) (k + 1)
  rw [← machineMap_next json hcommand] at hrunning
  obtain ⟨db', hrun, -, hroom'⟩ :=
    Database.commit_short hrunning.safe.committed hrunning.holding hshort (hdisk ▸ hroom)
  exact ⟨db', .apply hcommand (heq.trans hrun), hroom'⟩

theorem commands_applied_once_sample :
    ∃ (db0 db : Database String) (f : File) (k : ℕ),
      (∀ command ∈ sampleCommands, command.Valid) ∧
      Database.connect sampleMachineExt (.blank 64 (.powerOn .empty)) = .ok () db0 ∧
      ReflTransGen (MachineRun.Step sampleMachineExt sampleJson 64 sampleCommands)
        (.running db0 0 0) (.down f 2) ∧
      Database.connect sampleMachineExt (.blank 64 (.powerOn f)) = .ok () db ∧ 2 ≤ k ∧
      KVStateMachine.ReadsAs sampleMachineExt sampleJson sampleCommands k db := by
  have hvalid : ∀ command ∈ sampleCommands, command.Valid := by
    simp [sampleCommands, KVCommand.Valid]
  obtain ⟨d, t, hnew, hc, -, -, hsize⟩ :=
    Database.connect_new sampleMachineExt (by decide : 3 ≤ 64)
  have hshort : ∀ k, Short sampleMachineExt 64
      (machineMap sampleJson (sampleCommands.take k)) :=
    fun k => (few_sampleCommands k).short _ (by decide) (by decide)
  obtain ⟨db1, hfirst, hroom⟩ := (MachineRun.inv_of_run hvalid hnew .refl).apply hvalid
    (show sampleCommands[0]? = _ from rfl) (hshort 1) (roomy_new hc hsize)
  obtain ⟨db2, hsecond, -⟩ := (MachineRun.inv_of_run hvalid hnew (.single hfirst)).apply hvalid
    (show sampleCommands[1]? = _ from rfl) (hshort 2) hroom
  have hrun := ((ReflTransGen.single hfirst).tail hsecond).tail
    (.crash (crashed_durable _ _))
  obtain ⟨hdown, -⟩ :=
    commands_applied_once sampleMachineExt sampleJson 64 sampleCommands hvalid hnew
  obtain ⟨db, k, hopen, hle, hreads⟩ := hdown _ _ hrun
  exact ⟨_, db, _, k, hvalid, hnew, hrun, hopen, hle, hreads⟩
