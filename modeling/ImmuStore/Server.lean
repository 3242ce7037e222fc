/-
# The server (`server.py`)

A connection reads commands and answers them.  A handler first looks at its arguments
(`Plan`), and if it needs the database it has a job run on the single database thread
(`Job`); with the result of the job it publishes changes and sends a reply.
-/
import ImmuStore.Fnmatch
import ImmuStore.Interface
import ImmuStore.PubSub
import ImmuStore.Resp

open Resp

namespace Server

/-! ## The database thread -/

/-- `TextCodec`, for keys that are strings. -/
def textCodec : Codec Text Text where
  validKey key := !key.isEmpty
  startsWith key pre := pre.isPrefixOf key
  encode value := .ok (utf8Encode value)
  decode payload :=
    match utf8Decode? payload with
    | some text => .ok text
    | none => .error .valueError

variable (ext : Externals Text) (inClass : Text → Char → Bool)

/-- `_set`. -/
def set (key value : Text) : Py (Handle Text) Unit := do
  Handle.call (DBDB.setItem ext textCodec key value)
  Handle.call (Database.commit ext)

/-- `_get`. -/
def get (key : Text) : Py (Handle Text) (Option Text) :=
  onKeyError (some <$> Handle.call (DBDB.getItem ext textCodec key)) (pure none)

/-- The loop of `_delete`. -/
def deleteEach : List Text → Py (Handle Text) (List Text)
  | [] => pure []
  | key :: keys => do
    let removed ← onKeyError ((fun _ => [key]) <$> Handle.call (DBDB.delItem ext textCodec key)) (pure [])
    let rest ← deleteEach keys
    return removed ++ rest

/-- `_delete`. -/
def delete (keys : List Text) : Py (Handle Text) (List Text) := do
  let removed ← deleteEach ext keys
  if removed ≠ [] then
    Handle.call (Database.commit ext)
  return removed

/-- `_exists`. -/
def «exists» : List Text → Py (Handle Text) ℕ
  | [] => pure 0
  | key :: keys => do
    let found ← onKeyError ((fun _ => 1) <$> Handle.call (DBDB.getItem ext textCodec key)) (pure 0)
    let rest ← «exists» keys
    return found + rest

/-- `_GLOB_METACHARS`. -/
def globMetachars : List Char := ['*', '?', '[', ']']

/-- `_match_keys`. -/
def matchKeys (pattern : Text) : Py (Handle Text) (List Text) :=
  if pattern = ['*'] then Handle.call (DBDB.keys ext textCodec none none none)
  else
    let pre := pattern.dropLast
    if pattern.getLast? = some '*' ∧ pre ≠ [] ∧ ∀ c ∈ pre, c ∉ globMetachars then
      Handle.call (DBDB.keys ext textCodec (some pre) none none)
    else do
      let keys ← Handle.call (DBDB.keys ext textCodec none none none)
      return keys.filter fun key => Fnmatch.fnmatchcase inClass key pattern

/-- What is run on the database thread. -/
inductive Job where
  | set (key value : Text)
  | get (key : Text)
  | delete (keys : List Text)
  | exists (keys : List Text)
  | matchKeys (pattern : Text)
  | len
  | stats
  deriving DecidableEq, Repr

/-- What a job gives; `_set` gives nothing, and its handler goes on with its arguments. -/
inductive JobResult where
  | stored (key value : Text)
  | value (value : Option Text)
  | removed (keys : List Text)
  | found (count : ℕ)
  | names (keys : List Text)
  | size (count : ℤ)
  | stats (stats : StorageStats)

/-- A job on the database thread. -/
def Job.run : Job → Py (Handle Text) JobResult
  | .set key value => (fun _ => .stored key value) <$> Server.set ext key value
  | .get key => .value <$> Server.get ext key
  | .delete keys => .removed <$> Server.delete ext keys
  | .exists keys => .found <$> Server.exists ext keys
  | .matchKeys pattern => .names <$> Server.matchKeys ext inClass pattern
  | .len => .size <$> Handle.call (DBDB.len ext)
  | .stats => .stats <$> Handle.call (Database.stats ext)

/-! ## Commands -/

/-- `raw.upper()`. -/
def upper (raw : Bytes) : Bytes := raw.map fun b => if 97 ≤ b ∧ b ≤ 122 then b - 32 else b

/-- `command.decode("ascii", "ignore").lower()`. -/
def commandName (command : Bytes) : Text :=
  (command.filter (· < 128)).map fun b => (Char.ofNat b.toNat).toLower

/-- The handlers `_cmd_…`. -/
inductive Command where
  | ping | echo | set | get | del | exists | keys | dbsize | info | command | quit
  | subscribe | unsubscribe
  deriving DecidableEq, Repr

/-- The names of the handlers. -/
def handlers : List (Text × Command) :=
  [("ping".toList, .ping), ("echo".toList, .echo), ("set".toList, .set), ("get".toList, .get),
   ("del".toList, .del), ("exists".toList, .exists), ("keys".toList, .keys),
   ("dbsize".toList, .dbsize), ("info".toList, .info), ("command".toList, .command),
   ("quit".toList, .quit), ("subscribe".toList, .subscribe), ("unsubscribe".toList, .unsubscribe)]

/-- `_SUBSCRIBE_MODE_COMMANDS`, upper case. -/
def subscribeModeCommands : List Bytes :=
  ["SUBSCRIBE", "UNSUBSCRIBE", "PING", "QUIT"].map fun name => utf8Encode name.toList

/-- What a handler does with its arguments: it sends a reply and goes on or not, it raises,
or it needs the database or the broker. -/
inductive Plan where
  | send (reply : Reply) (goesOn : Bool)
  | raise
  | run (job : Job)
  | subscribe (prefixes : List Bytes)
  | unsubscribe (prefixes : List Text)

/-- `_wrong_args`. -/
def wrongArgs (name : Text) : Plan :=
  .send (.error ("ERR wrong number of arguments for '".toList ++ name ++ ['\''])) true

/-- What is done with an argument that is decoded first. -/
def withText (raw : Bytes) (next : Text → Plan) : Plan :=
  match utf8Decode? raw with
  | some text => next text
  | none => .raise

/-- What is done with arguments that are all decoded first. -/
def withTexts (raws : List Bytes) (next : List Text → Plan) : Plan :=
  match raws.mapM utf8Decode? with
  | some texts => next texts
  | none => .raise

/-- The handlers, up to where they need the database. -/
def Command.plan (args : List Bytes) : Command → Plan
  | .ping =>
    match args with
    | _ :: raw :: _ => withText raw fun text => .send (.str text) true
    | _ => .send (.simpleString "PONG".toList) true
  | .echo =>
    match args with
    | [_, raw] => withText raw fun text => .send (.str text) true
    | _ => wrongArgs "echo".toList
  | .set =>
    match args with
    | [_, rawKey, rawValue] =>
      withText rawKey fun key => withText rawValue fun value =>
        if key = [] then .send (.error "ERR key must not be empty".toList) true
        else .run (.set key value)
    | _ => wrongArgs "set".toList
  | .get =>
    match args with
    | [_, raw] => withText raw fun key => .run (.get key)
    | _ => wrongArgs "get".toList
  | .del =>
    match args with
    | _ :: raw :: raws => withTexts (raw :: raws) fun keys => .run (.delete keys)
    | _ => wrongArgs "del".toList
  | .exists =>
    match args with
    | _ :: raw :: raws => withTexts (raw :: raws) fun keys => .run (.exists keys)
    | _ => wrongArgs "exists".toList
  | .keys =>
    match args with
    | [_, raw] => withText raw fun pattern => .run (.matchKeys pattern)
    | _ => wrongArgs "keys".toList
  | .dbsize => .run .len
  | .info => .run .stats
  | .command => .send (.list []) true
  | .quit => .send (.simpleString "OK".toList) false
  | .subscribe =>
    match args with
    | _ :: raw :: raws => .subscribe (raw :: raws)
    | _ => wrongArgs "subscribe".toList
  | .unsubscribe => withTexts args.tail .unsubscribe

/-- `_dispatch`, up to where the handler needs the database; `subscribed` says that the
connection has subscriptions. -/
def dispatch (subscribed : Bool) (args : List Bytes) : Plan :=
  let command := upper (args.headD [])
  if subscribed ∧ command ∉ subscribeModeCommands then
    .send (.error "ERR only SUBSCRIBE/UNSUBSCRIBE/PING/QUIT allowed while subscribed".toList) true
  else match handlers.lookup (commandName command) with
    | none => .send (.error ("ERR unknown command '".toList ++ utf8Replace command.length command ++
        ['\''])) true
    | some handler => handler.plan args

/-! ## The end of a command -/

/-- `str(z)` for a count or a field of 64 bits, which has few digits. -/
def decimalText (z : ℤ) : Text := (spell z).map fun b => Char.ofNat b.toNat

/-- The report of `INFO`. -/
def report (stats : StorageStats) (clients : ℕ) : Text :=
  ['\r', '\n'].intercalate [
    "# Server".toList,
    "immustore_version:0.2.0".toList,
    [],
    "# Storage".toList,
    "keys:".toList ++ decimalText stats.keyCount,
    "records:".toList ++ decimalText stats.recordCount,
    "file_size:".toList ++ decimalText stats.fileSize,
    "txn_id:".toList ++ decimalText stats.txnId,
    [],
    "# Clients".toList,
    "connected_clients:".toList ++ decimalText clients,
    []]

/-- The changes that are published when a job has returned. -/
def JobResult.changes : JobResult → List PubSub.Change
  | .stored key text => [⟨key, "set".toList, some text⟩]
  | .removed keys => keys.map fun key => ⟨key, "del".toList, none⟩
  | _ => []

/-- The reply that is sent then; `clients` is the number of open connections. -/
def JobResult.reply (clients : ℕ) : JobResult → Reply
  | .stored _ _ => .simpleString "OK".toList
  | .value none => .none
  | .value (some text) => .str text
  | .removed keys => .int keys.length
  | .found count => .int count
  | .names keys => .list (keys.map .str)
  | .size count => .int count
  | .stats record => .str (report record clients)

/-! ## The loop of a connection -/

/-- What a turn of the loop of `serve` does. -/
inductive Turn where
  | dispatches (args : List Bytes) (rest : Bytes)
  | skips (rest : Bytes)
  | refuses (reply : Reply)
  | ends
  | raises (e : StreamError)

/-- The turn of `serve` on what is still to be read. -/
def serveTurn (limits : Limits) (s : Bytes) : Turn :=
  match readCommand limits s with
  | .error (.protocolError message) _ => .refuses (.error ("ERR protocol error: ".toList ++ message))
  | .error e _ => .raises e
  | .ok none _ => .ends
  | .ok (some []) rest => .skips rest
  | .ok (some (name :: args)) rest => .dispatches (name :: args) rest

end Server
