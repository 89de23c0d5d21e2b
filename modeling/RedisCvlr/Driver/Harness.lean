import RedisCvlr.Driver.Drift
import RedisCvlr.Driver.Requests
import RedisCvlr.Driver.Seeds

/-!
# The harness against a server

`run_schedule` of `src/driver/difftest.rs` and the loop of the test `model_matches_real_redis`, over
a connection. The server is a parameter: what it answers to the bytes of a request, and what happens
to it while the harness sleeps. A read that finds too few bytes is a closed connection.

A report carries the data that the source formats: the text of `what` is left out.
-/

set_option autoImplicit false
set_option relaxedAutoImplicit false

namespace RedisCvlr.Driver

open RedisCvlr.Model

variable {K C : ℕ} {σ : Type}

/-! ### Connections -/

/-- What is on the other end of the connection: it answers the bytes of a request with bytes, and it
lives on while the harness sleeps. -/
structure Server (σ : Type) where
  serve : σ → List UInt8 → σ × List UInt8
  sleep : σ → Ms → σ

/-- A connection: the server and the bytes that it has sent and that are still unread. -/
structure Conn (σ : Type) where
  server : σ
  unread : List UInt8

section Client

variable (server : Server σ)

/-- `Client::cmd`: the request is written and flushed, and one reply is read. -/
def clientCmd (conn : Conn σ) (args : List (List UInt8)) : Except ReadFailure (Resp × Conn σ) := do
  let served := server.serve conn.server (cmdBytes args)
  let (reply, unread) ← read (conn.unread ++ served.2)
  return (reply, ⟨served.1, unread⟩)

/-- `Client::cmd_s`. -/
def clientCmdS (conn : Conn σ) (args : List String) : Except ReadFailure (Resp × Conn σ) :=
  clientCmd server conn (args.map asBytes)

/-! ### The snapshot of the server -/

/-- The names in a reply to KEYS. -/
def replyNames : Resp → List String
  | .array items => items.filterMap fun item ↦ item.asBulk.map fromUtf8Lossy
  | _ => []

/-- The loop of `server_snapshot`: GET, then PTTL if there is a value. -/
def snapshotKeys : List String → Conn σ → List (String × List UInt8 × Bool) →
    Except ReadFailure (List (String × List UInt8 × Bool) × Conn σ)
  | [], conn, values => .ok (values, conn)
  | name :: names, conn, values => do
    let (got, conn) ← clientCmdS server conn ["GET", name]
    match got with
    | .bulk bytes =>
      let (ttl, conn) ← clientCmdS server conn ["PTTL", name]
      snapshotKeys names conn (values ++ [(name, bytes, decide (0 ≤ ttl.asInt.getD (-2)))])
    | _ => snapshotKeys names conn values

/-- `server_snapshot`, over the connection: DBSIZE, KEYS, then the keys in the order of their
names. -/
def wireSnapshot (conn : Conn σ) : Except ReadFailure (Snapshot × Conn σ) := do
  let (sized, conn) ← clientCmdS server conn ["DBSIZE"]
  let (listed, conn) ← clientCmdS server conn ["KEYS", "*"]
  let visible := sortBy id (replyNames listed)
  let (values, conn) ← snapshotKeys server visible conn []
  return (⟨sized.asInt.getD (-1), visible, sortBy entryOrder values⟩, conn)

end Client

/-! ### Reports -/

/-- `describe`. -/
def describe : Reply K → String
  | .ok => "OK"
  | .nil => "nil"
  | .int n => "int(" ++ toString n ++ ")"
  | .str s => "bulk(" ++ toString (s.asSlice.map UInt8.toNat) ++ ")"
  | .keySet set =>
    let names := (reportedKeys (.keySet set)).map fun k ↦ "\"" ++ keyName k ++ "\""
    "keys([" ++ ", ".intercalate names ++ "])"
  | .type _ => "string"
  | .noType => "none"
  | .error => "error"

/-- What a divergence reports: a request with the described reply of the model and the reply of the
server, or the two snapshots. -/
inductive Mismatch
  | reply (request : String) (model : String) (server : Resp)
  | snapshot (model server : Snapshot)

/-- `Divergence`. -/
structure Divergence where
  seed : UInt64
  step : ℕ
  what : Mismatch

/-- The text of a request in a report. -/
def requestText (args : List (List UInt8)) : String := " ".intercalate (args.map fromUtf8Lossy)

/-! ### `run_schedule` -/

section Schedule

variable [NeZero C] (server : Server σ) (seed : UInt64)

/-- The loop of `run_schedule` from the step with the given index: it ends with the world of the
model, or early with a divergence. -/
def runSteps : ℕ → World K C → Conn σ → List (DiffStep K C) →
    Except ReadFailure (Conn σ × (Divergence ⊕ World K C))
  | _, w, conn, [] => .ok (conn, .inr w)
  | i, w, conn, .tick :: rest =>
    runSteps (i + 1) (modelStep w .tick).1 { conn with server := server.sleep conn.server tickMs }
      rest
  | i, w, conn, .cmd command :: rest => do
    let executed := execCmd w 0 command
    let (reply, conn) ← clientCmd server conn (render command)
    if repliesAgree executed.2 reply (DiffStep.cmd command).isPttl then
      runSteps (i + 1) executed.1 conn rest
    else
      let what := .reply (requestText (render command)) (describe executed.2) reply
      return (conn, .inl ⟨seed, i, what⟩)

/-- `run_schedule`: the first divergence of a schedule, if any. -/
def runSchedule (base : Ms) (schedule : List (DiffStep K C)) (conn : Conn σ) :
    Except ReadFailure (Conn σ × Option Divergence) := do
  let (_, conn) ← clientCmdS server conn ["FLUSHALL"]
  let (conn, outcome) ← runSteps server seed 0 (World.empty base) conn schedule
  match outcome with
  | .inl divergence => return (conn, some divergence)
  | .inr w =>
    let (observed, conn) ← wireSnapshot server conn
    if modelSnapshot w = observed then return (conn, none)
    else return (conn, some ⟨seed, schedule.length, .snapshot (modelSnapshot w) observed⟩)

end Schedule

/-! ### The test -/

section Test

variable (server : Server σ)

/-- `parse` and `unwrap` on the number in a bulk reply. -/
def bulkNumber (reply : Resp) : Option ℤ := do parseI64 (fromUtf8Lossy (← reply.asBulk))

/-- The milliseconds in a reply to TIME, or `none` where the source panics. -/
def replyMs : Resp → Option Ms
  | .array [seconds, micros] => do
    let seconds ← bulkNumber seconds
    let micros ← bulkNumber micros
    return wrapI64 (wrapI64 (seconds * 1000) + micros.tdiv 1000)
  | _ => some 0

/-- `server_mstime`, or `none` where it panics. -/
def serverMstime (conn : Conn σ) : Option (Ms × Conn σ) := do
  let (reply, conn) ← (clientCmdS server conn ["TIME"]).toOption
  return (← replyMs reply, conn)

/-- `checked` and `divergences` of the test. -/
structure Progress where
  checked : ℕ
  divergences : List Divergence

/-- One round of the loop. At most five divergences are kept. -/
def Progress.add (progress : Progress) : Option Divergence → Progress
  | none => { progress with checked := progress.checked + 1 }
  | some divergence =>
    if progress.divergences.length < 5 then
      { progress with divergences := progress.divergences ++ [divergence] }
    else progress

/-- The schedule of a seed: `draw_schedule` after `begin`. -/
def scheduleOf (seed : UInt64) (base : Ms) (len : ℕ) : List (DiffStep keyCount clientCount) :=
  (drawSchedule base len).value (nondetStream seed)

/-- The loop over the seeds, or `none` where it panics. -/
def runSeeds (len : ℕ) : List UInt64 → Progress → Conn σ → Option (Progress × Conn σ)
  | [], progress, conn => some (progress, conn)
  | seed :: rest, progress, conn => do
    let (base, conn) ← serverMstime server conn
    let (conn, outcome) ←
      (runSchedule server seed base (scheduleOf seed base len) conn).toOption
    runSeeds len rest (progress.add outcome) conn

/-- `model_matches_real_redis` on a server that has been started: the progress at the end, or `none`
where the test panics before it compares. The test passes when no divergence has been kept. -/
def modelMatchesRealRedis (schedules : UInt64) (len : ℕ) (conn : Conn σ) : Option Progress := do
  let (reply, conn) ← (clientCmdS server conn ["DEBUG", "SET-ACTIVE-EXPIRE", "0"]).toOption
  match reply with
  | .simple "OK" =>
    let (progress, _) ← runSeeds server len (seeds schedules) ⟨0, []⟩ conn
    return progress
  | _ => none

/-- The outcome of the last assertion of the test. -/
def Progress.passes (progress : Progress) : Bool := progress.divergences.isEmpty

end Test

/-! ### The schedule of a seed -/

section Schedules

theorem count_scheduleOf_le (seed : UInt64) (base : Ms) (len : ℕ) :
    (scheduleOf seed base len).count .tick ≤ len :=
  List.count_le_length.trans (draws_drawSchedule base len _).1.1.le

theorem drawn_of_mem_scheduleOf (seed : UInt64) (base : Ms) (len : ℕ) :
    ∀ command, .cmd command ∈ scheduleOf seed base len → Drawn base command :=
  (draws_drawSchedule base len _).1.2

end Schedules

end RedisCvlr.Driver
