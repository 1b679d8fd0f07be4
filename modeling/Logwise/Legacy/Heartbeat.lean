import Logwise.Legacy.Record
import Mathlib.Data.List.Basic

/-!
# Heartbeats

`heartbeat.rs`: guards that send `Register` and `Complete` over one channel to the watcher, and the
watcher's loop. Any number of guards are created, dropped and reported on in any order. A step that
reads the clock carries its reading, which is not before any earlier one; a record has a reading of
its own for its timestamp.
-/

namespace Logwise.Legacy

structure Heartbeat where
  id : ℕ
  name : String
  createdAt : ℕ
  deadline : ℕ
  callsite : CallSite
  warned : Bool
  context : Context
  deriving DecidableEq

inductive Message where
  | register (heartbeat : Heartbeat)
  | complete (id : ℕ)
  deriving DecidableEq

/-- How far a guard has come. -/
inductive GuardPhase where
  | registering
  | live
  | completing (droppedAt : ℕ)
  | dropped (droppedAt : ℕ)
  deriving DecidableEq

/-- The time `drop` read. -/
def GuardPhase.droppedAt : GuardPhase → Option ℕ
  | .registering | .live => none
  | .completing droppedAt | .dropped droppedAt => some droppedAt

structure HeartbeatGuard where
  id : ℕ
  name : String
  createdAt : ℕ
  deadline : ℕ
  callsite : CallSite
  context : Context
  phase : GuardPhase
  deriving DecidableEq

/-- What a guard registers. -/
def HeartbeatGuard.heartbeat (guard : HeartbeatGuard) : Heartbeat :=
  { id := guard.id, name := guard.name, createdAt := guard.createdAt, deadline := guard.deadline
    callsite := guard.callsite, warned := false, context := guard.context }

/-- Where the watcher is in its loop. -/
inductive Watcher where
  | absent
  /-- The thread could not be spawned. -/
  | gone
  | receiving
  /-- A `Complete` has taken the heartbeat out of the map. -/
  | completing (heartbeat : Heartbeat)
  | checking
  /-- The clock has been read, and these heartbeats are still to be compared with it. -/
  | sweeping (now : ℕ) (left : List ℕ)
  deriving DecidableEq

/-- A record handed to the loggers, and the heartbeat it is about. -/
structure Report where
  id : ℕ
  record : LogRecord

/-- `log_heartbeat`. -/
def logHeartbeat (context : Context) (callsite : CallSite) (stamp origin : ℕ)
    (write : List String) : LogRecord :=
  let record := context.logPrelude (LogRecord.new .perfWarn)
  let record := record.log "PERFWARN: HEARTBEAT "
  let record := record.log callsite.file
  let record := record.logOwned callsite.lineColumn
  let record := record.logTimestamp stamp origin
  write.foldl LogRecord.logOwned record

def HeartbeatGuard.lateDrop (guard : HeartbeatGuard) (now : ℕ) : List String :=
  ["heartbeat \"" ++ guard.name ++ "\" dropped after deadline by " ++
      debugDuration (now - guard.deadline) ++ " ",
    "(created at " ++ guard.callsite.file ++ ":" ++ toString guard.callsite.line ++ ":" ++
      toString guard.callsite.column ++ ", " ++ debugDuration (now - guard.createdAt) ++ " ago) "]

def Heartbeat.missedDeadline (heartbeat : Heartbeat) (now : ℕ) : List String :=
  ["heartbeat \"" ++ heartbeat.name ++ "\" missed deadline by " ++
      debugDuration (now - heartbeat.deadline) ++ " ",
    "(created " ++ debugDuration (now - heartbeat.createdAt) ++ " ago) "]

namespace Heartbeats

structure State where
  /-- The latest reading of the clock. -/
  clock : ℕ
  nextId : ℕ
  guards : List HeartbeatGuard
  channel : List Message
  heartbeats : List Heartbeat
  watcher : Watcher
  /-- Newest first. -/
  reports : List Report

def initial : State :=
  { clock := 0, nextId := 1, guards := [], channel := [], heartbeats := [], watcher := .absent
    reports := [] }

inductive Action where
  | create (name : String) (duration : ℕ) (callsite : CallSite) (context : Context)
      (enabled : Bool) (now : ℕ)
  | register (g : ℕ) (spawned : Bool)
  | drop (g : ℕ) (dropSite : CallSite) (now stamp : ℕ)
  | complete (g : ℕ)
  | receive
  | timeout (now : ℕ)
  | judge (now stamp : ℕ)
  | readClock (now : ℕ)
  | visit (id stamp : ℕ)
  | sweepEnd

/-- `heartbeats.get(&id)`. -/
def lookup (heartbeats : List Heartbeat) (id : ℕ) : Option Heartbeat :=
  heartbeats.find? fun heartbeat => heartbeat.id = id

def remove (heartbeats : List Heartbeat) (id : ℕ) : List Heartbeat :=
  heartbeats.filter fun heartbeat => heartbeat.id ≠ id

def insert (heartbeats : List Heartbeat) (heartbeat : Heartbeat) : List Heartbeat :=
  heartbeat :: remove heartbeats heartbeat.id

/-- `heartbeat.warned = true`. -/
def markWarned (heartbeats : List Heartbeat) (id : ℕ) : List Heartbeat :=
  heartbeats.map fun heartbeat =>
    if heartbeat.id = id then { heartbeat with warned := true } else heartbeat

/-- The deadline the watcher waits for. -/
def nextDeadline (heartbeats : List Heartbeat) : Option ℕ :=
  ((heartbeats.filter fun heartbeat => !heartbeat.warned).map Heartbeat.deadline).min?

/-- `sender.send_sync`, whose error is ignored. -/
def send (watcher : Watcher) (channel : List Message) (message : Message) : List Message :=
  if watcher = .gone then channel else channel ++ [message]

/-- `channel()` spawns the watcher at its first call. -/
def spawnWatcher (watcher : Watcher) (spawned : Bool) : Watcher :=
  if watcher = .absent then if spawned then .receiving else .gone else watcher

def setPhase (g : ℕ) (guard : HeartbeatGuard) (phase : GuardPhase) (s : State) : State :=
  { s with guards := s.guards.set g { guard with phase := phase } }

/-- `HeartbeatGuard::drop`, up to the `Complete` message. -/
def dropGuard (origin g : ℕ) (guard : HeartbeatGuard) (dropSite : CallSite) (now stamp : ℕ)
    (s : State) : State :=
  let s := setPhase g guard (.completing now) s
  if guard.deadline < now then
    { s with
      clock := stamp
      reports :=
        { id := guard.id
          record := logHeartbeat guard.context dropSite stamp origin (guard.lateDrop now) } ::
          s.reports }
  else { s with clock := now }

def receive (s : State) : Message → State
  | .register heartbeat =>
    { s with watcher := .checking, heartbeats := insert s.heartbeats heartbeat }
  | .complete id =>
    match lookup s.heartbeats id with
    | some heartbeat =>
      { s with watcher := .completing heartbeat, heartbeats := remove s.heartbeats id }
    | none => { s with watcher := .checking }

/-- The record of a heartbeat the watcher finds late. -/
def missed (origin : ℕ) (heartbeat : Heartbeat) (now stamp : ℕ) : Report :=
  { id := heartbeat.id
    record := logHeartbeat heartbeat.context heartbeat.callsite stamp origin
      (heartbeat.missedDeadline now) }

def judge (origin : ℕ) (heartbeat : Heartbeat) (now stamp : ℕ) (s : State) : State :=
  if heartbeat.warned = false ∧ heartbeat.deadline ≤ now then
    { s with
      watcher := .checking, clock := stamp
      reports := missed origin heartbeat now stamp :: s.reports }
  else { s with watcher := .checking, clock := now }

def visit (origin : ℕ) (heartbeat : Heartbeat) (now stamp : ℕ) (s : State) : State :=
  if heartbeat.warned = false ∧ heartbeat.deadline ≤ now then
    { s with
      clock := stamp
      reports := missed origin heartbeat now stamp :: s.reports
      heartbeats := markWarned s.heartbeats heartbeat.id }
  else s

/-- `last` is the latest `Instant` there is. -/
def step (origin last : ℕ) (s : State) : Action → Option State
  | .create name duration callsite context enabled now =>
    if s.clock ≤ now then
      if enabled then
        if now + duration ≤ last then
          some { s with
            clock := now, nextId := s.nextId + 1
            guards := s.guards ++
              [{ id := s.nextId, name := name, createdAt := now, deadline := now + duration
                 callsite := callsite, context := context, phase := .registering }] }
        -- the addition panics, and the id is used up
        else some { s with clock := now, nextId := s.nextId + 1 }
      -- an inert guard has no sender, and its destructor returns at once
      else some { s with clock := now }
    else none
  | .register g spawned =>
    s.guards[g]?.bind fun guard =>
      if guard.phase = .registering then
        let watcher := spawnWatcher s.watcher spawned
        some { setPhase g guard .live s with
          watcher := watcher, channel := send watcher s.channel (.register guard.heartbeat) }
      else none
  | .drop g dropSite now stamp =>
    s.guards[g]?.bind fun guard =>
      if guard.phase = .live ∧ s.clock ≤ now ∧ now ≤ stamp then
        some (dropGuard origin g guard dropSite now stamp s)
      else none
  | .complete g =>
    s.guards[g]?.bind fun guard =>
      match guard.phase with
      | .completing droppedAt =>
        some { setPhase g guard (.dropped droppedAt) s with
          channel := send s.watcher s.channel (.complete guard.id) }
      | _ => none
  | .receive =>
    match s.watcher, s.channel with
    | .receiving, message :: channel => some (receive { s with channel := channel } message)
    | _, _ => none
  | .timeout now =>
    if s.watcher = .receiving ∧ s.clock ≤ now ∧ ∃ deadline ∈ nextDeadline s.heartbeats, deadline ≤ now
    then some { s with watcher := .checking, clock := now }
    else none
  | .judge now stamp =>
    match s.watcher with
    | .completing heartbeat =>
      if s.clock ≤ now ∧ now ≤ stamp then some (judge origin heartbeat now stamp s) else none
    | _ => none
  | .readClock now =>
    if s.watcher = .checking ∧ s.clock ≤ now then
      some { s with
        watcher := .sweeping now (s.heartbeats.map Heartbeat.id), clock := now }
    else none
  | .visit id stamp =>
    match s.watcher with
    | .sweeping now left =>
      if id ∈ left ∧ s.clock ≤ stamp then
        (lookup s.heartbeats id).map fun heartbeat =>
          visit origin heartbeat now stamp { s with watcher := .sweeping now (left.erase id) }
      else none
    | _ => none
  | .sweepEnd =>
    match s.watcher with
    | .sweeping _ [] => some { s with watcher := .receiving }
    | _ => none

end Heartbeats

end Logwise.Legacy
