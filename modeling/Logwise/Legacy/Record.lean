import Mathlib.Data.List.Basic

/-!
# Log records

The text records of `logwise_runtime`: `LogRecord` (`log_record.rs`) with its private and its
redacted parts, the prelude a context writes (`context_impl.rs`) and the `*_pre` functions
(`dispatch.rs`). A reading of the clock is a parameter, in nanoseconds, and `initial` is the instant
`INITIAL_TIMESTAMP` was given.
-/

namespace Logwise.Legacy

inductive Level where
  | trace | debugInternal | info | analytics | perfWarn | warning | error | panic | mandatory
  | profile
  deriving DecidableEq, Repr

inductive LogPrivacy where
  | privateParts | redacted
  deriving DecidableEq, Repr

/-- The digits of a fraction, without trailing zeros. -/
def fractionDigits : ℕ → ℕ → ℕ → List Char
  | 0, _, _ => []
  | n + 1, fraction, divisor =>
    if fraction = 0 then []
    else Nat.digitChar (fraction / divisor) :: fractionDigits n (fraction % divisor) (divisor / 10)

def decimal (nanos unit digits : ℕ) : String :=
  let fraction := fractionDigits digits (nanos % unit) (unit / 10)
  toString (nanos / unit) ++ (if fraction = [] then "" else "." ++ String.ofList fraction)

/-- `Duration`'s `Debug`. -/
def debugDuration (nanos : ℕ) : String :=
  if 1000000000 ≤ nanos then decimal nanos 1000000000 9 ++ "s"
  else if 1000000 ≤ nanos then decimal nanos 1000000 6 ++ "ms"
  else if 1000 ≤ nanos then decimal nanos 1000 3 ++ "µs"
  else toString nanos ++ "ns"

structure LogRecord where
  parts : List String
  redactedParts : List String
  level : Level
  deriving DecidableEq, Repr

namespace LogRecord

def new (level : Level) : LogRecord := { parts := [], redactedParts := [], level := level }

def log (record : LogRecord) (message : String) : LogRecord :=
  { record with
    parts := record.parts ++ [message], redactedParts := record.redactedParts ++ [message] }

def logOwned (record : LogRecord) (message : String) : LogRecord :=
  { record with
    redactedParts := record.redactedParts ++ [message], parts := record.parts ++ [message] }

def logTimestamp (record : LogRecord) (time initial : ℕ) : LogRecord :=
  record.logOwned ("[" ++ debugDuration (time - initial) ++ "] ")

def logTimeSince (record : LogRecord) (start initial : ℕ) : LogRecord :=
  record.logOwned ("[" ++ debugDuration (start - initial) ++ "] ")

def appendVariants (record : LogRecord) (privateParts redactedParts : List String) : LogRecord :=
  { record with
    parts := record.parts ++ privateParts
    redactedParts := record.redactedParts ++ redactedParts }

/-- `Vec::insert` panics past the end of the vector. -/
def insertSharedPart (record : LogRecord) (index : ℕ) (part : String) : Option LogRecord :=
  if index ≤ record.parts.length ∧ index ≤ record.redactedParts.length then
    some { record with
      parts := record.parts.insertIdx index part
      redactedParts := record.redactedParts.insertIdx index part }
  else none

theorem foldl_log (messages : List String) (record : LogRecord) :
    messages.foldl log record = record.appendVariants messages messages := by
  induction messages generalizing record with
  | nil => simp [appendVariants]
  | cons message messages ih => simp [ih, log, appendVariants]

def cloneForLogger (record : LogRecord) : LogPrivacy → LogRecord
  | .privateParts => record
  | .redacted => { record with parts := record.redactedParts }

end LogRecord

/-- A context, with the contexts it was derived from. A root defines a task. -/
inductive Context where
  | root (contextId : ℕ) (isTracing : Bool) (taskId : ℕ)
  | child (parent : Context) (contextId : ℕ) (isTracing : Bool) (defineTask : Option ℕ)
  deriving DecidableEq, Repr

namespace Context

def isTracing : Context → Bool
  | .root _ isTracing _ => isTracing
  | .child _ _ isTracing _ => isTracing

def nestingLevel : Context → ℕ
  | .root _ _ _ => 0
  | .child parent _ _ _ => parent.nestingLevel + 1

def taskId : Context → ℕ
  | .root _ _ taskId => taskId
  | .child parent _ _ defineTask => defineTask.getD parent.taskId

def logPrelude (context : Context) (record : LogRecord) : LogRecord :=
  let record := record.log (if context.isTracing then "T" else " ")
  let record := (List.replicate context.nestingLevel " ").foldl LogRecord.log record
  record.logOwned (toString context.taskId ++ " ")

/-- The parts of a prelude. -/
def prelude (context : Context) : List String :=
  (if context.isTracing then "T" else " ") ::
    (List.replicate context.nestingLevel " " ++ [toString context.taskId ++ " "])

theorem logPrelude_eq (context : Context) (record : LogRecord) :
    context.logPrelude record = record.appendVariants context.prelude context.prelude := by
  simp [logPrelude, LogRecord.foldl_log, prelude, LogRecord.log, LogRecord.logOwned,
    LogRecord.appendVariants]

end Context

/-- A source location. -/
structure CallSite where
  file : String
  line : ℕ
  column : ℕ
  deriving DecidableEq, Repr

def CallSite.lineColumn (site : CallSite) : String :=
  ":" ++ toString site.line ++ ":" ++ toString site.column ++ " "

/-- The common part of the `*_pre` functions: the current context's prelude, a tag, the location. -/
def openRecord (level : Level) (tag : String) (context : Context) (site : CallSite) : LogRecord :=
  let record := context.logPrelude (LogRecord.new level)
  let record := record.log tag
  let record := record.log site.file
  record.logOwned site.lineColumn

section

variable (context : Context) (site : CallSite) (now initial : ℕ)

def debuginternalPre : LogRecord :=
  (openRecord .debugInternal "DEBUG: " context site).logTimestamp now initial

def infoSyncPre : LogRecord :=
  (openRecord .info "INFO: " context site).logTimestamp now initial

def warnSyncPre : LogRecord :=
  (openRecord .warning "WARN: " context site).logTimestamp now initial

def traceSyncPre : LogRecord :=
  (openRecord .trace "TRACE: " context site).logTimestamp now initial

def errorSyncPre : LogRecord :=
  (openRecord .error "ERROR: " context site).logTimestamp now initial

def mandatorySyncPre : LogRecord :=
  (openRecord .mandatory "MANDATORY: " context site).logTimestamp now initial

def profileSyncPre : LogRecord :=
  (openRecord .profile "PROFILE: " context site).logTimestamp now initial

/-- `now` was read before the prelude was written. -/
def perfwarnBeginPre : LogRecord :=
  (openRecord .perfWarn "PERFWARN: BEGIN " context site).logTimeSince now initial

/-- The timestamp is left to the interval's end. -/
def perfwarnBeginIfPre : LogRecord := openRecord .perfWarn "PERFWARN: " context site

/-- The identifier comes from `next_profile_id`. -/
def profileBeginPre (id : ℕ) : ℕ × LogRecord :=
  (id, (openRecord .profile ("PROFILE: BEGIN [id=" ++ toString id ++ "] ") context site).logTimeSince
    now initial)

end

end Logwise.Legacy
