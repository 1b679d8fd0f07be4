import Logwise.Legacy.ContextImpl
import Logwise.Proc.Meaning

/-!
# The message macros

`trace_sync!` and its siblings (`logwise_runtime_proc/src/trace.rs`, `info.rs`, ..): the block a call
expands to, what the compiler leaves of it, and what it does when it runs: `log_enabled!`
(`macros.rs`) is asked, a `*_pre` function opens the record, the statements of `lformat_impl` fill
it, a `*_post` function hands it to the loggers (`dispatch.rs`).
-/

namespace Logwise.Proc

open Legacy (Context CallSite Level LogPrivacy LogRecord Loggable Pre Write)
open Legacy.ContextImpl (Build)

/-- The levels that have macros for a single message. -/
inductive Kind where
  | trace | debuginternal | info | warn | error | mandatory | profile
  deriving DecidableEq

namespace Kind

/-- `#[cfg(debug_assertions)]` stands before the block. -/
def debugOnly : Kind → Bool
  | .trace | .debuginternal | .info => true
  | .warn | .error | .mandatory | .profile => false

def level : Kind → Level
  | .trace => .trace
  | .debuginternal => .debugInternal
  | .info => .info
  | .warn => .warning
  | .error => .error
  | .mandatory => .mandatory
  | .profile => .profile

/-- Both macros of a level use its `*_sync_pre`. -/
def pre : Kind → Pre
  | .trace => .traceSync
  | .debuginternal => .debuginternal
  | .info => .infoSync
  | .warn => .warnSync
  | .error => .errorSync
  | .mandatory => .mandatorySync
  | .profile => .profileSync

end Kind

/-- `trace_sync!`, `trace_async!` and so on; there is no `warn_async!`. -/
structure MessageMacro where
  kind : Kind
  isAsync : Bool
  defined : kind = .warn → isAsync = false

/-- The block of a call, with what `lformat_impl` made of its input, printed into it. -/
structure Expansion where
  debugOnly : Bool
  level : Level
  pre : Pre
  lformat : Except String (List Statement)
  isAsync : Bool

def MessageMacro.expand (call : MessageMacro) (display : Delimiter → TokenStream → String)
    (input : TokenStream) : Expansion :=
  { debugOnly := call.kind.debugOnly
    level := call.kind.level
    pre := call.kind.pre
    lformat := (lformatImpl display input).output.map fun statements =>
      statements.map Statement.reparsed
    isAsync := call.isAsync }

/-- What is compiled. -/
inductive Compiled where
  | nothing
  | block (level : Level) (pre : Pre) (statements : List Statement) (isAsync : Bool)

/-- A block that is configured out goes with the `compile_error!` that may be in it. -/
def Expansion.compile (expansion : Expansion) (build : Build) : Except String Compiled :=
  if expansion.debugOnly && !build.debugAssertions then .ok .nothing
  else
    expansion.lformat.map fun statements =>
      .block expansion.level expansion.pre statements expansion.isAsync

/-! ## Running a block -/

/-- The state of the process, and what the loggers have been handed. -/
structure World (υ Logger : Type) where
  user : υ
  handed : List (Logger × LogRecord)

/-- What the expansion uses. `now` reads the clock, next to the instant `INITIAL_TIMESTAMP` was
given; `finishLogRecordAsync` is the whole of the future. -/
structure Process (υ Logger : Type) where
  build : Build
  currentlyTracing : World υ Logger → Bool
  current : World υ Logger → Context × World υ Logger
  now : World υ Logger → (ℕ × ℕ) × World υ Logger
  globalLoggers : World υ Logger → List Logger
  privacy : Logger → LogPrivacy
  finishLogRecord : Logger → LogRecord → World υ Logger → World υ Logger
  finishLogRecordAsync : Logger → LogRecord → World υ Logger → World υ Logger

namespace Process

variable {υ Logger : Type} (process : Process υ Logger)

/-- `log_enabled!`. -/
def logEnabled (w : World υ Logger) : Level → Bool
  | .trace => if process.build.debugAssertions then process.currentlyTracing w else false
  | .debugInternal =>
    if process.build.debugAssertions then process.build.internal || process.currentlyTracing w
    else false
  | .info => process.build.debugAssertions
  | _ => true

def opened (pre : Pre) (site : CallSite) (w : World υ Logger) : LogRecord × World υ Logger :=
  let context := process.current w
  let time := process.now context.2
  (pre.record context.1 site time.1.1 time.1.2, time.2)

def finish (isAsync : Bool) : Logger → LogRecord → World υ Logger → World υ Logger :=
  if isAsync then process.finishLogRecordAsync else process.finishLogRecord

/-- One round of the loop over the loggers. -/
def hand (isAsync : Bool) (record : LogRecord) (w : World υ Logger) (logger : Logger) :
    World υ Logger :=
  let given := record.cloneForLogger (process.privacy logger)
  process.finish isAsync logger given { w with handed := w.handed ++ [(logger, given)] }

def post (isAsync : Bool) (record : LogRecord) (w : World υ Logger) : World υ Logger :=
  (process.globalLoggers w).foldl (process.hand isAsync record) w

/-- The statements, in the world in which the record has been opened. -/
def filled (evaluate : TokenStream → World υ Logger → Loggable × World υ Logger)
    (statements : List Statement) (opened : LogRecord × World υ Logger) :
    Option (Frame (World υ Logger)) :=
  execAll evaluate statements
    { world := opened.2, calls := [], bound := fun _ => none }

def run (evaluate : TokenStream → World υ Logger → Loggable × World υ Logger) (site : CallSite) :
    Compiled → World υ Logger → Option (World υ Logger)
  | .nothing, w => some w
  | .block level pre statements isAsync, w =>
    if process.logEnabled w level then
      (filled evaluate statements (process.opened pre site w)).map fun frame =>
        process.post isAsync
          (frame.calls.foldl Write.apply (process.opened pre site w).1) frame.world
    else some w

end Process

/-! ## What a call means -/

/-- The statements of an accepted call are in the block as they are. -/
theorem lformat_expand {display : Delimiter → TokenStream → String} {input : TokenStream}
    {statements : List Statement} (call : MessageMacro) :
    (call.expand display input).lformat = .ok statements ↔
      (lformatImpl display input).output = .ok statements := by
  have hsame : ∀ found, (lformatImpl display input).output = .ok found →
      found.map Statement.reparsed = found := by
    intro found houtput
    cases input with
    | nil => cases houtput
    | cons token args =>
      cases token with
      | literal text =>
        rw [lformatImpl] at houtput
        split at houtput
        · obtain ⟨kvs, segments, source, usedKeys, -, -, hemit, rfl⟩ := lformatBody_ok houtput
          rw [List.map_append, emitFrom_reparsed hemit, trailing_reparsed]
        · cases houtput
      | _ => cases houtput
  rw [MessageMacro.expand]
  cases houtput : (lformatImpl display input).output with
  | error message => simp [Except.map]
  | ok found => simp [Except.map, hsame found houtput]

section

variable {display : Delimiter → TokenStream → String} {literal : FormatLiteral} {args : TokenStream}

/-- What is compiled of a call. -/
theorem compile_expand_ok_iff {call : MessageMacro} {build : Build} {input : TokenStream} :
    (∃ code, (call.expand display input).compile build = .ok code) ↔
      (call.kind.debugOnly = true ∧ build.debugAssertions = false) ∨
        ∃ statements, (lformatImpl display input).output = .ok statements := by
  by_cases hout : call.kind.debugOnly = true ∧ build.debugAssertions = false
  · refine iff_of_true ⟨.nothing, ?_⟩ (Or.inl hout)
    simp [Expansion.compile, MessageMacro.expand, hout]
  · have hkept : (call.kind.debugOnly && !build.debugAssertions) = false := by
      simpa using hout
    rw [or_iff_right hout, Expansion.compile]
    have hfield : (call.expand display input).debugOnly = call.kind.debugOnly := rfl
    rw [hfield, if_neg (by simpa using hkept)]
    constructor
    · rintro ⟨code, hcode⟩
      obtain ⟨statements, hstatements, -⟩ := map_eq_ok hcode
      exact ⟨statements, (lformat_expand call).mp hstatements⟩
    · rintro ⟨statements, hstatements⟩
      rw [(lformat_expand call).mpr hstatements]
      exact ⟨_, rfl⟩

/-- What can be read, as the compiler reads it: no raw literal can. -/
theorem exists_output_token_iff {literal : StringToken} :
    (∃ statements, (lformatImpl display (literal.token :: args)).output = .ok statements) ↔
      ∃ ordinary pairs segments, literal = .ordinary ordinary ∧
        Reads display ordinary args pairs segments := by
  cases literal with
  | ordinary ordinary =>
    rw [StringToken.token, exists_output_iff]
    simp
  | raw raw =>
    rw [StringToken.token, raw.lformatImpl_token]
    simp [mustBeLiteral, failed]

end

theorem compile_error_iff {expansion : Expansion} {build : Build} :
    (∃ message, expansion.compile build = .error message) ↔
      ¬ ∃ code, expansion.compile build = .ok code := by
  cases expansion.compile build with
  | error message => simp
  | ok code => simp

section

variable {υ Logger : Type} {process : Process υ Logger} {w : World υ Logger}

/-- A level whose macros are configured out is not enabled there either. -/
theorem Process.logEnabled_debugOnly {kind : Kind} (honly : kind.debugOnly = true)
    (hbuild : process.build.debugAssertions = false) : process.logEnabled w kind.level = false := by
  cases kind with
  | trace => simp [Kind.level, Process.logEnabled, hbuild]
  | debuginternal => simp [Kind.level, Process.logEnabled, hbuild]
  | info => exact hbuild
  | warn | error | mandatory | profile => cases honly

/-- A call that was compiled: either it is gone, and would not have been enabled, or it is there. -/
theorem compile_expand_cases {display : Delimiter → TokenStream → String} {call : MessageMacro}
    {input : TokenStream} {code : Compiled}
    (h : (call.expand display input).compile process.build = .ok code) :
    (code = .nothing ∧ process.logEnabled w call.kind.level = false) ∨
      ∃ statements, (lformatImpl display input).output = .ok statements ∧
        code = .block call.kind.level call.kind.pre statements call.isAsync := by
  rw [Expansion.compile] at h
  split at h
  next hout =>
    obtain ⟨honly, hbuild⟩ := (Bool.and_eq_true _ _).mp hout
    cases h
    exact Or.inl ⟨rfl, Process.logEnabled_debugOnly honly (by simpa using hbuild)⟩
  next hkept =>
    obtain ⟨statements, houtput, rfl⟩ := map_eq_ok h
    exact Or.inr ⟨statements, (lformat_expand call).mp houtput, rfl⟩

end

section

/-- `"{name}"`. -/
def nameLiteral : FormatLiteral where
  body := ['{', 'n', 'a', 'm', 'e', '}']
  valid := ⟨['{', 'n', 'a', 'm', 'e', '}'], by decide⟩

/-- `, name = who`. -/
def nameArgs : TokenStream := oneArgument "name" [.ident "who"]

theorem reads_name (display : Delimiter → TokenStream → String) :
    Reads display nameLiteral nameArgs [("name", [.ident "who"])] [.placeholder "name"] where
  arguments := isArguments_one display "name" ⟨rfl, trivial⟩
  nodup := by decide
  format := ⟨[.placeholder ['n', 'a', 'm', 'e']], by decide, ⟨⟨by decide, by decide⟩, trivial⟩, by decide⟩
  known := by simp

/-- A debug build with a local and a remote logger, and a name in its state. -/
def plainProcess : Process String Bool where
  build := { debugAssertions := true, internal := false }
  currentlyTracing := fun _ => false
  current := fun w => (Legacy.rootContext, w)
  now := fun w => ((0, 0), w)
  globalLoggers := fun _ => [false, true]
  privacy := fun remote => if remote then .redacted else .privateParts
  finishLogRecord := fun _ _ w => w
  finishLogRecordAsync := fun _ _ w => w

def nameValue (_ : TokenStream) (w : World String Bool) : Loggable × World String Bool :=
  (.string w.user, w)

def infoSync : MessageMacro := { kind := .info, isAsync := false, defined := fun _ => rfl }

end

end Logwise.Proc
