import Logwise.Legacy.Record

/-!
# What a redacted logger is given

Every value is written twice (`macros.rs`): its `log_all` goes to a record's private parts, its
`log_redacting_private_info` to the redacted ones. The two lists grow apart, and the destructor of
`PerfwarnIntervalIf` (`interval.rs`) inserts its timestamp into both at an index it finds by a
search of the private one.
-/

namespace Logwise.Legacy

/-- An implementation of `Loggable`, at one value. -/
structure Loggable where
  logRedactingPrivateInfo : LogRecord → LogRecord
  logAll : LogRecord → LogRecord

namespace Loggable

/-- A value that is not considered private. -/
def shown (text : String) : Loggable :=
  { logRedactingPrivateInfo := fun record => record.logOwned text
    logAll := fun record => record.logOwned text }

/-- A value of which a remote logger sees the type only. -/
def masked (mark text : String) : Loggable :=
  { logRedactingPrivateInfo := fun record => record.log mark
    logAll := fun record => record.logOwned text }

def u8 (n : UInt8) : Loggable := shown (toString n.toNat)
def u16 (n : UInt16) : Loggable := masked "<u16>" (toString n.toNat)
def u32 (n : UInt32) : Loggable := masked "<u32>" (toString n.toNat)
def u64 (n : UInt64) : Loggable := masked "<u64>" (toString n.toNat)
def usize (n : ℕ) : Loggable := masked "<usize>" (toString n)
def u128 (n : BitVec 128) : Loggable := masked "<u128>" (toString n.toNat)
def i8 (n : Int8) : Loggable := shown (toString n.toInt)
def i16 (n : Int16) : Loggable := masked "<i16>" (toString n.toInt)
def i32 (n : Int32) : Loggable := masked "<i32>" (toString n.toInt)
def i64 (n : Int64) : Loggable := masked "<i64>" (toString n.toInt)
def i128 (n : BitVec 128) : Loggable := masked "<i128>" (toString n.toInt)

/-- `text` is what the number's `Display` writes. -/
def f32 (text : String) : Loggable := masked "<f32>" text
def f64 (text : String) : Loggable := masked "<f64>" text
def bool (b : Bool) : Loggable := shown (toString b)
def char (c : Char) : Loggable := shown c.toString
def string (s : String) : Loggable := masked "<String>" s
def str (s : String) : Loggable := masked "<&str>" s

/-- `debug` is what the wrapped value's `Debug` writes. -/
def logIt (debug : String) : Loggable := masked "<LogIt>" debug
def iPromiseItsNotPrivate (debug : String) : Loggable := shown debug

/-- The items of a slice, each followed by a separator. -/
def logItems (logItem : Loggable → LogRecord → LogRecord) (items : List Loggable)
    (record : LogRecord) : LogRecord :=
  (items.foldl (fun record item => (logItem item record).log ", ") (record.log "<[")).log "]>"

def slice (items : List Loggable) : Loggable :=
  { logRedactingPrivateInfo := logItems logRedactingPrivateInfo items
    logAll := logItems logAll items }

def logOption (logItem : Loggable → LogRecord → LogRecord) (item : Option Loggable)
    (record : LogRecord) : LogRecord :=
  match item with
  | some t => (logItem t (record.log "Some(")).log ")"
  | none => record.log "None"

def option (item : Option Loggable) : Loggable :=
  { logRedactingPrivateInfo := logOption logRedactingPrivateInfo item
    logAll := logOption logAll item }

/-- The two values differ in what `log_all` writes, if at all. -/
def Agrees (v w : Loggable) : Prop := v.logRedactingPrivateInfo = w.logRedactingPrivateInfo

theorem agrees_masked (mark text text' : String) : (masked mark text).Agrees (masked mark text') :=
  rfl

end Loggable

/-- A call of `PrivateFormatter`. -/
inductive Write where
  | literal (s : String)
  | val (value : Loggable)
  | valRef (value : Loggable)

def writeLiteral (record : LogRecord) (s : String) : LogRecord := record.log s

def writeValRef (record : LogRecord) (s : Loggable) : LogRecord :=
  let unredacted := s.logAll (LogRecord.new record.level)
  let redacted := s.logRedactingPrivateInfo (LogRecord.new record.level)
  record.appendVariants unredacted.parts redacted.parts

def writeVal (record : LogRecord) (s : Loggable) : LogRecord := writeValRef record s

def Write.apply (record : LogRecord) : Write → LogRecord
  | .literal s => writeLiteral record s
  | .val s => writeVal record s
  | .valRef s => writeValRef record s

/-- What a call writes: both calls with a value write it in the same way. -/
def Write.written : Write → String ⊕ Loggable
  | .literal s => .inl s
  | .val s => .inr s
  | .valRef s => .inr s

theorem Write.apply_congr {call call' : Write} (h : call.written = call'.written)
    (record : LogRecord) : Write.apply record call = Write.apply record call' := by
  cases call <;> cases call' <;> cases h <;> rfl

/-- A record depends on what is written, not on the calls. -/
theorem Write.foldl_apply_congr {calls calls' : List Write}
    (h : calls.map Write.written = calls'.map Write.written) (record : LogRecord) :
    calls.foldl Write.apply record = calls'.foldl Write.apply record := by
  induction calls generalizing calls' record with
  | nil =>
    obtain rfl := List.map_eq_nil_iff.mp h.symm
    rfl
  | cons call calls ih =>
    obtain ⟨call', calls', rfl, hcall, hcalls⟩ := List.map_eq_cons_iff.mp h.symm
    rw [List.foldl_cons, List.foldl_cons, Write.apply_congr hcall, ih hcalls.symm]

/-- The two calls differ in what `log_all` writes, if at all. -/
inductive Write.Agrees : Write → Write → Prop where
  | literal (s : String) : Write.Agrees (.literal s) (.literal s)
  | val {v w : Loggable} (h : v.Agrees w) : Write.Agrees (.val v) (.val w)
  | valRef {v w : Loggable} (h : v.Agrees w) : Write.Agrees (.valRef v) (.valRef w)

/-- The functions that begin a record. -/
inductive Pre where
  | debuginternal | infoSync | warnSync | traceSync | errorSync | perfwarnBegin | perfwarnBeginIf
  | mandatorySync | profileSync
  | profileBegin (id : ℕ)
  deriving DecidableEq

def Pre.record (pre : Pre) (context : Context) (site : CallSite) (now initial : ℕ) : LogRecord :=
  match pre with
  | .debuginternal => debuginternalPre context site now initial
  | .infoSync => infoSyncPre context site now initial
  | .warnSync => warnSyncPre context site now initial
  | .traceSync => traceSyncPre context site now initial
  | .errorSync => errorSyncPre context site now initial
  | .perfwarnBegin => perfwarnBeginPre context site now initial
  | .perfwarnBeginIf => perfwarnBeginIfPre context site
  | .mandatorySync => mandatorySyncPre context site now initial
  | .profileSync => profileSyncPre context site now initial
  | .profileBegin id => (profileBeginPre context site now initial id).2

structure PerfwarnIntervalIf where
  label : String
  start : ℕ
  threshold : ℕ
  record : LogRecord
  context : Context

/-- Where the timestamp goes: after the marker and the location. -/
def insertionPoint (parts : List String) : Option ℕ :=
  ((parts.findIdx? fun part => part = "PERFWARN: ").map fun i => i + 3).filter fun insertIdx =>
    insertIdx ≤ parts.length

namespace PerfwarnIntervalIf

/-- The record of an interval that was slow; nothing is left of it when an insertion panics. -/
def slowRecord (interval : PerfwarnIntervalIf) (endTime initial : ℕ) : Option LogRecord :=
  let stamped :=
    match insertionPoint interval.record.parts with
    | some insertIdx =>
      let tempRecord := (LogRecord.new .perfWarn).logTimeSince endTime initial
      tempRecord.parts.getLast?.bind fun timestamp =>
        interval.record.insertSharedPart insertIdx timestamp
    | none => some interval.record
  stamped.map fun record =>
    (record.log " is SLOW: ").logOwned
      ("[interval took " ++ debugDuration (endTime - interval.start) ++ "] ")

/-- What the destructor hands to the loggers. -/
def drop (interval : PerfwarnIntervalIf) (endTime initial : ℕ) (loggers : List LogPrivacy) :
    Option (List LogRecord) :=
  if interval.threshold < endTime - interval.start then
    (interval.slowRecord endTime initial).map fun record => loggers.map record.cloneForLogger
  else some []

end PerfwarnIntervalIf

/-- The two records are one to a redacted logger. -/
def LogRecord.SameRedaction (r s : LogRecord) : Prop :=
  r.redactedParts = s.redactedParts ∧ r.level = s.level

namespace LogRecord.SameRedaction

variable {r s : LogRecord}

theorem clone (h : r.SameRedaction s) : r.cloneForLogger .redacted = s.cloneForLogger .redacted := by
  simp only [LogRecord.cloneForLogger, h.1, h.2]

theorem log (h : r.SameRedaction s) (message : String) :
    (r.log message).SameRedaction (s.log message) :=
  ⟨congrArg (· ++ [message]) h.1, h.2⟩

theorem logOwned (h : r.SameRedaction s) (message : String) :
    (r.logOwned message).SameRedaction (s.logOwned message) :=
  ⟨congrArg (· ++ [message]) h.1, h.2⟩

theorem writeValRef (h : r.SameRedaction s) {v w : Loggable} (hagrees : v.Agrees w) :
    (writeValRef r v).SameRedaction (Legacy.writeValRef s w) := by
  refine ⟨?_, h.2⟩
  show r.redactedParts ++ (v.logRedactingPrivateInfo (LogRecord.new r.level)).parts =
    s.redactedParts ++ (w.logRedactingPrivateInfo (LogRecord.new s.level)).parts
  rw [h.1, h.2, hagrees]

theorem apply (h : r.SameRedaction s) {call call' : Write} (hagrees : call.Agrees call') :
    (Write.apply r call).SameRedaction (Write.apply s call') := by
  cases hagrees with
  | literal message => exact h.log message
  | val hv => exact h.writeValRef hv
  | valRef hv => exact h.writeValRef hv

theorem writes {calls calls' : List Write} (hagrees : List.Forall₂ Write.Agrees calls calls')
    (h : r.SameRedaction s) :
    (calls.foldl Write.apply r).SameRedaction (calls'.foldl Write.apply s) := by
  induction hagrees generalizing r s with
  | nil => exact h
  | cons hhead _ ih => exact ih (h.apply hhead)

/-- An insertion that is in range of the private parts of both. -/
theorem insertSharedPart (h : r.SameRedaction s) {index : ℕ} (hr : index ≤ r.parts.length)
    (hs : index ≤ s.parts.length) (part : String) :
    Option.Rel LogRecord.SameRedaction (r.insertSharedPart index part)
      (s.insertSharedPart index part) := by
  simp only [LogRecord.insertSharedPart, hr, hs, true_and, h.1]
  split
  · exact .some ⟨rfl, h.2⟩
  · exact .none

end LogRecord.SameRedaction

theorem le_length_of_insertionPoint {parts : List String} {index : ℕ}
    (h : insertionPoint parts = some index) : index ≤ parts.length :=
  of_decide_eq_true (Option.filter_eq_some_iff.mp h).2

/-- A location that is complete stays the first one. -/
theorem insertionPoint_append {parts : List String} {index : ℕ}
    (h : insertionPoint parts = some index) (more : List String) :
    insertionPoint (parts ++ more) = some index := by
  obtain ⟨hfound, hle⟩ := Option.filter_eq_some_iff.mp h
  obtain ⟨i, hi, rfl⟩ := Option.map_eq_some_iff.mp hfound
  rw [insertionPoint, List.findIdx?_append, hi]
  refine Option.filter_eq_some_iff.mpr ⟨rfl, decide_eq_true ?_⟩
  have hlength := of_decide_eq_true hle
  rw [List.length_append]
  omega

namespace Context

/-- A task's number begins with a digit, the marker does not. -/
theorem toString_taskId_ne_marker (taskId : ℕ) : toString taskId ++ " " ≠ "PERFWARN: " := by
  intro h
  have htext : Nat.toDigits 10 taskId ++ [' '] = "PERFWARN: ".toList := by
    rw [← h, String.toList_append, Nat.toString_eq_repr, Nat.toList_repr]
    rfl
  have hdigit : ∀ c ∈ Nat.toDigits 10 taskId, c.isDigit = true := fun c hc =>
    Nat.isDigit_of_mem_toDigits (by decide) (by decide) hc
  cases hdigits : Nat.toDigits 10 taskId with
  | nil => exact Nat.toDigits_ne_nil hdigits
  | cons c rest =>
    rw [hdigits] at htext hdigit
    have hc : c = 'P' := (List.cons.inj htext).1
    have : 'P'.isDigit = true := hc ▸ hdigit c List.mem_cons_self
    exact absurd this (by decide)

/-- No part of a prelude is taken for the marker. -/
theorem ne_marker_of_mem_prelude {context : Context} {part : String} (h : part ∈ context.prelude) :
    part ≠ "PERFWARN: " := by
  simp only [prelude, List.mem_cons, List.mem_append, List.mem_replicate, List.not_mem_nil,
    or_false] at h
  obtain rfl | ⟨-, rfl⟩ | rfl := h
  · split <;> decide
  · decide
  · exact toString_taskId_ne_marker context.taskId

end Context

/-- What `perfwarn_begin_if_pre` writes, up to the location and with it. -/
def perfwarnOpening (context : Context) (site : CallSite) : List String :=
  context.prelude ++ ["PERFWARN: ", site.file, site.lineColumn]

theorem perfwarnBeginIfPre_eq (context : Context) (site : CallSite) :
    perfwarnBeginIfPre context site =
      { parts := perfwarnOpening context site
        redactedParts := perfwarnOpening context site
        level := .perfWarn } := by
  simp [perfwarnBeginIfPre, openRecord, Context.logPrelude_eq, LogRecord.appendVariants,
    LogRecord.new, LogRecord.log, LogRecord.logOwned, perfwarnOpening]

/-- The search ends at the marker the opening wrote, whatever the file is called. -/
theorem insertionPoint_perfwarnOpening (context : Context) (site : CallSite) :
    insertionPoint (perfwarnOpening context site) = some (perfwarnOpening context site).length := by
  have hnone : context.prelude.findIdx? (fun part => part = "PERFWARN: ") = none := by
    rw [List.findIdx?_eq_none_iff]
    intro part hpart
    exact decide_eq_false (Context.ne_marker_of_mem_prelude hpart)
  rw [insertionPoint, perfwarnOpening, List.findIdx?_append, hnone]
  refine Option.filter_eq_some_iff.mpr ⟨?_, decide_eq_true (Nat.le_refl _)⟩
  simp [List.findIdx?_cons]

namespace PerfwarnIntervalIf

variable {r s : LogRecord} (interval : PerfwarnIntervalIf) (endTime initial : ℕ)

/-- The destructor inserts at the same place, if at all. -/
theorem slowRecord_redacted (h : r.SameRedaction s)
    (hpoint : insertionPoint r.parts = insertionPoint s.parts) :
    Option.Rel LogRecord.SameRedaction ({ interval with record := r }.slowRecord endTime initial)
      ({ interval with record := s }.slowRecord endTime initial) := by
  have hstamped : ∀ {a b : Option LogRecord}, Option.Rel LogRecord.SameRedaction a b →
      Option.Rel LogRecord.SameRedaction
        (a.map fun record => (record.log " is SLOW: ").logOwned
          ("[interval took " ++ debugDuration (endTime - interval.start) ++ "] "))
        (b.map fun record => (record.log " is SLOW: ").logOwned
          ("[interval took " ++ debugDuration (endTime - interval.start) ++ "] ")) := by
    rintro _ _ (hab | _)
    · exact .some ((hab.log _).logOwned _)
    · exact .none
  refine hstamped ?_
  cases hr : insertionPoint r.parts with
  | none =>
    rw [hr] at hpoint
    simp only [← hpoint]
    exact .some h
  | some index =>
    rw [hr] at hpoint
    simp only [← hpoint]
    exact h.insertSharedPart (le_length_of_insertionPoint hr)
      (le_length_of_insertionPoint hpoint.symm) _

/-- What one redacted logger is handed, if anything. -/
theorem drop_redacted (h : r.SameRedaction s)
    (hpoint : insertionPoint r.parts = insertionPoint s.parts) {loggers : List LogPrivacy} {i : ℕ}
    (hi : loggers[i]? = some .redacted) :
    ({ interval with record := r }.drop endTime initial loggers).map (fun handed => handed[i]?) =
      ({ interval with record := s }.drop endTime initial loggers).map fun handed => handed[i]? := by
  simp only [drop]
  split
  · have hslow := slowRecord_redacted interval endTime initial h hpoint
    revert hslow
    generalize slowRecord _ endTime initial = a
    generalize slowRecord _ endTime initial = b
    rintro (hab | _)
    · simp [List.getElem?_map, hi, hab.clone]
    · rfl
  · rfl

end PerfwarnIntervalIf

/-- A record begun and written to. -/
def Pre.written (pre : Pre) (context : Context) (site : CallSite) (now initial : ℕ)
    (calls : List Write) : LogRecord :=
  calls.foldl Write.apply (pre.record context site now initial)

/-- What one call adds to the private parts of a record. -/
def Write.privateParts (level : Level) : Write → List String
  | .literal s => [s]
  | .val s => (s.logAll (LogRecord.new level)).parts
  | .valRef s => (s.logAll (LogRecord.new level)).parts

/-- What it adds to the redacted ones. -/
def Write.redactedParts (level : Level) : Write → List String
  | .literal s => [s]
  | .val s => (s.logRedactingPrivateInfo (LogRecord.new level)).parts
  | .valRef s => (s.logRedactingPrivateInfo (LogRecord.new level)).parts

theorem Write.apply_eq (record : LogRecord) (call : Write) :
    Write.apply record call =
      record.appendVariants (call.privateParts record.level) (call.redactedParts record.level) := by
  cases call <;> rfl

/-- A message is written behind what is there, in either list for itself. -/
theorem writes_eq (calls : List Write) (record : LogRecord) :
    calls.foldl Write.apply record =
      record.appendVariants (calls.flatMap (Write.privateParts record.level))
        (calls.flatMap (Write.redactedParts record.level)) := by
  induction calls generalizing record with
  | nil => simp [LogRecord.appendVariants]
  | cons call calls ih => simp [ih, Write.apply_eq, LogRecord.appendVariants]

theorem written_perfwarnBeginIf (context : Context) (site : CallSite) (now initial : ℕ)
    (calls : List Write) :
    Pre.perfwarnBeginIf.written context site now initial calls =
      { parts := perfwarnOpening context site ++ calls.flatMap (Write.privateParts .perfWarn)
        redactedParts :=
          perfwarnOpening context site ++ calls.flatMap (Write.redactedParts .perfWarn)
        level := .perfWarn } := by
  rw [Pre.written, Pre.record, writes_eq, perfwarnBeginIfPre_eq]
  rfl

theorem insertionPoint_written (context : Context) (site : CallSite) (now initial : ℕ)
    (calls calls' : List Write) :
    insertionPoint (Pre.perfwarnBeginIf.written context site now initial calls).parts =
      insertionPoint (Pre.perfwarnBeginIf.written context site now initial calls').parts := by
  have hpoint := insertionPoint_append (insertionPoint_perfwarnOpening context site)
  rw [written_perfwarnBeginIf, written_perfwarnBeginIf, hpoint, hpoint]

/-- **A redacted logger sees nothing `log_all` writes**: neither in the record as it is written, nor,
where the search for the marker ends at the same place, in the record of a slow interval. For a
record begun by `perfwarn_begin_if_pre` it does. -/
theorem redacted_noninterference (pre : Pre) (context : Context) (site : CallSite) (now initial : ℕ)
    (calls calls' : List Write) (hagrees : List.Forall₂ Write.Agrees calls calls') :
    (pre.written context site now initial calls).cloneForLogger .redacted =
        (pre.written context site now initial calls').cloneForLogger .redacted ∧
      ∀ (interval : PerfwarnIntervalIf) (endTime : ℕ) (loggers : List LogPrivacy) (i : ℕ),
        loggers[i]? = some .redacted →
        (pre = .perfwarnBeginIf ∨
          insertionPoint (pre.written context site now initial calls).parts =
            insertionPoint (pre.written context site now initial calls').parts) →
        ({ interval with record := pre.written context site now initial calls }.drop
            endTime initial loggers).map (fun handed => handed[i]?) =
          ({ interval with record := pre.written context site now initial calls' }.drop
            endTime initial loggers).map fun handed => handed[i]? := by
  have hsame : (pre.written context site now initial calls).SameRedaction
      (pre.written context site now initial calls') :=
    LogRecord.SameRedaction.writes hagrees ⟨rfl, rfl⟩
  refine ⟨hsame.clone, fun interval endTime loggers i hi hpoint => ?_⟩
  refine PerfwarnIntervalIf.drop_redacted interval endTime initial hsame ?_ hi
  obtain rfl | hpoint := hpoint
  · exact insertionPoint_written context site now initial calls calls'
  · exact hpoint

section

def rootContext : Context := .root 0 false 0

def mainSite : CallSite := { file := "src/main.rs", line := 10, column := 5 }

/-- An interval that was slow when it ends ten nanoseconds after its start. -/
def slowInterval (record : LogRecord) : PerfwarnIntervalIf :=
  { label := "query", start := 0, threshold := 1, record := record, context := rootContext }

/-- A value between two literals. -/
def aroundValue (value : String) : List Write :=
  [.literal "a", .val (.string value), .literal "b", .literal "c"]

theorem agrees_aroundValue (value value' : String) :
    List.Forall₂ Write.Agrees (aroundValue value) (aroundValue value') :=
  .cons (.literal "a") (.cons (.val (Loggable.agrees_masked "<String>" value value'))
    (.cons (.literal "b") (.cons (.literal "c") .nil)))

theorem redacted_noninterference_string :
    ((slowInterval (Pre.perfwarnBeginIf.written rootContext mainSite 0 0 (aroundValue "alice"))).drop
        10 0 [.redacted]).map (fun handed => handed[0]?) =
      ((slowInterval (Pre.perfwarnBeginIf.written rootContext mainSite 0 0 (aroundValue "bob"))).drop
        10 0 [.redacted]).map fun handed => handed[0]? :=
  (redacted_noninterference .perfwarnBeginIf rootContext mainSite 0 0 _ _
    (agrees_aroundValue "alice" "bob")).2 (slowInterval (LogRecord.new .perfWarn)) 10 [.redacted] 0
    rfl (Or.inl rfl)

/-- A record of `info_sync_pre` whose private parts come to hold the marker is stamped in both
representations, one whose private parts do not is not. -/
theorem info_marker_is_seen :
    List.Forall₂ Write.Agrees (aroundValue "PERFWARN: ") (aroundValue "alice") ∧
      ((slowInterval (Pre.infoSync.written rootContext mainSite 0 0 (aroundValue "PERFWARN: "))).drop
          10 0 [.redacted]).map (fun handed => handed[0]?) ≠
        ((slowInterval (Pre.infoSync.written rootContext mainSite 0 0 (aroundValue "alice"))).drop
          10 0 [.redacted]).map fun handed => handed[0]? := by
  refine ⟨agrees_aroundValue _ _, fun h => ?_⟩
  have hlength := congrArg (Option.map (Option.map fun record => record.redactedParts.length)) h
  exact absurd hlength (by decide)

end

end Logwise.Legacy
