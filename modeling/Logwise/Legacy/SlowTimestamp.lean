import Logwise.Legacy.Redaction

/-!
# Where the timestamp of a slow interval lands

`perfwarn_begin_if_pre` (`dispatch.rs`) opens a record, `PrivateFormatter` writes its message, and
the destructor of `PerfwarnIntervalIf` (`interval.rs`) inserts the time at which the interval ended.
The two lists of the record share what the opening wrote and nothing else.
-/

namespace Logwise.Legacy

theorem insertIdx_behind (before after : List String) (part : String) :
    (before ++ after).insertIdx before.length part = before ++ part :: after := by
  induction before with
  | nil => rfl
  | cons first before ih => simp [ih]

/-- A part inserted behind what two lists share is at the same place in both. -/
theorem LogRecord.insertSharedPart_append (opening message redacted : List String) (level : Level)
    (part : String) :
    LogRecord.insertSharedPart
        { parts := opening ++ message, redactedParts := opening ++ redacted, level := level }
        opening.length part =
      some
        { parts := opening ++ part :: message
          redactedParts := opening ++ part :: redacted
          level := level } := by
  simp [insertSharedPart, insertIdx_behind]

/-- The text of an instant that is logged. -/
def timestamp (time initial : ℕ) : String := "[" ++ debugDuration (time - initial) ++ "] "

namespace PerfwarnIntervalIf

/-- What the destructor puts at the end. -/
def suffix (interval : PerfwarnIntervalIf) (endTime : ℕ) : List String :=
  [" is SLOW: ", "[interval took " ++ debugDuration (endTime - interval.start) ++ "] "]

/-- The parts of a slow interval's record, around those of its message. -/
def stampedParts (interval : PerfwarnIntervalIf) (endTime initial : ℕ)
    (opening message : List String) : List String :=
  opening ++ timestamp endTime initial :: (message ++ interval.suffix endTime)

/-- Any record whose lists share a complete location, and in which the search ends there. -/
theorem slowRecord_of_insertionPoint (interval : PerfwarnIntervalIf) (endTime initial : ℕ)
    {opening message redacted : List String} {level : Level}
    (hrecord : interval.record =
      { parts := opening ++ message, redactedParts := opening ++ redacted, level := level })
    (hpoint : insertionPoint opening = some opening.length) :
    interval.slowRecord endTime initial =
      some
        { parts := interval.stampedParts endTime initial opening message
          redactedParts := interval.stampedParts endTime initial opening redacted
          level := level } := by
  have hinsert : insertionPoint interval.record.parts = some opening.length := by
    rw [hrecord]
    exact insertionPoint_append hpoint message
  have hstamp : ((LogRecord.new .perfWarn).logTimeSince endTime initial).parts.getLast? =
      some (timestamp endTime initial) := rfl
  simp only [slowRecord, hinsert, hstamp, Option.bind_some]
  rw [hrecord, LogRecord.insertSharedPart_append]
  simp [LogRecord.log, LogRecord.logOwned, stampedParts, suffix]

end PerfwarnIntervalIf

/-- **The timestamp follows the location in either list.** Before it stands what
`perfwarn_begin_if_pre` wrote, after it the message as it was written, private or redacted, and the
two parts that close the record; the insertion is in range of both lists. -/
theorem drop_perfwarnBeginIf (context : Context) (site : CallSite) (now initial : ℕ)
    (calls : List Write) (interval : PerfwarnIntervalIf) (endTime : ℕ) (loggers : List LogPrivacy)
    (hrecord : interval.record = Pre.perfwarnBeginIf.written context site now initial calls)
    (hslow : interval.threshold < endTime - interval.start) :
    interval.record.parts =
        perfwarnOpening context site ++ calls.flatMap (Write.privateParts .perfWarn) ∧
      interval.record.redactedParts =
        perfwarnOpening context site ++ calls.flatMap (Write.redactedParts .perfWarn) ∧
      (perfwarnOpening context site).getLast? = some site.lineColumn ∧
      interval.drop endTime initial loggers =
        some (loggers.map (LogRecord.cloneForLogger
          { parts := interval.stampedParts endTime initial (perfwarnOpening context site)
              (calls.flatMap (Write.privateParts .perfWarn))
            redactedParts := interval.stampedParts endTime initial (perfwarnOpening context site)
              (calls.flatMap (Write.redactedParts .perfWarn))
            level := .perfWarn })) := by
  have hwritten := hrecord.trans (written_perfwarnBeginIf context site now initial calls)
  refine ⟨congrArg LogRecord.parts hwritten, congrArg LogRecord.redactedParts hwritten, ?_, ?_⟩
  · simp [perfwarnOpening]
  · rw [PerfwarnIntervalIf.drop, if_pos hslow,
      interval.slowRecord_of_insertionPoint endTime initial hwritten
        (insertionPoint_perfwarnOpening context site)]
    rfl

theorem drop_perfwarnBeginIf_string :
    (slowInterval (Pre.perfwarnBeginIf.written rootContext mainSite 0 0
        (aroundValue "PERFWARN: "))).drop 10 0 [.redacted] =
      some [LogRecord.cloneForLogger
        { parts :=
            [" ", "0 ", "PERFWARN: ", "src/main.rs", ":10:5 ", "[10ns] ", "a", "PERFWARN: ", "b",
              "c", " is SLOW: ", "[interval took 10ns] "]
          redactedParts :=
            [" ", "0 ", "PERFWARN: ", "src/main.rs", ":10:5 ", "[10ns] ", "a", "<String>", "b",
              "c", " is SLOW: ", "[interval took 10ns] "]
          level := .perfWarn } .redacted] :=
  (drop_perfwarnBeginIf rootContext mainSite 0 0 (aroundValue "PERFWARN: ")
    (slowInterval (Pre.perfwarnBeginIf.written rootContext mainSite 0 0 (aroundValue "PERFWARN: ")))
    10 [.redacted] rfl (by decide)).2.2.2

end Logwise.Legacy
