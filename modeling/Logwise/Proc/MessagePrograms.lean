import Logwise.Proc.MessageMacros

/-!
# Programs of message macros

A program that logs, seen from its loggers. Whatever two runs of it have in private values, a
redacted logger is handed the same records in the same order, provided the program's own control
does not depend on these values.
-/

namespace Logwise.Proc

open Legacy (Context CallSite Level LogPrivacy LogRecord Loggable Pre Write)
open Legacy.ContextImpl (Build)

/-! ## Programs of calls -/

inductive Command (υ Logger : Type) where
  | message (call : MessageMacro) (site : CallSite) (literal : FormatLiteral) (args : TokenStream)
  /-- Whatever stands between two calls. -/
  | other (action : World υ Logger → World υ Logger)

section

variable {υ Logger : Type} (display : Delimiter → TokenStream → String)
  (process : Process υ Logger) (evaluate : TokenStream → World υ Logger → Loggable × World υ Logger)

/-- The compiler accepts it. -/
def Command.Accepted (build : Build) : Command υ Logger → Prop
  | .message call _ literal args =>
    ∃ code, (call.expand display (literal.token :: args)).compile build = .ok code
  | .other _ => True

def Process.command : Command υ Logger → World υ Logger → Option (World υ Logger)
  | .message call site literal args, w =>
    match (call.expand display (literal.token :: args)).compile process.build with
    | .error _ => none
    | .ok code => process.run evaluate site code w
  | .other action, w => some (action w)

def Process.program : List (Command υ Logger) → World υ Logger → Option (World υ Logger)
  | [], w => some w
  | command :: commands, w =>
    (process.command display evaluate command w).bind (Process.program commands)

/-- What the redacted loggers have been handed. -/
def Process.seen (w : World υ Logger) : List (Logger × LogRecord) :=
  w.handed.filter fun given => process.privacy given.1 = .redacted

/-- The two worlds are one to a redacted logger; `same` is what they have in common besides. -/
def Process.Alike (same : υ → υ → Prop) (w w' : World υ Logger) : Prop :=
  same w.user w'.user ∧ process.seen w = process.seen w'

/-- The surroundings of the calls keep to themselves what only `log_all` may write: control does not
depend on it, nor does what a private logger leaves behind. -/
structure Process.Discreet (same : υ → υ → Prop) : Prop where
  currentlyTracing : ∀ w w', process.Alike same w w' →
    process.currentlyTracing w = process.currentlyTracing w'
  current : ∀ w w', process.Alike same w w' → (process.current w).1 = (process.current w').1 ∧
    process.Alike same (process.current w).2 (process.current w').2
  now : ∀ w w', process.Alike same w w' → (process.now w).1 = (process.now w').1 ∧
    process.Alike same (process.now w).2 (process.now w').2
  globalLoggers : ∀ w w', process.Alike same w w' →
    process.globalLoggers w = process.globalLoggers w'
  evaluate : ∀ value w w', process.Alike same w w' →
    (evaluate value w).1.Agrees (evaluate value w').1 ∧
      process.Alike same (evaluate value w).2 (evaluate value w').2
  finish : ∀ isAsync logger given given' w w', process.Alike same w w' →
    (process.privacy logger = .redacted → given = given') →
    process.Alike same (process.finish isAsync logger given w)
      (process.finish isAsync logger given' w')

end

section

variable {υ Logger : Type} {display : Delimiter → TokenStream → String}
  {process : Process υ Logger} {evaluate : TokenStream → World υ Logger → Loggable × World υ Logger}
  {same : υ → υ → Prop}

/-- The two runs of a call's statements are at one place. -/
structure FramesAlike (process : Process υ Logger) (same : υ → υ → Prop)
    (frame frame' : Frame (World υ Logger)) : Prop where
  world : process.Alike same frame.world frame'.world
  calls : List.Forall₂ Write.Agrees frame.calls frame'.calls
  bound : ∀ idx, Option.Rel Loggable.Agrees (frame.bound idx) (frame'.bound idx)

variable {frame frame' : Frame (World υ Logger)}

theorem FramesAlike.bind_value (h : FramesAlike process same frame frame') (idx : ℕ)
    {value value' : Loggable} (hvalue : value.Agrees value') {w w' : World υ Logger}
    (hw : process.Alike same w w') :
    FramesAlike process same
      { frame with world := w, bound := Function.update frame.bound idx (some value) }
      { frame' with world := w', bound := Function.update frame'.bound idx (some value') } where
  world := hw
  calls := h.calls
  bound := fun i => by
    by_cases hi : i = idx
    · subst hi
      simpa using Option.Rel.some hvalue
    · simpa [hi] using h.bound i

theorem FramesAlike.told (h : FramesAlike process same frame frame') {call call' : Write}
    (hagrees : call.Agrees call') : List.Forall₂ Write.Agrees (frame.calls ++ [call])
      (frame'.calls ++ [call']) :=
  List.rel_append h.calls (.cons hagrees .nil)

/-- One statement keeps them together. -/
theorem FramesAlike.exec (hdiscreet : process.Discreet evaluate same)
    (h : FramesAlike process same frame frame') (statement : Statement) :
    Option.Rel (FramesAlike process same) (statement.exec evaluate frame)
      (statement.exec evaluate frame') := by
  cases statement with
  | writeLiteral source =>
    rw [Statement.exec, Statement.exec]
    cases StringLiteral.decode source with
    | none => exact .none
    | some text => exact .some ⟨h.world, h.told (.literal _), h.bound⟩
  | writeText text => exact .some ⟨h.world, h.told (.literal _), h.bound⟩
  | writeVal value =>
    obtain ⟨hagrees, hworld⟩ := hdiscreet.evaluate value _ _ h.world
    exact .some ⟨hworld, h.told (.val hagrees), h.bound⟩
  | letVal idx value =>
    obtain ⟨hagrees, hworld⟩ := hdiscreet.evaluate value _ _ h.world
    exact .some (h.bind_value idx hagrees hworld)
  | writeValRef idx =>
    rw [Statement.exec, Statement.exec]
    have hvalue := h.bound idx
    revert hvalue
    generalize frame.bound idx = value
    generalize frame'.bound idx = value'
    rintro (hagrees | _)
    · exact .some ⟨h.world, h.told (.valRef hagrees), h.bound⟩
    · exact .none

theorem FramesAlike.execAll (hdiscreet : process.Discreet evaluate same)
    (h : FramesAlike process same frame frame') (statements : List Statement) :
    Option.Rel (FramesAlike process same) (Proc.execAll evaluate statements frame)
      (Proc.execAll evaluate statements frame') := by
  induction statements generalizing frame frame' with
  | nil => exact .some h
  | cons statement statements ih =>
    have hstep := h.exec hdiscreet statement
    rw [Proc.execAll, Proc.execAll]
    revert hstep
    generalize statement.exec evaluate frame = next
    generalize statement.exec evaluate frame' = next'
    rintro (hnext | _)
    · exact ih hnext
    · exact .none

/-- What a logger is handed, if it is redacted, is the same. -/
theorem Process.Alike.hand (hdiscreet : process.Discreet evaluate same) (isAsync : Bool)
    {record record' : LogRecord} (hrecord : record.SameRedaction record') {w w' : World υ Logger}
    (h : process.Alike same w w') (logger : Logger) :
    process.Alike same (process.hand isAsync record w logger)
      (process.hand isAsync record' w' logger) := by
  have hgiven : process.privacy logger = .redacted →
      record.cloneForLogger (process.privacy logger) =
        record'.cloneForLogger (process.privacy logger) := by
    intro hprivacy
    rw [hprivacy]
    exact hrecord.clone
  refine hdiscreet.finish isAsync logger _ _ _ _ ⟨h.1, ?_⟩ hgiven
  have hseen := h.2
  simp only [Process.seen, List.filter_append, List.filter_singleton] at hseen ⊢
  rw [hseen]
  by_cases hprivacy : process.privacy logger = .redacted
  · rw [hgiven hprivacy]
  · simp [hprivacy]

theorem Process.Alike.post (hdiscreet : process.Discreet evaluate same) (isAsync : Bool)
    {record record' : LogRecord} (hrecord : record.SameRedaction record') {w w' : World υ Logger}
    (h : process.Alike same w w') :
    process.Alike same (process.post isAsync record w) (process.post isAsync record' w') := by
  rw [Process.post, Process.post, hdiscreet.globalLoggers _ _ h]
  generalize process.globalLoggers w' = loggers
  induction loggers generalizing w w' with
  | nil => exact h
  | cons logger loggers ih => exact ih (h.hand hdiscreet isAsync hrecord logger)

theorem Process.Alike.logEnabled (hdiscreet : process.Discreet evaluate same)
    {w w' : World υ Logger} (h : process.Alike same w w') (level : Level) :
    process.logEnabled w level = process.logEnabled w' level := by
  have htracing := hdiscreet.currentlyTracing _ _ h
  cases level <;> simp [Process.logEnabled, htracing]

/-- The two records are opened with the same context and the same time. -/
theorem Process.Alike.opened (hdiscreet : process.Discreet evaluate same) {w w' : World υ Logger}
    (h : process.Alike same w w') (pre : Pre) (site : CallSite) :
    (process.opened pre site w).1 = (process.opened pre site w').1 ∧
      process.Alike same (process.opened pre site w).2 (process.opened pre site w').2 := by
  obtain ⟨hcontext, hcurrent⟩ := hdiscreet.current _ _ h
  obtain ⟨htime, hnow⟩ := hdiscreet.now _ _ hcurrent
  refine ⟨?_, hnow⟩
  simp only [Process.opened]
  rw [hcontext, htime]

theorem Process.Alike.run (hdiscreet : process.Discreet evaluate same) {w w' : World υ Logger}
    (h : process.Alike same w w') (site : CallSite) (code : Compiled) :
    Option.Rel (process.Alike same) (process.run evaluate site code w)
      (process.run evaluate site code w') := by
  cases code with
  | nothing => exact .some h
  | block level pre statements isAsync =>
    rw [Process.run, Process.run, h.logEnabled hdiscreet level]
    split
    · obtain ⟨hrecord, hworld⟩ := h.opened hdiscreet pre site
      have hstart : FramesAlike process same
          { world := (process.opened pre site w).2, calls := [], bound := fun _ => none }
          { world := (process.opened pre site w').2, calls := [], bound := fun _ => none } :=
        ⟨hworld, .nil, fun _ => .none⟩
      have hopened : (process.opened pre site w).1.SameRedaction (process.opened pre site w').1 :=
        hrecord ▸ ⟨rfl, rfl⟩
      have hfilled := hstart.execAll hdiscreet statements
      revert hfilled
      rw [Process.filled, Process.filled]
      generalize Proc.execAll evaluate statements _ = filled
      generalize Proc.execAll evaluate statements _ = filled'
      rintro (hframes | _)
      · exact .some (hframes.world.post hdiscreet isAsync (hopened.writes hframes.calls))
      · exact .none
    · exact .some h

theorem Process.Alike.command (hdiscreet : process.Discreet evaluate same) {w w' : World υ Logger}
    (h : process.Alike same w w') {command : Command υ Logger}
    (hkeeps : ∀ action, command = .other action → process.Alike same (action w) (action w')) :
    Option.Rel (process.Alike same) (process.command display evaluate command w)
      (process.command display evaluate command w') := by
  cases command with
  | message call site literal args =>
    rw [Process.command, Process.command]
    cases (call.expand display (literal.token :: args)).compile process.build with
    | error message => exact .none
    | ok code => exact h.run hdiscreet site code
  | other action => exact .some (hkeeps action rfl)

/-- What the compiler accepts runs to its end. -/
theorem Command.Accepted.exists_run {command : Command υ Logger}
    (h : command.Accepted display process.build) (w : World υ Logger) :
    ∃ v, process.command display evaluate command w = some v := by
  cases command with
  | message call site literal args =>
    obtain ⟨code, hcode⟩ := h
    rw [Process.command, hcode]
    obtain ⟨rfl, -⟩ | ⟨statements, houtput, rfl⟩ := compile_expand_cases (w := w) hcode
    · exact ⟨w, rfl⟩
    · obtain ⟨pairs, segments, hreads⟩ := exists_output_iff.mp ⟨statements, houtput⟩
      obtain ⟨values, frame, hexec, -⟩ := hreads.runs houtput evaluate
        { world := (process.opened call.kind.pre site w).2, calls := [], bound := fun _ => none }
      by_cases hon : process.logEnabled w call.kind.level = true
      · refine ⟨process.post call.isAsync (frame.calls.foldl Write.apply
          (process.opened call.kind.pre site w).1) frame.world, ?_⟩
        dsimp only
        rw [Process.run, if_pos hon, Process.filled, hexec, Option.map_some]
      · exact ⟨w, if_neg hon⟩
  | other action => exact ⟨action w, rfl⟩

/-- **Redacted loggers learn nothing from a program**: two runs of one accepted program that begin
alike end alike, with the same records handed to the redacted loggers, if what stands around the
calls keeps private values to itself. -/
theorem program_noninterference (display : Delimiter → TokenStream → String)
    (process : Process υ Logger)
    (evaluate : TokenStream → World υ Logger → Loggable × World υ Logger) (same : υ → υ → Prop)
    (hdiscreet : process.Discreet evaluate same) (program : List (Command υ Logger))
    (haccepted : ∀ command ∈ program, command.Accepted display process.build)
    (hkeeps : ∀ action, .other action ∈ program → ∀ w w', process.Alike same w w' →
      process.Alike same (action w) (action w'))
    (w w' : World υ Logger) (h : process.Alike same w w') :
    ∃ v v', process.program display evaluate program w = some v ∧
      process.program display evaluate program w' = some v' ∧ process.Alike same v v' := by
  induction program generalizing w w' with
  | nil => exact ⟨w, w', rfl, rfl, h⟩
  | cons command program ih =>
    have hcommand := haccepted command (List.mem_cons_self ..)
    have hruns : ∀ u, ∃ v, process.command display evaluate command u = some v :=
      hcommand.exists_run
    obtain ⟨v, hv⟩ := hruns w
    obtain ⟨v', hv'⟩ := hruns w'
    have halike : Option.Rel (process.Alike same) (process.command display evaluate command w)
        (process.command display evaluate command w') :=
      h.command hdiscreet fun action haction =>
        hkeeps action (haction ▸ List.mem_cons_self ..) w w' h
    rw [hv, hv'] at halike
    obtain halike | _ := halike
    have hrest := ih (fun next hmem => haccepted next (List.mem_cons_of_mem _ hmem))
      (fun action hmem => hkeeps action (List.mem_cons_of_mem _ hmem)) v v' halike
    rw [Process.program, Process.program, hv, hv']
    exact hrest

end

/-- Nothing about the process depends on the name in its state. -/
theorem discreet_plainProcess : plainProcess.Discreet nameValue (fun _ _ => True) where
  currentlyTracing := fun _ _ _ => rfl
  current := fun _ _ h => ⟨rfl, h⟩
  now := fun _ _ h => ⟨rfl, h⟩
  globalLoggers := fun _ _ _ => rfl
  evaluate := fun _ w w' h => ⟨Loggable.agrees_masked "<String>" w.user w'.user, h⟩
  finish := fun isAsync _ _ _ _ _ h _ => by cases isAsync <;> exact h

theorem program_noninterference_name : ∃ v v',
    plainProcess.program (fun _ _ => "") nameValue
        [.message infoSync Legacy.mainSite nameLiteral nameArgs] { user := "alice", handed := [] } =
      some v ∧
    plainProcess.program (fun _ _ => "") nameValue
        [.message infoSync Legacy.mainSite nameLiteral nameArgs] { user := "bob", handed := [] } =
      some v' ∧
    plainProcess.Alike (fun _ _ => True) v v' := by
  refine program_noninterference (fun _ _ => "") plainProcess nameValue _ discreet_plainProcess _
    (fun command hmem => ?_) (fun action hmem => ?_) _ _ ⟨trivial, rfl⟩
  · rw [List.mem_singleton.mp hmem]
    exact compile_expand_ok_iff.mpr (Or.inr (exists_output_iff.mpr ⟨_, _, reads_name _⟩))
  · cases List.mem_singleton.mp hmem

end Logwise.Proc
