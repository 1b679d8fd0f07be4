import Logwise.Legacy.Redaction
import Logwise.Library.StringLiteral
import Logwise.Proc.Arguments
import Logwise.Proc.FormatString
import Logwise.Proc.Reparsed

/-!
# The expansion of a logging macro

`lformat_impl` (`logwise_runtime_proc/src/parser.rs`) and what its statements do. A value is bound
once where its key comes twice, written in place where it comes once, and logged after the message
where it does not come; whichever it is, it is evaluated once. The statements are text that is
parsed, so a value is in them as its tokens come back from being printed.
-/

namespace Logwise.Proc

open Legacy (Loggable Write)

/-- A generated statement, on the formatter the macro was given, with the tokens parsed from it. -/
inductive Statement where
  /-- `.write_literal("{source}");` -/
  | writeLiteral (source : List Char)
  /-- `.write_literal({text:?});` -/
  | writeText (text : String)
  /-- `.write_val({value});` -/
  | writeVal (value : TokenStream)
  /-- `let __logwise_val_{idx} = {value};` -/
  | letVal (idx : ℕ) (value : TokenStream)
  /-- `.write_val_ref(&__logwise_val_{idx});` -/
  | writeValRef (idx : ℕ)

/-- The statement, when the text it is in has been parsed, printed into another and parsed again. -/
def Statement.reparsed : Statement → Statement
  | .writeVal value => .writeVal (Proc.reparsed value)
  | .letVal idx value => .letVal idx (Proc.reparsed value)
  | statement => statement

structure LFormatResult where
  output : Except String (List Statement)
  name : List Char

/-- `key_values.iter().position(|(name, _)| name == key)`. -/
def position (kvs : List (String × TokenStream)) (key : String) : Option ℕ :=
  kvs.findIdx? fun pair => pair.1 = key

/-- `key_values[idx].1`. -/
def valueAt (kvs : List (String × TokenStream)) (idx : ℕ) : TokenStream :=
  (kvs[idx]?.map Prod.snd).getD []

/-- The argument a segment stands for. -/
def Segment.argument (kvs : List (String × TokenStream)) : Segment → Option ℕ
  | .literal _ => none
  | .placeholder key => position kvs key

def countSegment (kvs : List (String × TokenStream)) (occurrences : List ℕ) (segment : Segment) :
    List ℕ :=
  match segment.argument kvs with
  | some idx => occurrences.modify idx (· + 1)
  | none => occurrences

/-- The first pass: how often each key comes. -/
def countOccurrences (kvs : List (String × TokenStream)) (segments : List Segment) : List ℕ :=
  segments.foldl (countSegment kvs) (List.replicate kvs.length 0)

/-- The second pass, at the segments that are left: its statements, and the keys that were used. -/
def emitFrom (kvs : List (String × TokenStream)) (occurrences : List ℕ) (usedKeys : List String)
    (boundKeys : List ℕ) : List Segment → Except String (List Statement × List String)
  | [] => .ok ([], usedKeys)
  | .literal source :: segments =>
    (emitFrom kvs occurrences usedKeys boundKeys segments).map fun rest =>
      (.writeLiteral source :: rest.1, rest.2)
  | .placeholder key :: segments =>
    match position kvs key with
    | none => .error ("Key " ++ key ++ " not found")
    | some idx =>
      if 1 < occurrences.getD idx 0 then
        -- bind on first use, then refer to the binding
        if idx ∈ boundKeys then
          (emitFrom kvs occurrences (key :: usedKeys) boundKeys segments).map fun rest =>
            (.writeValRef idx :: rest.1, rest.2)
        else
          (emitFrom kvs occurrences (key :: usedKeys) (idx :: boundKeys) segments).map fun rest =>
            (.letVal idx (reparsed (valueAt kvs idx)) :: .writeValRef idx :: rest.1, rest.2)
      else
        (emitFrom kvs occurrences (key :: usedKeys) boundKeys segments).map fun rest =>
          (.writeVal (reparsed (valueAt kvs idx)) :: rest.1, rest.2)

/-- The arguments that are not interpolated. -/
def trailing (usedKeys : List String) (kvs : List (String × TokenStream)) : List Statement :=
  kvs.flatMap fun pair =>
    if pair.1 ∈ usedKeys then []
    else [.writeText (" " ++ pair.1 ++ "="), .writeVal (reparsed pair.2)]

def failed (message : String) : LFormatResult := { output := .error message, name := [] }

def mustBeLiteral : LFormatResult := failed "lformat!() must be called with a string literal"

/-- `lformat_impl` after the first token. -/
def lformatBody (display : Delimiter → TokenStream → String) (formatString : List Char)
    (collect : TokenStream) : LFormatResult :=
  match buildKvs display collect with
  | .error message => failed message
  | .ok kvs =>
    match scanFormatString formatString with
    | .error message => failed message
    | .ok segments =>
      match emitFrom kvs (countOccurrences kvs segments) [] [] segments with
      | .error message => failed message
      | .ok (source, usedKeys) =>
        { output := .ok (source ++ trailing usedKeys kvs), name := formatString }

def lformatImpl (display : Delimiter → TokenStream → String) : TokenStream → LFormatResult
  | .literal text :: collect =>
    if text.toList.head? = some '"' ∧ text.toList.getLast? = some '"' then
      lformatBody display text.toList.tail.dropLast collect
    else mustBeLiteral
  | _ => mustBeLiteral

/-! ## Running the statements -/

/-- What the statements act on: the world the values are evaluated in, the calls that have been made
on the formatter, and the values that have been bound. -/
structure Frame (σ : Type) where
  world : σ
  calls : List Write
  bound : ℕ → Option Loggable

variable {σ : Type}

/-- One statement; none where a literal is not one or a binding is missing. -/
def Statement.exec (evaluate : TokenStream → σ → Loggable × σ) :
    Statement → Frame σ → Option (Frame σ)
  | .writeLiteral source, frame =>
    (StringLiteral.decode source).map fun text =>
      { frame with calls := frame.calls ++ [.literal (String.ofList text)] }
  | .writeText text, frame => some { frame with calls := frame.calls ++ [.literal text] }
  | .writeVal value, frame =>
    let evaluated := evaluate value frame.world
    some { frame with world := evaluated.2, calls := frame.calls ++ [.val evaluated.1] }
  | .letVal idx value, frame =>
    let evaluated := evaluate value frame.world
    some { frame with
      world := evaluated.2, bound := Function.update frame.bound idx (some evaluated.1) }
  | .writeValRef idx, frame =>
    (frame.bound idx).map fun value => { frame with calls := frame.calls ++ [.valRef value] }

def execAll (evaluate : TokenStream → σ → Loggable × σ) : List Statement → Frame σ → Option (Frame σ)
  | [], frame => some frame
  | statement :: statements, frame =>
    (statement.exec evaluate frame).bind (execAll evaluate statements)

/-! ## The meaning of a format string -/

/-- Evaluate these values, one after the other. -/
def evaluateAll (evaluate : TokenStream → σ → Loggable × σ) :
    List TokenStream → σ → List Loggable × σ
  | [], world => ([], world)
  | value :: values, world =>
    let first := evaluate value world
    let rest := evaluateAll evaluate values first.2
    (first.1 :: rest.1, rest.2)

/-- The arguments in the order in which they come first. -/
def firstUses (seen : List ℕ) : List ℕ → List ℕ
  | [] => []
  | idx :: uses => if idx ∈ seen then firstUses seen uses else idx :: firstUses (idx :: seen) uses

/-- The arguments that are interpolated, with repetitions. -/
def uses (kvs : List (String × TokenStream)) (segments : List Segment) : List ℕ :=
  segments.filterMap (Segment.argument kvs)

/-- The arguments that are not interpolated, in call-site order. -/
def uninterpolated (kvs : List (String × TokenStream)) (segments : List Segment) : List ℕ :=
  (List.range kvs.length).filter fun idx => idx ∉ uses kvs segments

/-- The order in which the arguments are evaluated. -/
def evaluationOrder (kvs : List (String × TokenStream)) (segments : List Segment) : List ℕ :=
  firstUses [] (uses kvs segments) ++ uninterpolated kvs segments

/-- What a segment means: its literal, decoded, or the value of its argument. -/
def Segment.meaning (kvs : List (String × TokenStream)) (values : ℕ → Loggable) :
    Segment → List Write
  | .literal source => (StringLiteral.decode source).toList.map fun text => .literal (String.ofList text)
  | .placeholder key => (position kvs key).toList.map fun idx => .val (values idx)

def keyAt (kvs : List (String × TokenStream)) (idx : ℕ) : String :=
  (kvs[idx]?.map Prod.fst).getD ""

/-- The text ` key=` and the value. -/
def fieldMeaning (kvs : List (String × TokenStream)) (values : ℕ → Loggable) (idx : ℕ) : List Write :=
  [.literal (" " ++ keyAt kvs idx ++ "="), .val (values idx)]

/-- Everything the formatter is to be told. -/
def meaning (kvs : List (String × TokenStream)) (values : ℕ → Loggable) (segments : List Segment) :
    List Write :=
  segments.flatMap (Segment.meaning kvs values) ++
    (uninterpolated kvs segments).flatMap (fieldMeaning kvs values)

/-! ## Keys and positions -/

section

variable {kvs : List (String × TokenStream)} {key : String} {idx : ℕ}

/-- A position is that of an argument with this key. -/
theorem exists_of_position (h : position kvs key = some idx) :
    ∃ value, kvs[idx]? = some (key, value) := by
  obtain ⟨hlt, hkey, -⟩ := List.findIdx?_eq_some_iff_getElem.mp h
  refine ⟨kvs[idx].2, ?_⟩
  rw [List.getElem?_eq_getElem hlt, ← of_decide_eq_true hkey]

/-- Keys that are distinct have one position each. -/
theorem position_of_getElem? (hkvs : (kvs.map Prod.fst).Nodup) {value : TokenStream}
    (h : kvs[idx]? = some (key, value)) : position kvs key = some idx := by
  obtain ⟨hlt, hpair⟩ := List.getElem?_eq_some_iff.mp h
  refine List.findIdx?_eq_some_iff_getElem.mpr ⟨hlt, ?_, fun j hj => ?_⟩
  · rw [hpair]
    exact decide_eq_true rfl
  · intro hsame
    have hidx : idx < (kvs.map Prod.fst).length := by
      rw [List.length_map]
      exact hlt
    have hjlt : j < (kvs.map Prod.fst).length := hj.trans hidx
    have hkeys : (kvs.map Prod.fst)[j] = (kvs.map Prod.fst)[idx] := by
      rw [List.getElem_map, List.getElem_map, hpair]
      exact of_decide_eq_true hsame
    exact hj.ne ((List.Nodup.getElem_inj_iff hkvs).mp hkeys)

theorem position_eq_none : position kvs key = none ↔ key ∉ kvs.map Prod.fst := by
  rw [position, List.findIdx?_eq_none_iff]
  constructor
  · intro h hmem
    obtain ⟨pair, hpair, hkey⟩ := List.mem_map.mp hmem
    exact of_decide_eq_false (h pair hpair) hkey
  · exact fun h pair hpair => decide_eq_false fun hkey => h (List.mem_map.mpr ⟨pair, hpair, hkey⟩)

theorem mem_uses {segments : List Segment} :
    idx ∈ uses kvs segments ↔ ∃ key, .placeholder key ∈ segments ∧ position kvs key = some idx := by
  rw [uses, List.mem_filterMap]
  constructor
  · rintro ⟨segment, hmem, hidx⟩
    cases segment with
    | literal source => cases hidx
    | placeholder key => exact ⟨key, hmem, hidx⟩
  · rintro ⟨key, hmem, hidx⟩
    exact ⟨.placeholder key, hmem, hidx⟩

theorem countSegment_length (occurrences : List ℕ) (segment : Segment) :
    (countSegment kvs occurrences segment).length = occurrences.length := by
  rw [countSegment]
  split
  · exact List.length_modify ..
  · rfl

/-- One segment is counted for its argument. -/
theorem getD_countSegment {occurrences : List ℕ} (hlength : occurrences.length = kvs.length)
    (segment : Segment) (idx : ℕ) : (countSegment kvs occurrences segment).getD idx 0 =
      occurrences.getD idx 0 + (uses kvs [segment]).count idx := by
  rw [countSegment, uses, List.filterMap_cons]
  cases hargument : segment.argument kvs with
  | none => rfl
  | some used =>
    have hlt : used < occurrences.length := by
      cases segment with
      | literal source => cases hargument
      | placeholder key =>
        obtain ⟨value, hvalue⟩ := exists_of_position hargument
        rw [hlength]
        exact (List.getElem?_eq_some_iff.mp hvalue).1
    by_cases hidx : used = idx
    · subst hidx
      simp [List.getElem?_eq_getElem hlt]
    · simp [hidx]

/-- The first pass counts the uses. -/
theorem getD_countOccurrences (kvs : List (String × TokenStream)) (segments : List Segment)
    (idx : ℕ) : (countOccurrences kvs segments).getD idx 0 = (uses kvs segments).count idx := by
  have hcount : ∀ occurrences : List ℕ, occurrences.length = kvs.length →
      (segments.foldl (countSegment kvs) occurrences).getD idx 0 =
        occurrences.getD idx 0 + (uses kvs segments).count idx := by
    induction segments with
    | nil => exact fun _ _ => rfl
    | cons segment segments ih =>
      intro occurrences hlength
      have hsplit : uses kvs (segment :: segments) = uses kvs [segment] ++ uses kvs segments := by
        rw [uses, uses, uses, ← List.filterMap_append]
        rfl
      rw [List.foldl_cons, ih _ ((countSegment_length ..).trans hlength),
        getD_countSegment hlength, hsplit, List.count_append, Nat.add_assoc]
  have hzero : (List.replicate kvs.length 0).getD idx 0 = 0 := by
    rw [List.getD_eq_getElem?_getD, List.getElem?_replicate]
    split <;> rfl
  rw [countOccurrences, hcount _ (List.length_replicate ..), hzero, Nat.zero_add]

end

/-! ## What the statements do -/

section

variable {kvs : List (String × TokenStream)} {evaluate : TokenStream → σ → Loggable × σ}

theorem execAll_append (first second : List Statement) (frame : Frame σ) :
    execAll evaluate (first ++ second) frame =
      (execAll evaluate first frame).bind (execAll evaluate second) := by
  induction first generalizing frame with
  | nil => rfl
  | cons statement first ih =>
    rw [List.cons_append, execAll, execAll]
    cases statement.exec evaluate frame with
    | none => rfl
    | some next => exact ih next

theorem evaluateAll_append (first second : List TokenStream) (world : σ) :
    evaluateAll evaluate (first ++ second) world =
      ((evaluateAll evaluate first world).1 ++
        (evaluateAll evaluate second (evaluateAll evaluate first world).2).1,
        (evaluateAll evaluate second (evaluateAll evaluate first world).2).2) := by
  induction first generalizing world with
  | nil => rfl
  | cons value first ih =>
    rw [List.cons_append, evaluateAll, evaluateAll, ih]
    rfl

/-- The tokens of an argument, as they are in the statements. -/
def compiledAt (kvs : List (String × TokenStream)) (idx : ℕ) : TokenStream :=
  reparsed (valueAt kvs idx)

/-- Running the statements evaluates the arguments `order`, given by their tokens, each once, and
writes what `told` makes of their values. -/
def Runs (tokens : ℕ → TokenStream) (evaluate : TokenStream → σ → Loggable × σ)
    (statements : List Statement) (frame : Frame σ) (order : List ℕ)
    (told : (ℕ → Loggable) → List Write) (values : ℕ → Loggable) : Prop :=
  ∃ final, execAll evaluate statements frame = some final ∧
    evaluateAll evaluate (order.map tokens) frame.world = (order.map values, final.world) ∧
    final.calls.map Write.written = (frame.calls ++ told values).map Write.written

/-- A literal that is one is told as it is. -/
theorem Runs.literal {tokens : ℕ → TokenStream} {source text : List Char}
    (htext : StringLiteral.decode source = some text)
    {statements : List Statement} {frame : Frame σ} {order : List ℕ}
    {told : (ℕ → Loggable) → List Write} {values : ℕ → Loggable}
    (h : Runs tokens evaluate statements
      { frame with calls := frame.calls ++ [.literal (String.ofList text)] } order told values) :
    Runs tokens evaluate (.writeLiteral source :: statements) frame order
      (fun values => Segment.meaning kvs values (.literal source) ++ told values) values := by
  obtain ⟨final, hexec, hevaluated, hcalls⟩ := h
  refine ⟨final, ?_, hevaluated, ?_⟩
  · rw [execAll, Statement.exec, htext]
    exact hexec
  · have hmeaning : Segment.meaning kvs values (.literal source) =
        [.literal (String.ofList text)] := by
      simp [Segment.meaning, htext]
    rw [hcalls]
    dsimp only
    rw [hmeaning, List.append_assoc]

/-- A value that is evaluated in place. -/
theorem Runs.first {tokens : ℕ → TokenStream} {idx : ℕ} {prologue statements : List Statement}
    {frame next : Frame σ} {order : List ℕ} {told : (ℕ → Loggable) → List Write}
    {values : ℕ → Loggable} {value : Loggable}
    (hprologue : execAll evaluate prologue frame = some next)
    (hevaluate : evaluate (tokens idx) frame.world = (value, next.world))
    (hnext : next.calls.map Write.written = (frame.calls ++ [Write.val value]).map Write.written)
    (hvalue : values idx = value)
    (h : Runs tokens evaluate statements next order told values) :
    Runs tokens evaluate (prologue ++ statements) frame (idx :: order)
      (fun values => .val (values idx) :: told values) values := by
  obtain ⟨final, hexec, hevaluated, hcalls⟩ := h
  refine ⟨final, ?_, ?_, ?_⟩
  · rw [execAll_append, hprologue]
    exact hexec
  · rw [List.map_cons, List.map_cons, evaluateAll, hevaluate, hevaluated, hvalue]
  · rw [hcalls, List.map_append, hnext, ← List.map_append, List.append_assoc, ← hvalue]
    rfl

/-- A value that was bound before. -/
theorem Runs.again {tokens : ℕ → TokenStream} {idx : ℕ} {value : Loggable}
    {statements : List Statement} {frame : Frame σ} {order : List ℕ}
    {told : (ℕ → Loggable) → List Write} {values : ℕ → Loggable}
    (hbound : frame.bound idx = some value) (hvalue : values idx = value)
    (h : Runs tokens evaluate statements
      { frame with calls := frame.calls ++ [.valRef value] } order told values) :
    Runs tokens evaluate ([.writeValRef idx] ++ statements) frame order
      (fun values => .val (values idx) :: told values) values := by
  obtain ⟨final, hexec, hevaluated, hcalls⟩ := h
  refine ⟨final, ?_, hevaluated, ?_⟩
  · rw [List.singleton_append, execAll, Statement.exec, hbound]
    exact hexec
  · rw [hcalls, ← hvalue]
    simp [Write.written]

/-- What the second pass knows: `seen` have been used, and those of them that come more than once
are bound. -/
structure Underway (occurrences : List ℕ) (remaining : List ℕ) (seen bound : List ℕ)
    (values : ℕ → Loggable) (frame : Frame σ) : Prop where
  unseen : ∀ idx, idx ∉ seen → occurrences.getD idx 0 = remaining.count idx
  repeated : ∀ idx, idx ∈ seen → remaining.count idx < occurrences.getD idx 0
  bound_iff : ∀ idx, idx ∈ bound ↔ idx ∈ seen ∧ 1 < occurrences.getD idx 0
  bindings : ∀ idx ∈ bound, frame.bound idx = some (values idx)

namespace Underway

variable {occurrences remaining seen bound : List ℕ} {values : ℕ → Loggable}
  {frame next : Frame σ} {idx : ℕ}

/-- Only the bindings of the frame matter. -/
theorem congr (h : Underway occurrences remaining seen bound values frame) (next : Frame σ)
    (hnext : next.bound = frame.bound) :
    Underway occurrences remaining seen bound values next where
  unseen := h.unseen
  repeated := h.repeated
  bound_iff := h.bound_iff
  bindings := fun i hi => (congrFun hnext i).trans (h.bindings i hi)

/-- An argument that comes again is bound. -/
theorem mem_bound (h : Underway occurrences (idx :: remaining) seen bound values frame)
    (hseen : idx ∈ seen) : 1 < occurrences.getD idx 0 ∧ idx ∈ bound := by
  have hcount := h.repeated idx hseen
  rw [List.count_cons_self] at hcount
  have htwice : 1 < occurrences.getD idx 0 := by omega
  exact ⟨htwice, (h.bound_iff idx).mpr ⟨hseen, htwice⟩⟩

theorem again (h : Underway occurrences (idx :: remaining) seen bound values frame)
    (hseen : idx ∈ seen) : Underway occurrences remaining seen bound values frame where
  unseen := fun i hi => by
    have hne : idx ≠ i := fun he => hi (he ▸ hseen)
    rw [h.unseen i hi, List.count_cons_of_ne hne]
  repeated := fun i hi => (List.count_le_count_cons ..).trans_lt (h.repeated i hi)
  bound_iff := h.bound_iff
  bindings := h.bindings

theorem unseen_cons (h : Underway occurrences (idx :: remaining) seen bound values frame) (i : ℕ)
    (hi : i ∉ idx :: seen) : occurrences.getD i 0 = remaining.count i := by
  obtain ⟨hne, hseen⟩ := List.ne_and_not_mem_of_not_mem_cons hi
  rw [h.unseen i hseen, List.count_cons_of_ne hne.symm]

theorem repeated_cons (h : Underway occurrences (idx :: remaining) seen bound values frame)
    (hnew : idx ∉ seen) (i : ℕ) (hi : i ∈ idx :: seen) :
    remaining.count i < occurrences.getD i 0 := by
  obtain rfl | hseen := List.mem_cons.mp hi
  · rw [h.unseen i hnew, List.count_cons_self]
    exact Nat.lt_succ_self _
  · exact (List.count_le_count_cons ..).trans_lt (h.repeated i hseen)

/-- The only use of an argument. -/
theorem once (h : Underway occurrences (idx :: remaining) seen bound values frame)
    (hnew : idx ∉ seen) (honce : ¬ 1 < occurrences.getD idx 0) (value : Loggable) :
    Underway occurrences remaining (idx :: seen) bound (Function.update values idx value) frame where
  unseen := h.unseen_cons
  repeated := h.repeated_cons hnew
  bound_iff := fun i => by
    rw [h.bound_iff, List.mem_cons]
    constructor
    · exact fun hi => ⟨Or.inr hi.1, hi.2⟩
    · rintro ⟨rfl | hseen, htwice⟩
      · exact absurd htwice honce
      · exact ⟨hseen, htwice⟩
  bindings := fun i hi => by
    have hne : i ≠ idx := fun he => hnew (he ▸ ((h.bound_iff i).mp hi).1)
    rw [Function.update_of_ne hne]
    exact h.bindings i hi

/-- The first of several uses binds the value. -/
theorem bind (h : Underway occurrences (idx :: remaining) seen bound values frame) (next : Frame σ)
    (hnew : idx ∉ seen) (htwice : 1 < occurrences.getD idx 0) {value : Loggable}
    (hnext : next.bound = Function.update frame.bound idx (some value)) :
    Underway occurrences remaining (idx :: seen) (idx :: bound)
      (Function.update values idx value) next where
  unseen := h.unseen_cons
  repeated := h.repeated_cons hnew
  bound_iff := fun i => by
    rw [List.mem_cons, List.mem_cons, h.bound_iff]
    constructor
    · rintro (rfl | hi)
      · exact ⟨Or.inl rfl, htwice⟩
      · exact ⟨Or.inr hi.1, hi.2⟩
    · rintro ⟨rfl | hseen, hi⟩
      · exact Or.inl rfl
      · exact Or.inr ⟨hseen, hi⟩
  bindings := fun i hi => by
    rw [hnext]
    obtain rfl | hbound := List.mem_cons.mp hi
    · rw [Function.update_self, Function.update_self]
    · have hne : i ≠ idx := fun he => hnew (he ▸ ((h.bound_iff i).mp hbound).1)
      rw [Function.update_of_ne hne, Function.update_of_ne hne]
      exact h.bindings i hbound

end Underway

/-- Every literal run is the inside of a string literal. -/
def Literals (segments : List Segment) : Prop :=
  ∀ source, .literal source ∈ segments → ∃ text, StringLiteral.decode source = some text

theorem Literals.tail {segment : Segment} {segments : List Segment}
    (h : Literals (segment :: segments)) : Literals segments :=
  fun source hsource => h source (List.mem_cons_of_mem _ hsource)

/-- The values agree on what has been used. -/
def AgreeOn (seen : List ℕ) (values values' : ℕ → Loggable) : Prop :=
  ∀ idx ∈ seen, values' idx = values idx

theorem AgreeOn.of_update {seen : List ℕ} {values values' : ℕ → Loggable} {idx : ℕ}
    {value : Loggable} (hnew : idx ∉ seen)
    (h : AgreeOn (idx :: seen) (Function.update values idx value) values') :
    AgreeOn seen values values' ∧ values' idx = value := by
  refine ⟨fun i hi => ?_, ?_⟩
  · have hne : i ≠ idx := fun he => hnew (he ▸ hi)
    rw [h i (List.mem_cons_of_mem _ hi), Function.update_of_ne hne]
  · rw [h idx (List.mem_cons_self ..), Function.update_self]

theorem map_eq_ok {ε α β : Type} {f : α → β} {result : Except ε α} {b : β}
    (h : result.map f = .ok b) : ∃ a, result = .ok a ∧ f a = b := by
  cases result with
  | error e => cases h
  | ok a => exact ⟨a, rfl, Except.ok.inj h⟩

theorem map_error_iff {ε α β : Type} {f : α → β} {result : Except ε α} :
    (∃ e, result.map f = .error e) ↔ ∃ e, result = .error e := by
  cases result with
  | error e => exact iff_of_true ⟨e, rfl⟩ ⟨e, rfl⟩
  | ok a =>
    refine iff_of_false ?_ ?_
    · rintro ⟨e, h⟩
      cases h
    · rintro ⟨e, h⟩
      cases h

/-- What the second pass emits for a literal. -/
theorem emitFrom_literal {occurrences bound : List ℕ} {used used' : List String}
    {segments : List Segment} {source : List Char} {statements : List Statement}
    (h : emitFrom kvs occurrences used bound (.literal source :: segments) =
      .ok (statements, used')) :
    ∃ rest, emitFrom kvs occurrences used bound segments = .ok (rest, used') ∧
      statements = .writeLiteral source :: rest := by
  obtain ⟨rest, hrest, heq⟩ := map_eq_ok h
  cases heq
  exact ⟨rest.1, hrest, rfl⟩

/-- What it emits for a placeholder. -/
theorem emitFrom_placeholder {occurrences bound : List ℕ} {used used' : List String}
    {segments : List Segment} {key : String} {statements : List Statement}
    (h : emitFrom kvs occurrences used bound (.placeholder key :: segments) =
      .ok (statements, used')) :
    ∃ idx rest, position kvs key = some idx ∧
      ((1 < occurrences.getD idx 0 ∧ idx ∈ bound ∧
          emitFrom kvs occurrences (key :: used) bound segments = .ok (rest, used') ∧
          statements = [.writeValRef idx] ++ rest) ∨
        (1 < occurrences.getD idx 0 ∧ idx ∉ bound ∧
          emitFrom kvs occurrences (key :: used) (idx :: bound) segments = .ok (rest, used') ∧
          statements = [.letVal idx (compiledAt kvs idx), .writeValRef idx] ++ rest) ∨
        (¬ 1 < occurrences.getD idx 0 ∧
          emitFrom kvs occurrences (key :: used) bound segments = .ok (rest, used') ∧
          statements = [.writeVal (compiledAt kvs idx)] ++ rest)) := by
  rw [emitFrom] at h
  cases hposition : position kvs key with
  | none =>
    rw [hposition] at h
    cases h
  | some idx =>
    rw [hposition] at h
    dsimp only at h
    split at h
    next htwice =>
      split at h
      next hbound =>
        obtain ⟨rest, hrest, heq⟩ := map_eq_ok h
        cases heq
        exact ⟨idx, rest.1, rfl, Or.inl ⟨htwice, hbound, hrest, rfl⟩⟩
      next hbound =>
        obtain ⟨rest, hrest, heq⟩ := map_eq_ok h
        cases heq
        exact ⟨idx, rest.1, rfl, Or.inr (Or.inl ⟨htwice, hbound, hrest, rfl⟩)⟩
    next honce =>
      obtain ⟨rest, hrest, heq⟩ := map_eq_ok h
      cases heq
      exact ⟨idx, rest.1, rfl, Or.inr (Or.inr ⟨honce, hrest, rfl⟩)⟩

theorem uses_placeholder {key : String} {idx : ℕ} (h : position kvs key = some idx)
    (segments : List Segment) : uses kvs (.placeholder key :: segments) = idx :: uses kvs segments :=
  List.filterMap_cons_some (f := Segment.argument kvs) h

theorem meaning_placeholder {key : String} {idx : ℕ} (h : position kvs key = some idx)
    (segments : List Segment) (values : ℕ → Loggable) :
    (Segment.placeholder key :: segments).flatMap (Segment.meaning kvs values) =
      .val (values idx) :: segments.flatMap (Segment.meaning kvs values) := by
  rw [List.flatMap_cons, Segment.meaning, h]
  rfl

/-- **The second pass**: its statements evaluate each argument that is used once, where it comes
first, and tell the formatter what the segments mean. -/
theorem emitFrom_runs (evaluate : TokenStream → σ → Loggable × σ) {occurrences : List ℕ}
    {segments : List Segment} (hliterals : Literals segments)
    {seen bound : List ℕ} {values : ℕ → Loggable} {frame : Frame σ}
    (h : Underway occurrences (uses kvs segments) seen bound values frame)
    {used used' : List String} {statements : List Statement}
    (hemit : emitFrom kvs occurrences used bound segments = .ok (statements, used')) :
    ∃ values', AgreeOn seen values values' ∧
      Runs (compiledAt kvs) evaluate statements frame (firstUses seen (uses kvs segments))
        (fun values => segments.flatMap (Segment.meaning kvs values)) values' := by
  induction segments generalizing seen bound values frame used statements with
  | nil =>
    cases hemit
    refine ⟨values, fun _ _ => rfl, frame, rfl, rfl, ?_⟩
    simp
  | cons segment segments ih =>
    cases segment with
    | literal source =>
      obtain ⟨text, htext⟩ := hliterals source (List.mem_cons_self ..)
      obtain ⟨rest, hrest, rfl⟩ := emitFrom_literal hemit
      obtain ⟨values', hagree, hruns⟩ := ih hliterals.tail
        (h.congr { frame with calls := frame.calls ++ [.literal (String.ofList text)] } rfl) hrest
      exact ⟨values', hagree, hruns.literal htext⟩
    | placeholder key =>
      obtain ⟨idx, rest, hposition, hcases⟩ := emitFrom_placeholder hemit
      rw [uses_placeholder hposition] at h ⊢
      simp only [meaning_placeholder hposition]
      by_cases hseen : idx ∈ seen
      · -- it comes again: its binding is referred to
        obtain ⟨htwice, hbound⟩ := h.mem_bound hseen
        obtain ⟨-, -, hrest, rfl⟩ | ⟨-, hunbound, -⟩ | ⟨honce, -⟩ := hcases
        · rw [firstUses, if_pos hseen]
          have hbinding := h.bindings idx hbound
          obtain ⟨values', hagree, hruns⟩ := ih hliterals.tail
            ((h.again hseen).congr { frame with calls := frame.calls ++ [.valRef (values idx)] } rfl)
            hrest
          exact ⟨values', hagree, hruns.again hbinding (hagree idx hseen)⟩
        · exact absurd hbound hunbound
        · exact absurd htwice honce
      · rw [firstUses, if_neg hseen]
        let evaluated := evaluate (compiledAt kvs idx) frame.world
        obtain ⟨htwice, hbound, -⟩ | ⟨htwice, hunbound, hrest, rfl⟩ | ⟨honce, hrest, rfl⟩ := hcases
        · exact absurd ((h.bound_iff idx).mp hbound).1 hseen
        · let next : Frame σ :=
            { world := evaluated.2, calls := frame.calls ++ [.valRef evaluated.1]
              bound := Function.update frame.bound idx (some evaluated.1) }
          obtain ⟨values', hagree, hruns⟩ := ih hliterals.tail
            (h.bind next hseen htwice rfl) hrest
          obtain ⟨hagree', hvalue⟩ := hagree.of_update hseen
          have hprologue : execAll evaluate
              [.letVal idx (compiledAt kvs idx), .writeValRef idx] frame = some next := by
            simp [execAll, Statement.exec, next, evaluated]
          have hnext : next.calls.map Write.written =
              (frame.calls ++ [Write.val evaluated.1]).map Write.written := by
            simp [next, Write.written]
          exact ⟨values', hagree', hruns.first hprologue rfl hnext hvalue⟩
        · let next : Frame σ :=
            { frame with world := evaluated.2, calls := frame.calls ++ [.val evaluated.1] }
          obtain ⟨values', hagree, hruns⟩ := ih hliterals.tail
            ((h.once hseen honce evaluated.1).congr next rfl) hrest
          obtain ⟨hagree', hvalue⟩ := hagree.of_update hseen
          have hprologue : execAll evaluate [.writeVal (compiledAt kvs idx)] frame = some next := rfl
          exact ⟨values', hagree', hruns.first hprologue rfl rfl hvalue⟩

/-- Printing the statements once more changes none of them. -/
theorem emitFrom_reparsed {occurrences bound : List ℕ} {used used' : List String}
    {segments : List Segment} {statements : List Statement}
    (h : emitFrom kvs occurrences used bound segments = .ok (statements, used')) :
    statements.map Statement.reparsed = statements := by
  induction segments generalizing used bound statements with
  | nil =>
    cases h
    rfl
  | cons segment segments ih =>
    cases segment with
    | literal source =>
      obtain ⟨rest, hrest, rfl⟩ := emitFrom_literal h
      rw [List.map_cons, ih hrest]
      rfl
    | placeholder key =>
      obtain ⟨idx, rest, -, ⟨-, -, hrest, rfl⟩ | ⟨-, -, hrest, rfl⟩ | ⟨-, hrest, rfl⟩⟩ :=
        emitFrom_placeholder h
      all_goals
        rw [List.map_append, ih hrest]
        simp [Statement.reparsed, compiledAt]

theorem trailing_reparsed (usedKeys : List String) (kvs : List (String × TokenStream)) :
    (trailing usedKeys kvs).map Statement.reparsed = trailing usedKeys kvs := by
  rw [trailing, List.map_flatMap]
  refine List.flatMap_congr fun pair _ => ?_
  split <;> simp [Statement.reparsed]

/-- The second pass stops at a placeholder that names no key, and nowhere else. -/
theorem emitFrom_error_iff {occurrences bound : List ℕ} {used : List String}
    {segments : List Segment} :
    (∃ message, emitFrom kvs occurrences used bound segments = .error message) ↔
      ∃ key, .placeholder key ∈ segments ∧ key ∉ kvs.map Prod.fst := by
  induction segments generalizing used bound with
  | nil =>
    refine iff_of_false ?_ ?_
    · rintro ⟨message, h⟩
      cases h
    · rintro ⟨key, hmem, -⟩
      cases hmem
  | cons segment segments ih =>
    cases segment with
    | literal source =>
      rw [emitFrom, map_error_iff, ih]
      simp
    | placeholder name =>
      rw [emitFrom]
      cases hposition : position kvs name with
      | none =>
        exact iff_of_true ⟨_, rfl⟩
          ⟨name, List.mem_cons_self .., position_eq_none.mp hposition⟩
      | some idx =>
        have hname : name ∈ kvs.map Prod.fst := by
          by_contra hno
          cases hposition.symm.trans (position_eq_none.mpr hno)
        have hsame : (∃ key, .placeholder key ∈ Segment.placeholder name :: segments ∧
              key ∉ kvs.map Prod.fst) ↔
            ∃ key, .placeholder key ∈ segments ∧ key ∉ kvs.map Prod.fst := by
          refine exists_congr fun key => and_congr_left fun hkey => ?_
          rw [List.mem_cons, Segment.placeholder.injEq]
          exact or_iff_right fun he => hkey (he ▸ hname)
        rw [hsame]
        dsimp only
        split
        · split <;> rw [map_error_iff, ih]
        · rw [map_error_iff, ih]

/-- It knows which keys it has used. -/
theorem mem_usedKeys {occurrences bound : List ℕ} {used used' : List String}
    {segments : List Segment} {statements : List Statement}
    (h : emitFrom kvs occurrences used bound segments = .ok (statements, used')) (key : String) :
    key ∈ used' ↔ key ∈ used ∨ .placeholder key ∈ segments := by
  induction segments generalizing used bound statements with
  | nil =>
    cases h
    simp
  | cons segment segments ih =>
    cases segment with
    | literal source =>
      obtain ⟨rest, hrest, -⟩ := emitFrom_literal h
      rw [ih hrest]
      simp
    | placeholder name =>
      have hstep {bound : List ℕ} {rest : List Statement}
          (hrest : emitFrom kvs occurrences (name :: used) bound segments = .ok (rest, used')) :
          key ∈ used' ↔ key ∈ used ∨ .placeholder key ∈ Segment.placeholder name :: segments := by
        rw [ih hrest, List.mem_cons, List.mem_cons, Segment.placeholder.injEq]
        exact ⟨by tauto, by tauto⟩
      obtain ⟨idx, rest, -, ⟨-, -, hrest, -⟩ | ⟨-, -, hrest, -⟩ | ⟨-, hrest, -⟩⟩ :=
        emitFrom_placeholder h
      · exact hstep hrest
      · exact hstep hrest
      · exact hstep hrest

end

end Logwise.Proc
