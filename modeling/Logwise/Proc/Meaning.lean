import Logwise.Proc.Expansion

/-!
# A logging macro means its format string

The statements of an accepted call, taken together: every literal run is itself the inside of a
string literal, the arguments are evaluated once each, and the formatter is told the format string
with the values in it and the fields after it. The arguments are those of the caller as far as their
tokens survive being printed.
-/

namespace Logwise.Proc

open Legacy (Loggable Write)
open StringLiteral (State run)

/-! ## Literal runs -/

/-- Where a valid literal can be between two items. -/
inductive Boundary (next : List Char) : State → Prop
  | text (skipping : Bool) : Boundary next (.text skipping)
  | high : Boundary next .high
  | low (digit : ℕ) : Boundary next (.low digit)
  | opening (h : next.head? ≠ some '{') : Boundary next .opening

/-- A brace in the text comes between two characters of the value. -/
theorem Boundary.brace {next rest : List Char} {state last : State} {c : Char} {added : List Char}
    (h : Boundary next state) (hnext : next = c :: rest) (hc : c = '{' ∨ c = '}')
    (hstep : StringLiteral.step state c = some (added, last)) :
    ∃ skipping, state = .text skipping := by
  subst hnext
  cases h with
  | text skipping => exact ⟨skipping, rfl⟩
  | high => obtain rfl | rfl := hc <;> cases hstep
  | low digit => obtain rfl | rfl := hc <;> cases hstep
  | opening hopen =>
    obtain rfl | rfl := hc
    · exact absurd rfl hopen
    · cases hstep

/-- A backslash does as well. -/
theorem Boundary.backslash {next rest : List Char} {state last : State} {value : List Char}
    (h : Boundary next state) (hrun : run state ('\\' :: rest) = some (value, last)) :
    ∃ skipping, state = .text skipping := by
  cases h with
  | text skipping => exact ⟨skipping, rfl⟩
  | high => cases hrun
  | low digit => cases hrun
  | opening hopen => cases hrun

theorem run_backslash (skipping : Bool) (text : List Char) :
    run (.text skipping) ('\\' :: text) = run .escaped text := by
  have hstep : StringLiteral.step (.text skipping) '\\' = some ([], .escaped) := by
    cases skipping <;> rfl
  rw [run, hstep, Option.bind_some]
  cases run .escaped text <;> rfl

theorem Boundary.plain {c : Char} {next added : List Char} {state last : State}
    (h : Boundary (c :: next) state) (hc : c ≠ '\\' ∧ c ≠ '{' ∧ c ≠ '}')
    (hstep : StringLiteral.step state c = some (added, last)) : Boundary next last := by
  cases h with
  | text skipping =>
    rw [StringLiteral.step] at hstep
    split at hstep
    · cases hstep
      exact .text true
    · rw [if_neg hc.1] at hstep
      split at hstep
      · cases hstep
      · cases hstep
        exact .text false
  | high =>
    obtain ⟨digit, -, heq⟩ := Option.map_eq_some_iff.mp hstep
    cases heq
    exact .low digit
  | low high =>
    obtain ⟨digit, -, heq⟩ := Option.map_eq_some_iff.mp hstep
    cases heq
    exact .text false
  | opening hopen =>
    rw [StringLiteral.step, if_neg hc.2.1] at hstep
    cases hstep

theorem boundary_escaped {c : Char} {next added : List Char} {last : State}
    (hc : ¬ (c = 'u' ∧ next.head? = some '{'))
    (hstep : StringLiteral.step .escaped c = some (added, last)) : Boundary next last := by
  rw [StringLiteral.step] at hstep
  split at hstep
  · cases hstep
    exact .high
  · split at hstep
    next hu =>
      cases hstep
      exact .opening fun hhead => hc ⟨hu, hhead⟩
    · split at hstep
      · cases hstep
        exact .text true
      · obtain ⟨value, -, heq⟩ := Option.map_eq_some_iff.mp hstep
        cases heq
        exact .text false

/-- One item of a literal run: the text is between two items again, and the item's source, with its
braces single, is read to the same place. -/
theorem Boundary.item {item : Item} {next added value : List Char} {state last : State}
    {skipping : Bool} (h : Boundary (item.print ++ next) state) (hfits : item.Fits next)
    (hliteral : ∀ key, item ≠ .placeholder key) (hrun : run state item.print = some (added, last))
    (hrest : run last next = some (value, .text skipping)) :
    Boundary next last ∧ ∃ added', run state item.source = some (added', last) := by
  cases item with
  | plain c => exact ⟨h.plain hfits (StringLiteral.step_of_run_singleton hrun), added, hrun⟩
  | brace c =>
    obtain ⟨first, middle, second, hfirst, hsecond, -⟩ :=
      StringLiteral.run_append_eq_some [c] [c] hrun
    obtain ⟨between, rfl⟩ := h.brace rfl hfits (StringLiteral.step_of_run_singleton hfirst)
    have hsource := StringLiteral.run_singleton (StringLiteral.step_text_brace between hfits)
    have hmiddle : middle = .text false := congrArg Prod.snd (Option.some.inj (hfirst.symm.trans hsource))
    subst hmiddle
    have hlast := hsecond.symm.trans
      (StringLiteral.run_singleton (StringLiteral.step_text_brace false hfits))
    cases hlast
    exact ⟨.text false, _, hsource⟩
  | escape c =>
    obtain ⟨between, rfl⟩ := h.backslash hrun
    refine ⟨?_, added, hrun⟩
    rw [Item.print, run_backslash] at hrun
    exact boundary_escaped hfits (StringLiteral.step_of_run_singleton hrun)
  | unicode payload =>
    obtain ⟨first, middle, second, -, hclose, -⟩ := StringLiteral.run_append_eq_some
      ('\\' :: 'u' :: '{' :: payload) ['}'] hrun
    have hlast := StringLiteral.step_close (StringLiteral.step_of_run_singleton hclose)
    subst hlast
    exact ⟨.text false, added, hrun⟩
  | placeholder key => exact absurd rfl (hliteral key)
  | stray =>
    have hlast := StringLiteral.step_close (StringLiteral.step_of_run_singleton hrun)
    subst hlast
    exact ⟨.text false, added, hrun⟩
  | dangling =>
    obtain ⟨between, rfl⟩ := h.backslash hrun
    rw [Item.print, run_backslash] at hrun
    cases hrun
    have hnext : next = [] := hfits
    subst hnext
    cases hrest
  | unclosed payload =>
    obtain ⟨between, rfl⟩ := h.backslash hrun
    obtain ⟨hclose, rfl⟩ := hfits
    obtain ⟨first, middle, second, hfirst, hsecond, -⟩ := StringLiteral.run_append_eq_some
      ['\\', 'u', '{'] payload hrun
    have hmiddle : run (.text between) ['\\', 'u', '{'] = some ([], .payload 0 0) := by
      cases between <;> rfl
    cases hfirst.symm.trans hmiddle
    obtain ⟨total, digits, rfl⟩ := StringLiteral.run_payload hclose hsecond
    cases hrest

theorem mem_flush {literal source : List Char} (h : .literal source ∈ flush literal) :
    source = literal := by
  rw [flush] at h
  split at h
  · cases h
  · cases List.mem_singleton.mp h
    rfl

/-- **Runs of a valid literal are valid**: cut out between two placeholders, with its braces single,
each is the inside of a literal of its own. -/
theorem literals_segmentsFrom {items : List Item} (hspelled : Spelled [] items)
    {literal value added : List Char} {state : State} {skipping : Bool}
    (hliteral : run (.text false) literal = some (added, state))
    (hboundary : Boundary (printItems items) state)
    (hrun : run state (printItems items) = some (value, .text skipping)) :
    Literals (segmentsFrom literal items) := by
  induction items generalizing literal value added state with
  | nil =>
    cases hrun
    intro source hsource
    rw [mem_flush hsource]
    exact ⟨added, StringLiteral.decode_of_run hliteral⟩
  | cons item items ih =>
    obtain ⟨hfits, hrest⟩ := hspelled
    rw [List.append_nil] at hfits
    have hprint : printItems (item :: items) = item.print ++ printItems items := rfl
    rw [hprint] at hrun hboundary
    obtain ⟨first, middle, second, hfirst, hsecond, -⟩ := StringLiteral.run_append_eq_some _ _ hrun
    cases item with
    | placeholder key =>
      -- the run ends here, and the next one begins after the closing brace
      obtain ⟨brace, opened, inside, hopen, -, -⟩ := StringLiteral.run_append_eq_some
        ['{'] (key ++ ['}']) hfirst
      obtain ⟨between, rfl⟩ := hboundary.brace rfl (Or.inl rfl)
        (StringLiteral.step_of_run_singleton hopen)
      obtain ⟨before, closing, brace', -, hclose, -⟩ := StringLiteral.run_append_eq_some
        ('{' :: key) ['}'] hfirst
      have hmiddle := StringLiteral.step_close (StringLiteral.step_of_run_singleton hclose)
      subst hmiddle
      have hempty : run (.text false) [] = some ([], .text false) := rfl
      have hnext := ih hrest hempty (.text false) hsecond
      intro source hsource
      obtain hflush | hsource := List.mem_append.mp hsource
      · rw [mem_flush hflush]
        exact ⟨added, StringLiteral.decode_of_run hliteral⟩
      · obtain hplaceholder | hsource := List.mem_cons.mp hsource
        · cases hplaceholder
        · exact hnext source hsource
    | _ =>
      obtain ⟨hnext, added', hsource⟩ :=
        hboundary.item hfits (fun key hkey => by cases hkey) hfirst hsecond
      exact ih hrest (StringLiteral.run_append_of_eq_some hliteral hsource) hnext hsecond

/-- A literal token without its quotes. -/
structure FormatLiteral where
  body : List Char
  valid : ∃ value, StringLiteral.decode body = some value

namespace FormatLiteral

def token (literal : FormatLiteral) : TokenTree :=
  .literal (String.ofList ('"' :: (literal.body ++ ['"'])))

theorem literals (literal : FormatLiteral) {items : List Item}
    (hbody : literal.body = printItems items) (hspelled : Spelled [] items) :
    Literals (segmentsFrom [] items) := by
  obtain ⟨value, hvalue⟩ := literal.valid
  obtain ⟨skipping, hrun⟩ := StringLiteral.run_of_decode hvalue
  rw [hbody] at hrun
  exact literals_segmentsFrom hspelled rfl (.text false) hrun

theorem lformatImpl_token (literal : FormatLiteral) (display : Delimiter → TokenStream → String)
    (args : TokenStream) :
    lformatImpl display (literal.token :: args) = lformatBody display literal.body args := by
  have hlast : ('"' :: (literal.body ++ ['"'])).getLast? = some '"' := by
    rw [← List.cons_append, List.getLast?_append]
    rfl
  rw [token, lformatImpl, String.toList_ofList, if_pos ⟨rfl, hlast⟩, List.tail_cons,
    List.dropLast_concat]

end FormatLiteral

/-! ## The order of evaluation -/

section

variable {σ : Type} {kvs : List (String × TokenStream)} {segments : List Segment}
  {evaluate : TokenStream → σ → Loggable × σ}

theorem mem_firstUses {seen uses : List ℕ} {idx : ℕ} :
    idx ∈ firstUses seen uses ↔ idx ∈ uses ∧ idx ∉ seen := by
  induction uses generalizing seen with
  | nil => simp [firstUses]
  | cons use uses ih =>
    rw [firstUses]
    split
    next hseen =>
      rw [ih, List.mem_cons]
      exact ⟨fun h => ⟨Or.inr h.1, h.2⟩, fun h =>
        ⟨h.1.resolve_left fun he => h.2 (he ▸ hseen), h.2⟩⟩
    next hseen =>
      rw [List.mem_cons, List.mem_cons, ih, List.mem_cons, not_or]
      constructor
      · rintro (rfl | ⟨hmem, -, hnew⟩)
        · exact ⟨Or.inl rfl, hseen⟩
        · exact ⟨Or.inr hmem, hnew⟩
      · rintro ⟨rfl | hmem, hnew⟩
        · exact Or.inl rfl
        · by_cases he : idx = use
          · exact Or.inl he
          · exact Or.inr ⟨hmem, he, hnew⟩

theorem nodup_firstUses (seen uses : List ℕ) : (firstUses seen uses).Nodup := by
  induction uses generalizing seen with
  | nil => exact List.nodup_nil
  | cons use uses ih =>
    rw [firstUses]
    split
    · exact ih seen
    · refine List.nodup_cons.mpr ⟨fun hmem => ?_, ih _⟩
      exact (mem_firstUses.mp hmem).2 (List.mem_cons_self ..)

theorem lt_length_of_mem_uses {idx : ℕ} (h : idx ∈ uses kvs segments) : idx < kvs.length := by
  obtain ⟨key, -, hposition⟩ := mem_uses.mp h
  obtain ⟨value, hvalue⟩ := exists_of_position hposition
  exact (List.getElem?_eq_some_iff.mp hvalue).1

theorem mem_uninterpolated {idx : ℕ} :
    idx ∈ uninterpolated kvs segments ↔ idx < kvs.length ∧ idx ∉ uses kvs segments := by
  simp [uninterpolated]

theorem nodup_uninterpolated (kvs : List (String × TokenStream)) (segments : List Segment) :
    (uninterpolated kvs segments).Nodup :=
  List.nodup_range.filter _

/-- Every argument is evaluated, and none twice. -/
theorem evaluationOrder_perm (kvs : List (String × TokenStream)) (segments : List Segment) :
    (evaluationOrder kvs segments).Perm (List.range kvs.length) := by
  have hnodup : (evaluationOrder kvs segments).Nodup := by
    rw [evaluationOrder, List.nodup_append]
    refine ⟨nodup_firstUses .., nodup_uninterpolated kvs segments, fun i hi j hj hij => ?_⟩
    exact (mem_uninterpolated.mp hj).2 (hij ▸ (mem_firstUses.mp hi).1)
  refine (List.perm_ext_iff_of_nodup hnodup List.nodup_range).mpr fun idx => ?_
  rw [evaluationOrder, List.mem_append, mem_firstUses, mem_uninterpolated, List.mem_range]
  constructor
  · rintro (⟨hmem, -⟩ | ⟨hlt, -⟩)
    · exact lt_length_of_mem_uses hmem
    · exact hlt
  · intro hlt
    by_cases hmem : idx ∈ uses kvs segments
    · exact Or.inl ⟨hmem, List.not_mem_nil⟩
    · exact Or.inr ⟨hlt, hmem⟩

/-! ## The fields after the message -/

def fieldStatements (kvs : List (String × TokenStream)) (idx : ℕ) : List Statement :=
  [.writeText (" " ++ keyAt kvs idx ++ "="), .writeVal (compiledAt kvs idx)]

theorem map_range_pairs (kvs : List (String × TokenStream)) :
    (List.range kvs.length).map (fun idx => (keyAt kvs idx, valueAt kvs idx)) = kvs := by
  refine List.ext_getElem (by simp) fun idx h h' => ?_
  simp [keyAt, valueAt, List.getElem?_eq_getElem h']

theorem flatMap_filter {α β : Type} (p : α → Bool) (f : α → List β) (items : List α) :
    (items.filter p).flatMap f = items.flatMap fun a => if p a then f a else [] := by
  induction items with
  | nil => rfl
  | cons a items ih =>
    rw [List.filter_cons, List.flatMap_cons]
    split
    · rw [List.flatMap_cons, ih]
    · exact ih

/-- The fields that are left out of the message are those no placeholder names. -/
theorem trailing_eq (hkvs : (kvs.map Prod.fst).Nodup) {usedKeys : List String}
    (hused : ∀ key, key ∈ usedKeys ↔ .placeholder key ∈ segments) :
    trailing usedKeys kvs = (uninterpolated kvs segments).flatMap (fieldStatements kvs) := by
  have hkey : ∀ idx ∈ List.range kvs.length,
      keyAt kvs idx ∈ usedKeys ↔ idx ∈ uses kvs segments := by
    intro idx hidx
    have hget : kvs[idx]? = some (keyAt kvs idx, valueAt kvs idx) := by
      rw [keyAt, valueAt, List.getElem?_eq_getElem (List.mem_range.mp hidx)]
      rfl
    rw [hused, mem_uses]
    constructor
    · exact fun hmem => ⟨_, hmem, position_of_getElem? hkvs hget⟩
    · rintro ⟨key, hmem, hposition⟩
      obtain ⟨value, hvalue⟩ := exists_of_position hposition
      cases hget.symm.trans hvalue
      exact hmem
  rw [uninterpolated, flatMap_filter, trailing]
  conv_lhs => rw [← map_range_pairs kvs, List.flatMap_map]
  refine List.flatMap_congr fun idx hidx => ?_
  by_cases hmem : idx ∈ uses kvs segments
  · simp [hmem, (hkey idx hidx).mpr hmem]
  · simp [hmem, mt (hkey idx hidx).mp hmem, fieldStatements, compiledAt]

/-- Each field is a text and the value after it. -/
theorem fields_run (kvs : List (String × TokenStream))
    (evaluate : TokenStream → σ → Loggable × σ) {order : List ℕ} (hnodup : order.Nodup)
    (values : ℕ → Loggable) (frame : Frame σ) :
    ∃ values', (∀ idx, idx ∉ order → values' idx = values idx) ∧
      Runs (compiledAt kvs) evaluate (order.flatMap (fieldStatements kvs)) frame order
        (fun values => order.flatMap (fieldMeaning kvs values)) values' := by
  induction order generalizing values frame with
  | nil =>
    refine ⟨values, fun _ _ => rfl, frame, rfl, rfl, ?_⟩
    simp
  | cons idx order ih =>
    obtain ⟨hnew, hrest⟩ := List.nodup_cons.mp hnodup
    let evaluated := evaluate (compiledAt kvs idx) frame.world
    let named : Write := .literal (" " ++ keyAt kvs idx ++ "=")
    let next : Frame σ :=
      { frame with world := evaluated.2, calls := frame.calls ++ [named] ++ [.val evaluated.1] }
    obtain ⟨values', hagree, final, hexec, hevaluated, hcalls⟩ :=
      ih hrest (Function.update values idx evaluated.1) next
    have hvalue : values' idx = evaluated.1 := by
      rw [hagree idx hnew, Function.update_self]
    refine ⟨values', fun i hi => ?_, final, hexec, ?_, ?_⟩
    · obtain ⟨hne, hi⟩ := List.ne_and_not_mem_of_not_mem_cons hi
      rw [hagree i hi, Function.update_of_ne hne]
    · rw [List.map_cons, List.map_cons, evaluateAll, hvalue]
      exact congrArg (fun rest : List Loggable × σ => (evaluated.1 :: rest.1, rest.2)) hevaluated
    · rw [hcalls, List.append_assoc, List.append_assoc, ← hvalue]
      rfl

/-! ## The whole call -/

/-- The statements of a message and of its fields, one after the other. -/
theorem Runs.append {tokens : ℕ → TokenStream} {first second : List Statement}
    {frame final : Frame σ} {order order' : List ℕ}
    {told told' : (ℕ → Loggable) → List Write} {values : ℕ → Loggable}
    (hexec : execAll evaluate first frame = some final)
    (hevaluated : evaluateAll evaluate (order.map tokens) frame.world =
      (order.map values, final.world))
    (hcalls : final.calls.map Write.written = (frame.calls ++ told values).map Write.written)
    (h : Runs tokens evaluate second final order' told' values) :
    Runs tokens evaluate (first ++ second) frame (order ++ order')
      (fun values => told values ++ told' values) values := by
  obtain ⟨last, hexec', hevaluated', hcalls'⟩ := h
  refine ⟨last, ?_, ?_, ?_⟩
  · rw [execAll_append, hexec]
    exact hexec'
  · rw [List.map_append, evaluateAll_append, hevaluated, hevaluated', List.map_append]
  · rw [hcalls', List.map_append, hcalls, ← List.map_append, List.append_assoc]

/-- Before the first segment nothing has been used. -/
theorem underway_start (kvs : List (String × TokenStream)) (segments : List Segment)
    (values : ℕ → Loggable) (frame : Frame σ) :
    Underway (countOccurrences kvs segments) (uses kvs segments) [] [] values frame where
  unseen := fun idx _ => getD_countOccurrences kvs segments idx
  repeated := fun idx h => by cases h
  bound_iff := fun idx => by simp
  bindings := fun idx h => by cases h

/-- A segment's meaning depends on the values of the arguments it uses. -/
theorem meaning_congr {values values' : ℕ → Loggable}
    (h : ∀ idx ∈ uses kvs segments, values' idx = values idx) :
    segments.flatMap (Segment.meaning kvs values') = segments.flatMap (Segment.meaning kvs values) := by
  refine List.flatMap_congr fun segment hsegment => ?_
  cases segment with
  | literal source => rfl
  | placeholder key =>
    rw [Segment.meaning, Segment.meaning]
    cases hposition : position kvs key with
    | none => rfl
    | some idx => simp [h idx (mem_uses.mpr ⟨key, hsegment, hposition⟩)]

/-- The statements of both passes do what the format string means. -/
theorem source_runs (hkvs : (kvs.map Prod.fst).Nodup)
    (hliterals : Literals segments) {source : List Statement} {usedKeys : List String}
    (hemit : emitFrom kvs (countOccurrences kvs segments) [] [] segments = .ok (source, usedKeys))
    (frame : Frame σ) :
    ∃ values, Runs (compiledAt kvs) evaluate (source ++ trailing usedKeys kvs) frame
      (evaluationOrder kvs segments) (fun values => meaning kvs values segments) values := by
  have hused : ∀ key, key ∈ usedKeys ↔ .placeholder key ∈ segments := fun key => by
    rw [mem_usedKeys hemit key]
    simp
  obtain ⟨values, -, final, hexec, hevaluated, hcalls⟩ := emitFrom_runs
    evaluate hliterals (underway_start kvs segments (fun _ => .shown "") frame) hemit
  obtain ⟨values', hagree, hfields⟩ := fields_run kvs evaluate
    (nodup_uninterpolated kvs segments) values final
  have hsame : ∀ idx ∈ uses kvs segments, values' idx = values idx := fun idx hidx =>
    hagree idx fun hno => (mem_uninterpolated.mp hno).2 hidx
  have horder : (firstUses [] (uses kvs segments)).map values =
      (firstUses [] (uses kvs segments)).map values' :=
    List.map_congr_left fun idx hidx => (hsame idx (mem_firstUses.mp hidx).1).symm
  refine ⟨values', ?_⟩
  rw [trailing_eq hkvs hused]
  refine Runs.append hexec ?_ ?_ hfields
  · rw [hevaluated, horder]
  · rw [hcalls]
    dsimp only
    rw [meaning_congr hsame]

/-- What is written says what the values are. -/
theorem eq_of_flatMap_eq {α β : Type} {items : List α} {f g : α → List β}
    (hlength : ∀ a, (f a).length = (g a).length) (h : items.flatMap f = items.flatMap g) :
    ∀ a ∈ items, f a = g a := by
  induction items with
  | nil => exact fun a ha => by cases ha
  | cons item items ih =>
    rw [List.flatMap_cons, List.flatMap_cons] at h
    obtain ⟨hitem, hitems⟩ := List.append_inj h (hlength item)
    intro a ha
    obtain rfl | ha := List.mem_cons.mp ha
    · exact hitem
    · exact ih hitems a ha

/-- The values of a call can be read off what it writes. -/
theorem eq_of_meaning_eq {values values' : ℕ → Loggable}
    (h : (meaning kvs values segments).map Write.written =
      (meaning kvs values' segments).map Write.written) :
    ∀ idx ∈ evaluationOrder kvs segments, values idx = values' idx := by
  have hsegment : ∀ segment : Segment, ((segment.meaning kvs values).map Write.written).length =
      ((segment.meaning kvs values').map Write.written).length := fun segment => by
    cases segment <;> simp [Segment.meaning]
  have hfield : ∀ idx, ((fieldMeaning kvs values idx).map Write.written).length =
      ((fieldMeaning kvs values' idx).map Write.written).length := fun idx => rfl
  rw [meaning, meaning, List.map_append, List.map_append, List.map_flatMap, List.map_flatMap,
    List.map_flatMap, List.map_flatMap] at h
  obtain ⟨hsegments, hfields⟩ := List.append_inj h (by simp only [List.length_flatMap, hsegment])
  intro idx hidx
  obtain huse | hrest := List.mem_append.mp hidx
  · obtain ⟨key, hmem, hposition⟩ := mem_uses.mp (mem_firstUses.mp huse).1
    have hsame := eq_of_flatMap_eq hsegment hsegments _ hmem
    rw [Segment.meaning, Segment.meaning, hposition] at hsame
    exact Sum.inr.inj (List.cons.inj hsame).1
  · have hsame := eq_of_flatMap_eq hfield hfields _ hrest
    exact Sum.inr.inj (List.cons.inj (List.cons.inj hsame).2).1

end

/-- The text is these segments. -/
def IsFormat (body : List Char) (segments : List Segment) : Prop :=
  ∃ items, body = printItems items ∧ Spelled [] items ∧ segments = segmentsFrom [] items

section

variable {display : Delimiter → TokenStream → String} {args : TokenStream}

theorem buildKvs_duplicate {pairs : List (String × TokenStream)}
    (h : IsArguments display args pairs) (hdup : ¬ (pairs.map Prod.fst).Nodup) :
    ∃ message, buildKvs display args = .error message := by
  obtain ⟨-, rfl⟩ | ⟨comma, rest, rfl, hrest⟩ := h
  · exact absurd List.nodup_nil hdup
  · have hstart : (([] : List (String × TokenStream)).map Prod.fst).Nodup := List.nodup_nil
    obtain ⟨key, hkey⟩ := hrest.duplicate hstart hdup
    exact ⟨_, (buildKvs_comma comma rest).trans hkey⟩

/-- What `build_kvs` refuses. -/
theorem buildKvs_error_iff : (∃ message, buildKvs display args = .error message) ↔
    (¬ ∃ pairs, IsArguments display args pairs) ∨
      ∃ pairs, IsArguments display args pairs ∧ ¬ (pairs.map Prod.fst).Nodup := by
  constructor
  · rintro ⟨message, herror⟩
    by_cases hsome : ∃ pairs, IsArguments display args pairs
    · obtain ⟨pairs, hpairs⟩ := hsome
      refine Or.inr ⟨pairs, hpairs, fun hnodup => ?_⟩
      cases herror.symm.trans (buildKvs_ok_iff.mpr ⟨hpairs, hnodup⟩)
    · exact Or.inl hsome
  · rintro (hnone | ⟨pairs, hpairs, hdup⟩)
    · cases hbuild : buildKvs display args with
      | error message => exact ⟨message, rfl⟩
      | ok pairs => exact absurd ⟨pairs, (buildKvs_ok_iff.mp hbuild).1⟩ hnone
    · exact buildKvs_duplicate hpairs hdup

/-- A list of arguments is read in one way. -/
theorem IsArguments.unique {pairs found : List (String × TokenStream)}
    (h : IsArguments display args pairs) (hbuild : buildKvs display args = .ok found) :
    pairs = found := by
  by_cases hnodup : (pairs.map Prod.fst).Nodup
  · exact Except.ok.inj ((buildKvs_ok_iff.mpr ⟨h, hnodup⟩).symm.trans hbuild)
  · obtain ⟨message, herror⟩ := buildKvs_duplicate h hnodup
    cases herror.symm.trans hbuild

variable {body : List Char}

theorem lformatBody_ok {statements : List Statement}
    (h : (lformatBody display body args).output = .ok statements) :
    ∃ kvs segments source usedKeys, buildKvs display args = .ok kvs ∧
      scanFormatString body = .ok segments ∧
      emitFrom kvs (countOccurrences kvs segments) [] [] segments = .ok (source, usedKeys) ∧
      statements = source ++ trailing usedKeys kvs := by
  rw [lformatBody] at h
  split at h
  · cases h
  next kvs hkvs =>
    split at h
    · cases h
    next segments hsegments =>
      split at h
      · cases h
      next source usedKeys hemit =>
        cases h
        exact ⟨kvs, segments, source, usedKeys, hkvs, hsegments, hemit, rfl⟩

theorem lformatBody_error_iff :
    (∃ message, (lformatBody display body args).output = .error message) ↔
      (∃ message, buildKvs display args = .error message) ∨
      (∃ message, scanFormatString body = .error message) ∨
      ∃ kvs segments, buildKvs display args = .ok kvs ∧ scanFormatString body = .ok segments ∧
        ∃ message, emitFrom kvs (countOccurrences kvs segments) [] [] segments = .error message := by
  rw [lformatBody]
  cases hkvs : buildKvs display args with
  | error message => simp [failed]
  | ok kvs =>
    cases hsegments : scanFormatString body with
    | error message => simp [failed]
    | ok segments =>
      cases hemit : emitFrom kvs (countOccurrences kvs segments) [] [] segments with
      | error message => simp [failed, hemit]
      | ok emitted => simp [hemit]

end

/-! ## Calls -/

/-- A call with an ordinary literal is read as these arguments and this text. -/
structure Reads (display : Delimiter → TokenStream → String) (literal : FormatLiteral)
    (args : TokenStream) (pairs : List (String × TokenStream)) (segments : List Segment) : Prop where
  arguments : IsArguments display args pairs
  nodup : (pairs.map Prod.fst).Nodup
  format : IsFormat literal.body segments
  known : ∀ key, .placeholder key ∈ segments → key ∈ pairs.map Prod.fst

/-- Every argument has a key and a value. -/
def KeyValuePairs (display : Delimiter → TokenStream → String) (args : TokenStream) : Prop :=
  ∃ pairs, IsArguments display args pairs ∧ ∀ pair ∈ pairs, pair.1 ≠ "" ∧ pair.2 ≠ []

/-- How an item is written in a raw literal, where nothing is escaped. -/
def Item.rawPrint : Item → List Char
  | .escape c => [c]
  | item => item.print

/-- The items of a raw literal: what an ordinary one has to escape are a backslash and a quote. -/
def Item.IsRaw : Item → Prop
  | .plain c => c ≠ '"'
  | .escape c => c = '\\' ∨ c = '"'
  | .brace _ | .placeholder _ | .stray => True
  | .unicode _ | .dangling | .unclosed _ => False

/-- A raw string literal: the first quote with that many hashes after it is its end. -/
structure RawLiteral where
  hashes : ℕ
  body : List Char
  unclosed : ¬ ('"' :: List.replicate hashes '#') <:+: body
  no_return : '\r' ∉ body

namespace RawLiteral

def token (literal : RawLiteral) : TokenTree :=
  .literal (String.ofList ('r' :: (List.replicate literal.hashes '#' ++
    '"' :: (literal.body ++ '"' :: List.replicate literal.hashes '#'))))

/-- The text is these segments, spelled as in an ordinary literal. -/
def IsFormat (literal : RawLiteral) (segments : List Segment) : Prop :=
  ∃ items, literal.body = items.flatMap Item.rawPrint ∧ (∀ item ∈ items, item.IsRaw) ∧
    Spelled [] items ∧ segments = segmentsFrom [] items

def Unterminated (literal : RawLiteral) : Prop :=
  ∃ items rest, literal.body = items.flatMap Item.rawPrint ++ rest ∧
    (∀ item ∈ items, item.IsRaw) ∧ Spelled rest items ∧ Opened rest

end RawLiteral

/-- The string literals of the language. -/
inductive StringToken where
  | ordinary (literal : FormatLiteral)
  | raw (literal : RawLiteral)

namespace StringToken

def token : StringToken → TokenTree
  | .ordinary literal => literal.token
  | .raw literal => literal.token

def IsFormat : StringToken → List Segment → Prop
  | .ordinary literal => Proc.IsFormat literal.body
  | .raw literal => literal.IsFormat

def Unterminated : StringToken → Prop
  | .ordinary literal => Proc.Unterminated literal.body
  | .raw literal => literal.Unterminated

end StringToken

/-- What a call is to be refused for. -/
def Faulty (display : Delimiter → TokenStream → String) (literal : StringToken)
    (args : TokenStream) : Prop :=
  ¬ KeyValuePairs display args ∨
    (∃ pairs, IsArguments display args pairs ∧ ¬ (pairs.map Prod.fst).Nodup) ∨
    literal.Unterminated ∨
    ∃ pairs segments key, IsArguments display args pairs ∧ literal.IsFormat segments ∧
      .placeholder key ∈ segments ∧ key ∉ pairs.map Prod.fst

/-- The expansion of a call means its format string: what is accepted evaluates the values the
caller wrote, each once, in the order of their first placeholders and then of the call site, and
writes the literal runs, the values in place and the fields after them; what is refused has a
fault. -/
structure MeansFormat {σ : Type} (display : Delimiter → TokenStream → String)
    (evaluate : TokenStream → σ → Loggable × σ) (literal : StringToken) (args : TokenStream) :
    Prop where
  accepted : ∀ statements, (lformatImpl display (literal.token :: args)).output = .ok statements →
    ∃ pairs segments, IsArguments display args pairs ∧ literal.IsFormat segments ∧
      Literals segments ∧ (evaluationOrder pairs segments).Perm (List.range pairs.length) ∧
      ∀ frame : Frame σ, ∃ values,
        Runs (valueAt pairs) evaluate statements frame (evaluationOrder pairs segments)
          (fun values => meaning pairs values segments) values
  refused : (∃ message, (lformatImpl display (literal.token :: args)).output = .error message) ↔
    Faulty display literal args

/-- Evaluated one after the other, the values come to the same when they have been printed and
parsed again. -/
def KeepsMeaning {σ : Type} (evaluate : TokenStream → σ → Loggable × σ)
    (pairs : List (String × TokenStream)) (order : List ℕ) : Prop :=
  ∀ world, evaluateAll evaluate (order.map (compiledAt pairs)) world =
    evaluateAll evaluate (order.map (valueAt pairs)) world

/-- It makes no difference to values that are printed without loss. -/
theorem keepsMeaning_of_lossless {σ : Type} (evaluate : TokenStream → σ → Loggable × σ)
    {pairs : List (String × TokenStream)} (h : ∀ pair ∈ pairs, lossless pair.2 = true)
    (order : List ℕ) : KeepsMeaning evaluate pairs order := by
  have hsame : compiledAt pairs = valueAt pairs := by
    funext idx
    rw [compiledAt, valueAt]
    cases hget : pairs[idx]? with
    | none => rfl
    | some pair => exact reparsed_of_lossless _ (h pair (List.mem_of_getElem? hget))
  intro world
  rw [hsame]

section

variable {display : Delimiter → TokenStream → String} {literal : FormatLiteral} {args : TokenStream}
  {pairs : List (String × TokenStream)} {segments : List Segment}

theorem Reads.buildKvs (h : Reads display literal args pairs segments) :
    Proc.buildKvs display args = .ok pairs :=
  buildKvs_ok_iff.mpr ⟨h.arguments, h.nodup⟩

theorem Reads.scan (h : Reads display literal args pairs segments) :
    scanFormatString literal.body = .ok segments :=
  scanFormatString_ok_iff.mpr h.format

theorem Reads.emits (h : Reads display literal args pairs segments) :
    ∃ source usedKeys, emitFrom pairs (countOccurrences pairs segments) [] [] segments =
        .ok (source, usedKeys) ∧
      (lformatImpl display (literal.token :: args)).output = .ok (source ++ trailing usedKeys pairs) := by
  cases hemit : emitFrom pairs (countOccurrences pairs segments) [] [] segments with
  | error message =>
    obtain ⟨key, hmem, hkey⟩ := emitFrom_error_iff.mp ⟨message, hemit⟩
    exact absurd (h.known key hmem) hkey
  | ok emitted =>
    refine ⟨emitted.1, emitted.2, rfl, ?_⟩
    rw [literal.lformatImpl_token, lformatBody, h.buildKvs]
    dsimp only
    rw [h.scan]
    dsimp only
    rw [hemit]

/-- `lformat_impl` accepts what can be read. -/
theorem exists_output_iff :
    (∃ statements, (lformatImpl display (literal.token :: args)).output = .ok statements) ↔
      ∃ pairs segments, Reads display literal args pairs segments := by
  constructor
  · rintro ⟨statements, h⟩
    rw [literal.lformatImpl_token] at h
    obtain ⟨pairs, segments, source, usedKeys, hkvs, hscan, hemit, -⟩ := lformatBody_ok h
    obtain ⟨harguments, hnodup⟩ := buildKvs_ok_iff.mp hkvs
    refine ⟨pairs, segments, harguments, hnodup, scanFormatString_ok_iff.mp hscan, ?_⟩
    intro key hmem
    by_contra hkey
    obtain ⟨message, herror⟩ := emitFrom_error_iff.mpr ⟨key, hmem, hkey⟩
    cases hemit.symm.trans herror
  · rintro ⟨pairs, segments, h⟩
    obtain ⟨source, usedKeys, -, houtput⟩ := h.emits
    exact ⟨_, houtput⟩

/-- The statements of a call fill a record as the call says, with the values as they come back from
being printed. -/
theorem Reads.runs (h : Reads display literal args pairs segments) {statements : List Statement}
    (houtput : (lformatImpl display (literal.token :: args)).output = .ok statements) {σ : Type}
    (evaluate : TokenStream → σ → Loggable × σ) (frame : Frame σ) :
    ∃ values, Runs (compiledAt pairs) evaluate statements frame (evaluationOrder pairs segments)
      (fun values => meaning pairs values segments) values := by
  obtain ⟨source, usedKeys, hemit, hemitted⟩ := h.emits
  obtain rfl := Except.ok.inj (houtput.symm.trans hemitted)
  obtain ⟨items, hbody, hspelled, rfl⟩ := h.format
  exact source_runs h.nodup (literal.literals hbody hspelled) hemit frame

/-- A call is read in one way. -/
theorem Reads.unique (h : Reads display literal args pairs segments)
    {pairs' : List (String × TokenStream)} {segments' : List Segment}
    (hpairs : IsArguments display args pairs') (hformat : IsFormat literal.body segments') :
    pairs' = pairs ∧ segments' = segments :=
  ⟨hpairs.unique h.buildKvs,
    Except.ok.inj ((scanFormatString_ok_iff.mpr hformat).symm.trans h.scan)⟩

theorem output_error_iff :
    (∃ message, (lformatImpl display (literal.token :: args)).output = .error message) ↔
      ¬ ∃ pairs segments, Reads display literal args pairs segments := by
  rw [← exists_output_iff]
  cases (lformatImpl display (literal.token :: args)).output with
  | error message => simp
  | ok statements => simp

/-- What cannot be read has a fault. -/
theorem faulty_of_unread (h : ¬ ∃ pairs segments, Reads display literal args pairs segments) :
    Faulty display (.ordinary literal) args := by
  rw [← output_error_iff, literal.lformatImpl_token, lformatBody_error_iff] at h
  obtain hkvs | ⟨message, hscan⟩ | ⟨pairs, segments, hkvs, hscan, hemit⟩ := h
  · obtain hnone | hdup := buildKvs_error_iff.mp hkvs
    · exact Or.inl fun ⟨pairs, hpairs, _⟩ => hnone ⟨pairs, hpairs⟩
    · exact Or.inr (Or.inl hdup)
  · exact Or.inr (Or.inr (Or.inl (scanFormatString_error_iff.mp hscan).2))
  · obtain ⟨key, hmem, hkey⟩ := emitFrom_error_iff.mp hemit
    exact Or.inr (Or.inr (Or.inr ⟨pairs, segments, key, (buildKvs_ok_iff.mp hkvs).1,
      scanFormatString_ok_iff.mp hscan, hmem, hkey⟩))

/-- A call that is read has no fault but an argument without a key or a value. -/
theorem Reads.faulty_iff (h : Reads display literal args pairs segments) :
    Faulty display (.ordinary literal) args ↔ ¬ ∀ pair ∈ pairs, pair.1 ≠ "" ∧ pair.2 ≠ [] := by
  constructor
  · rintro (hno | ⟨pairs', hpairs, hdup⟩ | hopen | ⟨pairs', segments', key, hpairs, hformat, hmem, hkey⟩)
    · exact fun hall => hno ⟨pairs, h.arguments, hall⟩
    · obtain rfl := hpairs.unique h.buildKvs
      exact absurd h.nodup hdup
    · have hscan := scanFormatString_error_iff.mpr ⟨rfl, hopen⟩
      cases hscan.symm.trans h.scan
    · obtain ⟨rfl, rfl⟩ := h.unique hpairs hformat
      exact absurd (h.known key hmem) hkey
  · rintro hall
    refine Or.inl ?_
    rintro ⟨pairs', hpairs, hpairs'⟩
    obtain rfl := hpairs.unique h.buildKvs
    exact hall hpairs'

section

variable {σ : Type} {evaluate : TokenStream → σ → Loggable × σ} {statements : List Statement}
  {frame : Frame σ} {values values' : ℕ → Loggable}

/-- Two readings of one run agree on what the arguments came to. -/
theorem Runs.evaluated_eq {tokens tokens' : ℕ → TokenStream}
    (h : Runs tokens evaluate statements frame (evaluationOrder pairs segments)
      (fun values => meaning pairs values segments) values)
    (h' : Runs tokens' evaluate statements frame (evaluationOrder pairs segments)
      (fun values => meaning pairs values segments) values') :
    evaluateAll evaluate ((evaluationOrder pairs segments).map tokens) frame.world =
      evaluateAll evaluate ((evaluationOrder pairs segments).map tokens') frame.world := by
  obtain ⟨final, hexec, hevaluated, hcalls⟩ := h
  obtain ⟨final', hexec', hevaluated', hcalls'⟩ := h'
  obtain rfl := Option.some.inj (hexec.symm.trans hexec')
  have hwritten := hcalls.symm.trans hcalls'
  rw [List.map_append, List.map_append] at hwritten
  have hvalues := eq_of_meaning_eq (List.append_cancel_left hwritten)
  rw [hevaluated, hevaluated', List.map_congr_left hvalues]

theorem Runs.of_evaluated_eq {tokens tokens' : ℕ → TokenStream} {order : List ℕ}
    {told : (ℕ → Loggable) → List Write}
    (h : Runs tokens evaluate statements frame order told values)
    (hsame : evaluateAll evaluate (order.map tokens) frame.world =
      evaluateAll evaluate (order.map tokens') frame.world) :
    Runs tokens' evaluate statements frame order told values := by
  obtain ⟨final, hexec, hevaluated, hcalls⟩ := h
  exact ⟨final, hexec, hsame.symm.trans hevaluated, hcalls⟩

/-- A call that can be read means its format string exactly when its arguments are there and keep
their meaning. -/
theorem Reads.means_iff (h : Reads display literal args pairs segments)
    (evaluate : TokenStream → σ → Loggable × σ) :
    MeansFormat display evaluate (.ordinary literal) args ↔
      (∀ pair ∈ pairs, pair.1 ≠ "" ∧ pair.2 ≠ []) ∧
        KeepsMeaning evaluate pairs (evaluationOrder pairs segments) := by
  obtain ⟨statements, houtput⟩ := exists_output_iff.mpr ⟨pairs, segments, h⟩
  have hread : ¬ ∃ message,
      (lformatImpl display (literal.token :: args)).output = .error message :=
    fun herror => output_error_iff.mp herror ⟨pairs, segments, h⟩
  constructor
  · intro hmeans
    constructor
    · by_contra hempty
      exact hread (hmeans.refused.mpr (h.faulty_iff.mpr hempty))
    · intro world
      obtain ⟨pairs', segments', hpairs, hformat, -, -, hruns⟩ := hmeans.accepted statements houtput
      obtain ⟨rfl, rfl⟩ := h.unique hpairs hformat
      let frame : Frame σ := { world := world, calls := [], bound := fun _ => none }
      obtain ⟨values, hcompiled⟩ := h.runs houtput evaluate frame
      obtain ⟨values', hwritten⟩ := hruns frame
      exact hcompiled.evaluated_eq hwritten
  · rintro ⟨hall, hkeeps⟩
    constructor
    · intro statements houtput
      obtain ⟨items, hbody, hspelled, rfl⟩ := h.format
      refine ⟨pairs, _, h.arguments, h.format, literal.literals hbody hspelled,
        evaluationOrder_perm pairs _, fun frame => ?_⟩
      obtain ⟨values, hcompiled⟩ := h.runs houtput evaluate frame
      exact ⟨values, hcompiled.of_evaluated_eq (hkeeps frame.world)⟩
    · exact iff_of_false hread fun hfaulty => h.faulty_iff.mp hfaulty hall

end

end

/-- A raw literal is refused. -/
theorem RawLiteral.lformatImpl_token (literal : RawLiteral)
    (display : Delimiter → TokenStream → String) (args : TokenStream) :
    lformatImpl display (literal.token :: args) = mustBeLiteral := by
  rw [token, lformatImpl, String.toList_ofList, if_neg]
  rintro ⟨hhead, -⟩
  cases hhead

theorem RawLiteral.means_iff (literal : RawLiteral) {σ : Type}
    (display : Delimiter → TokenStream → String) (evaluate : TokenStream → σ → Loggable × σ)
    (args : TokenStream) :
    MeansFormat display evaluate (.raw literal) args ↔ Faulty display (.raw literal) args := by
  have hrefused : (lformatImpl display ((StringToken.raw literal).token :: args)).output =
      .error "lformat!() must be called with a string literal" :=
    congrArg LFormatResult.output (literal.lformatImpl_token display args)
  constructor
  · exact fun hmeans => hmeans.refused.mp ⟨_, hrefused⟩
  · intro hfaulty
    constructor
    · intro statements houtput
      cases hrefused.symm.trans houtput
    · exact iff_of_true ⟨_, hrefused⟩ hfaulty

/-- `, key = value`. -/
def oneArgument (key : String) (value : TokenStream) : TokenStream :=
  .punct ',' .alone :: .ident key :: .punct '=' .alone :: value

theorem isArguments_one (display : Delimiter → TokenStream → String) (key : String)
    {value : TokenStream} (hvalue : Passes [] value) :
    IsArguments display (oneArgument key value) [(key, value)] := by
  have hrun : NoPunct [.ident key] := fun token htoken => by
    rw [List.mem_singleton.mp htoken]
    rfl
  have hkey : keyText display [.ident key] = key := String.append_empty
  have hlast : Arguments display ([.ident key] ++ .punct '=' .alone :: value)
      ([] ++ [(keyText display [.ident key], value)]) := .last (.none _) hrun hvalue
  rw [hkey] at hlast
  exact Or.inr ⟨.alone, _, rfl, hlast⟩

/-- `"{a}"`. -/
def onlyA : FormatLiteral where
  body := ['{', 'a', '}']
  valid := ⟨['{', 'a', '}'], by decide⟩

theorem reads_onlyA (display : Delimiter → TokenStream → String) {value : TokenStream}
    (hvalue : Passes [] value) :
    Reads display onlyA (oneArgument "a" value) [("a", value)] [.placeholder "a"] where
  arguments := isArguments_one display "a" hvalue
  nodup := List.nodup_singleton _
  format := ⟨[.placeholder ['a']], by decide, ⟨⟨by decide, by decide⟩, trivial⟩, by decide⟩
  known := by simp

mutual

def TokenTree.number : TokenTree → ℕ
  | .group _ stream => sumFrom 0 1 stream
  | .literal text => text.toList.foldl (fun n c => 10 * n + (c.toNat - '0'.toNat)) 0
  | _ => 0

/-- The value of a sum of products, in which every other mark is a `*`. -/
def sumFrom (total product : ℕ) : List TokenTree → ℕ
  | [] => total + product
  | .punct '+' _ :: stream => sumFrom (total + product) 1 stream
  | .punct _ _ :: stream => sumFrom total product stream
  | token :: stream => sumFrom total (product * token.number) stream

end

/-- `$e * 2`, where `$e` is `1 + 2`. -/
def fragmentDoubled : TokenStream :=
  [.group .none [.literal "1", .punct '+' .alone, .literal "2"], .punct '*' .alone, .literal "2"]

/-- `r"\d"`. -/
def rawDigit : RawLiteral where
  hashes := 0
  body := ['\\', 'd']
  unclosed := by decide
  no_return := by decide

theorem mem_body_of_placeholder {items : List Item} {literal : List Char} {key : String}
    (h : .placeholder key ∈ segmentsFrom literal items) : '{' ∈ items.flatMap Item.rawPrint := by
  induction items generalizing literal with
  | nil =>
    rw [segmentsFrom, flush] at h
    split at h <;> simp at h
  | cons item items ih =>
    rw [List.flatMap_cons, List.mem_append]
    cases item with
    | placeholder name => exact Or.inl (List.mem_cons_self ..)
    | _ => exact Or.inr (ih h)

/-- A raw literal without placeholders, on its own, has no fault. -/
theorem not_faulty_rawDigit (display : Delimiter → TokenStream → String) :
    ¬ Faulty display (.raw rawDigit) [] := by
  have hbrace : '{' ∉ rawDigit.body := by decide
  have hnone : ∀ pairs, IsArguments display [] pairs → pairs = [] := by
    rintro pairs (⟨-, rfl⟩ | ⟨comma, rest, he, -⟩)
    · rfl
    · cases he
  rintro (hno | ⟨pairs, hpairs, hdup⟩ | ⟨items, rest, hbody, -, -, key, rfl, -⟩ |
    ⟨pairs, segments, key, -, ⟨items, hbody, -, -, rfl⟩, hmem, -⟩)
  · exact hno ⟨[], Or.inl ⟨rfl, rfl⟩, fun pair hpair => by cases hpair⟩
  · rw [hnone pairs hpairs] at hdup
    exact hdup List.nodup_nil
  · rw [hbody] at hbrace
    exact hbrace (List.mem_append_right _ (List.mem_cons_self ..))
  · rw [hbody] at hbrace
    exact hbrace (mem_body_of_placeholder hmem)

end Logwise.Proc
