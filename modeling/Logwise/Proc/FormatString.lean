import Mathlib.Data.List.Basic
import Mathlib.Data.List.Chain
import Mathlib.Order.Nat

/-!
# Format strings

`scan_format_string` (`logwise_runtime_proc/src/parser.rs`) on the source form of a string literal.
A text is spelled from items: plain characters, escapes, braces written twice and placeholders. The
scanner reads the items off one after the other; it fails at a placeholder that is never closed, and
nowhere else.
-/

namespace Logwise.Proc

inductive Segment where
  /-- Static text, in source form. -/
  | literal (source : List Char)
  | placeholder (key : String)
  deriving DecidableEq, Repr

/-- Copy up to and including the next `}`; what is left comes second. -/
def copyEscape : List Char → List Char × List Char
  | [] => ([], [])
  | c :: text =>
    if c = '}' then ([c], text) else ((c :: (copyEscape text).1), (copyEscape text).2)

/-- The key before the next `}`, if there is one. -/
def closeKey (key : List Char) : List Char → Option (List Char × List Char)
  | [] => none
  | c :: text => if c = '}' then some (key, text) else closeKey (key ++ [c]) text

/-- `if !literal.is_empty() { segments.push(Segment::Literal(literal)) }`. -/
def flush (literal : List Char) : List Segment :=
  if literal.isEmpty then [] else [.literal literal]

theorem length_copyEscape (text : List Char) : (copyEscape text).2.length ≤ text.length := by
  induction text with
  | nil => exact le_rfl
  | cons c text ih =>
    rw [copyEscape]
    split
    · exact Nat.le_succ _
    · exact ih.trans (Nat.le_succ _)

theorem length_closeKey {key found text rest : List Char}
    (h : closeKey key text = some (found, rest)) : rest.length < text.length := by
  induction text generalizing key with
  | nil => cases h
  | cons c text ih =>
    rw [closeKey] at h
    split at h
    · cases h
      exact Nat.lt_succ_self _
    · exact (ih h).trans (Nat.lt_succ_self _)

/-- The loop of `scan_format_string`, at the characters that are left. -/
def scanFrom (segments : List Segment) (literal : List Char) :
    List Char → Except String (List Segment)
  | [] => .ok (segments ++ flush literal)
  | c :: text =>
    if c = '\\' then
      match text with
      | [] => .ok (segments ++ flush (literal ++ ['\\']))
      | escaped :: text =>
        if escaped = 'u' ∧ text.head? = some '{' then
          scanFrom segments (literal ++ ['\\', escaped] ++ (copyEscape text).1) (copyEscape text).2
        else scanFrom segments (literal ++ ['\\', escaped]) text
    else if c = '{' ∧ text.head? = some '{' then scanFrom segments (literal ++ ['{']) text.tail
    else if c = '}' ∧ text.head? = some '}' then scanFrom segments (literal ++ ['}']) text.tail
    else if c = '{' then
      match _h : closeKey [] text with
      | none => .error "Expected '\x7d'"
      | some (key, text) =>
        scanFrom (segments ++ flush literal ++ [.placeholder (String.ofList key)]) [] text
    else scanFrom segments (literal ++ [c]) text
termination_by text => text.length
decreasing_by
  · have hle := length_copyEscape text
    simp only [List.length_cons]
    omega
  · simp only [List.length_cons]
    omega
  · rw [List.length_tail, List.length_cons]
    omega
  · rw [List.length_tail, List.length_cons]
    omega
  · exact (length_closeKey _h).trans (Nat.lt_succ_self _)
  · exact Nat.lt_succ_self _

def scanFormatString (formatString : List Char) : Except String (List Segment) :=
  scanFrom [] [] formatString

/-! ## Items -/

/-- What a format string is made of. -/
inductive Item where
  | plain (c : Char)
  /-- A brace that is meant literally, written twice. -/
  | brace (c : Char)
  | escape (c : Char)
  /-- An escape with a payload in braces. -/
  | unicode (payload : List Char)
  | placeholder (key : List Char)
  /-- A closing brace on its own. -/
  | stray
  /-- A backslash at the very end. -/
  | dangling
  /-- A payload without an end. -/
  | unclosed (payload : List Char)
  deriving DecidableEq, Repr

namespace Item

def print : Item → List Char
  | .plain c => [c]
  | .brace c => [c, c]
  | .escape c => ['\\', c]
  | .unicode payload => '\\' :: 'u' :: '{' :: (payload ++ ['}'])
  | .placeholder key => '{' :: (key ++ ['}'])
  | .stray => ['}']
  | .dangling => ['\\']
  | .unclosed payload => '\\' :: 'u' :: '{' :: payload

/-- What an item adds to the literal around it. -/
def source : Item → List Char
  | .brace c => [c]
  | .placeholder _ => []
  | item => item.print

/-- The item is read as such in front of `next`. -/
def Fits (next : List Char) : Item → Prop
  | .plain c => c ≠ '\\' ∧ c ≠ '{' ∧ c ≠ '}'
  | .brace c => c = '{' ∨ c = '}'
  | .escape c => ¬ (c = 'u' ∧ next.head? = some '{')
  | .unicode payload => '}' ∉ payload
  | .placeholder key => '}' ∉ key ∧ key.head? ≠ some '{'
  | .stray => next.head? ≠ some '}'
  | .dangling => next = []
  | .unclosed payload => '}' ∉ payload ∧ next = []

end Item

def printItems (items : List Item) : List Char := items.flatMap Item.print

/-- The items are read one after the other in front of `after`. -/
def Spelled (after : List Char) : List Item → Prop
  | [] => True
  | item :: items => item.Fits (printItems items ++ after) ∧ Spelled after items

/-- The segments of a list of items, with the literal that is open before them. -/
def segmentsFrom (literal : List Char) : List Item → List Segment
  | [] => flush literal
  | .placeholder key :: items =>
    flush literal ++ .placeholder (String.ofList key) :: segmentsFrom [] items
  | item :: items => segmentsFrom (literal ++ item.source) items

/-- A placeholder begins here that nothing closes. -/
def Opened (text : List Char) : Prop :=
  ∃ key, text = '{' :: key ∧ key.head? ≠ some '{' ∧ '}' ∉ key

/-- A brace that is not escaped, not written twice and not part of an escape has no other after it. -/
def Unterminated (text : List Char) : Prop :=
  ∃ items rest, text = printItems items ++ rest ∧ Spelled rest items ∧ Opened rest

/-! ## One item -/

variable {segments : List Segment} {literal : List Char}

theorem copyEscape_append {payload : List Char} (h : '}' ∉ payload) (next : List Char) :
    copyEscape (payload ++ '}' :: next) = (payload ++ ['}'], next) := by
  induction payload with
  | nil => rfl
  | cons c payload ih =>
    obtain ⟨hc, hrest⟩ := List.ne_and_not_mem_of_not_mem_cons h
    rw [List.cons_append, copyEscape, if_neg (Ne.symm hc), ih hrest]
    rfl

theorem copyEscape_of_not_mem {payload : List Char} (h : '}' ∉ payload) :
    copyEscape payload = (payload, []) := by
  induction payload with
  | nil => rfl
  | cons c payload ih =>
    obtain ⟨hc, hrest⟩ := List.ne_and_not_mem_of_not_mem_cons h
    rw [copyEscape, if_neg (Ne.symm hc), ih hrest]

theorem closeKey_append {key : List Char} (h : '}' ∉ key) (before next : List Char) :
    closeKey before (key ++ '}' :: next) = some (before ++ key, next) := by
  induction key generalizing before with
  | nil => simp [closeKey]
  | cons c key ih =>
    obtain ⟨hc, hrest⟩ := List.ne_and_not_mem_of_not_mem_cons h
    rw [List.cons_append, closeKey, if_neg (Ne.symm hc), ih hrest, List.append_assoc]
    rfl

theorem closeKey_of_not_mem {key : List Char} (h : '}' ∉ key) (before : List Char) :
    closeKey before key = none := by
  induction key generalizing before with
  | nil => rfl
  | cons c key ih =>
    obtain ⟨hc, hrest⟩ := List.ne_and_not_mem_of_not_mem_cons h
    rw [closeKey, if_neg (Ne.symm hc), ih hrest]

/-- An item other than a placeholder goes into the open literal. -/
theorem scanFrom_item {item : Item} {next : List Char} (h : item.Fits next)
    (hliteral : ∀ key, item ≠ .placeholder key) :
    scanFrom segments literal (item.print ++ next) =
      scanFrom segments (literal ++ item.source) next := by
  cases item with
  | plain c =>
    obtain ⟨hslash, hopen, hclose⟩ := h
    rw [Item.print, List.singleton_append, scanFrom.eq_def]
    dsimp only
    rw [if_neg hslash, if_neg fun hc => hopen hc.1, if_neg fun hc => hclose hc.1, if_neg hopen]
    rfl
  | brace c =>
    obtain rfl | rfl := h
    · rw [Item.print, List.cons_append, scanFrom.eq_def]
      dsimp only
      rw [if_neg (by decide), if_pos ⟨rfl, rfl⟩]
      rfl
    · rw [Item.print, List.cons_append, scanFrom.eq_def]
      dsimp only
      rw [if_neg (by decide), if_neg (by simp), if_pos ⟨rfl, rfl⟩]
      rfl
  | escape c =>
    rw [Item.print, List.cons_append, scanFrom.eq_def]
    dsimp only
    rw [if_pos rfl]
    exact if_neg h
  | unicode payload =>
    have hpayload : '}' ∉ '{' :: payload := List.not_mem_cons_of_ne_of_not_mem (by decide) h
    have hcopy := copyEscape_append hpayload next
    have hprint : (Item.unicode payload).print ++ next =
        '\\' :: 'u' :: ('{' :: payload ++ '}' :: next) := by
      simp [Item.print]
    rw [hprint, scanFrom.eq_def]
    dsimp only
    rw [if_pos rfl]
    refine (if_pos ⟨rfl, rfl⟩).trans ?_
    rw [hcopy]
    simp [Item.source, Item.print]
  | placeholder key => exact absurd rfl (hliteral key)
  | stray =>
    rw [Item.print, List.singleton_append, scanFrom.eq_def]
    dsimp only
    rw [if_neg (by decide), if_neg (by simp), if_neg fun hc => h hc.2, if_neg (by decide)]
    rfl
  | dangling =>
    have hnext : next = [] := h
    subst hnext
    rw [Item.print, List.append_nil, scanFrom.eq_def]
    dsimp only
    rw [if_pos rfl, scanFrom.eq_def]
    rfl
  | unclosed payload =>
    obtain ⟨hclose, rfl⟩ := h
    have hpayload : '}' ∉ '{' :: payload := List.not_mem_cons_of_ne_of_not_mem (by decide) hclose
    rw [Item.print, List.append_nil, scanFrom.eq_def]
    dsimp only
    rw [if_pos rfl]
    refine (if_pos ⟨rfl, rfl⟩).trans ?_
    rw [copyEscape_of_not_mem hpayload]
    simp [Item.source, Item.print]

/-- A placeholder ends the literal before it. -/
theorem scanFrom_placeholder {key next : List Char} (h : (Item.placeholder key).Fits next) :
    scanFrom segments literal ((Item.placeholder key).print ++ next) =
      scanFrom (segments ++ flush literal ++ [.placeholder (String.ofList key)]) [] next := by
  obtain ⟨hclose, hopen⟩ := h
  have hprint : (Item.placeholder key).print ++ next = '{' :: (key ++ '}' :: next) := by
    simp [Item.print]
  have hhead : (key ++ '}' :: next).head? ≠ some '{' := by
    cases key with
    | nil => simp
    | cons c key => exact hopen
  rw [hprint, scanFrom.eq_def]
  dsimp only
  rw [if_neg (by decide), if_neg fun hc => hhead hc.2, if_neg (by simp), if_pos rfl]
  split
  next hnone => cases hnone.symm.trans (closeKey_append hclose [] next)
  next hsome =>
    cases hsome.symm.trans (closeKey_append hclose [] next)
    rfl

theorem scanFrom_opened {text : List Char} (h : Opened text) :
    scanFrom segments literal text = .error "Expected '\x7d'" := by
  obtain ⟨key, rfl, hopen, hclose⟩ := h
  rw [scanFrom.eq_def]
  dsimp only
  rw [if_neg (by decide), if_neg fun hc => hopen hc.2, if_neg (by simp), if_pos rfl]
  split
  next => rfl
  next hsome => cases hsome.symm.trans (closeKey_of_not_mem hclose [])

/-! ## Whole texts -/

theorem printItems_cons (item : Item) (items : List Item) (after : List Char) :
    printItems (item :: items) ++ after = item.print ++ (printItems items ++ after) := by
  rw [printItems, List.flatMap_cons, List.append_assoc]
  rfl

/-- **Spelled out**: a text is read as the items it is spelled from. -/
theorem scanFrom_spelled {items : List Item} (h : Spelled [] items) :
    scanFrom segments literal (printItems items) = .ok (segments ++ segmentsFrom literal items) := by
  induction items generalizing segments literal with
  | nil =>
    rw [printItems, List.flatMap_nil, scanFrom]
    rfl
  | cons item items ih =>
    obtain ⟨hfits, hrest⟩ := h
    have hprint := printItems_cons item items []
    rw [List.append_nil, List.append_nil] at hprint
    rw [List.append_nil] at hfits
    rw [hprint]
    cases item with
    | placeholder key =>
      rw [scanFrom_placeholder hfits, ih hrest, segmentsFrom]
      simp
    | _ =>
      rw [scanFrom_item hfits (fun key hkey => by cases hkey), ih hrest]
      rfl

/-- A text with a placeholder that is never closed is refused. -/
theorem scanFrom_unterminated {items : List Item} {rest : List Char} (h : Spelled rest items)
    (hopened : Opened rest) :
    scanFrom segments literal (printItems items ++ rest) = .error "Expected '\x7d'" := by
  induction items generalizing segments literal with
  | nil => exact scanFrom_opened hopened
  | cons item items ih =>
    obtain ⟨hfits, hrest⟩ := h
    rw [printItems_cons]
    cases item with
    | placeholder key => rw [scanFrom_placeholder hfits, ih hrest]
    | _ => rw [scanFrom_item hfits (fun key hkey => by cases hkey), ih hrest]

/-- Every text begins with an item, or with a placeholder that is never closed. -/
theorem exists_item (c : Char) (text : List Char) : Opened (c :: text) ∨
    ∃ item next, c :: text = Item.print item ++ next ∧ item.Fits next ∧
      next.length < (c :: text).length := by
  by_cases hslash : c = '\\'
  · subst hslash
    cases text with
    | nil => exact Or.inr ⟨.dangling, [], rfl, rfl, Nat.zero_lt_one⟩
    | cons escaped text =>
      by_cases hunicode : escaped = 'u' ∧ text.head? = some '{'
      · obtain ⟨rfl, hhead⟩ := hunicode
        obtain ⟨payload, rfl⟩ := List.head?_eq_some_iff.mp hhead
        by_cases hclose : '}' ∈ payload
        · obtain ⟨before, next, rfl, hbefore⟩ := List.eq_append_cons_of_mem hclose
          refine Or.inr ⟨.unicode before, next, by simp [Item.print], hbefore, ?_⟩
          simp only [List.length_cons, List.length_append]
          omega
        · exact Or.inr ⟨.unclosed payload, [], (List.append_nil _).symm, ⟨hclose, rfl⟩,
            Nat.succ_pos _⟩
      · refine Or.inr ⟨.escape escaped, text, rfl, hunicode, ?_⟩
        simp only [List.length_cons]
        omega
  by_cases hopen : c = '{'
  · subst hopen
    by_cases hdouble : text.head? = some '{'
    · obtain ⟨next, rfl⟩ := List.head?_eq_some_iff.mp hdouble
      refine Or.inr ⟨.brace '{', next, rfl, Or.inl rfl, ?_⟩
      simp only [List.length_cons]
      omega
    · by_cases hclose : '}' ∈ text
      · obtain ⟨key, next, rfl, hkey⟩ := List.eq_append_cons_of_mem hclose
        refine Or.inr ⟨.placeholder key, next, by simp [Item.print], ⟨hkey, fun hhead => ?_⟩, ?_⟩
        · obtain ⟨key, rfl⟩ := List.head?_eq_some_iff.mp hhead
          exact hdouble rfl
        · simp only [List.length_cons, List.length_append]
          omega
      · exact Or.inl ⟨text, rfl, hdouble, hclose⟩
  by_cases hclosed : c = '}'
  · subst hclosed
    by_cases hdouble : text.head? = some '}'
    · obtain ⟨next, rfl⟩ := List.head?_eq_some_iff.mp hdouble
      refine Or.inr ⟨.brace '}', next, rfl, Or.inr rfl, ?_⟩
      simp only [List.length_cons]
      omega
    · exact Or.inr ⟨.stray, text, rfl, hdouble, Nat.lt_succ_self _⟩
  · exact Or.inr ⟨.plain c, text, rfl, ⟨hslash, hopen, hclosed⟩, Nat.lt_succ_self _⟩

/-- Every text is spelled from items, up to its end or up to such a placeholder. -/
theorem exists_items (text : List Char) :
    (∃ items, text = printItems items ∧ Spelled [] items) ∨ Unterminated text := by
  obtain ⟨length, hlength⟩ : ∃ length, text.length = length := ⟨_, rfl⟩
  induction length using Nat.strong_induction_on generalizing text with
  | _ length ih =>
    cases text with
    | nil => exact Or.inl ⟨[], rfl, trivial⟩
    | cons c text =>
      obtain hopened | ⟨item, next, htext, hfits, hshorter⟩ := exists_item c text
      · exact Or.inr ⟨[], _, rfl, trivial, hopened⟩
      · rw [htext]
        obtain ⟨items, rfl, hspelled⟩ | ⟨items, rest, rfl, hspelled, hopened⟩ :=
          ih next.length (hlength ▸ hshorter) next rfl
        · refine Or.inl ⟨item :: items, rfl, ?_, hspelled⟩
          rw [List.append_nil]
          exact hfits
        · exact Or.inr ⟨item :: items, rest, (printItems_cons ..).symm, ⟨hfits, hspelled⟩, hopened⟩

/-- What the scanner finds. -/
theorem scanFormatString_ok_iff {text : List Char} {found : List Segment} :
    scanFormatString text = .ok found ↔
      ∃ items, text = printItems items ∧ Spelled [] items ∧ found = segmentsFrom [] items := by
  constructor
  · intro h
    obtain ⟨items, rfl, hspelled⟩ | ⟨items, rest, rfl, hspelled, hopened⟩ := exists_items text
    · refine ⟨items, rfl, hspelled, ?_⟩
      cases h.symm.trans (scanFrom_spelled hspelled)
      rfl
    · cases h.symm.trans (scanFrom_unterminated hspelled hopened)
  · rintro ⟨items, rfl, hspelled, rfl⟩
    exact scanFrom_spelled hspelled

/-- The one error there is, and when. -/
theorem scanFormatString_error_iff {text : List Char} {message : String} :
    scanFormatString text = .error message ↔ message = "Expected '\x7d'" ∧ Unterminated text := by
  constructor
  · intro h
    obtain ⟨items, rfl, hspelled⟩ | hunterminated := exists_items text
    · cases h.symm.trans (scanFrom_spelled hspelled)
    · obtain ⟨items, rest, rfl, hspelled, hopened⟩ := hunterminated
      cases h.symm.trans (scanFrom_unterminated hspelled hopened)
      exact ⟨rfl, items, rest, rfl, hspelled, hopened⟩
  · rintro ⟨rfl, items, rest, rfl, hspelled, hopened⟩
    exact scanFrom_unterminated hspelled hopened

/-! ## Round trip -/

/-- A unit of a literal run. -/
def Item.IsUnit : Item → Prop
  | .plain c => c ≠ '\\' ∧ c ≠ '{' ∧ c ≠ '}'
  | .brace c => c = '{' ∨ c = '}'
  | .escape c => c ≠ 'u'
  | .unicode payload => '}' ∉ payload
  | _ => False

/-- A part of a format string to print. -/
inductive Part where
  | literal (units : List Item)
  | placeholder (key : List Char)

namespace Part

def items : Part → List Item
  | .literal units => units
  | .placeholder key => [.placeholder key]

/-- Braces of a literal are doubled, a key is wrapped in braces. -/
def print (part : Part) : List Char := printItems part.items

/-- The segment it stands for: the literal's source text, braces single. -/
def segment : Part → Segment
  | .literal units => .literal (units.flatMap Item.source)
  | .placeholder key => .placeholder (String.ofList key)

def IsLiteral : Part → Prop
  | .literal _ => True
  | .placeholder _ => False

def Printable : Part → Prop
  | .literal units => units ≠ [] ∧ ∀ unit ∈ units, unit.IsUnit
  | .placeholder key => '}' ∉ key ∧ key.head? ≠ some '{'

theorem Printable.spelled {part : Part} (h : part.Printable) (after : List Char) :
    Spelled after part.items := by
  cases part with
  | placeholder key => exact ⟨h, trivial⟩
  | literal units =>
    obtain ⟨-, hunits⟩ := h
    show Spelled after units
    induction units with
    | nil => trivial
    | cons unit units ih =>
      refine ⟨?_, ih fun u hu => hunits u (List.mem_cons_of_mem _ hu)⟩
      have hunit := hunits unit (List.mem_cons_self ..)
      cases unit with
      | escape c => exact fun hc => hunit hc.1
      | plain c => exact hunit
      | brace c => exact hunit
      | unicode payload => exact hunit
      | _ => exact hunit.elim

end Part

theorem spelled_append {first second : List Item} {after : List Char}
    (h : Spelled (printItems second ++ after) first) (h' : Spelled after second) :
    Spelled after (first ++ second) := by
  induction first with
  | nil => exact h'
  | cons item first ih =>
    refine ⟨?_, ih h.2⟩
    have hfits := h.1
    rw [printItems, ← List.append_assoc, printItems, ← List.flatMap_append] at hfits
    exact hfits

/-- Units gather in the literal that is open. -/
theorem segmentsFrom_units {units : List Item} (h : ∀ unit ∈ units, unit.IsUnit)
    (literal : List Char) (items : List Item) :
    segmentsFrom literal (units ++ items) =
      segmentsFrom (literal ++ units.flatMap Item.source) items := by
  induction units generalizing literal with
  | nil => rw [List.flatMap_nil, List.append_nil, List.nil_append]
  | cons unit units ih =>
    have hrest := ih (fun u hu => h u (List.mem_cons_of_mem _ hu)) (literal ++ unit.source)
    rw [List.flatMap_cons, ← List.append_assoc, ← hrest]
    have hunit := h unit (List.mem_cons_self ..)
    cases unit with
    | placeholder key => exact hunit.elim
    | _ => rfl

theorem source_ne_nil {unit : Item} (h : unit.IsUnit) : unit.source ≠ [] := by
  cases unit with
  | placeholder key => exact h.elim
  | _ => simp [Item.source, Item.print]

/-- Parts of which no two neighbours are literals are the segments of their items. -/
theorem segmentsFrom_parts {parts : List Part} (h : ∀ part ∈ parts, part.Printable)
    (hparts : parts.IsChain fun a b => ¬ (a.IsLiteral ∧ b.IsLiteral)) :
    segmentsFrom [] (parts.flatMap Part.items) = parts.map Part.segment := by
  induction parts with
  | nil => rfl
  | cons part parts ih =>
    have hrest := ih (fun p hp => h p (List.mem_cons_of_mem _ hp)) hparts.tail
    have hpart := h part (List.mem_cons_self ..)
    cases part with
    | placeholder key =>
      rw [List.map_cons, ← hrest]
      rfl
    | literal units =>
      obtain ⟨hne, hunits⟩ := hpart
      have hflush : flush (units.flatMap Item.source) =
          [.literal (units.flatMap Item.source)] := by
        obtain ⟨unit, units, rfl⟩ := List.exists_cons_of_ne_nil hne
        have hsource := source_ne_nil (hunits unit (List.mem_cons_self ..))
        simp [flush, hsource]
      rw [List.map_cons, List.flatMap_cons, Part.items, segmentsFrom_units hunits, List.nil_append]
      -- what follows the literal is the end or a placeholder
      cases parts with
      | nil => exact hflush
      | cons next parts =>
        cases next with
        | literal more => exact absurd ⟨trivial, trivial⟩ (List.isChain_cons_cons.mp hparts).1
        | placeholder key =>
          rw [← hrest, List.flatMap_cons, Part.items, List.singleton_append, segmentsFrom, hflush]
          rfl

theorem printItems_parts (parts : List Part) :
    printItems (parts.flatMap Part.items) = parts.flatMap Part.print := by
  rw [printItems, List.flatMap_assoc]
  rfl

theorem spelled_parts {parts : List Part} (h : ∀ part ∈ parts, part.Printable) :
    Spelled [] (parts.flatMap Part.items) := by
  induction parts with
  | nil => trivial
  | cons part parts ih =>
    rw [List.flatMap_cons]
    exact spelled_append ((h part (List.mem_cons_self ..)).spelled _)
      (ih fun p hp => h p (List.mem_cons_of_mem _ hp))

/-- **Round trip**: scanning what was printed gives the segments back, every literal as its source
text. An error is about a brace that opens a placeholder and has no closing brace after it. -/
theorem scanFormatString_print :
    (∀ parts : List Part, (∀ part ∈ parts, part.Printable) →
      parts.IsChain (fun a b => ¬ (a.IsLiteral ∧ b.IsLiteral)) →
        scanFormatString (parts.flatMap Part.print) = .ok (parts.map Part.segment)) ∧
      ∀ text message, scanFormatString text = .error message → Unterminated text := by
  refine ⟨fun parts h hparts => ?_, fun text message herror =>
    (scanFormatString_error_iff.mp herror).2⟩
  rw [← printItems_parts, ← segmentsFrom_parts h hparts]
  exact scanFrom_spelled (spelled_parts h)

/-- A brace, a placeholder, and a brace before an escape. -/
def bracedKey : List Part :=
  [.literal [.brace '{'], .placeholder "key".toList, .literal [.brace '}', .escape 'n']]

/-- A placeholder between braces; and one that nothing closes. -/
theorem scanFormatString_print_braced :
    scanFormatString "{{{key}}}\\n".toList =
        .ok [.literal ['{'], .placeholder "key", .literal ['}', '\\', 'n']] ∧
      Unterminated "\x7bkey".toList := by
  have hprintable : ∀ part ∈ bracedKey, part.Printable := by
    rintro part (_ | ⟨_, _ | ⟨_, _ | ⟨_, hm⟩⟩⟩)
    · exact ⟨by decide, fun unit hm => List.mem_singleton.mp hm ▸ Or.inl rfl⟩
    · exact ⟨by decide, by decide⟩
    · refine ⟨by decide, ?_⟩
      rintro unit (_ | ⟨_, _ | ⟨_, hm⟩⟩)
      · exact Or.inr rfl
      · exact (by decide : 'n' ≠ 'u')
      · cases hm
    · cases hm
  refine ⟨scanFormatString_print.1 bracedKey hprintable ?_,
    scanFormatString_print.2 _ _ (scanFrom_opened ⟨"key".toList, rfl, by decide, by decide⟩)⟩
  simp [bracedKey, Part.IsLiteral]

end Logwise.Proc
