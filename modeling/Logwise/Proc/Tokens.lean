import Mathlib.Data.List.Basic
import Mathlib.Order.Nat

/-!
# The arguments of a logging macro

`parse_key`, `parse_value` and `build_kvs` (`logwise_runtime_proc/src/parser.rs`) over the token
trees of `proc_macro`. How the compiler prints a group is the parameter `display`; an error is the
message of the `compile_error!` it becomes.
-/

namespace Logwise.Proc

inductive Spacing where
  | joint | alone
  deriving DecidableEq, Repr

inductive Delimiter where
  | parenthesis | brace | bracket | none
  deriving DecidableEq, Repr

inductive TokenTree where
  | group (delimiter : Delimiter) (stream : List TokenTree)
  | ident (name : String)
  | punct (char : Char) (spacing : Spacing)
  /-- A literal, as it is written. -/
  | literal (text : String)

abbrev TokenStream := List TokenTree

namespace TokenTree

def isPunct (c : Char) : TokenTree → Bool
  | .punct char _ => char = c
  | _ => false

/-- The character and the spacing of a punctuation mark. -/
def punct? : TokenTree → Option (Char × Spacing)
  | .punct char spacing => some (char, spacing)
  | _ => none

/-- `to_string`. -/
def text (display : Delimiter → TokenStream → String) : TokenTree → String
  | .group delimiter stream => display delimiter stream
  | .ident name => name
  | .punct char _ => char.toString
  | .literal text => text

end TokenTree

variable (display : Delimiter → TokenStream → String)

inductive KeyResult where
  /-- A key terminated by `=`. -/
  | key (name : String)
  | finished
  | malformed (text : String)
  deriving DecidableEq, Repr

/-- The loop of `parse_key`; the second part is what is left of the input. -/
def parseKeyFrom (key : String) : TokenStream → KeyResult × TokenStream
  | [] => (if key.isEmpty then .finished else .malformed key, [])
  | .punct char _ :: input =>
    if char = '=' then (.key key, input) else (.malformed (key ++ char.toString), input)
  | token :: input => parseKeyFrom (key ++ token.text display) input

def parseKey (input : TokenStream) : KeyResult × TokenStream := parseKeyFrom display "" input

/-- The variables of `parse_value`. -/
structure Scan where
  value : TokenStream
  genericDepth : ℕ
  colonRun : ℕ
  prevPunct : Option (Char × Spacing)

namespace Scan

def new : Scan := { value := [], genericDepth := 0, colonRun := 0, prevPunct := none }

/-- `Some(('-' | '=', Spacing::Joint))`. -/
def arrowHead (scan : Scan) : Bool :=
  scan.prevPunct = some ('-', .joint) ∨ scan.prevPunct = some ('=', .joint)

/-- The arm that returns the value. -/
def ends (scan : Scan) (token : TokenTree) : Bool := token.isPunct ',' ∧ scan.genericDepth = 0

/-- One turn of the loop that goes on. -/
def push (scan : Scan) (token : TokenTree) : Scan :=
  match token with
  | .punct c spacing =>
    { value := scan.value ++ [token]
      genericDepth :=
        if c = '<' ∧ (0 < scan.genericDepth ∨ 2 ≤ scan.colonRun ∨ scan.value.isEmpty) then
          scan.genericDepth + 1
        else if c = '>' ∧ 0 < scan.genericDepth ∧ ¬ scan.arrowHead then scan.genericDepth - 1
        else scan.genericDepth
      colonRun := if c = ':' then scan.colonRun + 1 else 0
      prevPunct := some (c, spacing) }
  | _ => { scan with value := scan.value ++ [token], colonRun := 0, prevPunct := none }

end Scan

/-- The loop of `parse_value`: the value, and what is left of the input. -/
def parseValueFrom (scan : Scan) : TokenStream → TokenStream × TokenStream
  | [] => (scan.value, [])
  | token :: input =>
    if scan.ends token then (scan.value, input) else parseValueFrom (scan.push token) input

def parseValue (input : TokenStream) : TokenStream × TokenStream := parseValueFrom .new input

/-- A key takes its `=` with it. -/
theorem length_parseKeyFrom_lt {key name : String} {input rest : TokenStream}
    (h : parseKeyFrom display key input = (.key name, rest)) : rest.length < input.length := by
  induction input generalizing key with
  | nil =>
    rw [parseKeyFrom] at h
    split at h <;> cases h
  | cons token input ih =>
    rw [List.length_cons]
    cases token with
    | punct char spacing =>
      rw [parseKeyFrom] at h
      split at h
      · cases h
        exact Nat.lt_succ_self _
      · cases h
    | group delimiter stream => exact (ih h).trans (Nat.lt_succ_self _)
    | ident name => exact (ih h).trans (Nat.lt_succ_self _)
    | literal text => exact (ih h).trans (Nat.lt_succ_self _)

theorem length_parseValueFrom (scan : Scan) (input : TokenStream) :
    (parseValueFrom scan input).2.length ≤ input.length := by
  induction input generalizing scan with
  | nil => exact le_rfl
  | cons token input ih =>
    rw [parseValueFrom]
    split
    · exact Nat.le_succ _
    · exact (ih _).trans (Nat.le_succ _)

def malformedMessage (text : String) : String :=
  "expected \x60key = value\x60 after the format string, found \x60" ++ text ++
    "\x60. Logging macros do not capture bindings implicitly -- name the field, as in \x60key = " ++
    text ++ "\x60."

/-- The loop of `build_kvs`. -/
def buildKvsFrom (kvs : List (String × TokenStream)) (input : TokenStream) :
    Except String (List (String × TokenStream)) :=
  match _h : parseKey display input with
  | (.finished, _) => .ok kvs
  | (.malformed text, _) => .error (malformedMessage text)
  | (.key key, rest) =>
    let value := parseValue rest
    if kvs.any fun pair => pair.1 = key then .error ("Duplicate key " ++ key)
    else buildKvsFrom (kvs ++ [(key, value.1)]) value.2
termination_by input.length
decreasing_by
  exact (length_parseValueFrom .new rest).trans_lt (length_parseKeyFrom_lt display _h)

def buildKvs : TokenStream → Except String (List (String × TokenStream))
  | [] => .ok []
  | token :: input =>
    if token.isPunct ',' then buildKvsFrom display [] input else .error "Expected ','"

end Logwise.Proc
