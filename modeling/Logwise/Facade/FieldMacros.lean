import Logwise.Facade.Macros
import Logwise.Library.Muncher

/-!
# The two expansions of a field list

`__logwise_field_metadata` and `__logwise_field_values` (`src/macros.rs`) over the tokens of a field
list. The compiler's expression parser is the parameter `parse`: what it makes of the beginning of
a token list.
-/

namespace Logwise.FieldMacros

/-- A token as a rule sees it; `=` and `==` are two. -/
inductive Token where
  | ident (name : String)
  | punct (mark : String)
  | literal (text : String)
  | group (delimiter : Char) (stream : List Token)

/-- What `$value:expr` does: no expression begins here, one begins that is broken, or one is read.
Only the first lets the next rule be tried. -/
inductive Parsed (ε : Type*) where
  | noBegin
  | error
  | parsed (value : ε) (rest : List Token)

/-- A rule for one field: `detail $name:ident = tag($value:expr), $($rest:tt)*`, where `detail` and
the tag with its parentheses may be missing, and the privacy and detail it expands to. -/
structure Arm where
  isDetail : Bool
  tag : Option String
  privacy : Privacy
  detail : Detail

/-- The rules of `__logwise_field_metadata` that take a field. -/
def metadataArms : List Arm :=
  [{ isDetail := true, tag := some "support", privacy := .supportSafe, detail := .detail },
    { isDetail := true, tag := some "local", privacy := .localOnly, detail := .detail },
    { isDetail := true, tag := some "secret", privacy := .secret, detail := .detail },
    { isDetail := true, tag := none, privacy := .localOnly, detail := .detail },
    { isDetail := false, tag := some "support", privacy := .supportSafe, detail := .core },
    { isDetail := false, tag := some "local", privacy := .localOnly, detail := .core },
    { isDetail := false, tag := some "secret", privacy := .secret, detail := .core },
    { isDetail := false, tag := none, privacy := .localOnly, detail := .core }]

/-- The rules of `__logwise_field_values`; the privacy and detail are those its block tests. -/
def valuesArms : List Arm :=
  [{ isDetail := true, tag := some "support", privacy := .supportSafe, detail := .detail },
    { isDetail := true, tag := some "local", privacy := .localOnly, detail := .detail },
    { isDetail := true, tag := some "secret", privacy := .secret, detail := .detail },
    { isDetail := true, tag := none, privacy := .localOnly, detail := .detail },
    { isDetail := false, tag := some "support", privacy := .supportSafe, detail := .core },
    { isDetail := false, tag := some "local", privacy := .localOnly, detail := .core },
    { isDetail := false, tag := some "secret", privacy := .secret, detail := .core },
    { isDetail := false, tag := none, privacy := .localOnly, detail := .core }]

/-- What a rule has bound. -/
structure Chosen (ε : Type*) where
  arm : Arm
  name : String
  value : ε
  rest : List Token

section Rules

variable {ε : Type*} (parse : List Token → Parsed ε)

/-- `$name:ident =`, behind `detail` or not. -/
def matchName (isDetail : Bool) (tokens : List Token) : Option (String × List Token) :=
  if isDetail then
    match tokens with
    | .ident word :: .ident name :: .punct mark :: rest =>
      if word = "detail" ∧ mark = "=" then some (name, rest) else none
    | _ => none
  else
    match tokens with
    | .ident name :: .punct mark :: rest => if mark = "=" then some (name, rest) else none
    | _ => none

/-- The comma behind a value. -/
def matchComma (value : ε) (tokens : List Token) : Muncher.Attempt (ε × List Token) :=
  match tokens with
  | .punct mark :: rest => if mark = "," then .matched (value, rest) else .noMatch
  | _ => .noMatch

/-- `$value:expr,` -/
def matchBare (tokens : List Token) : Muncher.Attempt (ε × List Token) :=
  match parse tokens with
  | .noBegin => .noMatch
  | .error => .error
  | .parsed value rest => matchComma value rest

/-- A word and a group in parentheses, and what follows. -/
def call? : List Token → Option (String × List Token × List Token)
  | .ident word :: .group delimiter inner :: rest =>
    if delimiter = '(' then some (word, inner, rest) else none
  | _ => none

/-- `($value:expr),` The group is read before the comma is looked for. -/
def matchArgument (inner rest : List Token) : Muncher.Attempt (ε × List Token) :=
  match parse inner with
  | .noBegin => .noMatch
  | .error => .error
  | .parsed value [] => matchComma value rest
  | .parsed _ (_ :: _) => .noMatch

/-- `tag($value:expr),` -/
def matchTagged (tag : String) (tokens : List Token) : Muncher.Attempt (ε × List Token) :=
  match call? tokens with
  | some (word, inner, rest) => if word = tag then matchArgument parse inner rest else .noMatch
  | none => .noMatch

def matchValue (tag : Option String) (tokens : List Token) : Muncher.Attempt (ε × List Token) :=
  match tag with
  | some tag => matchTagged parse tag tokens
  | none => matchBare parse tokens

/-- A rule on the tokens that are left. -/
def Arm.rule (arm : Arm) (tokens : List Token) : Muncher.Attempt (Chosen ε) :=
  match matchName arm.isDetail tokens with
  | none => .noMatch
  | some (name, rest) =>
    (matchValue parse arm.tag rest).map fun read =>
      { arm := arm, name := name, value := read.1, rest := read.2 }

def choose (arms : List Arm) (tokens : List Token) : Option (Chosen ε) :=
  Muncher.first (arms.map (Arm.rule parse)) tokens

/-- The first two rules: nothing is left, or the comma the caller appended. -/
def isEnd : List Token → Bool
  | [] => true
  | [.punct mark] => mark = ","
  | _ => false

/-- `{ let metadata = $metadata.next().expect(..); if $interest.wants(privacy, detail) { Some(..) }
else { None } }` -/
structure FieldBlock (ε : Type*) where
  privacy : Privacy
  detail : Detail
  value : ε

def fieldMetadataMacro (limit : ℕ) (output : List FieldMetadata) (tokens : List Token) :
    Option (List FieldMetadata) :=
  Muncher.munch isEnd
    (fun tokens => (choose parse metadataArms tokens).map fun chosen =>
      ({ name := chosen.name, privacy := chosen.arm.privacy, detail := chosen.arm.detail },
        chosen.rest))
    limit output tokens

def fieldValuesMacro (limit : ℕ) (output : List (FieldBlock ε)) (tokens : List Token) :
    Option (List (FieldBlock ε)) :=
  Muncher.munch isEnd
    (fun tokens => (choose parse valuesArms tokens).map fun chosen =>
      ({ privacy := chosen.arm.privacy, detail := chosen.arm.detail, value := chosen.value },
        chosen.rest))
    limit output tokens

end Rules

/-- The array of blocks, evaluated over an iterator. Returned are the fields, the positions of the
expressions evaluated, and what is left of the iterator; `expect` panics should it run out. -/
def runBlocks {ε : Type*} (evaluate : ε → ValueRef) (interest : Interest) :
    ℕ → List FieldMetadata → List (FieldBlock ε) →
      Option (List (Option FieldRef) × List ℕ × List FieldMetadata)
  | _, metadata, [] => some ([], [], metadata)
  | _, [], _ :: _ => none
  | position, entry :: metadata, block :: blocks =>
    (runBlocks evaluate interest (position + 1) metadata blocks).map fun run =>
      if interest.wants block.privacy block.detail then
        (some { metadata := entry, value := evaluate block.value } :: run.1,
          position :: run.2.1, run.2.2)
      else (none :: run.1, run.2.1, run.2.2)

/-! ## What a field is -/

/-- A field of one of the eight shapes: `detail name = marker(value)`, where `detail` and the marker
may be missing. -/
structure Field (ε : Type*) where
  isDetail : Bool
  name : String
  marker : Option Marker
  value : ε

def markerWord : Marker → String
  | .support => "support"
  | .localOnly => "local"
  | .secret => "secret"

/-- The marker a word is. -/
def marker? (word : String) : Option Marker :=
  if word = "support" then some .support
  else if word = "local" then some .localOnly
  else if word = "secret" then some .secret
  else none

theorem marker?_eq_some_iff {word : String} {marker : Marker} :
    marker? word = some marker ↔ word = markerWord marker := by
  constructor
  · intro h
    rw [marker?] at h
    split_ifs at h with hsupport hlocal hsecret
    · cases h
      exact hsupport
    · cases h
      exact hlocal
    · cases h
      exact hsecret
  · rintro rfl
    cases marker <;> decide

def markerPrivacy : Option Marker → Privacy
  | some .support => .supportSafe
  | some .localOnly => .localOnly
  | some .secret => .secret
  | none => .localOnly

namespace Field

variable {ε : Type*}

/-- The shape a call site is modelled with. -/
def shape (evaluate : ε → ValueRef) (field : Field ε) : FieldShape :=
  { isDetail := field.isDetail
    name := field.name
    marker := field.marker
    value := evaluate field.value }

def privacy (field : Field ε) : Privacy := markerPrivacy field.marker

def detail (field : Field ε) : Detail := if field.isDetail then .detail else .core

def metadata (field : Field ε) : FieldMetadata :=
  { name := field.name, privacy := field.privacy, detail := field.detail }

def block (field : Field ε) : FieldBlock ε :=
  { privacy := field.privacy, detail := field.detail, value := field.value }

end Field

section Reading

variable {ε : Type*} (parse : List Token → Parsed ε)

/-- A value without a marker. -/
def readBare (tokens : List Token) : Option (Option Marker × ε × List Token) :=
  match matchBare parse tokens with
  | .matched (value, rest) => some (none, value, rest)
  | _ => none

/-- A value: marked where it is a marker applied to one expression and nothing else. -/
def readValue (tokens : List Token) : Option (Option Marker × ε × List Token) :=
  match call? tokens with
  | none => readBare parse tokens
  | some (word, inner, rest) =>
    match marker? word with
    | none => readBare parse tokens
    | some marker =>
      match matchArgument parse inner rest with
      | .noMatch => readBare parse tokens
      | .error => none
      | .matched (value, rest) => some (some marker, value, rest)

def readNamed (isDetail : Bool) (name : String) (tokens : List Token) :
    Option (Field ε × List Token) :=
  (readValue parse tokens).map fun read =>
    ({ isDetail := isDetail, name := name, marker := read.1, value := read.2.1 }, read.2.2)

def readField (tokens : List Token) : Option (Field ε × List Token) :=
  match matchName true tokens with
  | some (name, rest) => readNamed parse true name rest
  | none =>
    match matchName false tokens with
    | some (name, rest) => readNamed parse false name rest
    | none => none

/-- The fields of a list. -/
def readFields (limit : ℕ) (tokens : List Token) : Option (List (Field ε)) :=
  Muncher.munch isEnd (readField parse) limit [] tokens

end Reading

section Choice

variable {ε : Type*} (parse : List Token → Parsed ε) {tokens rest : List Token} {name : String}

/-- The rule for a field with or without `detail` and a marker. -/
def armOf (isDetail : Bool) (marker : Option Marker) : Arm :=
  { isDetail := isDetail
    tag := marker.map markerWord
    privacy := markerPrivacy marker
    detail := if isDetail then .detail else .core }

/-- The rules for fields with `detail`, or for those without. -/
def armsOf (isDetail : Bool) : List Arm :=
  [armOf isDetail (some .support), armOf isDetail (some .localOnly), armOf isDetail (some .secret),
    armOf isDetail none]

theorem metadataArms_eq : metadataArms = armsOf true ++ armsOf false := rfl

/-- The second macro has its rules in the same order. -/
theorem valuesArms_eq : valuesArms = armsOf true ++ armsOf false := rfl

/-- A field with `detail` is not one without. -/
theorem matchName_false_of_true (h : (matchName true tokens).isSome = true) :
    matchName false tokens = none := by
  unfold matchName at h ⊢
  simp only [if_true, Bool.false_eq_true, if_false] at h ⊢
  split at h
  · rfl
  · cases h

theorem rule_of_matchName_none {arm : Arm} (h : matchName arm.isDetail tokens = none) :
    arm.rule parse tokens = .noMatch := by
  rw [Arm.rule, h]

theorem rule_of_matchName_some {arm : Arm} (h : matchName arm.isDetail tokens = some (name, rest)) :
    arm.rule parse tokens =
      (matchValue parse arm.tag rest).map fun read =>
        { arm := arm, name := name, value := read.1, rest := read.2 } := by
  rw [Arm.rule, h]

/-- Where the name does not fit, the four rules are passed over. -/
theorem noMatch_of_matchName_none {isDetail : Bool} (h : matchName isDetail tokens = none) :
    ∀ rule ∈ (armsOf isDetail).map (Arm.rule parse), rule tokens = .noMatch := by
  intro rule hrule
  obtain ⟨arm, harm, rfl⟩ := List.mem_map.mp hrule
  refine rule_of_matchName_none parse ?_
  have hdetail : arm.isDetail = isDetail := by
    simp only [armsOf, List.mem_cons, List.not_mem_nil, or_false] at harm
    obtain rfl | rfl | rfl | rfl := harm <;> rfl
  rwa [hdetail]

theorem matchTagged_of_call {word : String} {inner after : List Token}
    (h : call? rest = some (word, inner, after)) (marker : Marker) :
    matchTagged parse (markerWord marker) rest =
      if marker? word = some marker then matchArgument parse inner after else .noMatch := by
  simp only [matchTagged, h, marker?_eq_some_iff]

/-- The rule without a tag, once those with one have not matched. -/
theorem first_bare {isDetail : Bool} (h : matchName isDetail tokens = some (name, rest))
    {more : List (List Token → Muncher.Attempt (Chosen ε))}
    (hmore : ∀ rule ∈ more, rule tokens = .noMatch) :
    Muncher.first ((armOf isDetail none).rule parse :: more) tokens =
      (readBare parse rest).map fun read =>
        { arm := armOf isDetail read.1, name := name, value := read.2.1, rest := read.2.2 } := by
  have hrule : (armOf isDetail none).rule parse tokens = _ := rule_of_matchName_some parse h
  rw [Muncher.first, hrule]
  simp only [armOf, Option.map_none, matchValue, readBare]
  cases matchBare parse rest with
  | noMatch => exact Muncher.first_of_noMatch hmore
  | error => rfl
  | matched read => rfl

/-- A rule with a tag, where the value is a call: it is for the tag's own marker. -/
theorem rule_of_call {isDetail : Bool} (h : matchName isDetail tokens = some (name, rest))
    {word : String} {inner after : List Token} (hcall : call? rest = some (word, inner, after))
    (marker : Marker) :
    (armOf isDetail (some marker)).rule parse tokens =
      (if marker? word = some marker then matchArgument parse inner after else .noMatch).map
        fun read =>
          { arm := armOf isDetail (some marker), name := name, value := read.1, rest := read.2 } := by
  have hrule : (armOf isDetail (some marker)).rule parse tokens = _ := rule_of_matchName_some parse h
  rw [hrule, ← matchTagged_of_call parse hcall]
  rfl

theorem rule_of_no_call {isDetail : Bool} (h : matchName isDetail tokens = some (name, rest))
    (hcall : call? rest = none) (marker : Marker) :
    (armOf isDetail (some marker)).rule parse tokens = .noMatch := by
  have hrule : (armOf isDetail (some marker)).rule parse tokens = _ := rule_of_matchName_some parse h
  rw [hrule]
  simp only [armOf, Option.map_some, matchValue, matchTagged, hcall]
  rfl

/-- Of the rules with a tag only that of the marker counts. -/
theorem first_of_marker {isDetail : Bool} {marker : Marker} {result : Option (Chosen ε)}
    {more : List (List Token → Muncher.Attempt (Chosen ε))}
    (hother : ∀ other, marker ≠ other →
      (armOf isDetail (some other)).rule parse tokens = .noMatch)
    (hthis : ∀ rules, Muncher.first ((armOf isDetail (some marker)).rule parse :: rules) tokens =
      result) :
    Muncher.first
        ((armOf isDetail (some .support)).rule parse ::
          (armOf isDetail (some .localOnly)).rule parse ::
            (armOf isDetail (some .secret)).rule parse :: more) tokens =
      result := by
  cases marker with
  | support => exact hthis _
  | localOnly =>
    rw [Muncher.first_cons_of_noMatch (hother .support (by decide))]
    exact hthis _
  | secret =>
    rw [Muncher.first_cons_of_noMatch (hother .support (by decide)),
      Muncher.first_cons_of_noMatch (hother .localOnly (by decide))]
    exact hthis _

/-- What the four rules make of a value: the marker is the one that stands there, if one does. -/
theorem first_armsOf {isDetail : Bool} (h : matchName isDetail tokens = some (name, rest))
    {more : List (List Token → Muncher.Attempt (Chosen ε))}
    (hmore : ∀ rule ∈ more, rule tokens = .noMatch) :
    Muncher.first ((armsOf isDetail).map (Arm.rule parse) ++ more) tokens =
      (readValue parse rest).map fun read =>
        { arm := armOf isDetail read.1, name := name, value := read.2.1, rest := read.2.2 } := by
  have hbare := first_bare parse h hmore
  -- Where none of the three rules with a tag matches, the fourth decides.
  have hpassed : (∀ marker, (armOf isDetail (some marker)).rule parse tokens = .noMatch) →
      Muncher.first ((armsOf isDetail).map (Arm.rule parse) ++ more) tokens =
        (readBare parse rest).map fun read =>
          { arm := armOf isDetail read.1, name := name, value := read.2.1, rest := read.2.2 } := by
    intro hnone
    simp only [armsOf, List.map_cons, List.map_nil, List.cons_append, List.nil_append]
    rw [Muncher.first_cons_of_noMatch (hnone .support),
      Muncher.first_cons_of_noMatch (hnone .localOnly),
      Muncher.first_cons_of_noMatch (hnone .secret)]
    exact hbare
  rw [readValue]
  cases hcall : call? rest with
  | none => exact hpassed (rule_of_no_call parse h hcall)
  | some call =>
    obtain ⟨word, inner, after⟩ := call
    have htagged := rule_of_call parse h hcall
    cases hmarker : marker? word with
    | none =>
      simp only [hmarker]
      refine hpassed fun marker => ?_
      rw [htagged, hmarker, if_neg (by simp)]
      rfl
    | some marker =>
      have hother : ∀ other, marker ≠ other →
          (armOf isDetail (some other)).rule parse tokens = .noMatch := by
        intro other hne
        rw [htagged, hmarker, if_neg fun hsome => hne (Option.some.inj hsome)]
        rfl
      have hthis := htagged marker
      rw [if_pos hmarker] at hthis
      cases hargument : matchArgument parse inner after with
      | noMatch =>
        simp only [hmarker, hargument]
        rw [hargument] at hthis
        refine hpassed fun other => ?_
        by_cases heq : marker = other
        · exact heq ▸ hthis
        · exact hother other heq
      | error =>
        simp only [hmarker, hargument]
        rw [hargument] at hthis
        exact first_of_marker parse hother fun _ => Muncher.first_cons_of_error hthis
      | matched read =>
        simp only [hmarker, hargument]
        rw [hargument] at hthis
        exact first_of_marker parse hother fun _ => Muncher.first_cons_of_matched hthis

/-- What a rule has bound, for a field. -/
def Field.chosen (field : Field ε) (rest : List Token) : Chosen ε :=
  { arm := armOf field.isDetail field.marker
    name := field.name
    value := field.value
    rest := rest }

/-- The rules of either macro, tried in order, read a field. -/
theorem choose_eq (tokens : List Token) :
    choose parse (armsOf true ++ armsOf false) tokens =
      (readField parse tokens).map fun read => read.1.chosen read.2 := by
  rw [choose, List.map_append, readField]
  cases hdetail : matchName true tokens with
  | some named =>
    have hplain := matchName_false_of_true (Option.isSome_iff_exists.mpr ⟨named, hdetail⟩)
    rw [first_armsOf parse hdetail (noMatch_of_matchName_none parse hplain)]
    simp only [readNamed, Option.map_map]
    rfl
  | none =>
    rw [Muncher.first_append_of_noMatch (noMatch_of_matchName_none parse hdetail)]
    cases hplain : matchName false tokens with
    | some named =>
      have hfirst := first_armsOf parse hplain (List.forall_mem_nil _)
      rw [List.append_nil] at hfirst
      rw [hfirst]
      simp only [readNamed, Option.map_map]
      rfl
    | none => exact Muncher.first_of_noMatch (noMatch_of_matchName_none parse hplain)

end Choice

section Expansions

variable {ε : Type*} (parse : List Token → Parsed ε)

theorem fieldMetadataMacro_eq (limit : ℕ) (tokens : List Token) :
    fieldMetadataMacro parse limit [] tokens =
      (readFields parse limit tokens).map (List.map Field.metadata) := by
  refine Muncher.munch_map Field.metadata (fun tokens => ?_) limit [] tokens
  rw [metadataArms_eq, choose_eq, Option.map_map]
  rfl

theorem fieldValuesMacro_eq (limit : ℕ) (tokens : List Token) :
    fieldValuesMacro parse limit [] tokens =
      (readFields parse limit tokens).map (List.map Field.block) := by
  refine Muncher.munch_map Field.block (fun tokens => ?_) limit [] tokens
  rw [valuesArms_eq, choose_eq, Option.map_map]
  rfl

end Expansions

end Logwise.FieldMacros
