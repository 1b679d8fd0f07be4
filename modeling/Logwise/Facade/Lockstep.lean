import Logwise.Facade.FieldMacros

/-!
# The schema and the values of a field list

How the fields that the two macros take are written, and what becomes of them in a call: over the
schema of its own list the array of values neither runs out of entries nor leaves any.
-/

namespace Logwise.FieldMacros

/-- The beginning of a field, up to its value. -/
def opening (isDetail : Bool) (name : String) : List Token :=
  (if isDetail then [.ident "detail"] else []) ++ [.ident name, .punct "="]

/-- The tokens are a marker applied to one expression, and a comma. -/
def Marked {ε : Type*} (parse : List Token → Parsed ε) (tokens : List Token) (marker : Marker)
    (value : ε) (rest : List Token) : Prop :=
  ∃ inner, tokens = .ident (markerWord marker) :: .group '(' inner :: .punct "," :: rest ∧
    parse inner = .parsed value []

/-- The tokens are an expression and a comma. -/
def Plain {ε : Type*} (parse : List Token → Parsed ε) (tokens : List Token) (value : ε)
    (rest : List Token) : Prop :=
  parse tokens = .parsed value (.punct "," :: rest)

/-- How a list of fields is written. A value is marked where it can be. -/
inductive Spells {ε : Type*} (parse : List Token → Parsed ε) :
    List Token → List (Field ε) → Prop where
  | nil : Spells parse [] []
  | comma : Spells parse [.punct ","] []
  | marked {isDetail : Bool} {name : String} {marker : Marker} {value : ε}
      {tokens rest : List Token} {fields : List (Field ε)}
      (hvalue : Marked parse tokens marker value rest) (hrest : Spells parse rest fields) :
      Spells parse (opening isDetail name ++ tokens)
        ({ isDetail := isDetail, name := name, marker := some marker, value := value } :: fields)
  | plain {isDetail : Bool} {name : String} {value : ε} {tokens rest : List Token}
      {fields : List (Field ε)} (hvalue : Plain parse tokens value rest)
      (hmarked : ∀ marker inner after, ¬ Marked parse tokens marker inner after)
      (hrest : Spells parse rest fields) :
      Spells parse (opening isDetail name ++ tokens)
        ({ isDetail := isDetail, name := name, marker := none, value := value } :: fields)

section Spelling

variable {ε : Type*} {parse : List Token → Parsed ε} {tokens rest : List Token} {value : ε}

theorem matchComma_eq {read : ε × List Token} (h : matchComma value tokens = .matched read) :
    tokens = .punct "," :: read.2 ∧ value = read.1 := by
  unfold matchComma at h
  split at h
  · split_ifs at h with hmark
    · cases h
      exact ⟨by rw [hmark], rfl⟩
  · cases h

theorem matchName_eq {isDetail : Bool} {named : String × List Token}
    (h : matchName isDetail tokens = some named) :
    tokens = opening isDetail named.1 ++ named.2 := by
  unfold matchName at h
  cases isDetail with
  | true =>
    rw [if_pos rfl] at h
    split at h
    · split_ifs at h with hwords
      · obtain ⟨rfl, rfl⟩ := hwords
        cases h
        rfl
    · cases h
  | false =>
    rw [if_neg (by decide)] at h
    split at h
    · split_ifs at h with hmark
      · subst hmark
        cases h
        rfl
    · cases h

theorem call?_eq {word : String} {inner : List Token} (h : call? tokens = some (word, inner, rest)) :
    tokens = .ident word :: .group '(' inner :: rest := by
  unfold call? at h
  split at h
  · split_ifs at h with hdelimiter
    · subst hdelimiter
      cases h
      rfl
  · cases h

theorem matchArgument_eq {inner : List Token} {read : ε × List Token}
    (h : matchArgument parse inner tokens = .matched read) :
    parse inner = .parsed read.1 [] ∧ tokens = .punct "," :: read.2 := by
  unfold matchArgument at h
  split at h
  · cases h
  · cases h
  next hparse =>
    obtain ⟨hcomma, rfl⟩ := matchComma_eq h
    exact ⟨hparse, hcomma⟩
  · cases h

theorem readBare_eq {read : Option Marker × ε × List Token}
    (h : readBare parse tokens = some read) : read.1 = none ∧ Plain parse tokens read.2.1 read.2.2 := by
  unfold readBare at h
  cases hbare : matchBare parse tokens with
  | noMatch => rw [hbare] at h; cases h
  | error => rw [hbare] at h; cases h
  | matched found =>
    rw [hbare] at h
    cases h
    refine ⟨rfl, ?_⟩
    unfold matchBare at hbare
    split at hbare
    · cases hbare
    · cases hbare
    next hparse =>
      obtain ⟨rfl, rfl⟩ := matchComma_eq hbare
      exact hparse

/-- A value that can be read as marked is. -/
theorem readValue_of_marked {marker : Marker} (h : Marked parse tokens marker value rest) :
    readValue parse tokens = some (some marker, value, rest) := by
  obtain ⟨inner, rfl, hinner⟩ := h
  have hcall : call? (.ident (markerWord marker) :: .group '(' inner :: .punct "," :: rest) =
      some (markerWord marker, inner, .punct "," :: rest) := rfl
  have hargument : matchArgument parse inner (.punct "," :: rest) = .matched (value, rest) := by
    simp [matchArgument, hinner, matchComma]
  simp only [readValue, hcall, marker?_eq_some_iff.mpr rfl, hargument]

theorem readValue_eq {read : Option Marker × ε × List Token}
    (h : readValue parse tokens = some read) :
    (∃ marker, read.1 = some marker ∧ Marked parse tokens marker read.2.1 read.2.2) ∨
      read.1 = none ∧ Plain parse tokens read.2.1 read.2.2 := by
  unfold readValue at h
  cases hcall : call? tokens with
  | none =>
    simp only [hcall] at h
    exact Or.inr (readBare_eq h)
  | some call =>
    obtain ⟨word, inner, after⟩ := call
    simp only [hcall] at h
    cases hmarker : marker? word with
    | none =>
      simp only [hmarker] at h
      exact Or.inr (readBare_eq h)
    | some marker =>
      simp only [hmarker] at h
      cases hargument : matchArgument parse inner after with
      | noMatch =>
        simp only [hargument] at h
        exact Or.inr (readBare_eq h)
      | error =>
        simp only [hargument] at h
        cases h
      | matched found =>
        simp only [hargument] at h
        cases h
        obtain ⟨hinner, hafter⟩ := matchArgument_eq hargument
        refine Or.inl ⟨marker, rfl, inner, ?_, hinner⟩
        rw [call?_eq hcall, hafter, marker?_eq_some_iff.mp hmarker]

/-- A field that is read is written in front of the rest. -/
theorem spells_of_readField {read : Field ε × List Token} (h : readField parse tokens = some read)
    {fields : List (Field ε)} (hrest : Spells parse read.2 fields) :
    Spells parse tokens (read.1 :: fields) := by
  have hnamed : ∃ isDetail named, matchName isDetail tokens = some named ∧
      readNamed parse isDetail named.1 named.2 = some read := by
    unfold readField at h
    cases hdetail : matchName true tokens with
    | some named =>
      rw [hdetail] at h
      exact ⟨true, named, hdetail, h⟩
    | none =>
      rw [hdetail] at h
      cases hplain : matchName false tokens with
      | some named =>
        simp only [hplain] at h
        exact ⟨false, named, hplain, h⟩
      | none =>
        simp only [hplain] at h
        cases h
  obtain ⟨isDetail, named, hname, hread⟩ := hnamed
  obtain ⟨found, hfound, rfl⟩ := Option.map_eq_some_iff.mp hread
  rw [matchName_eq hname]
  obtain ⟨marker, hmarker, hvalue⟩ | ⟨hnone, hvalue⟩ := readValue_eq hfound
  · simp only [hmarker]
    exact .marked hvalue hrest
  · simp only [hnone]
    refine .plain hvalue (fun marker inner after hmarked => ?_) hrest
    rw [readValue_of_marked hmarked] at hfound
    cases hfound
    cases hnone

theorem spells_of_isEnd (h : isEnd tokens = true) : Spells parse tokens [] := by
  unfold isEnd at h
  split at h
  · exact .nil
  next mark =>
    rw [of_decide_eq_true h]
    exact .comma
  · cases h

/-- The fields of a list are those it is written with. -/
theorem spells_of_munch {limit : ℕ} {output read : List (Field ε)}
    (h : Muncher.munch isEnd (readField parse) limit output tokens = some read) :
    ∃ fields, read = output ++ fields ∧ Spells parse tokens fields := by
  induction limit generalizing output tokens with
  | zero => cases h
  | succ limit ih =>
    rw [Muncher.munch] at h
    split at h
    next hend =>
      cases h
      exact ⟨[], (List.append_nil _).symm, spells_of_isEnd hend⟩
    next =>
      obtain ⟨taken, htaken, hmore⟩ := Option.bind_eq_some_iff.mp h
      obtain ⟨fields, rfl, hfields⟩ := ih hmore
      refine ⟨taken.1 :: fields, by simp, ?_⟩
      exact spells_of_readField htaken hfields

theorem readFields_spells {limit : ℕ} {fields : List (Field ε)}
    (h : readFields parse limit tokens = some fields) : Spells parse tokens fields := by
  obtain ⟨found, rfl, hspells⟩ := spells_of_munch h
  simpa using hspells

end Spelling

/-! ## What a call evaluates -/

section Values

variable {ε : Type*} (evaluate : ε → ValueRef) (interest : Interest)

/-- What becomes of a field in a call. -/
def Field.materialized (field : Field ε) : Option FieldRef :=
  if interest.wants field.privacy field.detail then
    some { metadata := field.metadata, value := evaluate field.value }
  else none

/-- The positions of the fields that are wanted. -/
def wantedPositions (position : ℕ) : List (Field ε) → List ℕ
  | [] => []
  | field :: fields =>
    if interest.wants field.privacy field.detail then
      position :: wantedPositions (position + 1) fields
    else wantedPositions (position + 1) fields

/-- Over the schema of its own list the iterator gives each block its entry and is used up. -/
theorem runBlocks_fields (position : ℕ) (fields : List (Field ε)) :
    runBlocks evaluate interest position (fields.map Field.metadata) (fields.map Field.block) =
      some (fields.map (Field.materialized evaluate interest),
        wantedPositions interest position fields, []) := by
  induction fields generalizing position with
  | nil => rfl
  | cons field fields ih =>
    simp only [List.map_cons, runBlocks, ih, Option.map_some, wantedPositions, Field.materialized]
    by_cases hwants : interest.wants field.privacy field.detail = true
    · simp [hwants, Field.block]
    · simp [hwants, Field.block]

/-- The blocks do what `fieldValues` does for the shapes of the list. -/
theorem runBlocks_eq_fieldValues (position : ℕ) (metadata : List FieldMetadata)
    (fields : List (Field ε)) :
    runBlocks evaluate interest position metadata (fields.map Field.block) =
      (fieldValues interest position metadata (fields.map (Field.shape evaluate))).map fun read =>
        (read.1, read.2, metadata.drop fields.length) := by
  induction fields generalizing position metadata with
  | nil => cases metadata <;> rfl
  | cons field fields ih =>
    cases metadata with
    | nil => rfl
    | cons entry metadata =>
      have hprivacy : (field.shape evaluate).privacy = field.privacy := rfl
      have hdetail : (field.shape evaluate).detail = field.detail := rfl
      simp only [List.map_cons, runBlocks, fieldValues, ih, Option.map_map, hprivacy, hdetail]
      congr 1
      funext read
      by_cases hwants : interest.wants field.privacy field.detail = true
      · simp [hwants, Field.block, Field.shape]
      · simp [hwants, Field.block]

variable {interest}

theorem mem_wantedPositions_iff {position i : ℕ} {fields : List (Field ε)} :
    i ∈ wantedPositions interest position fields ↔
      ∃ k field, i = position + k ∧ fields[k]? = some field ∧
        interest.wants field.privacy field.detail = true := by
  induction fields generalizing position with
  | nil => simp [wantedPositions]
  | cons field fields ih =>
    have hsplit : (∃ k found, i = position + k ∧ (field :: fields)[k]? = some found ∧
          interest.wants found.privacy found.detail = true) ↔
        (i = position ∧ interest.wants field.privacy field.detail = true) ∨
          ∃ k found, i = position + 1 + k ∧ fields[k]? = some found ∧
            interest.wants found.privacy found.detail = true := by
      constructor
      · rintro ⟨k, found, rfl, hget, hwants⟩
        cases k with
        | zero =>
          cases hget
          exact Or.inl ⟨rfl, hwants⟩
        | succ k => exact Or.inr ⟨k, found, by omega, hget, hwants⟩
      · rintro (⟨rfl, hwants⟩ | ⟨k, found, rfl, hget, hwants⟩)
        · exact ⟨0, field, rfl, rfl, hwants⟩
        · exact ⟨k + 1, found, by omega, hget, hwants⟩
    rw [hsplit, wantedPositions, ← ih]
    by_cases hwants : interest.wants field.privacy field.detail = true
    · simp [hwants]
    · simp [hwants]

/-- Each is evaluated once, in the order of the list. -/
theorem wantedPositions_pairwise (position : ℕ) (fields : List (Field ε)) :
    (wantedPositions interest position fields).Pairwise (· < ·) := by
  induction fields generalizing position with
  | nil => exact .nil
  | cons field fields ih =>
    rw [wantedPositions]
    split
    · refine .cons (fun i hi => ?_) (ih (position + 1))
      obtain ⟨k, _, rfl, -, -⟩ := mem_wantedPositions_iff.mp hi
      omega
    · exact ih (position + 1)

end Values

/-- **The two expansions of a field list are in lockstep.** Both reject a list or neither does. In
an accepted one every field is of one of the eight shapes; the schema has an entry for each, in
order; and evaluated over the schema, the array of the values has for each field its own entry and
its own expression where the entry's privacy and detail are wanted, and nothing where they are not.
No other expression is evaluated, none twice, and the iterator ends with the list. -/
theorem expansions_in_lockstep {ε : Type*} (parse : List Token → Parsed ε) (limit : ℕ)
    (tokens : List Token) (evaluate : ε → ValueRef) (interest : Interest) :
    (fieldMetadataMacro parse limit [] (tokens ++ [.punct ","]) = none ↔
        fieldValuesMacro parse limit [] (tokens ++ [.punct ","]) = none) ∧
      ∀ schema, fieldMetadataMacro parse limit [] (tokens ++ [.punct ","]) = some schema →
        ∃ fields blocks values evaluated,
          Spells parse (tokens ++ [.punct ","]) fields ∧ schema = fields.map Field.metadata ∧
          fieldValuesMacro parse limit [] (tokens ++ [.punct ","]) = some blocks ∧
          runBlocks evaluate interest 0 schema blocks = some (values, evaluated, []) ∧
          values.length = schema.length ∧
          (∀ (i : ℕ) field entry, fields[i]? = some field → schema[i]? = some entry →
            values[i]? = some
              (if interest.wants entry.privacy entry.detail then
                some { metadata := entry, value := evaluate field.value }
              else none)) ∧
          (∀ i : ℕ, i ∈ evaluated ↔ ∃ entry, schema[i]? = some entry ∧
            interest.wants entry.privacy entry.detail = true) ∧
          evaluated.Pairwise (· < ·) := by
  rw [fieldMetadataMacro_eq, fieldValuesMacro_eq, Option.map_eq_none_iff, Option.map_eq_none_iff]
  refine ⟨Iff.rfl, fun schema hschema => ?_⟩
  obtain ⟨fields, hfields, rfl⟩ := Option.map_eq_some_iff.mp hschema
  refine ⟨fields, fields.map Field.block, fields.map (Field.materialized evaluate interest),
    wantedPositions interest 0 fields, readFields_spells hfields, rfl, ?_,
    runBlocks_fields evaluate interest 0 fields, ?_, ?_, ?_, wantedPositions_pairwise 0 fields⟩
  · rw [hfields]
    rfl
  · rw [List.length_map, List.length_map]
  · intro i field entry hfield hentry
    rw [List.getElem?_map, hfield] at hentry
    cases hentry
    rw [List.getElem?_map, hfield]
    rfl
  · intro i
    rw [mem_wantedPositions_iff]
    constructor
    · rintro ⟨k, field, rfl, hget, hwants⟩
      rw [Nat.zero_add, List.getElem?_map, hget]
      exact ⟨field.metadata, rfl, hwants⟩
    · rintro ⟨entry, hentry, hwants⟩
      rw [List.getElem?_map] at hentry
      obtain ⟨field, hget, rfl⟩ := Option.map_eq_some_iff.mp hentry
      exact ⟨i, field, (Nat.zero_add i).symm, hget, hwants⟩

section

/-- Reads an expression without commas, which ends with the next one. -/
def parseCommaFree (tokens : List Token) : Parsed (List Token) :=
  let isComma : Token → Bool := fun token =>
    match token with
    | .punct mark => mark = ","
    | _ => false
  match tokens.span fun token => !isComma token with
  | ([], _) => .noBegin
  | (value, rest) => .parsed value rest

/-- `implicit = width(1), shifted = support(x) + 1, detail deferred = secret(width(3))` -/
def callFields : List Token :=
  [.ident "implicit", .punct "=", .ident "width", .group '(' [.literal "1"], .punct ",",
    .ident "shifted", .punct "=", .ident "support", .group '(' [.ident "x"], .punct "+",
    .literal "1", .punct ",",
    .ident "detail", .ident "deferred", .punct "=", .ident "secret",
    .group '(' [.ident "width", .group '(' [.literal "3"]]]

theorem callFields_in_lockstep :
    ∃ blocks values evaluated,
      fieldValuesMacro parseCommaFree 8 [] (callFields ++ [.punct ","]) = some blocks ∧
        runBlocks (fun value => .u64 (UInt64.ofNat value.length)) Interest.CORE_LOCAL 0
          [{ name := "implicit", privacy := .localOnly, detail := .core },
            { name := "shifted", privacy := .localOnly, detail := .core },
            { name := "deferred", privacy := .secret, detail := .detail }] blocks =
          some (values, evaluated, []) ∧ values.length = 3 := by
  obtain ⟨_, blocks, values, evaluated, -, -, hblocks, hrun, hlength, -, -, -⟩ :=
    (expansions_in_lockstep parseCommaFree 8 callFields
      (fun value => .u64 (UInt64.ofNat value.length)) Interest.CORE_LOCAL).2
      [{ name := "implicit", privacy := .localOnly, detail := .core },
        { name := "shifted", privacy := .localOnly, detail := .core },
        { name := "deferred", privacy := .secret, detail := .detail }] (by decide)
  exact ⟨blocks, values, evaluated, hblocks, hrun, hlength⟩

end

end Logwise.FieldMacros
