import Logwise.Proc.Angles
import Mathlib.Data.List.Nodup

/-!
# The argument list

What `build_kvs` accepts, as a grammar of the tokens after the format string, and what it does with
everything else. `keys` come from `parse_key`, values from `parse_value`; together they take the
input apart without losing a token.
-/

namespace Logwise.Proc

variable (display : Delimiter → TokenStream → String)

/-- The concatenated text of the tokens of a key. -/
def keyText : TokenStream → String
  | [] => ""
  | token :: run => token.text display ++ keyText run

/-- No token of the run is a punctuation mark. -/
def NoPunct (run : TokenStream) : Prop := ∀ token ∈ run, token.punct? = none

/-- `parse_value` reads these tokens as one value, and would end it at a comma. -/
structure Delimited (value : TokenStream) : Prop where
  passes : Passes [] value
  closed : (Scan.after value).genericDepth = 0

/-- Entries `key = value,` with what is left after them. -/
inductive Entries : TokenStream → List (String × TokenStream) → TokenStream → Prop
  | none (rest : TokenStream) : Entries rest [] rest
  | entry {run value input rest : TokenStream} {pairs : List (String × TokenStream)}
      {equals comma : Spacing} (hrun : NoPunct run) (hvalue : Delimited value)
      (h : Entries input pairs rest) :
      Entries (run ++ .punct '=' equals :: (value ++ .punct ',' comma :: input))
        ((keyText display run, value) :: pairs) rest

/-- The entries after the first comma. The last one may do without its comma; tokens at the end
that have no text, as an empty invisible group, are no entry. -/
inductive Arguments (input : TokenStream) : List (String × TokenStream) → Prop
  | closed {pairs : List (String × TokenStream)} {rest : TokenStream}
      (h : Entries display input pairs rest) (hrest : NoPunct rest)
      (hempty : keyText display rest = "") : Arguments input pairs
  | last {pairs : List (String × TokenStream)} {run value : TokenStream} {equals : Spacing}
      (h : Entries display input pairs (run ++ .punct '=' equals :: value)) (hrun : NoPunct run)
      (hvalue : Passes [] value) : Arguments input (pairs ++ [(keyText display run, value)])

theorem Arguments.entry {input run value : TokenStream} {pairs : List (String × TokenStream)}
    (h : Arguments display input pairs) (hrun : NoPunct run) (hvalue : Delimited value)
    {equals comma : Spacing} :
    Arguments display (run ++ .punct '=' equals :: (value ++ .punct ',' comma :: input))
      ((keyText display run, value) :: pairs) := by
  cases h with
  | closed h hrest hempty => exact .closed (.entry hrun hvalue h) hrest hempty
  | last h hlast hpasses => exact .last (.entry hrun hvalue h) hlast hpasses

/-- A token that is no mark is added to the key. -/
theorem parseKeyFrom_cons {token : TokenTree} (h : token.punct? = none) (key : String)
    (input : TokenStream) : parseKeyFrom display key (token :: input) =
      parseKeyFrom display (key ++ token.text display) input := by
  cases token with
  | punct char spacing => cases h
  | group delimiter stream => rfl
  | ident name => rfl
  | literal text => rfl

/-- A run of such tokens is read to its end. -/
theorem parseKeyFrom_append {run : TokenStream} (h : NoPunct run) (key : String)
    (input : TokenStream) : parseKeyFrom display key (run ++ input) =
      parseKeyFrom display (key ++ keyText display run) input := by
  induction run generalizing key with
  | nil => simp [keyText]
  | cons token run ih =>
    rw [List.cons_append, parseKeyFrom_cons display (h token (List.mem_cons_self ..)),
      ih fun token htoken => h token (List.mem_cons_of_mem _ htoken), keyText, String.append_assoc]

/-- How an input goes on after its first run of tokens that are no marks. -/
theorem exists_run (input : TokenStream) : ∃ run rest, input = run ++ rest ∧ NoPunct run ∧
    (rest = [] ∨ ∃ char spacing rest', rest = .punct char spacing :: rest') := by
  induction input with
  | nil => exact ⟨[], [], rfl, (fun _ h => by cases h), Or.inl rfl⟩
  | cons token input ih =>
    cases hmark : token.punct? with
    | none =>
      obtain ⟨run, rest, rfl, hrun, hrest⟩ := ih
      refine ⟨token :: run, rest, rfl, fun t ht => ?_, hrest⟩
      obtain rfl | ht := List.mem_cons.mp ht
      · exact hmark
      · exact hrun t ht
    | some mark =>
      refine ⟨[], token :: input, rfl, (fun _ h => by cases h), Or.inr ?_⟩
      cases token with
      | punct char spacing => exact ⟨char, spacing, input, rfl⟩
      | group delimiter stream => cases hmark
      | ident name => cases hmark
      | literal text => cases hmark

/-- How a value ends: with the input, or at a comma. -/
theorem exists_value (before input : TokenStream) :
    (Passes before input ∧ parseValueFrom (.after before) input = (before ++ input, [])) ∨
      ∃ value comma rest, input = value ++ .punct ',' comma :: rest ∧ Passes before value ∧
        (Scan.after (before ++ value)).genericDepth = 0 ∧
        parseValueFrom (.after before) input = (before ++ value, rest) := by
  induction input generalizing before with
  | nil => exact Or.inl ⟨trivial, by rw [parseValueFrom, Scan.value_after, List.append_nil]⟩
  | cons token input ih =>
    by_cases hends : (Scan.after before).ends token = true
    · obtain ⟨hcomma, hdepth⟩ := of_decide_eq_true hends
      obtain ⟨comma, rfl⟩ := TokenTree.eq_punct hcomma
      refine Or.inr ⟨[], comma, input, rfl, trivial, ?_, ?_⟩
      · rw [List.append_nil]
        exact hdepth
      · rw [List.append_nil, parseValueFrom_comma hdepth]
    · have hgoes := Bool.eq_false_iff.mpr hends
      have hstep : parseValueFrom (.after before) (token :: input) =
          parseValueFrom (.after (before ++ [token])) input := by
        rw [parseValueFrom, if_neg hends, Scan.after_concat]
      obtain ⟨hpasses, hparse⟩ | ⟨value, comma, rest, rfl, hpasses, hdepth, hparse⟩ :=
        ih (before ++ [token])
      · refine Or.inl ⟨⟨hgoes, hpasses⟩, ?_⟩
        rw [hstep, hparse, List.append_assoc]
        rfl
      · rw [List.append_assoc] at hdepth hparse
        exact Or.inr ⟨token :: value, comma, rest, rfl, ⟨hgoes, hpasses⟩, hdepth,
          hstep.trans hparse⟩

/-- A run that is not followed by `=`: something else comes, or it has text and nothing comes. -/
def Unkeyed (run rest : TokenStream) : Prop :=
  (rest = [] ∧ keyText display run ≠ "") ∨
    ∃ char spacing rest', rest = .punct char spacing :: rest' ∧ char ≠ '='

theorem parseKey_key {run : TokenStream} (h : NoPunct run) (equals : Spacing)
    (rest : TokenStream) : parseKey display (run ++ .punct '=' equals :: rest) =
      (.key (keyText display run), rest) := by
  rw [parseKey, parseKeyFrom_append display h, String.empty_append, parseKeyFrom, if_pos rfl]

theorem parseKey_finished {run : TokenStream} (h : NoPunct run) (hempty : keyText display run = "") :
    parseKey display run = (.finished, []) := by
  have hrun := parseKeyFrom_append display h "" []
  rw [List.append_nil, hempty] at hrun
  exact hrun

theorem parseKey_malformed {run rest : TokenStream} (h : NoPunct run)
    (hrest : Unkeyed display run rest) :
    ∃ text rest', parseKey display (run ++ rest) = (.malformed text, rest') := by
  rw [parseKey, parseKeyFrom_append display h, String.empty_append]
  obtain ⟨rfl, htext⟩ | ⟨char, spacing, rest', rfl, hchar⟩ := hrest
  · rw [parseKeyFrom, if_neg (by simpa using htext)]
    exact ⟨_, _, rfl⟩
  · rw [parseKeyFrom, if_neg hchar]
    exact ⟨_, _, rfl⟩

/-- What `parse_key` finds. -/
theorem exists_key (input : TokenStream) :
    (NoPunct input ∧ keyText display input = "") ∨
      (∃ run rest, input = run ++ rest ∧ NoPunct run ∧ Unkeyed display run rest) ∨
      ∃ run equals rest, input = run ++ .punct '=' equals :: rest ∧ NoPunct run := by
  obtain ⟨run, rest, rfl, hrun, rfl | ⟨char, spacing, rest', rfl⟩⟩ := exists_run input
  · by_cases hempty : keyText display run = ""
    · rw [List.append_nil]
      exact Or.inl ⟨hrun, hempty⟩
    · exact Or.inr (Or.inl ⟨run, [], rfl, hrun, Or.inl ⟨rfl, hempty⟩⟩)
  · by_cases hchar : char = '='
    · subst hchar
      exact Or.inr (Or.inr ⟨run, spacing, rest', rfl, hrun⟩)
    · exact Or.inr (Or.inl ⟨run, _, rfl, hrun, Or.inr ⟨char, spacing, rest', rfl, hchar⟩⟩)

/-! ## The loop -/

section

variable {display} {kvs pairs : List (String × TokenStream)} {input rest : TokenStream}

theorem parseKey_nil : parseKey display [] = (.finished, []) := rfl

theorem buildKvsFrom_finished (h : parseKey display input = (.finished, rest)) :
    buildKvsFrom display kvs input = .ok kvs := by
  rw [buildKvsFrom]
  split
  next => rfl
  next hparse => cases h.symm.trans hparse
  next hparse => cases h.symm.trans hparse

theorem buildKvsFrom_malformed {text : String}
    (h : parseKey display input = (.malformed text, rest)) :
    buildKvsFrom display kvs input = .error (malformedMessage text) := by
  rw [buildKvsFrom]
  split
  next hparse => cases h.symm.trans hparse
  next hparse =>
    cases h.symm.trans hparse
    rfl
  next hparse => cases h.symm.trans hparse

theorem buildKvsFrom_key {key : String} (h : parseKey display input = (.key key, rest)) :
    buildKvsFrom display kvs input =
      if kvs.any fun pair => pair.1 = key then .error ("Duplicate key " ++ key)
      else buildKvsFrom display (kvs ++ [(key, (parseValue rest).1)]) (parseValue rest).2 := by
  rw [buildKvsFrom]
  split
  next hparse => cases h.symm.trans hparse
  next hparse => cases h.symm.trans hparse
  next hparse =>
    cases h.symm.trans hparse
    rfl

theorem any_key_iff {key : String} :
    (kvs.any fun pair => decide (pair.1 = key)) = true ↔ key ∈ kvs.map Prod.fst := by
  simp

theorem nodup_concat {key : String} {value : TokenStream} (h : (kvs.map Prod.fst).Nodup) :
    ((kvs ++ [(key, value)]).map Prod.fst).Nodup ↔ key ∉ kvs.map Prod.fst := by
  rw [List.map_append, List.nodup_append]
  constructor
  · intro hnodup hmem
    exact hnodup.2.2 key hmem key (List.mem_singleton_self key) rfl
  · intro hfresh
    refine ⟨h, List.nodup_singleton _, fun a ha b hb hab => ?_⟩
    have hkey : a = key := hab.trans (List.mem_singleton.mp hb)
    exact hfresh (hkey ▸ ha)

/-- One entry: its key is new and the loop goes on after its comma, or the loop stops. -/
theorem buildKvsFrom_entry {run value : TokenStream} (equals comma : Spacing)
    (hrun : NoPunct run) (hvalue : Delimited value) :
    buildKvsFrom display kvs (run ++ .punct '=' equals :: (value ++ .punct ',' comma :: input)) =
      if keyText display run ∈ kvs.map Prod.fst then
        .error ("Duplicate key " ++ keyText display run)
      else buildKvsFrom display (kvs ++ [(keyText display run, value)]) input := by
  have hparse : parseValue (value ++ .punct ',' comma :: input) = (value, input) :=
    (parseValueFrom_append hvalue.passes _).trans (parseValueFrom_comma hvalue.closed comma input)
  rw [buildKvsFrom_key (parseKey_key display hrun equals _), hparse]
  exact if_congr any_key_iff rfl rfl

/-- Entries are read one after the other, as long as their keys are new. -/
theorem Entries.buildKvsFrom (h : Entries display input pairs rest)
    (hkvs : (kvs.map Prod.fst).Nodup) :
    (((kvs ++ pairs).map Prod.fst).Nodup →
      Proc.buildKvsFrom display kvs input = Proc.buildKvsFrom display (kvs ++ pairs) rest) ∧
    (¬ ((kvs ++ pairs).map Prod.fst).Nodup →
      ∃ key, Proc.buildKvsFrom display kvs input = .error ("Duplicate key " ++ key)) := by
  induction h generalizing kvs with
  | none rest =>
    rw [List.append_nil]
    exact ⟨fun _ => rfl, fun hdup => absurd hkvs hdup⟩
  | @entry run value input rest pairs equals comma hrun hvalue h ih =>
    rw [buildKvsFrom_entry equals comma hrun hvalue]
    by_cases hmem : keyText display run ∈ kvs.map Prod.fst
    · rw [if_pos hmem]
      refine ⟨fun hnodup => absurd hmem ?_, fun _ => ⟨_, rfl⟩⟩
      rw [List.append_cons, List.map_append] at hnodup
      exact (nodup_concat hkvs).mp hnodup.of_append_left
    · rw [if_neg hmem, List.append_cons]
      exact ih ((nodup_concat hkvs).mpr hmem)

/-- What is accepted is a list of arguments with keys of its own. -/
theorem buildKvsFrom_sound (h : buildKvsFrom display kvs input = .ok pairs)
    (hkvs : (kvs.map Prod.fst).Nodup) :
    ∃ added, pairs = kvs ++ added ∧ Arguments display input added ∧ (pairs.map Prod.fst).Nodup := by
  obtain ⟨length, hlength⟩ : ∃ length, input.length = length := ⟨_, rfl⟩
  induction length using Nat.strong_induction_on generalizing kvs input with
  | _ length ih =>
    obtain ⟨hrun, hempty⟩ | ⟨run, rest, rfl, hrun, hrest⟩ | ⟨run, equals, rest, rfl, hrun⟩ :=
      exists_key display input
    · rw [buildKvsFrom_finished (parseKey_finished display hrun hempty)] at h
      cases h
      exact ⟨[], (List.append_nil _).symm, .closed (.none input) hrun hempty, hkvs⟩
    · obtain ⟨text, rest', hparse⟩ := parseKey_malformed display hrun hrest
      rw [buildKvsFrom_malformed hparse] at h
      cases h
    · rw [buildKvsFrom_key (parseKey_key display hrun equals rest)] at h
      split at h
      · cases h
      next hfresh =>
        have hnodup {value : TokenStream} :
            ((kvs ++ [(keyText display run, value)]).map Prod.fst).Nodup :=
          (nodup_concat hkvs).mpr fun hmem => hfresh (any_key_iff.mpr hmem)
        obtain ⟨hpasses, hparse⟩ | ⟨value, comma, rest', rfl, hpasses, hclosed, hparse⟩ :=
          exists_value [] rest
        · have hvalue : parseValue rest = (rest, []) := hparse
          rw [hvalue, buildKvsFrom_finished parseKey_nil] at h
          cases h
          have hlast : Arguments display (run ++ .punct '=' equals :: rest)
              ([] ++ [(keyText display run, rest)]) := .last (.none _) hrun hpasses
          exact ⟨[(keyText display run, rest)], rfl, hlast, hnodup⟩
        · have hvalue : parseValue (value ++ .punct ',' comma :: rest') = (value, rest') := hparse
          rw [hvalue] at h
          obtain ⟨added, rfl, hadded, hall⟩ := ih rest'.length (by
            rw [← hlength]
            simp only [List.length_append, List.length_cons]
            omega) h hnodup rfl
          refine ⟨(keyText display run, value) :: added, (List.append_cons ..).symm, ?_, hall⟩
          exact hadded.entry display hrun ⟨hpasses, hclosed⟩

/-- Every list of arguments with keys of its own is accepted. -/
theorem buildKvsFrom_complete (h : Arguments display input pairs)
    (hnodup : ((kvs ++ pairs).map Prod.fst).Nodup) :
    buildKvsFrom display kvs input = .ok (kvs ++ pairs) := by
  have hkvs : (kvs.map Prod.fst).Nodup := by
    rw [List.map_append] at hnodup
    exact hnodup.of_append_left
  cases h with
  | closed h hrest hempty =>
    rw [(h.buildKvsFrom hkvs).1 hnodup,
      buildKvsFrom_finished (parseKey_finished display hrest hempty)]
  | @last pairs run value equals h hrun hpasses =>
    have hvalue : parseValue value = (value, []) := by
      have hend := parseValueFrom_append hpasses []
      rw [List.append_nil] at hend
      exact hend.trans (congrArg (·, []) (Scan.value_after value))
    rw [← List.append_assoc] at hnodup ⊢
    have hbefore : ((kvs ++ pairs).map Prod.fst).Nodup := by
      rw [List.map_append] at hnodup
      exact hnodup.of_append_left
    have hfresh := (nodup_concat hbefore).mp hnodup
    rw [(h.buildKvsFrom hkvs).1 hbefore, buildKvsFrom_key (parseKey_key display hrun equals value),
      if_neg fun hmem => hfresh (any_key_iff.mp hmem), hvalue, buildKvsFrom_finished parseKey_nil]

/-- A key that comes twice is found, in the last entry as well. -/
theorem Arguments.duplicate (h : Arguments display input pairs) (hkvs : (kvs.map Prod.fst).Nodup)
    (hdup : ¬ ((kvs ++ pairs).map Prod.fst).Nodup) :
    ∃ key, buildKvsFrom display kvs input = .error ("Duplicate key " ++ key) := by
  cases h with
  | closed h hrest hempty => exact (h.buildKvsFrom hkvs).2 hdup
  | @last pairs run value equals h hrun hpasses =>
    rw [← List.append_assoc] at hdup
    by_cases hbefore : ((kvs ++ pairs).map Prod.fst).Nodup
    · refine ⟨keyText display run, ?_⟩
      have hmem := not_not.mp (mt (nodup_concat hbefore).mpr hdup)
      rw [(h.buildKvsFrom hkvs).1 hbefore, buildKvsFrom_key (parseKey_key display hrun equals value),
        if_pos (any_key_iff.mpr hmem)]
    · exact (h.buildKvsFrom hkvs).2 hbefore

end

/-! ## The whole list -/

/-- The tokens after the format string are these arguments: none at all, or a comma and entries. -/
def IsArguments (input : TokenStream) (pairs : List (String × TokenStream)) : Prop :=
  (input = [] ∧ pairs = []) ∨
    ∃ comma rest, input = .punct ',' comma :: rest ∧ Arguments display rest pairs

variable {display} {input : TokenStream} {pairs : List (String × TokenStream)}

theorem buildKvs_comma (comma : Spacing) (rest : TokenStream) :
    buildKvs display (.punct ',' comma :: rest) = buildKvsFrom display [] rest := by
  have hcomma : (TokenTree.punct ',' comma).isPunct ',' = true := rfl
  rw [buildKvs, if_pos hcomma]

theorem buildKvs_other (hempty : input ≠ []) (h : ∀ comma rest, input ≠ .punct ',' comma :: rest) :
    buildKvs display input = .error "Expected ','" := by
  cases input with
  | nil => exact absurd rfl hempty
  | cons token rest =>
    rw [buildKvs, if_neg]
    intro hcomma
    obtain ⟨spacing, rfl⟩ := TokenTree.eq_punct hcomma
    exact h spacing rest rfl

/-- **The grammar** of what `build_kvs` accepts. -/
theorem buildKvs_ok_iff : buildKvs display input = .ok pairs ↔
    IsArguments display input pairs ∧ (pairs.map Prod.fst).Nodup := by
  constructor
  · intro h
    by_cases hempty : input = []
    · subst hempty
      cases h
      exact ⟨Or.inl ⟨rfl, rfl⟩, List.nodup_nil⟩
    · by_cases hcomma : ∃ comma rest, input = .punct ',' comma :: rest
      · obtain ⟨comma, rest, rfl⟩ := hcomma
        rw [buildKvs_comma] at h
        obtain ⟨added, rfl, hadded, hnodup⟩ := buildKvsFrom_sound h List.nodup_nil
        exact ⟨Or.inr ⟨comma, rest, rfl, hadded⟩, hnodup⟩
      · rw [buildKvs_other hempty fun comma rest heq => hcomma ⟨comma, rest, heq⟩] at h
        cases h
  · rintro ⟨⟨rfl, rfl⟩ | ⟨comma, rest, rfl, hrest⟩, hnodup⟩
    · rfl
    · rw [buildKvs_comma]
      exact buildKvsFrom_complete hrest hnodup

/-- **Nothing is dropped**: what is accepted is no argument at all or a comma and the entries, token
by token; an input that begins otherwise, a run that has no `=` and a key that comes twice are
errors, wherever they come. -/
theorem buildKvs_partitions (display : Delimiter → TokenStream → String) (input : TokenStream) :
    (∀ pairs, buildKvs display input = .ok pairs ↔
      IsArguments display input pairs ∧ (pairs.map Prod.fst).Nodup) ∧
    (input ≠ [] → (∀ comma rest, input ≠ .punct ',' comma :: rest) →
      buildKvs display input = .error "Expected ','") ∧
    ∀ comma rest pairs, input = .punct ',' comma :: rest →
      (∀ run tail, Entries display rest pairs (run ++ tail) → NoPunct run →
        Unkeyed display run tail → ∃ message, buildKvs display input = .error message) ∧
      ((∃ after, Entries display rest pairs after) ∨ Arguments display rest pairs →
        ¬ (pairs.map Prod.fst).Nodup →
          ∃ key, buildKvs display input = .error ("Duplicate key " ++ key)) := by
  refine ⟨fun pairs => buildKvs_ok_iff, buildKvs_other, ?_⟩
  rintro comma rest pairs rfl
  rw [buildKvs_comma]
  have hstart : (([] : List (String × TokenStream)).map Prod.fst).Nodup := List.nodup_nil
  refine ⟨fun run tail hentries hrun htail => ?_, ?_⟩
  · obtain ⟨hgo, hdup⟩ := hentries.buildKvsFrom hstart
    by_cases hnodup : (([] ++ pairs).map Prod.fst).Nodup
    · obtain ⟨text, rest', hparse⟩ := parseKey_malformed display hrun htail
      exact ⟨_, (hgo hnodup).trans (buildKvsFrom_malformed hparse)⟩
    · obtain ⟨key, hkey⟩ := hdup hnodup
      exact ⟨_, hkey⟩
  · rintro (⟨after, hentries⟩ | harguments) hnodup
    · exact (hentries.buildKvsFrom hstart).2 hnodup
    · exact harguments.duplicate List.nodup_nil hnodup

/-- A call without arguments: no comma is there, and none is missed. -/
theorem buildKvs_without_arguments :
    (∀ comma rest, ([] : TokenStream) ≠ .punct ',' comma :: rest) ∧
      ∀ display, buildKvs display [] = .ok [] :=
  ⟨fun _ _ h => (by cases h), fun _ => rfl⟩

end Logwise.Proc
