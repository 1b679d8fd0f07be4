import Logwise.Proc.Tokens

/-!
# Commas between angle brackets

A value with the angle brackets it really has, and where `parse_value` ends it. The scan opens a
list at a `<` that follows two colons or begins the value; a qualified path in the middle of a value
goes unnoticed, and a comma in it ends the value unless a turbofish covers it.
-/

namespace Logwise.Proc

namespace Scan

/-- The scan when these tokens have been pushed. -/
def after (tokens : TokenStream) : Scan := tokens.foldl push new

theorem after_concat (tokens : TokenStream) (token : TokenTree) :
    after (tokens ++ [token]) = (after tokens).push token := by
  rw [after, List.foldl_append]
  rfl

@[simp] theorem value_push (scan : Scan) (token : TokenTree) :
    (scan.push token).value = scan.value ++ [token] := by
  cases token <;> rfl

theorem prevPunct_push (scan : Scan) (token : TokenTree) :
    (scan.push token).prevPunct = token.punct? := by
  cases token <;> rfl

theorem colonRun_push (scan : Scan) (token : TokenTree) :
    (scan.push token).colonRun = if token.isPunct ':' then scan.colonRun + 1 else 0 := by
  cases token <;> simp [push, TokenTree.isPunct]

theorem value_foldl_push (tokens : TokenStream) (scan : Scan) :
    (tokens.foldl push scan).value = scan.value ++ tokens := by
  induction tokens generalizing scan with
  | nil => exact (List.append_nil _).symm
  | cons token tokens ih =>
    rw [List.foldl_cons, ih, value_push, List.append_assoc]
    rfl

@[simp] theorem value_after (tokens : TokenStream) : (after tokens).value = tokens :=
  value_foldl_push tokens new

end Scan

/-- The tokens end with `::`. -/
def EndsWithColons (tokens : TokenStream) : Prop :=
  ∃ front first second, tokens = front ++ [.punct ':' first, .punct ':' second]

theorem TokenTree.eq_punct {token : TokenTree} {c : Char} (h : token.isPunct c = true) :
    ∃ spacing, token = .punct c spacing := by
  cases token with
  | punct char spacing => exact ⟨spacing, by rw [of_decide_eq_true h]⟩
  | group delimiter stream => cases h
  | ident name => cases h
  | literal text => cases h

/-- The colon run tells whether `::` comes directly before. -/
theorem Scan.two_le_colonRun_iff (tokens : TokenStream) :
    2 ≤ (after tokens).colonRun ↔ EndsWithColons tokens := by
  constructor
  · intro h
    obtain rfl | ⟨front, second, rfl⟩ := tokens.eq_nil_or_concat'
    · cases h
    · rw [after_concat, colonRun_push] at h
      split at h
      next hsecond =>
        obtain rfl | ⟨front, first, rfl⟩ := front.eq_nil_or_concat'
        · change 2 ≤ 1 at h
          omega
        · rw [after_concat, colonRun_push] at h
          split at h
          next hfirst =>
            obtain ⟨s, rfl⟩ := TokenTree.eq_punct hfirst
            obtain ⟨s', rfl⟩ := TokenTree.eq_punct hsecond
            exact ⟨front, s, s', List.append_assoc ..⟩
          next => omega
      next => omega
  · rintro ⟨front, s, s', rfl⟩
    have hsplit : front ++ [TokenTree.punct ':' s, .punct ':' s'] =
        (front ++ [.punct ':' s]) ++ [.punct ':' s'] := by simp
    rw [hsplit, after_concat, after_concat, colonRun_push, colonRun_push]
    simp [TokenTree.isPunct]

/-- `-` or `=` with the next mark attached. -/
def TokenTree.arrowHead (token : TokenTree) : Bool :=
  token.punct? = some ('-', .joint) ∨ token.punct? = some ('=', .joint)

theorem Scan.arrowHead_after_concat (before : TokenStream) (token : TokenTree) :
    (after (before ++ [token])).arrowHead = token.arrowHead := by
  rw [after_concat, arrowHead, TokenTree.arrowHead, prevPunct_push]

/-- Where `<` opens a list although no list is open: at the beginning and after `::`. -/
def Opens (before : TokenStream) : Prop := before = [] ∨ EndsWithColons before

namespace Scan

variable {before : TokenStream} {token : TokenTree}

theorem genericDepth_open (spacing : Spacing)
    (h : 0 < (after before).genericDepth ∨ Opens before) :
    (after (before ++ [.punct '<' spacing])).genericDepth = (after before).genericDepth + 1 := by
  have hopens : 0 < (after before).genericDepth ∨ 2 ≤ (after before).colonRun ∨
      (after before).value.isEmpty = true := by
    rw [two_le_colonRun_iff, value_after, List.isEmpty_iff]
    obtain hdepth | hempty | hcolons := h
    · exact Or.inl hdepth
    · exact Or.inr (Or.inr hempty)
    · exact Or.inr (Or.inl hcolons)
  rw [after_concat]
  simp only [push]
  rw [if_pos ⟨trivial, hopens⟩]

/-- Outside every list only a `<` in the right place changes the depth. -/
theorem genericDepth_zero (h : (after before).genericDepth = 0) (token : TokenTree)
    (hless : token.isPunct '<' = true → ¬ Opens before) :
    (after (before ++ [token])).genericDepth = 0 := by
  rw [after_concat]
  cases token with
  | punct char spacing =>
    simp only [push, h, Nat.lt_irrefl, false_or, false_and, and_false, if_false]
    rw [if_neg]
    rw [two_le_colonRun_iff, value_after, List.isEmpty_iff]
    rintro ⟨rfl, hcolons | hempty⟩
    · exact hless rfl (Or.inr hcolons)
    · exact hless rfl (Or.inl hempty)
  | group delimiter stream => exact h
  | ident name => exact h
  | literal text => exact h

/-- Inside a list every bracket counts. -/
theorem genericDepth_plain (hless : token.isPunct '<' = false)
    (hgreater : token.isPunct '>' = true → (after before).arrowHead = true) :
    (after (before ++ [token])).genericDepth = (after before).genericDepth := by
  rw [after_concat]
  cases token with
  | punct char spacing =>
    have hchar : char ≠ '<' := of_decide_eq_false hless
    simp only [push, hchar, false_and, if_false]
    rw [if_neg]
    rintro ⟨rfl, -, harrow⟩
    exact harrow (hgreater rfl)
  | group delimiter stream => rfl
  | ident name => rfl
  | literal text => rfl

theorem genericDepth_close (spacing : Spacing) (hdepth : 0 < (after before).genericDepth)
    (harrow : (after before).arrowHead = false) :
    (after (before ++ [.punct '>' spacing])).genericDepth = (after before).genericDepth - 1 := by
  rw [after_concat]
  simp only [push]
  have hless : ¬ '>' = '<' := by decide
  have hclose : ¬ (after before).arrowHead = true := by simp [harrow]
  rw [if_neg fun h => hless h.1, if_pos ⟨trivial, hdepth, hclose⟩]

end Scan

/-- `parse_value` goes through these tokens, after those before them, without returning. -/
def Passes : TokenStream → TokenStream → Prop
  | _, [] => True
  | before, token :: tokens =>
    (Scan.after before).ends token = false ∧ Passes (before ++ [token]) tokens

theorem passes_append {before first second : TokenStream} :
    Passes before (first ++ second) ↔ Passes before first ∧ Passes (before ++ first) second := by
  induction first generalizing before with
  | nil => simp [Passes]
  | cons token first ih =>
    rw [List.cons_append, Passes, Passes, ih, List.append_assoc, and_assoc]
    rfl

/-- Tokens that pass become part of the value. -/
theorem parseValueFrom_append {before tokens : TokenStream} (h : Passes before tokens)
    (rest : TokenStream) : parseValueFrom (.after before) (tokens ++ rest) =
      parseValueFrom (.after (before ++ tokens)) rest := by
  induction tokens generalizing before with
  | nil => rw [List.nil_append, List.append_nil]
  | cons token tokens ih =>
    rw [List.cons_append, parseValueFrom, if_neg (Bool.eq_false_iff.mp h.1), ← Scan.after_concat,
      ih h.2, List.append_assoc]
    rfl

/-- The value ends within tokens that do not pass. -/
theorem passes_of_parseValueFrom {before tokens : TokenStream}
    (h : parseValueFrom (.after before) tokens = (before ++ tokens, [])) :
    Passes before tokens := by
  induction tokens generalizing before with
  | nil => trivial
  | cons token tokens ih =>
    rw [parseValueFrom] at h
    split at h
    next =>
      have hlength := congrArg (List.length ∘ Prod.fst) h
      simp at hlength
    next hends =>
      rw [← Scan.after_concat] at h
      refine ⟨Bool.eq_false_iff.mpr hends, ih ?_⟩
      rw [h, List.append_assoc]
      rfl

/-- A comma outside every list ends the value. -/
theorem parseValueFrom_comma {before : TokenStream}
    (h : (Scan.after before).genericDepth = 0) (spacing : Spacing) (rest : TokenStream) :
    parseValueFrom (.after before) (.punct ',' spacing :: rest) = (before, rest) := by
  have hends : (Scan.after before).ends (.punct ',' spacing) = true :=
    decide_eq_true ⟨rfl, h⟩
  rw [parseValueFrom, if_pos hends, Scan.value_after]

/-! ## Values with their brackets -/

/-- Tokens with the angle brackets they have. A `<` or `>` that is an operator is a token like any
other. -/
inductive Bracketed where
  | done
  | plain (token : TokenTree) (rest : Bracketed)
  /-- `->`, or `=>` where it is fat. -/
  | arrow (fat : Bool) (spacing : Spacing) (rest : Bracketed)
  /-- `<args>`. -/
  | angle (opening : Spacing) (args : Bracketed) (closing : Spacing) (rest : Bracketed)

namespace Bracketed

def arrowMark (fat : Bool) : TokenTree := .punct (if fat then '=' else '-') .joint

def arrowTokens (fat : Bool) (spacing : Spacing) : TokenStream :=
  [arrowMark fat, .punct '>' spacing]

def tokens : Bracketed → TokenStream
  | .done => []
  | .plain token rest => token :: rest.tokens
  | .arrow fat spacing rest => arrowTokens fat spacing ++ rest.tokens
  | .angle opening args closing rest =>
    .punct '<' opening :: (args.tokens ++ .punct '>' closing :: rest.tokens)

/-- What stands between the brackets of a list: there are no operators, and the closing bracket is
not the tip of an arrow. -/
def Generic : Bracketed → Prop
  | .done => True
  | .plain token rest =>
    token.isPunct '<' = false ∧ token.isPunct '>' = false ∧
      (rest = .done → token.arrowHead = false) ∧ rest.Generic
  | .arrow _ _ rest => rest.Generic
  | .angle _ args _ rest => args.Generic ∧ rest.Generic

/-- An operator `<` does not stand where `<` can only open a list. -/
def Placed : TokenStream → Bracketed → Prop
  | _, .done => True
  | before, .plain token rest =>
    (token.isPunct '<' = true → ¬ Opens before) ∧ rest.Placed (before ++ [token])
  | before, .arrow fat spacing rest => rest.Placed (before ++ arrowTokens fat spacing)
  | before, .angle opening args closing rest =>
    args.Generic ∧
      rest.Placed (before ++ .punct '<' opening :: (args.tokens ++ [.punct '>' closing]))

/-- Every comma stands in a list. -/
def Enclosed : Bracketed → Prop
  | .done => True
  | .plain token rest => token.isPunct ',' = false ∧ rest.Enclosed
  | .arrow _ _ rest => rest.Enclosed
  | .angle _ _ _ rest => rest.Enclosed

def StartsWithColons (tokens : TokenStream) : Prop :=
  ∃ first second rest, tokens = .punct ':' first :: .punct ':' second :: rest

/-- Every list belongs to a turbofish, which it ends, or to a qualified path, which it begins. -/
def Paths : TokenStream → Bracketed → Prop
  | _, .done => True
  | before, .plain token rest => rest.Paths (before ++ [token])
  | before, .arrow fat spacing rest => rest.Paths (before ++ arrowTokens fat spacing)
  | before, .angle opening args closing rest =>
    (EndsWithColons before ∨ StartsWithColons rest.tokens) ∧
      rest.Paths (before ++ .punct '<' opening :: (args.tokens ++ [.punct '>' closing]))

/-- The value of an argument. -/
structure IsValue (v : Bracketed) : Prop where
  placed : v.Placed []
  enclosed : v.Enclosed
  paths : v.Paths []

/-- Some comma stands neither in a turbofish nor in a list with which the value begins. -/
def BareComma : TokenStream → Bracketed → Prop
  | _, .done => False
  | before, .plain token rest => token.isPunct ',' = true ∨ rest.BareComma (before ++ [token])
  | before, .arrow fat spacing rest => rest.BareComma (before ++ arrowTokens fat spacing)
  | before, .angle opening args closing rest =>
    ¬ Opens before ∧ args.BareComma (before ++ [.punct '<' opening]) ∨
      rest.BareComma (before ++ .punct '<' opening :: (args.tokens ++ [.punct '>' closing]))

theorem Generic.placed {v : Bracketed} (h : v.Generic) (before : TokenStream) :
    v.Placed before := by
  induction v generalizing before with
  | done => trivial
  | plain token rest ih =>
    refine ⟨fun hless => ?_, ih h.2.2.2 _⟩
    exact absurd hless (Bool.eq_false_iff.mp h.1)
  | arrow fat spacing rest ih => exact ih h _
  | angle opening args closing rest ihArgs ihRest => exact ⟨h.1, ihRest h.2 _⟩

theorem isPunct_arrowMark (fat : Bool) :
    (arrowMark fat).isPunct '<' = false ∧ (arrowMark fat).isPunct '>' = false ∧
      (arrowMark fat).isPunct ',' = false ∧ (arrowMark fat).arrowHead = true := by
  cases fat <;> decide

theorem append_arrowTokens (before : TokenStream) (fat : Bool) (spacing : Spacing) :
    before ++ arrowTokens fat spacing = (before ++ [arrowMark fat]) ++ [.punct '>' spacing] := by
  simp [arrowTokens]

theorem append_angle (before args : TokenStream) (opening closing : Spacing) :
    before ++ .punct '<' opening :: (args ++ [.punct '>' closing]) =
      ((before ++ [.punct '<' opening]) ++ args) ++ [.punct '>' closing] := by
  simp

theorem tokens_angle (opening closing : Spacing) (args rest : Bracketed) :
    (angle opening args closing rest).tokens =
      .punct '<' opening :: (args.tokens ++ [.punct '>' closing]) ++ rest.tokens := by
  simp [tokens]

/-- An arrow in a list leaves it open. -/
theorem genericDepth_arrow (before : TokenStream) (fat : Bool) (spacing : Spacing) :
    (Scan.after (before ++ [arrowMark fat])).genericDepth = (Scan.after before).genericDepth ∧
      (Scan.after (before ++ arrowTokens fat spacing)).genericDepth =
        (Scan.after before).genericDepth := by
  obtain ⟨hless, hgreater, -, harrow⟩ := isPunct_arrowMark fat
  have hmark : (Scan.after (before ++ [arrowMark fat])).genericDepth =
      (Scan.after before).genericDepth :=
    Scan.genericDepth_plain hless fun hyes => absurd hyes (Bool.eq_false_iff.mp hgreater)
  refine ⟨hmark, ?_⟩
  rw [append_arrowTokens, ← hmark]
  refine Scan.genericDepth_plain rfl fun _ => ?_
  rw [Scan.arrowHead_after_concat, harrow]

theorem ends_of_ne {scan : Scan} {token : TokenTree} (h : token.isPunct ',' = false) :
    scan.ends token = false :=
  decide_eq_false fun hends => Bool.eq_false_iff.mp h hends.1

theorem goes_on {before : TokenStream} (hdepth : 0 < (Scan.after before).genericDepth)
    (token : TokenTree) : (Scan.after before).ends token = false :=
  decide_eq_false fun hends => hdepth.ne' hends.2

/-- Read inside a list, the tokens end no value and leave the list open. -/
def Kept (v : Bracketed) : Prop := ∀ before : TokenStream,
  0 < (Scan.after before).genericDepth →
    (v = .done → (Scan.after before).arrowHead = false) →
      Passes before v.tokens ∧
        (Scan.after (before ++ v.tokens)).genericDepth = (Scan.after before).genericDepth ∧
        (Scan.after (before ++ v.tokens)).arrowHead = false

/-- A list that is opened is closed. -/
theorem passes_angle {args : Bracketed} (h : args.Kept) {before : TokenStream}
    (hopens : 0 < (Scan.after before).genericDepth ∨ Opens before) (opening closing : Spacing) :
    let list := .punct '<' opening :: (args.tokens ++ [.punct '>' closing])
    Passes before list ∧
      (Scan.after (before ++ list)).genericDepth = (Scan.after before).genericDepth := by
  have hopen := Scan.genericDepth_open opening hopens
  obtain ⟨hargs, hdepth, harrow⟩ := h (before ++ [.punct '<' opening])
    (by rw [hopen]; exact Nat.succ_pos _) fun _ => by
      rw [Scan.arrowHead_after_concat]
      rfl
  rw [hopen] at hdepth
  have hopened : 0 < (Scan.after (before ++ [.punct '<' opening] ++ args.tokens)).genericDepth := by
    rw [hdepth]
    exact Nat.succ_pos _
  have hclose := Scan.genericDepth_close closing hopened harrow
  rw [hdepth, Nat.add_sub_cancel, ← append_angle] at hclose
  refine ⟨⟨ends_of_ne rfl, ?_⟩, hclose⟩
  rw [passes_append]
  exact ⟨hargs, goes_on hopened _, trivial⟩

/-- **Inside a list** nothing ends the value, and the list is open when its contents are through. -/
theorem Generic.kept {v : Bracketed} (h : v.Generic) : v.Kept := by
  induction v with
  | done =>
    intro before hdepth harrow
    rw [tokens, List.append_nil]
    exact ⟨trivial, rfl, harrow rfl⟩
  | plain token rest ih =>
    intro before hdepth harrow
    obtain ⟨hless, hgreater, hlast, hrest⟩ := h
    have hsame : (Scan.after (before ++ [token])).genericDepth =
        (Scan.after before).genericDepth :=
      Scan.genericDepth_plain hless fun hyes => absurd hyes (Bool.eq_false_iff.mp hgreater)
    obtain ⟨hpasses, hdepth', harrow'⟩ := ih hrest _ (hsame ▸ hdepth) fun hdone => by
      rw [Scan.arrowHead_after_concat]
      exact hlast hdone
    rw [List.append_assoc] at hdepth' harrow'
    exact ⟨⟨goes_on hdepth token, hpasses⟩, hdepth'.trans hsame, harrow'⟩
  | arrow fat spacing rest ih =>
    intro before hdepth harrow
    obtain ⟨hmark, hsame⟩ := genericDepth_arrow before fat spacing
    obtain ⟨hpasses, hdepth', harrow'⟩ := ih h _ (hsame ▸ hdepth) fun _ => by
      rw [append_arrowTokens, Scan.arrowHead_after_concat]
      rfl
    rw [List.append_assoc] at hdepth' harrow'
    rw [tokens, passes_append]
    exact ⟨⟨⟨goes_on hdepth _, goes_on (hmark ▸ hdepth) _, trivial⟩, hpasses⟩,
      hdepth'.trans hsame, harrow'⟩
  | angle opening args closing rest ihArgs ihRest =>
    intro before hdepth harrow
    obtain ⟨hlist, hsame⟩ := passes_angle (ihArgs h.1) (Or.inl hdepth) opening closing
    obtain ⟨hrest, hdepth', harrow'⟩ := ihRest h.2 _ (hsame ▸ hdepth) fun _ => by
      rw [append_angle, Scan.arrowHead_after_concat]
      rfl
    rw [List.append_assoc] at hdepth' harrow'
    rw [tokens_angle, passes_append]
    exact ⟨⟨hlist, hrest⟩, hdepth'.trans hsame, harrow'⟩

/-- **Outside every list** the value ends at the first bare comma, and nowhere else. -/
theorem Placed.passes {v : Bracketed} {before : TokenStream} (h : v.Placed before)
    (hdepth : (Scan.after before).genericDepth = 0) :
    (Passes before v.tokens ↔ ¬ v.BareComma before) ∧
      (Passes before v.tokens → (Scan.after (before ++ v.tokens)).genericDepth = 0) := by
  induction v generalizing before with
  | done =>
    rw [tokens, List.append_nil]
    exact ⟨iff_of_true trivial id, fun _ => hdepth⟩
  | plain token rest ih =>
    obtain ⟨hless, hrest⟩ := h
    obtain ⟨hpasses, hdepth'⟩ := ih hrest (Scan.genericDepth_zero hdepth _ hless)
    have hends : (Scan.after before).ends token = false ↔ ¬ token.isPunct ',' = true := by
      simp [Scan.ends, hdepth]
    rw [List.append_assoc] at hdepth'
    rw [tokens, Passes, BareComma, not_or, hpasses, hends]
    exact ⟨Iff.rfl, fun hall => hdepth' (hpasses.mpr hall.2)⟩
  | arrow fat spacing rest ih =>
    obtain ⟨-, hsame⟩ := genericDepth_arrow before fat spacing
    obtain ⟨hpasses, hdepth'⟩ := ih h (hsame.trans hdepth)
    have harrow : Passes before (arrowTokens fat spacing) :=
      ⟨ends_of_ne (isPunct_arrowMark fat).2.2.1, ends_of_ne rfl, trivial⟩
    rw [List.append_assoc] at hdepth'
    rw [tokens, passes_append, BareComma, and_iff_right harrow]
    exact ⟨hpasses, hdepth'⟩
  | angle opening args closing rest ihArgs ihRest =>
    obtain ⟨hargs, hrest⟩ := h
    -- a list that is noticed is passed over, one that is not is read like the value around it
    have hlist : (Passes before (.punct '<' opening :: (args.tokens ++ [.punct '>' closing])) ↔
          ¬ (¬ Opens before ∧ args.BareComma (before ++ [.punct '<' opening]))) ∧
        (Passes before (.punct '<' opening :: (args.tokens ++ [.punct '>' closing])) →
          (Scan.after (before ++
            .punct '<' opening :: (args.tokens ++ [.punct '>' closing]))).genericDepth = 0) := by
      by_cases hopens : Opens before
      · obtain ⟨hpasses, hsame⟩ := passes_angle hargs.kept (Or.inr hopens) opening closing
        exact ⟨iff_of_true hpasses fun hno => hno.1 hopens, fun _ => hsame.trans hdepth⟩
      · have hopen := Scan.genericDepth_zero hdepth (.punct '<' opening) fun _ => hopens
        obtain ⟨hpasses, hdepth'⟩ := ihArgs (hargs.placed _) hopen
        have hfirst : (Scan.after before).ends (.punct '<' opening) = false :=
          ends_of_ne rfl
        have hlast : ∀ before, Passes before [.punct '>' closing] :=
          fun before => ⟨ends_of_ne rfl, trivial⟩
        rw [Passes, passes_append, hpasses, and_iff_right hfirst, and_iff_left (hlast _),
          append_angle]
        refine ⟨by simp [hopens], fun hbare => ?_⟩
        exact Scan.genericDepth_zero (hdepth' (hpasses.mpr hbare)) _ fun hless => by cases hless
    rw [tokens_angle, passes_append, BareComma, not_or, ← hlist.1, ← List.append_assoc]
    by_cases hfirst : Passes before (.punct '<' opening :: (args.tokens ++ [.punct '>' closing]))
    · obtain ⟨hpasses, hdepth'⟩ := ihRest hrest (hlist.2 hfirst)
      rw [hpasses]
      exact ⟨Iff.rfl, fun hall => hdepth' (hpasses.mpr hall.2)⟩
    · exact ⟨iff_of_false (fun hall => hfirst hall.1) fun hall => hfirst hall.1,
        fun hall => absurd hall.1 hfirst⟩

/-- **What splits an argument**: a value comes out of `parse_value` whole, with and without further
arguments after it, exactly when each of its commas stands in a turbofish or in a list with which
the value begins. -/
theorem parseValue_whole_iff {v : Bracketed} (h : v.IsValue) :
    (parseValue v.tokens = (v.tokens, []) ∧ ∀ spacing rest,
      parseValue (v.tokens ++ .punct ',' spacing :: rest) = (v.tokens, rest)) ↔
        ¬ v.BareComma [] := by
  obtain ⟨hpasses, hdepth⟩ := h.placed.passes rfl
  rw [← hpasses]
  constructor
  · intro hwhole
    exact passes_of_parseValueFrom hwhole.1
  · intro hpass
    refine ⟨?_, fun spacing rest => ?_⟩
    · have hend := parseValueFrom_append hpass []
      rw [List.append_nil] at hend
      exact hend.trans (congrArg (·, []) (Scan.value_after _))
    · exact (parseValueFrom_append hpass _).trans (parseValueFrom_comma (hdepth hpass) spacing rest)

/-- `f::<A, B>()`. -/
def turbofish : Bracketed :=
  .plain (.ident "f") <| .plain (.punct ':' .joint) <| .plain (.punct ':' .joint) <|
    .angle .alone
      (.plain (.ident "A") <| .plain (.punct ',' .alone) <| .plain (.ident "B") .done) .alone <|
    .plain (.group .parenthesis []) .done

theorem parseValue_whole_turbofish :
    (parseValue turbofish.tokens = (turbofish.tokens, []) ∧ ∀ spacing rest,
      parseValue (turbofish.tokens ++ .punct ',' spacing :: rest) = (turbofish.tokens, rest)) ↔
        ¬ turbofish.BareComma [] := by
  have hcolons : EndsWithColons [TokenTree.ident "f", .punct ':' .joint, .punct ':' .joint] :=
    ⟨[.ident "f"], .joint, .joint, rfl⟩
  refine parseValue_whole_iff ⟨?_, ?_, ?_⟩
  · simp [turbofish, Placed, Generic, TokenTree.isPunct, TokenTree.arrowHead, TokenTree.punct?]
  · simp [turbofish, Enclosed, TokenTree.isPunct]
  · exact ⟨Or.inl hcolons, trivial⟩

/-- `&<T as Tr<A, B>>::f()`. -/
def qualified : Bracketed :=
  .plain (.punct '&' .joint) <|
    .angle .alone
      (.plain (.ident "T") <| .plain (.ident "as") <| .plain (.ident "Tr") <|
        .angle .alone
          (.plain (.ident "A") <| .plain (.punct ',' .alone) <| .plain (.ident "B") .done) .joint
          .done) .joint <|
    .plain (.punct ':' .joint) <| .plain (.punct ':' .alone) <| .plain (.ident "f") <|
    .plain (.group .parenthesis []) .done

/-- **Split**: the qualified path follows an operator, so its comma ends the value. -/
theorem qualified_split : qualified.IsValue ∧
    parseValue qualified.tokens ≠ (qualified.tokens, []) := by
  refine ⟨⟨?_, ?_, ?_⟩, fun h => ?_⟩
  · simp [qualified, Placed, Generic, TokenTree.isPunct, TokenTree.arrowHead, TokenTree.punct?]
  · simp [qualified, Enclosed, TokenTree.isPunct]
  · exact ⟨Or.inr ⟨_, _, _, rfl⟩, trivial⟩
  · have hleft := congrArg (List.length ∘ Prod.snd) h
    revert hleft
    decide

end Bracketed

end Logwise.Proc
