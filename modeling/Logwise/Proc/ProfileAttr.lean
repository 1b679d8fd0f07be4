import Logwise.Proc.Reparsed

/-!
# The profile attribute

`profile_attr_impl` (`logwise_runtime_proc/src/profile_attr.rs`) finds a function's name and body in
one scan of its tokens: the identifier after `fn`, and the first group in braces. A group in braces
that stands in the signature is taken for the body. The body is printed into the text of the new one
and parsed with it, so it loses its groups without delimiters.
-/

namespace Logwise.Proc

def nextIdent : TokenStream → Option String
  | .ident name :: _ => some name
  | _ => none

/-- The scan at the tokens that are left: the name, and the index of the body. -/
def scanItem (i : ℕ) (fnName : Option String) : TokenStream → Option String × Option ℕ
  | [] => (fnName, none)
  | .ident ident :: tokens =>
    if ident = "fn" then scanItem (i + 1) ((nextIdent tokens).or fnName) tokens
    else scanItem (i + 1) fnName tokens
  | .group .brace _ :: _ => (fnName, some i)
  | _ :: tokens => scanItem (i + 1) fnName tokens

theorem nextIdent_cons (token : TokenTree) (tokens tokens' : TokenStream) :
    nextIdent (token :: tokens) = nextIdent (token :: tokens') := by
  cases token <;> rfl

namespace TokenTree

def parens (stream : TokenStream) : TokenTree := .group .parenthesis stream

def braces (stream : TokenStream) : TokenTree := .group .brace stream

def comma : TokenTree := .punct ',' .alone

def semicolon : TokenTree := .punct ';' .alone

def isBrace : TokenTree → Bool
  | .group .brace _ => true
  | _ => false

end TokenTree

open TokenTree (parens braces comma semicolon)

/-- `logwise_runtime::hidden::{function}`. -/
def hiddenPath (function : String) : TokenStream :=
  [.ident "logwise_runtime", .punct ':' .joint, .punct ':' .alone, .ident "hidden",
    .punct ':' .joint, .punct ':' .alone, .ident function]

/-- `{name}!()`. -/
def macroCall (name : String) : TokenStream := [.ident name, .punct '!' .alone, parens []]

/-- The block whose value is the guard. -/
def profileGuard (fnName : String) : TokenStream :=
  [.ident "let", parens [.ident "id", comma, .ident "mut", .ident "record"], .punct '=' .alone] ++
    hiddenPath "profile_begin_pre" ++
    [parens (macroCall "file" ++ [comma] ++ macroCall "line" ++ [comma] ++ macroCall "column"),
      semicolon,
      .ident "let", .ident "name", .punct '=' .alone, .ident "concat", .punct '!' .alone,
      parens (macroCall "module_path" ++
        [comma, .literal "\"::\"", comma, .literal ("\"" ++ fnName ++ "\"")]),
      semicolon,
      .ident "record", .punct '.' .alone, .ident "log", parens [.ident "name"], semicolon] ++
    hiddenPath "profile_begin_post" ++
    [parens [.ident "id", comma, .ident "record", comma, .ident "name"]]

/-- The tokens of the new body: a guard for the scope of the original one. -/
def profiled (fnName : String) (originalBody : TokenStream) : TokenTree :=
  braces ([.ident "let", .ident "_logwise_profile_guard", .punct '=' .alone,
    braces (profileGuard fnName), semicolon] ++ [braces originalBody])

/-- `profile_attr_impl`; an error is the message of the `compile_error!`. -/
def profileAttrImpl (tokens : TokenStream) : Except String TokenStream :=
  match scanItem 0 none tokens with
  | (none, _) => .error "#[profile] can only be applied to functions"
  | (some _, none) => .error "#[profile] requires a function with a body"
  | (some fnName, some bodyIdx) =>
    match tokens[bodyIdx]? with
    | some (.group _ originalBody) =>
      .ok (tokens.set bodyIdx (profiled fnName (reparsed originalBody)))
    | _ => .error "Expected function body"

/-! ## Function items -/

inductive Visibility where
  | inherited | anywhere
  /-- `pub(scope)`. -/
  | restricted (scope : TokenStream)
  /-- A `$vis` that a `macro_rules` macro passes on. -/
  | fragment (visibility : TokenStream)

def Visibility.tokens : Visibility → TokenStream
  | .inherited => []
  | .anywhere => [.ident "pub"]
  | .restricted scope => [.ident "pub", parens scope]
  | .fragment visibility => [.group .none visibility]

inductive Qualifier where
  | constant | async | notSafe
  /-- `extern`, with an ABI where one is written. -/
  | foreign (abi : Option String)

def Qualifier.tokens : Qualifier → TokenStream
  | .constant => [.ident "const"]
  | .async => [.ident "async"]
  | .notSafe => [.ident "unsafe"]
  | .foreign none => [.ident "extern"]
  | .foreign (some abi) => [.ident "extern", .literal abi]

/-- No `fn` in these tokens has a name after it: in a type it is followed by its parameters. -/
def Nameless : TokenStream → Prop
  | [] => True
  | .ident ident :: tokens => (ident = "fn" → nextIdent tokens = none) ∧ Nameless tokens
  | _ :: tokens => Nameless tokens

structure FunctionItem where
  attributes : List TokenStream
  visibility : Visibility
  qualifiers : List Qualifier
  name : String
  generics : TokenStream
  parameters : TokenStream
  /-- The return type with its arrow. -/
  output : TokenStream
  whereClause : TokenStream
  body : TokenStream
  name_ne : name ≠ "fn"
  nameless : Nameless (generics ++ [parens parameters] ++ output ++ whereClause)

namespace FunctionItem

def attributeTokens (content : TokenStream) : TokenStream :=
  [.punct '#' .alone, .group .bracket content]

/-- What stands before `fn`. -/
def front (item : FunctionItem) : TokenStream :=
  item.attributes.flatMap attributeTokens ++ item.visibility.tokens ++
    item.qualifiers.flatMap Qualifier.tokens

/-- What stands between the name and the body. -/
def signature (item : FunctionItem) : TokenStream :=
  item.generics ++ [parens item.parameters] ++ item.output ++ item.whereClause

def withBody (item : FunctionItem) (body : TokenTree) : TokenStream :=
  item.front ++ .ident "fn" :: .ident item.name :: (item.signature ++ [body])

def tokens (item : FunctionItem) : TokenStream := item.withBody (braces item.body)

end FunctionItem

/-! ## The scan -/

/-- Tokens that the scan passes without a trace. -/
def Inert (tokens : TokenStream) : Prop :=
  ∀ token ∈ tokens, token.isBrace = false ∧ ∀ name, token = .ident name → name ≠ "fn"

theorem scanItem_inert {front : TokenStream} (h : Inert front) (i : ℕ) (fnName : Option String)
    (tokens : TokenStream) :
    scanItem i fnName (front ++ tokens) = scanItem (i + front.length) fnName tokens := by
  induction front generalizing i with
  | nil => rfl
  | cons token front ih =>
    obtain ⟨hbrace, hname⟩ := h token (List.mem_cons_self ..)
    have hrest := ih (fun t ht => h t (List.mem_cons_of_mem _ ht)) (i + 1)
    have hlength : i + (token :: front).length = i + 1 + front.length := by
      rw [List.length_cons]
      omega
    rw [hlength, ← hrest, List.cons_append]
    cases token with
    | ident name =>
      rw [scanItem, if_neg (hname name rfl)]
    | group delimiter stream =>
      cases delimiter with
      | brace => cases hbrace
      | _ => rfl
    | punct char spacing => rfl
    | literal text => rfl

theorem inert_append {first second : TokenStream} (h : Inert first) (h' : Inert second) :
    Inert (first ++ second) := by
  intro token htoken
  obtain hmem | hmem := List.mem_append.mp htoken
  · exact h token hmem
  · exact h' token hmem

theorem inert_flatMap {α : Type} {f : α → TokenStream} {items : List α}
    (h : ∀ a ∈ items, Inert (f a)) : Inert (items.flatMap f) := by
  intro token htoken
  obtain ⟨a, ha, hmem⟩ := List.mem_flatMap.mp htoken
  exact h a ha token hmem

theorem FunctionItem.inert_front (item : FunctionItem) : Inert item.front := by
  refine inert_append (inert_append (inert_flatMap fun content _ => ?_) ?_)
    (inert_flatMap fun qualifier _ => ?_)
  · simp [Inert, attributeTokens, TokenTree.isBrace]
  · cases item.visibility <;> simp [Inert, Visibility.tokens, TokenTree.isBrace, parens]
  · obtain _ | _ | _ | _ | abi := qualifier <;>
      simp [Inert, Qualifier.tokens, TokenTree.isBrace]

/-- Tokens of a signature leave the name as it is. -/
theorem scanItem_nameless {tokens : TokenStream} (h : Nameless tokens)
    (hbraces : ∀ token ∈ tokens, token.isBrace = false) (i : ℕ) (fnName : Option String)
    {after : TokenStream} (hafter : nextIdent after = none) :
    scanItem i fnName (tokens ++ after) = scanItem (i + tokens.length) fnName after := by
  induction tokens generalizing i with
  | nil => rfl
  | cons token tokens ih =>
    have hlength : i + (token :: tokens).length = i + 1 + tokens.length := by
      rw [List.length_cons]
      omega
    have hbrace := hbraces token (List.mem_cons_self ..)
    have hrest (h : Nameless tokens) := ih h (fun t ht => hbraces t (List.mem_cons_of_mem _ ht)) (i + 1)
    rw [hlength, List.cons_append]
    cases token with
    | ident ident =>
      obtain ⟨hnext, h⟩ := h
      rw [← hrest h, scanItem]
      split
      next hfn =>
        have hnone : nextIdent (tokens ++ after) = none := by
          cases tokens with
          | nil => exact hafter
          | cons next tokens =>
            rw [List.cons_append, nextIdent_cons next _ tokens]
            exact hnext hfn
        rw [hnone, Option.none_or]
      next => rfl
    | group delimiter stream =>
      rw [← hrest h]
      cases delimiter with
      | brace => cases hbrace
      | _ => rfl
    | punct char spacing =>
      rw [← hrest h]
      rfl
    | literal text =>
      rw [← hrest h]
      rfl

/-! ## What is replaced -/

/-- The wrapper contains the group it wraps. -/
theorem profiled_ne (fnName : String) (stream : TokenStream) :
    profiled fnName stream ≠ braces stream := by
  intro h
  obtain ⟨-, hstream⟩ := TokenTree.group.inj h
  have hmem : braces stream ∈ [.ident "let", .ident "_logwise_profile_guard", .punct '=' .alone,
      braces (profileGuard fnName), semicolon] ++ [braces stream] :=
    List.mem_append_right _ (List.mem_singleton_self _)
  rw [hstream] at hmem
  have hlt := List.sizeOf_lt_of_mem hmem
  rw [braces, TokenTree.group.sizeOf_spec] at hlt
  omega

theorem profiled_inj {fnName : String} {stream stream' : TokenStream}
    (h : profiled fnName stream = profiled fnName stream') : stream = stream' := by
  have hbodies := List.append_cancel_left (TokenTree.group.inj h).2
  exact (TokenTree.group.inj (List.cons.inj hbodies).1).2

/-- The first group in braces becomes the wrapper. -/
theorem profileAttrImpl_eq {before after stream : TokenStream} {fnName : String}
    (hscan : scanItem 0 none (before ++ braces stream :: after) =
      (some fnName, some before.length)) :
    profileAttrImpl (before ++ braces stream :: after) =
      .ok (before ++ profiled fnName (reparsed stream) :: after) := by
  have hget : (before ++ braces stream :: after)[before.length]? = some (.group .brace stream) := by
    rw [List.getElem?_append_right le_rfl, Nat.sub_self]
    rfl
  rw [profileAttrImpl, hscan]
  dsimp only
  rw [hget]
  dsimp only
  rw [List.set_append_right _ _ le_rfl, Nat.sub_self, List.set_cons_zero]

theorem exists_first_brace {tokens : TokenStream} (h : ¬ ∀ token ∈ tokens, token.isBrace = false) :
    ∃ before stream after, tokens = before ++ braces stream :: after ∧
      ∀ token ∈ before, token.isBrace = false := by
  induction tokens with
  | nil => exact absurd (fun _ h => by cases h) h
  | cons token tokens ih =>
    cases hbrace : token.isBrace with
    | true =>
      cases token with
      | group delimiter stream =>
        cases delimiter with
        | brace => exact ⟨[], stream, tokens, rfl, fun _ h => by cases h⟩
        | _ => cases hbrace
      | _ => cases hbrace
    | false =>
      obtain ⟨before, stream, after, rfl, hbefore⟩ := ih fun hall => h fun t ht => by
        obtain rfl | ht := List.mem_cons.mp ht
        · exact hbrace
        · exact hall t ht
      refine ⟨token :: before, stream, after, rfl, fun t ht => ?_⟩
      obtain rfl | ht := List.mem_cons.mp ht
      · exact hbrace
      · exact hbefore t ht

theorem Nameless.of_append {first second : TokenStream} (h : Nameless (first ++ second)) :
    Nameless first := by
  induction first with
  | nil => trivial
  | cons token first ih =>
    cases token with
    | ident ident =>
      obtain ⟨hnext, hrest⟩ := h
      refine ⟨fun hfn => ?_, ih hrest⟩
      cases first with
      | nil => rfl
      | cons next first =>
        rw [nextIdent_cons next _ (first ++ second)]
        exact hnext hfn
    | group delimiter stream => exact ih h
    | punct char spacing => exact ih h
    | literal text => exact ih h

namespace FunctionItem

/-- The scan up to a group in braces that has none before it. -/
theorem scanItem_first (item : FunctionItem) {before after stream : TokenStream}
    (h : Nameless before) (hbraces : ∀ token ∈ before, token.isBrace = false) :
    let head := item.front ++ .ident "fn" :: .ident item.name :: before
    scanItem 0 none (head ++ braces stream :: after) = (some item.name, some head.length) := by
  have hname : nextIdent (.ident item.name :: (before ++ braces stream :: after)) =
      some item.name := rfl
  have hsplit : item.front ++ .ident "fn" :: .ident item.name :: before ++ braces stream :: after =
      item.front ++ .ident "fn" :: .ident item.name :: (before ++ braces stream :: after) := by
    simp
  dsimp only
  rw [hsplit, scanItem_inert item.inert_front, scanItem, if_pos rfl, hname, scanItem,
    if_neg item.name_ne, scanItem_nameless h hbraces _ _ rfl]
  simp only [List.length_append, List.length_cons, Option.or, Nat.zero_add]
  exact Prod.ext rfl (congrArg some (by omega))

/-- **Only the body is rewritten**, and the original one is in the new, exactly when no group in
braces stands between the name and the body, and the body is printed without loss: at no depth it has
a group without delimiters or a negative literal. -/
theorem profileAttrImpl_body_iff (item : FunctionItem) :
    profileAttrImpl item.tokens = .ok (item.withBody (profiled item.name item.body)) ↔
      (∀ token ∈ item.signature, token.isBrace = false) ∧ lossless item.body = true := by
  by_cases hbraces : ∀ token ∈ item.signature, token.isBrace = false
  · have htokens (body : TokenTree) : item.withBody body =
        (item.front ++ .ident "fn" :: .ident item.name :: item.signature) ++ body :: [] := by
      rw [withBody]
      simp
    have hrun : profileAttrImpl
        ((item.front ++ .ident "fn" :: .ident item.name :: item.signature) ++ [braces item.body]) =
          .ok ((item.front ++ .ident "fn" :: .ident item.name :: item.signature) ++
            [profiled item.name (reparsed item.body)]) :=
      profileAttrImpl_eq (item.scanItem_first item.nameless hbraces)
    rw [tokens, htokens, htokens, hrun, ← reparsed_eq_self_iff]
    constructor
    · intro hbody
      have hsame := List.append_cancel_left (Except.ok.inj hbody)
      exact ⟨hbraces, profiled_inj (List.cons.inj hsame).1⟩
    · rintro ⟨-, hbody⟩
      rw [hbody]
  · refine iff_of_false (fun hbody => ?_) fun h => hbraces h.1
    obtain ⟨before, stream, after, hsignature, hbefore⟩ := exists_first_brace hbraces
    have hnameless : Nameless before := by
      have hall := item.nameless
      rw [← signature, hsignature] at hall
      exact hall.of_append
    have htokens (body : TokenTree) : item.withBody body =
        (item.front ++ .ident "fn" :: .ident item.name :: before) ++
          braces stream :: (after ++ [body]) := by
      rw [withBody, hsignature]
      simp
    rw [tokens, htokens, htokens, profileAttrImpl_eq (item.scanItem_first hnameless hbefore)] at hbody
    -- the group in the signature has been replaced, the body at the end has not
    have hsame := (List.cons.inj (List.append_cancel_left (Except.ok.inj hbody))).2
    have hlast := List.append_cancel_left hsame
    exact profiled_ne item.name item.body (List.cons.inj hlast).1.symm

/-- `fn f() -> Array<{ 2 }> {}`. -/
def constGeneric : FunctionItem where
  attributes := []
  visibility := .inherited
  qualifiers := []
  name := "f"
  generics := []
  parameters := []
  output := [.punct '-' .joint, .punct '>' .alone, .ident "Array", .punct '<' .alone,
    braces [.literal "2"], .punct '>' .alone]
  whereClause := []
  body := []
  name_ne := by decide
  nameless := ⟨by decide, trivial⟩

/-- `fn g() -> u8 { $e * 2 }`, where `$e` is `1 + 2`. -/
def fragmentBody : FunctionItem where
  attributes := []
  visibility := .inherited
  qualifiers := []
  name := "g"
  generics := []
  parameters := []
  output := [.punct '-' .joint, .punct '>' .alone, .ident "u8"]
  whereClause := []
  body := [.group .none [.literal "1", .punct '+' .alone, .literal "2"], .punct '*' .alone,
    .literal "2"]
  name_ne := by decide
  nameless := ⟨by decide, trivial⟩

/-- **The wrong group and a lost one**: the argument of the return type is taken for the body, and
the product in the body becomes a sum. -/
theorem constGeneric_body :
    profileAttrImpl constGeneric.tokens ≠
      .ok (constGeneric.withBody (profiled constGeneric.name constGeneric.body)) ∧
    profileAttrImpl fragmentBody.tokens ≠
      .ok (fragmentBody.withBody (profiled fragmentBody.name fragmentBody.body)) := by
  constructor
  · intro hbody
    have hrun : profileAttrImpl constGeneric.tokens = .ok ([.ident "fn", .ident "f", parens [],
        .punct '-' .joint, .punct '>' .alone, .ident "Array", .punct '<' .alone,
        profiled "f" [.literal "2"], .punct '>' .alone] ++ [braces []]) := rfl
    have hlast := congrArg List.getLast? (Except.ok.inj (hrun.symm.trans hbody))
    cases hlast
  · intro hbody
    have hrun : profileAttrImpl fragmentBody.tokens = .ok ([.ident "fn", .ident "g", parens [],
        .punct '-' .joint, .punct '>' .alone, .ident "u8"] ++
        [profiled "g" (reparsed fragmentBody.body)]) := rfl
    have hlast := congrArg List.getLast? (Except.ok.inj (hrun.symm.trans hbody))
    have hsame := profiled_inj (Option.some.inj hlast)
    cases hsame

end FunctionItem

end Logwise.Proc
