import Logwise.Proc.Tokens

/-!
# Printed and parsed again

Most of what the macros generate is text: a stream goes into it by `to_string`, and the text is
parsed. `proc_macro` promises the same stream back, but for two kinds of tokens: a group without
delimiters comes back as its contents, and a negative literal as a sign and a literal. The
macros are given groups without delimiters wherever a fragment of a `macro_rules` macro is passed on.
-/

namespace Logwise.Proc

/-- A literal, with the signs it begins with as tokens of their own. -/
def relexed : List Char → TokenStream
  | [] => [.literal ""]
  | c :: text =>
    if c = '-' then .punct '-' .alone :: relexed text else [.literal (String.ofList (c :: text))]

mutual

def TokenTree.reparsed : TokenTree → List TokenTree
  | .group .none stream => Proc.reparsed stream
  | .group delimiter stream => [.group delimiter (Proc.reparsed stream)]
  | .literal text => relexed text.toList
  | token => [token]

/-- `stream.to_string().parse()`. -/
def reparsed : List TokenTree → List TokenTree
  | [] => []
  | token :: stream => token.reparsed ++ reparsed stream

end

mutual

def TokenTree.lossless : TokenTree → Bool
  | .group .none _ => false
  | .group _ stream => Proc.lossless stream
  | .literal text => text.toList.head? ≠ some '-'
  | _ => true

/-- No group without delimiters and no negative literal, at any depth. -/
def lossless : List TokenTree → Bool
  | [] => true
  | token :: stream => token.lossless && lossless stream

end

theorem lossless_append (first second : TokenStream) :
    lossless (first ++ second) = (lossless first && lossless second) := by
  induction first with
  | nil => rfl
  | cons token first ih => rw [List.cons_append, lossless, lossless, ih, Bool.and_assoc]

theorem lossless_relexed (text : List Char) : lossless (relexed text) = true := by
  induction text with
  | nil => rfl
  | cons c text ih =>
    rw [relexed]
    split
    · rw [lossless, ih]
      rfl
    next hc => simp [lossless, TokenTree.lossless, hc]

theorem relexed_of_head {text : List Char} (h : text.head? ≠ some '-') :
    relexed text = [.literal (String.ofList text)] := by
  cases text with
  | nil => rfl
  | cons c text =>
    have hc : c ≠ '-' := fun he => h (congrArg some he)
    rw [relexed, if_neg hc]

mutual

theorem TokenTree.lossless_reparsed : ∀ token : TokenTree, Proc.lossless token.reparsed = true
  | .group delimiter stream => by
    have hstream := Proc.lossless_reparsed stream
    cases delimiter with
    | none => exact hstream
    | _ =>
      rw [TokenTree.reparsed, Proc.lossless, TokenTree.lossless, hstream]
      · rfl
      all_goals exact fun h => by cases h
  | .ident name => rfl
  | .punct char spacing => rfl
  | .literal text => lossless_relexed text.toList

/-- What has been parsed is printed without loss. -/
theorem lossless_reparsed : ∀ stream : List TokenTree, lossless (reparsed stream) = true
  | [] => rfl
  | token :: stream => by
    rw [reparsed, lossless_append, token.lossless_reparsed, lossless_reparsed stream]
    rfl

end

mutual

theorem TokenTree.reparsed_of_lossless :
    ∀ token : TokenTree, token.lossless = true → token.reparsed = [token]
  | .group delimiter stream, h => by
    cases delimiter with
    | none => cases h
    | _ =>
      have hstream : Proc.lossless stream = true := h
      rw [TokenTree.reparsed, Proc.reparsed_of_lossless stream hstream]
      exact fun h => by cases h
  | .ident name, _ => rfl
  | .punct char spacing, _ => rfl
  | .literal text, h => by
    rw [TokenTree.reparsed, relexed_of_head (of_decide_eq_true h), String.ofList_toList]

theorem reparsed_of_lossless :
    ∀ stream : List TokenTree, lossless stream = true → reparsed stream = stream
  | [], _ => rfl
  | token :: stream, h => by
    obtain ⟨htoken, hstream⟩ := (Bool.and_eq_true _ _).mp h
    rw [reparsed, token.reparsed_of_lossless htoken, reparsed_of_lossless stream hstream]
    rfl

end

/-- **When nothing is lost.** -/
theorem reparsed_eq_self_iff {stream : TokenStream} :
    reparsed stream = stream ↔ lossless stream = true := by
  constructor
  · intro h
    rw [← h]
    exact lossless_reparsed stream
  · exact reparsed_of_lossless stream

/-- Printing once more loses nothing more. -/
@[simp]
theorem reparsed_reparsed (stream : TokenStream) : reparsed (reparsed stream) = reparsed stream :=
  reparsed_of_lossless _ (lossless_reparsed stream)

/-- `$e * 2`, where `$e` is `1 + 2`. -/
example : reparsed [.group .none [.literal "1", .punct '+' .alone, .literal "2"], .punct '*' .alone,
    .literal "2"] = [.literal "1", .punct '+' .alone, .literal "2", .punct '*' .alone,
      .literal "2"] := by
  rfl

end Logwise.Proc
