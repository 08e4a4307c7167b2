import LuaBindings.Options.Entry
import LuaBindings.Proofs.TokenTree.Tokens

/-!
# The syntax of option entries

The entries of an option list, built from their tokens, to any depth. A piece of syntax has
the trees it is written with and the entry or the value it stands for.
-/

set_option autoImplicit false

namespace LuaBindings.OptionEntry

def isSeparator (t : Token) : Bool := t.isPunct ":" || t.isPunct "="

/-- A segment of a path behind its first, with its double colon. -/
structure SegmentSyntax where
  colons : Token.Mark "::"
  name : Token.OfKind .ident

inductive ValueSyntax where
  | name (first : Token.OfKind .ident) (segments : List SegmentSyntax)
  | literal (t : { t : Token // isLiteral t = true })
  | negated (minus : Token.Mark "-") (number : Token.OfKind .number)

mutual

inductive EntrySyntax where
  | bare (name : Token.OfKind .ident)
  | single (name : Token.OfKind .ident) (separator : { t : Token // isSeparator t = true })
    (value : ValueSyntax)
  | list (name : Token.OfKind .ident) (opener : Token) (entries : EntriesSyntax) (closer : Token)

/-- Entries with commas between them; a comma may follow the last. -/
inductive EntriesSyntax where
  | nil
  | last (entry : EntrySyntax)
  | cons (entry : EntrySyntax) (comma : Token.Mark ",") (rest : EntriesSyntax)

end

/-! ### The trees -/

def SegmentSyntax.tokens (s : SegmentSyntax) : List Token := [s.colons.1, s.name.1]

def ValueSyntax.tokens : ValueSyntax → List Token
  | .name first segments => first.1 :: segments.flatMap SegmentSyntax.tokens
  | .literal t => [t.1]
  | .negated minus number => [minus.1, number.1]

def ValueSyntax.trees (v : ValueSyntax) : List TokenTree := v.tokens.map .token

mutual

def EntrySyntax.trees : EntrySyntax → List TokenTree
  | .bare name => [.token name.1]
  | .single name separator value => .token name.1 :: .token separator.1 :: value.trees
  | .list name opener entries closer => [.token name.1, .group .paren opener entries.trees closer]

def EntriesSyntax.trees : EntriesSyntax → List TokenTree
  | .nil => []
  | .last entry => entry.trees
  | .cons entry comma rest => entry.trees ++ .token comma.1 :: rest.trees

end

/-! ### The entries -/

def ValueSyntax.kind : ValueSyntax → OptionValueKind
  | .name _ [] => .ident
  | .name _ (_ :: _) => .path
  | .literal _ | .negated .. => .literal

def ValueSyntax.value (v : ValueSyntax) : OptionValue := ⟨v.kind, v.tokens⟩

mutual

def EntrySyntax.entry : EntrySyntax → OptionEntry
  | .bare name => .bare name.1
  | .single name separator value => .single name.1 separator.1 value.value
  | .list name opener entries _ => .list name.1 opener entries.entries

def EntriesSyntax.entries : EntriesSyntax → List OptionEntry
  | .nil => []
  | .last entry => [entry.entry]
  | .cons entry _ rest => entry.entry :: rest.entries

end

end LuaBindings.OptionEntry
