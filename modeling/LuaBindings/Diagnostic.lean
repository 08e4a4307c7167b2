import LuaBindings.Text.Lines
import LuaBindings.Text.Utf8
import LuaBindings.Token

/-!
# Diagnostics

A diagnostic is a cause and, where it is known, a place. The wording of every
cause is in `Cause.message`. A failure is one diagnostic or several in the order
in which they were found; failures are joined by appending, so how a reader
groups them on the way never shows in the result.
-/

set_option autoImplicit false

namespace LuaBindings

inductive TokenFault where
  | strayCharacter (c : Char)
  | unexpectedCloser (delimiter : Delimiter)
  | openAtEnd
  deriving DecidableEq, Repr

def Delimiter.closerName : Delimiter → String
  | .paren => "RPAR"
  | .bracket => "RSQB"
  | .brace => "RBRACE"

/-- Messages are one line, so a stray line boundary cuts its own message short. -/
def TokenFault.message (place : Location) : TokenFault → String
  | strayCharacter c =>
    let start := "No terminal matches '"
    if Text.isLineBoundary c then start
    else
      s!"{start}{c}' in the current parser context, at line {place.line} col {place.column}"
  | unexpectedCloser d =>
    s!"Unexpected token Token('{d.closerName}', '{d.closeText}') at line {place.line}, " ++
      s!"column {place.column}."
  | openAtEnd =>
    s!"Unexpected token Token('$END', '') at line {place.line}, column {place.column}."

inductive FileFault where
  | missing
  | isDirectory
  | notDirectory
  | fileExists
  deriving DecidableEq, Repr

def FileFault.message : FileFault → String
  | missing => "No such file or directory"
  | isDirectory => "Is a directory"
  | notDirectory => "Not a directory"
  | fileExists => "File exists"

inductive Cause where
  | unterminatedComment
  | untokenizable (fault : TokenFault) (place : Location)
  | endOfInput
  | expected (text : String)
  | expectedIdentifier
  | expectedType
  | expectedBody
  | expectedPattern
  | notAnImpl (marker : String)
  | expectedOptionName
  | expectedOptionValue
  | expectedArguments
  | missingValue (key : String)
  | unexpectedValue (key : String)
  | unknownOption (key : String)
  | badRename
  | badInterfaceName
  | badFunctionOption
  | badInterfaceOptions (reason : Cause)
  | contextWithoutLifetime
  | contextNotFirst
  | undeclaredLifetime
  | mutableAsyncMeta
  | contextLifetimesDiffer
  | unnamedInterface
  | invalidUtf8 (fault : Text.Utf8Fault) (offset : Nat)
  | unreadable (fault : FileFault)
  | stated (text : String)
  deriving DecidableEq, Repr

def Cause.message : Cause → String
  | unterminatedComment => "unterminated block comment"
  | untokenizable fault place => "unable to tokenize source: " ++ fault.message place
  | endOfInput => "unexpected end of input"
  | expected text => s!"expected `{text}`"
  | expectedIdentifier => "expected an identifier"
  | expectedType => "expected a type"
  | expectedBody => "expected a function body"
  | expectedPattern => "expected a parameter pattern"
  | notAnImpl marker => s!"{marker} attribute expects an impl block"
  | expectedOptionName => "expected an option name"
  | expectedOptionValue => "expected an ident or literal"
  | expectedArguments => "expected list arguments"
  | missingValue key => s!"missing value for `{key}`"
  | unexpectedValue key => s!"'{key}' option doesn't accept any values"
  | unknownOption key => s!"unknown option: {key}"
  | badRename => "rename value must be an ident or string literal"
  | badInterfaceName => "lua_name expects a name"
  | badFunctionOption => "expected property list or nothing"
  | badInterfaceOptions reason =>
    "expecting comma separated 'key: value' pairs; " ++ reason.message
  | contextWithoutLifetime => "context parameter must be a reference with a lifetime"
  | contextNotFirst => "context parameter must come first after the receiver"
  | undeclaredLifetime => "lifetime not found in function generics"
  | mutableAsyncMeta => "mutable async meta functions not supported"
  | contextLifetimesDiffer => "context lifetimes must be the same"
  | unnamedInterface => "lua_methods attribute only works for named types"
  | invalidUtf8 fault offset => s!"not valid UTF-8: {fault.message} at byte {offset}"
  | unreadable fault => "unable to read file: " ++ fault.message
  | stated text => text

/-- A cause with the line and the column it is reported at. They are counted from one
where they come from a text, and are as given where they are stated by hand. -/
structure Diagnostic where
  cause : Cause
  line : Option Int
  column : Option Int
  deriving DecidableEq, Repr

namespace Diagnostic

def atPlace? (place : Option Location) (cause : Cause) : Diagnostic :=
  ⟨cause, place.map fun l => (l.line : Int), place.map fun l => (l.column : Int)⟩

def atPlace (place : Location) (cause : Cause) : Diagnostic := atPlace? (some place) cause

/-- The message behind its place; without a line the message stands alone. -/
def text (d : Diagnostic) : String :=
  match d.line, d.column with
  | none, _ => d.cause.message
  | some line, some column => s!"{line}:{column}: {d.cause.message}"
  | some line, none => s!"{line}:None: {d.cause.message}"

end Diagnostic

/-- At least one diagnostic, in the order in which they were found. -/
structure Failure where
  first : Diagnostic
  others : List Diagnostic
  deriving DecidableEq, Repr

namespace Failure

def single (d : Diagnostic) : Failure := ⟨d, []⟩

def atPlace (place : Location) (cause : Cause) : Failure := single (.atPlace place cause)

def toList (f : Failure) : List Diagnostic := f.first :: f.others

def ofList? : List Diagnostic → Option Failure
  | [] => none
  | d :: ds => some ⟨d, ds⟩

def combine (failures : List Failure) : Option Failure :=
  ofList? (failures.flatMap toList)

def text (f : Failure) : String :=
  String.intercalate "\n" (f.toList.map Diagnostic.text)

/-- Refuses with all the failures found, or gives the value if there are none. -/
def refuse {α : Type} (failures : List Failure) (value : α) : Except Failure α :=
  match combine failures with
  | some f => .error f
  | none => .ok value

end Failure
end LuaBindings
