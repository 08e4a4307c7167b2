import LuaBindings.FileRun
import LuaBindings.Text.Blank
import LuaBindings.Text.Digit
import LuaBindings.Text.Quoted

/-!
# The command line

Inputs stand together in one place among the options. An option is spelled in full or
by a front part of its long name that fits no other; its value stands behind an
equals sign, in the next word, or, for a short name, right behind the name. After
two dashes no word is an option. A word that begins with a dash is no option either
if there is nothing else in it, if it is a number, or if it holds a space. Two dashes
are never a value: given as one, they leave the option without a text.
-/

set_option autoImplicit false

namespace LuaBindings.CommandLine

inductive Opt where
  | help
  | output
  | types
  | argsPath
  | runtimeCrate
  | contextType
  | luaType
  deriving DecidableEq, Repr

/-- Every spelling of an option, in the order in which candidates are listed. -/
def spellings : List (String × Opt) :=
  [("-h", .help), ("--help", .help), ("--output", .output), ("-o", .output), ("--types", .types),
    ("--args-path", .argsPath), ("--runtime-crate", .runtimeCrate),
    ("--context-type", .contextType), ("--lua-type", .luaType)]

def Opt.displayName (o : Opt) : String :=
  String.intercalate "/" ((spellings.filter fun s => s.2 == o).map Prod.fst)

inductive UsageError where
  | ambiguous (word : String) (candidates : List String)
  | missingValue (option : Opt)
  | unusedValue (option : Opt) (value : String)
  | missingInputs
  | unrecognized (words : List String)
  | badLuaType (entry : String)
  deriving DecidableEq, Repr

def UsageError.message : UsageError → String
  | ambiguous word candidates =>
    let matching := String.intercalate ", " candidates
    s!"ambiguous option: {word} could match {matching}"
  | missingValue o => s!"argument {o.displayName}: expected one argument"
  | unusedValue o value =>
    s!"argument {o.displayName}: ignored explicit argument {Text.quoted value}"
  | missingInputs => "the following arguments are required: inputs"
  | unrecognized words => "unrecognized arguments: " ++ String.intercalate " " words
  | badLuaType entry => s!"--lua-type expects NAME=ANNOTATION, got {Text.quoted entry}"

/-! ### Words -/

inductive Word where
  | plain (text : String)
  | separator
  | option (o : Opt) (spelling : String) (value : Option String)
  | unknown (text : String)
  deriving DecidableEq, Repr

def cutAtEquals (text : List Char) : List Char × Option (List Char) :=
  match text.dropWhile (· != '=') with
  | [] => (text, none)
  | _ :: value => (text.takeWhile (· != '='), some value)

def isNumber (text : List Char) : Bool :=
  match text.dropWhile Text.isDecimalDigit with
  | [] => !text.isEmpty
  | '.' :: fraction => !fraction.isEmpty && fraction.all Text.isDecimalDigit
  | _ => false

/-- A dash and a number. A line feed at the end does not count. -/
def isNegativeNumber : List Char → Bool
  | '-' :: text => isNumber (if text.getLast? = some '\n' then text.dropLast else text)
  | _ => false

/-- The options that a word may be, if it is not one in full: with two dashes by the
front part of a name, with one dash by the short name at its front. -/
def candidates (text : List Char) : List Word :=
  match text with
  | '-' :: '-' :: _ =>
    let (front, value) := cutAtEquals text
    (spellings.filter fun s => front.isPrefixOf s.1.toList).map fun s =>
      .option s.2 s.1 (value.map String.ofList)
  | '-' :: c :: rest =>
    (spellings.filter fun s => s.1.toList == ['-', c]).map fun s =>
      .option s.2 s.1 (some (String.ofList rest))
  | _ => []

def Word.spelling? : Word → Option String
  | option _ spelling _ => some spelling
  | _ => none

/-- A word that is an option in full, maybe with a value behind an equals sign. -/
def inFull? (word : String) : Option Word :=
  match spellings.lookup word with
  | some o => some (.option o word none)
  | none =>
    match cutAtEquals word.toList with
    | (_, none) => none
    | (front, some value) =>
      let spelling := String.ofList front
      (spellings.lookup spelling).map fun o => .option o spelling (some (String.ofList value))

def nonOption (word : String) : Word :=
  if isNegativeNumber word.toList || word.toList.contains ' ' then .plain word else .unknown word

def classify (word : String) : Except UsageError Word :=
  match word.toList with
  | '-' :: _ :: _ =>
    match inFull? word with
    | some w => .ok w
    | none =>
      match candidates word.toList with
      | [] => .ok (nonOption word)
      | [w] => .ok w
      | ws => .error (.ambiguous word (ws.filterMap Word.spelling?))
  | _ => .ok (.plain word)

def words : List String → Except UsageError (List Word)
  | [] => .ok []
  | word :: rest =>
    if word = "--" then .ok (.separator :: rest.map .plain)
    else do
      let first ← classify word
      return first :: (← words rest)

/-! ### Arguments -/

abbrev Value := Option String

def valueOf (text : String) : Value := if text = "--" then none else some text

/-- A value as generated code shows it; without a text it is an empty list. -/
def shown (value : Value) : String := value.getD "[]"

/-- Whether the inputs are still to come, are being taken, or are complete. -/
inductive InputPhase where
  | before
  | during
  | after
  deriving DecidableEq, Repr

structure Arguments where
  inputs : List String
  phase : InputPhase
  output : Value
  types : Value
  argsPath : Value
  runtimeCrate : Value
  contextTypes : List Value
  luaTypes : List Value
  /-- The words that have no place. -/
  unrecognized : List String
  deriving DecidableEq, Repr

inductive Request where
  | help
  | run (arguments : Arguments)
  deriving DecidableEq, Repr

namespace Arguments

def default : Arguments where
  inputs := []
  phase := .before
  output := some "."
  types := none
  argsPath := some RuntimeTarget.default.argsPath
  runtimeCrate := some RuntimeTarget.default.crate
  contextTypes := []
  luaTypes := []
  unrecognized := []

/-- Sets an option. Those that may be repeated collect their values. -/
def set (a : Arguments) (o : Opt) (text : String) : Arguments :=
  let value := valueOf text
  match o with
  | .help => a
  | .output => { a with output := value }
  | .types => { a with types := value }
  | .argsPath => { a with argsPath := value }
  | .runtimeCrate => { a with runtimeCrate := value }
  | .contextType => { a with contextTypes := a.contextTypes ++ [value] }
  | .luaType => { a with luaTypes := a.luaTypes ++ [value] }

def closeInputs (a : Arguments) : Arguments :=
  if a.phase = .during then { a with phase := .after } else a

def leaveOver (a : Arguments) (word : String) : Arguments :=
  { a with unrecognized := a.unrecognized ++ [word] }

def addPlain (a : Arguments) (word : String) : Arguments :=
  if a.phase = .after then a.leaveOver word
  else { a with inputs := a.inputs ++ [word], phase := .during }

def addSeparator (a : Arguments) (rest : List Word) : Arguments :=
  match a.phase with
  | .before => if rest.isEmpty then a.leaveOver "--" else a
  | .during => a
  | .after => a.leaveOver "--"

end Arguments

/-- The last of the options that stand together behind one dash, from the text behind
the first, which takes no value. The first that does takes what is left of the text. -/
def lastShort : List Char → Except UsageError (Opt × Option String)
  | [] => .ok (.help, none)
  | c :: rest =>
    match spellings.lookup (String.ofList ['-', c]) with
    | none => .error (.unusedValue .help (String.ofList (c :: rest)))
    | some .help => lastShort rest
    | some o => .ok (o, if rest.isEmpty then none else some (String.ofList rest))

/-- A request for help with a text right behind it. Only a short one may have more
options there, and the last of them may still lack its value. -/
def helpWith (spelling value : String) (rest : List Word) : Except UsageError Request :=
  if spelling.toList.length = 2 ∧ value ≠ "" then do
    match ← lastShort value.toList, rest with
    | (.help, _), _ | (_, some _), _ | _, .plain _ :: _ => return .help
    | (o, none), _ => throw (.missingValue o)
  else .error (.unusedValue .help value)

def take (a : Arguments) : List Word → Except UsageError Request
  | [] => .ok (.run a)
  | .plain text :: rest => take (a.addPlain text) rest
  | .separator :: rest => take (a.addSeparator rest) rest
  | .unknown text :: rest => take (a.closeInputs.leaveOver text) rest
  | .option .help _ none :: _ => .ok .help
  | .option .help spelling (some value) :: rest => helpWith spelling value rest
  | .option o _ (some value) :: rest => take (a.closeInputs.set o value) rest
  | .option o _ none :: .plain value :: rest => take (a.closeInputs.set o value) rest
  | .option o _ none :: _ => .error (.missingValue o)

/-- Missing inputs are reported before words that have no place. -/
def check : Request → Except UsageError Request
  | .help => .ok .help
  | .run a =>
    if a.inputs.isEmpty then .error .missingInputs
    else if a.unrecognized.isEmpty then .ok (.run a)
    else .error (.unrecognized a.unrecognized)

def read (arguments : List String) : Except UsageError Request := do
  check (← take .default (← words arguments))

/-! ### Running -/

def luaTypeEntry (entry : String) : Except UsageError (String × String) :=
  match cutAtEquals entry.toList with
  | (_, none) => .error (.badLuaType entry)
  | (front, some back) =>
    let name := Text.trim (String.ofList front)
    let luaType := Text.trim (String.ofList back)
    if name.isEmpty || luaType.isEmpty then .error (.badLuaType entry) else .ok (name, luaType)

/-- The table of the entries, added to one that is there. It comes to nothing if an
entry has no text. -/
def luaTypeTable (table : NameTable) : List Value → Except UsageError (Option NameTable)
  | [] => .ok (some table)
  | none :: _ => .ok none
  | some entry :: rest => do
    let (name, luaType) ← luaTypeEntry entry
    luaTypeTable (table.set name luaType) rest

namespace Arguments

def target (a : Arguments) : RuntimeTarget :=
  { RuntimeTarget.default with
    crate := shown a.runtimeCrate
    argsPath := shown a.argsPath
    contextTypes :=
      if a.contextTypes.isEmpty then RuntimeTarget.default.contextTypes
      else a.contextTypes.filterMap id }

def stubRoot (a : Arguments) : Option String := a.types.filter fun name => !name.isEmpty

/-- Runs over the inputs, once the entries for annotations are in order. -/
def run (a : Arguments) (files : Files) : Except UsageError FileRun := do
  match ← luaTypeTable [] a.luaTypes with
  | none => return (FileRun.start (.fresh a.target []) files).stop .entryWithoutText
  | some fixed =>
    let start := FileRun.start (.fresh a.target fixed) files
    match a.output with
    | none => return start.announce.stop .outputWithoutText
    | some output => return start.run ⟨output, a.stubRoot⟩ a.inputs

end Arguments
end LuaBindings.CommandLine
