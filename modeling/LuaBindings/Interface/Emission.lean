import LuaBindings.Interface

/-!
# Emitting interfaces

An interface is written as an impl that registers every method with the runtime, and,
if any method is called without a receiver, a second one that publishes those in a
table. The table can be called through its metatable, which is the table itself.
-/

set_option autoImplicit false

namespace LuaBindings.Interface

/-- The names that generated code gives to the registry, the context and the table. -/
def registry : String := "__lua_methods"

def context : String := "__lua_context"

def table : String := "__t_table"

def writeAttributes (i : Interface) (w : CodeWriter) : CodeWriter :=
  w.lines (i.impl.attributes.map fun a => Layout.inline a.trees)

def writeCall (before : String) (closure : Closure) (after : String) (w : CodeWriter) :
    CodeWriter :=
  w.block (before ++ closure.header) ("\x7d" ++ after) (·.lines closure.statements)

def writeRegistration (w : CodeWriter) (m : PreparedMethod) : CodeWriter :=
  let s := m.signature
  let before := s!"{registry}.{s.registerWith}({Literal.quote s.luaName}, "
  writeCall before (m.closure .receiver) ");" w

def userdataImpl (i : Interface) : String :=
  let crate := i.target.crate
  let header :=
    s!"impl{i.generics} {crate}::UserData for {i.selfType}{i.whereClause} \x7b"
  let function :=
    s!"fn add_methods<'lua, M: {crate}::UserDataMethods<'lua, Self>>({registry}: &mut M) \x7b"
  let w := writeAttributes i .empty
  (w.block header "\x7d" fun w =>
    w.block function "\x7d" fun w => i.methods.foldl writeRegistration w).output

def creator (m : PreparedMethod) : String :=
  if m.method.isAsync then "create_async_function"
  else
    match m.signature.dispatch with
    | .free true => "create_function_mut"
    | _ => "create_function"

def writePublication (w : CodeWriter) (m : PreparedMethod) : CodeWriter :=
  let name := Literal.quote m.signature.luaName
  writeCall s!"{table}.set({name}, {context}.{creator m}(" (m.closure .table) ")?)?;" w

/-- The impl that publishes the methods without a receiver under the given name. -/
def publishImpl (i : Interface) (name : String) : String :=
  let header := s!"impl{i.generics} {i.selfType}{i.whereClause} \x7b"
  let function := s!"fn register_globals<'lua>({context}: &'lua {i.target.luaType}) -> " ++
    s!"Result<(), {i.target.errorType}> \x7b"
  let w := writeAttributes i .empty
  (w.block header "\x7d" fun w =>
    w.block function "\x7d" fun w =>
      let w := w.line s!"let {table} = {context}.create_table()?;"
      let w := i.statics.foldl writePublication w
      let w := w.line s!"{table}.set_metatable(Some({table}.clone()));"
      w.line s!"{context}.globals().set({Literal.quote name}, {table})").output

/-- The impl that publishes, if there is anything to publish. It needs a name. -/
def publication? (i : Interface) : Except Failure (Option String) :=
  if i.statics.isEmpty then .ok none
  else
    match i.luaName? with
    | some name => .ok (some (i.publishImpl name))
    | none =>
      .error (.single (.atPlace? (i.impl.selfType.trees.head?.map TokenTree.start) .unnamedInterface))

def expansion (i : Interface) : Except Failure String := do
  match ← i.publication? with
  | some publication => return i.userdataImpl ++ "\n\n" ++ publication
  | none => return i.userdataImpl

end LuaBindings.Interface
