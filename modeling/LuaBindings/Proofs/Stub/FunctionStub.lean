import LuaBindings.Stub

/-!
# Function statements

The statement that a stub writes for a method, as what it is made of: the table, the key, the
form in which the key is written, and the parameters.
-/

set_option autoImplicit false

namespace LuaBindings.Stub

/-- How a statement writes the key of its function. Behind a colon the first parameter is
implicit. In brackets it is written, if there is one. -/
inductive KeyForm where
  | dot
  | colon
  | bracket (withSelf : Bool)
  deriving DecidableEq, Repr

/-- A function statement. Its parameters are those of the method. -/
structure FunctionStub where
  table : String
  key : String
  form : KeyForm
  params : List String
  deriving DecidableEq, Repr

namespace FunctionStub

/-- Whether the function is called on a value or on the table. -/
def takesSelf (f : FunctionStub) : Bool :=
  match f.form with
  | .dot => false
  | .colon => true
  | .bracket withSelf => withSelf

def arguments (f : FunctionStub) : List String := (if f.takesSelf then ["self"] else []) ++ f.params

def text (f : FunctionStub) : String :=
  match f.form with
  | .dot => s!"function {f.table}.{f.key}({commaText f.params}) end"
  | .colon => s!"function {f.table}:{f.key}({commaText f.params}) end"
  | .bracket _ => s!"{f.table}[\"{f.key}\"] = function({commaText f.arguments}) end"

/-- Whether a method with these parameters is called on a value or on the table. -/
def isColonCall (m : PreparedMethod) (params : List String) : Bool :=
  m.signature.hasReceiver || !params.isEmpty

def keyForm (m : PreparedMethod) (params : List String) : KeyForm :=
  if isPlainName m.signature.luaName then
    if isColonCall m params then .colon else .dot
  else .bracket (isColonCall m params)

def ofMethod (className : String) (m : PreparedMethod) (params : List String) : FunctionStub :=
  ⟨className, m.signature.luaName, keyForm m params, params⟩

theorem takesSelf_ofMethod (className : String) (m : PreparedMethod) (params : List String) :
    (ofMethod className m params).takesSelf = isColonCall m params := by
  unfold takesSelf ofMethod keyForm
  cases isPlainName m.signature.luaName <;> cases isColonCall m params <;> rfl

theorem params_eq_nil {m : PreparedMethod} {params : List String}
    (h : isColonCall m params = false) : params = [] := by
  unfold isColonCall at h
  simp at h
  exact h.2

/-- The line of a method is its function statement. -/
theorem functionLine_eq (className : String) (m : PreparedMethod) (params : List String) :
    functionLine className m params = (ofMethod className m params).text := by
  have hself := takesSelf_ofMethod className m params
  have hcolon : (m.signature.hasReceiver || !params.isEmpty) = isColonCall m params := rfl
  unfold text arguments functionLine
  dsimp only
  rw [hself, hcolon]
  unfold ofMethod keyForm
  cases isPlainName m.signature.luaName with
  | false => cases isColonCall m params <;> rfl
  | true =>
    cases hcall : isColonCall m params with
    | true => rfl
    | false =>
      have hnil : commaText params = "" := by rw [params_eq_nil hcall]; rfl
      have hclose : "() end" = "(" ++ "" ++ ") end" := rfl
      simp only [Bool.not_true, Bool.false_eq_true, if_false, if_true, hnil, hclose,
        String.append_assoc]
      rfl

end FunctionStub

/-- The statement of a method, with the parameters that its stub has. -/
def functionStub (className : String) (m : PreparedMethod) : FunctionStub :=
  .ofMethod className m (m.signature.args.map fun arg => parameterName arg.name)

end LuaBindings.Stub
