import LuaBindings.Diagnostic

/-!
# Faults

What stops the reading of options: diagnostics, or a string that names a code point
beyond the last. The latter is not reported with the diagnostics of a file. It ends
the whole run at once, whatever has been collected by then.
-/

set_option autoImplicit false

namespace LuaBindings

inductive Fault where
  | diagnosed (failure : Failure)
  | codePoint
  deriving DecidableEq, Repr

namespace Fault

def atPlace? {α : Type} (place : Option Location) (cause : Cause) : Except Fault α :=
  .error (.diagnosed (.single (.atPlace? place cause)))

def atPlace {α : Type} (place : Location) (cause : Cause) : Except Fault α :=
  atPlace? (some place) cause

def ofExcept {α : Type} : Except Failure α → Except Fault α
  | .ok a => .ok a
  | .error f => .error (.diagnosed f)

end Fault
end LuaBindings
