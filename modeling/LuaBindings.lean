import LuaBindings.Main
import LuaBindings.Proofs.CodePoints
import LuaBindings.Proofs.Declaration.TypePlaces
import LuaBindings.Proofs.TokenTree.Renaming
import LuaBindings.TokenTree.Loose
import LuaBindings.Proofs.Adapter.Hygiene
import LuaBindings.Proofs.Stub.FunctionStub
import LuaBindings.Proofs.Files
import LuaBindings.Proofs.Stub.ClassNames
import LuaBindings.Proofs.Stub.Convention
import LuaBindings.Proofs.FileRun.Work
import LuaBindings.Proofs.FileRun.Sequence
import LuaBindings.Proofs.FileRun.Reordering
import LuaBindings.Proofs.Stub.LuaText
import LuaBindings.Proofs.Stub.PublishedNames
import LuaBindings.Proofs.Options.Rereading
import LuaBindings.Proofs.Sessions
import LuaBindings.Proofs.FileRun.Failures
import LuaBindings.Proofs.FileRun.Overwriting
import LuaBindings.Proofs.Literal.Value
import LuaBindings.Proofs.TokenTree.OpenComments
import LuaBindings.Proofs.Places.Sources
import LuaBindings.Proofs.Signature.Classification
import LuaBindings.Proofs.Interface.Reports
import LuaBindings.Proofs.Adapter.EmittedSetup
import LuaBindings.Proofs.Stub.Annotations
import LuaBindings.Proofs.Diagnostic.Grouping
import LuaBindings.Proofs.Options.Refusals
import LuaBindings.Proofs.Stub.ParameterNames
import LuaBindings.Proofs.TokenTree.Substitution
import LuaBindings.Proofs.TokenTree.Commas
import LuaBindings.Proofs.TokenTree.Rows
import LuaBindings.Proofs.FileRun.Isolation
import LuaBindings.Proofs.Cursor.Runs
import LuaBindings.Proofs.Stub.DescribedMethods
import LuaBindings.Proofs.Reexpansion
