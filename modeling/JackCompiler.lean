import JackCompiler.Main
import JackCompiler.Proofs.Syntax.Completeness
import JackCompiler.Proofs.Code.Refinement
import JackCompiler.Proofs.Code.StackHeight
import JackCompiler.Proofs.Code.ControlFlow
import JackCompiler.Proofs.Code.Branch
import JackCompiler.Proofs.Code.Diagnosis
import JackCompiler.Proofs.Token.Cut
import JackCompiler.Proofs.Token.Spacing
import JackCompiler.Proofs.Code.Independence
import JackCompiler.Proofs.Code.Truth
import JackCompiler.Proofs.Code.Constant
import JackCompiler.Proofs.Scope.Journal
import JackCompiler.Proofs.Token.Layout
import JackCompiler.Proofs.Program.Line
import JackCompiler.Proofs.Syntax.Markup
import JackCompiler.Proofs.Code.Text
import JackCompiler.Proofs.Program.Callee
import JackCompiler.Proofs.Code.Name
import JackCompiler.Proofs.Command.Again
import JackCompiler.Proofs.Token.Uncommented
import JackCompiler.Proofs.Syntax.Consumption
import JackCompiler.Proofs.Files.Ascent
import JackCompiler.Proofs.Code.Renaming
import JackCompiler.Proofs.Syntax.Descent
import JackCompiler.Proofs.Syntax.Fault
import JackCompiler.Proofs.Code.Log
