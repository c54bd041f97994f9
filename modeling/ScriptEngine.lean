import ScriptEngine.Main
import ScriptEngine.Proofs.Compile.Action
import ScriptEngine.Proofs.Draft
import ScriptEngine.Proofs.Compile.Placed
import ScriptEngine.Proofs.Compile.ExpressionCode
import ScriptEngine.Proofs.Compile.ScopeCode
import ScriptEngine.Proofs.Compile.StatementCode
import ScriptEngine.Proofs.Compile.FunctionCode
import ScriptEngine.Proofs.Compile.ProgramCode
import ScriptEngine.Proofs.Machine.Instructions
import ScriptEngine.Proofs.Machine.Library
import ScriptEngine.Proofs.Machine.Turn
import ScriptEngine.Proofs.Machine.Reach
import ScriptEngine.Proofs.Session
import ScriptEngine.Proofs.Heights
import ScriptEngine.Proofs.Machine.OpenCells
import ScriptEngine.Proofs.Acceptance
import ScriptEngine.Proofs.Captures
import ScriptEngine.Proofs.WellFormed
import ScriptEngine.Proofs.Machine.Reading
import ScriptEngine.Proofs.Machine.Calls
import ScriptEngine.Proofs.Refinement
import ScriptEngine.Proofs.Abreast.Program
import ScriptEngine.Proofs.Isolation
import ScriptEngine.Proofs.Joined.Tokens
import ScriptEngine.Proofs.Joined.Program
import ScriptEngine.Proofs.Joined.Relocation
import ScriptEngine.Proofs.Joined.Runs
import ScriptEngine.Proofs.Joined.Script
import ScriptEngine.Proofs.Joined.Renaming
import ScriptEngine.Proofs.Joined.Session
import ScriptEngine.Proofs.Snapshots
import ScriptEngine.Proofs.Reporting
import ScriptEngine.Proofs.Failures
import ScriptEngine.Proofs.Costs
import ScriptEngine.Proofs.Bounds
import ScriptEngine.Proofs.Traces
import ScriptEngine.Proofs.Compile.Resolution
import ScriptEngine.Proofs.Compile.Bare
import ScriptEngine.Proofs.Tree.Rendering
import ScriptEngine.Proofs.Compile.Ladder
import ScriptEngine.Proofs.Lexis.Spelling
import ScriptEngine.Proofs.Lexis.Tiling
import ScriptEngine.Proofs.Lexis.Composition
import ScriptEngine.Proofs.Encoding
import ScriptEngine.Proofs.LineTables
import ScriptEngine.Proofs.DiagnosticLines
import ScriptEngine.Proofs.Landing
import ScriptEngine.Proofs.Profile
import ScriptEngine.Proofs.Literals
import ScriptEngine.Proofs.Listings
import ScriptEngine.Proofs.CellOrder
import ScriptEngine.Proofs.Loops.Desugaring
