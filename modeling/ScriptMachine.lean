import ScriptMachine.Diagnostic
import ScriptMachine.Main
import ScriptMachine.Program
import ScriptMachine.Proofs.Code.Discipline
import ScriptMachine.Proofs.Compiler.Assembly
import ScriptMachine.Proofs.Compiler.Expressions
import ScriptMachine.Proofs.Compiler.Statements
import ScriptMachine.Proofs.Compiler.Translation
import ScriptMachine.Proofs.Code.WellFormed
import ScriptMachine.Proofs.Compiler.Accepted
import ScriptMachine.Proofs.Heap.Evolution
import ScriptMachine.Proofs.Table.Probing
import ScriptMachine.Proofs.Machine.Calls
import ScriptMachine.Proofs.Compiler.Trust
import ScriptMachine.Proofs.Machine.Plain
import ScriptMachine.Proofs.Heap.Exactness
import ScriptMachine.Proofs.Machine.Activation
import ScriptMachine.Proofs.Machine.Assignment
import ScriptMachine.Proofs.Machine.Capturing
import ScriptMachine.Proofs.Machine.Raising
import ScriptMachine.Proofs.Machine.Scheduling
import ScriptMachine.Proofs.Machine.Turns
import ScriptMachine.Proofs.Dict.Probing
import ScriptMachine.Proofs.Dict.Refinement
import ScriptMachine.Proofs.Table.Refinement
import ScriptMachine.Proofs.Machine.Coherence
import ScriptMachine.Proofs.Machine.Running
import ScriptMachine.Proofs.Machine.Tasks
import ScriptMachine.Proofs.Compiler.Precedence
import ScriptMachine.Proofs.Machine.Closures
import ScriptMachine.Proofs.Tokens.Partition
import ScriptMachine.Proofs.Machine.Atomicity
import ScriptMachine.Proofs.Machine.Routing
import ScriptMachine.Proofs.Machine.Lifetimes
import ScriptMachine.Proofs.Renaming.Ancestry
import ScriptMachine.Proofs.Renaming.Calls
import ScriptMachine.Proofs.Renaming.Reading
import ScriptMachine.Proofs.Renaming.Collection
import ScriptMachine.Proofs.Renaming.Runs
import ScriptMachine.Proofs.Tokens.Comments
import ScriptMachine.Proofs.Machine.Copying
import ScriptMachine.Proofs.Machine.Bindings
import ScriptMachine.Proofs.Machine.Comparisons
import ScriptMachine.Proofs.Machine.Regularity
import ScriptMachine.Proofs.Machine.Invoking
import ScriptMachine.Proofs.Compiler.Listings
import ScriptMachine.Proofs.Number.Printing
import ScriptMachine.Proofs.Number.Ranges
import ScriptMachine.Proofs.Table.Load
import ScriptMachine.Proofs.Code.Lines
import ScriptMachine.Proofs.Text.Lines
import ScriptMachine.Proofs.Machine.Ranges
import ScriptMachine.Proofs.Machine.Imports
import ScriptMachine.Proofs.Compiler.Loads
import ScriptMachine.Proofs.Machine.Standing
