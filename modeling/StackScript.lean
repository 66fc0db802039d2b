import StackScript.Compile.Unit
import StackScript.Listing
import StackScript.Machine.Exec
import StackScript.Proofs.Translation.Files
import StackScript.Wire.Program
import StackScript.Proofs.Folding.Agreement
import StackScript.Proofs.Folding.Trees
import StackScript.Proofs.Balance.Accepting
import StackScript.Proofs.Balance.Compiled
import StackScript.Proofs.Direct.Checking
import StackScript.Proofs.Direct.Expressions
import StackScript.Proofs.Direct.Files
import StackScript.Proofs.Direct.Folding
import StackScript.Proofs.Scoping.Lexical
import StackScript.Proofs.Running.Limits
import StackScript.Proofs.Running.Assembled
import StackScript.Proofs.Running.Bounded
import StackScript.Proofs.Placing.Ranges
import StackScript.Proofs.Hosting.Later
import StackScript.Proofs.Running.SameCall
import StackScript.Proofs.Running.Variadic
import StackScript.Proofs.Wire.Programs
import StackScript.Proofs.Running.Variables
import StackScript.Proofs.Typing.Balanced
import StackScript.Proofs.Arithmetic.Exact
import StackScript.Proofs.Typing.Operators
import StackScript.Proofs.Folding.Shifts
import StackScript.Proofs.Hosting.Defects
import StackScript.Proofs.Hosting.NamedTypes
import StackScript.Proofs.Running.Refused
import StackScript.Proofs.Folding.Literals
import StackScript.Proofs.Folding.Binding
import StackScript.Proofs.Assigning.Simultaneous
import StackScript.Proofs.Foretelling.Entries
import StackScript.Proofs.Hosting.Globals
import StackScript.Proofs.Updating.Abbreviating
import StackScript.Proofs.Placing.Slots
import StackScript.Proofs.Running.Counts
import StackScript.Proofs.Hosting.Adapting
