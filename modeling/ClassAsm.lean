import ClassAsm.Main
import ClassAsm.Proofs.Flow.Depth
import ClassAsm.Proofs.Machine.Refinement
import ClassAsm.Proofs.Grammar.Inverse
import ClassAsm.Proofs.Grammar.Viable
import ClassAsm.Proofs.Trimming.Programs
import ClassAsm.Proofs.Source.Slices
import ClassAsm.Proofs.Layout.Sources
import ClassAsm.Proofs.Order.Programs
import ClassAsm.Proofs.Kinds.Programs
import ClassAsm.Proofs.Registry.Changes
import ClassAsm.Proofs.Assembly.Declarations
import ClassAsm.Proofs.Assembly.Listing
import ClassAsm.Proofs.Warnings.Switches
import ClassAsm.Proofs.Reports.Guards
import ClassAsm.Proofs.Bounds.Programs
import ClassAsm.Proofs.Grammar.Terse
import ClassAsm.Proofs.Source.Directives
import ClassAsm.Proofs.Flow.Values
import ClassAsm.Proofs.Code.Expansion
import ClassAsm.Proofs.Program.Operators
import ClassAsm.Proofs.Program.OperatorTables
import ClassAsm.Proofs.Program.ClassNames
import ClassAsm.Proofs.Program.EntryPoints
import ClassAsm.Proofs.Program.Initializers
import ClassAsm.Proofs.Program.Hygiene
import ClassAsm.Proofs.Program.Resolution
import ClassAsm.Proofs.Code.Integers
import ClassAsm.Proofs.Registry.Shown
import ClassAsm.Proofs.Program.Addresses
import ClassAsm.Proofs.Reports.Excerpts
import ClassAsm.Proofs.Program.Arguments
import ClassAsm.Proofs.Program.Visibility
import ClassAsm.Proofs.Source.OpenStrings
import ClassAsm.Proofs.Command.Inputs
import ClassAsm.Proofs.Assembly.Floats
import ClassAsm.Proofs.Program.Positions
