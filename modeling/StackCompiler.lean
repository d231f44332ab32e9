import StackCompiler.CommandLine.Files
import StackCompiler.Main
import StackCompiler.Proofs.Calling
import StackCompiler.Proofs.Disassembly
import StackCompiler.Proofs.Evaluation
import StackCompiler.Proofs.Grouping
import StackCompiler.Proofs.Horizon
import StackCompiler.Proofs.Immutability
import StackCompiler.Proofs.Insertion
import StackCompiler.Proofs.Interleaving
import StackCompiler.Proofs.Interning
import StackCompiler.Proofs.Lists
import StackCompiler.Proofs.Precedence.RoundTrip
import StackCompiler.Proofs.Recovery.Programs
import StackCompiler.Proofs.Renaming.Compiling
import StackCompiler.Proofs.Shadowing
import StackCompiler.Proofs.Simulation.Programs
import StackCompiler.Proofs.Spelling.Programs
import StackCompiler.Proofs.Advancing
