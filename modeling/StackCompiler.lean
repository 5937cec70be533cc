import StackCompiler.CommandLine.Disk
import StackCompiler.Main
import StackCompiler.Proofs.Annotation
import StackCompiler.Proofs.BufferPaths
import StackCompiler.Proofs.CaptureChains
import StackCompiler.Proofs.Cascades
import StackCompiler.Proofs.Conditions
import StackCompiler.Proofs.FileNames
import StackCompiler.Proofs.IntegerConstants
import StackCompiler.Proofs.RangeLoops
import StackCompiler.Proofs.Reachability
import StackCompiler.Proofs.Regeneration
import StackCompiler.Proofs.ScopeRuns
import StackCompiler.Proofs.StringConstants
import StackCompiler.Proofs.TreeSpans
import StackCompiler.Proofs.Withholding
