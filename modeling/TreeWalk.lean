import TreeWalk.Main
import TreeWalk.Proofs.CanonicalSpelling
import TreeWalk.Proofs.CanonicalText
import TreeWalk.Proofs.DumpedPrograms
import TreeWalk.Proofs.Equality
import TreeWalk.Proofs.Eval.Declaration
import TreeWalk.Proofs.Eval.Reachability
import TreeWalk.Proofs.Frames
import TreeWalk.Proofs.Interner.Faithful
import TreeWalk.Proofs.Interner.Limit
import TreeWalk.Proofs.Locations
import TreeWalk.Proofs.Matching
import TreeWalk.Proofs.Matching.Irrefutable
import TreeWalk.Proofs.Parser.CleanCode
import TreeWalk.Proofs.Parser.Fidelity
import TreeWalk.Proofs.Parser.ItemLimits
import TreeWalk.Proofs.Parser.Shape
import TreeWalk.Proofs.Scan.Positions
import TreeWalk.Proofs.Scripts
import TreeWalk.Proofs.Session.BrokenOutput
import TreeWalk.Proofs.Session.Heap
import TreeWalk.Proofs.Session.Instances
import TreeWalk.Proofs.Session.LineByLine
import TreeWalk.Proofs.Session.Loops
import TreeWalk.Proofs.Session.RightClass
import TreeWalk.Proofs.Session.ThisAndSuper
import TreeWalk.Proofs.Session.Transparency
import TreeWalk.Proofs.Eval.Fuel
import TreeWalk.Proofs.Eval.PaddedRuns
import TreeWalk.Proofs.Parser.SoleExpression
import TreeWalk.Proofs.Session.Expressions
import TreeWalk.Proofs.Lines
import TreeWalk.Proofs.Diagnostic.Snippets
import TreeWalk.Proofs.Session.InPlace
import TreeWalk.Proofs.Prompt
