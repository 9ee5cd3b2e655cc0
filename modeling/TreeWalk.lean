import TreeWalk.Main
import TreeWalk.Program.Tower
import TreeWalk.Proofs.Ancestry
import TreeWalk.Proofs.Lexical
import TreeWalk.Proofs.Mirrored
import TreeWalk.Proofs.Simulation
import TreeWalk.Proofs.Entering
import TreeWalk.Proofs.Headroom
import TreeWalk.Proofs.CallDepth
import TreeWalk.Proofs.WellShaped
import TreeWalk.Proofs.Shape
import TreeWalk.Proofs.Spread
import TreeWalk.Proofs.Grammar
import TreeWalk.Proofs.Writing
import TreeWalk.Proofs.ValueLocality
import TreeWalk.Proofs.Slot
import TreeWalk.Proofs.IntegerToken
import TreeWalk.Proofs.Naming
import TreeWalk.Proofs.Leftover
import TreeWalk.Proofs.Footprint
import TreeWalk.Proofs.CallTrace
import TreeWalk.Proofs.Unmentioned
import TreeWalk.Proofs.Finiteness
import TreeWalk.Proofs.Equality
import TreeWalk.Proofs.Reports
import TreeWalk.Proofs.OperatorTree
import TreeWalk.Proofs.Histories
import TreeWalk.Proofs.Interchange
import TreeWalk.Proofs.Splicing
import TreeWalk.Proofs.Operands
import TreeWalk.Proofs.Truthiness
import TreeWalk.Proofs.Unread
import TreeWalk.Proofs.Wrapping
import TreeWalk.Proofs.Reordering
