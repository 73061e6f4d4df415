import TreeWalk.Service
import TreeWalk.Proofs.Comparison
import TreeWalk.Proofs.Ownership.Conservation
import TreeWalk.Proofs.Release.Abandon
import TreeWalk.Proofs.Comparison.Trace
import TreeWalk.Proofs.Comparison.Edited
import TreeWalk.Proofs.Release.Nesting
import TreeWalk.Proofs.Walk.Visits
import TreeWalk.Proofs.Walk.Kinship
import TreeWalk.Proofs.Tree.Outline
import TreeWalk.Proofs.Comparison.Identity
import TreeWalk.Proofs.Walk.Iterations
import TreeWalk.Proofs.Walk.PreorderStack
import TreeWalk.Proofs.Comparison.Together
import TreeWalk.Proofs.Copy.Progress
import TreeWalk.Proofs.Walk.StackBounds
