import JunctionBox.Foundations.MixedRadix
import JunctionBox.Foundations.SumOut
import JunctionBox.Foundations.JunctionTree
import JunctionBox.Foundations.RootedTree
import JunctionBox.Foundations.RunningIntersection
import JunctionBox.Foundations.SpanningTree
import JunctionBox.Foundations.RankedSets
import JunctionBox.Foundations.HeaviestTree
import JunctionBox.Foundations.Propagation
import JunctionBox.Foundations.JointInvariant
import JunctionBox.Foundations.DirectedMessages
import JunctionBox.Foundations.UpwardMessages
import JunctionBox.Foundations.CollectionSchedule
import JunctionBox.Foundations.Hearing
import JunctionBox.Foundations.Copies
import JunctionBox.Foundations.Counting
import JunctionBox.Foundations.Gathering
import JunctionBox.Foundations.PartialLoops
import JunctionBox.Foundations.Climbing
import JunctionBox.Foundations.FillIn
import JunctionBox.Foundations.Lockstep
import JunctionBox.Foundations.Objects
import JunctionBox.Foundations.CInt
import JunctionBox.Foundations.CStrings
import JunctionBox.Foundations.Slots
import JunctionBox.Foundations.Blocks
import JunctionBox.Foundations.Borrowing
import JunctionBox.Util.BitVector
import JunctionBox.Util.BitSets
import JunctionBox.Util.BitVectorMemory
import JunctionBox.Util.Map
import JunctionBox.Util.Variable
import JunctionBox.Pot.VariableSet
import JunctionBox.Pot.IndexCross
import JunctionBox.Pot.MulInd
import JunctionBox.Pot.Tabular
import JunctionBox.Graph.Graph
import JunctionBox.Graph.Iteration
import JunctionBox.Pot.MulMemo
import JunctionBox.Pot.IntTables
import JunctionBox.Pot.Plain
import JunctionBox.Pot.IndexTables
import JunctionBox.Pot.IntPotentials
import JunctionBox.Pot.Recipe
import JunctionBox.JunctionTree.ElimSet
import JunctionBox.Inference.VertexSet
import JunctionBox.Util.DSetForest
import JunctionBox.Util.DSetRuns
import JunctionBox.Util.DSetDepth
import JunctionBox.Util.QSort
import JunctionBox.JunctionTree.ElimTree
import JunctionBox.JunctionTree.Forest
import JunctionBox.JunctionTree.MaximumWeight
import JunctionBox.JunctionTree.ForestDepth
import JunctionBox.Graph.Content
import JunctionBox.Graph.Heap
import JunctionBox.Graph.HeapCopy
import JunctionBox.Graph.Store
import JunctionBox.Graph.Degrees
import JunctionBox.Graph.Protocols
import JunctionBox.JunctionTree.Elimination
import JunctionBox.JunctionTree.MoralGraph
import JunctionBox.JunctionTree.NonCliques
import JunctionBox.JunctionTree.Centre
import JunctionBox.JunctionTree.Triangulation
import JunctionBox.JunctionTree.Names
import JunctionBox.JunctionTree.StringBuilders
import JunctionBox.Model.BNet
import JunctionBox.Inference.ElimOrdering
import JunctionBox.Inference.BuildElimTree
import JunctionBox.Inference.Potentials
import JunctionBox.Inference.IntPotentials
import JunctionBox.Inference.Messages
import JunctionBox.Inference.Traversal
import JunctionBox.Inference.Schedule
import JunctionBox.Inference.Calibration
import JunctionBox.Inference.Star
import JunctionBox.Inference.Repetition
import JunctionBox.Inference.MemoRuns
import JunctionBox.Inference.IntMessages
import JunctionBox.Inference.ArithMessages
import JunctionBox.Inference.Marginals
import JunctionBox.Inference.Interleavings
import JunctionBox.Inference.SplitMarginals
import JunctionBox.Inference.TreeMemory
import JunctionBox.Inference.Ownership
import JunctionBox.Inference.TreeCalls
import JunctionBox.Pot.Transport
import JunctionBox.Pot.Log
import JunctionBox.Pot.Agreement
import JunctionBox.Inference.LogRun
import JunctionBox.Inference.Exactness
import JunctionBox.Inference.LogMessages
import JunctionBox.Inference.LogJoint
import JunctionBox.Inference.LogPasses
import JunctionBox.Inference.Observations
import JunctionBox.Model.Loader
import JunctionBox.Model.Constructors
import JunctionBox.Xbif.Handler
import JunctionBox.Xbif.Document
import JunctionBox.Xbif.Reading
import JunctionBox.Xbif.ParseTable
import JunctionBox.Xbif.TableArray
import JunctionBox.Xbif.Reuse
import JunctionBox.Xbif.Main
import JunctionBox.Xbif.Evidence
import JunctionBox.Xbif.Answers
