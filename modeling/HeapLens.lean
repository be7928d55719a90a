import HeapLens.Graph.Basic
import HeapLens.Graph.Reverse
import HeapLens.Graph.Paths
import HeapLens.Paths.Termination
import HeapLens.Paths.Shortest
import HeapLens.Dominance.Tree
import HeapLens.Dump.Codec
import HeapLens.Dump.Parser
import HeapLens.Dump.Records
import HeapLens.Dump.Streaming
import HeapLens.Dump.Registry
import HeapLens.Dump.Format
import HeapLens.Dump.RoundTrip
import HeapLens.Dump.ParseGraph
import HeapLens.Dump.StreamLoop
import HeapLens.Dump.ParseLoop
import HeapLens.Dump.StreamRoundTrip
import HeapLens.Dump.StreamRecovery
import HeapLens.Dump.StreamBudget
import HeapLens.Graph.Dominators
import HeapLens.Dominance.Theory
import HeapLens.Dominance.Dfs
import HeapLens.Dominance.Forest
import HeapLens.Dominance.Loop
import HeapLens.Dominance.Correct
import HeapLens.Dominance.Order
import HeapLens.Graph.Retained
import HeapLens.Graph.DomTree
import HeapLens.Retained.Memo
import HeapLens.Retained.Tree
import HeapLens.Retained.Correct
import HeapLens.DomTree.Walk
import HeapLens.DomTree.Correct
import HeapLens.DomTree.Shape
import HeapLens.Pipeline
