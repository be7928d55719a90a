import HeapLens.Graph.Dominators

/-!
# Dominator trees and retained sizes

`DominatorTree` inverts the immediate-dominator map into child lists under the
super-root 0.  `graph/retained.go` sums self-sizes over the subtrees of that
tree by a memoised post-order recursion, for every node (`RetainedSize`) or
for requested ids only (`RetainedSizeSubsets`).  Sizes are `uint64` and their
sums wrap.  The recursion `computeRetained` is indexed by fuel bounding its
depth.
-/

namespace HeapLens.Graph

/-- `DominatorTree`: an empty child list for every key and for 0, then each
node appended to the list of its immediate dominator, in map order. -/
def dominatorTree (idom : GoMap ObjID ObjID) : GoMap ObjID (List ObjID) :=
  let tree := (idom.entries.foldl (fun t e => t.insert e.1 []) GoMap.empty).insert 0 []
  idom.entries.foldl (fun t e => t.insert e.2 ((t.get? e.2).getD [] ++ [e.1])) tree

/-- The map `objSizes`: each object's size, and 0 for the super-root. -/
def objSizes (g : MemGraph) : ObjID → Option UInt64 :=
  fun id => if id = 0 then some 0 else (g.getObject id).map Object.size

/-- `computeRetained`, with the memo `retained`: a memoised node returns its
value, any other adds its children's retained sizes to its own size and
records the sum.  `fuel` bounds the recursion depth. -/
def computeRetained (tree : GoMap ObjID (List ObjID)) (sizes : ObjID → Option UInt64) :
    Nat → ObjID → GoMap ObjID UInt64 → UInt64 × GoMap ObjID UInt64
  | 0, _, retained => (0, retained)
  | fuel + 1, nodeID, retained =>
    match retained.get? nodeID with
    | some size => (size, retained)
    | none =>
      let (size, retained) := ((tree.get? nodeID).getD []).foldl
        (fun acc child =>
          let (childSize, retained) := computeRetained tree sizes fuel child acc.2
          (acc.1 + childSize, retained))
        ((sizes nodeID).getD 0, retained)
      (size, retained.insert nodeID size)

/-- `RetainedSize`: every node of the dominator tree, the super-root removed. -/
def retainedSize (g : MemGraph) : GoMap ObjID UInt64 :=
  let tree := dominatorTree (dominators g)
  let fuel := tree.entries.length + 1
  (tree.entries.foldl (fun retained e => (computeRetained tree (objSizes g) fuel e.1 retained).2)
    GoMap.empty).erase 0

/-- `RetainedSizeSubsets`: the requested ids that are objects of `g`, other than
0, with a memo shared across the queries. -/
def retainedSizeSubsets (g : MemGraph) (targetIDs : List ObjID) : GoMap ObjID UInt64 :=
  if targetIDs = [] then GoMap.empty
  else
    let tree := dominatorTree (dominators g)
    let fuel := tree.entries.length + 1
    (targetIDs.foldl (fun acc targetID =>
      if (objSizes g targetID).isSome ∧ targetID ≠ 0 then
        let (size, computed) := computeRetained tree (objSizes g) fuel targetID acc.2
        (acc.1.insert targetID size, computed)
      else acc) (GoMap.empty, GoMap.empty)).1

end HeapLens.Graph
