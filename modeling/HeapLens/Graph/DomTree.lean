import HeapLens.Graph.Basic

/-!
# Dominator-tree utilities

`graph/domtree.go` reads the maps that `Dominators` and `DominatorTree` return.
`DominatorDepth` records the depth of every node below the super-root 0 by a
recursion down the child lists, `DominatorPath` follows immediate dominators
from a node up to 0, and `IsDominated` asks whether a node lies on that walk.
The Go recursion and loops have no bound and do not return on a map with a
cycle; here `fuel` bounds each, `none` stands for a run that does not return,
and each function gets the number of map entries plus one.
-/

namespace HeapLens.Graph

/-! ## `DominatorDepth` -/

/-- `computeDepth(node, d)`: record `d` as the depth of `node`, then recurse
into each of its children at depth `d + 1`, threading the depth map. -/
def computeDepth (tree : GoMap ObjID (List ObjID)) :
    Nat → ObjID → Nat → GoMap ObjID Nat → Option (GoMap ObjID Nat)
  | 0, _, _, _ => none
  | fuel + 1, node, d, depth =>
    ((tree.get? node).getD []).foldlM (fun depth child => computeDepth tree fuel child (d + 1) depth)
      (depth.insert node d)

/-- `DominatorDepth(tree)`: the depth map of the recursion from the super-root
at depth 0. -/
def dominatorDepth (tree : GoMap ObjID (List ObjID)) : Option (GoMap ObjID Nat) :=
  computeDepth tree (tree.entries.length + 1) 0 0 GoMap.empty

/-! ## `DominatorPath` -/

/-- The loop of `DominatorPath` from `current`, with the path so far: append
`current`, then stop at a node with no entry or with 0 as its entry, appending
0 unless `current` is 0 itself, or go on to `idom[current]`. -/
def dominatorPathLoop (idom : GoMap ObjID ObjID) :
    Nat → ObjID → List ObjID → Option (List ObjID)
  | 0, _, _ => none
  | fuel + 1, current, path =>
    let path := path ++ [current]
    match idom.get? current with
    | some dom =>
      if dom = 0 then some (if current ≠ 0 then path ++ [0] else path)
      else dominatorPathLoop idom fuel dom path
    | none => some (if current ≠ 0 then path ++ [0] else path)

/-- `DominatorPath(idom, node)`: `node`, its immediate dominators upwards, and
the super-root. -/
def dominatorPath (idom : GoMap ObjID ObjID) (node : ObjID) : Option (List ObjID) :=
  dominatorPathLoop idom (idom.entries.length + 1) node []

/-! ## `IsDominated` -/

/-- The loop of `IsDominated` from `current`: false at a node with no entry,
true when the entry is `dominator`, and at an entry 0 whether `dominator` is 0;
otherwise go on to `idom[current]`. -/
def isDominatedLoop (idom : GoMap ObjID ObjID) (dominator : ObjID) :
    Nat → ObjID → Option Bool
  | 0, _ => none
  | fuel + 1, current =>
    match idom.get? current with
    | none => some false
    | some dom =>
      if dom = dominator then some true
      else if dom = 0 then some (dominator == 0)
      else isDominatedLoop idom dominator fuel dom

/-- `IsDominated(idom, node, dominator)`: every node dominates itself; otherwise
walk up from `node`. -/
def isDominated (idom : GoMap ObjID ObjID) (node dominator : ObjID) : Option Bool :=
  if node = dominator then some true
  else isDominatedLoop idom dominator (idom.entries.length + 1) node

end HeapLens.Graph
