import HeapLens.Graph.Basic
import Mathlib.Logic.Function.Basic

/-!
# Immediate dominators

`graph/dominators.go`: the Lengauer–Tarjan algorithm over the graph augmented
with a super-root, id 0, pointing to every root.  A depth-first search numbers
the vertices reachable from 0; in reverse order each vertex gets its
semidominator from its predecessors through the link–eval forest with path
compression, is placed in its semidominator's bucket, and the bucket of its
DFS parent is resolved, either to the immediate dominator or to a deferred
`samedom` vertex; a final forward pass settles the deferred ones.

The algorithm's maps are functions: a key that was never written reads as Go's
zero value.  The DFS and `compress` recurse; both are indexed by fuel that
bounds their recursion depth.
-/

namespace HeapLens.Graph

open Function

/-- The state of `Dominators`. -/
structure LTState where
  dfsNum : Nat
  /-- The slice `vertex`: DFS number ↦ vertex, for numbers below `dfsNum`. -/
  vertex : Nat → ObjID
  parent : ObjID → Int
  dfnum : ObjID → Option Nat
  semi : ObjID → Nat
  ancestor : ObjID → Int
  idom : ObjID → Option ObjID
  samedom : ObjID → ObjID
  best : ObjID → ObjID
  bucket : Int → List ObjID

namespace LTState

/-- The state before the DFS: every map empty. -/
def init : LTState :=
  ⟨0, fun _ => 0, fun _ => 0, fun _ => none, fun _ => 0, fun _ => 0, fun _ => none,
    fun _ => 0, fun _ => 0, fun _ => []⟩

/-- `dfnum[v]` read as a value. -/
def num (s : LTState) (v : ObjID) : Nat := (s.dfnum v).getD 0

end LTState

/-- The adjacency lists `adj`: the super-root's are the roots, if any, and each
object with a non-nil `Ptrs` has a copy of them under its id.  An object with id
0 overwrites the super-root's list. -/
def buildAdj (g : MemGraph) : ObjID → List ObjID :=
  g.objects.foldl (fun adj obj => if obj.ptrsNil then adj else update adj obj.id obj.ptrs)
    (if 0 < g.roots.length then update (fun _ => []) 0 g.roots else fun _ => [])

/-- Number the unvisited vertex `v`, whose DFS parent has number `p`. -/
def LTState.visit (s : LTState) (v : ObjID) (p : Int) : LTState :=
  { s with
    dfnum := update s.dfnum v (some s.dfsNum)
    vertex := update s.vertex s.dfsNum v
    parent := update s.parent v p
    semi := update s.semi v s.dfsNum
    ancestor := update s.ancestor v (-1)
    best := update s.best v v
    samedom := update s.samedom v v
    dfsNum := s.dfsNum + 1 }

namespace LTState

variable (s : LTState) (v : ObjID) (p : Int)

@[simp] theorem visit_dfsNum : (s.visit v p).dfsNum = s.dfsNum + 1 := rfl
@[simp] theorem visit_vertex : (s.visit v p).vertex = update s.vertex s.dfsNum v := rfl
@[simp] theorem visit_dfnum : (s.visit v p).dfnum = update s.dfnum v (some s.dfsNum) := rfl
@[simp] theorem visit_parent : (s.visit v p).parent = update s.parent v p := rfl
@[simp] theorem visit_semi : (s.visit v p).semi = update s.semi v s.dfsNum := rfl
@[simp] theorem visit_ancestor : (s.visit v p).ancestor = update s.ancestor v (-1) := rfl
@[simp] theorem visit_best : (s.visit v p).best = update s.best v v := rfl
@[simp] theorem visit_samedom : (s.visit v p).samedom = update s.samedom v v := rfl
@[simp] theorem visit_idom : (s.visit v p).idom = s.idom := rfl
@[simp] theorem visit_bucket : (s.visit v p).bucket = s.bucket := rfl

/-- `parent[vertex[j]]` as a number: the DFS parent of the vertex numbered `j`. -/
def parentNum (j : Nat) : Nat := (s.parent (s.vertex j)).toNat

end LTState

/-- `dfs(v, p)`: number `v` on first sight, then search its successors in
order; `fuel` bounds the recursion depth. -/
def dfs (adj : ObjID → List ObjID) : Nat → ObjID → Int → LTState → LTState
  | 0, _, _, s => s
  | fuel + 1, v, p, s =>
    if (s.dfnum v).isSome then s
    else (adj v).foldl (fun s' w => dfs adj fuel w s.dfsNum s') (s.visit v p)

@[simp] theorem dfs_zero (adj : ObjID → List ObjID) (v : ObjID) (p : Int) (s : LTState) :
    dfs adj 0 v p s = s := rfl

theorem dfs_succ (adj : ObjID → List ObjID) (fuel : Nat) (v : ObjID) (p : Int) (s : LTState) :
    dfs adj (fuel + 1) v p s = if (s.dfnum v).isSome then s
      else (adj v).foldl (fun s' w => dfs adj fuel w s.dfsNum s') (s.visit v p) := rfl

/-! ## The link–eval forest -/

/-- `compress(v)`: when `v`'s forest ancestor is not a root, compress the
ancestor first, keep in `best[v]` the better of the two labels, and point `v`
to its ancestor's ancestor; `fuel` bounds the recursion depth. -/
def compress : Nat → ObjID → LTState → LTState
  | 0, _, s => s
  | fuel + 1, v, s =>
    let anc := s.ancestor v
    if anc = -1 then s
    else
      let ancID := s.vertex anc.toNat
      if s.ancestor ancID ≠ -1 then
        let s := compress fuel ancID s
        let s := if s.semi (s.best ancID) < s.semi (s.best v)
          then { s with best := update s.best v (s.best ancID) } else s
        { s with ancestor := update s.ancestor v (s.ancestor ancID) }
      else s

/-- `eval(v)`: `v` itself for a forest root, otherwise `best[v]` after
compressing its path. -/
def eval (v : ObjID) (s : LTState) : ObjID × LTState :=
  if s.ancestor v = -1 then (v, s)
  else
    let s := compress (s.dfsNum + 1) v s
    (s.best v, s)

/-- `link(v, w)`. -/
def link (v : ObjID) (w : Int) (s : LTState) : LTState :=
  { s with ancestor := update s.ancestor v w }

/-- `processEdge(v, w)`: lower `semi[w]` through the predecessor `v`. -/
def processEdge (v w : ObjID) (s : LTState) : LTState :=
  match s.dfnum v with
  | none => s
  | some vNum =>
    let wNum := s.num w
    let (u, s) := if vNum ≤ wNum then (v, s) else eval v s
    if s.semi u < s.semi w then { s with semi := update s.semi w (s.semi u) } else s

/-- Lowering `semi[w]` to `x` when `x` is smaller sets it to the minimum. -/
theorem lowerSemi_eq (s : LTState) (w : ObjID) (x : Nat) :
    (if x < s.semi w then { s with semi := update s.semi w x } else s) =
      { s with semi := update s.semi w (min (s.semi w) x) } := by
  split
  · rw [min_eq_right (Nat.le_of_lt ‹_›)]
  · rw [min_eq_left (not_lt.mp ‹_›), update_eq_self]

theorem processEdge_none {v w : ObjID} {s : LTState} (hv : s.dfnum v = none) :
    processEdge v w s = s := by
  simp [processEdge, hv]

theorem processEdge_of_le {v w : ObjID} {s : LTState} {a : Nat} (hv : s.dfnum v = some a)
    (hle : a ≤ s.num w) :
    processEdge v w s = { s with semi := update s.semi w (min (s.semi w) (s.semi v)) } := by
  simp only [processEdge, hv, if_pos hle]
  exact lowerSemi_eq s w (s.semi v)

theorem processEdge_of_lt {v w : ObjID} {s : LTState} {a : Nat} (hv : s.dfnum v = some a)
    (hlt : s.num w < a) :
    processEdge v w s =
      let r := eval v s
      { r.2 with semi := update r.2.semi w (min (r.2.semi w) (r.2.semi r.1)) } := by
  simp only [processEdge, hv, if_neg (not_le.mpr hlt)]
  exact lowerSemi_eq _ w _

/-! ## The main loops -/

/-- Step 2 for `w`: every edge into `w`, from the objects' pointer lists in
`allObjects` order and then from the super-root's list `adj[0]`. -/
def semiStep (allObjects : List Object) (adj0 : List ObjID) (w : ObjID) (s : LTState) :
    LTState :=
  let s := allObjects.foldl (fun s v =>
    v.ptrs.foldl (fun s ptr => if ptr = w then processEdge v.id w s else s) s) s
  adj0.foldl (fun s ptr => if ptr = w then processEdge 0 w s else s) s

/-- Step 3 for one vertex `v` of the bucket of `w`'s parent. -/
def resolveBucketEntry (pw : Int) (s : LTState) (v : ObjID) : LTState :=
  let (u, s) := eval v s
  if s.semi u = s.semi v then { s with idom := update s.idom v (some (s.vertex pw.toNat)) }
  else { s with samedom := update s.samedom v u }

theorem resolveBucketEntry_eq (pw : Int) (s : LTState) (v : ObjID) :
    resolveBucketEntry pw s v =
      let r := eval v s
      if r.2.semi r.1 = r.2.semi v then
        { r.2 with idom := update r.2.idom v (some (r.2.vertex pw.toNat)) }
      else { r.2 with samedom := update r.2.samedom v r.1 } := rfl

/-- One iteration of the reverse loop, for the vertex numbered `i`. -/
def ltStep (allObjects : List Object) (adj0 : List ObjID) (i : Nat) (s : LTState) : LTState :=
  let w := s.vertex i
  let s := semiStep allObjects adj0 w s
  let s := { s with bucket := update s.bucket (s.semi w) (s.bucket (s.semi w) ++ [w]) }
  let s := if s.parent w ≠ -1 then link w (s.parent w) s else s
  let pw := s.parent w
  let s := (s.bucket pw).foldl (resolveBucketEntry pw) s
  { s with bucket := update s.bucket pw [] }

/-- The reverse loop over the numbers `k, k - 1, …, 1`. -/
def ltLoop (allObjects : List Object) (adj0 : List ObjID) : Nat → LTState → LTState
  | 0, s => s
  | k + 1, s => ltLoop allObjects adj0 k (ltStep allObjects adj0 (k + 1) s)

/-- Step 4 for the vertex numbered `i`: a deferred vertex takes the immediate
dominator of its `samedom` (Go's zero value 0 if that has none). -/
def settleStep (s : LTState) (i : Nat) : LTState :=
  let w := s.vertex i
  if s.samedom w ≠ w then { s with idom := update s.idom w (some ((s.idom (s.samedom w)).getD 0)) }
  else s

/-- All ids the graph mentions, with the super-root: a bound on the DFS depth. -/
def allNodes (g : MemGraph) : List ObjID :=
  0 :: g.roots ++ g.objects.flatMap fun o => o.id :: o.ptrs

/-- The state after the DFS and steps 2–4. -/
def dominatorsState (g : MemGraph) : LTState :=
  let adj := buildAdj g
  let s := dfs adj ((allNodes g).length + 1) 0 (-1) LTState.init
  let s := ltLoop g.objects (adj 0) (s.dfsNum - 1) s
  (List.range' 1 (s.dfsNum - 1)).foldl settleStep s

/-- `Dominators`: the map from each numbered vertex other than the super-root
that has an immediate dominator to it, listed in DFS order. -/
def dominators (g : MemGraph) : GoMap ObjID ObjID :=
  let s := dominatorsState g
  ((List.range s.dfsNum).foldl (fun m i =>
    match s.idom (s.vertex i) with
    | some d => m.insert (s.vertex i) d
    | none => m) GoMap.empty).erase 0

end HeapLens.Graph
