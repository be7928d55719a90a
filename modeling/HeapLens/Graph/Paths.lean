import HeapLens.Graph.Reverse
import Mathlib.Data.List.Chain

/-!
# Paths to roots

`graph/paths.go`: breadth-first search over the reverse edges from a target
object, each frontier entry carrying its whole path.  A referrer already on
the path is skipped; a referrer that is a root closes a path, any other is
queued.  The `for` loop of the source runs until the queue is empty or enough
paths are found; here it is indexed by a fuel bound on its iterations.
-/

namespace HeapLens.Graph

/-- A frontier entry (`searchNode`): the id reached and the path `[from, …, id]`. -/
structure SearchNode where
  id : ObjID
  path : List ObjID

/-- The state of the search: the FIFO queue and the paths found so far. -/
structure BfsState where
  queue : List SearchNode
  result : List (List ObjID)

/-- The inner loop over the referrers of the popped entry `node`. -/
def visitReferrers (rootSet : ObjID → Bool) (maxPaths : Int) (node : SearchNode) :
    List ObjID → BfsState → BfsState
  | [], st => st
  | referrerID :: rest, st =>
    if referrerID ∈ node.path then
      visitReferrers rootSet maxPaths node rest st
    else
      let newPath := node.path ++ [referrerID]
      if rootSet referrerID then
        let st' := { st with result := st.result ++ [newPath] }
        if maxPaths ≤ st'.result.length then st'
        else visitReferrers rootSet maxPaths node rest st'
      else
        visitReferrers rootSet maxPaths node rest
          { st with queue := st.queue ++ [⟨referrerID, newPath⟩] }

/-- The outer loop: while the queue is non-empty and fewer than `maxPaths`
paths are found, pop the front entry and visit its referrers. -/
def bfsLoop (reverse : ObjID → List ObjID) (rootSet : ObjID → Bool) (maxPaths : Int) :
    Nat → BfsState → BfsState
  | 0, st => st
  | fuel + 1, st =>
    match st.queue with
    | [] => st
    | node :: queue =>
      if (st.result.length : Int) < maxPaths then
        bfsLoop reverse rootSet maxPaths fuel
          (visitReferrers rootSet maxPaths node (reverse node.id) { st with queue := queue })
      else st

/-- Total number of pointers of `g`. -/
def totalPtrs (g : MemGraph) : Nat := (g.objects.map fun o => o.ptrs.length).sum

/-- Iteration bound of the search: every queue entry is a repetition-free
sequence of referrer choices, of which there are at most `(E + 1) ^ N`. -/
def pathsFuel (g : MemGraph) : Nat := (totalPtrs g + 1) ^ g.numObjects + 1

/-- `PathsToRoots`. -/
def pathsToRoots (g : MemGraph) (fromID : ObjID) (maxPaths : Int) : List (List ObjID) :=
  if maxPaths ≤ 0 then []
  else
    let reverse := buildReverseEdges g
    let rootSet := fun id => decide (id ∈ g.roots)
    if rootSet fromID then [[fromID]]
    else
      (bfsLoop reverse rootSet maxPaths (pathsFuel g)
        ⟨[⟨fromID, [fromID]⟩], []⟩).result

/-! ## Validity of the emitted paths -/

/-- `p` starts at `fromID`, has no repeated id, and each id is pointed to by the
object that follows it. -/
structure ValidPath (g : MemGraph) (fromID : ObjID) (p : List ObjID) : Prop where
  head : p.head? = some fromID
  nodup : p.Nodup
  chain : p.Chain' (PointsTo g)

/-- The search invariant: queued paths are valid and end at their entry's id,
found paths are valid and end at a root, and at most `maxPaths` were found. -/
structure BfsInv (g : MemGraph) (fromID : ObjID) (maxPaths : Int) (st : BfsState) : Prop where
  queue : ∀ node ∈ st.queue, ValidPath g fromID node.path ∧ node.path.getLast? = some node.id
  result : ∀ p ∈ st.result, ValidPath g fromID p ∧ ∃ r ∈ g.roots, p.getLast? = some r
  bound : (st.result.length : Int) ≤ maxPaths

theorem ValidPath.singleton (g : MemGraph) (fromID : ObjID) : ValidPath g fromID [fromID] :=
  ⟨rfl, List.nodup_singleton _, List.chain'_singleton _⟩

theorem ValidPath.snoc {g : MemGraph} {fromID : ObjID} {p : List ObjID} {last r : ObjID}
    (hp : ValidPath g fromID p) (hlast : p.getLast? = some last) (hr : r ∉ p)
    (hpts : PointsTo g last r) : ValidPath g fromID (p ++ [r]) where
  head := by
    cases p with
    | nil => simp at hlast
    | cons a p => simpa using hp.head
  nodup := List.nodup_append.mpr ⟨hp.nodup, List.nodup_singleton r, by simpa using hr⟩
  chain := List.chain'_append.mpr ⟨hp.chain, List.chain'_singleton r, by simp [hlast, hpts]⟩

theorem visitReferrers_inv {g : MemGraph} {fromID : ObjID} {maxPaths : Int}
    (rootSet : ObjID → Bool) (hroot : ∀ id, rootSet id = true → id ∈ g.roots)
    {node : SearchNode} (hnode : ValidPath g fromID node.path)
    (hlast : node.path.getLast? = some node.id) :
    ∀ (referrers : List ObjID), (∀ r ∈ referrers, PointsTo g node.id r) →
      ∀ st, BfsInv g fromID maxPaths st → (st.result.length : Int) < maxPaths →
        BfsInv g fromID maxPaths (visitReferrers rootSet maxPaths node referrers st)
  | [], _, st, hst, _ => hst
  | r :: rest, hrs, st, hst, hlt => by
    have hrest : ∀ r ∈ rest, PointsTo g node.id r := fun r hr => hrs r (by simp [hr])
    simp only [visitReferrers]
    split
    · exact visitReferrers_inv rootSet hroot hnode hlast rest hrest st hst hlt
    rename_i hr
    have hvalid := hnode.snoc hlast hr (hrs r (by simp))
    split
    · rename_i hrootr
      have hst' : BfsInv g fromID maxPaths { st with result := st.result ++ [node.path ++ [r]] } :=
        ⟨hst.queue, by
          simp only [List.mem_append, List.mem_singleton]
          rintro p (hp | rfl)
          · exact hst.result p hp
          · exact ⟨hvalid, r, hroot r hrootr, by simp⟩,
         by simp; omega⟩
      split
      · exact hst'
      · exact visitReferrers_inv rootSet hroot hnode hlast rest hrest _ hst' (by simp at *; omega)
    · refine visitReferrers_inv rootSet hroot hnode hlast rest hrest _ ⟨?_, hst.result, hst.bound⟩ hlt
      simp only [List.mem_append, List.mem_singleton]
      rintro n (hn | rfl)
      · exact hst.queue n hn
      · exact ⟨hvalid, by simp⟩

theorem bfsLoop_inv {g : MemGraph} {fromID : ObjID} {maxPaths : Int}
    (rootSet : ObjID → Bool) (hroot : ∀ id, rootSet id = true → id ∈ g.roots) :
    ∀ (fuel : Nat) (st : BfsState), BfsInv g fromID maxPaths st →
      BfsInv g fromID maxPaths (bfsLoop (buildReverseEdges g) rootSet maxPaths fuel st)
  | 0, _, hst => hst
  | fuel + 1, st, hst => by
    simp only [bfsLoop]
    split
    · exact hst
    rename_i node queue hq
    split
    · rename_i hlt
      have hnode := hst.queue node (by simp [hq])
      refine bfsLoop_inv rootSet hroot fuel _
        (visitReferrers_inv rootSet hroot hnode.1 hnode.2 _ (fun r hr => ?_) _
          ⟨fun n hn => hst.queue n (by simp [hq, hn]), hst.result, hst.bound⟩ hlt)
      exact mem_buildReverseEdges.mp hr
    · exact hst

/-- Every path `PathsToRoots` returns starts at `from`, ends at a root, repeats no
id and follows pointers backwards; there are at most `max(K, 0)` of them. -/
theorem pathsToRoots_valid (g : MemGraph) (fromID : ObjID) (K : Int) :
    ((pathsToRoots g fromID K).length : Int) ≤ max K 0 ∧
      ∀ p ∈ pathsToRoots g fromID K, p.head? = some fromID ∧
        (∃ r ∈ g.roots, p.getLast? = some r) ∧ p.Nodup ∧ p.Chain' (PointsTo g) := by
  have hsingle := ValidPath.singleton g fromID
  unfold pathsToRoots
  split
  · simp
  rename_i hK
  dsimp only
  split
  · rename_i hroot
    refine ⟨by simp; omega, ?_⟩
    simp only [List.mem_singleton, forall_eq]
    exact ⟨rfl, ⟨fromID, by simpa using hroot, rfl⟩, hsingle.nodup, hsingle.chain⟩
  · have hinit : BfsInv g fromID K ⟨[⟨fromID, [fromID]⟩], []⟩ :=
      ⟨by simp [hsingle], by simp, by simp; omega⟩
    have hinv := bfsLoop_inv (fun id => decide (id ∈ g.roots)) (fun id h => by simpa using h)
      (pathsFuel g) _ hinit
    refine ⟨by have := hinv.bound; omega, fun p hp => ?_⟩
    obtain ⟨hv, hr⟩ := hinv.result p hp
    exact ⟨hv.head, hr, hv.nodup, hv.chain⟩

end HeapLens.Graph
