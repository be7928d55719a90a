import HeapLens.Graph.Paths

/-!
# The search of `PathsToRoots` terminates

Every queued path starts at the target, follows pointers backwards and repeats
no id, so past its first id it lists distinct object ids and has at most
`N + 1` ids, for `N` objects.  A pop replaces the path by at most `E` paths one
id longer, for `E` pointers in all.  So the weight `(E + 1) ^ (N + 1 - ℓ)` of a
queued path of length `ℓ`, summed over the queue, drops at each iteration, from
`(E + 1) ^ N` for the first queue: the loop meets its own exit condition within
the fuel `PathsToRoots` gives it, and more fuel changes nothing.
-/

namespace HeapLens.Graph

variable {g : MemGraph}

/-! ## Bounds on paths and referrer lists -/

/-- Past the first id, a path that follows pointers backwards lists object ids. -/
theorem mem_ids_of_chain : ∀ {a : ObjID} {l : List ObjID}, (a :: l).Chain' (PointsTo g) →
    ∀ b ∈ l, b ∈ g.ids
  | _, [], _, _, hb => absurd hb (List.not_mem_nil _)
  | _, c :: l, h, b, hb => by
    rcases List.mem_cons.1 hb with rfl | hb
    · obtain ⟨o, ho, rfl, -⟩ := (List.chain'_cons.1 h).1
      exact MemGraph.mem_ids.2 ⟨o, ho, rfl⟩
    · exact mem_ids_of_chain (List.chain'_cons.1 h).2 b hb

/-- A valid path is the target followed by the rest. -/
theorem ValidPath.exists_eq_cons {fromID : ObjID} {p : List ObjID} (h : ValidPath g fromID p) :
    ∃ t, p = fromID :: t := by
  cases p with
  | nil => cases h.head
  | cons a t => exact ⟨t, by rw [Option.some.inj h.head]⟩

/-- A valid path has at most one id more than there are objects. -/
theorem ValidPath.length_le {fromID : ObjID} {p : List ObjID} (h : ValidPath g fromID p) :
    p.length ≤ g.numObjects + 1 := by
  obtain ⟨t, rfl⟩ := h.exists_eq_cons
  have := (List.subperm_of_subset (List.nodup_cons.1 h.nodup).2 (mem_ids_of_chain h.chain)).length_le
  simp only [MemGraph.ids, List.length_map, List.length_cons] at this ⊢
  exact Nat.succ_le_succ this

theorem length_referrers_le (a : ObjID) : ∀ objs : List Object,
    (objs.flatMap fun o => List.replicate (o.ptrs.count a) o.id).length ≤
      (objs.map fun o => o.ptrs.length).sum
  | [] => le_rfl
  | o :: objs => by
    have := length_referrers_le a objs
    have := List.count_le_length a o.ptrs
    simp only [List.flatMap_cons, List.length_append, List.length_replicate, List.map_cons,
      List.sum_cons]
    omega

/-- A referrer list has at most one entry per pointer of the graph. -/
theorem length_buildReverseEdges_le (a : ObjID) :
    (buildReverseEdges g a).length ≤ totalPtrs g := by
  rw [buildReverseEdges_apply]
  exact length_referrers_le a g.objects

/-! ## One pop -/

/-- The inner loop only appends to the queue, at most one entry per referrer,
each the popped path extended by its own id. -/
theorem visitReferrers_queue (rootSet : ObjID → Bool) (maxPaths : Int) (node : SearchNode) :
    ∀ (referrers : List ObjID) (st : BfsState), ∃ l,
      (visitReferrers rootSet maxPaths node referrers st).queue = st.queue ++ l ∧
      l.length ≤ referrers.length ∧ ∀ n ∈ l, n.path = node.path ++ [n.id]
  | [], st => ⟨[], by simp [visitReferrers]⟩
  | r :: rest, st => by
    simp only [visitReferrers]
    split
    · obtain ⟨l, hq, hl, hn⟩ := visitReferrers_queue rootSet maxPaths node rest st
      exact ⟨l, hq, by simp; omega, hn⟩
    split
    · split
      · exact ⟨[], by simp⟩
      · obtain ⟨l, hq, hl, hn⟩ := visitReferrers_queue rootSet maxPaths node rest _
        exact ⟨l, hq, by simp; omega, hn⟩
    · obtain ⟨l, hq, hl, hn⟩ := visitReferrers_queue rootSet maxPaths node rest _
      refine ⟨⟨r, node.path ++ [r]⟩ :: l, hq.trans (by simp), by simp; omega, ?_⟩
      rintro n (_ | ⟨_, hn'⟩)
      · rfl
      · exact hn n hn'

/-- The weight of a queued path of length `ℓ`: `(E + 1) ^ (N + 1 - ℓ)`. -/
def pathWeight (g : MemGraph) (p : List ObjID) : Nat :=
  (totalPtrs g + 1) ^ (g.numObjects + 1 - p.length)

/-- The weight of a queue: the sum of its paths' weights. -/
def queueWeight (g : MemGraph) (queue : List SearchNode) : Nat :=
  (queue.map fun n => pathWeight g n.path).sum

theorem queueWeight_append (q q' : List SearchNode) :
    queueWeight g (q ++ q') = queueWeight g q + queueWeight g q' := by
  induction q with
  | nil => simp [queueWeight]
  | cons n q ih =>
    simp only [queueWeight, List.cons_append, List.map_cons, List.sum_cons] at ih ⊢
    rw [ih, Nat.add_assoc]

/-- A queue of paths of one weight weighs its length times that weight. -/
theorem queueWeight_of_const {c : Nat} : ∀ {q : List SearchNode},
    (∀ n ∈ q, pathWeight g n.path = c) → queueWeight g q = q.length * c
  | [], _ => by simp [queueWeight]
  | n :: q, h => by
    have := queueWeight_of_const fun m hm => h m (List.mem_cons_of_mem _ hm)
    simp only [queueWeight, List.map_cons, List.sum_cons, List.length_cons] at this ⊢
    rw [this, h n (List.mem_cons_self _ _), Nat.succ_mul, Nat.add_comm]

/-- The children of a popped path weigh less than it: there are at most `E`
of them, each weighing a factor `E + 1` less. -/
theorem queueWeight_children_lt {node : SearchNode} {l : List SearchNode}
    (hl : l.length ≤ totalPtrs g) (hn : ∀ n ∈ l, n.path = node.path ++ [n.id])
    (hlen : ∀ n ∈ l, n.path.length ≤ g.numObjects + 1) :
    queueWeight g l < pathWeight g node.path := by
  cases l with
  | nil => exact Nat.pos_pow_of_pos _ (Nat.succ_pos _)
  | cons n l =>
    have hℓ : node.path.length + 1 ≤ g.numObjects + 1 := by
      simpa [hn n (List.mem_cons_self _ _)] using hlen n (List.mem_cons_self _ _)
    have hw : queueWeight g (n :: l) =
        (n :: l).length * (totalPtrs g + 1) ^ (g.numObjects - node.path.length) :=
      queueWeight_of_const fun m hm => by
        rw [pathWeight, hn m hm, List.length_append, List.length_singleton,
          show g.numObjects + 1 - (node.path.length + 1) = g.numObjects - node.path.length by omega]
    have hpow : pathWeight g node.path =
        (totalPtrs g + 1) * (totalPtrs g + 1) ^ (g.numObjects - node.path.length) := by
      rw [pathWeight, show g.numObjects + 1 - node.path.length =
        g.numObjects - node.path.length + 1 by omega, Nat.pow_succ, Nat.mul_comm]
    rw [hw, hpow]
    exact Nat.mul_lt_mul_of_pos_right (by omega) (Nat.pos_pow_of_pos _ (Nat.succ_pos _))

/-- The first queue, the target alone, weighs less than the fuel. -/
theorem queueWeight_init_lt (g : MemGraph) (fromID : ObjID) :
    queueWeight g [⟨fromID, [fromID]⟩] < pathsFuel g := by
  simp [queueWeight, pathWeight, pathsFuel]

/-! ## The loop -/

/-- A state that meets the exit condition is returned as it is. -/
theorem bfsLoop_of_exit {reverse : ObjID → List ObjID} {rootSet : ObjID → Bool} {maxPaths : Int}
    {st : BfsState} (h : st.queue = [] ∨ maxPaths ≤ st.result.length) :
    ∀ fuel, bfsLoop reverse rootSet maxPaths fuel st = st
  | 0 => rfl
  | fuel + 1 => by
    rw [bfsLoop]
    split
    · rfl
    · rename_i node queue hq
      rw [if_neg (not_lt.2 (h.resolve_left (by simp [hq])))]

section Loop

variable {fromID : ObjID} {maxPaths : Int} (rootSet : ObjID → Bool)
  (hroot : ∀ id, rootSet id = true → id ∈ g.roots)
include hroot

/-- One iteration that pops and visits lowers the queue's weight. -/
theorem queueWeight_pop {st : BfsState} {node : SearchNode} {queue : List SearchNode}
    (hinv : BfsInv g fromID maxPaths st) (hq : st.queue = node :: queue)
    (hlt : (st.result.length : Int) < maxPaths) :
    queueWeight g (visitReferrers rootSet maxPaths node (buildReverseEdges g node.id)
      { st with queue := queue }).queue < queueWeight g st.queue := by
  have hnode := hinv.queue node (by simp [hq])
  have hinv' := visitReferrers_inv rootSet hroot hnode.1 hnode.2 _
    (fun r hr => mem_buildReverseEdges.1 hr) { st with queue := queue }
    ⟨fun n hn => hinv.queue n (by simp [hq, hn]), hinv.result, hinv.bound⟩ hlt
  obtain ⟨l, hql, hl, hn⟩ := visitReferrers_queue rootSet maxPaths node
    (buildReverseEdges g node.id) { st with queue := queue }
  have hlt' := queueWeight_children_lt (hl.trans (length_buildReverseEdges_le node.id)) hn
    (fun n hn' => (hinv'.queue n (by rw [hql]; exact List.mem_append_right _ hn')).1.length_le)
  rw [hql, queueWeight_append, hq]
  simp only [queueWeight, List.map_cons, List.sum_cons] at hlt' ⊢
  omega

/-- With fuel above the queue's weight, the loop stops at its own exit
condition: the queue is empty, or enough paths were found. -/
theorem bfsLoop_exits : ∀ (fuel : Nat) (st : BfsState), BfsInv g fromID maxPaths st →
    queueWeight g st.queue < fuel →
    (bfsLoop (buildReverseEdges g) rootSet maxPaths fuel st).queue = [] ∨
      maxPaths ≤ (bfsLoop (buildReverseEdges g) rootSet maxPaths fuel st).result.length
  | 0, _, _, h => absurd h (Nat.not_lt_zero _)
  | fuel + 1, st, hinv, hfuel => by
    rw [bfsLoop]
    split
    · exact .inl ‹_›
    rename_i node queue hq
    split
    · rename_i hlt
      have hinv' := visitReferrers_inv rootSet hroot (hinv.queue node (by simp [hq])).1
        (hinv.queue node (by simp [hq])).2 _ (fun r hr => mem_buildReverseEdges.1 hr)
        { st with queue := queue }
        ⟨fun n hn => hinv.queue n (by simp [hq, hn]), hinv.result, hinv.bound⟩ hlt
      exact bfsLoop_exits fuel _ hinv' (by have := queueWeight_pop rootSet hroot hinv hq hlt; omega)
    · exact .inr (not_lt.1 ‹_›)

/-- Past the queue's weight, more fuel does not change the result. -/
theorem bfsLoop_add : ∀ (fuel k : Nat) (st : BfsState), BfsInv g fromID maxPaths st →
    queueWeight g st.queue < fuel →
    bfsLoop (buildReverseEdges g) rootSet maxPaths (fuel + k) st =
      bfsLoop (buildReverseEdges g) rootSet maxPaths fuel st
  | 0, _, _, _, h => absurd h (Nat.not_lt_zero _)
  | fuel + 1, k, st, hinv, hfuel => by
    rw [Nat.add_right_comm, bfsLoop, bfsLoop]
    split
    · rfl
    rename_i node queue hq
    split
    · rename_i hlt
      have hinv' := visitReferrers_inv rootSet hroot (hinv.queue node (by simp [hq])).1
        (hinv.queue node (by simp [hq])).2 _ (fun r hr => mem_buildReverseEdges.1 hr)
        { st with queue := queue }
        ⟨fun n hn => hinv.queue n (by simp [hq, hn]), hinv.result, hinv.bound⟩ hlt
      exact bfsLoop_add fuel k _ hinv' (by have := queueWeight_pop rootSet hroot hinv hq hlt; omega)
    · rfl

end Loop

/-- The breadth-first loop of `PathsToRoots` terminates on every graph, cycles
and self-references included: with the fuel the model gives it, it stops at its
own exit condition (the queue empty, or `K` paths found), and any more fuel
gives the same state.  In every state it passes through, each queued path
repeats no id and has at most one id more than there are objects; and a pop
replaces the popped entry only by entries whose paths extend it by one id. -/
theorem bfsLoop_terminates (g : MemGraph) (fromID : ObjID) (K : Int) :
    let bfs := fun fuel => bfsLoop (buildReverseEdges g) (fun id => decide (id ∈ g.roots)) K
      fuel ⟨[⟨fromID, [fromID]⟩], []⟩
    ((bfs (pathsFuel g)).queue = [] ∨ K ≤ (bfs (pathsFuel g)).result.length) ∧
    (∀ fuel, pathsFuel g ≤ fuel → bfs fuel = bfs (pathsFuel g)) ∧
    (∀ fuel, ∀ node ∈ (bfs fuel).queue, node.path.Nodup ∧ node.path.length ≤ g.numObjects + 1) ∧
    ∀ (node : SearchNode) (referrers : List ObjID) (st : BfsState), ∃ l,
      (visitReferrers (fun id => decide (id ∈ g.roots)) K node referrers st).queue =
        st.queue ++ l ∧ ∀ n ∈ l, n.path = node.path ++ [n.id] := by
  intro bfs
  have hstep : ∀ (node : SearchNode) (referrers : List ObjID) (st : BfsState), ∃ l,
      (visitReferrers (fun id => decide (id ∈ g.roots)) K node referrers st).queue =
        st.queue ++ l ∧ ∀ n ∈ l, n.path = node.path ++ [n.id] := fun node referrers st =>
    (visitReferrers_queue _ K node referrers st).imp fun _ h => ⟨h.1, h.2.2⟩
  have hsingle := ValidPath.singleton g fromID
  by_cases hK : 0 ≤ K
  · have hroot : ∀ id, decide (id ∈ g.roots) = true → id ∈ g.roots := fun id h => by simpa using h
    have hinit : BfsInv g fromID K ⟨[⟨fromID, [fromID]⟩], []⟩ :=
      ⟨by simp [hsingle], by simp, by simpa using hK⟩
    have hw := queueWeight_init_lt g fromID
    refine ⟨bfsLoop_exits _ hroot _ _ hinit hw, fun fuel hfuel => ?_, fun fuel node hnode => ?_,
      hstep⟩
    · obtain ⟨k, rfl⟩ := Nat.exists_eq_add_of_le hfuel
      exact bfsLoop_add _ hroot _ k _ hinit hw
    · have hv := ((bfsLoop_inv _ hroot fuel _ hinit).queue node hnode).1
      exact ⟨hv.nodup, hv.length_le⟩
  · -- with `K < 0` the loop stops before its first pop
    have hconst : ∀ fuel, bfs fuel = ⟨[⟨fromID, [fromID]⟩], []⟩ :=
      bfsLoop_of_exit (.inr (by simp; omega))
    refine ⟨.inr (by rw [hconst]; simp; omega), fun fuel _ => by rw [hconst, hconst],
      fun fuel node hnode => ?_, hstep⟩
    rw [hconst, List.mem_singleton] at hnode
    subst hnode
    exact ⟨hsingle.nodup, hsingle.length_le⟩

end HeapLens.Graph
