import HeapLens.Paths.Termination
import Mathlib.Data.Set.Card
import Mathlib.Data.List.Permutation

/-!
# Distinct shortest paths

`PathsToRoots` pops the frontier in FIFO order and extends each entry once per
occurrence of each referrer in `BuildReverseEdges`, which repeats a referrer as
often as it lists the target among its `Ptrs`.  No step compares the paths it
emits, so a pointer listed twice yields the same path twice.

When no object lists a pointer twice, every root path is reached along exactly
one chain of queue entries, each a prefix of it.  The number of ways a state
still accounts for a root path (found, or below a queued prefix) then starts at
one and stays there until `K` paths are found, and the FIFO order keeps queued
lengths within one of each other.  So the search returns `min(K, M)` distinct
root paths, shortest first, for `M` root paths in all.
-/

namespace HeapLens.Graph

variable {g : MemGraph} {fromID : ObjID}

/-! ## Root paths -/

/-- The paths the search looks for: `[from, v₁, …, vₖ]` with `k ≥ 1`, each
`vᵢ₊₁` an object that points to `vᵢ`, `vₖ` a root, no earlier id a root, and no
id repeated. -/
structure RootPath (g : MemGraph) (fromID : ObjID) (p : List ObjID) : Prop where
  valid : ValidPath g fromID p
  split : ∃ q r, p = q ++ [r] ∧ q ≠ [] ∧ r ∈ g.roots ∧ ∀ x ∈ q, x ∉ g.roots

/-- A path that ends at a root is a prefix of a root path only as the whole
path. -/
theorem RootPath.prefix_iff_eq {p q : List ObjID} (hp : RootPath g fromID p) {r : ObjID}
    (hr : r ∈ g.roots) (hlast : q.getLast? = some r) : q <+: p ↔ q = p := by
  refine ⟨fun hq => ?_, fun h => by subst h; exact List.prefix_refl _⟩
  obtain ⟨s, t, rfl, -, -, hs⟩ := hp.split
  rcases List.prefix_concat_iff.1 hq with h | h
  · exact h
  · exact absurd hr (hs r (h.subset (List.mem_of_getLast?_eq_some hlast)))

/-- Past a prefix with no root on it, a root path goes on to a referrer of the
prefix's last id that the prefix does not contain. -/
theorem RootPath.exists_next {p a : List ObjID} {id : ObjID} (hp : RootPath g fromID p)
    (ha : ∀ x ∈ a, x ∉ g.roots) (hlast : a.getLast? = some id) (hpre : a <+: p) :
    ∃ r t, p = a ++ r :: t ∧ r ∉ a ∧ PointsTo g id r := by
  obtain ⟨s, rfl⟩ := hpre
  cases s with
  | nil =>
    obtain ⟨q, r, hqr, -, hr, -⟩ := hp.split
    exact absurd hr (ha r (by rw [List.append_nil] at hqr; simp [hqr]))
  | cons r t =>
    refine ⟨r, t, rfl, fun h => (List.nodup_append.1 hp.valid.nodup).2.2 h
      (List.mem_cons_self _ _), ?_⟩
    exact (List.chain'_append.1 hp.valid.chain).2.2 id hlast r rfl

/-- A root-free prefix of a root path is shorter than it. -/
theorem RootPath.length_lt_of_prefix {p a : List ObjID} (hp : RootPath g fromID p)
    (ha : ∀ x ∈ a, x ∉ g.roots) (hpre : a <+: p) : a.length < p.length := by
  refine lt_of_le_of_ne hpre.length_le fun h => ?_
  obtain ⟨q, r, rfl, -, hr, -⟩ := hp.split
  exact ha r (by rw [hpre.eq_of_length h]; simp) hr

/-- Among duplicate-free referrers, the one-id extensions of a root-free path `a`
that are prefixes of a root path `p` number one if `a` is itself a prefix of
`p`, and none otherwise. -/
theorem countP_extends_prefix {p a : List ObjID} {id : ObjID} (hp : RootPath g fromID p)
    (ha : ∀ x ∈ a, x ∉ g.roots) (hlast : a.getLast? = some id) {referrers : List ObjID}
    (hnd : referrers.Nodup) (hmem : ∀ r, PointsTo g id r → r ∈ referrers) :
    referrers.countP (fun r => decide (r ∉ a ∧ a ++ [r] <+: p)) = if a <+: p then 1 else 0 := by
  split_ifs with hpre
  · obtain ⟨r, t, rfl, hr, hpts⟩ := hp.exists_next ha hlast hpre
    rw [← List.count_eq_one_of_mem hnd (hmem r hpts), List.count_eq_countP]
    refine List.countP_congr fun x _ => ?_
    simp only [List.prefix_append_right_inj, decide_eq_true_eq, beq_iff_eq, List.cons_prefix_cons,
      List.nil_prefix, and_true]
    constructor
    · exact fun h => h.2
    · rintro rfl
      exact ⟨hr, rfl⟩
  · rw [List.countP_eq_zero]
    intro r _ h
    exact hpre ((List.prefix_append a [r]).trans (of_decide_eq_true h).2)

/-! ## How a state accounts for a root path -/

/-- The number of ways the state `st` accounts for the path `p`: as a found
path, or through a queued entry whose path is a prefix of `p`. -/
def cover (st : BfsState) (p : List ObjID) : Nat :=
  (st.result.countP fun q => decide (q = p)) + st.queue.countP fun n => decide (n.path <+: p)

theorem cover_pushResult (st : BfsState) (x p : List ObjID) :
    cover { st with result := st.result ++ [x] } p = cover st p + if x = p then 1 else 0 := by
  simp only [cover, List.countP_append, List.countP_singleton, decide_eq_true_eq]
  omega

theorem cover_pushQueue (st : BfsState) (n : SearchNode) (p : List ObjID) :
    cover { st with queue := st.queue ++ [n] } p =
      cover st p + if n.path <+: p then 1 else 0 := by
  simp only [cover, List.countP_append, List.countP_singleton, decide_eq_true_eq]
  omega

theorem cover_pop {st : BfsState} {node : SearchNode} {queue : List SearchNode}
    (hq : st.queue = node :: queue) (p : List ObjID) :
    cover st p = cover { st with queue := queue } p + if node.path <+: p then 1 else 0 := by
  simp only [cover, hq, List.countP_cons, decide_eq_true_eq]
  omega

section Visit

variable (rootSet : ObjID → Bool) (hroot : ∀ id, rootSet id = true ↔ id ∈ g.roots)
  (maxPaths : Int) (node : SearchNode)
include hroot

/-- The inner loop adds to the count of a root path `p` one per referrer whose
extension of the popped path is a prefix of `p`, unless it stops at `K` paths. -/
theorem visitReferrers_cover {p : List ObjID} (hp : RootPath g fromID p) :
    ∀ (referrers : List ObjID) (st : BfsState),
      cover (visitReferrers rootSet maxPaths node referrers st) p ≤
        cover st p + referrers.countP (fun r => decide (r ∉ node.path ∧ node.path ++ [r] <+: p)) ∧
      (((visitReferrers rootSet maxPaths node referrers st).result.length : Int) < maxPaths →
        cover (visitReferrers rootSet maxPaths node referrers st) p =
          cover st p + referrers.countP (fun r => decide (r ∉ node.path ∧ node.path ++ [r] <+: p)))
  | [], st => by simp [visitReferrers]
  | r :: rest, st => by
    have ih := visitReferrers_cover hp rest
    simp only [visitReferrers, List.countP_cons]
    split
    · rename_i hr
      simp only [hr, not_true_eq_false, false_and, decide_False, if_false, Nat.add_zero]
      exact ih st
    rename_i hr
    split
    · rename_i hroot'
      have hx : (if node.path ++ [r] = p then 1 else 0) =
          if decide (r ∉ node.path ∧ node.path ++ [r] <+: p) then 1 else 0 := by
        simp [hr, hp.prefix_iff_eq ((hroot r).1 hroot') (List.getLast?_concat _)]
      have h1 := cover_pushResult st (node.path ++ [r]) p
      split
      · rename_i hge
        exact ⟨by omega, fun h => absurd h (not_lt.2 hge)⟩
      · obtain ⟨ih1, ih2⟩ := ih { st with result := st.result ++ [node.path ++ [r]] }
        exact ⟨by omega, fun h => by rw [ih2 h]; omega⟩
    · have h1 := cover_pushQueue st ⟨r, node.path ++ [r]⟩ p
      have hx : (if node.path ++ [r] <+: p then 1 else 0) =
          if decide (r ∉ node.path ∧ node.path ++ [r] <+: p) then 1 else 0 := by
        simp [hr]
      obtain ⟨ih1, ih2⟩ := ih { st with queue := st.queue ++ [⟨r, node.path ++ [r]⟩] }
      exact ⟨by simp only at h1; omega, fun h => by rw [ih2 h]; simp only at h1; omega⟩

/-- The inner loop only appends: found paths, each the popped path extended by a
root not on it, and queued entries, each the popped path extended by a non-root
not on it. -/
theorem visitReferrers_appends : ∀ (referrers : List ObjID) (st : BfsState), ∃ lr lq,
    (visitReferrers rootSet maxPaths node referrers st).result = st.result ++ lr ∧
    (visitReferrers rootSet maxPaths node referrers st).queue = st.queue ++ lq ∧
    (∀ p ∈ lr, ∃ r, r ∉ node.path ∧ r ∈ g.roots ∧ p = node.path ++ [r]) ∧
    ∀ n ∈ lq, n.id ∉ node.path ∧ n.id ∉ g.roots ∧ n.path = node.path ++ [n.id]
  | [], st => ⟨[], [], by simp [visitReferrers]⟩
  | r :: rest, st => by
    simp only [visitReferrers]
    split
    · exact visitReferrers_appends rest st
    rename_i hr
    split
    · rename_i hrt
      have hnew : ∃ r', r' ∉ node.path ∧ r' ∈ g.roots ∧ node.path ++ [r] = node.path ++ [r'] :=
        ⟨r, hr, (hroot r).1 hrt, rfl⟩
      split
      · exact ⟨[node.path ++ [r]], [], rfl, by simp, by simpa using hnew, by simp⟩
      · obtain ⟨lr, lq, h1, h2, h3, h4⟩ := visitReferrers_appends rest _
        refine ⟨(node.path ++ [r]) :: lr, lq, by rw [h1]; simp, h2, ?_, h4⟩
        rintro p (_ | ⟨_, hp⟩)
        exacts [hnew, h3 p hp]
    · rename_i hrt
      obtain ⟨lr, lq, h1, h2, h3, h4⟩ := visitReferrers_appends rest _
      refine ⟨lr, ⟨r, node.path ++ [r]⟩ :: lq, h1, by rw [h2]; simp, h3, ?_⟩
      rintro n (_ | ⟨_, hn⟩)
      · exact ⟨hr, fun h => hrt ((hroot r).2 h), rfl⟩
      · exact h4 n hn

end Visit

/-! ## The length order -/

/-- The order FIFO popping keeps: found paths come in non-decreasing length, and
so do queued paths, which are within one of each other; a found path is at most
one longer than a queued one. -/
structure LengthOrder (st : BfsState) : Prop where
  result_sorted : st.result.Pairwise fun p q => p.length ≤ q.length
  queue_sorted : st.queue.Pairwise fun a b => a.path.length ≤ b.path.length
  result_le_queue : ∀ p ∈ st.result, ∀ n ∈ st.queue, p.length ≤ n.path.length + 1
  queue_close : ∀ a ∈ st.queue, ∀ b ∈ st.queue, b.path.length ≤ a.path.length + 1

namespace LengthOrder

variable {st st' : BfsState} {node : SearchNode} {queue : List SearchNode}

/-- The entry at the front of the queue is a shortest one, and the others are at
most one longer. -/
theorem bounds (h : LengthOrder st) (hqueue : st.queue = node :: queue) :
    ∀ n ∈ st.queue, node.path.length ≤ n.path.length ∧ n.path.length ≤ node.path.length + 1 := by
  have hpw := h.queue_sorted
  rw [hqueue, List.pairwise_cons] at hpw
  intro n hn
  refine ⟨?_, h.queue_close node (by simp [hqueue]) n hn⟩
  rw [hqueue] at hn
  rcases List.mem_cons.1 hn with rfl | hn
  exacts [le_rfl, hpw.1 n hn]

/-- A pop that appends found paths and queued entries one longer than the popped
path keeps the order. -/
theorem pop {lr : List (List ObjID)} {lq : List SearchNode} (h : LengthOrder st)
    (hqueue : st.queue = node :: queue) (hres : st'.result = st.result ++ lr)
    (hque : st'.queue = queue ++ lq) (hlr : ∀ p ∈ lr, p.length = node.path.length + 1)
    (hlq : ∀ n ∈ lq, n.path.length = node.path.length + 1) : LengthOrder st' := by
  have hfront := h.bounds hqueue
  have hnode : node ∈ st.queue := by simp [hqueue]
  have hbounds : ∀ n ∈ st'.queue, node.path.length ≤ n.path.length ∧
      n.path.length ≤ node.path.length + 1 := by
    rw [hque]
    rintro n hn
    rcases List.mem_append.1 hn with hn | hn
    exacts [hfront n (by simp [hqueue, hn]), by rw [hlq n hn]; omega]
  have hpw := h.queue_sorted
  rw [hqueue, List.pairwise_cons] at hpw
  refine ⟨?_, ?_, fun p hp n hn => ?_, fun a ha b hb => ?_⟩
  · rw [hres, List.pairwise_append]
    exact ⟨h.result_sorted,
      List.pairwise_of_forall_mem_list fun a ha b hb => by rw [hlr a ha, hlr b hb],
      fun a ha b hb => by rw [hlr b hb]; exact h.result_le_queue a ha node hnode⟩
  · rw [hque, List.pairwise_append]
    exact ⟨hpw.2, List.pairwise_of_forall_mem_list fun a ha b hb => by rw [hlq a ha, hlq b hb],
      fun a ha b hb => by rw [hlq b hb]; exact (hfront a (by simp [hqueue, ha])).2⟩
  · have hn' := (hbounds n hn).1
    rw [hres] at hp
    rcases List.mem_append.1 hp with hp | hp
    · have := h.result_le_queue p hp node hnode
      omega
    · rw [hlr p hp]
      omega
  · have := hbounds a ha
    have := hbounds b hb
    omega

end LengthOrder

/-! ## The search invariant -/

/-- What the search keeps, beyond `BfsInv`: queued paths carry no root and found
paths are root paths; each root path is accounted for at most once, and exactly
once while fewer than `K` paths are found; the length order holds, and no root
path that was not found is shorter than one that was. -/
structure ShortestInv (g : MemGraph) (fromID : ObjID) (K : Int) (st : BfsState) : Prop where
  bfs : BfsInv g fromID K st
  queue_noRoot : ∀ n ∈ st.queue, ∀ x ∈ n.path, x ∉ g.roots
  result_root : ∀ p ∈ st.result, RootPath g fromID p
  cover_le : ∀ p, RootPath g fromID p → cover st p ≤ 1
  cover_eq : (st.result.length : Int) < K → ∀ p, RootPath g fromID p → cover st p = 1
  order : LengthOrder st
  shortest : ∀ p ∈ st.result, ∀ q, RootPath g fromID q → q ∉ st.result → p.length ≤ q.length

namespace ShortestInv

variable {K : Int} {st : BfsState}

/-- The first state: the target alone on the queue. -/
theorem init (hfrom : fromID ∉ g.roots) (hK : 0 ≤ K) :
    ShortestInv g fromID K ⟨[⟨fromID, [fromID]⟩], []⟩ where
  bfs := ⟨by simpa using ValidPath.singleton g fromID, by simp, by simpa using hK⟩
  queue_noRoot := by simpa using hfrom
  result_root := by simp
  cover_le p hp := by
    simp only [cover, List.countP_nil, List.countP_singleton]
    split <;> omega
  cover_eq _ p hp := by
    obtain ⟨t, rfl⟩ := hp.valid.exists_eq_cons
    simp [cover, List.cons_prefix_cons]
  order := ⟨List.Pairwise.nil, List.pairwise_singleton _ _, by simp, by simp⟩
  shortest := by simp

/-- While fewer than `K` paths are found, a root path not found lies below a
queued entry. -/
theorem exists_prefix (h : ShortestInv g fromID K st) (hlt : (st.result.length : Int) < K)
    {q : List ObjID} (hq : RootPath g fromID q) (hnot : q ∉ st.result) :
    ∃ n ∈ st.queue, n.path <+: q := by
  have hc := h.cover_eq hlt q hq
  have h0 : (st.result.countP fun p => decide (p = q)) = 0 :=
    List.countP_eq_zero.2 fun p hp h => hnot (of_decide_eq_true h ▸ hp)
  simp only [cover, h0, Nat.zero_add] at hc
  obtain ⟨n, hn, hpre⟩ :=
    List.countP_pos_iff.1 (by omega : 0 < st.queue.countP fun n => decide (n.path <+: q))
  exact ⟨n, hn, of_decide_eq_true hpre⟩

end ShortestInv

/-! ## The loop keeps the invariant -/

section Loop

variable {K : Int} (rootSet : ObjID → Bool) (hroot : ∀ id, rootSet id = true ↔ id ∈ g.roots)
  (hnd : ∀ id, (buildReverseEdges g id).Nodup)
include hroot hnd

/-- A pop leaves each root path's count no higher, and unchanged while fewer
than `K` paths are found: the popped entry's share passes to the one referrer
that extends it along the path. -/
theorem cover_visit {st : BfsState} {node : SearchNode} {queue : List SearchNode}
    (hqueue : st.queue = node :: queue) (hfree : ∀ x ∈ node.path, x ∉ g.roots)
    (hlast : node.path.getLast? = some node.id) {p : List ObjID} (hp : RootPath g fromID p) :
    let st' := visitReferrers rootSet K node (buildReverseEdges g node.id) { st with queue := queue }
    cover st' p ≤ cover st p ∧ ((st'.result.length : Int) < K → cover st' p = cover st p) := by
  have h0 := cover_pop hqueue p
  have hcnt := countP_extends_prefix hp hfree hlast (hnd node.id) fun r h => mem_buildReverseEdges.2 h
  obtain ⟨h1, h2⟩ := visitReferrers_cover rootSet hroot K node hp (buildReverseEdges g node.id)
    { st with queue := queue }
  rw [hcnt] at h1 h2
  exact ⟨by omega, fun h => by rw [h2 h]; omega⟩

/-- One pop keeps the invariant. -/
theorem ShortestInv.pop {st : BfsState} {node : SearchNode} {queue : List SearchNode}
    (h : ShortestInv g fromID K st) (hqueue : st.queue = node :: queue)
    (hlt : (st.result.length : Int) < K) :
    ShortestInv g fromID K
      (visitReferrers rootSet K node (buildReverseEdges g node.id) { st with queue := queue }) := by
  have hmem : node ∈ st.queue := by simp [hqueue]
  have hvalid := h.bfs.queue node hmem
  have hfree := h.queue_noRoot node hmem
  obtain ⟨lr, lq, hres, hque, hlr, hlq⟩ := visitReferrers_appends rootSet hroot K node
    (buildReverseEdges g node.id) { st with queue := queue }
  -- everything the pop adds is one longer than the popped path
  have hlr' : ∀ p ∈ lr, p.length = node.path.length + 1 := fun p hp => by
    obtain ⟨r, -, -, rfl⟩ := hlr p hp
    simp
  have hlq' : ∀ n ∈ lq, n.path.length = node.path.length + 1 := fun n hn => by
    rw [(hlq n hn).2.2]
    simp
  have hbfs := visitReferrers_inv rootSet (fun id h => (hroot id).1 h) hvalid.1 hvalid.2 _
    (fun r hr => mem_buildReverseEdges.1 hr) { st with queue := queue }
    ⟨fun n hn => h.bfs.queue n (by simp [hqueue, hn]), h.bfs.result, h.bfs.bound⟩ hlt
  have hcover := fun p (hp : RootPath g fromID p) =>
    cover_visit (K := K) rootSet hroot hnd hqueue hfree hvalid.2 hp
  refine ⟨hbfs, ?_, fun p hp => ?_, fun p hp => (hcover p hp).1.trans (h.cover_le p hp),
    fun hlt' p hp => ((hcover p hp).2 hlt').trans (h.cover_eq hlt p hp),
    h.order.pop hqueue hres hque hlr' hlq', fun p hp q hq hnot => ?_⟩
  · rw [hque]
    simp only [List.mem_append]
    rintro n (hn | hn) x hx
    · exact h.queue_noRoot n (by simp [hqueue, hn]) x hx
    · rw [(hlq n hn).2.2, List.mem_append, List.mem_singleton] at hx
      rcases hx with hx | rfl
      exacts [hfree x hx, (hlq n hn).2.1]
  · rcases List.mem_append.1 (hres ▸ hp) with hp' | hp'
    · exact h.result_root p hp'
    · obtain ⟨r, -, hr, rfl⟩ := hlr p hp'
      refine ⟨(hbfs.result _ hp).1, node.path, r, rfl, fun he => ?_, hr, hfree⟩
      simpa [he] using hvalid.1.head
  · -- a root path not found lies below a queued entry, no shorter than the popped one
    rw [hres] at hp hnot
    simp only [List.mem_append, not_or] at hp hnot
    rcases hp with hp | hp
    · exact h.shortest p hp q hq hnot.1
    · obtain ⟨n, hn, hpre⟩ := h.exists_prefix hlt hq hnot.1
      have := hq.length_lt_of_prefix (h.queue_noRoot n hn) hpre
      have := (h.order.bounds hqueue n hn).1
      rw [hlr' p hp]
      omega

/-- The whole loop keeps the invariant. -/
theorem bfsLoop_shortestInv : ∀ (fuel : Nat) (st : BfsState), ShortestInv g fromID K st →
    ShortestInv g fromID K (bfsLoop (buildReverseEdges g) rootSet K fuel st)
  | 0, _, h => h
  | fuel + 1, st, h => by
    rw [bfsLoop]
    split
    · exact h
    rename_i node queue hqueue
    split
    · exact bfsLoop_shortestInv fuel _ (h.pop rootSet hroot hnd hqueue ‹_›)
    · exact h

end Loop

/-- With no pointer listed twice, no referrer is listed twice. -/
theorem nodup_buildReverseEdges (hptrs : ∀ o ∈ g.objects, o.ptrs.Nodup) (a : ObjID) :
    (buildReverseEdges g a).Nodup := by
  rw [List.nodup_iff_count_le_one]
  intro b
  rw [buildReverseEdges_apply, count_flatMap_referrers a b g.objects g.ids_nodup]
  cases ho : g.objects.find? (·.id = b) with
  | none => simp
  | some o => exact List.nodup_iff_count_le_one.1 (hptrs o (List.mem_of_find?_eq_some ho)) a

/-- There are finitely many root paths: past the target, each lists distinct
object ids, so it is an ordering of a sublist of the ids. -/
theorem rootPaths_finite (g : MemGraph) (fromID : ObjID) : {p | RootPath g fromID p}.Finite := by
  refine (List.finite_toSet ((g.ids.sublists.flatMap List.permutations).map (fromID :: ·))).subset
    fun p hp => ?_
  obtain ⟨t, rfl⟩ := hp.valid.exists_eq_cons
  obtain ⟨l, hperm, hsl⟩ := List.subperm_of_subset (List.nodup_cons.1 hp.valid.nodup).2
    (mem_ids_of_chain hp.valid.chain)
  simp only [Set.mem_setOf_eq, List.mem_map, List.mem_flatMap, List.mem_sublists,
    List.mem_permutations, List.cons.injEq, true_and]
  exact ⟨t, ⟨l, hsl, hperm.symm⟩, rfl⟩

namespace ShortestInv

variable {K : Int} {st : BfsState}

/-- No path is found twice: each found path is a root path, which is accounted
for at most once. -/
theorem nodup (h : ShortestInv g fromID K st) : st.result.Nodup :=
  List.nodup_iff_count_le_one.2 fun p => by
    show (st.result.countP fun q => decide (q = p)) ≤ 1
    by_cases hp : RootPath g fromID p
    · exact (Nat.le_add_right _ _).trans (h.cover_le p hp)
    · have h0 : (st.result.countP fun q => decide (q = p)) = 0 :=
        List.countP_eq_zero.2 fun q hq hqp => hp (of_decide_eq_true hqp ▸ h.result_root q hq)
      omega

/-- The found paths, as a set, have as many elements as the list. -/
theorem ncard_result (h : ShortestInv g fromID K st) :
    {p | p ∈ st.result}.ncard = st.result.length := by
  rw [← List.coe_toFinset, Set.ncard_coe_Finset, List.toFinset_card_of_nodup h.nodup]

/-- There are at least as many root paths as found paths. -/
theorem length_le_ncard (h : ShortestInv g fromID K st) :
    st.result.length ≤ {p | RootPath g fromID p}.ncard :=
  h.ncard_result ▸ Set.ncard_le_ncard (fun p hp => h.result_root p hp) (rootPaths_finite g fromID)

/-- With the queue empty short of `K` paths, every root path was found. -/
theorem ncard_le_length (h : ShortestInv g fromID K st) (hq : st.queue = [])
    (hlt : (st.result.length : Int) < K) :
    {p | RootPath g fromID p}.ncard ≤ st.result.length := by
  refine h.ncard_result ▸ Set.ncard_le_ncard (fun q hq' => ?_) (List.finite_toSet _)
  have hc := h.cover_eq hlt q hq'
  simp only [cover, hq, List.countP_nil, Nat.add_zero] at hc
  obtain ⟨p, hp, he⟩ :=
    List.countP_pos_iff.1 (by omega : 0 < st.result.countP fun p => decide (p = q))
  exact of_decide_eq_true he ▸ hp

end ShortestInv

/-! ## What `PathsToRoots` returns -/

/-- On a graph where no object lists a pointer twice, from a target that is not
a root and for `K ≥ 1`, `PathsToRoots` returns `min(K, M)` distinct root paths,
for `M` root paths in all, in non-decreasing length, and leaves out no root path
shorter than one it returns; so the first is a shortest root path. -/
theorem pathsToRoots_shortest (g : MemGraph) (hptrs : ∀ o ∈ g.objects, o.ptrs.Nodup)
    (fromID : ObjID) (hfrom : fromID ∉ g.roots) (K : Int) (hK : 1 ≤ K) :
    ((pathsToRoots g fromID K).length : Int) = min K {p | RootPath g fromID p}.ncard ∧
      (pathsToRoots g fromID K).Nodup ∧
      (∀ p ∈ pathsToRoots g fromID K, RootPath g fromID p) ∧
      (pathsToRoots g fromID K).Pairwise (fun p q => p.length ≤ q.length) ∧
      ∀ p ∈ pathsToRoots g fromID K, ∀ q, RootPath g fromID q → q.length < p.length →
        q ∈ pathsToRoots g fromID K := by
  have hroot : ∀ id, decide (id ∈ g.roots) = true ↔ id ∈ g.roots := fun _ => decide_eq_true_iff
  have hinit := ShortestInv.init (g := g) (K := K) hfrom (by omega)
  set st := bfsLoop (buildReverseEdges g) (fun id => decide (id ∈ g.roots)) K (pathsFuel g)
    ⟨[⟨fromID, [fromID]⟩], []⟩ with hst
  have hinv : ShortestInv g fromID K st :=
    bfsLoop_shortestInv _ hroot (nodup_buildReverseEdges hptrs) _ _ hinit
  have hexit : st.queue = [] ∨ K ≤ st.result.length :=
    bfsLoop_exits _ (fun id h => (hroot id).1 h) _ _ hinit.bfs (queueWeight_init_lt g fromID)
  have hpaths : pathsToRoots g fromID K = st.result := by
    simp only [pathsToRoots, if_neg (show ¬K ≤ 0 by omega), hfrom, decide_False, hst]
    rfl
  rw [hpaths]
  have hle := hinv.length_le_ncard
  refine ⟨?_, hinv.nodup, hinv.result_root, hinv.order.result_sorted, fun p hp q hq hlt => ?_⟩
  · have := hinv.bfs.bound
    by_cases hlt : (st.result.length : Int) < K
    · have := hinv.ncard_le_length (hexit.resolve_right (not_le.2 hlt)) hlt
      omega
    · omega
  · by_contra hnot
    exact absurd (hinv.shortest p hp q hq hnot) (not_le.2 hlt)

/-- The root 1 lists object 2 once among its pointers. -/
def singlePtrGraph : MemGraph :=
  ⟨[{ id := 1, type := [], size := 16, ptrs := [2] },
    { id := 2, type := [], size := 16, ptrs := [], ptrsNil := true }], [1], by decide⟩

theorem singlePtrGraph_shortest :
    (∀ o ∈ singlePtrGraph.objects, o.ptrs.Nodup) ∧ 2 ∉ singlePtrGraph.roots ∧
      ((pathsToRoots singlePtrGraph 2 2).length : Int) =
        min (2 : Int) {p | RootPath singlePtrGraph 2 p}.ncard :=
  ⟨by decide, by decide, (pathsToRoots_shortest singlePtrGraph (by decide) 2 (by decide) 2
    (by decide)).1⟩

example : pathsToRoots singlePtrGraph 2 2 = [[2, 1]] := by decide

/-- The root 1 lists object 2 twice among its pointers. -/
def dupPtrGraph : MemGraph :=
  ⟨[{ id := 1, type := [], size := 16, ptrs := [2, 2] },
    { id := 2, type := [], size := 16, ptrs := [], ptrsNil := true }], [1], by decide⟩

/-- Asked for two paths from 2, `PathsToRoots` returns the only root path
`[2, 1]` twice. -/
theorem pathsToRoots_dupPtrGraph : pathsToRoots dupPtrGraph 2 2 = [[2, 1], [2, 1]] := by
  decide

end HeapLens.Graph
