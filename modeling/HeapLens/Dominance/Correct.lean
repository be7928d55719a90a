import HeapLens.Dominance.Loop

/-!
# `Dominators` returns the immediate dominators

The statement in the graph's own terms.  `Edge g` is the graph `G'` that
`Dominators` searches: the super-root 0 points to every root and each object to
the ids in its `Ptrs`.  A path is listed node by node (`IsPath`); a node is
`Reachable` when a path from 0 leads to it, and `d` lies on every path to `v`
when each such list contains `d`.

When no object has id 0, `buildAdj` holds exactly the edges of `G'`, the search
numbers exactly the reachable nodes, and the paths of `G'` from 0 are the paths
over numbers of the `DfsTree` that the search leaves.  Dominance in the
number-space theory is then dominance in `G'`, and `idom_spec` becomes a
statement about the map that `Dominators` returns.
-/

namespace HeapLens.Graph

open Function (update update_noteq update_same)

/-! ## The augmented graph -/

/-- An edge of `G'`: from the super-root to a root, or from an object to an id
in its `Ptrs`. -/
def Edge (g : MemGraph) (a b : ObjID) : Prop :=
  (a = 0 ∧ b ∈ g.roots) ∨ ∃ o ∈ g.objects, o.id = a ∧ b ∈ o.ptrs

instance (g : MemGraph) : DecidableRel (Edge g) := fun _ _ => by
  unfold Edge
  infer_instance

/-- `p` lists the nodes of a path of `G'` from `a` to `b`. -/
inductive IsPath (g : MemGraph) : ObjID → ObjID → List ObjID → Prop
  | single (a : ObjID) : IsPath g a a [a]
  | cons {a b c : ObjID} {p : List ObjID} : Edge g a b → IsPath g b c p → IsPath g a c (a :: p)

/-- `v` is reachable from the super-root. -/
def Reachable (g : MemGraph) (v : ObjID) : Prop := ∃ p, IsPath g 0 v p

/-- `d` lies on every path from the super-root to `v`. -/
def OnEveryPath (g : MemGraph) (d v : ObjID) : Prop := ∀ p, IsPath g 0 v p → d ∈ p

/-- `m` is the immediate-dominator map of `G'`: its keys are the nodes other
than the super-root that are reachable from it, and the value `d` of a key `v`
differs from `v`, lies on every path to `v`, and is dominated by every other
node that lies on all those paths. -/
def IsIdomMap (g : MemGraph) (m : GoMap ObjID ObjID) : Prop :=
  (∀ v, v ∈ m.keys ↔ v ≠ 0 ∧ Reachable g v) ∧
    ∀ v d, m.get? v = some d →
      d ≠ v ∧ OnEveryPath g d v ∧ ∀ x, x ≠ v → OnEveryPath g x v → OnEveryPath g x d

namespace IsPath

variable {g : MemGraph} {a b : ObjID} {p : List ObjID}

theorem head_mem (h : IsPath g a b p) : a ∈ p := by
  cases h <;> exact List.mem_cons_self _ _

theorem last_mem (h : IsPath g a b p) : b ∈ p := by
  induction h with
  | single => exact List.mem_cons_self _ _
  | cons _ _ ih => exact List.mem_cons_of_mem _ ih

end IsPath

/-! ## The adjacency lists -/

section Adj

variable {g : MemGraph}

/-- The fold of `buildAdj` over objects with distinct ids, started from lists
that are empty at those ids, gives each object its `Ptrs` (a nil slice is
empty) and leaves the other ids alone. -/
theorem foldl_adj (os : List Object) (hnd : (os.map Object.id).Nodup)
    (f : ObjID → List ObjID) (hf : ∀ o ∈ os, f o.id = []) (a : ObjID) :
    os.foldl (fun adj obj => if obj.ptrsNil then adj else update adj obj.id obj.ptrs) f a =
      ((os.find? (·.id = a)).map Object.ptrs).getD (f a) := by
  induction os generalizing f with
  | nil => rfl
  | cons o os ih =>
    rw [List.map_cons, List.nodup_cons] at hnd
    have hstep : ∀ x, x ≠ o.id →
        (if o.ptrsNil then f else update f o.id o.ptrs) x = f x := by
      intro x hx
      split <;> simp [update_noteq hx]
    have hfresh : ∀ o' ∈ os, o'.id ≠ o.id := fun o' ho' h =>
      hnd.1 (h ▸ List.mem_map_of_mem Object.id ho')
    rw [List.foldl_cons, ih hnd.2 _ fun o' ho' => by
      rw [hstep _ (hfresh o' ho'), hf o' (List.mem_cons_of_mem _ ho')]]
    by_cases hoa : o.id = a
    · subst hoa
      have hnone : os.find? (·.id = o.id) = none := by
        simpa using fun o' ho' => hfresh o' ho'
      rw [hnone, List.find?_cons_of_pos _ (by simp)]
      split
      · rename_i hnil
        simp [o.nil_empty hnil, hf o (List.mem_cons_self _ _)]
      · simp
    · rw [List.find?_cons_of_neg _ (by simpa using hoa), hstep a (Ne.symm hoa)]

variable (h0 : ∀ o ∈ g.objects, o.id ≠ 0)
include h0

theorem buildAdj_eq (a : ObjID) :
    buildAdj g a = ((g.getObject a).map Object.ptrs).getD (if a = 0 then g.roots else []) := by
  have hinit : ∀ x, (if 0 < g.roots.length then update (fun _ => []) 0 g.roots
      else fun _ => ([] : List ObjID)) x = if x = 0 then g.roots else [] := by
    intro x
    by_cases hx : x = 0
    · subst hx
      split <;> simp_all
    · split <;> simp [hx, update_noteq hx]
  rw [buildAdj, foldl_adj _ g.ids_nodup _ (fun o ho => by rw [hinit, if_neg (h0 o ho)]), hinit]
  rfl

theorem buildAdj_zero : buildAdj g 0 = g.roots := by
  rw [buildAdj_eq h0, MemGraph.getObject_eq_none.2 h0]
  rfl

/-- `adj` holds exactly the edges of `G'`. -/
theorem mem_buildAdj {a b : ObjID} : b ∈ buildAdj g a ↔ Edge g a b := by
  rw [buildAdj_eq h0, Edge]
  cases hget : g.getObject a with
  | none =>
    have hnone : ¬ ∃ o ∈ g.objects, o.id = a ∧ b ∈ o.ptrs := fun ⟨o, ho, hid, _⟩ =>
      MemGraph.getObject_eq_none.1 hget o ho hid
    by_cases ha : a = 0
    · subst ha
      simp [hnone]
    · simp [ha, hnone]
  | some o =>
    obtain ⟨ho, rfl⟩ := MemGraph.getObject_eq_some.1 hget
    simp only [Option.map_some', Option.getD_some]
    constructor
    · exact fun hb => .inr ⟨o, ho, rfl, hb⟩
    · rintro (⟨h, -⟩ | ⟨o', ho', hid, hb⟩)
      · exact absurd h (h0 o ho)
      · rwa [MemGraph.eq_of_id_eq ho' ho hid] at hb

/-- Step 2 visits exactly the predecessors in `G'`. -/
theorem predsExact : Dominance.PredsExact g.objects (buildAdj g 0) (buildAdj g) := by
  intro w v
  rw [Dominance.mem_predsOf, buildAdj_zero h0, mem_buildAdj h0, Edge]
  constructor
  · rintro (⟨o, ho, hw, rfl⟩ | ⟨hw, rfl⟩)
    · exact .inr ⟨o, ho, rfl, hw⟩
    · exact .inl ⟨rfl, hw⟩
  · rintro (⟨rfl, hw⟩ | ⟨o, ho, rfl, hw⟩)
    · exact .inr ⟨hw, rfl⟩
    · exact .inl ⟨o, ho, hw, rfl⟩

end Adj

theorem mem_allNodes_of_edge {g : MemGraph} {a b : ObjID} (h : Edge g a b) :
    b ∈ allNodes g := by
  rcases h with ⟨-, hb⟩ | ⟨o, ho, -, hb⟩
  · simp [allNodes, hb]
  · exact List.mem_cons_of_mem _
      (List.mem_append_right _ (List.mem_flatMap.2 ⟨o, ho, List.mem_cons_of_mem _ hb⟩))

/-! ## The search -/

/-- The state that `dfs(0, -1)` leaves in `Dominators`. -/
def searchState (g : MemGraph) : LTState :=
  dfs (buildAdj g) ((allNodes g).length + 1) 0 (-1) LTState.init

section Search

variable {g : MemGraph}

theorem searchState_done (h0 : ∀ o ∈ g.objects, o.id ≠ 0) :
    Dominance.DfsDone (buildAdj g) (allNodes g) (searchState g) :=
  Dominance.dfs_done (fun _ _ hy => mem_allNodes_of_edge ((mem_buildAdj h0).1 hy))
    (List.mem_cons_self _ _)

variable (h0 : ∀ o ∈ g.objects, o.id ≠ 0) {U : List ObjID} {s : LTState}
  (hd : Dominance.DfsDone (buildAdj g) U s)
include h0 hd

theorem edge_of_tree {a b : Nat} (h : hd.tree.edge a b) :
    a < s.dfsNum ∧ b < s.dfsNum ∧ Edge g (s.vertex a) (s.vertex b) := by
  obtain ⟨ha, hb, hab⟩ := hd.tree_edge.1 h
  exact ⟨ha, hb, (mem_buildAdj h0).1 hab⟩

/-- The successors of a numbered node are numbered. -/
theorem numbered_of_edge {a : Nat} (ha : a < s.dfsNum) {b : ObjID}
    (hab : Edge g (s.vertex a) b) : ∃ m < s.dfsNum, s.vertex m = b := by
  obtain ⟨m, hm, hnum⟩ := hd.succ_numbered ha ((mem_buildAdj h0).2 hab)
  exact ⟨m, hm, (hd.inv.vertex_dfnum _ _ hnum).2⟩

/-- Every node of a path from a numbered node is numbered. -/
theorem numbered_of_isPath {x y : ObjID} {p : List ObjID} (hp : IsPath g x y p)
    (hx : ∃ a < s.dfsNum, s.vertex a = x) : ∀ z ∈ p, ∃ c < s.dfsNum, s.vertex c = z := by
  induction hp with
  | single => simpa using hx
  | cons hxb _ ih =>
    obtain ⟨a, ha, rfl⟩ := hx
    intro z hz
    rcases List.mem_cons.1 hz with rfl | hz
    · exact ⟨a, ha, rfl⟩
    · exact ih (numbered_of_edge h0 hd ha hxb) z hz

/-- A path over numbers is a path of `G'` through the vertices of those numbers. -/
theorem isPath_of_pathIn {S : Nat → Prop} {a b : Nat}
    (h : Dominance.PathIn hd.tree.edge S a b) :
    ∃ p, IsPath g (s.vertex a) (s.vertex b) p ∧
      ∀ y ∈ p, ∃ c < s.dfsNum, s.vertex c = y ∧ (c = a ∨ c = b ∨ S c) := by
  induction h with
  | @edge a b hab =>
    obtain ⟨ha, hb, he⟩ := edge_of_tree h0 hd hab
    refine ⟨[s.vertex a, s.vertex b], .cons he (.single _), fun y hy => ?_⟩
    rcases List.mem_pair.1 hy with rfl | rfl
    · exact ⟨a, ha, rfl, .inl rfl⟩
    · exact ⟨b, hb, rfl, .inr (.inl rfl)⟩
  | @cons a c b hac hc _ ih =>
    obtain ⟨ha, -, he⟩ := edge_of_tree h0 hd hac
    obtain ⟨p, hp, hmem⟩ := ih
    refine ⟨s.vertex a :: p, .cons he hp, fun y hy => ?_⟩
    rcases List.mem_cons.1 hy with rfl | hy
    · exact ⟨a, ha, rfl, .inl rfl⟩
    obtain ⟨d, hdn, rfl, hd'⟩ := hmem y hy
    refine ⟨d, hdn, rfl, .inr ?_⟩
    rcases hd' with rfl | rfl | hS
    · exact .inr hc
    · exact .inl rfl
    · exact .inr hS

/-- A path of `G'` from a numbered node is a path over numbers whose internal
vertices lie on it. -/
theorem pathIn_of_isPath {x y : ObjID} {p : List ObjID} (hp : IsPath g x y p) {a : Nat}
    (ha : a < s.dfsNum) (hx : s.vertex a = x) :
    ∃ b < s.dfsNum, s.vertex b = y ∧
      (a = b ∨ Dominance.PathIn hd.tree.edge (fun c => s.vertex c ∈ p) a b) := by
  induction hp generalizing a with
  | single => exact ⟨a, ha, hx, .inl rfl⟩
  | @cons x z y p hxz hzp ih =>
    subst hx
    obtain ⟨m, hm, rfl⟩ := numbered_of_edge h0 hd ha hxz
    have hedge : hd.tree.edge a m := hd.tree_edge.2 ⟨ha, hm, (mem_buildAdj h0).2 hxz⟩
    obtain ⟨b, hb, rfl, hpath⟩ := ih hm rfl
    refine ⟨b, hb, rfl, .inr ?_⟩
    rcases hpath with rfl | hpath
    · exact .edge hedge
    · exact .cons hedge (List.mem_cons_of_mem _ hzp.head_mem)
        (hpath.mono fun c hc => List.mem_cons_of_mem _ hc)

theorem reachable_vertex {j : Nat} (hj : j < s.dfsNum) : Reachable g (s.vertex j) := by
  rcases Nat.eq_zero_or_pos j with rfl | hpos
  · exact ⟨[0], by rw [hd.inv.root.1]; exact .single 0⟩
  · obtain ⟨p, hp, -⟩ :=
      isPath_of_pathIn h0 hd ((hd.tree.anc_zero j hj).path hj (Nat.ne_of_lt hpos))
    exact ⟨p, hd.inv.root.1 ▸ hp⟩

/-- The search numbers exactly the nodes reachable from the super-root. -/
theorem reachable_iff {x : ObjID} : Reachable g x ↔ ∃ j < s.dfsNum, s.vertex j = x := by
  constructor
  · rintro ⟨p, hp⟩
    exact numbered_of_isPath h0 hd hp ⟨0, hd.inv.current, hd.inv.root.1⟩ x hp.last_mem
  · rintro ⟨j, hj, rfl⟩
    exact reachable_vertex h0 hd hj

theorem numbered_of_onEveryPath {j : Nat} (hj : j < s.dfsNum) {x : ObjID}
    (hx : OnEveryPath g x (s.vertex j)) : ∃ k < s.dfsNum, s.vertex k = x := by
  obtain ⟨p, hp⟩ := reachable_vertex h0 hd hj
  exact numbered_of_isPath h0 hd hp ⟨0, hd.inv.current, hd.inv.root.1⟩ x (hx p hp)

/-- Dominance over numbers is dominance in `G'`. -/
theorem onEveryPath_iff_dom {j k : Nat} (hj : j < s.dfsNum) (hk : k < s.dfsNum) :
    OnEveryPath g (s.vertex k) (s.vertex j) ↔ hd.tree.Dom k j := by
  have hroot : s.vertex 0 = 0 := hd.inv.root.1
  constructor
  · rintro hall ⟨h0k, hjk, hpath⟩
    rcases hpath with rfl | hpath
    · have hmem := hall [0] (by rw [hroot]; exact .single 0)
      rw [List.mem_singleton, ← hroot] at hmem
      exact h0k (hd.inv.vertex_injective hd.inv.current hk hmem.symm)
    · obtain ⟨p, hp, hmem⟩ := isPath_of_pathIn h0 hd hpath
      obtain ⟨c, hc, hck, hc'⟩ := hmem _ (hall p (hroot ▸ hp))
      obtain rfl := hd.inv.vertex_injective hc hk hck
      rcases hc' with rfl | rfl | hS
      · exact h0k rfl
      · exact hjk rfl
      · exact hS rfl
  · intro hdom p hp
    by_contra hnot
    obtain ⟨b, hb, hbj, hpath⟩ := pathIn_of_isPath h0 hd hp hd.inv.current hroot
    obtain rfl := hd.inv.vertex_injective hb hj hbj
    refine hdom ⟨?_, ?_, hpath.imp id fun h => h.mono fun c hc hck => hnot (hck ▸ hc)⟩
    · rintro rfl
      rw [hroot] at hnot
      exact hnot hp.head_mem
    · rintro rfl
      exact hnot hp.last_mem

end Search

/-! ## The returned map -/

/-- The loop that copies `idom` into the returned map, given what one of its
steps does. -/
theorem get?_foldl_copy (s : LTState) (step : GoMap ObjID ObjID → Nat → GoMap ObjID ObjID)
    (hstep : ∀ m i x, (step m i).get? x =
      if x = s.vertex i then (s.idom x).or (m.get? x) else m.get? x)
    (l : List Nat) (m : GoMap ObjID ObjID) (x : ObjID) :
    (l.foldl step m).get? x =
      if x ∈ l.map s.vertex then (s.idom x).or (m.get? x) else m.get? x := by
  induction l generalizing m with
  | nil => rfl
  | cons i l ih =>
    rw [List.foldl_cons, ih, hstep, List.map_cons]
    by_cases hx : x = s.vertex i
    · cases s.idom x <;> simp [hx]
    · by_cases hl : x ∈ l.map s.vertex <;> simp [hx, hl]

/-- `Dominators(g)[x]`: absent for the super-root and for the unnumbered, and
otherwise the vertex's `idom` entry. -/
theorem get?_dominators (g : MemGraph) (x : ObjID) :
    (dominators g).get? x =
      if x = 0 then none
      else if x ∈ (List.range (dominatorsState g).dfsNum).map (dominatorsState g).vertex then
        (dominatorsState g).idom x
      else none := by
  rw [dominators, GoMap.get?_erase, get?_foldl_copy (dominatorsState g) _ ?step]
  · split
    · rfl
    · split <;> simp
  · intro m i y
    by_cases hy : y = (dominatorsState g).vertex i
    · subst hy
      split <;> simp [GoMap.get?_insert, *]
    · split <;> simp [GoMap.get?_insert, hy]

/-- What the search and steps 2–4 leave, in terms of the search: the vertices
numbered from 1 on have their immediate dominators. -/
theorem dominatorsState_spec {g : MemGraph} (h0 : ∀ o ∈ g.objects, o.id ≠ 0) :
    (dominatorsState g).dfsNum = (searchState g).dfsNum ∧
      (dominatorsState g).vertex = (searchState g).vertex ∧
      ∀ j, 0 < j → j < (searchState g).dfsNum → ∃ d,
        (dominatorsState g).idom ((searchState g).vertex j) = some ((searchState g).vertex d) ∧
          (searchState_done h0).tree.IsIdom d j :=
  Dominance.idom_spec (searchState_done h0) (predsExact h0)

section Returned

variable {g : MemGraph} (h0 : ∀ o ∈ g.objects, o.id ≠ 0)
include h0

theorem get?_dominators_numbered (v : ObjID) :
    (dominators g).get? v = if v = 0 then none
      else if ∃ j < (searchState g).dfsNum, (searchState g).vertex j = v
        then (dominatorsState g).idom v else none := by
  obtain ⟨hn, hvert, -⟩ := dominatorsState_spec h0
  simp only [get?_dominators, hn, hvert, List.mem_map, List.mem_range]

/-- A numbered vertex other than the super-root has a number from 1 on. -/
theorem pos_of_vertex_ne_zero {j : Nat} (hv : (searchState g).vertex j ≠ 0) : 0 < j :=
  Nat.pos_of_ne_zero fun hj => hv (hj ▸ (searchState_done h0).inv.root.1)

/-- `Dominators(g)[v] = d` exactly when `v` is the vertex numbered `j ≥ 1` and
`d` the vertex of its immediate dominator over numbers. -/
theorem dominators_get?_eq_some {v d : ObjID} :
    (dominators g).get? v = some d ↔ ∃ j k, j < (searchState g).dfsNum ∧
      (searchState g).vertex j = v ∧ (searchState g).vertex k = d ∧
        (searchState_done h0).tree.IsIdom k j := by
  obtain ⟨-, -, hidom⟩ := dominatorsState_spec h0
  rw [get?_dominators_numbered h0]
  constructor
  · intro hvd
    split at hvd
    · exact absurd hvd (by simp)
    split at hvd
    case isFalse => exact absurd hvd (by simp)
    rename_i hv hnum
    obtain ⟨j, hj, rfl⟩ := hnum
    obtain ⟨k, hsome, hdom⟩ := hidom j (pos_of_vertex_ne_zero h0 hv) hj
    exact ⟨j, k, hj, rfl, Option.some.inj (hsome.symm.trans hvd), hdom⟩
  · rintro ⟨j, k, hj, rfl, rfl, hdom⟩
    have hj0 : 0 < j := lt_of_le_of_lt (Nat.zero_le k) (hdom.lt hj)
    have hv : (searchState g).vertex j ≠ 0 := fun h =>
      (Nat.ne_of_gt hj0) ((searchState_done h0).inv.vertex_injective hj
        (searchState_done h0).inv.current (h.trans (searchState_done h0).inv.root.1.symm))
    obtain ⟨k', hsome, hdom'⟩ := hidom j hj0 hj
    rw [if_neg hv, if_pos ⟨j, hj, rfl⟩, hsome, hdom'.unique hdom hj]

/-- The keys of `Dominators(g)` are the nodes other than the super-root that are
reachable from it. -/
theorem mem_keys_dominators {v : ObjID} :
    v ∈ (dominators g).keys ↔ v ≠ 0 ∧ Reachable g v := by
  obtain ⟨-, -, hidom⟩ := dominatorsState_spec h0
  rw [GoMap.mem_keys, get?_dominators_numbered h0, reachable_iff h0 (searchState_done h0)]
  by_cases hv : v = 0
  · simp [hv]
  · simp only [hv, if_false, ne_eq, not_false_eq_true, true_and]
    split
    · rename_i hnum
      obtain ⟨j, hj, rfl⟩ := hnum
      obtain ⟨d, hsome, -⟩ := hidom j (pos_of_vertex_ne_zero h0 hv) hj
      simp only [hsome, Option.isSome_some, true_iff]
      exact ⟨j, hj, rfl⟩
    · rename_i hnum
      simpa only [Option.isSome_none, Bool.false_eq_true, false_iff] using hnum

/-- The value `d` of a key `v` differs from `v`, lies on every path to `v`, and
is dominated by every other node that lies on all those paths. -/
theorem dominators_idom {v d : ObjID} (hvd : (dominators g).get? v = some d) :
    d ≠ v ∧ OnEveryPath g d v ∧ ∀ x, x ≠ v → OnEveryPath g x v → OnEveryPath g x d := by
  have hd := searchState_done h0
  obtain ⟨j, k, hj, rfl, rfl, hdom⟩ := (dominators_get?_eq_some h0).1 hvd
  have hk : k < (searchState g).dfsNum := (hdom.lt hj).trans hj
  refine ⟨fun h => hdom.1 (hd.inv.vertex_injective hk hj h),
    (onEveryPath_iff_dom h0 hd hj hk).2 hdom.2.1, fun x hxv hx => ?_⟩
  obtain ⟨m, hm, rfl⟩ := numbered_of_onEveryPath h0 hd hj hx
  have hmj : m ≠ j := fun h => hxv (h ▸ rfl)
  exact (onEveryPath_iff_dom h0 hd hk hm).2 (hdom.2.2 m hmj ((onEveryPath_iff_dom h0 hd hj hm).1 hx))

end Returned

/-- On a graph with no object numbered 0, `Dominators` returns the
immediate-dominator map of `G'`. -/
theorem dominators_isIdomMap (g : MemGraph) (h0 : ∀ o ∈ g.objects, o.id ≠ 0) :
    IsIdomMap g (dominators g) :=
  ⟨fun _ => mem_keys_dominators h0, fun _ _ => dominators_idom h0⟩

/-- The diamond of `TestDominators` and `TestRetainedSize`: the root 1 points to
2 and 3, which both point to 4. -/
def diamond : MemGraph :=
  ⟨[{ id := 1, type := [], size := 100, ptrs := [2, 3] },
    { id := 2, type := [], size := 30, ptrs := [4] },
    { id := 3, type := [], size := 40, ptrs := [4] },
    { id := 4, type := [], size := 20, ptrs := [], ptrsNil := true }], [1], by decide⟩

theorem diamond_dominators :
    (∀ o ∈ diamond.objects, o.id ≠ 0) ∧ IsIdomMap diamond (dominators diamond) :=
  ⟨by decide, dominators_isIdomMap diamond (by decide)⟩

example : (dominators diamond).entries = [(1, 0), (2, 1), (4, 1), (3, 1)] := by decide

end HeapLens.Graph
