import HeapLens.Graph.Basic

/-!
# Reverse edges

`graph/reverse.go`: one pass over the objects, appending each object's id to
the referrer list of every id it points to.  The referrer list of `a` is the
ids of the objects pointing to `a`, in `ForEachObject` order, each repeated as
often as it points to `a`.
-/

namespace HeapLens.Graph

/-- `b` is an object of `g` whose `Ptrs` contain `a`. -/
def PointsTo (g : MemGraph) (a b : ObjID) : Prop :=
  ∃ o ∈ g.objects, o.id = b ∧ a ∈ o.ptrs

/-- Append `id` to the referrer list of every entry of `ptrs`. -/
def appendReferrer (id : ObjID) (reverse : ObjID → List ObjID) (ptrs : List ObjID) :
    ObjID → List ObjID :=
  ptrs.foldl (fun reverse targetID =>
    fun a => if a = targetID then reverse a ++ [id] else reverse a) reverse

/-- `BuildReverseEdges`. -/
def buildReverseEdges (g : MemGraph) : ObjID → List ObjID :=
  g.objects.foldl (fun reverse obj => appendReferrer obj.id reverse obj.ptrs) fun _ => []

theorem appendReferrer_apply (id : ObjID) (reverse : ObjID → List ObjID)
    (ptrs : List ObjID) (a : ObjID) :
    appendReferrer id reverse ptrs a = reverse a ++ List.replicate (ptrs.count a) id := by
  induction ptrs generalizing reverse with
  | nil => simp [appendReferrer]
  | cons t ptrs ih =>
    simp only [appendReferrer, List.foldl_cons] at ih ⊢
    rw [ih]
    by_cases hat : a = t
    · subst hat
      simp only [List.count_cons, beq_self_eq_true, if_true, List.append_assoc]
      rfl
    · simp [hat, List.count_cons, Ne.symm hat]

/-- The referrer list of `a` lists each object once per pointer to `a`. -/
theorem buildReverseEdges_apply (g : MemGraph) (a : ObjID) :
    buildReverseEdges g a =
      g.objects.flatMap fun o => List.replicate (o.ptrs.count a) o.id := by
  suffices ∀ (objs : List Object) (reverse : ObjID → List ObjID),
      (objs.foldl (fun reverse obj => appendReferrer obj.id reverse obj.ptrs) reverse) a =
        reverse a ++ objs.flatMap fun o => List.replicate (o.ptrs.count a) o.id by
    simpa using this g.objects fun _ => []
  intro objs
  induction objs with
  | nil => simp
  | cons o objs ih => intro reverse; simp [ih, appendReferrer_apply]

theorem mem_buildReverseEdges {g : MemGraph} {a b : ObjID} :
    b ∈ buildReverseEdges g a ↔ PointsTo g a b := by
  simp only [buildReverseEdges_apply, List.mem_flatMap, List.mem_replicate, ne_eq,
    List.count_eq_zero, not_not, PointsTo]
  constructor
  · rintro ⟨o, ho, ha, rfl⟩
    exact ⟨o, ho, rfl, ha⟩
  · rintro ⟨o, ho, rfl, ha⟩
    exact ⟨o, ho, ha, rfl⟩

/-- Over objects with distinct ids, the flattened referrer lists count `b` as
often as the object `b` points to `a`. -/
theorem count_flatMap_referrers (a b : ObjID) : ∀ objs : List Object, (objs.map Object.id).Nodup →
    (objs.flatMap fun o => List.replicate (o.ptrs.count a) o.id).count b =
      ((objs.find? (·.id = b)).map fun o => o.ptrs.count a).getD 0
  | [], _ => rfl
  | o :: objs, hnd => by
    have ih := count_flatMap_referrers a b objs (List.nodup_cons.1 hnd).2
    rw [List.flatMap_cons, List.count_append, ih, List.count_replicate, List.find?_cons]
    by_cases hob : o.id = b
    · have hnone : objs.find? (·.id = b) = none := by
        rw [List.find?_eq_none]
        intro o' ho' h
        apply (List.nodup_cons.1 hnd).1
        rw [hob, ← of_decide_eq_true h]
        exact List.mem_map_of_mem _ ho'
      simp [hob, hnone]
    · simp [hob]

/-- The referrer list of `a` holds `b` once per pointer to `a` in the `Ptrs` of
the object `b`, and never when `b` is not an object of `g`. -/
theorem count_buildReverseEdges (g : MemGraph) (a b : ObjID) :
    (buildReverseEdges g a).count b = ((g.getObject b).map fun o => o.ptrs.count a).getD 0 := by
  rw [buildReverseEdges_apply, MemGraph.getObject]
  exact count_flatMap_referrers a b g.objects g.ids_nodup

end HeapLens.Graph
