import Mathlib.Data.List.Nodup
import Mathlib.Data.List.Dedup
import Mathlib.Data.List.Count
import Mathlib.Algebra.Order.Ring.Nat
import Mathlib.Algebra.Order.Ring.Int

/-!
# Heap object graphs

The data model of `graph/graph.go`: heap objects with dense ids, the GC
roots, and the in-memory graph `MemGraph`.  The source stores objects in a Go
map keyed by id; here the map is the list of its entries, in the order that
`ForEachObject` visits them.  Go leaves that order unspecified, so every
theorem about a graph quantifies over all such lists and therefore over every
iteration order.

Go maps that an algorithm returns and a caller iterates (`GoMap`) are kept as
association lists with distinct keys; maps that are only read and written are
modelled as functions where they are used.
-/

namespace HeapLens.Graph

/-- Object identifiers (`ObjID`, a `uint64`).  Ids are only compared and
counted, never added, so they are natural numbers. -/
abbrev ObjID := Nat

/-- Go strings are byte strings. -/
abbrev GoString := List UInt8

/-- A heap object.  `ptrsNil` records whether the `Ptrs` slice is the nil
slice: `Dominators` tests `obj.Ptrs != nil`, so the two empty slices differ.
The nil slice is empty. -/
structure Object where
  id : ObjID
  type : GoString
  size : UInt64
  ptrs : List ObjID
  ptrsNil : Bool := false
  nil_empty : ptrsNil = true → ptrs = [] := by simp
deriving Repr, DecidableEq

/-- The graph `MemGraph`: the entries of its object map, whose keys are the
object ids (`AddObject` stores `obj` under `obj.ID`), and the root ids. -/
structure MemGraph where
  objects : List Object
  roots : List ObjID
  ids_nodup : (objects.map Object.id).Nodup

namespace MemGraph

/-- The graph returned by `NewMemGraph`. -/
def empty : MemGraph := ⟨[], [], List.nodup_nil⟩

/-- `GetObject`: the object stored under `id`, if any. -/
def getObject (g : MemGraph) (id : ObjID) : Option Object :=
  g.objects.find? (·.id = id)

/-- `NumObjects`. -/
def numObjects (g : MemGraph) : Nat := g.objects.length

/-- The ids of the objects of `g`. -/
def ids (g : MemGraph) : List ObjID := g.objects.map Object.id

/-- `AddObject` overwrites the entry of `obj.ID` in place, or adds a new one. -/
def addObject (g : MemGraph) (obj : Object) : MemGraph :=
  if h : obj.id ∈ g.ids then
    ⟨g.objects.map (fun o => if o.id = obj.id then obj else o), g.roots, by
      have hmap : (g.objects.map (fun o => if o.id = obj.id then obj else o)).map Object.id =
          g.objects.map Object.id := by
        rw [List.map_map]
        exact List.map_congr_left (fun o _ => by by_cases ho : o.id = obj.id <;> simp [ho])
      rw [hmap]
      exact g.ids_nodup⟩
  else
    ⟨g.objects ++ [obj], g.roots, by
      simpa [List.nodup_append, ids] using And.intro g.ids_nodup h⟩

/-- An object under a new id is appended. -/
theorem objects_addObject_of_not_mem {g : MemGraph} {obj : Object} (h : obj.id ∉ g.ids) :
    (g.addObject obj).objects = g.objects ++ [obj] := by
  rw [addObject, dif_neg h]

/-- `SetRoots`. -/
def setRoots (g : MemGraph) (roots : List ObjID) : MemGraph :=
  ⟨g.objects, roots, g.ids_nodup⟩

@[simp]
theorem setRoots_objects (g : MemGraph) (roots : List ObjID) :
    (g.setRoots roots).objects = g.objects := rfl

@[simp]
theorem setRoots_roots (g : MemGraph) (roots : List ObjID) :
    (g.setRoots roots).roots = roots := rfl

theorem mem_ids {g : MemGraph} {id : ObjID} : id ∈ g.ids ↔ ∃ o ∈ g.objects, o.id = id := by
  simp [ids]

/-- Two stored objects with the same id are the same object. -/
theorem eq_of_id_eq {g : MemGraph} {o o' : Object} (ho : o ∈ g.objects)
    (ho' : o' ∈ g.objects) (hid : o.id = o'.id) : o = o' :=
  List.inj_on_of_nodup_map g.ids_nodup ho ho' hid

theorem getObject_eq_some {g : MemGraph} {id : ObjID} {o : Object} :
    g.getObject id = some o ↔ o ∈ g.objects ∧ o.id = id := by
  constructor
  · intro h
    have := List.find?_some h
    exact ⟨List.mem_of_find?_eq_some h, by simpa using this⟩
  · rintro ⟨ho, rfl⟩
    cases hf : g.objects.find? (·.id = o.id) with
    | none =>
      rw [List.find?_eq_none] at hf
      exact absurd (by simp) (hf o ho)
    | some o' =>
      have hid : o'.id = o.id := by simpa using List.find?_some hf
      rw [getObject, hf, eq_of_id_eq (List.mem_of_find?_eq_some hf) ho hid]

theorem getObject_eq_none {g : MemGraph} {id : ObjID} :
    g.getObject id = none ↔ ∀ o ∈ g.objects, o.id ≠ id := by
  simp [getObject]

theorem isSome_getObject {g : MemGraph} {id : ObjID} : (g.getObject id).isSome ↔ id ∈ g.ids := by
  rw [mem_ids]
  constructor
  · intro h
    obtain ⟨o, ho⟩ := Option.isSome_iff_exists.1 h
    exact ⟨o, (getObject_eq_some.1 ho).1, (getObject_eq_some.1 ho).2⟩
  · rintro ⟨o, ho, rfl⟩
    rw [(getObject_eq_some.2 ⟨ho, rfl⟩)]
    rfl

/-! ### Runs of `AddObject` -/

theorem mem_addObject {g : MemGraph} {obj o : Object} :
    o ∈ (g.addObject obj).objects ↔ o = obj ∨ (o ∈ g.objects ∧ o.id ≠ obj.id) := by
  unfold addObject
  split
  · rename_i h
    obtain ⟨o', ho', hid⟩ := mem_ids.1 h
    simp only [List.mem_map]
    constructor
    · rintro ⟨o'', ho'', rfl⟩
      by_cases h'' : o''.id = obj.id
      · exact .inl (if_pos h'')
      · exact .inr ⟨by rwa [if_neg h''], by rwa [if_neg h'']⟩
    · rintro (rfl | ⟨ho, hne⟩)
      · exact ⟨o', ho', if_pos hid⟩
      · exact ⟨o, ho, if_neg hne⟩
  · rename_i h
    simp only [List.mem_append, List.mem_singleton]
    constructor
    · rintro (ho | rfl)
      · exact .inr ⟨ho, fun hid => h (mem_ids.2 ⟨o, ho, hid⟩)⟩
      · exact .inl rfl
    · rintro (rfl | ⟨ho, -⟩)
      exacts [.inr rfl, .inl ho]

/-- `GetObject` after `AddObject`: the new object under its id, the old entries
under the others. -/
theorem getObject_addObject (g : MemGraph) (obj : Object) (id : ObjID) :
    (g.addObject obj).getObject id = if obj.id = id then some obj else g.getObject id := by
  split
  · rename_i h
    exact getObject_eq_some.2 ⟨mem_addObject.2 (.inl rfl), h⟩
  · rename_i h
    cases hg : g.getObject id with
    | none =>
      refine getObject_eq_none.2 fun o ho => ?_
      rcases mem_addObject.1 ho with rfl | ⟨ho, -⟩
      exacts [h, getObject_eq_none.1 hg o ho]
    | some o =>
      obtain ⟨ho, rfl⟩ := getObject_eq_some.1 hg
      exact getObject_eq_some.2 ⟨mem_addObject.2 (.inr ⟨ho, Ne.symm h⟩), rfl⟩

/-- After a run of `AddObject` calls, `GetObject` returns the last object added
under the id, or the graph's object before the run. -/
theorem getObject_foldl_addObject (id : ObjID) : ∀ (objs : List Object) (g : MemGraph),
    (objs.foldl addObject g).getObject id =
      (objs.filter (·.id = id)).getLast?.or (g.getObject id)
  | [], _ => rfl
  | o :: os, g => by
    rw [List.foldl_cons, getObject_foldl_addObject id os, getObject_addObject]
    by_cases h : o.id = id
    · rw [if_pos h, List.filter_cons_of_pos (by simpa using h), List.getLast?_cons]
      cases (os.filter (·.id = id)).getLast? <;> rfl
    · rw [if_neg h, List.filter_cons_of_neg (by simpa using h)]

theorem mem_ids_foldl_addObject {x : ObjID} : ∀ (objs : List Object) (g : MemGraph),
    x ∈ (objs.foldl addObject g).ids ↔ x ∈ g.ids ∨ x ∈ objs.map Object.id
  | [], _ => by simp
  | o :: os, g => by
    rw [List.foldl_cons, mem_ids_foldl_addObject os, mem_ids, mem_ids]
    simp only [mem_addObject, List.map_cons, List.mem_cons]
    constructor
    · rintro (⟨o', rfl | ⟨ho', -⟩, rfl⟩ | hx)
      exacts [.inr (.inl rfl), .inl ⟨o', ho', rfl⟩, .inr (.inr hx)]
    · rintro (⟨o', ho', rfl⟩ | rfl | hx)
      · by_cases h : o'.id = o.id
        · exact .inl ⟨o, .inl rfl, h.symm⟩
        · exact .inl ⟨o', .inr ⟨ho', h⟩, rfl⟩
      · exact .inl ⟨o, .inl rfl, rfl⟩
      · exact .inr hx

/-- `NumObjects` after a run of `AddObject` calls on a new graph counts the
distinct ids added. -/
theorem numObjects_foldl_addObject (objs : List Object) :
    (objs.foldl addObject empty).numObjects = (objs.map Object.id).dedup.length := by
  have hperm : (objs.foldl addObject empty).ids.Perm (objs.map Object.id).dedup :=
    (List.perm_ext_iff_of_nodup (objs.foldl addObject empty).ids_nodup (List.nodup_dedup _)).2
      fun x => by
        show x ∈ (objs.foldl addObject empty).ids ↔ _
        rw [List.mem_dedup, mem_ids_foldl_addObject]
        simp [empty, ids]
  rw [← hperm.length_eq, numObjects, ids, List.length_map]

/-- What any run of `AddObject` calls leaves in a graph made by `NewMemGraph`:
`GetObject` returns the last object added under each id, and `NumObjects`
counts the distinct ids added. -/
theorem foldl_addObject_empty (objs : List Object) :
    (∀ id, (objs.foldl addObject empty).getObject id = (objs.filter (·.id = id)).getLast?) ∧
      (objs.foldl addObject empty).numObjects = (objs.map Object.id).dedup.length :=
  ⟨fun id => by rw [getObject_foldl_addObject]; exact Option.or_none,
    numObjects_foldl_addObject objs⟩

end MemGraph

/-- A Go map that its callers iterate: its entries in iteration order, with
distinct keys.  A missing key reads as `none`. -/
structure GoMap (κ α : Type) where
  entries : List (κ × α)
  keys_nodup : (entries.map Prod.fst).Nodup

namespace GoMap

variable {κ α : Type} [DecidableEq κ]

/-- The empty map. -/
def empty : GoMap κ α := ⟨[], List.nodup_nil⟩

/-- `m[k]`, with presence. -/
def get? (m : GoMap κ α) (k : κ) : Option α := m.entries.lookup k

/-- The key set, in iteration order. -/
def keys (m : GoMap κ α) : List κ := m.entries.map Prod.fst

/-- `m[k] = v`: the entry of `k` is replaced in place, or appended. -/
def insert (m : GoMap κ α) (k : κ) (v : α) : GoMap κ α :=
  if h : k ∈ m.entries.map Prod.fst then
    ⟨m.entries.map (fun e => if e.1 = k then (k, v) else e), by
      have hkeys : (m.entries.map (fun e => if e.1 = k then (k, v) else e)).map Prod.fst =
          m.entries.map Prod.fst := by
        rw [List.map_map]
        exact List.map_congr_left (fun e _ => by by_cases he : e.1 = k <;> simp [he])
      rw [hkeys]
      exact m.keys_nodup⟩
  else
    ⟨m.entries ++ [(k, v)], by
      simpa [List.nodup_append] using And.intro m.keys_nodup h⟩

/-- `delete(m, k)`. -/
def erase (m : GoMap κ α) (k : κ) : GoMap κ α :=
  ⟨m.entries.filter (fun e => e.1 ≠ k), (List.Sublist.map Prod.fst (List.filter_sublist _)).nodup
    m.keys_nodup⟩

@[simp] theorem get?_empty (k : κ) : (empty : GoMap κ α).get? k = none := rfl

theorem lookup_cons_ite (a k : κ) (b : α) (es : List (κ × α)) :
    ((a, b) :: es).lookup k = if k = a then some b else es.lookup k := by
  by_cases h : k = a
  · subst h
    simp
  · simp [List.lookup_cons, beq_eq_false_iff_ne.mpr h, h]

theorem lookup_map_set (es : List (κ × α)) (k k' : κ) (v : α) :
    (es.map fun e => if e.1 = k then (k, v) else e).lookup k' =
      if k' = k ∧ k ∈ es.map Prod.fst then some v else es.lookup k' := by
  induction es with
  | nil => simp
  | cons e es ih =>
    obtain ⟨a, b⟩ := e
    simp only [List.map_cons]
    by_cases hak : a = k
    · subst hak
      rw [if_pos rfl, lookup_cons_ite, lookup_cons_ite, ih]
      by_cases hk : k' = a <;> simp [hk]
    · rw [if_neg hak, lookup_cons_ite, lookup_cons_ite, ih]
      by_cases ha : k' = a
      · subst ha
        simp [hak]
      · simp only [List.mem_cons, Ne.symm hak, false_or, ha, if_false]

theorem lookup_filter_ne (es : List (κ × α)) (k k' : κ) :
    (es.filter fun e => e.1 ≠ k).lookup k' = if k' = k then none else es.lookup k' := by
  induction es with
  | nil => simp
  | cons e es ih =>
    obtain ⟨a, b⟩ := e
    rw [List.filter_cons, lookup_cons_ite]
    by_cases hak : a = k
    · subst hak
      rw [if_neg (by simp), ih]
      by_cases hk : k' = a <;> simp [hk]
    · rw [if_pos (by simpa using hak), lookup_cons_ite, ih]
      by_cases ha : k' = a
      · subst ha
        simp [hak]
      · simp [ha]

theorem lookup_isSome (es : List (κ × α)) (k : κ) :
    (es.lookup k).isSome ↔ k ∈ es.map Prod.fst := by
  induction es with
  | nil => simp
  | cons e es ih =>
    obtain ⟨a, b⟩ := e
    by_cases h : k = a <;> simp [lookup_cons_ite, ih, h]

theorem mem_keys (m : GoMap κ α) (k : κ) : k ∈ m.keys ↔ (m.get? k).isSome :=
  (lookup_isSome m.entries k).symm

/-- With distinct keys, the entries are the graph of `get?`. -/
theorem mem_entries (m : GoMap κ α) (k : κ) (v : α) : (k, v) ∈ m.entries ↔ m.get? k = some v := by
  obtain ⟨es, hnd⟩ := m
  simp only [get?]
  induction es with
  | nil => simp
  | cons e es ih =>
    obtain ⟨a, b⟩ := e
    rw [List.map_cons, List.nodup_cons] at hnd
    rw [List.mem_cons, lookup_cons_ite, ih hnd.2]
    by_cases hk : k = a
    · subst hk
      have hnone : es.lookup k = none := by
        rw [← Option.not_isSome_iff_eq_none, lookup_isSome]
        exact hnd.1
      simp [hnone, eq_comm]
    · simp [hk]

theorem get?_insert (m : GoMap κ α) (k k' : κ) (v : α) :
    (m.insert k v).get? k' = if k' = k then some v else m.get? k' := by
  unfold insert get?
  split
  · rename_i hk
    simp [lookup_map_set, hk]
  · rename_i hk
    rw [List.lookup_append]
    by_cases hk' : k' = k
    · subst hk'
      have : m.entries.lookup k' = none := by
        rw [List.lookup_eq_none_iff]
        intro p hp
        have : p.1 ≠ k' := fun h => hk (List.mem_map.mpr ⟨p, hp, h⟩)
        simpa [bne_iff_ne] using Ne.symm this
      simp [this]
    · simp only [lookup_cons_ite, hk', if_false, List.lookup_nil]
      cases m.entries.lookup k' <;> rfl

theorem get?_erase (m : GoMap κ α) (k k' : κ) :
    (m.erase k).get? k' = if k' = k then none else m.get? k' :=
  lookup_filter_ne m.entries k k'

end GoMap

/-! ## `uint64` arithmetic -/

theorem toNat_ofNat_uint64 (n : Nat) : (UInt64.ofNat n).toNat = n % 2 ^ 64 := by
  show (BitVec.ofNat 64 n).toNat = _
  rw [BitVec.toNat_ofNat]

theorem toNat_add_uint64 (a b : UInt64) : (a + b).toNat = (a.toNat + b.toNat) % 2 ^ 64 := by
  show (a.toBitVec + b.toBitVec).toNat = _
  rw [BitVec.toNat_add]
  rfl

theorem ofNat_eq_of_toNat {r : UInt64} {n : Nat} (h : r.toNat = n % 2 ^ 64) :
    UInt64.ofNat n = r := by
  apply UInt64.toNat.inj
  rw [h, toNat_ofNat_uint64]

end HeapLens.Graph
