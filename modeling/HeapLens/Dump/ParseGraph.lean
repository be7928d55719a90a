import HeapLens.Dump.RoundTrip

/-!
# What `GoHeapParser.Parse` builds from any byte string

The record loop changes the parser only through `parseParams`, `parseType`,
`parseObject` and `parseOtherRoot`; every other record is read and dropped.
None of the four gives an object a pointer: `parseObject` reads the field list
and stores the object with an empty, non-nil `Ptrs`.  So on every byte string,
well-formed or not, the graph that `Parse` returns numbers its objects 0, 1, ...
with no edge between them, and each root names one of them.

`Ensures P d` says that every value the decoder `d` returns satisfies `P`; it
has one rule per way a decoder is built, and the record loop is handled by
induction on its fuel.
-/

namespace HeapLens.Dump

open HeapLens.Graph

/-- Every value that `d` returns satisfies `P`. -/
def Ensures {α : Type} (P : α → Prop) (d : Decoder α) : Prop :=
  ∀ bs a rest, d bs = .ok a rest → P a

namespace Ensures

variable {α β : Type} {P : β → Prop}

theorem pure {b : β} (h : P b) : Ensures P (Pure.pure b) := fun _ _ _ he => by
  cases he
  exact h

theorem throw (e : Fault) : Ensures P (MonadExcept.throw e) := fun _ _ _ he => nomatch he

theorem bind {Q : α → Prop} {x : Decoder α} {f : α → Decoder β} (hx : Ensures Q x)
    (hf : ∀ a, Q a → Ensures P (f a)) : Ensures P (x >>= f) := by
  intro bs b rest h
  rw [show (x >>= f) bs = EStateM.bind x f bs from rfl] at h
  unfold EStateM.bind at h
  cases hxs : x bs with
  | ok a s =>
    rw [hxs] at h
    exact hf a (hx bs a s hxs) s b rest h
  | error e s =>
    rw [hxs] at h
    cases h

/-- A step whose value the postcondition does not look at. -/
theorem bind_any {x : Decoder α} {f : α → Decoder β} (hf : ∀ a, Ensures P (f a)) :
    Ensures P (x >>= f) :=
  bind (Q := fun _ => True) (fun _ _ _ _ => trivial) fun a _ => hf a

theorem ite {c : Prop} [Decidable c] {x y : Decoder β} (hx : Ensures P x) (hy : Ensures P y) :
    Ensures P (if c then x else y) := by
  split
  exacts [hx, hy]

theorem wrapError (context : String) {d : Decoder β} (h : Ensures P d) :
    Ensures P (HeapLens.Dump.wrapError context d) := by
  intro bs b rest he
  apply h bs b rest
  revert he
  unfold HeapLens.Dump.wrapError
  cases d bs with
  | ok => exact id
  | error e => cases e <;> exact nofun

end Ensures

namespace Parser

/-- What the record loop keeps in the parser on every byte string: the numbering
of `Numbered`, and a non-nil pointer list on every object. -/
structure Built (p : Parser) : Prop where
  numbered : Numbered p
  nonNil : ∀ o ∈ p.g.objects, o.ptrsNil = false

theorem Built.init : Built init := ⟨Numbered.init, fun _ ho => absurd ho (List.not_mem_nil _)⟩

/-- A step that leaves the graph, the numbering, the roots and the address map
alone keeps the invariant. -/
theorem Built.of_eq {p q : Parser} (h : Built p) (hg : q.g = p.g) (hn : q.nextObjID = p.nextObjID)
    (hr : q.roots = p.roots) (ha : q.addrToObjID = p.addrToObjID) : Built q where
  numbered := ⟨hg ▸ hn ▸ h.numbered.ids, hg ▸ h.numbered.ptrs, hn ▸ hr ▸ h.numbered.roots,
    hn ▸ ha ▸ h.numbered.addr⟩
  nonNil := hg ▸ h.nonNil

/-- Adding an object under the next id, with an empty non-nil pointer list,
keeps the invariant. -/
theorem Built.addObject {p : Parser} (h : Built p) (addr : UInt64) {obj : Object}
    (hid : obj.id = p.nextObjID) (hptrs : obj.ptrs = []) (hnil : obj.ptrsNil = false) :
    Built { p with
      g := p.g.addObject obj
      nextObjID := p.nextObjID + 1
      addrToObjID := fun a => if a = addr then some p.nextObjID else p.addrToObjID a } := by
  have hobj : (p.g.addObject obj).objects = p.g.objects ++ [obj] :=
    MemGraph.objects_addObject_of_not_mem (hid ▸ h.numbered.fresh)
  refine ⟨⟨?_, ?_, fun x hx => Nat.lt_succ_of_lt (h.numbered.roots x hx), fun a x hx => ?_⟩, ?_⟩
  · have hids : p.g.objects.map Object.id = List.range p.nextObjID := h.numbered.ids
    simp only [MemGraph.ids, hobj, List.map_append, hids, List.map_singleton, hid,
      List.range_succ]
  · simp only [hobj, List.mem_append, List.mem_singleton]
    rintro o (ho | rfl)
    exacts [h.numbered.ptrs o ho, hptrs]
  · dsimp only at hx
    split at hx
    · cases hx
      exact Nat.lt_succ_self _
    · exact Nat.lt_succ_of_lt (h.numbered.addr a x hx)
  · simp only [hobj, List.mem_append, List.mem_singleton]
    rintro o (ho | rfl)
    exacts [h.nonNil o ho, hnil]

theorem parseParams_built {p : Parser} (h : Built p) : Ensures Built (parseParams p) := by
  unfold parseParams
  repeat' refine Ensures.bind_any fun _ => ?_
  exact Ensures.pure (h.of_eq rfl rfl rfl rfl)

theorem parseType_built {p : Parser} (h : Built p) : Ensures Built (parseType p) := by
  unfold parseType
  repeat' refine Ensures.bind_any fun _ => ?_
  exact Ensures.pure (h.of_eq rfl rfl rfl rfl)

theorem parseObject_built {p : Parser} (h : Built p) : Ensures Built (parseObject p) := by
  unfold parseObject
  repeat' refine Ensures.bind_any fun _ => ?_
  exact Ensures.pure (h.addObject _ rfl rfl rfl)

theorem parseOtherRoot_built {p : Parser} (h : Built p) : Ensures Built (parseOtherRoot p) := by
  unfold parseOtherRoot
  refine Ensures.bind_any fun _ => Ensures.bind_any fun ptr => ?_
  split
  · rename_i objID hobj
    refine Ensures.pure ⟨⟨h.numbered.ids, h.numbered.ptrs, fun x hx => ?_, h.numbered.addr⟩,
      h.nonNil⟩
    rcases List.mem_append.1 hx with hx | hx
    · exact h.numbered.roots x hx
    · rw [List.mem_singleton.1 hx]
      exact h.numbered.addr _ _ hobj
  · exact Ensures.pure h

/-- A record that is read and dropped. -/
theorem skip_built {p : Parser} (h : Built p) (context : String) (d : Decoder Unit) :
    Ensures Built (HeapLens.Dump.wrapError context (d *> Pure.pure p)) :=
  Ensures.wrapError context (Ensures.bind_any fun _ => Ensures.pure h)

/-- Every turn of the record loop keeps the invariant, whatever the bytes. -/
theorem parseRecords_built : ∀ fuel p, Built p → Ensures Built (parseRecords fuel p)
  | 0, _, _ => Ensures.throw _
  | fuel + 1, p, h => fun bs a rest he => by
    have next : ∀ d : Decoder Parser, Ensures Built d → ∀ s,
        (d >>= parseRecords fuel) s = .ok a rest → Built a := fun d hd s =>
      Ensures.bind hd (fun p' hp' => parseRecords_built fuel p' hp') s a rest
    rw [parseRecords] at he
    beta_reduce at he
    split at he
    · cases he
      exact h
    · cases he
    · split at he
      · cases he
        exact h
      · exact next _ (Ensures.wrapError _ (parseParams_built h)) _ he
      · exact next _ (Ensures.wrapError _ (parseType_built h)) _ he
      · exact next _ (Ensures.wrapError _ (parseObject_built h)) _ he
      · exact next _ (Ensures.wrapError _ (parseOtherRoot_built h)) _ he
      · exact next _ (skip_built h _ _) _ he
      · exact next _ (skip_built h _ _) _ he
      · exact next _ (skip_built h _ _) _ he
      · exact next _ (skip_built h _ _) _ he
      · exact next _ (skip_built h _ _) _ he
      · exact next _ (skip_built h _ _) _ he
      · exact next _ (skip_built h _ _) _ he
      · exact next _ (skip_built h _ _) _ he
      · exact next _ (skip_built h _ _) _ he
      · exact next _ (skip_built h _ _) _ he
      · exact next _ (skip_built h _ _) _ he
      · exact next _ (skip_built h _ _) _ he
      · exact next _ (skip_built h _ _) _ he
      · cases he

theorem parse_built : Ensures (fun g => ∃ p, Built p ∧ g = p.finalize) parse := by
  unfold parse
  repeat' first
    | exact Ensures.bind (parseRecords_built _ init Built.init) fun p hp => Ensures.pure ⟨p, hp, rfl⟩
    | with_reducible refine Ensures.bind_any fun _ => ?_
    | with_reducible refine Ensures.ite ?_ ?_

end Parser

/-- On every byte string that `GoHeapParser.Parse` accepts, well-formed or not,
the graph it returns has no edge: its objects are numbered 0, 1, ... in order,
each with an empty, non-nil pointer list, and each root is one of them. -/
theorem goHeapParser_parse_noEdges {bs : List UInt8} {g : MemGraph}
    (h : GoHeapParser.parse bs = .ok g) :
    g.ids = List.range g.objects.length ∧ (∀ o ∈ g.objects, o.ptrs = [] ∧ o.ptrsNil = false) ∧
      ∀ x ∈ g.roots, x ∈ g.ids := by
  have hparse : ∃ rest, wrapError "parsing heap dump" Parser.parse bs = .ok g rest := by
    unfold GoHeapParser.parse at h
    split at h
    · cases h
      exact ⟨_, ‹_›⟩
    · cases h
  obtain ⟨rest, hrest⟩ := hparse
  obtain ⟨p, hp, rfl⟩ := Ensures.wrapError _ Parser.parse_built bs g rest hrest
  have hlen : p.g.objects.length = p.nextObjID := by
    rw [← List.length_map p.g.objects Object.id, ← MemGraph.ids, hp.numbered.ids,
      List.length_range]
  refine ⟨?_, fun o ho => ⟨hp.numbered.ptrs o ho, hp.nonNil o ho⟩, fun x hx => ?_⟩
  · rw [Parser.finalize, MemGraph.ids, MemGraph.setRoots_objects, ← MemGraph.ids,
      hp.numbered.ids, hlen]
  · rw [Parser.finalize, MemGraph.setRoots_roots] at hx
    rw [Parser.finalize, MemGraph.ids, MemGraph.setRoots_objects, ← MemGraph.ids,
      hp.numbered.ids]
    exact List.mem_range.2 (hp.numbered.roots x hx)

/-- The graph `GoHeapParser.Parse` returns on scenario F. -/
def scenarioFGraph : MemGraph :=
  ⟨[{ id := 0, type := [0x54], size := 16, ptrs := [] },
    { id := 1, type := [0x54], size := 16, ptrs := [] }], [0], by decide⟩

theorem goHeapParser_parse_noEdges_scenarioF :
    GoHeapParser.parse scenarioF = .ok scenarioFGraph ∧
      scenarioFGraph.ids = List.range scenarioFGraph.objects.length ∧
      (∀ o ∈ scenarioFGraph.objects, o.ptrs = [] ∧ o.ptrsNil = false) ∧
      ∀ x ∈ scenarioFGraph.roots, x ∈ scenarioFGraph.ids :=
  have h : GoHeapParser.parse scenarioF = .ok scenarioFGraph := rfl
  ⟨h, goHeapParser_parse_noEdges h⟩

end HeapLens.Dump
