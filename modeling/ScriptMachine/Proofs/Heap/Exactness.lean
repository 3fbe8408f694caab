import Mathlib
import ScriptMachine.Proofs.Heap.Interning

/-!
# ScriptMachine.Proofs.Heap.Exactness — a collection frees what is unreachable, and nothing else

Whatever has been done to a heap, and whatever references the roots are, a collection keeps the objects
that can be reached from the roots, each in its slot and as it was, and counts the others. What it left
is reachable from the same roots, so that a second collection frees nothing.

`Built.collect_exact` gathers this for every heap that came about by operations from outside; the parts
of the statement are the fields of `Exact`. Reachability is a matter of the objects alone, so it is
unchanged by a collection from the same roots (`Reach.transfer`), and this is what makes the second
collection find everything in its place. When a collection should run is not considered here.
-/

namespace ScriptMachine

variable {look look' : Ref → Option Obj} {roots : List Ref} {r : Ref}

/-- Roots without an object lead nowhere. -/
theorem Reach.of_object {o : Obj} (hr : Reach look roots r) (ho : look r = some o) :
    Reach look (roots.filter fun r => (look r).isSome) r := by
  induction hr generalizing o with
  | root hr => exact .root (List.mem_filter.mpr ⟨hr, by simp [ho]⟩)
  | follow _ ho' hr' ih => exact .follow (ih ho') ho' hr'

/-- The same objects along the way. -/
theorem Reach.transfer (hr : Reach look roots r)
    (hsame : ∀ r, Reach look roots r → look' r = look r) : Reach look' roots r := by
  induction hr with
  | root hr => exact .root hr
  | follow hr ho hr' ih => exact .follow ih ((hsame _ hr).trans ho) hr'

namespace Heap

variable {h : Heap} {o : Obj}

theorem contains_eq (h : Heap) (r : Ref) : h.contains r = (h.get? r).isSome := by
  rw [get?_eq, Option.isSome_map]
  rfl

/-- What a collection keeps is what it has marked. -/
theorem contains_collect_eq (h : Heap) (roots : List Ref) (r : Ref) :
    (h.collect roots).2.contains r = isMarkedIn (markFrom h.cells roots) r := by
  have hobject := (marks_markFrom h.cells roots).object r
  rw [contains_eq, get?_collect_eq, get?_eq_objectAt, ← hobject]
  unfold isMarkedIn objectAt
  rcases (markFrom h.cells roots).getD r.index none with _ | ⟨_, marked, _⟩
  · rfl
  · cases marked <;> rfl

/-- **`contains_collect`** — an object is there after a collection if it was there and reachable. -/
theorem Unmarked.contains_collect (hu : h.Unmarked) (roots : List Ref) (r : Ref) :
    (h.collect roots).2.contains r = true ↔
      h.contains r = true ∧ Reach h.get? (roots.filter h.contains) r := by
  have hfilter : roots.filter h.contains = roots.filter fun r => (h.get? r).isSome :=
    congrArg (roots.filter ·) (funext h.contains_eq)
  rw [contains_collect_eq, hu.isMarkedIn_markFrom, hfilter, contains_eq, Option.isSome_iff_exists]
  constructor
  · rintro ⟨⟨o, ho⟩, hreach⟩
    exact ⟨⟨o, ho⟩, hreach.of_object ho⟩
  · rintro ⟨ho, hreach⟩
    exact ⟨ho, hreach.of_roots fun r hr => .root (List.mem_filter.mp hr).1⟩

/-- What is there after a collection is as it was. -/
theorem get?_of_contains_collect (hr : (h.collect roots).2.contains r = true) :
    (h.collect roots).2.get? r = h.get? r := by
  rw [get?_collect_eq, if_pos ((contains_collect_eq h roots r).symm.trans hr)]

/-- **`freed_collect`** — the number a collection reports is how many objects are gone. -/
theorem freed_collect (h : Heap) (roots : List Ref) : (h.collect roots).1.freed =
    (h.liveRefs.filter fun r => !(h.collect roots).2.contains r).length := by
  show (doomed (markFrom h.cells roots)).length = _
  unfold doomed liveRefs
  rw [(marks_markFrom h.cells roots).size, List.filter_filter, List.filter_map, List.length_map]
  congr 1
  refine List.filter_congr fun i _ => ?_
  have hobject := (marks_markFrom h.cells roots).object ⟨i⟩
  rw [Function.comp_apply, contains_collect_eq, contains_eq, get?_eq_objectAt, ← hobject]
  unfold isMarkedIn objectAt
  rcases (markFrom h.cells roots).getD i none with _ | ⟨_, marked, _⟩
  · rfl
  · cases marked <;> rfl

/-- The second of two collections with the same roots finds everything in its place. -/
theorem Unmarked.get?_collect_collect (hu : h.Unmarked) (roots : List Ref) (r : Ref) :
    ((h.collect roots).2.collect roots).2.get? r = (h.collect roots).2.get? r := by
  have hu' := unmarked_collect h roots
  cases ho : (h.collect roots).2.get? r with
  | none =>
    rw [get?_collect_eq, ho]
    split <;> rfl
  | some o =>
    obtain ⟨-, hreach⟩ := hu.reach_of_get?_collect ho
    rw [← ho]
    exact hu'.get?_collect_of_reach
      (hreach.transfer fun r hr => hu.get?_collect_of_reach hr)

/-- **`Exact h roots report h'`** — a collection keeps what can be reached from the roots. -/
structure Exact (h : Heap) (roots : List Ref) (report : Report) (h' : Heap) : Prop where
  /-- an object is kept if and only if it can be reached from a root that has an object -/
  kept : ∀ r, h'.contains r = true ↔
    h.contains r = true ∧ Reach h.get? (roots.filter h.contains) r
  /-- what is kept is as it was -/
  same : ∀ r, h'.contains r = true → h'.get? r = h.get? r
  freed : report.freed = (h.liveRefs.filter fun r => !h'.contains r).length
  entries : ∀ e, e ∈ h'.strings.toList ↔ e ∈ h.strings.toList ∧ h'.contains e.1.ref = true

/-- **`Built.collect_exact`** — whatever has been done to a heap, a collection is exact. When strings
are made by interning alone, the intern table lists exactly the strings that are kept. A second
collection with the same roots frees nothing and leaves every object as it is. -/
theorem Built.collect_exact (hb : Built (fun _ => True) h) (roots : List Ref) :
    h.Exact roots (h.collect roots).1 (h.collect roots).2 ∧
    (Built NoString h → ∀ k, k ∈ (h.collect roots).2.strings.toList.map (·.1) ↔
      ∃ s, (h.collect roots).2.get? k.ref = some (.string s k.hash)) ∧
    ((h.collect roots).2.collect roots).1.freed = 0 ∧
    ∀ r, ((h.collect roots).2.collect roots).2.get? r = (h.collect roots).2.get? r := by
  have hu := hb.orderly.unmarked
  have hagain := hu.get?_collect_collect roots
  refine ⟨⟨hu.contains_collect roots, fun r => get?_of_contains_collect, freed_collect h roots,
    fun e => ?_⟩, fun hb => ?_, ?_, hagain⟩
  · rw [mem_strings_collect, contains_collect_eq]
  · have hi := (hb.step (.collect h roots)).interned
    intro k
    constructor
    · intro hk
      obtain ⟨e, he, rfl⟩ := List.mem_map.mp hk
      exact hi.stored e he
    · rintro ⟨s, hs⟩
      exact List.mem_map.mpr ⟨_, (hi.listed _ _ _ hs).2, rfl⟩
  · rw [freed_collect, List.length_eq_zero_iff, List.filter_eq_nil_iff]
    intro r hr
    rw [contains_eq, hagain, ← contains_eq]
    simp [(List.mem_filter.mp hr).2]

/-- A list that holds itself and a vacant slot, another one that nothing holds, and a root without an
object. -/
theorem collect_exact_cycle :
    let cycle := (new {}).alloc (.list #[.obj ⟨0⟩, .obj ⟨7⟩])
    let full := (cycle.2.alloc (.list #[.obj ⟨0⟩])).2
    let after := full.collect [cycle.1, ⟨9⟩]
    Built (fun _ => True) full ∧ full.Exact [cycle.1, ⟨9⟩] after.1 after.2 ∧
      (after.2.collect [cycle.1, ⟨9⟩]).1.freed = 0 := by
  intro cycle full after
  have hbuilt : Built (fun _ => True) full :=
    .step (.step ⟨{}, .refl⟩ (.alloc _ trivial)) (.alloc _ trivial)
  have hexact := hbuilt.collect_exact [cycle.1, ⟨9⟩]
  exact ⟨hbuilt, hexact.1, hexact.2.2.1⟩

end Heap

end ScriptMachine
