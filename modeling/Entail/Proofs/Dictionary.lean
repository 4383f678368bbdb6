import Mathlib.Data.List.Nodup
import Entail.Dictionary

/-!
# Ids of resources

New resources come behind those that a dictionary knows (`Dictionary.resources_internAll`), so a
dictionary can be made of any resources (`Dictionary.exists_ids`). Interning a resource twice is
interning it once (`Dictionary.intern_spec`, `Dictionary.intern_of_resource?`).
-/

namespace Entail.Dictionary

variable {d : Dictionary} {r : Resource} {l : List Resource} {id : Nat}

theorem isSome_resource?_iff : (d.resource? id).isSome = true ↔ id ≠ 0 ∧ id ≤ d.size := by
  rw [resource?, size]
  split
  · simp [*]
  · rename_i hid
    rw [isSome_getElem?]
    omega

theorem mem_resources (h : d.resource? id = some r) : r ∈ d.resources.toList := by
  rw [resource?] at h
  split at h
  · cases h
  · rw [← Array.getElem?_toList] at h
    exact List.mem_of_getElem? h

/-- The id of a resource that was interned leads back to it, and no resource is lost. -/
theorem intern_spec (d : Dictionary) (r : Resource) :
    (d.intern r).2.resource? (d.intern r).1 = some r ∧ d.size ≤ (d.intern r).2.size := by
  unfold intern
  split
  · rename_i i hi
    exact ⟨(d.ids_iff r i).mp hi, Nat.le_refl _⟩
  · simp [resource?, size]

/-- Interning a resource that has an id changes nothing. -/
theorem intern_of_resource? (h : d.resource? id = some r) : d.intern r = (id, d) := by
  have hl := lookup_eq_some_iff.mpr h
  rw [lookup, Option.map_eq_some_iff] at hl
  obtain ⟨i, hi, rfl⟩ := hl
  unfold intern
  split
  · rename_i j hj
    rw [Option.some.inj (hj.symm.trans hi)]
  · rename_i hnone
    rw [hnone] at hi
    cases hi

/-- Ids stay with their resources. -/
theorem resource?_intern (h : d.resource? id = some r) (q : Resource) :
    (d.intern q).2.resource? id = some r := by
  unfold intern
  split
  · exact h
  · rw [resource?] at h ⊢
    split at h
    · cases h
    · rename_i hid
      obtain ⟨hlt, hr⟩ := Array.getElem?_eq_some_iff.mp h
      dsimp only
      rw [if_neg hid, Array.getElem?_push_lt hlt, hr]

theorem display_eq (h : d.resource? id = some r) : d.display id = r.display := by
  rw [display, h]

theorem map_display {ids : List Nat} (h : ids.map d.resource? = l.map some) :
    ids.map d.display = l.map Resource.display := by
  induction ids generalizing l with
  | nil =>
    rw [List.map_nil, eq_comm, List.map_eq_nil_iff] at h
    rw [h, List.map_nil, List.map_nil]
  | cons id ids ih =>
    cases l with
    | nil => cases h
    | cons r l =>
      rw [List.map_cons, List.map_cons, List.cons.injEq] at h
      rw [List.map_cons, List.map_cons, display_eq h.1, ih h.2]

/-- A new resource gets the next free id. -/
theorem resources_intern (h : r ∉ d.resources.toList) :
    (d.intern r).2.resources.toList = d.resources.toList ++ [r] := by
  unfold intern
  split
  · rename_i i hi
    have hget := (d.ids_iff r i).mp hi
    rw [← Array.getElem?_toList] at hget
    exact absurd (List.mem_of_getElem? hget) h
  · rw [Array.toList_push]

theorem resources_internAll (h : (d.resources.toList ++ l).Nodup) :
    (l.foldl (fun d r => (d.intern r).2) d).resources.toList = d.resources.toList ++ l := by
  induction l generalizing d with
  | nil => rw [List.foldl_nil, List.append_nil]
  | cons r l ih =>
    have hr : r ∉ d.resources.toList := fun hmem =>
      List.disjoint_of_nodup_append h hmem List.mem_cons_self
    rw [List.append_cons, ← resources_intern hr] at h ⊢
    exact ih h

theorem resources_vocabulary :
    vocabulary.resources.toList = [.rdfType, .owlSameAs, .owlNothing] :=
  resources_internAll (d := empty) (by decide)

/-- A dictionary can have any resources, each once. -/
theorem exists_ids (h : l.Nodup) :
    ∃ d : Dictionary, ∀ (i : Nat) r, l[i]? = some r → d.ids[r]? = some i := by
  refine ⟨l.foldl (fun d r => (d.intern r).2) empty, fun i r hr => (ids_iff _ r i).mpr ?_⟩
  rwa [← Array.getElem?_toList, resources_internAll (d := empty) h]

end Entail.Dictionary
