import Std.Data.HashMap
import Entail.Resource
import Entail.Triple

/-!
# The dictionary of resources

A `Dictionary` gives each resource an id, in the order in which resources are first interned and
starting at 1. It finds ids by hashing; `Dictionary.ids_iff` says that the hash table and the list
of resources agree, so `lookup` inverts `resource?` (`lookup_eq_some_iff`).
-/

namespace Entail

/-- The resources known so far, each at the place that its id names. -/
structure Dictionary where
  resources : Array Resource
  /-- The place of each resource, counted from 0. -/
  ids : Std.HashMap Resource Nat
  ids_iff : ∀ (r : Resource) (i : Nat), ids[r]? = some i ↔ resources[i]? = some r

namespace Dictionary

/-- The dictionary without resources. -/
def empty : Dictionary where
  resources := #[]
  ids := ∅
  ids_iff := by simp

/-- The id of a resource, if it has one. -/
def lookup (d : Dictionary) (r : Resource) : Option Nat :=
  d.ids[r]?.map (· + 1)

/-- The id of a resource and the dictionary in which it has that id: a new resource gets the next
free one. -/
def intern (d : Dictionary) (r : Resource) : Nat × Dictionary :=
  match h : d.ids[r]? with
  | some i => (i + 1, d)
  | none =>
    (d.resources.size + 1,
      { resources := d.resources.push r
        ids := d.ids.insert r d.resources.size
        ids_iff := by
          intro q j
          rw [Std.HashMap.getElem?_insert, Array.getElem?_push]
          by_cases hq : r = q
          · subst hq
            by_cases hj : j = d.resources.size
            · simp [hj]
            · have := d.ids_iff r j
              simp [h] at this
              simp [hj, this, Ne.symm hj]
          · by_cases hj : j = d.resources.size
            · have := d.ids_iff q j
              simp [hj] at this
              simp [hj, hq, this]
            · simp [hq, hj, d.ids_iff] })

/-- The id of the resource that `text` stands for. -/
def internText (d : Dictionary) (text : String) : Nat × Dictionary :=
  d.intern (Resource.ofText text)

/-- The dictionary that knows the vocabulary only. -/
def vocabulary : Dictionary :=
  [Resource.rdfType, Resource.owlSameAs, Resource.owlNothing].foldl (fun d r => (d.intern r).2)
    empty

instance : Inhabited Dictionary := ⟨vocabulary⟩

/-- The resource with an id. -/
def resource? (d : Dictionary) (id : Nat) : Option Resource :=
  if id = 0 then none else d.resources[id - 1]?

/-- The kind of the resource with an id. -/
def kind? (d : Dictionary) (id : Nat) : Option Kind :=
  (d.resource? id).map Resource.kind

/-- The number of resources, which is the highest id given out. -/
def size (d : Dictionary) : Nat := d.resources.size

/-- The compact form of the resource with an id, or the id behind a `#` if no resource has it. -/
def display (d : Dictionary) (id : Nat) : String :=
  match d.resource? id with
  | some r => r.display
  | none => "#" ++ toString id

/-- A fact as the compact forms of its resources. -/
def displayTriple (d : Dictionary) (t : Triple) : String :=
  " ".intercalate (t.toList.map d.display)

theorem lookup_eq_some_iff {d : Dictionary} {r : Resource} {id : Nat} :
    d.lookup r = some id ↔ d.resource? id = some r := by
  cases id with
  | zero => simp [lookup, resource?]
  | succ i => simp [lookup, resource?, ← d.ids_iff]

end Dictionary

end Entail
