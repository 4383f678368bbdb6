import Entail.Triple

/-!
# Classes of equal resources

`Classes` is a forest over resource ids: every id has a link to its parent, or 0 if it represents
its class, and a link to the next member of its class, or 0 at the end. `normalize` follows the
parents to the representative, `members` follows the list from the representative on. Paths are
never shortened, so that a class can be set back member by member to what another forest holds
(`copyClass`).
-/

namespace Entail

/-- The links of one id. -/
structure Link where
  /-- The id that this one was merged into, or 0 for a representative. -/
  parent : Nat := 0
  /-- The next member of the class, or 0 for the last. -/
  next : Nat := 0
  deriving DecidableEq, Repr, Inhabited

/-- A forest of equal ids. Ids beyond the links are on their own. -/
structure Classes where
  links : Array Link
  deriving DecidableEq, Repr

namespace Classes

/-- Every id is on its own. -/
def discrete : Classes := ⟨#[]⟩

instance : Inhabited Classes := ⟨discrete⟩

/-- The links of an id. -/
def link (c : Classes) (id : Nat) : Link := c.links[id]?.getD {}

/-- The number of ids that have links. -/
def size (c : Classes) : Nat := c.links.size

/-- Follows at most `steps` parents. -/
def ascend (c : Classes) : Nat → Nat → Nat
  | 0, id => id
  | steps + 1, id =>
    let parent := (c.link id).parent
    if parent = 0 then id else c.ascend steps parent

/-- The representative of the class of an id. A path to it has no more links than there are ids
with links. -/
def normalize (c : Classes) (id : Nat) : Nat := c.ascend (c.size + 1) id

/-- The representative of an id, if classes are in use, and else the id itself. -/
def normalizeIn (classes : Option Classes) (id : Nat) : Nat :=
  match classes with
  | some c => c.normalize id
  | none => id

/-- Whether an id represents its class. -/
def isNormal (c : Classes) (id : Nat) : Bool := (c.link id).parent == 0

/-- A fact with every id replaced by its representative. -/
def normalizeTriple (c : Classes) (t : Triple) : Triple := t.map c.normalize

/-- Whether every id of a fact represents its class. -/
def isNormalTriple (c : Classes) (t : Triple) : Bool := t.toList.all c.isNormal

/-- The next member of the class of an id, or 0 after the last. -/
def next (c : Classes) (id : Nat) : Nat := (c.link id).next

/-- Whether an id is the only member of its class. -/
def isSingleton (c : Classes) (id : Nat) : Bool := c.link id == ({} : Link)

/-- The ids that follow an id in its class, at most `steps` of them. -/
def following (c : Classes) : Nat → Nat → List Nat
  | 0, _ => []
  | steps + 1, id =>
    let next := c.next id
    if next = 0 then [] else next :: c.following steps next

/-- The members of the class of a representative, which comes first. -/
def members (c : Classes) (id : Nat) : List Nat := id :: c.following (c.size + 1) id

/-- The last member of the class of a representative. -/
def lastMember (c : Classes) (id : Nat) : Nat := (c.members id).getLast?.getD id

/-- The forest in which ids below `size` have links. -/
def grow (c : Classes) (size : Nat) : Classes :=
  ⟨c.links ++ Array.replicate (size - c.size) ({} : Link)⟩

/-- The forest with the links of an id changed by `f`. -/
def modifyLink (c : Classes) (id : Nat) (f : Link → Link) : Classes :=
  ⟨c.links.modify id f⟩

/-- Merges the class of `source` into that of `target`; whether they were different. The
representative of `target` represents the merged class, and its members come first. The array of
links is taken to have room for every id. Where it has none, and for the greatest id of 64 bits it
never has, the program fails (`merge?`). -/
def merge (c : Classes) (source target : Nat) : Bool × Classes :=
  let source := c.normalize source
  let target := c.normalize target
  if source = target then (false, c)
  else
    let last := c.lastMember target
    let c := c.grow (max source target + 1)
    let c := c.modifyLink last fun l => { l with next := source }
    (true, c.modifyLink source fun l => { l with parent := target })

/-- No forest has room for so many links. The program has no such number, and its ids have 64 bits: it
takes a link for every id up to the greatest that is merged and fails when memory is used up, and here
it is taken to be used up by so many. -/
def sizeLimit : Nat := Nat.pow 2 32

/-- Whether two classes can be merged, if they are different: there must be room for the links of
both representatives, and the last member of the target must have links then. It may have none after
links were copied from a larger forest. -/
def canMerge (c : Classes) (source target : Nat) : Bool :=
  let source := c.normalize source
  let target := c.normalize target
  let size := max source target + 1
  source == target ||
    decide (size < sizeLimit) && decide (c.lastMember target < max c.size size)

/-- Merges two classes, if that can be done. -/
def merge? (c : Classes) (source target : Nat) : Option (Bool × Classes) :=
  if c.canMerge source target then some (c.merge source target) else none

/-- Sets the links of every member of the class of `id` to what they are in `other`. -/
def copyClass (c : Classes) (id : Nat) (other : Classes) : Classes :=
  (c.members id).foldl (fun c member => c.modifyLink member fun _ => other.link member) c

/-- Every fact that arises from `t` by replacing ids by members of their classes, `t` itself
first. -/
def combinations (c : Classes) (t : Triple) : List Triple :=
  (c.members t.subject).flatMap fun s =>
    (c.members t.predicate).flatMap fun p =>
      (c.members t.object).map fun o => ⟨s, p, o⟩

end Classes

end Entail
