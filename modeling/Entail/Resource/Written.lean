import Entail.Data
import Entail.Resource

/-!
# Resources as data
-/

namespace Entail

/-- The kind with a name. -/
def Kind.ofName? (name : String) : Option Kind :=
  [iri, blankNode, literal].find? fun k => k.name == name

namespace Resource

/-- A resource as data. -/
def toData : Resource → Data
  | iri name => .table [("Iri", .text name)]
  | blankNode label => .table [("BlankNode", .text label)]
  | literal value => .table [("Literal", .text value)]

/-- A resource with its kind and its compact form. -/
def describe (r : Resource) : Data :=
  .table
    [("resource", r.toData), ("kind", .text r.kind.name), ("display", .text r.display)]

end Resource

end Entail
