import Entail.Text.Blank

/-!
# Resources

A `Resource` is an IRI, a blank node or a literal. `Resource.ofText` reads the compact form in which
facts and rules are written, and `Resource.display` writes it. Three IRIs of the vocabulary have
abbreviations: `rdf:type`, `owl:sameAs` and `owl:Nothing`.
-/

namespace Entail

/-- What a resource is. -/
inductive Kind where
  | iri
  | blankNode
  | literal
  deriving DecidableEq, Repr, Inhabited

/-- The name of a kind. -/
def Kind.name : Kind → String
  | .iri => "iri"
  | .blankNode => "blanknode"
  | .literal => "literal"

/-- A resource as it occurs in input data. -/
inductive Resource where
  /-- A named node. -/
  | iri (name : String)
  /-- An anonymous node, known by its label. -/
  | blankNode (label : String)
  /-- A value, compared by its characters. -/
  | literal (value : String)
  deriving DecidableEq, Hashable, Repr, Inhabited

namespace Resource

/-- The IRI of `rdf:type`. -/
def rdfType : Resource := .iri "http://www.w3.org/1999/02/22-rdf-syntax-ns#type"

/-- The IRI of `owl:sameAs`. -/
def owlSameAs : Resource := .iri "http://www.w3.org/2002/07/owl#sameAs"

/-- The IRI of `owl:Nothing`. -/
def owlNothing : Resource := .iri "http://www.w3.org/2002/07/owl#Nothing"

/-- Whether a resource is an IRI, a blank node or a literal. -/
def kind : Resource → Kind
  | iri _ => .iri
  | blankNode _ => .blankNode
  | literal _ => .literal

/-- The resource of a kind with the given text, which is not read as compact form. -/
def ofKind (text : String) : Kind → Resource
  | .iri => iri text
  | .blankNode => blankNode text
  | .literal => literal text

/-- What stands between a first character `opening` and a last character `closing`. -/
def enclosed? (opening closing : Char) : List Char → Option (List Char)
  | [] => none
  | c :: rest =>
    if c = opening ∧ rest.getLast? = some closing then some rest.dropLast else none

/-- The IRI that a bare name stands for: an abbreviation stands for its IRI, any other name for
itself. -/
def ofName (name : String) : Resource :=
  if name = "a" ∨ name = "rdf:type" then rdfType
  else if name = "owl:sameAs" ∨ name = "sameAs" then owlSameAs
  else if name = "owl:Nothing" then owlNothing
  else iri name

/-- The resource that trimmed characters stand for. -/
def ofChars (cs : List Char) : Resource :=
  match cs with
  | '_' :: ':' :: label => blankNode (String.ofList label)
  | _ =>
    match enclosed? '"' '"' cs with
    | some value => literal (String.ofList value)
    | none =>
      match enclosed? '<' '>' cs with
      | some name => iri (String.ofList name)
      | none => ofName (String.ofList cs)

/-- The resource written as `text`: `_:x` is a blank node, `"x"` a literal, and `<x>` and bare
names are IRIs. Blank characters around the text do not count. -/
def ofText (text : String) : Resource :=
  ofChars (Text.trimChars text.toList)

/-- The compact form of a resource. An IRI with a colon stands in angle brackets. -/
def display (r : Resource) : String :=
  match r with
  | blankNode label => "_:" ++ label
  | literal value => "\"" ++ value ++ "\""
  | iri name =>
    if r = rdfType then "rdf:type"
    else if r = owlSameAs then "owl:sameAs"
    else if r = owlNothing then "owl:Nothing"
    else if name.toList.contains ':' then "<" ++ name ++ ">"
    else name

end Resource

end Entail
