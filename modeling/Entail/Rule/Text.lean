import Entail.Dictionary
import Entail.Rule

/-!
# The text of rules

A rule is written as its head, `:-` and its body. Atoms and literals are separated by commas, a
negated conjunction starts with `not` and has `&` between its atoms, and an atom is three words: a
word that starts with `?` is a variable, any other a resource in compact form. `Rule.parse` reads
this form and `Rule.display` writes it.
-/

namespace Entail.Rule

/-- What has been met while a rule is read: the resources and the names of the variables. -/
structure Reading where
  dictionary : Dictionary
  names : List String

/-- A step of reading a rule. What was interned before an error stays in the dictionary. -/
abbrev Reader := EStateM Error Reading

/-- The number of a variable, which is a new one for a new name. -/
def readVariable (name : String) : Reader Term := do
  let s ← get
  match s.names.idxOf? name with
  | some v => pure (.var v)
  | none =>
    set { s with names := s.names ++ [name] }
    pure (.var s.names.length)

/-- The id of a resource in compact form. -/
def readConstant (cs : List Char) : Reader Term :=
  modifyGet fun s =>
    let (id, dictionary) := s.dictionary.intern (Resource.ofChars cs)
    (.const id, { s with dictionary })

/-- The term that a word stands for. -/
def readTerm : List Char → Reader Term
  | '?' :: name => readVariable (String.ofList name)
  | cs => readConstant cs

/-- The atom that a text of three words stands for. -/
def readAtom (cs : List Char) : Reader Atom :=
  match Text.wordChars cs with
  | [s, p, o] => do
    let s ← readTerm s
    let p ← readTerm p
    let o ← readTerm o
    pure ⟨s, p, o⟩
  | _ =>
    throw (Error.validation
      ("atom '" ++ String.ofList (Text.trimChars cs) ++ "' must have exactly three terms"))

/-- The literal that a trimmed text stands for. -/
def readLiteral (cs : List Char) : Reader Literal :=
  match cs with
  | 'n' :: 'o' :: 't' :: ' ' :: rest =>
    Literal.negative <$> (Text.splitOn (· == '&') rest).mapM readAtom
  | _ => Literal.positive <$> readAtom cs

/-- What stands before and after the first `:-`. -/
def splitArrow : List Char → Option (List Char × List Char)
  | ':' :: '-' :: rest => some ([], rest)
  | c :: cs => (splitArrow cs).map fun (before, after) => (c :: before, after)
  | [] => none

/-- The rule that a text stands for. A trailing dot does not count. -/
def read (text : String) : Reader Rule :=
  let cs := Text.trimChars (Text.dropEndWhile (· == '.') (Text.trimChars text.toList))
  match splitArrow cs with
  | none => throw (Error.validation ("rule '" ++ String.ofList cs ++ "' has no ':-'"))
  | some (head, body) => do
    let head ← (Text.splitOn (· == ',') head).mapM readAtom
    let literals := ((Text.splitOn (· == ',') body).map Text.trimChars).filter fun l => !l.isEmpty
    let body ← literals.mapM readLiteral
    match Rule.new head body (← get).names with
    | .ok rule => pure rule
    | .error e => throw e

/-- Reads a rule of level 0. The dictionary gains the constants met, also when the text is no
rule. -/
def parse (text : String) (dictionary : Dictionary) : Except Error Rule × Dictionary :=
  match read text ⟨dictionary, []⟩ with
  | .ok rule s => (.ok rule, s.dictionary)
  | .error e s => (.error e, s.dictionary)

/-- A term as text, unless it is a variable without a name. -/
def displayTerm (d : Dictionary) (names : List String) : Term → Option String
  | .var v => (names[v]?).map ("?" ++ ·)
  | .const id => some (d.display id)

/-- An atom as text, unless it has a variable without a name. -/
def displayAtom (d : Dictionary) (names : List String) (a : Atom) : Option String :=
  (a.toList.mapM (displayTerm d names)).map (" ".intercalate ·)

/-- A literal as text, unless it has a variable without a name. -/
def displayLiteral (d : Dictionary) (names : List String) : Literal → Option String
  | .positive atom => displayAtom d names atom
  | .negative atoms =>
    (atoms.mapM (displayAtom d names)).map fun texts => "not " ++ " & ".intercalate texts

/-- A rule as text, unless it has a variable without a name. -/
def display (r : Rule) (d : Dictionary) : Option String := do
  let head ← r.head.mapM (displayAtom d r.names)
  let body ← r.body.mapM (displayLiteral d r.names)
  pure (" , ".intercalate head ++ " :- " ++ " , ".intercalate body)

end Entail.Rule
