/-!
# Lower case, as far as option names need it

Option names are ASCII, and they are recognised in any case. Of all characters outside ASCII only
the Kelvin sign has an ASCII letter as its lower case, so `lower` maps the ASCII capitals and that
sign, and every text that it does not turn into an option name has no option name as its full lower
case either.
-/

namespace Entail.Text

/-- The lower case of a character, where that is an ASCII letter. -/
def lowerChar (c : Char) : Char :=
  if c = '\u212A' then 'k' else c.toLower

/-- The text with every character replaced by `lowerChar`. -/
def lower (s : String) : String :=
  String.ofList (s.toList.map lowerChar)

end Entail.Text
