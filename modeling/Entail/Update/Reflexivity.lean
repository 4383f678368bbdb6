import Std.Data.HashMap
import Entail.Bits

/-!
# Resources whose reflexive fact was looked at

A `Reflexivity` keeps a few bits for each resource, packed into bytes. `check` sets the bit of a
resource and a kind, and answers whether it was new. The bits of resources beyond the bytes are not
kept, so there every answer is that the bit is new.

Places are numbers of 64 bits. A resource whose place is too large for that shares the place of
another one.
-/

namespace Entail

/-- Some bits for each resource, `width` of them, packed into bytes. -/
structure Reflexivity where
  width : Nat
  /-- The number of bytes. -/
  size : Nat
  /-- The bytes in which a bit is set. -/
  bytes : Std.HashMap Nat Bits

namespace Reflexivity

/-- A number as one of 64 bits. -/
def wrap (n : Nat) : Nat := n % Nat.pow 2 64

/-- No bit set, with room for the resources up to `maxId`. -/
def new (maxId width : Nat) : Reflexivity :=
  ⟨width, (wrap ((maxId + 1) * width) + 7) / 8, ∅⟩

instance : Inhabited Reflexivity := ⟨new 0 0⟩

/-- The place of a bit. -/
def place (r : Reflexivity) (id kind : Nat) : Nat := wrap (id * r.width + kind)

/-- The byte with the given number. -/
def byte (r : Reflexivity) (n : Nat) : Bits := r.bytes[n]?.getD 0

/-- The byte with only the given bit set. -/
def maskOf (place : Nat) : Bits := 1 <<< UInt8.ofNat (place % 8)

/-- Sets the bit of a resource and a kind; whether it was new. -/
def check (r : Reflexivity) (id kind : Nat) : Bool × Reflexivity :=
  let place := r.place id kind
  if place / 8 < r.size then
    let byte := r.byte (place / 8)
    let mask := maskOf place
    (!byte.any mask, { r with bytes := r.bytes.insert (place / 8) (byte ||| mask) })
  else (true, r)

end Reflexivity

end Entail
