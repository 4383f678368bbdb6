/-!
# Bytes of independent bits

The status of a stored fact and the flags of a running update are bytes whose bits are set and
tested on their own. The names of the bits are those of their meaning: `Status` for the rows of the
store, `Flag.Update` and `Flag.Level` for an update and for one of its levels.
-/

namespace Entail

/-- A byte of independent bits. -/
abbrev Bits := UInt8

namespace Bits

/-- Whether some bit of `mask` is set. -/
def any (s mask : Bits) : Bool := s &&& mask != 0

/-- Whether, of the bits of `mask`, exactly those of `value` are set. -/
def only (s mask value : Bits) : Bool := s &&& mask == value

/-- The bits once those of `cleared` are off and then those of `set` are on. -/
def update (s cleared set : Bits) : Bits := (s &&& ~~~cleared) ||| set

end Bits

/-- The standing of a stored fact. -/
abbrev Status := Bits

namespace Status

/-- The row has been stored. -/
def complete : Status := 1

/-- The fact is a base fact. -/
def asserted : Status := 2

/-- The fact belongs to the materialization. -/
def derived : Status := 4

/-- The fact is stood for by its normal form. -/
def merged : Status := 8

end Status

/-- The marks that one update puts on a fact. -/
abbrev Flags := Bits

namespace Flag.Update

/-- The fact is queued for deletion. -/
def deletedNew : Flags := 1

/-- The fact is deleted. -/
def deleted : Flags := 2

/-- The fact is queued for addition. -/
def addedNew : Flags := 4

/-- The fact is added. -/
def added : Flags := 8

/-- The fact gave way to its normal form. -/
def addedMerged : Flags := 16

/-- No proof of the fact was found. -/
def disproved : Flags := 32

/-- Every fact that this normal form stands for was proved. -/
def normalProved : Flags := 64

end Flag.Update

namespace Flag.Level

/-- The fact is queued as proved. -/
def provedNew : Flags := 1

/-- The fact is proved. -/
def proved : Flags := 2

/-- The proved fact gave way to its normal form. -/
def provedMerged : Flags := 4

/-- A proof of the fact was looked for. -/
def checked : Flags := 8

/-- The fact was proved before a proof of it was looked for. -/
def delayed : Flags := 16

end Flag.Level

end Entail
