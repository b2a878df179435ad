/-!
# CodeUnit — the units a subject is made of

A subject is a sequence of code units of one width: bytes, or 16-bit words. Everything the machine
asks of a unit goes through its value as a 16-bit word (`CodeUnit.word`), so units of the two
widths with equal values look the same to it. `isWordUnit` and `isLineTerminator` are the two
classes of units that zero-width assertions look at.
-/

namespace RegexMachine

/-- A fixed-width code unit, known by its value as a 16-bit word. -/
class CodeUnit (α : Type) where
  word : α → UInt16

instance : CodeUnit UInt8 := ⟨UInt8.toUInt16⟩

instance : CodeUnit UInt16 := ⟨id⟩

variable {α : Type} [CodeUnit α]

/-- The units of `[0-9A-Za-z_]`: a word boundary lies between one of these and any other unit. -/
def isWordUnit (u : α) : Bool :=
  let w := CodeUnit.word u
  (0x30 ≤ w && w ≤ 0x39) || (0x41 ≤ w && w ≤ 0x5a) || w == 0x5f || (0x61 ≤ w && w ≤ 0x7a)

/-- Line feed, carriage return, line separator and paragraph separator. -/
def isLineTerminator (u : α) : Bool :=
  let w := CodeUnit.word u
  w == 0x0a || w == 0x0d || w == 0x2028 || w == 0x2029

@[simp] theorem word_uint8 (b : UInt8) : CodeUnit.word b = b.toUInt16 := rfl

@[simp] theorem word_uint16 (w : UInt16) : CodeUnit.word w = w := rfl

end RegexMachine
