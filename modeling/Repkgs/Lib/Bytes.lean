import Mathlib.Data.List.Basic

/-!
# Byte strings

Files, socket lines and C++ or Go strings are lists of bytes. `ascii` writes a
literal of the source; it reduces in the kernel, so fixed inputs can be decided.
-/

namespace Repkgs.Lib

abbrev Byte := UInt8

abbrev Bytes := List UInt8

instance instLawfulBEqBytes : LawfulBEq Bytes := inferInstance

/-- The bytes of an ASCII literal. -/
def ascii (s : String) : Bytes := s.toList.map fun c => UInt8.ofNat c.toNat

end Repkgs.Lib
