import MightyAsm.Program.Rom

/-!
# Assembling

Assembling a source reads it as a program and takes the ROM image of the program.
-/

namespace MightyAsm

/-- The ROM image of a source. -/
def assemble (src : Text) : Except RomError (Array UInt8) :=
  match Program.ofSource src with
  | .ok p => p.rom
  | .error d => .error (.fault d)

end MightyAsm
