import MightyAsm.Text.Basic

/-!
# The instruction set

Every instruction of the machine is a mnemonic in one addressing mode. It is encoded by an
opcode byte followed by the bytes of its operands, whose number depends on the mode only.

* `instructionSet_codes_nodup`: the opcode byte determines the instruction;
* `mem_instructionSet_of_opcode?`, `opcode?_size`: what is found for a mode is an instruction in
  that mode and has its size.
-/

namespace MightyAsm

/-- How the operands of an instruction are encoded. -/
inductive Mode where
  /-- A register alone, as in `INC A`. -/
  | implied
  /-- A register and a byte, as in `LD A, #$50`. -/
  | immediate
  /-- A register and an address, as in `LD A, $80`. -/
  | direct
  /-- Two registers, as in `ADD A, B`. -/
  | registerPair
  /-- A signed distance, as in `BRA loop`. -/
  | relative
deriving DecidableEq, Repr, Inhabited

namespace Mode

/-- The name of a mode in messages. -/
def name : Mode → String
  | .implied => "implied"
  | .immediate => "immediate"
  | .direct => "direct"
  | .registerPair => "register-pair"
  | .relative => "relative"

/-- All modes. -/
def all : List Mode :=
  [.implied, .immediate, .direct, .registerPair, .relative]

/-- The bytes that an instruction of a mode takes, its opcode byte included. -/
def instructionSize : Mode → Nat
  | .implied | .relative => 2
  | .immediate | .direct | .registerPair => 3

end Mode

/-- The encoding of an instruction: its opcode byte, its size in bytes and its mode. -/
structure Opcode where
  code : UInt8
  size : Nat
  mode : Mode
deriving DecidableEq, Repr, Inhabited

namespace Opcode

/-- The opcode with byte `code` in a mode, of the size that the mode gives it. -/
def ofMode (code : UInt8) (mode : Mode) : Opcode :=
  ⟨code, mode.instructionSize, mode⟩

/-- The number of bytes after the opcode byte. -/
def operandSize (op : Opcode) : Nat :=
  op.size - 1

end Opcode

/-- The mnemonics of the machine in each of their modes. -/
def instructionSet : List (Text × Opcode) :=
  [(['L', 'D'], .ofMode 0x80 .immediate),
    (['L', 'D'], .ofMode 0x81 .direct),
    (['S', 'T'], .ofMode 0x82 .direct),
    (['B', 'R', 'A'], .ofMode 0x20 .relative),
    (['B', 'N', 'E'], .ofMode 0x23 .relative),
    (['B', 'E', 'Q'], .ofMode 0x24 .relative),
    (['I', 'N', 'C'], .ofMode 0xA0 .implied),
    (['D', 'E', 'C'], .ofMode 0xA1 .implied),
    (['A', 'D', 'D'], .ofMode 0x90 .registerPair),
    (['S', 'U', 'B'], .ofMode 0x91 .registerPair),
    (['A', 'N', 'D'], .ofMode 0x92 .registerPair),
    (['O', 'R'], .ofMode 0x93 .registerPair),
    (['X', 'O', 'R'], .ofMode 0x94 .registerPair)]

/-- The mnemonics whose single operand is the target of a branch. The machine does not
implement all of them. -/
def branchMnemonics : List Text :=
  [['B', 'R', 'A'], ['B', 'N', 'E'], ['B', 'E', 'Q'], ['B', 'C', 'C'], ['B', 'C', 'S'],
    ['B', 'P', 'L'], ['B', 'M', 'I'], ['B', 'V', 'C'], ['B', 'V', 'S']]

/-- Whether a mnemonic in capital letters takes the target of a branch. -/
def isBranch (mnemonic : Text) : Bool :=
  branchMnemonics.contains mnemonic

/-- The opcode of a mnemonic in capital letters in a mode, if the machine has it. -/
def opcode? (mnemonic : Text) (mode : Mode) : Option Opcode :=
  (instructionSet.find? fun entry => entry.1 == mnemonic && entry.2.mode == mode).map (·.2)

theorem instructionSet_codes_nodup : (instructionSet.map (·.2.code)).Nodup := by
  decide

theorem mem_instructionSet_of_opcode? {mnemonic : Text} {mode : Mode} {op : Opcode}
    (h : opcode? mnemonic mode = some op) : (mnemonic, op) ∈ instructionSet ∧ op.mode = mode := by
  simp only [opcode?, Option.map_eq_some_iff] at h
  obtain ⟨⟨m, op'⟩, hfind, rfl⟩ := h
  have hmem := List.mem_of_find?_eq_some hfind
  have hp := List.find?_some hfind
  simp only [Bool.and_eq_true, beq_iff_eq] at hp
  exact ⟨hp.1 ▸ hmem, hp.2⟩

theorem opcode?_size {mnemonic : Text} {mode : Mode} {op : Opcode}
    (h : opcode? mnemonic mode = some op) : op.size = mode.instructionSize := by
  obtain ⟨hmem, rfl⟩ := mem_instructionSet_of_opcode? h
  have hall : ∀ entry ∈ instructionSet, entry.2.size = entry.2.mode.instructionSize := by decide
  exact hall _ hmem

end MightyAsm
