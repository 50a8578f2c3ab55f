import MightyAsm.Program.Basic

/-!
# The ROM image of a program

The statements of a program are encoded one after the other. The address of a statement is
the number of bytes before it; the addresses and sizes that the statements carry are checked
against it. A branch is encoded as the distance from the byte after its opcode to its
target, so that a branch to itself always has distance -1.
-/

namespace MightyAsm

/-- Why a program has no ROM image. -/
inductive RomError where
  /-- A branch cannot be encoded. -/
  | fault (d : Diagnostic)
  /-- The statement of this line is not at its address, or not of its size. -/
  | outOfStep (line : Nat)
  /-- A distance does not fit in a machine word. -/
  | overflow
deriving DecidableEq, Repr

/-- The signed 32-bit words. -/
def isWord (n : Int) : Bool :=
  decide (-0x80000000 ≤ n) && decide (n < 0x80000000)

/-- The distance of a branch at address `pc` to `dest`, from the byte after the opcode. It is
computed in signed 32-bit words: the address wraps around, and a result that is no word is
no result. Up to address `2 ^ 31 - 2` the distance is exact. -/
def branchDistance? (pc : Nat) (dest : UInt8) : Option Int :=
  let next := Int.bmod pc 0x100000000 + 1
  let distance := dest.toNat - next
  if isWord next && isWord distance then some distance else none

/-- The byte that encodes the target of a branch, given its distance to each destination. -/
def Target.encodeWith (symbols : SymbolTable) (distance? : UInt8 → Option Int) :
    Target → Except RomError UInt8
  | .here => .ok 0xFF
  | .symbol name =>
      match symbols.value? name.text with
      | none => .error (.fault (.undefined name))
      | some dest =>
          match distance? dest with
          | none => .error .overflow
          | some distance =>
              if -128 ≤ distance ∧ distance ≤ 127 then .ok (Int8.ofInt distance).toUInt8
              else .error (.fault (.atToken (.branchOutOfRange name.text distance) name))

/-- The byte that encodes the target of a branch at address `pc`. -/
def Target.encode (symbols : SymbolTable) (pc : Nat) (target : Target) : Except RomError UInt8 :=
  target.encodeWith symbols (branchDistance? pc)

/-- The bytes of the operands of a statement at address `pc`. -/
def Operands.encode (symbols : SymbolTable) (pc : Nat) : Operands → Except RomError (List UInt8)
  | .none => .ok []
  | .reg r => .ok [r.toByte]
  | .regPair first second => .ok [first.toByte, second.toByte]
  | .regImm r value => .ok [r.toByte, value]
  | .regAddr r a => .ok [r.toByte, a]
  | .addr a => .ok [a]
  | .branch target => do return [← target.encode symbols pc]

/-- The bytes of a statement that comes after `pc` bytes. -/
def Statement.encode (symbols : SymbolTable) (pc : Nat) (s : Statement) :
    Except RomError (List UInt8) := do
  unless s.addr = pc do throw (.outOfStep s.line)
  let bytes ← s.operands.encode symbols pc
  unless s.opcode.size = bytes.length + 1 do throw (.outOfStep s.line)
  return s.opcode.code :: bytes

/-- A ROM image with the bytes of one statement more. -/
def Statement.appendTo (symbols : SymbolTable) (rom : Array UInt8) (s : Statement) :
    Except RomError (Array UInt8) := do
  return rom ++ (← s.encode symbols rom.size).toArray

/-- The ROM image of a program. -/
def Program.rom (p : Program) : Except RomError (Array UInt8) :=
  p.stmts.foldlM (fun rom s => s.appendTo p.symbols rom) #[]

end MightyAsm
