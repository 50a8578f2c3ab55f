import MightyAsm.Assemble
import MightyAsm.Proofs.Listing
import MightyAsm.Proofs.Lockstep

/-!
# What the bytes of a command say

Each operand of a command is encoded by one byte. `Operand.Means` says which byte that is, by
the operand as it is written, the values of the symbols and the address of the command. The
image of a source is the concatenation of the encodings of its commands in this sense.

* `Command.Denotes.encode_eq_ok_iff`: the encoder gives the bytes that the operands mean;
* `Program.Represents.rom_eq_ok_iff`: the image of a program is the image of its listing;
* `Listing.two_mul_size_le`: a source has twice as many bytes as its image.
-/

namespace MightyAsm

/-! ## Operands -/

/-- The byte that an operand means in a command at an address. For a symbol in a branch, and
for the place of the branch itself, it is the distance from the byte after the opcode. -/
def Operand.Means (symbols : SymbolTable) (mode : Mode) (addr : Nat) : Operand → UInt8 → Prop
  | .reg r, b => b.toNat = r.index.val
  | .imm value, b => b = value
  | .addr value, b => b = value
  | .symbol name, b => ∃ value, symbols.value? name = some value ∧
      if mode = .relative then (addr : Int) + 1 + signed b = value.toNat else b = value
  | .here, b => (addr : Int) + 1 + signed b = addr

theorem Register.toByte_eq_iff {r : Register} {b : UInt8} :
    b = r.toByte ↔ b.toNat = r.index.val := by
  have hsize : r.index.val < UInt8.size := Nat.lt_trans r.index.isLt (by decide)
  rw [← UInt8.toNat_inj, Register.toByte, UInt8.toNat_ofNat_of_lt' hsize]

theorem Operand.means_reg_iff {symbols : SymbolTable} {mode : Mode} {addr : Nat} {r : Register}
    {b : UInt8} : (Operand.reg r).Means symbols mode addr b ↔ b = r.toByte :=
  Register.toByte_eq_iff.symm

theorem Operand.means_imm_iff {symbols : SymbolTable} {mode : Mode} {addr : Nat}
    {value b : UInt8} : (Operand.imm value).Means symbols mode addr b ↔ b = value :=
  Iff.rfl

theorem Operand.means_addr_iff {symbols : SymbolTable} {mode : Mode} {addr : Nat}
    {value b : UInt8} : (Operand.addr value).Means symbols mode addr b ↔ b = value :=
  Iff.rfl

/-- Outside of branches the byte of a symbol is its value. -/
theorem Operand.means_symbol_iff {symbols : SymbolTable} {mode : Mode} {addr : Nat} {name : Text}
    {value b : UInt8} (hmode : mode ≠ .relative) (hvalue : symbols.value? name = some value) :
    (Operand.symbol name).Means symbols mode addr b ↔ b = value := by
  simp [Operand.Means, hmode, hvalue]

theorem Operand.means_here_iff {symbols : SymbolTable} {mode : Mode} {addr : Nat} {b : UInt8} :
    Operand.here.Means symbols mode addr b ↔ b = 0xFF := by
  have hback : signed b = -1 ↔ b = 0xFF := by
    rw [signed_eq_iff]
    constructor
    · rintro ⟨-, hb⟩
      exact hb
    · intro hb
      exact ⟨by decide, hb⟩
  rw [← hback, Operand.Means]
  omega

/-- As long as addresses fit in a word, the encoder gives the bytes that the operands mean. -/
theorem Command.Denotes.encode_eq_ok_iff {symbols : SymbolTable} {c : Command}
    {operands : Operands} {addr : Nat} {bytes : List UInt8} (h : c.Denotes symbols operands)
    (haddr : addr + 1 < 2 ^ 31) :
    operands.encode symbols addr = .ok bytes ↔
      List.Forall₂ (Operand.Means symbols c.mode addr) c.operands bytes := by
  cases c with
  | unary op r =>
      cases h
      rw [Command.operands, forall₂_singleton_left]
      simp [Operands.encode, Operand.means_reg_iff, eq_comm]
  | binary op r s =>
      cases h
      rw [Command.operands, forall₂_pair_left]
      simp [Operands.encode, Operand.means_reg_iff, eq_comm]
  | load r value =>
      cases h
      rw [Command.operands, forall₂_pair_left]
      simp [Operands.encode, Operand.means_reg_iff, Operand.means_imm_iff, eq_comm]
  | memory op r a =>
      cases h
      rw [Command.operands, forall₂_pair_left]
      simp [Operands.encode, Operand.means_reg_iff, Operand.means_addr_iff, eq_comm]
  | memorySymbol op r name =>
      obtain ⟨value, hvalue, rfl⟩ := h
      have hsymbol : ∀ b, (Operand.symbol name).Means symbols .direct addr b ↔ b = value :=
        fun b => Operand.means_symbol_iff (by decide) hvalue
      rw [Command.operands, Command.mode, forall₂_pair_left]
      simp [Operands.encode, Operand.means_reg_iff, hsymbol, eq_comm]
  | branchTo op name =>
      obtain ⟨t, rfl, rfl⟩ := h
      rw [Command.operands, forall₂_singleton_left, Operands.encode, bind_eq_ok_iff]
      refine exists_congr fun b => and_congr ?_ ?_
      · exact Target.encode_symbol_eq_ok_iff haddr
      · simp [pure, Except.pure, eq_comm]
  | branchHere op =>
      cases h
      rw [Command.operands, forall₂_singleton_left]
      simp [Operands.encode, Target.encode, Target.encodeWith, Operand.means_here_iff, bind,
        Except.bind, pure, Except.pure, eq_comm]

/-! ## Placed commands -/

/-- The bytes of a placed command: its opcode byte and the bytes that its operands mean. -/
def PlacedCommand.EncodedBy (symbols : SymbolTable) (c : PlacedCommand) (chunk : List UInt8) :
    Prop :=
  ∃ op bytes, opcode? c.command.mnemonic c.command.mode = some op ∧
    List.Forall₂ (Operand.Means symbols c.command.mode c.addr) c.command.operands bytes ∧
    chunk = op.code :: bytes

theorem PlacedCommand.Denotes.bytes_eq_ok_iff {symbols : SymbolTable} {c : PlacedCommand}
    {s : Statement} {chunk : List UInt8} (h : c.Denotes symbols s) (haddr : c.addr + 1 < 2 ^ 31) :
    s.bytes symbols = .ok chunk ↔ c.EncodedBy symbols chunk := by
  obtain ⟨-, hs, hop, hden⟩ := h
  rw [Statement.bytes, map_eq_ok_iff, hs]
  constructor
  · rintro ⟨bytes, hbytes, rfl⟩
    exact ⟨s.opcode, bytes, hop, (hden.encode_eq_ok_iff haddr).mp hbytes, rfl⟩
  · rintro ⟨op, bytes, hop', hmeans, rfl⟩
    rw [hop] at hop'
    cases hop'
    exact ⟨bytes, (hden.encode_eq_ok_iff haddr).mpr hmeans, rfl⟩

/-- Commands that follow each other from an address on. -/
def Consecutive : Nat → List PlacedCommand → Prop
  | _, [] => True
  | addr, c :: cs => c.addr = addr ∧ Consecutive (addr + c.command.size) cs

theorem Listing.consecutive_locate (addr : Nat) (es : Listing) :
    Consecutive addr ((es.locate addr).flatMap fun x => x.2.commands x.1) := by
  induction es generalizing addr with
  | nil => trivial
  | cons e es ih =>
      have htail := ih (addr + e.size)
      rw [Listing.locate, List.flatMap_cons]
      by_cases hcommand : ∃ c, e.body = .command c
      · obtain ⟨c, hbody⟩ := hcommand
        have hsize : e.size = c.size := by simp only [Entry.size, hbody]
        rw [hsize] at htail
        simp only [Entry.commands, hbody, List.singleton_append, hsize]
        exact ⟨rfl, htail⟩
      · obtain ⟨hsize, hcommands, -⟩ := Entry.of_noCommand (not_exists.mp hcommand)
        simpa [hsize, hcommands] using htail

theorem Listing.consecutive_commands (es : Listing) : Consecutive 0 es.commands :=
  es.consecutive_locate 0

def commandSize (cs : List PlacedCommand) : Nat := (cs.map (·.command.size)).sum

theorem commandSize_append (cs cs' : List PlacedCommand) :
    commandSize (cs ++ cs') = commandSize cs + commandSize cs' := by
  simp [commandSize]

theorem Consecutive.addr_add_size_le {addr : Nat} {cs : List PlacedCommand}
    (h : Consecutive addr cs) : ∀ c ∈ cs, c.addr + c.command.size ≤ addr + commandSize cs := by
  induction cs generalizing addr with
  | nil => simp
  | cons c cs ih =>
      obtain ⟨haddr, hrest⟩ := h
      intro c' hc'
      simp only [commandSize, List.map_cons, List.sum_cons] at ih ⊢
      rcases List.mem_cons.mp hc' with rfl | hc'
      · omega
      · have hle := ih hrest c' hc'
        omega

theorem Entry.commandSize_commands (addr : Nat) (e : Entry) :
    commandSize (e.commands addr) = e.size := by
  unfold Entry.commands Entry.size
  cases e.body <;> simp [commandSize]

theorem Listing.commandSize_locate (addr : Nat) (es : Listing) :
    commandSize ((es.locate addr).flatMap fun x => x.2.commands x.1) = es.size := by
  induction es generalizing addr with
  | nil => rfl
  | cons e es ih =>
      rw [Listing.locate, List.flatMap_cons, commandSize_append, ih, Entry.commandSize_commands,
        Listing.size_cons]

theorem Listing.commandSize_commands (es : Listing) : commandSize es.commands = es.size :=
  es.commandSize_locate 0

theorem PlacedCommand.EncodedBy.length_eq {symbols : SymbolTable} {c : PlacedCommand}
    {chunk : List UInt8} (h : c.EncodedBy symbols chunk) : chunk.length = c.command.size := by
  obtain ⟨op, bytes, -, hmeans, rfl⟩ := h
  rw [List.length_cons, ← hmeans.length_eq, Command.size_eq]

/-! ## Images -/

/-- The image of a program that represents a listing is the concatenation of the encodings
of the commands. -/
theorem Program.Represents.rom_eq_ok_iff {p : Program} {es : Listing} {rom : Array UInt8}
    (hp : p.Represents es) (hstep : InStep 0 p.stmts.toList) (hsize : es.size < 2 ^ 31) :
    p.rom = .ok rom ↔ ∃ chunks,
      List.Forall₂ (PlacedCommand.EncodedBy p.symbols) es.commands chunks ∧
      rom.toList = chunks.flatten := by
  rw [Program.rom_eq_ok_iff hstep]
  refine exists_congr fun chunks => and_congr_left' ?_
  refine forall₂_congr_left hp.stmts (fun c hc s chunk hden => ?_) chunks
  refine hden.bytes_eq_ok_iff ?_
  -- the listing goes on at least to the byte after the opcode
  have hend := (Listing.consecutive_commands es).addr_add_size_le c hc
  rw [Listing.commandSize_commands, Command.size_eq] at hend
  have hops := c.command.length_operands_pos
  omega

theorem assemble_eq_ok_iff {src : Text} {rom : Array UInt8} :
    assemble src = .ok rom ↔ ∃ p, Program.ofSource src = .ok p ∧ p.rom = .ok rom := by
  unfold assemble
  cases Program.ofSource src with
  | error d => simp
  | ok p => simp

theorem assemble_eq_fault_iff {src : Text} {d : Diagnostic} :
    assemble src = .error (.fault d) ↔ Program.ofSource src = .error d ∨
      ∃ p, Program.ofSource src = .ok p ∧ p.rom = .error (.fault d) := by
  unfold assemble
  cases Program.ofSource src with
  | error d' => simp
  | ok p => simp

/-! ## Sizes -/

theorem SourceLine.Reads.two_mul_size_le {l : SourceLine} {e : Entry} (h : l.Reads e) :
    2 * e.size ≤ l.instrSize := by
  obtain ⟨-, -, hbody⟩ := h
  by_cases hcommand : ∃ c, e.body = .command c
  · obtain ⟨c, he⟩ := hcommand
    rw [he] at hbody
    obtain ⟨t, ht, hspelled⟩ := hbody
    simp only [Entry.size, he, SourceLine.instrSize, ht]
    exact hspelled.two_mul_size_le
  · rw [(Entry.of_noCommand (not_exists.mp hcommand)).1]
    exact Nat.zero_le _

theorem Listing.two_mul_size_le_sum {ls : List SourceLine} {es : Listing}
    (h : List.Forall₂ SourceLine.Reads ls es) :
    2 * es.size ≤ (ls.map SourceLine.instrSize).sum := by
  induction h with
  | nil => exact Nat.le_refl 0
  | @cons l e ls es hread _ ih =>
      have hline := hread.two_mul_size_le
      rw [Listing.size_cons, List.map_cons, List.sum_cons]
      omega

/-- A source has at least two bytes for each byte of its listing. -/
theorem Listing.two_mul_size_le {src : Text} {es : Listing}
    (h : List.Forall₂ SourceLine.Reads (sourceLines src) es) : 2 * es.size ≤ src.byteSize :=
  Nat.le_trans (Listing.two_mul_size_le_sum h) (sum_instrSize_sourceLines_le src)

end MightyAsm
