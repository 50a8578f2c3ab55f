import MightyAsm.Proofs.Encoding

/-!
# Decoding an image

An image is decoded by a linear sweep: the opcode byte tells the entry of the instruction
set, and the entry tells how many operand bytes follow. No byte of an image says where a
line of the source began. Still the sweep finds one instruction for each line of the source
that has one, and it says what the line says.

* `entryOfCode?_eq_some_iff`: an opcode byte belongs to one entry at most;
* `sweep_eq_some`: what the sweep finds makes up all bytes that it was given;
* `sweep_flatten`: the sweep finds the commands of a listing again;
* `exists_decodesTo`: the image of a source means what the source says.
-/

namespace MightyAsm

/-! ## The sweep -/

/-- An instruction found in an image: its address, its mnemonic, its opcode and the bytes of
its operands. -/
structure Decoded where
  addr : Nat
  mnemonic : Text
  opcode : Opcode
  operands : List UInt8
deriving DecidableEq, Repr

def Decoded.bytes (d : Decoded) : List UInt8 := d.opcode.code :: d.operands

def entryOfCode? (code : UInt8) : Option (Text × Opcode) :=
  instructionSet.find? fun entry => entry.2.code == code

/-- The instructions that fill the bytes from an address on, one after the other. There are
none if a byte is no opcode byte, or if the last operands are cut off. -/
def sweep (addr : Nat) (bytes : List UInt8) : Option (List Decoded) :=
  match bytes with
  | [] => some []
  | code :: rest =>
      match entryOfCode? code with
      | none => none
      | some (mnemonic, opcode) =>
          if opcode.operandSize ≤ rest.length then
            (sweep (addr + opcode.size) (rest.drop opcode.operandSize)).map
              (⟨addr, mnemonic, opcode, rest.take opcode.operandSize⟩ :: ·)
          else none
termination_by bytes.length
decreasing_by
  rw [List.length_drop, List.length_cons]
  omega

theorem entryOfCode?_eq_some_iff {code : UInt8} {entry : Text × Opcode} :
    entryOfCode? code = some entry ↔ entry ∈ instructionSet ∧ entry.2.code = code :=
  find?_key_eq_some_iff instructionSet_codes_nodup

/-- A sweep that comes to the end used up all bytes, and every instruction has an opcode of
its mnemonic and just the operand bytes of its opcode. -/
theorem sweep_eq_some {addr : Nat} {bytes : List UInt8} {ds : List Decoded}
    (h : sweep addr bytes = some ds) :
    ds.flatMap Decoded.bytes = bytes ∧ ∀ d ∈ ds, (d.mnemonic, d.opcode) ∈ instructionSet ∧
      d.operands.length = d.opcode.operandSize := by
  fun_induction sweep addr bytes generalizing ds with
  | case1 =>
      cases h
      simp
  | case2 => cases h
  | case3 addr code rest mnemonic opcode hentry hfit ih =>
      obtain ⟨tail, htail, rfl⟩ := Option.map_eq_some_iff.mp h
      obtain ⟨hflat, hall⟩ := ih htail
      obtain ⟨hmem, hcode⟩ := entryOfCode?_eq_some_iff.mp hentry
      refine ⟨?_, ?_⟩
      · rw [List.flatMap_cons, hflat, Decoded.bytes, List.cons_append, List.take_append_drop]
        exact congrArg (· :: rest) hcode
      · intro d hd
        rcases List.mem_cons.mp hd with rfl | hd
        · exact ⟨hmem, List.length_take_of_le hfit⟩
        · exact hall d hd
  | case4 => cases h

theorem sweep_cons_append {addr : Nat} {mnemonic : Text} {op : Opcode}
    (hentry : (mnemonic, op) ∈ instructionSet) {operands : List UInt8}
    (hlen : operands.length = op.operandSize) (rest : List UInt8) :
    sweep addr (op.code :: operands ++ rest) =
      (sweep (addr + op.size) rest).map (⟨addr, mnemonic, op, operands⟩ :: ·) := by
  have hfind : entryOfCode? op.code = some (mnemonic, op) :=
    entryOfCode?_eq_some_iff.mpr ⟨hentry, rfl⟩
  rw [List.cons_append, sweep, hfind]
  have hfit : op.operandSize ≤ (operands ++ rest).length := by
    rw [List.length_append]
    omega
  simp only [hfit, if_true, List.drop_left' hlen, List.take_left' hlen]

/-! ## Commands -/

/-- A decoded instruction that says what a command says. -/
def Decoded.Matches (symbols : SymbolTable) (d : Decoded) (c : Command) : Prop :=
  d.mnemonic = c.mnemonic ∧ d.opcode.mode = c.mode ∧
    List.Forall₂ (Operand.Means symbols c.mode d.addr) c.operands d.operands

theorem sweep_append_of_encodedBy {symbols : SymbolTable} {c : PlacedCommand}
    {chunk : List UInt8} (h : c.EncodedBy symbols chunk) (rest : List UInt8) :
    ∃ d : Decoded, d.Matches symbols c.command ∧
      sweep c.addr (chunk ++ rest) = (sweep (c.addr + c.command.size) rest).map (d :: ·) := by
  obtain ⟨op, bytes, hop, hmeans, rfl⟩ := h
  obtain ⟨hentry, hmode⟩ := mem_instructionSet_of_opcode? hop
  have hsize : op.size = c.command.size := opcode?_size hop
  have hlen : bytes.length = op.operandSize := by
    rw [Opcode.operandSize, hsize, Command.size_eq, ← hmeans.length_eq, Nat.add_sub_cancel]
  refine ⟨⟨c.addr, c.command.mnemonic, op, bytes⟩, ⟨rfl, hmode, hmeans⟩, ?_⟩
  rw [sweep_cons_append hentry hlen, hsize]

theorem sweep_flatten {symbols : SymbolTable} {addr : Nat} {cs : List PlacedCommand}
    {chunks : List (List UInt8)} (hcs : Consecutive addr cs)
    (h : List.Forall₂ (PlacedCommand.EncodedBy symbols) cs chunks) :
    ∃ ds, sweep addr chunks.flatten = some ds ∧
      List.Forall₂ (fun c d => d.Matches symbols c.command) cs ds := by
  induction h generalizing addr with
  | nil => exact ⟨[], by rw [List.flatten_nil, sweep], List.Forall₂.nil⟩
  | @cons c chunk cs chunks hc _ ih =>
      obtain ⟨rfl, hrest⟩ := hcs
      obtain ⟨ds, hds, hmatch⟩ := ih hrest
      obtain ⟨d, hd, hsweep⟩ := sweep_append_of_encodedBy hc chunks.flatten
      refine ⟨d :: ds, ?_, List.Forall₂.cons hd hmatch⟩
      rw [List.flatten_cons, hsweep, hds, Option.map_some]

/-! ## Sources -/

/-- The instruction part of a line, unless it defines a constant. -/
def SourceLine.instruction? (l : SourceLine) : Option Token :=
  l.instr.filter fun t => (ConstDef.read? t.text).isNone

/-- The instruction parts of a source that define no constants, in order. -/
def instructionTokens (src : Text) : List Token :=
  (sourceLines src).filterMap SourceLine.instruction?

theorem SourceLine.Reads.instruction?_eq {l : SourceLine} {e : Entry} (h : l.Reads e)
    (hbody : ∀ c, e.body ≠ .command c) : l.instruction? = none := by
  obtain ⟨-, -, hinstr⟩ := h
  cases he : e.body with
  | blank =>
      rw [he] at hinstr
      simp [SourceLine.instruction?, hinstr]
  | constant c =>
      rw [he] at hinstr
      obtain ⟨t, ht, hc⟩ := hinstr
      simp [SourceLine.instruction?, ht, hc]
  | command c => exact absurd he (hbody c)

/-- The instruction parts of the lines spell the commands of the listing. -/
theorem forall₂_spelledBy_locate {addr : Nat} {ls : List SourceLine} {es : Listing}
    (h : List.Forall₂ SourceLine.Reads ls es) :
    List.Forall₂ (fun (t : Token) (c : PlacedCommand) => c.command.SpelledBy t.text)
      (ls.filterMap SourceLine.instruction?)
      ((es.locate addr).flatMap fun x => x.2.commands x.1) := by
  induction h generalizing addr with
  | nil => exact List.Forall₂.nil
  | @cons l e ls es hread _ ih =>
      have htail := @ih (addr + e.size)
      rw [Listing.locate, List.flatMap_cons]
      by_cases hcommand : ∃ c, e.body = .command c
      · obtain ⟨c, hbody⟩ := hcommand
        obtain ⟨-, -, hinstr⟩ := hread
        rw [hbody] at hinstr
        obtain ⟨t, ht, hspelled⟩ := hinstr
        have hinstruction : l.instruction? = some t := by
          simp [SourceLine.instruction?, ht, ConstDef.read?_eq_none_of_spelledBy hspelled]
        rw [List.filterMap_cons_some hinstruction]
        simp only [Entry.commands, hbody, List.singleton_append]
        exact List.Forall₂.cons hspelled htail
      · have hnone := not_exists.mp hcommand
        rw [List.filterMap_cons_none (hread.instruction?_eq hnone),
          (Entry.of_noCommand hnone).2.1, List.nil_append]
        exact htail

/-- The image decodes to the instructions of the source. -/
structure DecodesTo (src : Text) (symbols : SymbolTable) (rom : Array UInt8)
    (ds : List Decoded) : Prop where
  /-- The sweep comes to the end of the image. -/
  sweep_eq : sweep 0 rom.toList = some ds
  /-- The instructions make up the image, each with the operand bytes of its opcode. -/
  bytes_eq : ds.flatMap Decoded.bytes = rom.toList ∧
    ∀ d ∈ ds, d.operands.length = d.opcode.operandSize
  /-- The opcode byte of an instruction tells its mnemonic and its opcode. -/
  entry_iff : ∀ d ∈ ds, ∀ entry, entry ∈ instructionSet ∧ entry.2.code = d.opcode.code ↔
    entry = (d.mnemonic, d.opcode)
  /-- There is one instruction for each instruction part of the source, in order. It says
  what the one command says that the instruction part spells. -/
  instructions : List.Forall₂ (fun (t : Token) (d : Decoded) => ∃ c : Command, c.SpelledBy t.text ∧
    (∀ c' : Command, c'.SpelledBy t.text → c' = c) ∧ d.Matches symbols c) (instructionTokens src) ds

/-- The image of a source means what the source says. -/
theorem exists_decodesTo {src : Text} {rom : Array UInt8} (hsrc : src.byteSize < 2 ^ 32)
    (h : assemble src = .ok rom) :
    ∃ p ds, Program.ofSource src = .ok p ∧ DecodesTo src p.symbols rom ds := by
  obtain ⟨p, hp, hrom⟩ := assemble_eq_ok_iff.mp h
  obtain ⟨es, hreads, -, hrep⟩ := Program.exists_listing_of_ofSource hp
  have hsize := Listing.two_mul_size_le hreads
  obtain ⟨chunks, hchunks, hflat⟩ :=
    (hrep.rom_eq_ok_iff (Program.ofSource_laidOut hp).inStep (by omega)).mp hrom
  obtain ⟨ds, hds, hmatch⟩ := sweep_flatten (Listing.consecutive_commands es) hchunks
  rw [← hflat] at hds
  obtain ⟨hbytes, hall⟩ := sweep_eq_some hds
  refine ⟨p, ds, hp, hds, ⟨hbytes, fun d hd => (hall d hd).2⟩, ?_, ?_⟩
  · intro d hd entry
    rw [← entryOfCode?_eq_some_iff, entryOfCode?_eq_some_iff.mpr ⟨(hall d hd).1, rfl⟩,
      Option.some.injEq, eq_comm]
  · refine forall₂_trans (forall₂_spelledBy_locate hreads) hmatch ?_
    intro t c d hspelled hd
    exact ⟨c.command, hspelled, fun c' hc' => hc'.unique hspelled, hd⟩

theorem exists_decodesTo_forward :
    ∃ p ds, Program.ofSource "BNE end\nKEY EQU $1F\nend: ST b , KEY".toList = .ok p ∧
      DecodesTo "BNE end\nKEY EQU $1F\nend: ST b , KEY".toList p.symbols
        #[0x23, 0x01, 0x82, 0x01, 0x1F] ds :=
  exists_decodesTo (by decide) (by decide +kernel)

end MightyAsm
