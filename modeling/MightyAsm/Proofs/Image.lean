import Mathlib.Data.List.Nodup
import MightyAsm.Proofs.Definitions
import MightyAsm.Proofs.Encoding
import MightyAsm.Proofs.Printing

/-!
# The images that the assembler makes

An image is a row of instructions with registers for registers, in which every branch leads
to itself or to one of the first 256 addresses. All sources have such images, because a
symbol stands for a byte. Conversely every such image has a source: a disassembler defines a
constant for each byte, and branches to these constants.

* `IsImage`: the images, by what they are made of;
* `PlacedCommand.EncodedBy.operandBytes`: what commands are encoded to;
* `exists_command_of_operandBytes`: a command for each instruction of an image;
* `exists_source_iff`: an image has a source exactly if it is one of these.
-/

namespace MightyAsm

/-! ## Images -/

/-- The operand bytes that an instruction of a mode can have at an address. -/
def OperandBytes (addr : Nat) : Mode → List UInt8 → Prop
  | .implied, bytes => ∃ r : UInt8, r.toNat < 16 ∧ bytes = [r]
  | .registerPair, bytes => ∃ r s : UInt8, r.toNat < 16 ∧ s.toNat < 16 ∧ bytes = [r, s]
  | .immediate, bytes => ∃ r value : UInt8, r.toNat < 16 ∧ bytes = [r, value]
  | .direct, bytes => ∃ r a : UInt8, r.toNat < 16 ∧ bytes = [r, a]
  | .relative, bytes => ∃ o : UInt8, bytes = [o] ∧
      (o = 0xFF ∨ 0 ≤ (addr : Int) + 1 + signed o ∧ (addr : Int) + 1 + signed o ≤ 255)

/-- The bytes from an address on are a row of instructions. -/
inductive IsImage : Nat → List UInt8 → Prop
  | nil (addr : Nat) : IsImage addr []
  | cons {addr : Nat} {entry : Text × Opcode} {operands rest : List UInt8} :
      entry ∈ instructionSet → OperandBytes addr entry.2.mode operands →
      IsImage (addr + (operands.length + 1)) rest →
      IsImage addr (entry.2.code :: operands ++ rest)

/-! ## Images of sources -/

theorem operandBytes_of_means {symbols : SymbolTable} {addr : Nat} {c : Command}
    {bytes : List UInt8}
    (h : List.Forall₂ (Operand.Means symbols c.mode addr) c.operands bytes) :
    OperandBytes addr c.mode bytes := by
  have hreg : ∀ {b : UInt8} {r : Register}, b.toNat = r.index.val → b.toNat < 16 := by
    intro b r hb
    rw [hb]
    exact r.index.isLt
  cases c with
  | unary op r =>
      obtain ⟨b, hb, rfl⟩ := forall₂_singleton_left.mp h
      exact ⟨b, hreg hb, rfl⟩
  | binary op r s =>
      obtain ⟨b, b', hb, hb', rfl⟩ := forall₂_pair_left.mp h
      exact ⟨b, b', hreg hb, hreg hb', rfl⟩
  | load r value =>
      obtain ⟨b, b', hb, -, rfl⟩ := forall₂_pair_left.mp h
      exact ⟨b, b', hreg hb, rfl⟩
  | memory op r a =>
      obtain ⟨b, b', hb, -, rfl⟩ := forall₂_pair_left.mp h
      exact ⟨b, b', hreg hb, rfl⟩
  | memorySymbol op r name =>
      obtain ⟨b, b', hb, -, rfl⟩ := forall₂_pair_left.mp h
      exact ⟨b, b', hreg hb, rfl⟩
  | branchTo op name =>
      obtain ⟨b, hb, rfl⟩ := forall₂_singleton_left.mp h
      obtain ⟨value, -, hdest⟩ := hb
      -- the destination is the value of a symbol, and that is a byte
      rw [Command.mode, if_pos rfl] at hdest
      have hvalue := value.toNat_lt
      refine ⟨b, rfl, Or.inr ?_⟩
      omega
  | branchHere op =>
      obtain ⟨b, hb, rfl⟩ := forall₂_singleton_left.mp h
      exact ⟨b, rfl, Or.inl (Operand.means_here_iff.mp hb)⟩

theorem PlacedCommand.EncodedBy.operandBytes {symbols : SymbolTable} {c : PlacedCommand}
    {chunk : List UInt8} (h : c.EncodedBy symbols chunk) :
    ∃ entry ∈ instructionSet, ∃ operands, chunk = entry.2.code :: operands ∧
      OperandBytes c.addr entry.2.mode operands := by
  obtain ⟨op, bytes, hop, hmeans, rfl⟩ := h
  obtain ⟨hentry, hmode⟩ := mem_instructionSet_of_opcode? hop
  refine ⟨_, hentry, bytes, rfl, ?_⟩
  rw [hmode]
  exact operandBytes_of_means hmeans

/-- The encodings of commands that follow each other make an image. -/
theorem isImage_flatten {symbols : SymbolTable} {addr : Nat} {cs : List PlacedCommand}
    {chunks : List (List UInt8)} (hcs : Consecutive addr cs)
    (h : List.Forall₂ (PlacedCommand.EncodedBy symbols) cs chunks) :
    IsImage addr chunks.flatten := by
  induction h generalizing addr with
  | nil => exact IsImage.nil addr
  | @cons c chunk cs chunks hc _ ih =>
      obtain ⟨rfl, hrest⟩ := hcs
      rw [← hc.length_eq] at hrest
      obtain ⟨entry, hentry, operands, rfl, hoperands⟩ := hc.operandBytes
      rw [List.flatten_cons]
      exact IsImage.cons hentry hoperands (ih hrest)

/-! ## Commands for an image -/

/-- The name of the constant that stands for a byte. -/
def valueName (b : UInt8) : Text := 'V' :: hexOfByte b

/-- A table in which each byte has its name. -/
def NamesBytes (symbols : SymbolTable) : Prop := ∀ b, symbols.value? (valueName b) = some b

theorem isSymbolName_valueName (b : UInt8) : isSymbolName (valueName b) = true := by
  have hdigit : ∀ n : Fin 16, isIdentChar (hexDigit n.val) = true := by decide
  have hb := b.toNat_lt
  have hhigh := hdigit ⟨b.toNat / 16, by omega⟩
  have hlow := hdigit ⟨b.toNat % 16, by omega⟩
  have hstart : isIdentStart 'V' = true := by decide
  simp only [valueName, hexOfByte, isSymbolName, isIdentifier, Register.ofText?, hstart,
    List.all_cons, List.all_nil, hhigh, hlow, Option.isNone_none, Bool.and_self]

theorem valueName_injective : Function.Injective valueName := by
  intro a b hab
  have hhex : hexOfByte a = hexOfByte b := List.tail_eq_of_cons_eq hab
  have hread := hexByte?_hexOfByte a
  rw [hhex, hexByte?_hexOfByte] at hread
  exact (Option.some.inj hread).symm

theorem exists_register {b : UInt8} (h : b.toNat < 16) : ∃ r : Register, b.toNat = r.index.val :=
  ⟨⟨⟨b.toNat, h⟩⟩, rfl⟩

/-- A command that a disassembler may print: it needs no address symbol, and where each byte
has its name it is encoded to the given bytes. -/
structure Command.Prints (c : Command) (addr : Nat) (operands : List UInt8) : Prop where
  printable : c.Printable
  noAddressSymbol : c.addressSymbol? = none
  means : ∀ symbols, NamesBytes symbols →
    List.Forall₂ (Operand.Means symbols c.mode addr) c.operands operands

theorem exists_branch {addr : Nat} (op : BranchOp) {o : UInt8}
    (h : o = 0xFF ∨ 0 ≤ (addr : Int) + 1 + signed o ∧ (addr : Int) + 1 + signed o ≤ 255) :
    ∃ c : Command, c.mnemonic = op.name ∧ c.mode = .relative ∧ c.Prints addr [o] := by
  rcases h with rfl | ⟨hlow, hhigh⟩
  · refine ⟨.branchHere op, rfl, rfl, by simp [Command.Printable, Command.operands], rfl, ?_⟩
    intro symbols _
    exact forall₂_singleton_left.mpr ⟨_, Operand.means_here_iff.mpr rfl, rfl⟩
  · obtain ⟨dest, hdest⟩ := Int.eq_ofNat_of_zero_le hlow
    have hbyte : (UInt8.ofNat dest).toNat = dest := UInt8.toNat_ofNat_of_lt' (by
      show dest < 256
      omega)
    refine ⟨.branchTo op (valueName (UInt8.ofNat dest)), rfl, rfl, ?_, rfl, ?_⟩
    · simp [Command.Printable, Command.operands, isSymbolName_valueName]
    · intro symbols hsymbols
      refine forall₂_singleton_left.mpr ⟨o, ⟨UInt8.ofNat dest, hsymbols _, ?_⟩, rfl⟩
      rw [Command.mode, if_pos rfl, hbyte, hdest]

/-- Each instruction of an image is printed by a command. -/
theorem exists_command_of_operandBytes {addr : Nat} {entry : Text × Opcode}
    {operands : List UInt8} (hentry : entry ∈ instructionSet)
    (h : OperandBytes addr entry.2.mode operands) :
    ∃ c : Command, c.mnemonic = entry.1 ∧ c.mode = entry.2.mode ∧ c.Prints addr operands := by
  have hop := opcode?_of_mem hentry
  cases hmode : entry.2.mode with
  | implied =>
      rw [hmode] at hop h
      obtain ⟨b, hb, rfl⟩ := h
      obtain ⟨r, hr⟩ := exists_register hb
      obtain ⟨u, hkey⟩ := exists_unaryOp hop
      refine ⟨.unary u r, hkey.symm, rfl, by simp [Command.Printable, Command.operands], rfl, ?_⟩
      exact fun _ _ => forall₂_singleton_left.mpr ⟨b, hr, rfl⟩
  | registerPair =>
      rw [hmode] at hop h
      obtain ⟨b, b', hb, hb', rfl⟩ := h
      obtain ⟨r, hr⟩ := exists_register hb
      obtain ⟨s, hs⟩ := exists_register hb'
      obtain ⟨u, hkey⟩ := exists_binaryOp hop
      refine ⟨.binary u r s, hkey.symm, rfl, by simp [Command.Printable, Command.operands], rfl, ?_⟩
      exact fun _ _ => forall₂_pair_left.mpr ⟨b, b', hr, hs, rfl⟩
  | immediate =>
      rw [hmode] at hop h
      obtain ⟨b, value, hb, rfl⟩ := h
      obtain ⟨r, hr⟩ := exists_register hb
      have hkey := eq_load_of_immediate hop
      refine ⟨.load r value, hkey.symm, rfl, by simp [Command.Printable, Command.operands], rfl, ?_⟩
      exact fun _ _ => forall₂_pair_left.mpr ⟨b, value, hr, rfl, rfl⟩
  | direct =>
      rw [hmode] at hop h
      obtain ⟨b, a, hb, rfl⟩ := h
      obtain ⟨r, hr⟩ := exists_register hb
      obtain ⟨m, hkey⟩ := exists_memoryOp hop
      refine ⟨.memory m r a, hkey.symm, rfl, by simp [Command.Printable, Command.operands], rfl, ?_⟩
      exact fun _ _ => forall₂_pair_left.mpr ⟨b, a, hr, rfl, rfl⟩
  | relative =>
      rw [hmode] at hop h
      obtain ⟨o, rfl, ho⟩ := h
      obtain ⟨u, hkey⟩ := exists_branchOp hop
      obtain ⟨c, hmnemonic, hrelative, hprints⟩ := exists_branch u ho
      exact ⟨c, hmnemonic.trans hkey.symm, hrelative, hprints⟩

theorem exists_commands_of_isImage {addr : Nat} {bytes : List UInt8} (h : IsImage addr bytes) :
    ∃ cs : List Command, (∀ c ∈ cs, c.Printable ∧ c.addressSymbol? = none) ∧
      ∀ symbols placed, NamesBytes symbols → Consecutive addr placed →
        placed.map (·.command) = cs → ∃ chunks,
          List.Forall₂ (PlacedCommand.EncodedBy symbols) placed chunks ∧
          chunks.flatten = bytes := by
  induction h with
  | nil addr =>
      refine ⟨[], by simp, ?_⟩
      intro symbols placed _ _ hplaced
      rw [List.map_eq_nil_iff] at hplaced
      subst hplaced
      exact ⟨[], List.Forall₂.nil, rfl⟩
  | @cons addr entry operands rest hentry hoperands _ ih =>
      obtain ⟨c, hmnemonic, hmode, hprints⟩ := exists_command_of_operandBytes hentry hoperands
      obtain ⟨cs, hcs, hrest⟩ := ih
      refine ⟨c :: cs, ?_, ?_⟩
      · exact List.forall_mem_cons.mpr ⟨⟨hprints.printable, hprints.noAddressSymbol⟩, hcs⟩
      · intro symbols placed hsymbols hplaced hmap
        obtain ⟨pc, placed, rfl, rfl, htail⟩ := List.map_eq_cons_iff.mp hmap
        obtain ⟨rfl, hplaced⟩ := hplaced
        have hmeans := hprints.means symbols hsymbols
        have hop : opcode? pc.command.mnemonic pc.command.mode = some entry.2 := by
          rw [hmnemonic, hmode, opcode?_of_mem hentry]
        rw [Command.size_eq, hmeans.length_eq] at hplaced
        obtain ⟨chunks, hchunks, hflat⟩ := hrest symbols placed hsymbols hplaced htail
        refine ⟨(entry.2.code :: operands) :: chunks,
          List.Forall₂.cons ⟨entry.2, operands, hop, hmeans, rfl⟩ hchunks, ?_⟩
        rw [List.flatten_cons, hflat]

/-! ## The source of an image -/

def allBytes : List UInt8 := (List.range 256).map UInt8.ofNat

theorem mem_allBytes (b : UInt8) : b ∈ allBytes :=
  List.mem_map.mpr ⟨b.toNat, List.mem_range.mpr b.toNat_lt, UInt8.ofNat_toNat⟩

theorem nodup_allBytes : allBytes.Nodup := by
  refine List.Nodup.map_on ?_ List.nodup_range
  intro m hm n hn hmn
  rw [List.mem_range] at hm hn
  rw [← UInt8.toNat_inj, UInt8.toNat_ofNat_of_lt' hm, UInt8.toNat_ofNat_of_lt' hn] at hmn
  exact hmn

def EntryBody.constants : EntryBody → List ConstDef
  | .constant c => [c]
  | _ => []

def EntryBody.commands : EntryBody → List Command
  | .command c => [c]
  | _ => []

/-- Lines that define a constant for each byte, and then the commands. -/
def disassembly (cs : List Command) : List EntryBody :=
  allBytes.map (fun b => .constant ⟨valueName b, b⟩) ++ cs.map .command

theorem constants_disassembly (cs : List Command) :
    (disassembly cs).flatMap EntryBody.constants = allBytes.map fun b => ⟨valueName b, b⟩ := by
  have hnone : cs.flatMap (fun _ => ([] : List ConstDef)) = [] := by simp
  rw [disassembly, List.flatMap_append, List.flatMap_map, List.flatMap_map]
  simp only [EntryBody.constants, hnone, List.append_nil, List.map_eq_flatMap]

theorem commands_disassembly (cs : List Command) :
    (disassembly cs).flatMap EntryBody.commands = cs := by
  simp [disassembly, List.flatMap_map, EntryBody.commands]

theorem printable_disassembly {cs : List Command} (h : ∀ c ∈ cs, c.Printable) :
    ∀ b ∈ disassembly cs, b.Printable := by
  intro b hb
  rcases List.mem_append.mp hb with hb | hb
  · obtain ⟨v, -, rfl⟩ := List.mem_map.mp hb
    have hname := isSymbolName_valueName v
    simp only [isSymbolName, Bool.and_eq_true] at hname
    exact hname.1
  · obtain ⟨c, hc, rfl⟩ := List.mem_map.mp hb
    exact h c hc

/-- Without labels the definitions of a listing are its constants. -/
theorem Listing.map_definitions_locate {addr : Nat} {es : Listing}
    (h : ∀ e ∈ es, e.label = none) :
    ((es.locate addr).flatMap fun x => x.2.definitions x.1).map
        (fun d => (d.name, d.value, d.kind)) =
      ((es.map (·.body)).flatMap EntryBody.constants).map
        fun c => (c.name, c.value.toNat, SymbolKind.const) := by
  induction es generalizing addr with
  | nil => rfl
  | cons e es ih =>
      have hlabel := h e List.mem_cons_self
      have htail := @ih (addr + e.size) fun e' he' => h e' (List.mem_cons_of_mem e he')
      rw [Listing.locate, List.flatMap_cons, List.map_append, htail, List.map_cons,
        List.flatMap_cons, List.map_append]
      refine congrArg (· ++ _) ?_
      cases hbody : e.body <;>
        simp [Entry.definitions, Entry.labelDefinitions, EntryBody.constants, hbody, hlabel]

theorem Listing.map_commands_locate (addr : Nat) (es : Listing) :
    ((es.locate addr).flatMap fun x => x.2.commands x.1).map (·.command) =
      (es.map (·.body)).flatMap EntryBody.commands := by
  induction es generalizing addr with
  | nil => rfl
  | cons e es ih =>
      rw [Listing.locate, List.flatMap_cons, List.map_append, ih, List.map_cons, List.flatMap_cons]
      refine congrArg (· ++ _) ?_
      cases hbody : e.body <;> simp [Entry.commands, EntryBody.commands, hbody]

section Disassembly

variable {cs : List Command} {es : Listing}

theorem map_definitions_of_disassembly (hbodies : es.map (·.body) = disassembly cs)
    (hlabels : ∀ e ∈ es, e.label = none) :
    es.definitions.map (fun d => (d.name, d.value, d.kind)) =
      allBytes.map fun b => (valueName b, b.toNat, SymbolKind.const) := by
  rw [Listing.definitions, Listing.map_definitions_locate hlabels, hbodies,
    constants_disassembly, List.map_map]
  rfl

theorem map_name_of_disassembly (hbodies : es.map (·.body) = disassembly cs)
    (hlabels : ∀ e ∈ es, e.label = none) :
    es.definitions.map (·.name) = allBytes.map valueName := by
  have hdefs := congrArg (List.map Prod.fst) (map_definitions_of_disassembly hbodies hlabels)
  rw [List.map_map, List.map_map] at hdefs
  exact hdefs

theorem admitted_of_disassembly (hbodies : es.map (·.body) = disassembly cs)
    (hlabels : ∀ e ∈ es, e.label = none) (hcs : ∀ c ∈ cs, c.addressSymbol? = none) :
    Listing.Admitted [] es := by
  have hnames := map_name_of_disassembly hbodies hlabels
  rw [Listing.admitted_iff, Listing.definable_nil_iff]
  refine ⟨⟨?_, ?_, ?_⟩, ?_⟩
  · intro d hd
    have hmem : d.name ∈ es.definitions.map (·.name) := List.mem_map_of_mem hd
    rw [hnames] at hmem
    obtain ⟨b, -, hb⟩ := List.mem_map.mp hmem
    rw [← hb]
    exact isSymbolName_valueName b
  · rw [hnames]
    exact nodup_allBytes.map valueName_injective
  · intro d hd hkind
    have hmem : (d.name, d.value, d.kind) ∈
        es.definitions.map (fun d => (d.name, d.value, d.kind)) := List.mem_map_of_mem hd
    rw [map_definitions_of_disassembly hbodies hlabels] at hmem
    obtain ⟨b, -, hb⟩ := List.mem_map.mp hmem
    have hconst : SymbolKind.const = d.kind := congrArg (fun x => x.2.2) hb
    rw [hkind] at hconst
    cases hconst
  · rintro before e after rfl name hname
    have hmem : e.body ∈ disassembly cs := by
      rw [← hbodies]
      exact List.mem_map_of_mem (by simp)
    rcases List.mem_append.mp hmem with hmem | hmem
    · obtain ⟨b, -, hb⟩ := List.mem_map.mp hmem
      simp [Entry.addressSymbol?, ← hb] at hname
    · obtain ⟨c, hc, hb⟩ := List.mem_map.mp hmem
      simp [Entry.addressSymbol?, ← hb, hcs c hc] at hname

theorem namesBytes_of_disassembly {p : Program} (hp : p.Represents es)
    (hes : Listing.Admitted [] es) (hbodies : es.map (·.body) = disassembly cs)
    (hlabels : ∀ e ∈ es, e.label = none) : NamesBytes p.symbols := by
  intro b
  rw [hp.value?_eq_some_iff hes]
  have hmem : (valueName b, b.toNat, SymbolKind.const) ∈
      allBytes.map fun b => (valueName b, b.toNat, SymbolKind.const) :=
    List.mem_map.mpr ⟨b, mem_allBytes b, rfl⟩
  rw [← map_definitions_of_disassembly hbodies hlabels] at hmem
  obtain ⟨d, hd, heq⟩ := List.mem_map.mp hmem
  exact ⟨d, hd, congrArg (·.1) heq, congrArg (·.2.1) heq⟩

end Disassembly

theorem length_flatten_of_encodedBy {symbols : SymbolTable} {cs : List PlacedCommand}
    {chunks : List (List UInt8)}
    (h : List.Forall₂ (PlacedCommand.EncodedBy symbols) cs chunks) :
    chunks.flatten.length = commandSize cs := by
  induction h with
  | nil => rfl
  | @cons c chunk cs chunks hc _ ih =>
      rw [List.flatten_cons, List.length_append, ih, hc.length_eq]
      simp [commandSize]

/-- An image has a source exactly if it is a row of instructions in which every branch leads
to itself or to one of the first 256 addresses. -/
theorem exists_source_iff {rom : Array UInt8} (h : rom.size < 2 ^ 31) :
    (∃ src, assemble src = .ok rom) ↔ IsImage 0 rom.toList := by
  constructor
  · rintro ⟨src, hsrc⟩
    obtain ⟨p, hp, hrom⟩ := assemble_eq_ok_iff.mp hsrc
    obtain ⟨es, -, -, hrep⟩ := Program.exists_listing_of_ofSource hp
    have hlaid := Program.ofSource_laidOut hp
    have hsize : rom.size = Listing.size es := by
      rw [Program.size_eq_of_rom hlaid.inStep hrom, ← hlaid.size, hrep.size_eq]
    obtain ⟨chunks, hchunks, hflat⟩ := (hrep.rom_eq_ok_iff hlaid.inStep (hsize ▸ h)).mp hrom
    rw [hflat]
    exact isImage_flatten (Listing.consecutive_commands es) hchunks
  · intro himage
    obtain ⟨cs, hcs, hencode⟩ := exists_commands_of_isImage himage
    obtain ⟨es, hbodies, hlabels, hreads⟩ :=
      exists_listing_of_printable (by simp [disassembly, allBytes])
        (printable_disassembly fun c hc => (hcs c hc).1)
    have hes := admitted_of_disassembly hbodies hlabels fun c hc => (hcs c hc).2
    obtain ⟨p, hp, hrep⟩ := Program.exists_ofSource_of_listing hreads hes
    -- Whatever lines and addresses the commands get, they are encoded to the given bytes.
    have hcommands : es.commands.map (·.command) = cs := by
      rw [Listing.commands, Listing.map_commands_locate, hbodies, commands_disassembly]
    obtain ⟨chunks, hchunks, hflat⟩ := hencode p.symbols es.commands
      (namesBytes_of_disassembly hrep hes hbodies hlabels) (Listing.consecutive_commands es)
      hcommands
    have hsize : es.size = rom.size := by
      rw [← Listing.commandSize_commands, ← length_flatten_of_encodedBy hchunks, hflat,
        Array.length_toList]
    refine ⟨_, assemble_eq_ok_iff.mpr ⟨p, hp, ?_⟩⟩
    exact (hrep.rom_eq_ok_iff (Program.ofSource_laidOut hp).inStep (hsize ▸ h)).mpr
      ⟨chunks, hchunks, hflat.symm⟩

/-- Address 128 is far behind the end of this image. -/
theorem exists_source_far_branch :
    (#[0x24, 0x7F, 0x20, 0xFF, 0x90, 0x03, 0x0F] : Array UInt8).size < 2 ^ 31 ∧
      ∃ src, assemble src = .ok #[0x24, 0x7F, 0x20, 0xFF, 0x90, 0x03, 0x0F] := by
  have hsize : (#[0x24, 0x7F, 0x20, 0xFF, 0x90, 0x03, 0x0F] : Array UInt8).size < 2 ^ 31 := by
    decide
  refine ⟨hsize, (exists_source_iff hsize).mpr ?_⟩
  have hbeq : (['B', 'E', 'Q'], Opcode.ofMode 0x24 .relative) ∈ instructionSet := by decide
  have hbra : (['B', 'R', 'A'], Opcode.ofMode 0x20 .relative) ∈ instructionSet := by decide
  have hadd : (['A', 'D', 'D'], Opcode.ofMode 0x90 .registerPair) ∈ instructionSet := by decide
  refine IsImage.cons hbeq ⟨0x7F, rfl, Or.inr (by decide)⟩ ?_
  refine IsImage.cons hbra ⟨0xFF, rfl, Or.inl rfl⟩ ?_
  exact IsImage.cons hadd ⟨0x03, 0x0F, by decide, by decide, rfl⟩ (IsImage.nil _)

end MightyAsm
