import MightyAsm.Proofs.Definitions
import MightyAsm.Proofs.Encoding

/-!
# The language of the assembler

Which sources assemble is said here of their listings as a whole, without an order of
reading: names of definitions, uses before definitions, places of labels and lengths of
branches. The program that is read line by line, and then encoded, accepts just these
listings.

* `Listing.Accepted`: the conditions on a listing;
* `Listing.accepted_iff`: all but the last of them are what reading checks;
* `Operand.exists_means_iff`: when an operand has a byte;
* `exists_assemble_iff`: a source assembles exactly if its lines form an accepted listing.
-/

namespace MightyAsm

/-! ## Accepted listings -/

namespace Listing

/-- The target of each branch is defined somewhere, and a signed byte reaches it. -/
def BranchesReach (es : Listing) : Prop :=
  ∀ c ∈ es.commands, ∀ op name, c.command = .branchTo op name →
    ∃ d ∈ es.definitions, d.name = name ∧
      -128 ≤ (d.value : Int) - (c.addr + 1) ∧ (d.value : Int) - (c.addr + 1) ≤ 127

/-- The listings that assemble. -/
structure Accepted (es : Listing) : Prop where
  /-- Labels and constants are named by identifiers that name no register. -/
  named : ∀ d ∈ es.definitions, isSymbolName d.name = true
  /-- No name is defined twice. -/
  distinct : (es.definitions.map (·.name)).Nodup
  /-- The symbol of an address is defined by an earlier line or labels the line. -/
  definedBefore : ∀ before e after op r name, es = before ++ e :: after →
    e.body = .command (.memorySymbol op r name) →
    (∃ d ∈ definitions before, d.name = name) ∨ e.label = some name
  /-- Labels stand in the first 256 bytes. -/
  inMemory : ∀ d ∈ es.definitions, d.kind = .label → d.value < 256
  /-- Branches reach their targets. -/
  inRange : es.BranchesReach

theorem mem_names_concat_iff {es : Listing} {e : Entry} {c : Command}
    (hbody : e.body = .command c) {name : Text} :
    name ∈ (definitions (es ++ [e])).map (·.name) ↔
      (∃ d ∈ definitions es, d.name = name) ∨ e.label = some name := by
  rw [definitions_concat, List.map_append, List.mem_append, List.mem_map]
  refine or_congr_right ?_
  simp only [Entry.definitions, hbody, Entry.labelDefinitions]
  cases e.label with
  | none => simp
  | some label => simp [eq_comm]

theorem known_iff {es : Listing} :
    es.Known ↔ ∀ before e after op r name, es = before ++ e :: after →
      e.body = .command (.memorySymbol op r name) →
      (∃ d ∈ definitions before, d.name = name) ∨ e.label = some name := by
  constructor
  · intro h before e after op r name heq hbody
    rw [← mem_names_concat_iff hbody]
    exact h before e after heq name (by simp [Entry.addressSymbol?, hbody, Command.addressSymbol?])
  · intro h before e after heq name hname
    cases hbody : e.body with
    | blank => simp [Entry.addressSymbol?, hbody] at hname
    | constant c => simp [Entry.addressSymbol?, hbody] at hname
    | command c =>
        rw [mem_names_concat_iff hbody]
        rw [Entry.addressSymbol?, hbody] at hname
        cases c with
        | memorySymbol op r name' =>
            cases hname
            exact h before e after op r name heq hbody
        | _ => cases hname

theorem accepted_iff {es : Listing} : es.Accepted ↔ Admitted [] es ∧ es.BranchesReach := by
  rw [admitted_iff, definable_nil_iff, known_iff]
  constructor
  · intro h
    exact ⟨⟨⟨h.named, h.distinct, h.inMemory⟩, h.definedBefore⟩, h.inRange⟩
  · rintro ⟨⟨⟨hnamed, hdistinct, hmemory⟩, hbefore⟩, hrange⟩
    exact ⟨hnamed, hdistinct, hbefore, hmemory, hrange⟩

end Listing

/-! ## Encodings of commands -/

theorem exists_signed_iff {n : Int} : (∃ b, signed b = n) ↔ -128 ≤ n ∧ n ≤ 127 := by
  constructor
  · rintro ⟨b, hb⟩
    exact (signed_eq_iff.mp hb).1
  · intro hn
    exact ⟨_, signed_eq_iff.mpr ⟨hn, rfl⟩⟩

/-- The only operands that may have no byte are symbols: those without a value, and those
that a branch does not reach. -/
theorem Operand.exists_means_iff {symbols : SymbolTable} {mode : Mode} {addr : Nat}
    {o : Operand} :
    (∃ b, o.Means symbols mode addr b) ↔ ∀ name, o = .symbol name →
      ∃ value, symbols.value? name = some value ∧ (mode = .relative →
        -128 ≤ (value.toNat : Int) - (addr + 1) ∧ (value.toNat : Int) - (addr + 1) ≤ 127) := by
  cases o with
  | reg r => simp [Operand.means_reg_iff]
  | imm value => simp [Operand.means_imm_iff]
  | addr value => simp [Operand.means_addr_iff]
  | here => simp [Operand.means_here_iff]
  | symbol name =>
      simp only [Operand.symbol.injEq, forall_eq', Operand.Means]
      rw [exists_comm]
      refine exists_congr fun value => ?_
      rw [exists_and_left]
      refine and_congr_right fun _ => ?_
      by_cases hmode : mode = .relative
      · rw [← exists_signed_iff]
        simp only [hmode, if_true, forall_const]
        refine exists_congr fun b => ?_
        omega
      · simp [hmode]

theorem PlacedCommand.exists_encodedBy_iff {symbols : SymbolTable} {c : PlacedCommand} :
    (∃ chunk, c.EncodedBy symbols chunk) ↔ ∀ o ∈ c.command.operands,
      ∃ b, o.Means symbols c.command.mode c.addr b := by
  rw [← exists_forall₂_iff]
  constructor
  · rintro ⟨chunk, op, bytes, -, hmeans, -⟩
    exact ⟨bytes, hmeans⟩
  · rintro ⟨bytes, hmeans⟩
    obtain ⟨op, hop⟩ := c.command.exists_opcode?
    exact ⟨_, op, bytes, hop, hmeans, rfl⟩

/-- All commands of a listing that is read have an encoding exactly if all branches reach
their targets. -/
theorem Program.Represents.exists_encodedBy_iff {p : Program} {es : Listing}
    (hp : p.Represents es) (hes : Listing.Admitted [] es) :
    (∀ c ∈ es.commands, ∃ chunk, c.EncodedBy p.symbols chunk) ↔ es.BranchesReach := by
  constructor
  · intro h c hc op name hcommand
    have hmeans := PlacedCommand.exists_encodedBy_iff.mp (h c hc) (.symbol name)
    rw [hcommand] at hmeans
    obtain ⟨value, hvalue, hrange⟩ :=
      Operand.exists_means_iff.mp (hmeans (by simp [Command.operands])) name rfl
    obtain ⟨d, hd, hname, hd'⟩ := (hp.value?_eq_some_iff hes).mp hvalue
    rw [← hd'] at hrange
    exact ⟨d, hd, hname, hrange rfl⟩
  · intro h c hc
    obtain ⟨s, -, -, -, hden⟩ := exists_forall₂_iff.mp ⟨_, hp.stmts⟩ c hc
    have hbranch := h c hc
    rw [PlacedCommand.exists_encodedBy_iff]
    intro o ho
    rw [Operand.exists_means_iff]
    rintro name rfl
    cases hcommand : c.command with
    | memorySymbol op r name' =>
        -- the address was looked up when its line was read
        rw [hcommand] at ho hden
        obtain ⟨value, hvalue, -⟩ := hden
        have hname : name = name' := by simpa [Command.operands] using ho
        exact ⟨value, hname ▸ hvalue, by simp [Command.mode]⟩
    | branchTo op name' =>
        rw [hcommand] at ho
        have hname : name = name' := by simpa [Command.operands] using ho
        obtain ⟨d, hd, hdname, hrange⟩ := hbranch op name' hcommand
        have hbyte : d.value = (UInt8.ofNat d.value).toNat :=
          (UInt8.toNat_ofNat_of_lt' (Listing.value_lt hes d hd)).symm
        refine ⟨UInt8.ofNat d.value, ?_, fun _ => ?_⟩
        · exact (hp.value?_eq_some_iff hes).mpr ⟨d, hd, hdname.trans hname.symm, hbyte⟩
        · rw [← hbyte]
          exact hrange
    | _ => simp [hcommand, Command.operands] at ho

/-! ## Sources -/

/-- A source assembles exactly if its lines form an accepted listing. -/
theorem exists_assemble_iff {src : Text} (h : src.byteSize < 2 ^ 32) :
    (∃ rom, assemble src = .ok rom) ↔
      ∃ es, List.Forall₂ SourceLine.Reads (sourceLines src) es ∧ Listing.Accepted es := by
  constructor
  · rintro ⟨rom, hrom⟩
    obtain ⟨p, hp, hrom⟩ := assemble_eq_ok_iff.mp hrom
    obtain ⟨es, hreads, hes, hrep⟩ := Program.exists_listing_of_ofSource hp
    have hsize := Listing.two_mul_size_le hreads
    obtain ⟨chunks, hchunks, -⟩ :=
      (hrep.rom_eq_ok_iff (Program.ofSource_laidOut hp).inStep (by omega)).mp hrom
    have hencoded := exists_forall₂_iff.mp ⟨chunks, hchunks⟩
    exact ⟨es, hreads, Listing.accepted_iff.mpr ⟨hes, (hrep.exists_encodedBy_iff hes).mp hencoded⟩⟩
  · rintro ⟨es, hreads, haccepted⟩
    obtain ⟨hes, hrange⟩ := Listing.accepted_iff.mp haccepted
    obtain ⟨p, hp, hrep⟩ := Program.exists_ofSource_of_listing hreads hes
    have hsize := Listing.two_mul_size_le hreads
    obtain ⟨chunks, hchunks⟩ :=
      exists_forall₂_iff.mpr ((hrep.exists_encodedBy_iff hes).mpr hrange)
    refine ⟨chunks.flatten.toArray, assemble_eq_ok_iff.mpr ⟨p, hp, ?_⟩⟩
    exact (hrep.rom_eq_ok_iff (Program.ofSource_laidOut hp).inStep (by omega)).mpr
      ⟨chunks, hchunks, rfl⟩

theorem exists_accepted_loop :
    Text.byteSize "KEY EQU $1F\nloop: LD c , KEY ; read\n bne loop".toList < 2 ^ 32 ∧
      ∃ es, List.Forall₂ SourceLine.Reads
        (sourceLines "KEY EQU $1F\nloop: LD c , KEY ; read\n bne loop".toList) es ∧
        Listing.Accepted es := by
  have hrom : assemble "KEY EQU $1F\nloop: LD c , KEY ; read\n bne loop".toList =
      .ok #[0x81, 0x02, 0x1F, 0x23, 0xFC] := by decide +kernel
  have hsize : Text.byteSize "KEY EQU $1F\nloop: LD c , KEY ; read\n bne loop".toList < 2 ^ 32 := by
    decide
  exact ⟨hsize, (exists_assemble_iff hsize).mp ⟨_, hrom⟩⟩

end MightyAsm
