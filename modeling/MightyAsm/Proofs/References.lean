import MightyAsm.Proofs.AnyStatements
import MightyAsm.Proofs.Prefixes
import MightyAsm.Proofs.Reports

/-!
# References to symbols

A symbol can be named in every line that follows its definition, and by a branch on any line.
Names are checked when they are defined, so that whatever is in the table is read as a symbol
where it stands as an operand, and survives being cut out of its line.

* `Program.value?_of_mem`: a symbol of the table is found under its name;
* `Program.ofSource_append_command`: a further line with a command adds one statement and
  changes nothing else;
* `Program.rom_withStatement`: its bytes are appended to the image;
* `Program.referable_of_ofSource`: every symbol can be stored to and branched to.
-/

namespace MightyAsm

namespace Program

variable {src t : Text} {p : Program}

/-! ## Symbols of a source -/

/-- A symbol of a source is found under its name. -/
theorem value?_of_mem {s : Symbol} (h : ofSource src = .ok p) (hs : s ∈ p.symbols.symbols) :
    p.symbols.value? s.name = some s.value := by
  obtain ⟨es, -, hes, hrep⟩ := exists_listing_of_ofSource h
  rw [SymbolTable.value?, (SymbolTable.find?_eq_some_iff (hrep.nodup_names hes)).mpr ⟨hs, rfl⟩]
  rfl

/-! ## One line more -/

/-- The program with one statement more at its end. -/
def withStatement (p : Program) (line : Nat) (op : Opcode) (operands : Operands) : Program :=
  { p with stmts := p.stmts.push ⟨line, p.size, op, operands⟩, size := p.size + op.size }

theorem exists_linesFrom_of_plain (line offs : Nat) (h : Plain t) :
    ∃ l token, linesFrom line offs (t.splitOn '\n') = [l] ∧ l.line = line ∧ l.label = none ∧
      l.instr = some token ∧ token.text = t := by
  obtain ⟨hlabel, hinstr⟩ := @SourceLine.ofFragment_of_plain line ⟨t, offs⟩ h
  obtain ⟨token, hinstr, htext⟩ := Option.map_eq_some_iff.mp hinstr
  refine ⟨_, token, ?_, SourceLine.line_ofFragment line _, hlabel, hinstr, htext⟩
  rw [Text.splitOn_eq_singleton (h.not_mem (by decide))]
  rfl

/-- A further line with a command adds the statement that the command denotes, once its address
symbol is known. -/
theorem ofSource_append_command {c : Command} (h : ofSource src = .ok p) (ht : Plain t)
    (hc : c.SpelledBy t)
    (hknown : ∀ name ∈ c.addressSymbol?, ∃ value, p.symbols.value? name = some value) :
    ∃ op operands, opcode? c.mnemonic c.mode = some op ∧ c.Denotes p.symbols operands ∧
      ofSource (src ++ '\n' :: t) = .ok (p.withStatement (src.count '\n' + 2) op operands) := by
  obtain ⟨l, token, hlines, hline, hlabel, hinstr, rfl⟩ :=
    exists_linesFrom_of_plain (src.count '\n' + 2) (src.byteSize + 1) ht
  have hreads := Command.spelledBy_iff_reads.mp hc
  obtain ⟨⟨op, operands⟩, hresolve⟩ := Instruction.exists_resolve_of_reads hreads hknown
  obtain ⟨c', hreads', hop, hden⟩ := Instruction.exists_command_of_resolve hresolve
  cases (Command.spelledBy_iff_reads.mpr hreads').unique hc
  refine ⟨op, operands, hop, hden, ?_⟩
  have hadd : p.addLine l = .ok (p.withStatement l.line op operands) := by
    rw [addLine_of_instruction_eq_ok_iff hinstr (ConstDef.read?_eq_none_of_spelledBy hc), hlabel]
    exact ⟨p, op, operands, rfl, hresolve, rfl⟩
  rw [ofSource_append, h, hlines]
  show p.addLines [l] = _
  rw [addLines_cons.mpr ⟨_, hadd, rfl⟩, hline]

/-! ## The image of one statement more -/

theorem rom_withStatement (p : Program) (line : Nat) (op : Opcode) (operands : Operands) :
    (p.withStatement line op operands).rom =
      p.rom >>= fun rom => Statement.appendTo p.symbols rom ⟨line, p.size, op, operands⟩ := by
  rw [rom_eq_encodeAll, rom_eq_encodeAll]
  show encodeAll p.symbols (p.stmts.push _).toList = _
  rw [Array.toList_push, encodeAll_concat]

theorem size_of_rom {rom : Array UInt8} (h : ofSource src = .ok p) (hrom : p.rom = .ok rom) :
    rom.size = p.size := by
  have hlaid := ofSource_laidOut h
  rw [size_eq_of_rom hlaid.inStep hrom, hlaid.size]

end Program

/-! ## Lines that name a symbol -/

/-- The text of a line that stores register `A` to a symbol. -/
def storeText (name : Text) : Text := "ST A, ".toList ++ name

/-- The text of a line that branches to a symbol. -/
def branchText (name : Text) : Text := "BRA ".toList ++ name

section Lines

variable {name : Text}

theorem plain_storeText (h : isSymbolName name = true) : Plain (storeText name) := by
  have hident := isIdentifier_of_isSymbolName h
  have hfront : "T A, ".toList.all (fun d => isOperandChar d || d == ' ' || d == ',') = true := by
    decide
  refine plain_of_append (c := 'S') (s := "T A, ".toList) (by decide) ?_ ?_ ?_
  · rintro rfl
    cases hident
  · intro d hd
    have hchar := List.all_eq_true.mp hfront d hd
    simpa only [Bool.or_eq_true, beq_iff_eq, or_assoc] using hchar
  · intro d hd
    left
    simp [isOperandChar, isIdentChar_of_isIdentifier hident d hd]

theorem spelledBy_storeText (h : isSymbolName name = true) :
    (Command.memorySymbol .st ⟨0⟩ name).SpelledBy (storeText name) := by
  have hblank : Text.Blank [' '] := by
    intro d hd
    rw [List.mem_singleton.mp hd]
    decide
  refine ⟨"ST".toList, [' '], [['A'], ' ' :: name], rfl, by simp, hblank, ?_, rfl⟩
  refine .cons ⟨[], ['A'], [], Text.blank_nil, Text.blank_nil, rfl, rfl⟩ (.cons ?_ .nil)
  exact ⟨[' '], name, [], hblank, Text.blank_nil, ⟨rfl, h⟩, by simp⟩

theorem printable_branchTo (h : isSymbolName name = true) :
    (Command.branchTo .bra name).Printable := by
  intro name' hmem
  cases List.mem_singleton.mp hmem
  exact h

theorem text_branchTo (name : Text) : (Command.branchTo .bra name).text = branchText name := rfl

end Lines

/-! ## Every symbol -/

/-- The program with a branch to a symbol at its end. -/
def Program.withBranch (p : Program) (line : Nat) (target : Token) : Program :=
  p.withStatement line (.ofMode 0x20 .relative) (.branch (.symbol target))

/-- A branch that is added at the end of a program goes to an address. -/
structure Program.BranchResolves (p : Program) (line : Nat) (target : Token) (value : UInt8) :
    Prop where
  /-- The target is found in the table of the longer program. -/
  value? : (p.withBranch line target).symbols.value? target.text = some value
  /-- A target that is near enough is reached by the byte that is appended to the image. -/
  near : IsNear (distanceTo p.size value) → ∃ b : UInt8,
    (p.size : Int) + 1 + signed b = value.toNat ∧
    ∀ rom, p.rom = .ok rom → (p.withBranch line target).rom = .ok (rom ++ #[0x20, b])
  /-- Any other target is refused for its distance. -/
  far : ¬ IsNear (distanceTo p.size value) → p.size + 1 < 2 ^ 31 →
    ∀ rom, p.rom = .ok rom → (p.withBranch line target).rom =
      .error (.fault (.atToken (.branchOutOfRange target.text (distanceTo p.size value)) target))
  /-- A program without an image gets none by the branch. -/
  failed : ∀ e, p.rom = .error e → (p.withBranch line target).rom = .error e

/-- The symbol can be named in further lines. -/
structure Program.Referable (src : Text) (p : Program) (s : Symbol) : Prop where
  /-- As an operand, the name is read as the symbol. -/
  operand : Operand.ofText? s.name = some (.symbol s.name)
  /-- A line that stores to the symbol adds the statement with its value. -/
  store : ofSource (src ++ '\n' :: storeText s.name) =
    .ok (p.withStatement (src.count '\n' + 2) (.ofMode 0x82 .direct) (.regAddr ⟨0⟩ s.value))
  /-- A line that branches to the symbol adds a branch that goes to its value. -/
  branch : ∃ target : Token, target.text = s.name ∧
    ofSource (src ++ '\n' :: branchText s.name) =
      .ok (p.withBranch (src.count '\n' + 2) target) ∧
    p.BranchResolves (src.count '\n' + 2) target s.value

theorem Program.branchResolves {src : Text} {p : Program} {line : Nat} {target : Token}
    {value : UInt8} (h : ofSource src = .ok p)
    (hvalue : p.symbols.value? target.text = some value) :
    p.BranchResolves line target value := by
  refine ⟨hvalue, ?_, ?_, ?_⟩
  · intro hnear
    obtain ⟨b, hb⟩ : ∃ b, signed b = distanceTo p.size value :=
      ⟨_, signed_eq_iff.mpr ⟨hnear, rfl⟩⟩
    refine ⟨b, by rw [hb, distanceTo]; omega, ?_⟩
    intro rom hrom
    rw [withBranch, rom_withStatement, hrom]
    refine Statement.appendTo_eq_ok_iff.mpr ⟨[0x20, b], ?_, rfl⟩
    rw [size_of_rom h hrom, Statement.encode_eq_ok_iff fun _ _ => hnear.addr_lt]
    refine ⟨⟨rfl, ?_, rfl⟩, [b], .symbol hvalue hb, rfl⟩
    intro name hname
    cases hname
    exact ⟨value, hvalue, hnear⟩
  · intro hfar hword rom hrom
    rw [withBranch, rom_withStatement, hrom]
    refine Statement.appendTo_eq_error_iff.mpr ?_
    rw [size_of_rom h hrom, Statement.encode_eq_error_iff fun _ _ => hword]
    exact .tooFar rfl rfl hvalue hfar
  · intro e hrom
    rw [withBranch, rom_withStatement, hrom]
    rfl

theorem Program.referable_of_ofSource {src : Text} {p : Program} {s : Symbol}
    (h : ofSource src = .ok p) (hs : s ∈ p.symbols.symbols) : p.Referable src s := by
  have hname := wellNamed_of_ofSource h s hs
  have hvalue := value?_of_mem h hs
  refine ⟨Operand.ofText?_eq_symbol_iff.mpr ⟨rfl, hname⟩, ?_, ?_⟩
  · have hknown : ∀ name ∈ (Command.memorySymbol .st ⟨0⟩ s.name).addressSymbol?,
        ∃ value, p.symbols.value? name = some value := by
      intro name hmem
      cases hmem
      exact ⟨s.value, hvalue⟩
    obtain ⟨op, operands, hop, ⟨addr, haddr, rfl⟩, hstore⟩ := ofSource_append_command h
      (plain_storeText hname) (spelledBy_storeText hname) hknown
    rw [hvalue] at haddr
    cases haddr
    cases hop
    exact hstore
  · obtain ⟨op, operands, hop, ⟨target, htarget, rfl⟩, hbranch⟩ :=
      ofSource_append_command h (printable_branchTo hname).plain
        (Command.spelledBy_text (printable_branchTo hname)) nofun
    cases hop
    rw [text_branchTo] at hbranch
    refine ⟨target, htarget, hbranch, branchResolves h ?_⟩
    rw [htarget, hvalue]

theorem Program.referable_of_ofSource_key :
    ∃ p, ofSource "KEY EQU $1F\nloop: INC A".toList = .ok p ∧
      ⟨"KEY".toList, 0x1F, .const, 1⟩ ∈ p.symbols.symbols ∧
      p.Referable "KEY EQU $1F\nloop: INC A".toList ⟨"KEY".toList, 0x1F, .const, 1⟩ := by
  obtain ⟨p, hp, hs⟩ : ∃ p, ofSource "KEY EQU $1F\nloop: INC A".toList = .ok p ∧
      ⟨"KEY".toList, 0x1F, .const, 1⟩ ∈ p.symbols.symbols := ⟨_, rfl, by decide⟩
  exact ⟨p, hp, hs, referable_of_ofSource hp hs⟩

end MightyAsm
