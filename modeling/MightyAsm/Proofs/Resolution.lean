import MightyAsm.Proofs.Command

/-!
# What an instruction resolves to

An instruction resolves exactly if its words read as a command whose address symbol, if it
has one, is known. Whatever instruction resolves, mnemonic and mode are those of an entry of
the instruction set, and the operands fill its size.

* `Instruction.resolve_fits`: opcode and operands of a resolved instruction fit each other;
* `Instruction.exists_command_of_resolve`: an instruction that resolves reads as a command,
  and its operands are those of the command;
* `Instruction.exists_resolve_of_reads`: an instruction that reads as a command resolves.
-/

namespace MightyAsm

theorem bind_eq_ok_iff {ε α β : Type} {x : Except ε α} {f : α → Except ε β} {b : β} :
    (x >>= f) = .ok b ↔ ∃ a, x = .ok a ∧ f a = .ok b := by
  cases x with
  | error e => simp [bind, Except.bind]
  | ok a => simp [bind, Except.bind]

theorem bind_eq_error_iff {ε α β : Type} {x : Except ε α} {f : α → Except ε β} {e : ε} :
    (x >>= f) = .error e ↔ x = .error e ∨ ∃ a, x = .ok a ∧ f a = .error e := by
  cases x with
  | error e => simp [bind, Except.bind]
  | ok a => simp [bind, Except.bind]

theorem map_eq_ok_iff {ε α β : Type} {x : Except ε α} {f : α → β} {b : β} :
    (f <$> x) = .ok b ↔ ∃ a, x = .ok a ∧ f a = b := by
  cases x with
  | error e => simp [Functor.map, Except.map]
  | ok a => simp [Functor.map, Except.map]

theorem map_eq_error_iff {ε α β : Type} {x : Except ε α} {f : α → β} {e : ε} :
    (f <$> x) = .error e ↔ x = .error e := by
  cases x with
  | error e => simp [Functor.map, Except.map]
  | ok a => simp [Functor.map, Except.map]

/-- A run over a list fails at the first item whose step fails. -/
theorem foldlM_eq_error_iff {ε α β : Type} {f : α → β → Except ε α} {a : α} {bs : List β} {e : ε} :
    bs.foldlM f a = .error e ↔ ∃ before b after a', bs = before ++ b :: after ∧
      before.foldlM f a = .ok a' ∧ f a' b = .error e := by
  induction bs generalizing a with
  | nil => simp [pure, Except.pure]
  | cons b bs ih =>
      rw [List.foldlM_cons, bind_eq_error_iff]
      constructor
      · rintro (h | ⟨a', ha', h⟩)
        · exact ⟨[], b, bs, a, rfl, rfl, h⟩
        · obtain ⟨before, b', after, a'', rfl, ha'', h⟩ := ih.mp h
          refine ⟨b :: before, b', after, a'', rfl, ?_, h⟩
          exact bind_eq_ok_iff.mpr ⟨a', ha', ha''⟩
      · rintro ⟨before, b', after, a'', hsplit, ha'', h⟩
        cases before with
        | nil =>
            cases hsplit
            cases ha''
            exact .inl h
        | cons b'' before =>
            cases hsplit
            obtain ⟨a', ha', ha''⟩ := bind_eq_ok_iff.mp ha''
            exact .inr ⟨a', ha', ih.mpr ⟨before, b', after, a'', rfl, ha'', h⟩⟩

theorem SymbolTable.resolve_eq_ok_iff {symbols : SymbolTable} {t : Token} {value : UInt8} :
    symbols.resolve t = .ok value ↔ symbols.value? t.text = some value := by
  unfold SymbolTable.resolve
  cases symbols.value? t.text <;> simp

/-! ## Fitting an opcode to operands -/

theorem Opcode.operandSize_of_opcode? {mnemonic : Text} {mode : Mode} {op : Opcode}
    (h : opcode? mnemonic mode = some op) : op.operandSize = mode.instructionSize - 1 := by
  rw [Opcode.operandSize, opcode?_size h]

theorem opcode?_of_mem {entry : Text × Opcode} (h : entry ∈ instructionSet) :
    opcode? entry.1 entry.2.mode = some entry.2 := by
  have hall : ∀ entry ∈ instructionSet, opcode? entry.1 entry.2.mode = some entry.2 := by decide
  exact hall entry h

theorem Instruction.fit_eq_ok_iff {i : Instruction} {operands : Operands}
    {r : Opcode × Operands} :
    i.fit operands = .ok r ↔ ∃ op, opcode? i.key operands.mode = some op ∧
      operands.size + 1 = operands.mode.instructionSize ∧ r = (op, operands) := by
  have hmode : 0 < operands.mode.instructionSize := by
    cases operands.mode <;> decide
  unfold Instruction.fit
  cases hop : opcode? i.key operands.mode with
  | none => simp
  | some op =>
      dsimp only
      rw [Opcode.operandSize_of_opcode? hop]
      by_cases hsize : operands.mode.instructionSize - 1 = operands.size
      · have hsum : operands.size + 1 = operands.mode.instructionSize := by omega
        simp [hsize, hsum, eq_comm]
      · have hsum : ¬ operands.size + 1 = operands.mode.instructionSize := by omega
        simp [hsize, hsum]

/-- No entry of the instruction set has room for no operand byte at all. -/
theorem Instruction.fitNone_ne_ok (i : Instruction) (r : Opcode × Operands) :
    i.fitNone ≠ .ok r := by
  unfold Instruction.fitNone
  cases hop : opcode? i.key .implied with
  | none => simp
  | some op =>
      dsimp only
      rw [Opcode.operandSize_of_opcode? hop]
      simp [Mode.instructionSize]

/-- What an instruction resolves to comes from a fit of its operands. -/
theorem Instruction.exists_fit_of_resolve {i : Instruction} {symbols : SymbolTable}
    {r : Opcode × Operands} (h : i.resolve symbols = .ok r) :
    ∃ operands, i.fit operands = .ok r ∧
      ((∃ op, i.operands = [op] ∧ Operands.ofOne symbols i.key op = .ok operands) ∨
        ∃ first second, i.operands = [first, second] ∧
          Operands.ofTwo symbols first second = .ok operands) := by
  unfold Instruction.resolve at h
  split at h
  · exact absurd h (i.fitNone_ne_ok r)
  · rename_i op hop
    obtain ⟨operands, hread, hfit⟩ := bind_eq_ok_iff.mp h
    exact ⟨operands, hfit, Or.inl ⟨op, hop, hread⟩⟩
  · rename_i first second hop
    obtain ⟨operands, hread, hfit⟩ := bind_eq_ok_iff.mp h
    exact ⟨operands, hfit, Or.inr ⟨first, second, hop, hread⟩⟩
  · cases h

/-- Opcode and operands of a resolved instruction fit each other. -/
theorem Instruction.resolve_fits {i : Instruction} {symbols : SymbolTable} {op : Opcode}
    {operands : Operands} (h : i.resolve symbols = .ok (op, operands)) :
    (i.key, op) ∈ instructionSet ∧ op.mode = operands.mode ∧ op.size = 1 + operands.size := by
  obtain ⟨operands', hfit, -⟩ := Instruction.exists_fit_of_resolve h
  obtain ⟨op', hop, hsize, heq⟩ := Instruction.fit_eq_ok_iff.mp hfit
  cases heq
  obtain ⟨hmem, hmode⟩ := mem_instructionSet_of_opcode? hop
  refine ⟨hmem, hmode, ?_⟩
  rw [opcode?_size hop]
  omega

/-! ## Commands -/

/-- The operands of a statement that is meant by a command, with the values that a symbol
table gives to its address symbols. -/
def Command.Denotes (symbols : SymbolTable) : Command → Operands → Prop
  | .unary _ r, operands => operands = .reg r
  | .binary _ r s, operands => operands = .regPair r s
  | .load r value, operands => operands = .regImm r value
  | .memory _ r addr, operands => operands = .regAddr r addr
  | .memorySymbol _ r name, operands =>
      ∃ addr, symbols.value? name = some addr ∧ operands = .regAddr r addr
  | .branchTo _ name, operands => ∃ t : Token, t.text = name ∧ operands = .branch (.symbol t)
  | .branchHere _, operands => operands = .branch .here

theorem Command.Denotes.mode_eq {symbols : SymbolTable} {c : Command} {operands : Operands}
    (h : c.Denotes symbols operands) : operands.mode = c.mode := by
  cases c with
  | memorySymbol op r name => obtain ⟨addr, -, rfl⟩ := h; rfl
  | branchTo op name => obtain ⟨t, -, rfl⟩ := h; rfl
  | _ => cases h; rfl

theorem Command.Denotes.size_eq {symbols : SymbolTable} {c : Command} {operands : Operands}
    (h : c.Denotes symbols operands) : operands.size + 1 = c.size := by
  cases c with
  | memorySymbol op r name => obtain ⟨addr, -, rfl⟩ := h; rfl
  | branchTo op name => obtain ⟨t, -, rfl⟩ := h; rfl
  | _ => cases h; rfl

/-! The modes tell the forms of commands apart. -/

theorem exists_unaryOp {key : Text} {op : Opcode} (h : opcode? key .implied = some op) :
    ∃ u : UnaryOp, key = u.name := by
  have hall : ∀ entry ∈ instructionSet, entry.2.mode = .implied →
      entry.1 = UnaryOp.inc.name ∨ entry.1 = UnaryOp.dec.name := by decide
  obtain ⟨hmem, hmode⟩ := mem_instructionSet_of_opcode? h
  rcases hall _ hmem hmode with hkey | hkey
  · exact ⟨.inc, hkey⟩
  · exact ⟨.dec, hkey⟩

theorem exists_binaryOp {key : Text} {op : Opcode} (h : opcode? key .registerPair = some op) :
    ∃ b : BinaryOp, key = b.name := by
  have hall : ∀ entry ∈ instructionSet, entry.2.mode = .registerPair →
      entry.1 = BinaryOp.add.name ∨ entry.1 = BinaryOp.sub.name ∨ entry.1 = BinaryOp.and.name ∨
        entry.1 = BinaryOp.or.name ∨ entry.1 = BinaryOp.xor.name := by decide
  obtain ⟨hmem, hmode⟩ := mem_instructionSet_of_opcode? h
  rcases hall _ hmem hmode with hkey | hkey | hkey | hkey | hkey
  · exact ⟨.add, hkey⟩
  · exact ⟨.sub, hkey⟩
  · exact ⟨.and, hkey⟩
  · exact ⟨.or, hkey⟩
  · exact ⟨.xor, hkey⟩

theorem eq_load_of_immediate {key : Text} {op : Opcode} (h : opcode? key .immediate = some op) :
    key = MemoryOp.ld.name := by
  have hall : ∀ entry ∈ instructionSet, entry.2.mode = .immediate →
      entry.1 = MemoryOp.ld.name := by decide
  obtain ⟨hmem, hmode⟩ := mem_instructionSet_of_opcode? h
  exact hall _ hmem hmode

theorem exists_memoryOp {key : Text} {op : Opcode} (h : opcode? key .direct = some op) :
    ∃ m : MemoryOp, key = m.name := by
  have hall : ∀ entry ∈ instructionSet, entry.2.mode = .direct →
      entry.1 = MemoryOp.ld.name ∨ entry.1 = MemoryOp.st.name := by decide
  obtain ⟨hmem, hmode⟩ := mem_instructionSet_of_opcode? h
  rcases hall _ hmem hmode with hkey | hkey
  · exact ⟨.ld, hkey⟩
  · exact ⟨.st, hkey⟩

theorem exists_branchOp {key : Text} {op : Opcode} (h : opcode? key .relative = some op) :
    ∃ b : BranchOp, key = b.name := by
  have hall : ∀ entry ∈ instructionSet, entry.2.mode = .relative →
      entry.1 = BranchOp.bra.name ∨ entry.1 = BranchOp.bne.name ∨
        entry.1 = BranchOp.beq.name := by decide
  obtain ⟨hmem, hmode⟩ := mem_instructionSet_of_opcode? h
  rcases hall _ hmem hmode with hkey | hkey | hkey
  · exact ⟨.bra, hkey⟩
  · exact ⟨.bne, hkey⟩
  · exact ⟨.beq, hkey⟩

/-! ## From instructions to commands -/

section FromInstructions

variable {i : Instruction} {symbols : SymbolTable} {op : Opcode} {operands : Operands}

theorem Instruction.reads_one {o : Token} {x : Operand} {c : Command} (hops : i.operands = [o])
    (ho : Operand.ofText? o.text = some x) (hkey : i.key = c.mnemonic)
    (hc : c.operands = [x]) : i.Reads c :=
  ⟨hkey, by simp [hops, ho, hc]⟩

theorem Instruction.reads_two {first second : Token} {x y : Operand} {c : Command}
    (hops : i.operands = [first, second]) (hfirst : Operand.ofText? first.text = some x)
    (hsecond : Operand.ofText? second.text = some y) (hkey : i.key = c.mnemonic)
    (hc : c.operands = [x, y]) : i.Reads c :=
  ⟨hkey, by simp [hops, hfirst, hsecond, hc]⟩

theorem Instruction.exists_command_of_ofOne {o : Token} (hops : i.operands = [o])
    (hread : Operands.ofOne symbols i.key o = .ok operands)
    (hop : opcode? i.key operands.mode = some op)
    (hsize : operands.size + 1 = operands.mode.instructionSize) :
    ∃ c : Command, i.Reads c ∧ c.Denotes symbols operands := by
  unfold Operands.ofOne at hread
  split at hread
  · rename_i r ho
    cases hread
    obtain ⟨u, hkey⟩ := exists_unaryOp hop
    exact ⟨.unary u r, reads_one hops ho hkey rfl, rfl⟩
  · rename_i name ho
    split at hread
    · cases hread
      obtain ⟨b, hkey⟩ := exists_branchOp hop
      have hname : o.text = name := (Operand.ofText?_eq_some_iff.mp ho).1
      exact ⟨.branchTo b name, reads_one hops ho hkey rfl, o, hname, rfl⟩
    · -- an address without a register never fills a direct instruction
      obtain ⟨value, -, rfl⟩ := map_eq_ok_iff.mp hread
      cases hsize
  · rename_i ho
    split at hread
    · cases hread
      obtain ⟨b, hkey⟩ := exists_branchOp hop
      exact ⟨.branchHere b, reads_one hops ho hkey rfl, rfl⟩
    · cases hread
  · cases hread

theorem Instruction.exists_command_of_ofTwo {first second : Token}
    (hops : i.operands = [first, second])
    (hread : Operands.ofTwo symbols first second = .ok operands)
    (hop : opcode? i.key operands.mode = some op) :
    ∃ c : Command, i.Reads c ∧ c.Denotes symbols operands := by
  unfold Operands.ofTwo at hread
  split at hread
  · rename_i r hfirst
    split at hread
    · rename_i s hsecond
      cases hread
      obtain ⟨b, hkey⟩ := exists_binaryOp hop
      exact ⟨.binary b r s, reads_two hops hfirst hsecond hkey rfl, rfl⟩
    · rename_i value hsecond
      cases hread
      exact ⟨.load r value, reads_two hops hfirst hsecond (eq_load_of_immediate hop) rfl, rfl⟩
    · rename_i addr hsecond
      cases hread
      obtain ⟨m, hkey⟩ := exists_memoryOp hop
      exact ⟨.memory m r addr, reads_two hops hfirst hsecond hkey rfl, rfl⟩
    · rename_i name hsecond
      obtain ⟨addr, hresolve, rfl⟩ := map_eq_ok_iff.mp hread
      rw [SymbolTable.resolve_eq_ok_iff] at hresolve
      obtain ⟨m, hkey⟩ := exists_memoryOp hop
      have hname : second.text = name := (Operand.ofText?_eq_some_iff.mp hsecond).1
      exact ⟨.memorySymbol m r name, reads_two hops hfirst hsecond hkey rfl, addr,
        hname ▸ hresolve, rfl⟩
    · cases hread
  · cases hread

/-- An instruction that resolves reads as a command, and its operands are those of the
command. -/
theorem Instruction.exists_command_of_resolve (h : i.resolve symbols = .ok (op, operands)) :
    ∃ c : Command, i.Reads c ∧ opcode? c.mnemonic c.mode = some op ∧
      c.Denotes symbols operands := by
  obtain ⟨operands', hfit, hread⟩ := Instruction.exists_fit_of_resolve h
  obtain ⟨op', hop, hsize, heq⟩ := Instruction.fit_eq_ok_iff.mp hfit
  cases heq
  obtain ⟨c, hc, hdenotes⟩ : ∃ c : Command, i.Reads c ∧ c.Denotes symbols operands := by
    rcases hread with ⟨o, hops, hread⟩ | ⟨first, second, hops, hread⟩
    · exact exists_command_of_ofOne hops hread hop hsize
    · exact exists_command_of_ofTwo hops hread hop
  exact ⟨c, hc, by rw [← hc.1, ← hdenotes.mode_eq, hop], hdenotes⟩

end FromInstructions

/-! ## From commands to instructions -/

/-- The symbol for whose value a command has to wait, if it has one. -/
def Command.addressSymbol? : Command → Option Text
  | .memorySymbol _ _ name => some name
  | _ => none

theorem BranchOp.isBranch_name (b : BranchOp) : isBranch b.name = true := by
  cases b <;> decide

section FromCommands

variable {i : Instruction} {symbols : SymbolTable} {c : Command} {operands : Operands}

theorem Instruction.exists_fit_of_denotes (hkey : i.key = c.mnemonic)
    (hden : c.Denotes symbols operands) : ∃ r, i.fit operands = .ok r := by
  obtain ⟨op, hop⟩ := c.exists_opcode?
  rw [← hkey, ← hden.mode_eq] at hop
  refine ⟨(op, operands), Instruction.fit_eq_ok_iff.mpr ⟨op, hop, ?_, rfl⟩⟩
  rw [hden.size_eq, hden.mode_eq, Command.size]

theorem Instruction.exists_resolve_of_ofOne {o : Token} (hops : i.operands = [o])
    (hread : Operands.ofOne symbols i.key o = .ok operands) (hkey : i.key = c.mnemonic)
    (hden : c.Denotes symbols operands) : ∃ r, i.resolve symbols = .ok r := by
  obtain ⟨r, hfit⟩ := exists_fit_of_denotes hkey hden
  refine ⟨r, ?_⟩
  simp only [Instruction.resolve, hops]
  exact bind_eq_ok_iff.mpr ⟨operands, hread, hfit⟩

theorem Instruction.exists_resolve_of_ofTwo {first second : Token}
    (hops : i.operands = [first, second])
    (hread : Operands.ofTwo symbols first second = .ok operands) (hkey : i.key = c.mnemonic)
    (hden : c.Denotes symbols operands) : ∃ r, i.resolve symbols = .ok r := by
  obtain ⟨r, hfit⟩ := exists_fit_of_denotes hkey hden
  refine ⟨r, ?_⟩
  simp only [Instruction.resolve, hops]
  exact bind_eq_ok_iff.mpr ⟨operands, hread, hfit⟩

theorem Instruction.Reads.exists_one {x : Operand} (h : i.Reads c) (hc : c.operands = [x]) :
    ∃ o, i.operands = [o] ∧ Operand.ofText? o.text = some x := by
  have hmap := h.2
  rw [hc, List.map_singleton, List.map_eq_singleton_iff] at hmap
  exact hmap

theorem Instruction.Reads.exists_two {x y : Operand} (h : i.Reads c)
    (hc : c.operands = [x, y]) :
    ∃ first second, i.operands = [first, second] ∧ Operand.ofText? first.text = some x ∧
      Operand.ofText? second.text = some y := by
  have hmap := h.2
  rw [hc, List.map_cons, List.map_eq_cons_iff] at hmap
  obtain ⟨first, rest, hops, hfirst, hrest⟩ := hmap
  rw [List.map_singleton, List.map_eq_singleton_iff] at hrest
  obtain ⟨second, rfl, hsecond⟩ := hrest
  exact ⟨first, second, hops, hfirst, hsecond⟩

/-- An instruction that reads as a command resolves, once its address symbol is known. -/
theorem Instruction.exists_resolve_of_reads (h : i.Reads c)
    (hknown : ∀ name ∈ c.addressSymbol?, ∃ value, symbols.value? name = some value) :
    ∃ r, i.resolve symbols = .ok r := by
  have hkey := h.1
  cases c with
  | unary u r =>
      obtain ⟨o, hops, ho⟩ := h.exists_one rfl
      exact exists_resolve_of_ofOne hops (by simp only [Operands.ofOne, ho]) hkey rfl
  | binary b r s =>
      obtain ⟨first, second, hops, hfirst, hsecond⟩ := h.exists_two rfl
      exact exists_resolve_of_ofTwo hops (by simp only [Operands.ofTwo, hfirst, hsecond]) hkey rfl
  | load r value =>
      obtain ⟨first, second, hops, hfirst, hsecond⟩ := h.exists_two rfl
      exact exists_resolve_of_ofTwo hops (by simp only [Operands.ofTwo, hfirst, hsecond]) hkey rfl
  | memory m r addr =>
      obtain ⟨first, second, hops, hfirst, hsecond⟩ := h.exists_two rfl
      exact exists_resolve_of_ofTwo hops (by simp only [Operands.ofTwo, hfirst, hsecond]) hkey rfl
  | memorySymbol m r name =>
      obtain ⟨first, second, hops, hfirst, hsecond⟩ := h.exists_two rfl
      obtain ⟨addr, haddr⟩ := hknown name rfl
      have hname : second.text = name := (Operand.ofText?_eq_some_iff.mp hsecond).1
      have hresolve : symbols.resolve second = .ok addr := by
        rw [SymbolTable.resolve_eq_ok_iff, hname, haddr]
      refine exists_resolve_of_ofTwo hops ?_ hkey ⟨addr, haddr, rfl⟩
      simp only [Operands.ofTwo, hfirst, hsecond, hresolve]
      rfl
  | branchTo b name =>
      obtain ⟨o, hops, ho⟩ := h.exists_one rfl
      have hbranch : isBranch i.key = true := hkey ▸ b.isBranch_name
      have hname : o.text = name := (Operand.ofText?_eq_some_iff.mp ho).1
      exact exists_resolve_of_ofOne hops (by simp only [Operands.ofOne, ho, hbranch, if_true]) hkey
        ⟨o, hname, rfl⟩
  | branchHere b =>
      obtain ⟨o, hops, ho⟩ := h.exists_one rfl
      have hbranch : isBranch i.key = true := hkey ▸ b.isBranch_name
      exact exists_resolve_of_ofOne hops (by simp only [Operands.ofOne, ho, hbranch, if_true]) hkey
        rfl

end FromCommands

end MightyAsm
