import MightyAsm.Proofs.Emission
import MightyAsm.Proofs.Steps

/-!
# Reading and encoding stay in step

While a source is read, the size of the program is counted from the opcodes; when the
program is encoded, the address of a statement is the number of bytes before it. Both agree
at every statement of every program that was read from a source, because an instruction
only resolves to an opcode that has room for just its operands.

* `Program.LaidOut`: the invariant of reading, kept by each line (`Program.LaidOut.addLine`);
* `Program.ofSource_keepsStep`: what follows for a whole source and its image.
-/

namespace MightyAsm

/-- A statement that an instruction of a line resolves to: the opcode belongs to the
mnemonic of the line, and mode and size of the opcode are those of the operands. -/
def Statement.ComesFrom (s : Statement) (l : SourceLine) : Prop :=
  ∃ t, l.instr = some t ∧ l.line = s.line ∧
    ((Instruction.ofToken t).key, s.opcode) ∈ instructionSet ∧
    s.opcode.mode = s.operands.mode ∧ s.opcode.size = 1 + s.operands.size

/-- No entry of the instruction set fits to no operands at all, or to a single address. -/
theorem Statement.ComesFrom.operands_ne {s : Statement} {l : SourceLine} (h : s.ComesFrom l) :
    s.operands ≠ .none ∧ ∀ a, s.operands ≠ .addr a := by
  obtain ⟨t, -, -, hmem, hmode, hsize⟩ := h
  have hall : ∀ entry ∈ instructionSet, entry.2.size = entry.2.mode.instructionSize := by decide
  have hentry := hall _ hmem
  dsimp only at hentry
  rw [hmode, hsize] at hentry
  constructor
  · intro hnone
    rw [hnone] at hentry
    cases hentry
  · intro a haddr
    rw [haddr] at hentry
    cases hentry

namespace Program

/-! ## The invariant of reading -/

/-- The statements of a program stand one after the other and fill it, and they come from
the lines read so far, in their order. -/
structure LaidOut (done : List SourceLine) (p : Program) : Prop where
  inStep : InStep 0 p.stmts.toList
  size : p.size = totalSize p.stmts.toList
  lines : (p.stmts.toList.map (·.line)).Sublist (done.map (·.line))
  origin : ∀ s ∈ p.stmts.toList, ∃ l ∈ done, s.ComesFrom l

theorem LaidOut.addLine {done : List SourceLine} {l : SourceLine} {p p' : Program}
    (h : p.LaidOut done) (hp : p.addLine l = .ok p') : p'.LaidOut (done ++ [l]) := by
  have hmore : ∀ s ∈ p.stmts.toList, ∃ l' ∈ done ++ [l], s.ComesFrom l' := by
    intro s hs
    obtain ⟨l', hl', hfrom⟩ := h.origin s hs
    exact ⟨l', List.mem_append_left _ hl', hfrom⟩
  rcases addLine_cases hp with ⟨hstmts, hsize⟩ | ⟨t, op, operands, ht, hresolve, hstmts, hsize⟩
  · refine ⟨hstmts ▸ h.inStep, by rw [hsize, hstmts, h.size], ?_, hstmts ▸ hmore⟩
    rw [hstmts, List.map_append]
    exact h.lines.trans (List.sublist_append_left _ _)
  · obtain ⟨hmem, hmode, hfit⟩ := Instruction.resolve_fits hresolve
    have hlist : p'.stmts.toList = p.stmts.toList ++ [⟨l.line, p.size, op, operands⟩] := by
      rw [hstmts, Array.toList_push]
    constructor
    · rw [hlist, InStep.append_iff, Nat.zero_add]
      exact ⟨h.inStep, h.size, hfit, trivial⟩
    · rw [hlist, hsize, h.size]
      simp
    · rw [hlist, List.map_append, List.map_append]
      exact h.lines.append (List.Sublist.refl _)
    · intro s hs
      rw [hlist] at hs
      rcases List.mem_append.mp hs with hs | hs
      · exact hmore s hs
      · rw [List.mem_singleton] at hs
        subst hs
        exact ⟨l, by simp, t, ht, rfl, hmem, hmode, hfit⟩

theorem laidOut_empty : empty.LaidOut [] :=
  ⟨trivial, rfl, List.Sublist.refl _, by simp [empty]⟩

theorem ofSource_laidOut {src : Text} {p : Program} (h : ofSource src = .ok p) :
    p.LaidOut (sourceLines src) := by
  have hrun := addLines_induction (I := fun done p => p.LaidOut done)
    (fun done l q q' hq hstep => hq.addLine hstep) laidOut_empty h
  simpa using hrun

/-! ## Consequences for the image -/

/-- The program up to its `i`-th statement. -/
def upTo (p : Program) (i : Nat) : Program := { p with stmts := p.stmts.take i }

/-- Reading and encoding a program agree on all addresses and sizes. -/
structure KeepsStep (src : Text) (p : Program) : Prop where
  /-- A statement stands where the statements before it end. -/
  addr : ∀ i s, p.stmts[i]? = some s → s.addr = totalSize (p.stmts.toList.take i)
  /-- The statements fill the program. -/
  size : p.size = totalSize p.stmts.toList
  /-- Lines and addresses increase. -/
  increasing : p.stmts.toList.Pairwise (fun s s' => s.line < s'.line ∧ s.addr < s'.addr)
  /-- The opcode of a statement belongs to the mnemonic of its line and fits its operands. -/
  fits : ∀ s ∈ p.stmts.toList, (∃ l ∈ sourceLines src, s.ComesFrom l) ∧
    s.operands ≠ .none ∧ ∀ a, s.operands ≠ .addr a
  /-- Both checks of the encoder hold at every statement that it comes to. -/
  checked : ∀ i s rom, p.stmts[i]? = some s → (p.upTo i).rom = .ok rom →
    s.addr = rom.size ∧ ∀ bytes, s.operands.encode p.symbols rom.size = .ok bytes →
      s.opcode.size = bytes.length + 1
  /-- Encoding never stops because of such a check. -/
  neverOutOfStep : ∀ line, p.rom ≠ .error (.outOfStep line)
  /-- An image has the size of the program, and each statement is encoded at its address. -/
  image : ∀ rom, p.rom = .ok rom → rom.size = p.size ∧
    ∀ s ∈ p.stmts.toList, s.bytes p.symbols =
      .ok (rom.extract s.addr (s.addr + s.opcode.size)).toList

theorem split_stmts {p : Program} {i : Nat} {s : Statement} (h : p.stmts[i]? = some s) :
    p.stmts.toList = p.stmts.toList.take i ++ s :: p.stmts.toList.drop (i + 1) := by
  rw [← Array.getElem?_toList, List.getElem?_eq_some_iff] at h
  obtain ⟨hi, hs⟩ := h
  rw [← hs, ← List.drop_eq_getElem_cons hi, List.take_append_drop]

theorem size_eq_of_rom {p : Program} {rom : Array UInt8} (hstep : InStep 0 p.stmts.toList)
    (h : p.rom = .ok rom) : rom.size = totalSize p.stmts.toList := by
  obtain ⟨chunks, hchunks, hrom⟩ := (rom_eq_ok_iff hstep).mp h
  rw [← Array.length_toList, hrom]
  exact length_flatten_chunks hstep.size_eq hchunks

/-- Every program that is read from a source keeps step with its image. -/
theorem ofSource_keepsStep {src : Text} {p : Program} (h : ofSource src = .ok p) :
    p.KeepsStep src := by
  have hlaid := ofSource_laidOut h
  have haddr : ∀ i s, p.stmts[i]? = some s → s.addr = totalSize (p.stmts.toList.take i) := by
    intro i s hs
    have hstep := hlaid.inStep
    rw [split_stmts hs] at hstep
    exact hstep.addr_eq
  refine ⟨haddr, hlaid.size, ?_, ?_, ?_, ?_, ?_⟩
  · have hlines : p.stmts.toList.Pairwise (fun s s' => s.line < s'.line) := by
      rw [← List.pairwise_map]
      refine List.Pairwise.sublist hlaid.lines ?_
      rw [List.pairwise_map]
      exact sourceLines_pairwise_line src
    exact hlines.and hlaid.inStep.pairwise_addr
  · intro s hs
    obtain ⟨l, hl, hfrom⟩ := hlaid.origin s hs
    exact ⟨⟨l, hl, hfrom⟩, hfrom.operands_ne⟩
  · intro i s rom hs hrom
    have hsplit := split_stmts hs
    have hprefix : InStep 0 (p.upTo i).stmts.toList := by
      have hall := hlaid.inStep
      rw [hsplit, InStep.append_iff] at hall
      simpa [upTo] using hall.1
    refine ⟨?_, ?_⟩
    · rw [size_eq_of_rom hprefix hrom, haddr i s hs]
      simp [upTo]
    · intro bytes hbytes
      have hmem : s ∈ p.stmts.toList := by rw [hsplit]; simp
      have hfit := hlaid.inStep.size_eq s hmem
      rw [← Operands.length_encode hbytes] at hfit
      omega
  · intro line hrom
    rw [rom_eq_map hlaid.inStep] at hrom
    obtain ⟨s, -, hs⟩ := exists_of_mapM_eq_error (map_eq_error_iff.mp hrom)
    exact Operands.encode_ne_outOfStep (map_eq_error_iff.mp hs)
  · intro rom hrom
    refine ⟨by rw [size_eq_of_rom hlaid.inStep hrom, hlaid.size], ?_⟩
    intro s hs
    obtain ⟨chunks, hchunks, hflat⟩ := (rom_eq_ok_iff hlaid.inStep).mp hrom
    obtain ⟨before, after, hsplit⟩ := List.append_of_mem hs
    have hstep := hlaid.inStep
    rw [hsplit] at hstep hchunks
    rw [hstep.extract_flatten hchunks, Array.toList_extract, hflat, List.extract_eq_take_drop,
      Nat.add_sub_cancel_left]

theorem ofSource_keepsStep_forward :
    ∃ p : Program, ofSource "BNE end\nKEY EQU $1F\nend: ST b , KEY".toList = .ok p ∧
      p.size = 5 ∧ p.KeepsStep "BNE end\nKEY EQU $1F\nend: ST b , KEY".toList :=
  ⟨_, rfl, rfl, ofSource_keepsStep rfl⟩

end Program

end MightyAsm
