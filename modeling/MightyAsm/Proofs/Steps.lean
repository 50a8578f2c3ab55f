import MightyAsm.Program.Basic
import MightyAsm.Proofs.Lists
import MightyAsm.Proofs.Resolution

/-!
# Adding a line to a program

What one line does to a program is said here once: it appends symbols to the table and at
most one statement to the statements, and each of them only under stated conditions. What
holds of all programs of sources is derived from these steps by `addLines_induction`.

* `Program.define_eq_ok_iff`, `Program.addLabel?_eq_ok_iff`: when a symbol is taken, and what
  the program is then;
* `Program.addLine_cases`: what a line can do to the statements and the size;
* `SymbolTable.find?_eq_some_iff`: what a table without duplicates finds.
-/

namespace MightyAsm

/-! ## Symbol tables -/

namespace SymbolTable

/-- The names of the symbols, in the order of their definitions. -/
def names (t : SymbolTable) : List Text := t.symbols.map (·.name)

theorem find?_eq_none_iff {t : SymbolTable} {name : Text} :
    t.find? name = none ↔ name ∉ t.names := by
  simp [find?, names, List.find?_eq_none]

theorem value?_isSome_iff {t : SymbolTable} {name : Text} :
    (∃ value, t.value? name = some value) ↔ name ∈ t.names := by
  rw [← Option.isSome_iff_exists, value?, Option.isSome_map, ← not_iff_not, ← find?_eq_none_iff,
    Option.not_isSome_iff_eq_none]

/-- Without duplicates a name finds the one symbol that has it. -/
theorem find?_eq_some_iff {t : SymbolTable} (hnodup : t.names.Nodup) {name : Text} {s : Symbol} :
    t.find? name = some s ↔ s ∈ t.symbols ∧ s.name = name :=
  find?_key_eq_some_iff hnodup

/-- More symbols at the end leave the values of the others as they are. -/
theorem value?_append {t t' : SymbolTable} {new : List Symbol}
    (ht : t'.symbols = t.symbols ++ new) {name : Text} {value : UInt8}
    (h : t.value? name = some value) : t'.value? name = some value := by
  simp only [value?, find?, Option.map_eq_some_iff] at h ⊢
  obtain ⟨s, hs, hvalue⟩ := h
  exact ⟨s, by rw [ht, List.find?_append, hs]; rfl, hvalue⟩

end SymbolTable

theorem Command.Denotes.append {t t' : SymbolTable} {new : List Symbol} {c : Command}
    {operands : Operands} (ht : t'.symbols = t.symbols ++ new) (h : c.Denotes t operands) :
    c.Denotes t' operands := by
  cases c with
  | memorySymbol op r name =>
      obtain ⟨addr, haddr, hoperands⟩ := h
      exact ⟨addr, SymbolTable.value?_append ht haddr, hoperands⟩
  | _ => exact h

/-- The symbol whose value a command needs is in the table. -/
theorem Command.Denotes.mem_names {t : SymbolTable} {c : Command} {operands : Operands}
    (h : c.Denotes t operands) : ∀ name ∈ c.addressSymbol?, name ∈ t.names := by
  intro name hname
  cases c with
  | memorySymbol op r name' =>
      cases hname
      obtain ⟨addr, haddr, -⟩ := h
      exact SymbolTable.value?_isSome_iff.mp ⟨addr, haddr⟩
  | _ => cases hname

/-! ## Steps -/

namespace Program

variable {p p' : Program} {l : SourceLine}

/-- The program with one symbol more at the end of its table. -/
def withSymbol (p : Program) (s : Symbol) : Program :=
  { p with symbols := ⟨p.symbols.symbols ++ [s]⟩ }

theorem define_eq_ok_iff {name : Token} {value : UInt8} {kind : SymbolKind} :
    p.define name value kind = .ok p' ↔
      isSymbolName name.text = true ∧ name.text ∉ p.symbols.names ∧
        p' = p.withSymbol ⟨name.text, value, kind, name.line⟩ := by
  rw [← SymbolTable.find?_eq_none_iff]
  unfold define
  by_cases hname : isSymbolName name.text = true
  · rw [if_pos hname]
    cases hinsert : p.symbols.insert ⟨name.text, value, kind, name.line⟩ with
    | ok symbols =>
        obtain ⟨hfree, rfl⟩ := SymbolTable.insert_eq_ok_iff.mp hinsert
        simp [hname, hfree, withSymbol, eq_comm]
    | error first =>
        have htaken := SymbolTable.insert_eq_error_iff.mp hinsert
        simp [htaken]
  · simp [hname]

theorem addLabel?_none_eq_ok_iff : p.addLabel? none = .ok p' ↔ p' = p := by
  simp [addLabel?, eq_comm]

theorem addLabel?_some_eq_ok_iff {label : Token} :
    p.addLabel? (some label) = .ok p' ↔
      p.size < 256 ∧ isSymbolName label.text = true ∧ label.text ∉ p.symbols.names ∧
        p' = p.withSymbol ⟨label.text, UInt8.ofNat p.size, .label, label.line⟩ := by
  rw [← define_eq_ok_iff, addLabel?, addLabel]
  by_cases hsize : p.size < 256
  · simp [hsize]
  · simp [hsize]

theorem addInstruction_eq_ok_iff {line : Nat} {i : Instruction} :
    p.addInstruction line i = .ok p' ↔ ∃ op operands, i.resolve p.symbols = .ok (op, operands) ∧
      p' = { p with stmts := p.stmts.push ⟨line, p.size, op, operands⟩
                    size := p.size + op.size } := by
  unfold addInstruction
  rw [bind_eq_ok_iff]
  constructor
  · rintro ⟨⟨op, operands⟩, hresolve, hp⟩
    cases hp
    exact ⟨op, operands, hresolve, rfl⟩
  · rintro ⟨op, operands, hresolve, rfl⟩
    exact ⟨(op, operands), hresolve, rfl⟩

/-! ### Lines -/

theorem addLine_of_blank (h : l.instr = none) : p.addLine l = p.addLabel? l.label := by
  simp [addLine, SourceLine.body, h]

theorem addLine_of_constant_eq_ok_iff {t : Token} {c : ConstDef} (ht : l.instr = some t)
    (hc : ConstDef.read? t.text = some c) :
    p.addLine l = .ok p' ↔ isSymbolName c.name = true ∧ c.name ∉ p.symbols.names ∧
      (p.withSymbol ⟨c.name, c.value, .const, l.line⟩).addLabel? l.label = .ok p' := by
  simp only [addLine, SourceLine.body, ht, hc]
  rw [bind_eq_ok_iff]
  constructor
  · rintro ⟨q, hq, hp⟩
    obtain ⟨hname, hfree, rfl⟩ := define_eq_ok_iff.mp hq
    exact ⟨hname, hfree, hp⟩
  · rintro ⟨hname, hfree, hp⟩
    exact ⟨_, define_eq_ok_iff.mpr ⟨hname, hfree, rfl⟩, hp⟩

theorem addLine_of_instruction_eq_ok_iff {t : Token} (ht : l.instr = some t)
    (hc : ConstDef.read? t.text = none) :
    p.addLine l = .ok p' ↔ ∃ q op operands, p.addLabel? l.label = .ok q ∧
      (Instruction.ofToken t).resolve q.symbols = .ok (op, operands) ∧
      p' = { q with stmts := q.stmts.push ⟨l.line, q.size, op, operands⟩
                    size := q.size + op.size } := by
  simp only [addLine, SourceLine.body, ht, hc]
  rw [bind_eq_ok_iff]
  constructor
  · rintro ⟨q, hq, hp⟩
    obtain ⟨op, operands, hresolve, hp⟩ := addInstruction_eq_ok_iff.mp hp
    exact ⟨q, op, operands, hq, hresolve, hp⟩
  · rintro ⟨q, op, operands, hq, hresolve, hp⟩
    exact ⟨q, hq, addInstruction_eq_ok_iff.mpr ⟨op, operands, hresolve, hp⟩⟩

theorem addLabel?_stmts {label : Option Token} (h : p.addLabel? label = .ok p') :
    p'.stmts = p.stmts ∧ p'.size = p.size := by
  cases label with
  | none =>
      cases addLabel?_none_eq_ok_iff.mp h
      exact ⟨rfl, rfl⟩
  | some label =>
      obtain ⟨-, -, -, rfl⟩ := addLabel?_some_eq_ok_iff.mp h
      exact ⟨rfl, rfl⟩

/-- A line adds no statement, or one that its instruction resolves to. -/
theorem addLine_cases (h : p.addLine l = .ok p') :
    (p'.stmts = p.stmts ∧ p'.size = p.size) ∨
      ∃ t op operands, l.instr = some t ∧
        (Instruction.ofToken t).resolve p'.symbols = .ok (op, operands) ∧
        p'.stmts = p.stmts.push ⟨l.line, p.size, op, operands⟩ ∧ p'.size = p.size + op.size := by
  cases ht : l.instr with
  | none =>
      rw [addLine_of_blank ht] at h
      exact Or.inl (addLabel?_stmts h)
  | some t =>
      cases hc : ConstDef.read? t.text with
      | some c =>
          obtain ⟨-, -, h⟩ := (addLine_of_constant_eq_ok_iff ht hc).mp h
          obtain ⟨hstmts, hsize⟩ := addLabel?_stmts h
          exact Or.inl ⟨hstmts, hsize⟩
      | none =>
          obtain ⟨q, op, operands, hq, hresolve, rfl⟩ :=
            (addLine_of_instruction_eq_ok_iff ht hc).mp h
          obtain ⟨hstmts, hsize⟩ := addLabel?_stmts hq
          exact Or.inr ⟨t, op, operands, rfl, hresolve, by simp [hstmts, hsize], by simp [hsize]⟩

/-! ### Runs -/

theorem addLines_cons {ls : List SourceLine} :
    p.addLines (l :: ls) = .ok p' ↔ ∃ q, p.addLine l = .ok q ∧ q.addLines ls = .ok p' := by
  rw [addLines, List.foldlM_cons, bind_eq_ok_iff]
  rfl

/-- What holds at the start and is kept by every line holds after all lines. The invariant
may speak about the lines read so far. -/
theorem addLines_induction {I : List SourceLine → Program → Prop}
    (hstep : ∀ done l q q', I done q → q.addLine l = .ok q' → I (done ++ [l]) q')
    {done ls : List SourceLine} (hstart : I done p) (h : p.addLines ls = .ok p') :
    I (done ++ ls) p' := by
  induction ls generalizing done p with
  | nil =>
      cases h
      simpa using hstart
  | cons l ls ih =>
      obtain ⟨q, hq, hrest⟩ := addLines_cons.mp h
      have hI := ih (hstep done l p q hstart hq) hrest
      simpa using hI

end Program

end MightyAsm
