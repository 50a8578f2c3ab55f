import MightyAsm.Proofs.CaseFree
import MightyAsm.Proofs.Faults
import MightyAsm.Proofs.SideBySide

/-!
# Letter case matters only in names

A source in other letter case is read side by side with the source itself. Its lines have the
same names and the same places, and its instructions are resolved to the same statements, so both
mean the same program, or both are refused at the same place. Names are different: they are told
apart by every letter.

* `Instruction.Alike.resolve`: one instruction in either letter case;
* `Program.addLine_alike`: what one line does in either letter case;
* `Program.ofSource_alike`, `assemble_alike`: the two sources;
* `Program.ToldApart`: which symbol a name is, and when a name is free.
-/

namespace MightyAsm

/-! ## Diagnostics -/

/-- The same fault. The text of a malformed operand may be in other letter case. -/
inductive Fault.Alike : Fault → Fault → Prop
  | same (fault : Fault) : Alike fault fault
  | malformedOperand {t u : Text} : u.upper = t.upper →
      Alike (.malformedOperand t) (.malformedOperand u)

/-- The same fault at the same place. -/
structure Diagnostic.Alike (d e : Diagnostic) : Prop where
  fault : d.fault.Alike e.fault
  line : e.line = d.line
  span : e.span = d.span

inductive RomError.Alike : RomError → RomError → Prop
  | same (e : RomError) : Alike e e
  | fault {d e : Diagnostic} : d.Alike e → Alike (.fault d) (.fault e)

theorem Diagnostic.Alike.refl (d : Diagnostic) : d.Alike d := ⟨.same _, rfl, rfl⟩

namespace Token.Alike

variable {t u : Token}

theorem malformed (h : t.Alike u) : (Diagnostic.malformed t).Alike (.malformed u) :=
  ⟨.malformedOperand h.upper, h.line, h.span⟩

/-- An operand that names a symbol is the same in both sources. -/
theorem eq_of_symbol (h : t.Alike u) {name : Text}
    (hname : Operand.ofText? t.text = some (.symbol name)) : u = t := by
  have huname := h.operand.trans hname
  obtain ⟨htext, -⟩ := Operand.ofText?_eq_symbol_iff.mp hname
  obtain ⟨hutext, -⟩ := Operand.ofText?_eq_symbol_iff.mp huname
  exact Token.eq_of (hutext.trans htext.symm) h.span h.line

end Token.Alike

/-! ## Instructions -/

section Instructions

variable {t u v w : Token} {i j : Instruction} {symbols : SymbolTable}

theorem Operands.ofOne_alike (h : t.Alike u) (mnemonic : Text) :
    Agree Diagnostic.Alike Eq (ofOne symbols mnemonic t) (ofOne symbols mnemonic u) := by
  unfold ofOne
  rw [h.operand]
  cases ht : Operand.ofText? t.text with
  | none => exact .error h.malformed
  | some o =>
      cases o with
      | reg r => exact .ok rfl
      | imm value => exact .error h.malformed
      | addr value => exact .error h.malformed
      | symbol name =>
          rw [h.eq_of_symbol ht]
          exact .refl Diagnostic.Alike.refl _
      | here => exact Agree.check (isBranch mnemonic = true) h.malformed (.ok rfl)

theorem Operands.ofTwo_alike (h : t.Alike u) (h' : v.Alike w) :
    Agree Diagnostic.Alike Eq (ofTwo symbols t v) (ofTwo symbols u w) := by
  unfold ofTwo
  rw [h.operand, h'.operand]
  cases Operand.ofText? t.text with
  | none => exact .error h.malformed
  | some o =>
      cases o with
      | reg r =>
          cases hv : Operand.ofText? v.text with
          | none => exact .error h'.malformed
          | some o' =>
              cases o' with
              | symbol name =>
                  rw [h'.eq_of_symbol hv]
                  exact .refl Diagnostic.Alike.refl _
              | here => exact .error h'.malformed
              | _ => exact .ok rfl
      | _ => exact .error h.malformed

namespace Instruction

theorem Alike.fit (h : i.Alike j) (operands : Operands) :
    Agree Diagnostic.Alike Eq (i.fit operands) (j.fit operands) := by
  have hunsupported : (fit.unsupported i operands).Alike (fit.unsupported j operands) := by
    unfold fit.unsupported
    rw [h.key]
    exact ⟨.same _, h.line, h.span⟩
  unfold Instruction.fit
  rw [h.key]
  cases opcode? i.key operands.mode with
  | none => exact .error hunsupported
  | some op => exact Agree.check (op.operandSize = operands.size) hunsupported (.ok rfl)

theorem Alike.fitNone (h : i.Alike j) : Agree Diagnostic.Alike Eq i.fitNone j.fitNone := by
  have hmissing : (fitNone.missing i).Alike (fitNone.missing j) := by
    unfold fitNone.missing
    rw [h.key]
    exact ⟨.same _, h.line, h.span⟩
  unfold Instruction.fitNone
  rw [h.key]
  cases opcode? i.key .implied with
  | none => exact .error hmissing
  | some op => exact Agree.check (op.operandSize = 0) hmissing (.ok rfl)

theorem Alike.resolve (h : i.Alike j) (symbols : SymbolTable) :
    Agree Diagnostic.Alike Eq (i.resolve symbols) (j.resolve symbols) := by
  have hoperands := h.operands
  unfold Instruction.resolve
  generalize i.operands = ops at hoperands ⊢
  generalize j.operands = ops' at hoperands ⊢
  cases hoperands with
  | nil => exact h.fitNone
  | cons hfirst hrest =>
      cases hrest with
      | nil =>
          rw [h.key]
          refine (Operands.ofOne_alike hfirst i.key).bind ?_
          rintro operands _ rfl
          exact h.fit operands
      | cons hsecond hrest =>
          cases hrest with
          | nil =>
              refine (Operands.ofTwo_alike hfirst hsecond).bind ?_
              rintro operands _ rfl
              exact h.fit operands
          | cons hextra _ =>
              rw [h.key]
              exact .error ⟨.same _, hextra.line, hextra.span⟩

end Instruction

end Instructions

/-! ## Programs -/

namespace Program

theorem addInstruction_alike {i j : Instruction} (h : i.Alike j) (p : Program) (line : Nat) :
    Agree Diagnostic.Alike Eq (p.addInstruction line i) (p.addInstruction line j) := by
  refine (h.resolve p.symbols).bind ?_
  rintro r _ rfl
  exact .refl Diagnostic.Alike.refl _

/-- A line in either letter case does the same to a program. -/
theorem addLine_alike {l l' : SourceLine} (h : l.Alike l') (p : Program) :
    Agree Diagnostic.Alike Eq (p.addLine l) (p.addLine l') := by
  have hbody := h.body
  unfold addLine
  rw [h.label, h.line]
  generalize l.body = b at hbody ⊢
  generalize l'.body = b' at hbody ⊢
  cases hbody with
  | same => exact .refl Diagnostic.Alike.refl _
  | instruction hi =>
      refine (Agree.refl Diagnostic.Alike.refl (p.addLabel? l.label)).bind ?_
      rintro q _ rfl
      exact addInstruction_alike hi q l.line

theorem ofSource_alike {src src' : Text} (h : CaseVariant src src') :
    Agree Diagnostic.Alike Eq (ofSource src) (ofSource src') := by
  rw [ofSource_eq_addLines, ofSource_eq_addLines]
  refine Agree.foldlM ?_ (forall₂_alike_allLines h) rfl
  rintro p _ l l' rfl hl
  exact addLine_alike hl p

end Program

theorem assemble_alike {src src' : Text} (h : CaseVariant src src') :
    Agree RomError.Alike Eq (assemble src) (assemble src') := by
  have hread := Program.ofSource_alike h
  unfold assemble
  generalize Program.ofSource src = x at hread ⊢
  generalize Program.ofSource src' = x' at hread ⊢
  cases hread with
  | @ok p _ hp =>
      cases hp
      exact .refl .same p.rom
  | error hd => exact .error (.fault hd)

/-! ## Names -/

/-- The table of a program that was read from lines tells names apart by every letter: it has
the names as they were spelled, a name finds the symbol that is spelled the same and no other, it
is free as long as no symbol is spelled the same, and defining another name changes none of this. -/
structure Program.ToldApart (p : Program) (ls : List SourceLine) : Prop where
  names_eq : p.symbols.names = (ls.flatMap SourceLine.definedNames).map (·.token.text)
  found : ∀ name : Token, ∀ s ∈ p.symbols.symbols, s.name = name.text →
    p.symbols.find? name.text = some s ∧ p.symbols.resolve name = .ok s.value
  missed : ∀ name : Token, (∀ s ∈ p.symbols.symbols, s.name ≠ name.text) →
    p.symbols.resolve name = .error (.undefined name) ∧
      ∀ pc, (Target.symbol name).encode p.symbols pc = .error (.fault (.undefined name))
  duplicate : ∀ (name : Token) (value : UInt8) (kind : SymbolKind), ∀ s ∈ p.symbols.symbols,
    s.name = name.text → isSymbolName name.text = true →
      p.define name value kind = .error (.atToken (Program.duplicate kind name.text s.line) name)
  free : ∀ (name : Token) (value : UInt8) (kind : SymbolKind),
    (∀ s ∈ p.symbols.symbols, s.name ≠ name.text) → isSymbolName name.text = true →
      p.define name value kind = .ok (p.withSymbol ⟨name.text, value, kind, name.line⟩)
  kept : ∀ (name other : Token) (value : UInt8) (kind : SymbolKind) (q : Program),
    other.text ≠ name.text → p.define other value kind = .ok q →
      q.symbols.find? name.text = p.symbols.find? name.text

theorem Program.toldApart_of_addLines {ls : List SourceLine} {p : Program}
    (h : empty.addLines ls = .ok p) : p.ToldApart ls := by
  have hrecords := records_of_addLines h
  have hnodup : p.symbols.names.Nodup := by
    rw [hrecords.names_eq]
    exact hrecords.distinct
  have hnone : ∀ name : Text, (∀ s ∈ p.symbols.symbols, s.name ≠ name) →
      p.symbols.find? name = none := by
    intro name hne
    rw [SymbolTable.find?_eq_none_iff, SymbolTable.names, List.mem_map]
    rintro ⟨s, hs, hname⟩
    exact hne s hs hname
  have hfind : ∀ name : Text, ∀ s ∈ p.symbols.symbols, s.name = name →
      p.symbols.find? name = some s := by
    intro name s hs hname
    exact (SymbolTable.find?_eq_some_iff hnodup).mpr ⟨hs, hname⟩
  refine ⟨hrecords.names_eq, ?_, ?_, ?_, ?_, ?_⟩
  · intro name s hs hname
    refine ⟨hfind name.text s hs hname, ?_⟩
    simp only [SymbolTable.resolve, SymbolTable.value?, hfind name.text s hs hname, Option.map_some]
  · intro name hne
    simp only [SymbolTable.resolve, Target.encode, Target.encodeWith, SymbolTable.value?,
      hnone name.text hne, Option.map_none]
    exact ⟨trivial, fun _ => trivial⟩
  · intro name value kind s hs hname hsymbol
    simp only [define, hsymbol, SymbolTable.insert, hfind name.text s hs hname, if_true]
  · intro name value kind hne hsymbol
    rw [define_eq_ok_iff, ← SymbolTable.find?_eq_none_iff]
    exact ⟨hsymbol, hnone name.text hne, rfl⟩
  · intro name other value kind q hne hq
    obtain ⟨-, -, rfl⟩ := define_eq_ok_iff.mp hq
    simp [SymbolTable.find?, withSymbol, List.find?_append, hne]

/-- A source in other letter case has the same image and the same symbols, or is refused for the
same reason at the same place. But names that are spelled differently are different names, also
if they differ in letter case only. -/
theorem letterCase_only_in_names :
    (∀ src src' : Text, CaseVariant src src' →
      Agree RomError.Alike Eq (assemble src) (assemble src') ∧
        Agree Diagnostic.Alike Eq (Program.ofSource src) (Program.ofSource src')) ∧
    ∀ (ls : List SourceLine) (p : Program), Program.empty.addLines ls = .ok p →
      p.ToldApart ls :=
  ⟨fun _ _ h => ⟨assemble_alike h, Program.ofSource_alike h⟩,
    fun _ _ h => Program.toldApart_of_addLines h⟩

/-- Two names that differ in letter case only, in a source whose mnemonics, registers, digits and
keyword are written in another way. -/
theorem letterCase_only_in_names_loop :
    let src := "loop EQU $0f ; É\r\nLOOP: ld A, loop\n\tBne LOOP\n st b,$aB".toList
    let src' := "loop eQu $0F ; É\r\nLOOP: LD a, loop\n\tbNE LOOP\n ST B,$Ab".toList
    CaseVariant src src' ∧ src ≠ src' ∧ Agree RomError.Alike Eq (assemble src) (assemble src') ∧
      ∃ p, Program.empty.addLines (allLines src) = .ok p ∧ p.ToldApart (allLines src) ∧
        p.symbols.names = ["loop".toList, "LOOP".toList] := by
  intro src src'
  have hvariant : CaseVariant src src' := by decide +kernel
  have hok : (Program.empty.addLines (allLines src)).toOption.isSome = true := by decide +kernel
  obtain ⟨p, hp⟩ : ∃ p, Program.empty.addLines (allLines src) = .ok p := by
    cases hread : Program.empty.addLines (allLines src) with
    | ok p => exact ⟨p, rfl⟩
    | error d =>
        rw [hread] at hok
        cases hok
  have htold := letterCase_only_in_names.2 (allLines src) p hp
  refine ⟨hvariant, by decide +kernel, (letterCase_only_in_names.1 src src' hvariant).1, p, hp,
    htold, ?_⟩
  rw [htold.names_eq]
  decide +kernel

end MightyAsm
