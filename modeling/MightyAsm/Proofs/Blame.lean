import MightyAsm.Proofs.Faults

/-!
# What a diagnostic points at

The span of a diagnostic covers a text on the line that the diagnostic names, and the fault
speaks about just that text. For a name that is defined again, the diagnostic also names the
line of its first definition.

* `sourceNames_pairwise_line`: definitions are listed in the order of their lines;
* `SourceLine.Blames.describes`: the faults of a line speak about the tokens to blame;
* `exists_described_of_assemble`: what the diagnostic of a source points at.
-/

namespace MightyAsm

/-- The names that the lines of a source define, in their order. -/
def sourceNames (src : Text) : List DefinedName :=
  (allLines src).flatMap SourceLine.definedNames

/-- The source defines the name twice: first on line `first`, and then where the diagnostic
points, as a symbol of the kind. -/
def Diagnostic.Repeats (d : Diagnostic) (src : Text) (kind : SymbolKind) (name : Text)
    (first : Nat) : Prop :=
  first ≤ d.line ∧ ∃ x, Redefines (sourceNames src) x ⟨⟨name, d.span, d.line⟩, kind⟩ ∧
    x.token.StandsIn src ∧ ∃ l ∈ allLines src, l.line = first ∧ x ∈ l.definedNames

/-- The text where the diagnostic points is the instruction part of its line, and the mnemonic
is the first word of it in capital letters. -/
def Diagnostic.PointsAtInstruction (d : Diagnostic) (src t mnemonic : Text) : Prop :=
  ∃ l ∈ allLines src, l.line = d.line ∧ l.instr = some ⟨t, d.span, d.line⟩ ∧ t.trim = t ∧
    t.word.upper = mnemonic

/-- The fault of a diagnostic is about the text that stands where it points. -/
def Diagnostic.Describes (d : Diagnostic) (src t : Text) : Prop :=
  match d.fault with
  | .duplicateSymbol name first => name = t ∧ d.Repeats src .const name first
  | .duplicateLabel name first => name = t ∧ d.Repeats src .label name first
  | .unknownSymbol name => name = t
  | .labelOutOfRange name _ => name = t
  | .branchOutOfRange target _ => target = t
  | .malformedOperand token => token = t
  | .tooManyOperands mnemonic => ∃ l ∈ allLines src, ∃ instr, l.line = d.line ∧
      l.instr = some instr ∧ instr.text.word.upper = mnemonic ∧
      (Instruction.ofToken instr).operands[2]? = some ⟨t, d.span, d.line⟩ ∧
      ((instr.text.afterWord.splitOn ',').map Text.trim)[2]? = some t
  | .missingOperand mnemonic => d.PointsAtInstruction src t mnemonic
  | .unsupportedMode mnemonic _ => d.PointsAtInstruction src t mnemonic

/-! ## Definitions in order -/

section Names

variable {src : Text} {x first : DefinedName} {l : SourceLine}

theorem line_of_mem_definedNames (hl : l ∈ allLines src) (hx : x ∈ l.definedNames) :
    x.token.line = l.line :=
  ((SourceLine.hasToken_of_mem_definedNames hx).standsIn hl).2

theorem sourceNames_pairwise_line (src : Text) :
    (sourceNames src).Pairwise fun x y => x.token.line ≤ y.token.line := by
  refine List.pairwise_flatMap.mpr ⟨?_, ?_⟩
  · intro l hl
    refine List.pairwise_of_forall_mem_list ?_
    intro x hx y hy
    rw [line_of_mem_definedNames hl hx, line_of_mem_definedNames hl hy]
  · refine List.Pairwise.imp_of_mem ?_ (allLines_pairwise_line src)
    intro l l' hl hl' hlt x hx y hy
    rw [line_of_mem_definedNames hl hx, line_of_mem_definedNames hl' hy]
    exact Nat.le_of_lt hlt

/-- The first definition of a name is on a line up to that of the second. -/
theorem Redefines.repeats {name : Text} {d : Diagnostic} {kind : SymbolKind}
    (h : Redefines (sourceNames src) first ⟨⟨name, d.span, d.line⟩, kind⟩) :
    d.Repeats src kind name first.token.line := by
  obtain ⟨before, between, after, hsplit, hothers⟩ := h
  have hmem : first ∈ sourceNames src := by simp [hsplit]
  obtain ⟨l, hl, hfirst⟩ := List.mem_flatMap.mp hmem
  have hlines := sourceNames_pairwise_line src
  rw [hsplit] at hlines
  have hle : first.token.line ≤ d.line :=
    (List.pairwise_cons.mp (List.pairwise_append.mp hlines).2.1).1
      ⟨⟨name, d.span, d.line⟩, kind⟩ (by simp)
  obtain ⟨hstands, hline⟩ := (SourceLine.hasToken_of_mem_definedNames hfirst).standsIn hl
  exact ⟨hle, first, ⟨before, between, after, hsplit, hothers⟩, hstands, l, hl, hline.symm, hfirst⟩

end Names

/-! ## Faults and tokens -/

section Faults

variable {src : Text} {l : SourceLine} {fault : Fault} {t token : Token}

/-- The third operand is what stands between the second comma and the third, or the end. -/
theorem Instruction.third_operand {op : Token}
    (h : (Instruction.ofToken t).operands[2]? = some op) :
    ((t.text.afterWord.splitOn ',').map Text.trim)[2]? = some op.text := by
  have hblank : ¬ t.text.afterWord.Blank := by
    intro hblank
    rw [Instruction.operands_ofToken_of_blank hblank] at h
    cases h
  rw [← Instruction.map_text_operands_ofToken hblank, List.getElem?_map, h]
  rfl

theorem Instruction.Blames.describes (h : (Instruction.ofToken t).Blames fault token)
    (hl : l ∈ allLines src) (ht : l.instr = some t) :
    (Diagnostic.atToken fault token).Describes src token.text := by
  have hline := (standsIn_of_part hl (Or.inr ht)).2
  have htrim := trim_of_instr hl ht
  cases h with
  | missing => exact ⟨l, hl, hline.symm, ht, htrim, rfl⟩
  | malformed _ => rfl
  | undefined _ => rfl
  | unsupported => exact ⟨l, hl, hline.symm, ht, htrim, rfl⟩
  | tooMany hop =>
      have hop' := ((SourceLine.HasToken.operand ht (List.mem_of_getElem? hop)).standsIn hl).2
      exact ⟨l, hl, t, hop'.symm, ht, rfl, hop, Instruction.third_operand hop⟩

theorem SourceLine.Blames.describes {before after : List SourceLine}
    (h : l.Blames (before.flatMap SourceLine.definedNames) fault token)
    (hsplit : allLines src = before ++ l :: after) :
    (Diagnostic.atToken fault token).Describes src token.text := by
  cases h with
  | malformedName _ => rfl
  | @duplicate first x hx hfirst =>
      have hnames : sourceNames src = before.flatMap SourceLine.definedNames ++
          l.definedNames ++ after.flatMap SourceLine.definedNames := by
        simp [sourceNames, hsplit]
      have hrepeats := hfirst.append (after.flatMap SourceLine.definedNames)
      rw [← hnames] at hrepeats
      obtain ⟨x, kind⟩ := x
      cases kind with
      | label => exact ⟨rfl, Redefines.repeats hrepeats⟩
      | const => exact ⟨rfl, Redefines.repeats hrepeats⟩
  | labelOutOfRange _ => rfl
  | instruction ht h => exact h.describes (by simp [hsplit]) ht

end Faults

/-! ## Sources -/

/-- The diagnostic of a source points at the text that its fault is about. -/
theorem exists_described_of_assemble {src : Text} {d : Diagnostic}
    (h : assemble src = .error (.fault d)) :
    ∃ t, d.span.Covers src d.line t ∧ d.Describes src t := by
  rcases assemble_eq_fault_iff.mp h with h | ⟨p, hp, hrom⟩
  · obtain ⟨before, l, after, q, fault, t, hsplit, -, -, rfl, hblames⟩ :=
      Program.exists_blames_of_ofSource h
    have hl : l ∈ allLines src := by simp [hsplit]
    exact ⟨t.text, (hblames.hasToken.standsIn hl).1, hblames.describes hsplit⟩
  · obtain ⟨before, s, after, hsplit, -, hd⟩ :=
      (Program.rom_eq_fault_iff (Program.ofSource_laidOut hp).inStep).mp hrom
    have hs : s ∈ p.stmts.toList := by simp [hsplit]
    cases hd with
    | @unknown name hname _ =>
        exact ⟨name.text, (Program.standsIn_of_target hp hs hname).1, rfl⟩
    | @outOfRange name _ _ hname _ _ _ =>
        exact ⟨name.text, (Program.standsIn_of_target hp hs hname).1, rfl⟩

/-- Lines that end in a carriage return, and characters of more than one byte, before a label
whose name is that of a constant. -/
theorem exists_described_of_assemble_duplicate :
    assemble "; é\r\nKEY EQU $1F ; ü\r\n\tKEY : DEC B".toList =
        .error (.fault ⟨.duplicateLabel "KEY".toList 2, 3, ⟨25, 3⟩⟩) ∧
      ∃ t, Span.Covers ⟨25, 3⟩ "; é\r\nKEY EQU $1F ; ü\r\n\tKEY : DEC B".toList 3 t ∧
        Diagnostic.Describes ⟨.duplicateLabel "KEY".toList 2, 3, ⟨25, 3⟩⟩
          "; é\r\nKEY EQU $1F ; ü\r\n\tKEY : DEC B".toList t := by
  have h : assemble "; é\r\nKEY EQU $1F ; ü\r\n\tKEY : DEC B".toList =
      .error (.fault ⟨.duplicateLabel "KEY".toList 2, 3, ⟨25, 3⟩⟩) := by decide +kernel
  exact ⟨h, exists_described_of_assemble h⟩

end MightyAsm
