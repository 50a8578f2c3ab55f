import MightyAsm.Proofs.Branches
import MightyAsm.Proofs.Encoding
import MightyAsm.Proofs.Numbering

/-!
# Appending to a source

Reading goes through the lines of a source in order and only appends to the program. What a
source means is therefore the beginning of what any longer source means, statements and
symbols alike, and so is its image: a branch is resolved against the completed table, but
the symbols that are added to the table leave the others as they are.

* `Program.ofSource_eq_addLines`: blank lines may be read like all others;
* `Program.ofSource_join_take`: reading the first lines of a source;
* `Program.Begins`: a program that begins with another one, kept by each line;
* `Program.begins_of_ofSource_append`: a longer source continues the program and its image.
-/

namespace MightyAsm

namespace Program

variable {p q : Program} {l : SourceLine}

/-! ## Reading all lines -/

theorem addLine_of_isBlankLine (h : l.isBlankLine = true) : p.addLine l = .ok p := by
  simp only [SourceLine.isBlankLine, Bool.and_eq_true, Option.isNone_iff_eq_none] at h
  rw [addLine_of_blank h.2, h.1]
  rfl

theorem addLines_append (p : Program) (ls ls' : List SourceLine) :
    p.addLines (ls ++ ls') = p.addLines ls >>= fun q => q.addLines ls' :=
  List.foldlM_append

theorem addLines_filter (p : Program) (ls : List SourceLine) :
    p.addLines (ls.filter fun l => !l.isBlankLine) = p.addLines ls := by
  induction ls generalizing p with
  | nil => rfl
  | cons l ls ih =>
      by_cases hblank : l.isBlankLine = true
      · rw [List.filter_cons_of_neg (by simp [hblank]), ih, addLines, addLines, List.foldlM_cons,
          addLine_of_isBlankLine hblank]
        rfl
      · rw [List.filter_cons_of_pos (by simp [hblank]), addLines, addLines, List.foldlM_cons,
          List.foldlM_cons]
        exact congrArg _ (funext ih)

/-- Blank lines change nothing, so that all lines of a source may be read. -/
theorem ofSource_eq_addLines (src : Text) : ofSource src = empty.addLines (allLines src) :=
  addLines_filter empty (allLines src)

/-- Text after a further line feed is read on from where the source ends. -/
theorem ofSource_append (src more : Text) :
    ofSource (src ++ '\n' :: more) = ofSource src >>= fun p =>
      p.addLines (linesFrom (src.count '\n' + 2) (src.byteSize + 1) (more.splitOn '\n')) := by
  rw [ofSource_eq_addLines, ofSource_eq_addLines, allLines_append, addLines_append]

theorem ofSource_append_eq (src more : Text) :
    ∃ rest, ofSource (src ++ '\n' :: more) = ofSource src >>= fun p => p.addLines rest :=
  ⟨_, ofSource_append src more⟩

/-- Reading the first lines of a source, none of them included. -/
theorem ofSource_join_take (src : Text) (k : Nat) :
    ofSource (Text.join '\n' ((src.splitOn '\n').take k)) =
      empty.addLines ((allLines src).take k) := by
  cases k with
  | zero => rfl
  | succ k => rw [ofSource_eq_addLines, allLines_join_take (Nat.succ_ne_zero k)]

/-! ## Beginnings -/

/-- A program that begins with the statements and the symbols of another one. -/
structure Begins (p q : Program) : Prop where
  stmts : p.stmts.toList <+: q.stmts.toList
  symbols : p.symbols.symbols <+: q.symbols.symbols

theorem Begins.refl (p : Program) : p.Begins p :=
  ⟨List.prefix_refl _, List.prefix_refl _⟩

theorem Begins.trans {r : Program} (hpq : p.Begins q) (hqr : q.Begins r) : p.Begins r :=
  ⟨hpq.stmts.trans hqr.stmts, hpq.symbols.trans hqr.symbols⟩

theorem begins_withSymbol (p : Program) (s : Symbol) : p.Begins (p.withSymbol s) :=
  ⟨List.prefix_refl _, List.prefix_append _ _⟩

theorem begins_of_addLabel? {label : Option Token} (h : p.addLabel? label = .ok q) :
    p.Begins q := by
  cases label with
  | none =>
      cases addLabel?_none_eq_ok_iff.mp h
      exact .refl p
  | some label =>
      obtain ⟨-, -, -, rfl⟩ := addLabel?_some_eq_ok_iff.mp h
      exact p.begins_withSymbol _

theorem begins_of_addLine (h : p.addLine l = .ok q) : p.Begins q := by
  cases ht : l.instr with
  | none =>
      rw [addLine_of_blank ht] at h
      exact begins_of_addLabel? h
  | some t =>
      cases hc : ConstDef.read? t.text with
      | some c =>
          obtain ⟨-, -, h⟩ := (addLine_of_constant_eq_ok_iff ht hc).mp h
          exact (p.begins_withSymbol _).trans (begins_of_addLabel? h)
      | none =>
          obtain ⟨r, op, operands, hr, -, rfl⟩ := (addLine_of_instruction_eq_ok_iff ht hc).mp h
          have hpush : r.Begins { r with stmts := r.stmts.push ⟨l.line, r.size, op, operands⟩
                                         size := r.size + op.size } :=
            ⟨by simp, List.prefix_refl _⟩
          exact (begins_of_addLabel? hr).trans hpush

theorem begins_of_addLines {ls : List SourceLine} (h : p.addLines ls = .ok q) : p.Begins q :=
  @addLines_induction p q (fun _ r => p.Begins r)
    (fun _ _ _ _ hbegins hstep => hbegins.trans (begins_of_addLine hstep)) [] ls (.refl p) h

/-! ## Images -/

theorem Begins.bytes_eq {s : Statement} {chunk : List UInt8} (h : p.Begins q)
    (hs : s.bytes p.symbols = .ok chunk) : s.bytes q.symbols = .ok chunk := by
  obtain ⟨new, hnew⟩ := h.symbols
  exact Statement.bytes_append hnew.symm hs

/-- Encoding the first statements of a longer program, with the longer table. -/
theorem Begins.rom_upTo {rom : Array UInt8} (h : p.Begins q) (hstep : InStep 0 q.stmts.toList)
    (hrom : p.rom = .ok rom) : (q.upTo p.stmts.size).rom = .ok rom := by
  obtain ⟨new, hnew⟩ := h.stmts
  rw [← hnew, InStep.append_iff] at hstep
  obtain ⟨chunks, hchunks, hflat⟩ := (rom_eq_ok_iff hstep.1).mp hrom
  have htake : (q.upTo p.stmts.size).stmts.toList = p.stmts.toList := by
    simp [upTo, ← hnew]
  refine (rom_eq_ok_iff (htake ▸ hstep.1)).mpr ⟨chunks, ?_, hflat⟩
  rw [htake]
  exact hchunks.imp fun s chunk hs => h.bytes_eq hs

theorem rom_upTo_prefix {rom rom' : Array UInt8} {n : Nat} (hstep : InStep 0 p.stmts.toList)
    (h : (p.upTo n).rom = .ok rom) (h' : p.rom = .ok rom') : rom.toList <+: rom'.toList := by
  obtain ⟨chunks', hchunks', hflat'⟩ := (rom_eq_ok_iff hstep).mp h'
  have htake : (p.upTo n).stmts.toList = p.stmts.toList.take n := by simp [upTo]
  rw [← List.take_append_drop n p.stmts.toList] at hstep hchunks'
  rw [InStep.append_iff, ← htake] at hstep
  obtain ⟨chunks, hchunks, hflat⟩ := (rom_eq_ok_iff hstep.1).mp h
  obtain ⟨us, vs, rfl, hus, -⟩ := forall₂_append_left hchunks'
  have heq : chunks = us := by
    rw [← htake] at hus
    exact Except.ok.inj ((mapM_eq_ok_iff.mpr hchunks).symm.trans (mapM_eq_ok_iff.mpr hus))
  rw [hflat, hflat', heq, List.flatten_append]
  exact List.prefix_append _ _

/-- What a source means is continued when a line feed and any text are appended: statements
and symbols stay as they are, no branch fails that was encoded before, and the image goes
on where it ended. -/
theorem begins_of_ofSource_append {src more : Text} {q : Program}
    (h : ofSource (src ++ '\n' :: more) = .ok q) :
    ∃ p, ofSource src = .ok p ∧ p.Begins q ∧ ∀ rom, assemble src = .ok rom →
      (∀ s ∈ p.stmts.toList, s.Reaches q.symbols) ∧ (q.upTo p.stmts.size).rom = .ok rom ∧
      ∀ rom', assemble (src ++ '\n' :: more) = .ok rom' → rom.toList <+: rom'.toList := by
  have hstep := (ofSource_laidOut h).inStep
  obtain ⟨rest, hrest⟩ := ofSource_append_eq src more
  rw [hrest] at h
  obtain ⟨p, hp, hq⟩ := bind_eq_ok_iff.mp h
  have hbegins := begins_of_addLines hq
  refine ⟨p, hp, hbegins, ?_⟩
  intro rom hassemble
  obtain ⟨p', hp', hrom⟩ := assemble_eq_ok_iff.mp hassemble
  rw [hp] at hp'
  cases hp'
  have hupTo := hbegins.rom_upTo hstep hrom
  refine ⟨?_, hupTo, ?_⟩
  · intro s hs
    obtain ⟨chunks, hchunks, -⟩ := (rom_eq_ok_iff (ofSource_laidOut hp).inStep).mp hrom
    obtain ⟨chunk, hchunk⟩ := exists_forall₂_iff.mp ⟨chunks, hchunks⟩ s hs
    exact Statement.exists_bytes_iff.mp ⟨chunk, hbegins.bytes_eq hchunk⟩
  · intro rom' hassemble'
    obtain ⟨q', hq', hrom'⟩ := assemble_eq_ok_iff.mp hassemble'
    rw [hrest, h] at hq'
    cases hq'
    exact rom_upTo_prefix hstep hupTo hrom'

/-- The table of the longer source has one symbol more when the first branch is resolved. -/
theorem begins_of_ofSource_append_branch :
    ∃ p q, ofSource "BNE end\nINC A\nend:".toList = .ok p ∧
      ofSource ("BNE end\nINC A\nend:".toList ++ '\n' :: "loop: ST B, end\nBRA loop".toList) =
        .ok q ∧
      p.Begins q ∧ assemble "BNE end\nINC A\nend:".toList = .ok #[0x23, 0x03, 0xA0, 0x00] ∧
      (q.upTo p.stmts.size).rom = .ok #[0x23, 0x03, 0xA0, 0x00] := by
  obtain ⟨q, hq⟩ : ∃ q, ofSource ("BNE end\nINC A\nend:".toList ++
      '\n' :: "loop: ST B, end\nBRA loop".toList) = .ok q := ⟨_, rfl⟩
  have hrom : assemble "BNE end\nINC A\nend:".toList = .ok #[0x23, 0x03, 0xA0, 0x00] := by
    decide +kernel
  obtain ⟨p, hp, hbegins, himage⟩ := begins_of_ofSource_append hq
  exact ⟨p, q, hp, hq, hbegins, hrom, (himage _ hrom).2.1⟩

end Program

end MightyAsm
