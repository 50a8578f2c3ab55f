import MightyAsm.Proofs.LetterCase
import MightyAsm.Proofs.OneLine
import MightyAsm.Proofs.TokenOrder

/-!
# Literals in place of symbols

A load or a store may write its address as a symbol or as a literal byte. If the name of a
symbol is replaced by the two digits of its value where it stands, the line is read into the
same statement, and nothing else changes: the source has the same symbols and the same image.

* `hexByte?_of_upper`: digits of either letter case are read as the same byte;
* `Instruction.exists_of_resolve_symbol`, `Instruction.resolve_literal`: a symbol and its value
  resolve to the same operands;
* `Program.Matches.addLine_literal`: what a line does with either of them;
* `Instruction.exists_second_operand`: where the second of two operands stands;
* `exists_oneLineChanged`: a source with another second operand on one of its lines;
* `assemble_replace_literal`: the source with the literal in place of the symbol.
-/

namespace MightyAsm

/-! ## Digits of either letter case -/

theorem hexDigit?_toUpper (c : Char) : hexDigit? c.toUpper = hexDigit? c :=
  apply_toUpper (by decide) c

theorem hexByte?_upper (t : Text) : hexByte? t.upper = hexByte? t := by
  match t with
  | [] => rfl
  | [low] => simp only [Text.upper, List.map, hexByte?, hexDigit?_toUpper]
  | [high, low] => simp only [Text.upper, List.map, hexByte?, hexDigit?_toUpper]
  | _ :: _ :: _ :: _ => rfl

theorem hexByte?_of_upper {digits : Text} {value : UInt8}
    (h : digits.upper = hexOfByte value) : hexByte? digits = some value := by
  rw [← hexByte?_upper, h, hexByte?_hexOfByte]

theorem Operand.writtenAs_literal {digits : Text} {value : UInt8}
    (h : digits.upper = hexOfByte value) : (Operand.addr value).WrittenAs ('$' :: digits) :=
  ⟨digits, rfl, hexByte?_of_upper h⟩

/-! ## Instructions -/

section Instructions

variable {i : Instruction} {first op : Token} {symbols : SymbolTable} {r : Register}
  {opcode : Opcode}

/-- An instruction with a register and a symbol takes the value of the symbol as its address. -/
theorem Instruction.exists_of_resolve_symbol (hops : i.operands = [first, op])
    (hname : isSymbolName op.text = true) {operands : Operands}
    (h : i.resolve symbols = .ok (opcode, operands)) :
    ∃ (r : Register) (value : UInt8), Operand.ofText? first.text = some (.reg r) ∧
      symbols.value? op.text = some value ∧ opcode? i.key .direct = some opcode ∧
      operands = .regAddr r value := by
  have hop : Operand.ofText? op.text = some (.symbol op.text) :=
    Operand.ofText?_eq_symbol_iff.mpr ⟨rfl, hname⟩
  simp only [Instruction.resolve, hops] at h
  obtain ⟨o, hread, hfit⟩ := bind_eq_ok_iff.mp h
  unfold Operands.ofTwo at hread
  split at hread
  · rename_i r hr
    simp only [hop] at hread
    obtain ⟨value, hvalue, rfl⟩ := map_eq_ok_iff.mp hread
    obtain ⟨_, hopcode, -, heq⟩ := Instruction.fit_eq_ok_iff.mp hfit
    cases heq
    exact ⟨r, value, hr, SymbolTable.resolve_eq_ok_iff.mp hvalue, hopcode, rfl⟩
  · cases hread

/-- So does an instruction with the value itself. -/
theorem Instruction.resolve_literal {value : UInt8} (hops : i.operands = [first, op])
    (hfirst : Operand.ofText? first.text = some (.reg r))
    (hop : Operand.ofText? op.text = some (.addr value))
    (hopcode : opcode? i.key .direct = some opcode) :
    i.resolve symbols = .ok (opcode, .regAddr r value) := by
  simp only [Instruction.resolve, hops, Operands.ofTwo, hfirst, hop]
  exact Instruction.fit_eq_ok_iff.mpr ⟨opcode, hopcode, rfl, rfl⟩

end Instructions

/-! ## Lines -/

theorem SourceLine.exists_instruction {l : SourceLine} {m a b : Text}
    (h : l.words.body = .instruction m [a, b]) :
    ∃ i first op, l.body = .instruction i ∧ i.mnemonic.text = m ∧ i.operands = [first, op] ∧
      first.text = a ∧ op.text = b := by
  rw [SourceLine.words] at h
  cases hbody : l.body with
  | blank =>
      rw [hbody] at h
      cases h
  | constant name value =>
      rw [hbody] at h
      cases h
  | instruction i =>
      rw [hbody] at h
      obtain ⟨hm, hops⟩ := BodyWords.instruction.inj h
      obtain ⟨first, rest, hi, hfirst, hrest⟩ := List.map_eq_cons_iff.mp hops
      obtain ⟨op, rfl, hop⟩ := List.map_eq_singleton_iff.mp hrest
      exact ⟨i, first, op, rfl, hm, hi, hfirst, hop⟩

section Programs

variable {p q q' r : Program} {l l' : SourceLine} {m a name literal : Text}

/-- A line with a register and a symbol takes the value that the symbol has in the end. -/
theorem Program.exists_of_addLine_symbol (hbody : l.words.body = .instruction m [a, name])
    (hname : isSymbolName name = true) (h : q.addLine l = .ok r) (hbegins : r.Begins p) :
    ∃ (q₁ : Program) (reg : Register) (value : UInt8) (opcode : Opcode),
      q.addLabel? l.label = .ok q₁ ∧ Operand.ofText? a = some (.reg reg) ∧
      p.symbols.value? name = some value ∧ opcode? m.upper .direct = some opcode ∧
      r = { q₁ with stmts := q₁.stmts.push ⟨l.line, q₁.size, opcode, .regAddr reg value⟩
                    size := q₁.size + opcode.size } := by
  obtain ⟨i, first, op, hi, rfl, hops, rfl, rfl⟩ := SourceLine.exists_instruction hbody
  simp only [addLine, hi] at h
  obtain ⟨q₁, hq₁, h⟩ := bind_eq_ok_iff.mp h
  obtain ⟨opcode, operands, hresolve, rfl⟩ := addInstruction_eq_ok_iff.mp h
  obtain ⟨reg, value, hreg, hvalue, hopcode, rfl⟩ :=
    Instruction.exists_of_resolve_symbol hops hname hresolve
  obtain ⟨new, hnew⟩ := hbegins.symbols
  exact ⟨q₁, reg, value, opcode, hq₁, hreg, SymbolTable.value?_append hnew.symm hvalue, hopcode,
    rfl⟩

theorem Program.addLine_of_literal {q₁ : Program} {reg : Register} {value : UInt8}
    {opcode : Opcode} (hbody : l.words.body = .instruction m [a, literal])
    (hliteral : Operand.ofText? literal = some (.addr value))
    (hq₁ : q.addLabel? l.label = .ok q₁) (hreg : Operand.ofText? a = some (.reg reg))
    (hopcode : opcode? m.upper .direct = some opcode) :
    q.addLine l =
      .ok { q₁ with stmts := q₁.stmts.push ⟨l.line, q₁.size, opcode, .regAddr reg value⟩
                    size := q₁.size + opcode.size } := by
  obtain ⟨i, first, op, hi, rfl, hops, rfl, rfl⟩ := SourceLine.exists_instruction hbody
  simp only [addLine, hi]
  exact bind_eq_ok_iff.mpr ⟨q₁, hq₁, addInstruction_eq_ok_iff.mpr
    ⟨opcode, _, Instruction.resolve_literal hops hreg hliteral hopcode, rfl⟩⟩

/-- The line with the literal does to a program what the line with the symbol does. -/
theorem Program.Matches.addLine_literal {src src' : Text} {value : UInt8}
    (h : q.Matches Eq Eq q') (hl : l ∈ allLines src) (hl' : l' ∈ allLines src')
    (hline : l.line = l'.line) (hlabel : l.words.label = l'.words.label)
    (hbody : l.words.body = .instruction m [a, name])
    (hbody' : l'.words.body = .instruction m [a, literal]) (hname : isSymbolName name = true)
    (hr : q.addLine l = .ok r) (hbegins : r.Begins p) (hvalue : p.symbols.value? name = some value)
    (hliteral : Operand.ofText? literal = some (.addr value)) :
    ∃ r', q'.addLine l' = .ok r' ∧ r.Matches Eq Eq r' := by
  obtain ⟨q₁, reg, value', opcode, hq₁, hreg, hvalue', hopcode, rfl⟩ :=
    exists_of_addLine_symbol hbody hname hr hbegins
  obtain rfl : value' = value := Option.some.inj (hvalue'.symm.trans hvalue)
  have hlabels : Option.Rel (Token.Matches Eq Eq) l.label l'.label := by
    have hsame := l.words.matches_self.label
    nth_rewrite 2 [hlabel] at hsame
    exact label_matches_of_words hline (SourceLine.line_of_label hl)
      (SourceLine.line_of_label hl') hsame
  obtain ⟨q₁', hq₁', hmatches⟩ := (h.addLabel? rewording_eq hlabels).exists_of_eq_ok hq₁
  refine ⟨_, addLine_of_literal hbody' hliteral hq₁' hreg hopcode, ?_, hmatches.symbols, ?_⟩
  · simp only [Array.toList_push]
    exact List.rel_append hmatches.stmts
      (.cons ⟨hline, hmatches.size, rfl, .same (by simp)⟩ .nil)
  · exact congrArg (· + opcode.size) hmatches.size

end Programs

/-! ## The second operand where it stands -/

/-- A text that has no character at which anything is cut. -/
def Text.Unmarked (t : Text) : Prop := ∀ c ∈ t, isMark c = false

namespace Text.Unmarked

variable {t : Text}

theorem isBlank_eq_false (h : t.Unmarked) : ∀ c ∈ t, isBlank c = false := by
  intro c hc
  have hmark := h c hc
  simp only [isMark, Bool.or_eq_false_iff] at hmark
  exact hmark.1.1.1

theorem not_mem (h : t.Unmarked) {c : Char} (hc : isMark c = true) : c ∉ t := by
  intro hmem
  rw [h c hmem] at hc
  cases hc

end Text.Unmarked

theorem Operand.WrittenAs.unmarked {o : Operand} {t : Text} (h : o.WrittenAs t) : t.Unmarked :=
  fun c hc => not_isMark_of_isOperandChar (h.isOperandChar c hc)

/-- The words of an instruction part with a comma before its last operand. -/
theorem Text.bodyWords_second {m gap a before pad after word : Text} (hne : m ≠ [])
    (hm : ∀ c ∈ m, isBlank c = false) (hgap : gap ≠ []) (hgapBlank : gap.Blank)
    (hbefore : before.Blank) (ha : ',' ∉ a) (hpad : pad.Blank) (hafter : after.Blank)
    (hword : word.Unmarked) :
    (before ++ (m ++ (gap ++ (a ++ ',' :: pad))) ++ (word ++ after)).bodyWords =
      .instruction m [a.trim, word] := by
  have hcut : before ++ (m ++ (gap ++ (a ++ ',' :: pad))) ++ (word ++ after) =
      before ++ ((m ++ ((gap ++ a) ++ ([] ++ ',' :: (pad ++ (word ++ after))))) ++ []) := by
    simp only [List.append_assoc, List.cons_append, List.nil_append, List.append_nil]
  have hfirst : Text.splitOn ',' (gap ++ a) = [gap ++ a] :=
    Text.splitOn_eq_singleton (by
      simp only [List.mem_append, not_or]
      exact ⟨Text.not_mem_of_blank Text.isBlank_comma hgapBlank, ha⟩)
  have hsecond : Text.splitOn ',' word = [word] :=
    Text.splitOn_eq_singleton (hword.not_mem (by decide))
  have htrim : Text.trim (gap ++ a) = a.trim := by
    simpa using Text.trim_pad hgapBlank Text.blank_nil a
  rw [hcut, Text.bodyWords_pad hbefore Text.blank_nil,
    Text.bodyWords_comma hne hm (Text.isBlank_head?_append hgap hgapBlank a) (by simp [hgap])
      Text.blank_nil hpad,
    Text.map_trim_splitOn_append Text.isBlank_comma word hafter, hfirst, hsecond]
  simp only [List.map_cons, List.map_nil, List.singleton_append, htrim,
    Text.trim_eq_self_of_noBlank hword.isBlank_eq_false]

/-- Where the second of two operands stands: after the mnemonic, the first operand and a comma,
with blanks on its two sides. -/
theorem Instruction.exists_second_operand {t first op : Token}
    (h : (ofToken t).operands = [first, op]) :
    ∃ gap a pad after : Text, gap ≠ [] ∧ gap.Blank ∧ ',' ∉ a ∧ pad.Blank ∧ after.Blank ∧
      t.text = t.text.word ++ (gap ++ (a ++ ',' :: pad)) ++ (op.text ++ after) ∧
      first.text = a.trim ∧
      op.span = ⟨t.span.offs + (t.text.word ++ (gap ++ (a ++ ',' :: pad))).byteSize,
        op.text.byteSize⟩ := by
  have hblank : ¬ t.text.afterWord.Blank := by
    intro hblank
    rw [operands_ofToken_of_blank hblank] at h
    cases h
  obtain ⟨gap, args, rest, hgap, hgapBlank, hrest, htext, hops⟩ := exists_operands_ofToken hblank
  rw [hops, Fragment.splitOn] at h
  have hlength : (args.splitOn ',').length = 2 := by
    have hcount := congrArg List.length h
    rwa [List.length_map, Fragment.length_layOut] at hcount
  obtain ⟨a, b, hparts⟩ := List.length_eq_two.mp hlength
  have hargs : args = a ++ ',' :: b := by
    rw [← Text.join_splitOn ',' args, hparts]
    rfl
  have hcomma : ',' ∉ a := Text.not_mem_of_mem_splitOn (by rw [hparts]; exact List.mem_cons_self)
  obtain ⟨pad, tail, hpad, htail, hb, htrim⟩ := (Fragment.mk b
    (t.span.offs + t.text.word.byteSize + gap.byteSize + a.byteSize + ','.utf8Size)).exists_trim
  rw [hparts] at h
  simp only [Fragment.layOut, List.map_cons, List.map_nil, List.cons.injEq, and_true, htrim] at h
  obtain ⟨rfl, rfl⟩ := h
  refine ⟨gap, a, pad, tail ++ rest, hgap, hgapBlank, hcomma, hpad,
    Text.blank_append.mpr ⟨htail, hrest⟩, ?_, rfl, ?_⟩
  · calc t.text = t.text.word ++ (gap ++ ((a ++ ',' :: b) ++ rest)) := by rw [← hargs, ← htext]
      _ = t.text.word ++ (gap ++ ((a ++ ',' :: (pad ++ (b.trim ++ tail))) ++ rest)) :=
        congrArg (fun u => t.text.word ++ (gap ++ ((a ++ ',' :: u) ++ rest))) hb
      _ = _ := by simp only [Fragment.token, List.append_assoc, List.cons_append]
  · simp only [Fragment.token, Fragment.span, Span.mk.injEq, Text.byteSize_append,
      Text.byteSize_cons, and_true]
    omega

/-- The second of two operands can be replaced where it stands in an instruction part. -/
theorem Fragment.exists_replace_second {f : Fragment} {line : Nat} {t first op : Token}
    (ht : f.trimmedToken? line = some t)
    (hops : (Instruction.ofToken t).operands = [first, op]) :
    ∃ x y : Text, f.text = x ++ (op.text ++ y) ∧
      op.span = ⟨f.offs + x.byteSize, op.text.byteSize⟩ ∧
      ∀ word : Text, word.Unmarked → (x ++ (word ++ y)).bodyWords =
        .instruction (Instruction.ofToken t).mnemonic.text [first.text, word] := by
  obtain ⟨before, after, hbefore, hafter, hf, htrim⟩ := f.exists_trim
  have htoken := Fragment.eq_of_trimmedToken? ht
  have htext : t.text = f.text.trim := congrArg Token.text htoken
  have hoffs : t.span.offs = f.offs + before.byteSize := by
    rw [htoken, htrim]
    rfl
  obtain ⟨gap, a, pad, rest, hgap, hgapBlank, hcomma, hpad, hrest, hsplit, hfirst, hspan⟩ :=
    Instruction.exists_second_operand hops
  refine ⟨before ++ (t.text.word ++ (gap ++ (a ++ ',' :: pad))), rest ++ after, ?_, ?_, ?_⟩
  · calc f.text = before ++ (t.text ++ after) := by rw [htext]; exact hf
      _ = before ++ (t.text.word ++ (gap ++ (a ++ ',' :: pad)) ++ (op.text ++ rest) ++ after) := by
        rw [← hsplit]
      _ = _ := by simp only [List.append_assoc]
  · rw [hspan, hoffs, Text.byteSize_append before, Nat.add_assoc]
  · intro word hword
    have hne : t.text ≠ [] := by
      rw [hsplit]
      simp
    have htrimmed : t.text.trim = t.text := by rw [htext, Text.trim_trim]
    rw [hfirst]
    exact Text.bodyWords_second (Text.word_ne_nil hne htrimmed) t.text.isBlank_of_mem_word hgap
      hgapBlank hbefore hcomma hpad (Text.blank_append.mpr ⟨hrest, hafter⟩) hword

/-- The second of two operands can be replaced where it stands on a line. -/
theorem SourceLine.exists_replace_second {line offs : Nat} {text : Text} {t first op : Token}
    (ht : (ofFragment line ⟨text, offs⟩).instr = some t)
    (hops : (Instruction.ofToken t).operands = [first, op]) :
    ∃ x y : Text, text = x ++ (op.text ++ y) ∧
      op.span = ⟨offs + x.byteSize, op.text.byteSize⟩ ∧
      ∀ word : Text, word.Unmarked → (x ++ (word ++ y)).lineWords = ⟨text.lineWords.label,
        .instruction (Instruction.ofToken t).mnemonic.text [first.text, word]⟩ := by
  obtain ⟨w, rfl⟩ := exists_lineForm text
  rw [w.ofFragment_text] at ht
  obtain ⟨x, y, hbody, hspan, hwords⟩ := Fragment.exists_replace_second ht hops
  refine ⟨w.front ++ x, y ++ w.comment, ?_, ?_, ?_⟩
  · rw [LineForm.text, show w.body = x ++ (op.text ++ y) from hbody]
    simp only [List.append_assoc]
  · rw [hspan, Text.byteSize_append, Nat.add_assoc]
  · intro word hword
    have hnot : ∀ {c : Char}, isMark c = true → c ∉ w.body → c ∉ x ++ (word ++ y) := by
      intro c hc hmem
      rw [show w.body = x ++ (op.text ++ y) from hbody] at hmem
      simp only [List.mem_append, not_or] at hmem ⊢
      exact ⟨hmem.1, hword.not_mem hc, hmem.2.2⟩
    let w' : LineForm := ⟨w.label, x ++ (word ++ y), w.comment, w.not_mem_label,
      hnot (by decide) w.not_mem_body, fun hnone => hnot (by decide) (w.colon hnone), w.isComment⟩
    have htext : w.front ++ x ++ (word ++ (y ++ w.comment)) = w'.text := by
      show _ = w.front ++ ((x ++ (word ++ y)) ++ w.comment)
      simp only [List.append_assoc]
    rw [htext, w'.lineWords_text, w.lineWords_text]
    exact congrArg (LineWords.mk (w.label.bind Text.inner?)) (hwords word hword)

/-! ## Sources -/

/-- A source with another text in place of what a span covers. -/
def Span.replace (s : Span) (new src : Text) : Text :=
  src.takeBytes s.offs ++ (new ++ src.dropBytes s.stop)

theorem Span.replace_append (before t after new : Text) :
    Span.replace ⟨before.byteSize, t.byteSize⟩ new (before ++ (t ++ after)) =
      before ++ (new ++ after) := by
  have hdrop : (before ++ (t ++ after)).dropBytes (before.byteSize + t.byteSize) = after := by
    rw [← Text.byteSize_append, ← List.append_assoc, Text.dropBytes_append]
  rw [Span.replace, Span.stop, Text.takeBytes_append, hdrop]

/-- Replacing the second operand of a line of a source changes that operand and nothing else. -/
theorem exists_oneLineChanged {src : Text} {l : SourceLine} {t first op : Token}
    (hl : l ∈ allLines src) (ht : l.instr = some t)
    (hops : (Instruction.ofToken t).operands = [first, op]) :
    ∃ before x y after label, l = lineAfter before (x ++ (op.text ++ y)) ∧
      ∀ word : Text, word.Unmarked →
        OneLineChanged src (op.span.replace word src) before (x ++ (op.text ++ y))
          (x ++ (word ++ y)) after ∧
        (x ++ (word ++ y)).lineWords = ⟨label, .instruction
          (Instruction.ofToken t).mnemonic.text [first.text, word]⟩ := by
  obtain ⟨before, text, after, hsplit, rfl⟩ := exists_lineAfter_of_mem hl
  obtain ⟨x, y, rfl, hspan, hwords⟩ := SourceLine.exists_replace_second ht hops
  refine ⟨before, x, y, after, (x ++ (op.text ++ y)).lineWords.label, rfl, ?_⟩
  intro word hword
  have hsrc : src =
      (Text.ended '\n' before ++ x) ++ (op.text ++ (y ++ Text.begun '\n' after)) := by
    rw [← Text.join_splitOn '\n' src, hsplit, Text.join_append_cons]
    simp only [List.append_assoc]
  have hreplace : op.span.replace word src =
      Text.ended '\n' before ++ ((x ++ (word ++ y)) ++ Text.begun '\n' after) := by
    rw [hspan, ← Text.byteSize_append, hsrc, Span.replace_append]
    simp only [List.append_assoc]
  have hfeed : '\n' ∉ x ++ (word ++ y) := by
    have hline : '\n' ∉ x ++ (op.text ++ y) :=
      Text.not_mem_of_mem_splitOn (by rw [hsplit]; simp)
    simp only [List.mem_append, not_or] at hline ⊢
    exact ⟨hline.1, hword.not_mem (by decide), hline.2.2⟩
  refine ⟨?_, hwords word hword⟩
  rw [hreplace]
  exact .of_append hsplit hfeed

/-- A symbol may be replaced by its value. In a source that has an image, a line with a symbol
as its second operand loads or stores a register, and if the bytes of the symbol are replaced by
a dollar sign and the two digits of its value, in any letter case, the source has the same image
and the same symbols. -/
theorem assemble_replace_literal {src : Text} {rom : Array UInt8} {p : Program} {l : SourceLine}
    {t first op : Token} (hrom : assemble src = .ok rom) (hp : Program.ofSource src = .ok p)
    (hl : l ∈ allLines src) (ht : l.instr = some t)
    (hops : (Instruction.ofToken t).operands = [first, op])
    (hname : isSymbolName op.text = true) :
    ∃ (m : MemoryOp) (value : UInt8), (Instruction.ofToken t).key = m.name ∧
      p.symbols.value? op.text = some value ∧
      ∀ digits : Text, digits.upper = hexOfByte value →
        assemble (op.span.replace ('$' :: digits) src) = .ok rom ∧
        ∃ p', Program.ofSource (op.span.replace ('$' :: digits) src) = .ok p' ∧
          p'.symbols = p.symbols := by
  have hsymbol : (Operand.symbol op.text).WrittenAs op.text := ⟨rfl, hname⟩
  obtain ⟨before, x, y, after, label, rfl, hreplace⟩ := exists_oneLineChanged hl ht hops
  have hwords : ∀ word : Text, word.Unmarked → (lineAfter before (x ++ (word ++ y))).words =
      ⟨label, .instruction (Instruction.ofToken t).mnemonic.text [first.text, word]⟩ :=
    fun word hword => (SourceLine.words_ofFragment _ _).trans (hreplace word hword).2
  have hbody := congrArg LineWords.body (hwords op.text hsymbol.unmarked)
  have hrun := hp
  rw [Program.ofSource_eq_addLines,
    allLines_of_splitOn (hreplace op.text hsymbol.unmarked).1.splitOn_eq,
    Program.addLines_append] at hrun
  obtain ⟨q, -, hrun⟩ := bind_eq_ok_iff.mp hrun
  obtain ⟨r, hr, hrun⟩ := Program.addLines_cons.mp hrun
  obtain ⟨-, -, value, opcode, -, -, hvalue, hopcode, -⟩ :=
    Program.exists_of_addLine_symbol hbody hname hr (Program.begins_of_addLines hrun)
  obtain ⟨m, hkey⟩ := exists_memoryOp hopcode
  refine ⟨m, value, hkey, hvalue, ?_⟩
  intro digits hdigits
  have hliteral := Operand.writtenAs_literal hdigits
  obtain ⟨hchanged, -⟩ := hreplace _ hliteral.unmarked
  have hwords' := hwords _ hliteral.unmarked
  have hl' : lineAfter before (x ++ ('$' :: digits ++ y)) ∈
      allLines (op.span.replace ('$' :: digits) src) := by
    rw [allLines_of_splitOn hchanged.splitOn_eq']
    simp
  obtain ⟨p', hp', hmatches⟩ := hchanged.exists_matches hp fun q r q' hr hbegins hqq' =>
    hqq'.addLine_literal hl hl' (by rw [line_lineAfter, line_lineAfter])
      (by rw [hwords op.text hsymbol.unmarked, hwords']) hbody (congrArg LineWords.body hwords')
      hname hr hbegins hvalue (Operand.ofText?_of_writtenAs hliteral)
  exact ⟨hmatches.assemble_eq hp hp' hrom, p', hp', hmatches.symbols.eq⟩

/-- A constant in a load, replaced by its value with small digits. -/
theorem assemble_replace_literal_key :
    ∃ p, Program.ofSource "KEY EQU $F\nLD B , KEY ;".toList = .ok p ∧
      assemble "KEY EQU $F\nLD B , KEY ;".toList = .ok #[0x81, 1, 0x0F] ∧
      assemble "KEY EQU $F\nLD B , $0f ;".toList = .ok #[0x81, 1, 0x0F] ∧
      ∃ p', Program.ofSource "KEY EQU $F\nLD B , $0f ;".toList = .ok p' ∧
        p'.symbols = p.symbols := by
  obtain ⟨p, hp, hvalue⟩ : ∃ p, Program.ofSource "KEY EQU $F\nLD B , KEY ;".toList = .ok p ∧
      p.symbols.value? "KEY".toList = some 0x0F := ⟨_, rfl, rfl⟩
  have hrom : assemble "KEY EQU $F\nLD B , KEY ;".toList = .ok #[0x81, 1, 0x0F] := by
    decide +kernel
  let load : Token := ⟨"LD B , KEY".toList, ⟨11, 10⟩, 2⟩
  let key : Token := ⟨"KEY".toList, ⟨18, 3⟩, 2⟩
  have hline : ⟨2, none, some load⟩ ∈ allLines "KEY EQU $F\nLD B , KEY ;".toList := by decide
  have hops : (Instruction.ofToken load).operands = [⟨"B".toList, ⟨14, 1⟩, 2⟩, key] := by decide
  obtain ⟨m, value, -, hfinal, hreplace⟩ :=
    assemble_replace_literal hrom hp hline rfl hops (by decide)
  obtain rfl : value = 0x0F := Option.some.inj (hfinal.symm.trans hvalue)
  have hedit : key.span.replace ('$' :: "0f".toList) "KEY EQU $F\nLD B , KEY ;".toList =
      "KEY EQU $F\nLD B , $0f ;".toList := by decide
  have hliteral := hreplace "0f".toList (by decide)
  rw [hedit] at hliteral
  exact ⟨p, hp, hrom, hliteral⟩

end MightyAsm
