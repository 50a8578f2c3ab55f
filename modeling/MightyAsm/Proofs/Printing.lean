import MightyAsm.Proofs.Listing
import MightyAsm.Proofs.Lists
import MightyAsm.Proofs.Words

/-!
# Printing listings

Commands and constants are printed in one of the ways to write them, each on a line of its
own. A source made of such lines reads back as the listing that was printed.

* `Command.spelledBy_text`: a command is spelled by its printed form;
* `ConstDef.read?_text`: a printed constant reads back;
* `sourceLines_join`: plain lines are cut out of a source as they were put in;
* `exists_listing_of_printable`: a printed source reads back.
-/

namespace MightyAsm

/-! ## Commands and constants -/

def Operand.text : Operand → Text
  | .reg r => r.name
  | .imm value => '#' :: '$' :: hexOfByte value
  | .addr value => '$' :: hexOfByte value
  | .symbol name => name
  | .here => ['*']

/-- The text of a command: one blank after the mnemonic, and none around the comma. -/
def Command.text (c : Command) : Text :=
  c.mnemonic ++ ' ' :: Text.join ',' (c.operands.map Operand.text)

def ConstDef.text (c : ConstDef) : Text :=
  c.name ++ ' ' :: 'E' :: 'Q' :: 'U' :: ' ' :: '$' :: hexOfByte c.value

/-- A command whose symbols have names that symbols may have. -/
def Command.Printable (c : Command) : Prop :=
  ∀ name, Operand.symbol name ∈ c.operands → isSymbolName name = true

theorem Operand.writtenAs_text {o : Operand}
    (h : ∀ name, o = .symbol name → isSymbolName name = true) : o.WrittenAs o.text := by
  cases o with
  | reg r => exact Register.ofText?_eq_some_iff.mp r.ofText?_name
  | imm value => exact ⟨_, rfl, hexByte?_hexOfByte value⟩
  | addr value => exact ⟨_, rfl, hexByte?_hexOfByte value⟩
  | symbol name => exact ⟨rfl, h name rfl⟩
  | here => rfl

theorem Command.Printable.writtenAs {c : Command} (h : c.Printable) :
    ∀ o ∈ c.operands, o.WrittenAs o.text := by
  intro o ho
  apply Operand.writtenAs_text
  rintro name rfl
  exact h name ho

theorem Command.Printable.forall₂_spelledBy {c : Command} (h : c.Printable) :
    List.Forall₂ Operand.SpelledBy c.operands (c.operands.map Operand.text) := by
  rw [List.forall₂_map_right_iff, List.forall₂_same]
  intro o ho
  exact ⟨[], o.text, [], Text.blank_nil, Text.blank_nil, h.writtenAs o ho, by simp⟩

theorem Command.upper_mnemonic (c : Command) : c.mnemonic.upper = c.mnemonic := by
  have hall : ∀ entry ∈ instructionSet, Text.upper entry.1 = entry.1 := by decide
  obtain ⟨op, -, hmem⟩ := c.mem_instructionSet
  exact hall _ hmem

theorem Command.spelledBy_text {c : Command} (h : c.Printable) : c.SpelledBy c.text := by
  refine ⟨c.mnemonic, [' '], c.operands.map Operand.text, c.upper_mnemonic, by simp, ?_,
    h.forall₂_spelledBy, rfl⟩
  simp only [Text.Blank, List.forall_mem_singleton]
  decide

theorem ConstDef.read?_text {c : ConstDef} (h : isIdentifier c.name = true) :
    ConstDef.read? c.text = some c := by
  have hname := isIdentChar_of_isIdentifier h
  have hblank : isBlank ' ' = true := by decide
  have hident : isIdentChar ' ' = false := by decide
  have hletters : isBlank 'E' = false ∧ isBlank 'Q' = false ∧ isBlank 'U' = false := by decide
  have hdollar : isBlank '$' = false := by decide
  have hkeyword : ConstDef.isKeyword ['E', 'Q', 'U'] = true := by decide
  simp [ConstDef.read?, ConstDef.text, List.takeWhile_append_of_pos hname,
    List.dropWhile_append_of_pos hname, hident, h, ConstDef.afterBlanks?, hblank, Text.trimStart,
    hletters, hdollar, hkeyword, ConstDef.dollarByte?, hexByte?_hexOfByte]

/-! ## Plain lines -/

/-- A line of operand characters, spaces and commas, with no blanks at its ends. -/
structure Plain (t : Text) : Prop where
  ne_nil : t ≠ []
  trim_eq : t.trim = t
  chars : ∀ c ∈ t, isOperandChar c = true ∨ c = ' ' ∨ c = ','

theorem Plain.not_mem {t : Text} (h : Plain t) {c : Char}
    (hc : (isOperandChar c || c == ' ' || c == ',') = false) : c ∉ t := by
  intro hmem
  have hchar := h.chars c hmem
  simp only [Bool.or_eq_false_iff, beq_eq_false_iff_ne] at hc
  rcases hchar with hchar | hchar | hchar
  · rw [hc.1.1] at hchar
    cases hchar
  · exact hc.1.2 hchar
  · exact hc.2 hchar

theorem plain_of_append {c : Char} {s t : Text} (hc : isOperandChar c = true) (hne : t ≠ [])
    (hs : ∀ d ∈ s, isOperandChar d = true ∨ d = ' ' ∨ d = ',')
    (ht : ∀ d ∈ t, isOperandChar d = true ∨ d = ',') : Plain (c :: s ++ t) := by
  have hblank : ∀ d ∈ t, isBlank d = false := by
    intro d hd
    rcases ht d hd with hd | rfl
    · exact isBlank_eq_false_of_isOperandChar hd
    · decide
  refine ⟨by simp, ?_, ?_⟩
  · exact Text.trim_append_of_noBlank (isBlank_eq_false_of_isOperandChar hc) s hne hblank
  · intro d hd
    simp only [List.cons_append, List.mem_cons, List.mem_append] at hd
    rcases hd with rfl | hd | hd
    · exact Or.inl hc
    · exact hs d hd
    · exact (ht d hd).imp_right Or.inr

theorem Command.Printable.plain {c : Command} (h : c.Printable) : Plain c.text := by
  have hmnemonic : ∀ ch ∈ c.mnemonic, isOperandChar ch = true := fun ch hch =>
    isOperandChar_of_isIdentStart (c.isIdentStart_mnemonic ch hch)
  have hlen := c.two_le_length_mnemonic
  cases hm : c.mnemonic with
  | nil => simp [hm] at hlen
  | cons m ms =>
      rw [hm] at hmnemonic
      have htext : c.text = m :: (ms ++ [' ']) ++ Text.join ',' (c.operands.map Operand.text) := by
        simp [Command.text, hm]
      rw [htext]
      refine plain_of_append (hmnemonic m List.mem_cons_self) ?_ ?_ ?_
      · have hjoin := two_mul_length_le_of_spelledBy h.forall₂_spelledBy
        have hpos := c.length_operands_pos
        apply List.ne_nil_of_length_pos
        omega
      · intro d hd
        rcases List.mem_append.mp hd with hd | hd
        · exact Or.inl (hmnemonic d (List.mem_cons_of_mem m hd))
        · exact Or.inr (Or.inl (List.mem_singleton.mp hd))
      · intro d hd
        rcases Text.eq_or_mem_of_mem_join hd with hd | ⟨part, hpart, hd⟩
        · exact Or.inr hd
        · obtain ⟨o, ho, rfl⟩ := List.mem_map.mp hpart
          exact Or.inl ((h.writtenAs o ho).isOperandChar d hd)

theorem ConstDef.plain_text {c : ConstDef} (h : isIdentifier c.name = true) : Plain c.text := by
  have hname := isIdentChar_of_isIdentifier h
  have hkeyword : [' ', 'E', 'Q', 'U', ' '].all (fun d => isOperandChar d || d == ' ') = true := by
    decide
  obtain ⟨n, ns, hn, -, -⟩ := isIdentifier_iff.mp h
  have htext : c.text =
      n :: (ns ++ [' ', 'E', 'Q', 'U', ' ']) ++ ('$' :: hexOfByte c.value) := by
    simp [ConstDef.text, hn]
  rw [hn] at hname
  rw [htext]
  refine plain_of_append ?_ (by simp) ?_ ?_
  · simp [isOperandChar, hname n List.mem_cons_self]
  · intro d hd
    rcases List.mem_append.mp hd with hd | hd
    · exact Or.inl (by simp [isOperandChar, hname d (List.mem_cons_of_mem n hd)])
    · have hchar := List.all_eq_true.mp hkeyword d hd
      simp only [Bool.or_eq_true, beq_iff_eq] at hchar
      exact hchar.imp_right Or.inl
  · intro d hd
    rcases List.mem_cons.mp hd with rfl | hd
    · exact Or.inl (by decide)
    · exact Or.inl (isOperandChar_of_hexByte? (hexByte?_hexOfByte c.value) d hd)

/-! ## Sources -/

/-- A plain line has no label, and all of it is its instruction part. -/
theorem SourceLine.ofFragment_of_plain {line : Nat} {f : Fragment} (h : Plain f.text) :
    (SourceLine.ofFragment line (f.dropLastChar '\r')).label = none ∧
      (SourceLine.ofFragment line (f.dropLastChar '\r')).instr.map (·.text) = some f.text := by
  let w : LineForm := ⟨none, f.text, [], by simp, h.not_mem (by decide),
    fun _ => h.not_mem (by decide), by simp [IsComment]⟩
  have hf : f = ⟨w.text, f.offs⟩ := by simp [w, LineForm.text, LineForm.front]
  rw [SourceLine.ofFragment_dropLastChar, hf, w.ofFragment_text]
  refine ⟨rfl, ?_⟩
  rw [Fragment.map_text_trimmedToken?, ← hf]
  exact Text.inner?_of_trim_eq h.ne_nil h.trim_eq

theorem allLines_join {texts : List Text} (hne : texts ≠ []) (h : ∀ t ∈ texts, Plain t) :
    List.Forall₂ (fun (l : SourceLine) t => l.label = none ∧ l.instr.map (·.text) = some t)
      (allLines (Text.join '\n' texts)) texts := by
  have hsplit : ((Fragment.mk (Text.join '\n' texts) 0).splitOn '\n').map (·.text) = texts := by
    rw [Fragment.splitOn, Fragment.map_text_layOut]
    exact Text.splitOn_join hne fun t ht => (h t ht).not_mem (by decide)
  -- Both lists are images of the numbered fragments that the source is cut into.
  rw [allLines]
  generalize (Fragment.mk (Text.join '\n' texts) 0).splitOn '\n' = fs at hsplit
  rw [← List.zipIdx_map_fst 1 fs, List.map_map] at hsplit
  subst hsplit
  rw [List.forall₂_map_left_iff, List.forall₂_map_right_iff, List.forall₂_same]
  intro x hx
  exact SourceLine.ofFragment_of_plain (h _ (List.mem_map_of_mem hx))

/-- Plain lines are cut out of a source as they were put in. -/
theorem sourceLines_join {texts : List Text} (hne : texts ≠ []) (h : ∀ t ∈ texts, Plain t) :
    List.Forall₂ (fun (l : SourceLine) t => l.label = none ∧ l.instr.map (·.text) = some t)
      (sourceLines (Text.join '\n' texts)) texts := by
  have hall := allLines_join hne h
  have hkept : sourceLines (Text.join '\n' texts) = allLines (Text.join '\n' texts) := by
    rw [sourceLines, List.filter_eq_self]
    intro l hl
    obtain ⟨t, -, ht⟩ := exists_forall₂_iff.mp ⟨texts, hall⟩ l hl
    obtain ⟨token, htoken, -⟩ := Option.map_eq_some_iff.mp ht
    simp [SourceLine.isBlankLine, htoken]
  rw [hkept]
  exact hall

/-! ## Listings -/

def EntryBody.text : EntryBody → Text
  | .blank => []
  | .constant c => c.text
  | .command c => c.text

/-- What can be printed on a line and read back. -/
def EntryBody.Printable : EntryBody → Prop
  | .blank => False
  | .constant c => isIdentifier c.name = true
  | .command c => c.Printable

theorem EntryBody.Printable.plain {b : EntryBody} (h : b.Printable) : Plain b.text := by
  cases b with
  | blank => cases h
  | constant c => exact ConstDef.plain_text h
  | command c => exact Command.Printable.plain h

theorem EntryBody.Printable.reads {b : EntryBody} (h : b.Printable) {l : SourceLine}
    (hlabel : l.label = none) (hinstr : l.instr.map (·.text) = some b.text) :
    l.Reads ⟨l.line, none, b⟩ := by
  obtain ⟨t, ht, htext⟩ := Option.map_eq_some_iff.mp hinstr
  refine ⟨rfl, by rw [hlabel, Option.map_none], ?_⟩
  cases b with
  | blank => cases h
  | constant c => exact ⟨t, ht, htext ▸ ConstDef.read?_text h⟩
  | command c => exact ⟨t, ht, htext ▸ Command.spelledBy_text h⟩

/-- Printed on lines of their own, bodies without labels read back. -/
theorem exists_listing_of_printable {bodies : List EntryBody} (hne : bodies ≠ [])
    (h : ∀ b ∈ bodies, b.Printable) :
    ∃ es : Listing, es.map (·.body) = bodies ∧ (∀ e ∈ es, e.label = none) ∧
      List.Forall₂ SourceLine.Reads
        (sourceLines (Text.join '\n' (bodies.map EntryBody.text))) es := by
  have hlines := @sourceLines_join (bodies.map EntryBody.text) (by simpa using hne)
    (by simpa using fun b hb => (h b hb).plain)
  rw [List.forall₂_map_right_iff] at hlines
  generalize sourceLines (Text.join '\n' (bodies.map EntryBody.text)) = ls at hlines
  clear hne
  induction hlines with
  | nil => exact ⟨[], rfl, by simp, List.Forall₂.nil⟩
  | @cons l b ls bodies hl _ ih =>
      obtain ⟨es, hbodies, hlabels, hreads⟩ := ih fun b' hb' => h b' (List.mem_cons_of_mem b hb')
      have hread := (h b List.mem_cons_self).reads hl.1 hl.2
      refine ⟨⟨l.line, none, b⟩ :: es, by rw [List.map_cons, hbodies], ?_,
        List.Forall₂.cons hread hreads⟩
      simpa using hlabels

end MightyAsm
