import MightyAsm.Program.Basic
import MightyAsm.Proofs.Command
import MightyAsm.Proofs.Numbering

/-!
# The words of a line

What a line says depends on its words only: on the label, and on the constant that it defines
or the mnemonic and the operands that it has. Where the words stand does not matter, and
neither do the blanks and the comment around them.

* `LineForm`: a line in the parts that it is cut into;
* `LineForm.ofFragment_text`: label and instruction part are cut out of a line just there;
* `SourceLine.ofFragment_dropLastChar`: a carriage return at the end of a line is a blank;
* `SourceLine.words_ofFragment`: the words of a line do not depend on its place;
* `map_words_allLines`: the words of a source are those of its lines.
-/

namespace MightyAsm

/-! ## Lines in parts -/

/-- The texts that may follow what is read of a line: none, or a semicolon and a comment. -/
def IsComment (t : Text) : Prop := ∀ c ∈ t.head?, c = ';'

theorem IsComment.append {t : Text} (h : IsComment t) (hne : t ≠ []) (more : Text) :
    IsComment (t ++ more) := by
  cases t with
  | nil => exact absurd rfl hne
  | cons c t => exact h

/-- A line in its parts: what stands before the first colon, if there is one before the
comment, what stands after it, and the comment. -/
structure LineForm where
  label : Option Text
  body : Text
  comment : Text
  not_mem_label : ∀ t ∈ label, ';' ∉ t ∧ ':' ∉ t
  not_mem_body : ';' ∉ body
  colon : label = none → ':' ∉ body
  isComment : IsComment comment

namespace LineForm

/-- The line before its body. -/
def front (w : LineForm) : Text :=
  match w.label with
  | none => []
  | some t => t ++ [':']

def text (w : LineForm) : Text := w.front ++ (w.body ++ w.comment)

theorem not_mem_front (w : LineForm) : ';' ∉ w.front := by
  unfold front
  cases h : w.label with
  | none => simp
  | some t => simp [(w.not_mem_label t h).1]

end LineForm

theorem Text.span_ne_append {sep : Char} {t rest : Text} (ht : sep ∉ t)
    (hrest : ∀ c ∈ rest.head?, c = sep) :
    (t ++ rest).takeWhile (· != sep) = t ∧ (t ++ rest).dropWhile (· != sep) = rest := by
  apply Text.span_append
  · intro c hc
    simp only [bne_iff_ne]
    rintro rfl
    exact ht hc
  · simpa using hrest

theorem Text.not_mem_takeWhile_ne (sep : Char) (t : Text) : sep ∉ t.takeWhile (· != sep) := by
  intro h
  have hne := List.mem_takeWhile_imp h
  simp at hne

theorem Text.head?_dropWhile_ne (sep : Char) (t : Text) :
    ∀ c ∈ (t.dropWhile (· != sep)).head?, c = sep := by
  intro c hc
  have hstop := List.head?_dropWhile_not (· != sep) t
  rw [hc] at hstop
  simpa using hstop

/-- Every line can be cut into its parts. -/
theorem exists_lineForm (t : Text) : ∃ w : LineForm, w.text = t := by
  have hcode := Text.not_mem_takeWhile_ne ';' t
  have hcomment : IsComment (t.dropWhile (· != ';')) := Text.head?_dropWhile_ne ';' t
  have ht : t.takeWhile (· != ';') ++ t.dropWhile (· != ';') = t :=
    List.takeWhile_append_dropWhile
  generalize t.takeWhile (· != ';') = code at hcode ht
  generalize t.dropWhile (· != ';') = comment at hcomment ht
  subst ht
  cases hcut : code.dropWhile (· != ':') with
  | nil =>
      have hcolon : ':' ∉ code := by
        intro hmem
        have hne := List.dropWhile_eq_nil_iff.mp hcut ':' hmem
        simp at hne
      exact ⟨⟨none, code, comment, by simp, hcode, fun _ => hcolon, hcomment⟩, rfl⟩
  | cons c body =>
      obtain ⟨-, hsplit⟩ := Text.dropWhile_ne_eq_cons hcut
      have hlabel := Text.not_mem_takeWhile_ne ':' code
      generalize code.takeWhile (· != ':') = label at hsplit hlabel
      subst hsplit
      simp only [List.mem_append, List.mem_cons, not_or] at hcode
      exact ⟨⟨some label, body, comment, by simpa using ⟨hcode.1, hlabel⟩, hcode.2.2, by simp,
        hcomment⟩, by simp [LineForm.text, LineForm.front]⟩

/-! ## Cutting lines -/

theorem Fragment.cut?_append {sep : Char} {t : Text} (h : sep ∉ t) (rest : Text) (offs : Nat) :
    (Fragment.mk (t ++ sep :: rest) offs).cut? sep =
      some (⟨t, offs⟩, ⟨rest, offs + t.byteSize + sep.utf8Size⟩) := by
  obtain ⟨htake, hdrop⟩ := @Text.span_ne_append sep t (sep :: rest) h (by simp)
  simp only [Fragment.cut?, Fragment.takeWhile, htake, hdrop]

theorem Fragment.cut?_eq_none {sep : Char} {f : Fragment} (h : sep ∉ f.text) :
    f.cut? sep = none := by
  obtain ⟨-, hdrop⟩ := @Text.span_ne_append sep f.text [] h (by simp)
  rw [List.append_nil] at hdrop
  rw [Fragment.cut?, hdrop]

theorem LineForm.takeWhile_text (w : LineForm) :
    w.text.takeWhile (· != ';') = w.front ++ w.body := by
  have hnot : ';' ∉ w.front ++ w.body := by simp [w.not_mem_front, w.not_mem_body]
  rw [LineForm.text, ← List.append_assoc, (Text.span_ne_append hnot w.isComment).1]

/-- The label is cut out of what stands before the colon, and the instruction part out of
what stands after it. -/
theorem LineForm.ofFragment_text (w : LineForm) (line offs : Nat) :
    SourceLine.ofFragment line ⟨w.text, offs⟩ =
      ⟨line, w.label.bind fun t => (Fragment.mk t offs).trimmedToken? line,
        (Fragment.mk w.body (offs + w.front.byteSize)).trimmedToken? line⟩ := by
  have hcode : (Fragment.mk w.text offs).takeWhile (· != ';') = ⟨w.front ++ w.body, offs⟩ := by
    rw [Fragment.takeWhile, w.takeWhile_text]
  unfold SourceLine.ofFragment
  dsimp only
  rw [hcode]
  cases hlabel : w.label with
  | none =>
      have hfront : w.front = [] := by simp only [LineForm.front, hlabel]
      rw [hfront, List.nil_append, Fragment.cut?_eq_none (w.colon hlabel)]
      rfl
  | some t =>
      have hfront : w.front = t ++ [':'] := by simp only [LineForm.front, hlabel]
      have hsize : ':'.utf8Size = 1 := rfl
      rw [hfront, List.append_assoc, List.singleton_append,
        Fragment.cut?_append (w.not_mem_label t hlabel).2]
      simp [hsize, Nat.add_assoc]

theorem Fragment.exists_trim (x : Fragment) :
    ∃ before after : Text, before.Blank ∧ after.Blank ∧
      x.text = before ++ (x.text.trim ++ after) ∧
      x.trim = ⟨x.text.trim, x.offs + before.byteSize⟩ := by
  obtain ⟨after, ht, hafter⟩ := Text.exists_trimEnd x.text
  refine ⟨x.text.trimEnd.takeWhile isBlank, after, ?_, hafter, ?_, rfl⟩
  · exact fun c hc => List.mem_takeWhile_imp hc
  · rw [Text.trim, Text.trimStart, ← List.append_assoc, List.takeWhile_append_dropWhile]
    exact ht

theorem Fragment.trimmedToken?_of_blank {t : Text} (h : t.Blank) (offs line : Nat) :
    (Fragment.mk t offs).trimmedToken? line = none := by
  simp only [Fragment.trimmedToken?, Fragment.text_trim, Text.trim_eq_nil_iff.mpr h]

theorem Fragment.trimmedToken?_of_not_blank {t : Text} (h : ¬ t.Blank) (offs line : Nat) :
    (Fragment.mk t offs).trimmedToken? line = some ((Fragment.mk t offs).trim.token line) := by
  unfold Fragment.trimmedToken?
  split
  · rename_i hnil
    exact absurd (Text.trim_eq_nil_iff.mp hnil) h
  · rfl

theorem Fragment.trimmedToken?_append {t after : Text} (h : after.Blank) (offs line : Nat) :
    (Fragment.mk (t ++ after) offs).trimmedToken? line =
      (Fragment.mk t offs).trimmedToken? line := by
  have htrim : (Fragment.mk (t ++ after) offs).trim = (Fragment.mk t offs).trim := by
    simp only [Fragment.trim, Text.trimEnd_append_of_blank t h]
  simp only [Fragment.trimmedToken?, htrim]

/-- A carriage return at the end of a line belongs to the comment or to the blanks around the
instruction part. -/
theorem SourceLine.ofFragment_append_return (line offs : Nat) (t : Text) :
    SourceLine.ofFragment line ⟨t ++ ['\r'], offs⟩ = SourceLine.ofFragment line ⟨t, offs⟩ := by
  obtain ⟨w, rfl⟩ := exists_lineForm t
  by_cases hcomment : w.comment = []
  · have hreturn : Text.Blank ['\r'] := by
      simp only [Text.Blank, List.forall_mem_singleton]
      decide
    let w' : LineForm := ⟨w.label, w.body ++ ['\r'], [], w.not_mem_label,
      by simp [w.not_mem_body], fun hnone => by simp [w.colon hnone], by simp [IsComment]⟩
    have htext : w.text ++ ['\r'] = w'.text := by
      simp [w', LineForm.text, LineForm.front, hcomment]
    rw [htext, w'.ofFragment_text, w.ofFragment_text, Fragment.trimmedToken?_append hreturn]
    rfl
  · let w' : LineForm := ⟨w.label, w.body, w.comment ++ ['\r'], w.not_mem_label,
      w.not_mem_body, w.colon, w.isComment.append hcomment _⟩
    have htext : w.text ++ ['\r'] = w'.text := by
      simp [w', LineForm.text, LineForm.front]
    rw [htext, w'.ofFragment_text, w.ofFragment_text]
    rfl

theorem SourceLine.ofFragment_dropLastChar (line : Nat) (f : Fragment) :
    SourceLine.ofFragment line (f.dropLastChar '\r') = SourceLine.ofFragment line f := by
  unfold Fragment.dropLastChar Text.dropLastChar
  by_cases hlast : f.text.getLast? = some '\r'
  · obtain ⟨t, ht⟩ := List.getLast?_eq_some_iff.mp hlast
    rw [if_pos hlast, ht, List.dropLast_concat, ← SourceLine.ofFragment_append_return, ← ht]
  · rw [if_neg hlast]

theorem linesFrom_eq (line offs : Nat) (ts : List Text) :
    linesFrom line offs ts = (lineFragments line offs ts).map fun x =>
      SourceLine.ofFragment x.2 x.1 := by
  simp only [linesFrom, SourceLine.ofFragment_dropLastChar]

/-! ## Words -/

/-- What follows the label on a line, as words without their places. -/
inductive BodyWords where
  | blank
  | constant (c : ConstDef)
  | instruction (mnemonic : Text) (operands : List Text)
deriving DecidableEq, Repr

/-- The words of a line, without their places. -/
structure LineWords where
  label : Option Text
  body : BodyWords
deriving DecidableEq, Repr

def LineWords.isBlank (w : LineWords) : Bool := w.label.isNone && w.body == .blank

def SourceLine.Body.words : SourceLine.Body → BodyWords
  | .blank => .blank
  | .constant name value => .constant ⟨name.text, value⟩
  | .instruction i => .instruction i.mnemonic.text (i.operands.map (·.text))

def SourceLine.words (l : SourceLine) : LineWords := ⟨l.label.map (·.text), l.body.words⟩

namespace Text

/-- A text without the blanks around it, unless nothing else is there. -/
def inner? (t : Text) : Option Text :=
  match t.trim with
  | [] => none
  | _ => some t.trim

/-- The operands of an instruction: what follows its first word, cut at the commas. -/
def operands (t : Text) : List Text :=
  match t.afterWord.trim with
  | [] => []
  | _ => (t.afterWord.splitOn ',').map trim

/-- The words of an instruction part. -/
def instrWords (t : Text) : BodyWords :=
  match ConstDef.read? t with
  | some c => .constant c
  | none => .instruction t.word t.operands

/-- The words of what follows the label on a line. -/
def bodyWords (t : Text) : BodyWords :=
  match t.inner? with
  | none => .blank
  | some i => i.instrWords

end Text

def LineForm.words (w : LineForm) : LineWords := ⟨w.label.bind Text.inner?, w.body.bodyWords⟩

theorem Text.inner?_of_trim_eq {t : Text} (hne : t ≠ []) (htrim : t.trim = t) :
    t.inner? = some t := by
  unfold Text.inner?
  rw [htrim]
  cases t with
  | nil => exact absurd rfl hne
  | cons c t => rfl

theorem Fragment.map_text_trimmedToken? (f : Fragment) (line : Nat) :
    (f.trimmedToken? line).map (·.text) = f.text.inner? := by
  unfold Fragment.trimmedToken? Text.inner?
  cases h : f.trim.text with
  | nil => simp [← Fragment.text_trim, h]
  | cons c t => simp [← Fragment.text_trim, h, Fragment.token]

theorem Instruction.map_text_operands (t : Token) :
    (Instruction.ofToken t).operands.map (·.text) = t.text.operands := by
  unfold Text.operands
  split
  · rename_i hnil
    rw [Instruction.operands_ofToken_of_blank (Text.trim_eq_nil_iff.mp hnil)]
    rfl
  · rename_i hne
    exact Instruction.map_text_operands_ofToken fun hblank => hne (Text.trim_eq_nil_iff.mpr hblank)

theorem SourceLine.words_body (l : SourceLine) :
    l.body.words = match l.instr with
      | none => .blank
      | some t => t.text.instrWords := by
  unfold SourceLine.body
  cases l.instr with
  | none => rfl
  | some t =>
      dsimp only
      unfold Text.instrWords
      cases hc : ConstDef.read? t.text with
      | some c => rfl
      | none =>
          simp only [SourceLine.Body.words, Instruction.map_text_operands]
          rfl

theorem LineForm.words_ofFragment (w : LineForm) (line offs : Nat) :
    (SourceLine.ofFragment line ⟨w.text, offs⟩).words = w.words := by
  have hbody := Fragment.map_text_trimmedToken? (Fragment.mk w.body (offs + w.front.byteSize)) line
  rw [w.ofFragment_text, SourceLine.words, SourceLine.words_body, LineForm.words]
  congr 1
  · cases w.label with
    | none => rfl
    | some t => exact Fragment.map_text_trimmedToken? _ _
  · dsimp only at hbody ⊢
    rw [Text.bodyWords, ← hbody]
    cases (Fragment.mk w.body (offs + w.front.byteSize)).trimmedToken? line <;> rfl

/-- The words of a line. -/
def Text.lineWords (t : Text) : LineWords := (SourceLine.ofFragment 0 ⟨t, 0⟩).words

theorem LineForm.lineWords_text (w : LineForm) : w.text.lineWords = w.words :=
  w.words_ofFragment 0 0

theorem SourceLine.words_ofFragment (line : Nat) (f : Fragment) :
    (SourceLine.ofFragment line f).words = f.text.lineWords := by
  obtain ⟨w, hw⟩ := exists_lineForm f.text
  have hf : f = ⟨w.text, f.offs⟩ := by rw [hw]
  rw [← hw, w.lineWords_text, hf, w.words_ofFragment]

theorem map_words_linesFrom (line offs : Nat) (ts : List Text) :
    (linesFrom line offs ts).map SourceLine.words = ts.map Text.lineWords := by
  have htexts := congrArg (List.map Prod.fst) (map_text_lineFragments line offs ts)
  rw [List.map_map, List.zipIdx_map_fst] at htexts
  nth_rewrite 2 [← htexts]
  rw [linesFrom_eq, List.map_map, List.map_map]
  apply List.map_congr_left
  intro x _
  exact SourceLine.words_ofFragment x.2 x.1

/-- The words of a source are those of its lines. -/
theorem map_words_allLines (src : Text) :
    (allLines src).map SourceLine.words = (src.splitOn '\n').map Text.lineWords :=
  map_words_linesFrom 1 0 (src.splitOn '\n')

theorem SourceLine.isBlank_words (l : SourceLine) : l.words.isBlank = l.isBlankLine := by
  have hbody : (l.body.words == .blank) = l.instr.isNone := by
    rw [SourceLine.words_body]
    cases l.instr with
    | none => rfl
    | some t =>
        dsimp only
        unfold Text.instrWords
        cases ConstDef.read? t.text <;> rfl
  simp only [LineWords.isBlank, SourceLine.isBlankLine, hbody, SourceLine.words, Option.isNone_map]

theorem map_words_sourceLines (src : Text) :
    (sourceLines src).map SourceLine.words =
      ((src.splitOn '\n').map Text.lineWords).filter fun w => !w.isBlank := by
  rw [← map_words_allLines, List.filter_map, sourceLines]
  congr 1
  apply List.filter_congr
  intro l _
  simp [SourceLine.isBlank_words]

end MightyAsm
