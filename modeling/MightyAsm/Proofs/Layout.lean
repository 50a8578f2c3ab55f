import Mathlib.Logic.Relation
import MightyAsm.Proofs.Moving
import MightyAsm.Proofs.SideBySide
import MightyAsm.Proofs.Spacing

/-!
# Layout

What a source means depends on the words of its lines that are not blank, and on nothing else.
Edits that only change blanks, comments, line ends and blank lines leave these words as they
are. One kind of edit does not: blanks at a comma that stands in a label, in a mnemonic or
before all operands may change words. But no image is made of a source with such a comma.

* `CorrespondingLines`: the numbers of lines at the same place among those that are not blank;
* `readable_of_assemble`: what the words of lines are like in a source that has an image;
* `Respaced`, `LineEdit`, `SourceEdit`: edits of the layout;
* `LineEdit.lineWords`: they keep the words of a line, unless it cannot be read at all;
* `layout_irrelevant`: sources with the same words agree, and edits of the layout keep the image.
-/

namespace MightyAsm

/-! ## The same words -/

theorem rewording_eq : Rewording Eq := by
  refine ⟨?_, ?_⟩
  · rintro t _ rfl
    cases Operand.ofText? t with
    | none => exact .none
    | some o =>
        cases o with
        | symbol name => exact .some (.symbol rfl)
        | _ => exact .some (by constructor)
  · rintro t _ u _ rfl rfl - -
    exact Iff.rfl

/-- The numbers of two lines at the same place among the lines that are not blank. -/
def CorrespondingLines (src src' : Text) (line line' : Nat) : Prop :=
  (line, line') ∈ ((sourceLines src).map (·.line)).zip ((sourceLines src').map (·.line))

section Words

variable {src src' : Text}

theorem forall₂_matches_of_words
    (h : (sourceLines src).map SourceLine.words = (sourceLines src').map SourceLine.words) :
    List.Forall₂ (SourceLine.Matches Eq (CorrespondingLines src src'))
      (sourceLines src) (sourceLines src') := by
  obtain ⟨hlength, hzip⟩ := List.forall₂_iff_zip.mp (map_eq_map_iff_forall₂.mp h)
  refine List.forall₂_iff_zip.mpr ⟨hlength, ?_⟩
  intro l l' hmem
  obtain ⟨hl, hl'⟩ := List.of_mem_zip hmem
  refine SourceLine.matches_of_words ((sourceLines_sublist src).subset hl)
    ((sourceLines_sublist src').subset hl') ?_ ?_
  · rw [CorrespondingLines, List.zip_map]
    exact List.mem_map.mpr ⟨(l, l'), hmem, rfl⟩
  · rw [← hzip hmem]
    exact l.words.matches_self

/-- Sources with the same words have the same image, or are refused for the same reason. -/
theorem assemble_agree_of_words
    (h : (sourceLines src).map SourceLine.words = (sourceLines src').map SourceLine.words) :
    Agree (RomError.Matches Eq (CorrespondingLines src src')) Eq (assemble src) (assemble src') :=
  assemble_agree rewording_eq (forall₂_matches_of_words h)

end Words

/-! ## Lines that can be read -/

def BodyWords.Readable (w : BodyWords) : Prop := ∃ b, w.Says b

/-- The words of a line that may be part of a program: the label may name a symbol, and what
follows says something. -/
def LineWords.Readable (w : LineWords) : Prop :=
  (∀ t ∈ w.label, isSymbolName t = true) ∧ w.body.Readable

theorem BodyWords.Readable.not_mem_comma {mnemonic : Text} {operands : List Text}
    (h : (BodyWords.instruction mnemonic operands).Readable) : ',' ∉ mnemonic ∧ [] ∉ operands := by
  obtain ⟨-, c, -, hmnemonic, hoperands⟩ := h
  refine ⟨?_, ?_⟩
  · intro hmem
    have hletter := isIdentStart_of_upper (hmnemonic ▸ c.isIdentStart_mnemonic) ',' hmem
    exact absurd hletter (by decide)
  · intro hmem
    have hread := List.mem_map_of_mem (f := Operand.ofText?) hmem
    rw [hoperands] at hread
    obtain ⟨o, -, ho⟩ := List.mem_map.mp hread
    cases ho

/-- All lines of a source that has an image can be read. -/
theorem readable_of_assemble {src : Text} {rom : Array UInt8} (h : assemble src = .ok rom)
    {t : Text} (ht : t ∈ src.splitOn '\n') : t.lineWords.Readable := by
  obtain ⟨p, hp, -⟩ := assemble_eq_ok_iff.mp h
  obtain ⟨es, hreads, hes, -⟩ := Program.exists_listing_of_lines hp
  have hsaid := forall₂_says_of_reads hreads
  rw [map_words_allLines] at hsaid
  obtain ⟨e, he, hlabel, hbody⟩ := exists_mem_right_of_forall₂ hsaid (List.mem_map_of_mem ht)
  refine ⟨?_, e.body, hbody⟩
  intro name hname
  obtain ⟨d, hd, rfl, -⟩ := Listing.exists_definition_of_label he (hlabel.trans hname)
  exact (Listing.definable_nil_iff.mp (Listing.admitted_iff.mp hes).1).1 d hd

/-! ## Edits -/

/-- Blanks are put or dropped around a text, or around one of its commas. -/
inductive Respaced : Text → Text → Prop
  | around (t : Text) {before after before' after' : Text} : before.Blank → after.Blank →
      before'.Blank → after'.Blank → Respaced (before ++ (t ++ after)) (before' ++ (t ++ after'))
  | comma (front rest : Text) {u v u' v' : Text} : u.Blank → v.Blank → u'.Blank → v'.Blank →
      Respaced (front ++ (u ++ ',' :: (v ++ rest))) (front ++ (u' ++ ',' :: (v' ++ rest)))

/-- The layout of a line is changed: blanks at the label, at the colon, at the instruction
part, after its mnemonic or at a comma, the comment, or the end of the line. -/
inductive LineEdit : Text → Text → Prop
  | carriageReturn (t : Text) : LineEdit t (t ++ ['\r'])
  | respace {w w' : LineForm} : Option.Rel Respaced w.label w'.label → Respaced w.body w'.body →
      LineEdit w.text w'.text
  | mnemonic {w w' : LineForm} {before m gap gap' rest : Text} : w'.label = w.label →
      before.Blank → m ≠ [] → (∀ c ∈ m, isBlank c = false) → gap ≠ [] → gap.Blank → gap' ≠ [] →
      gap'.Blank → w.body = before ++ (m ++ (gap ++ rest)) →
      w'.body = before ++ (m ++ (gap' ++ rest)) → LineEdit w.text w'.text

/-- The layout of one line is changed, or a line without words is put in. -/
inductive SourceEdit : Text → Text → Prop
  | line {src src' t t' : Text} {before after : List Text} : LineEdit t t' →
      src.splitOn '\n' = before ++ t :: after → src'.splitOn '\n' = before ++ t' :: after →
      SourceEdit src src'
  | blankLine {src src' pad comment : Text} {before after : List Text} : pad.Blank →
      IsComment comment → src.splitOn '\n' = before ++ after →
      src'.splitOn '\n' = before ++ (pad ++ comment) :: after → SourceEdit src src'

theorem Text.exists_word (t : Text) :
    ∃ before m rest : Text, t = before ++ (m ++ rest) ∧ before.Blank ∧
      (∀ c ∈ m, isBlank c = false) ∧ (∀ c ∈ rest.head?, isBlank c = true) ∧
      (m = [] → rest = []) := by
  refine ⟨t.takeWhile isBlank, t.trimStart.word, t.trimStart.afterWord, ?_, ?_, ?_, ?_, ?_⟩
  · rw [Text.word_append_afterWord]
    exact List.takeWhile_append_dropWhile.symm
  · exact fun c hc => List.mem_takeWhile_imp hc
  · exact t.trimStart.isBlank_of_mem_word
  · intro c hc
    cases hafter : t.trimStart.afterWord with
    | nil => simp [hafter] at hc
    | cons d rest =>
        rw [hafter] at hc
        cases hc
        exact Text.afterWord_eq_cons hafter
  · intro hword
    cases hafter : t.trimStart.afterWord with
    | nil => rfl
    | cons d rest =>
        -- Without a first word the rest would begin with a blank, and it is trimmed.
        have hstart : t.trimStart = d :: rest := by
          rw [← t.trimStart.word_append_afterWord, hword, hafter, List.nil_append]
        have hd := t.head?_trimStart d (by rw [hstart]; rfl)
        rw [Text.afterWord_eq_cons hafter] at hd
        cases hd

theorem not_readable_of_comma_word {m : Text} (hm : ∀ c ∈ m, isBlank c = false) (hcomma : ',' ∈ m)
    (t : Text) : ¬ (m ++ t).bodyWords.Readable := by
  have hword : ',' ∈ (m ++ t.trimEnd).word := by
    rw [Text.word, List.takeWhile_append_of_pos (by simpa using hm)]
    exact List.mem_append_left _ hcomma
  rw [Text.bodyWords_word_append (List.ne_nil_of_mem hcomma) hm, Text.instrWords,
    ConstDef.read?_eq_none_of_comma (List.mem_append_left _ hcomma)]
  exact fun h => h.not_mem_comma.1 hword

theorem not_readable_of_comma {m u : Text} (hm : ∀ c ∈ m, isBlank c = false) (hu : u.Blank)
    (t : Text) : ¬ (m ++ (u ++ ',' :: t)).bodyWords.Readable := by
  have hfirst : ∀ {front : Text}, (∀ c ∈ front, isBlank c = false) →
      ¬ (front ++ ',' :: t).bodyWords.Readable := by
    intro front hfront
    rw [List.append_cons]
    refine not_readable_of_comma_word ?_ (by simp) t
    exact List.forall_mem_append.mpr ⟨hfront, by simpa using Text.isBlank_comma⟩
  by_cases hmnil : m = []
  · have hpad := Text.bodyWords_pad hu Text.blank_nil (',' :: t)
    rw [List.append_nil] at hpad
    rw [hmnil, List.nil_append, hpad]
    exact hfirst (by simp : ∀ c ∈ ([] : Text), isBlank c = false)
  · by_cases hunil : u = []
    · rw [hunil, List.nil_append]
      exact hfirst hm
    · -- The comma has an empty operand before it.
      rw [Text.bodyWords_of_comma hmnil hm (Text.isBlank_head?_append hunil hu _) (by simp),
        Text.splitOn_append_sep (Text.not_mem_of_blank Text.isBlank_comma hu), List.map_cons,
        Text.trim_eq_nil_iff.mpr hu]
      exact fun h => h.not_mem_comma.2 List.mem_cons_self

theorem Respaced.bodyWords {t t' : Text} (h : Respaced t t') :
    t.bodyWords = t'.bodyWords ∨ ¬ t.bodyWords.Readable ∧ ¬ t'.bodyWords.Readable := by
  cases h with
  | around t hbefore hafter hbefore' hafter' =>
      left
      rw [Text.bodyWords_pad hbefore hafter, Text.bodyWords_pad hbefore' hafter']
  | @comma front rest u v u' v' hu hv hu' hv' =>
      obtain ⟨before, m, tail, rfl, hbefore, hm, htail, hnil⟩ := front.exists_word
      have hdrop : ∀ s : Text,
          (before ++ (m ++ tail) ++ s).bodyWords = (m ++ (tail ++ s)).bodyWords := by
        intro s
        have hpad := Text.bodyWords_pad hbefore Text.blank_nil (m ++ (tail ++ s))
        rwa [List.append_nil, ← List.append_assoc m, ← List.append_assoc before,
          List.append_assoc m] at hpad
      rw [hdrop, hdrop]
      by_cases htailnil : tail = []
      · right
        rw [htailnil, List.nil_append, List.nil_append]
        exact ⟨not_readable_of_comma hm hu _, not_readable_of_comma hm hu' _⟩
      · left
        have hmne : m ≠ [] := fun hmnil => htailnil (hnil hmnil)
        rw [Text.bodyWords_comma hmne hm htail htailnil hu hv,
          Text.bodyWords_comma hmne hm htail htailnil hu' hv']

theorem not_isSymbolName_of_comma {t : Text} (h : ',' ∈ t) :
    ¬ ∀ name ∈ t.inner?, isSymbolName name = true := by
  obtain ⟨before, after, ht, hbefore, hafter⟩ := Text.exists_trim t
  have htrim : ',' ∈ t.trim := by
    have hmem := h
    rw [ht, List.mem_append, List.mem_append] at hmem
    rcases hmem with (h | h) | h
    · exact absurd h (Text.not_mem_of_blank Text.isBlank_comma hbefore)
    · exact h
    · exact absurd h (Text.not_mem_of_blank Text.isBlank_comma hafter)
  have hblank : ¬ t.Blank := fun hblank => absurd (hblank ',' h) (by decide)
  intro hname
  have hsymbol := hname t.trim (Text.inner?_of_not_blank hblank)
  simp only [isSymbolName, Bool.and_eq_true] at hsymbol
  exact absurd (isIdentChar_of_isIdentifier hsymbol.1 ',' htrim) (by decide)

theorem Respaced.inner? {t t' : Text} (h : Respaced t t') :
    t.inner? = t'.inner? ∨ ¬ (∀ name ∈ t.inner?, isSymbolName name = true) ∧
      ¬ ∀ name ∈ t'.inner?, isSymbolName name = true := by
  cases h with
  | around t hbefore hafter hbefore' hafter' =>
      left
      rw [Text.inner?_pad hbefore hafter, Text.inner?_pad hbefore' hafter']
  | comma front rest hu hv hu' hv' =>
      right
      exact ⟨not_isSymbolName_of_comma (by simp), not_isSymbolName_of_comma (by simp)⟩

/-- An edit of the layout keeps the words of a line, unless the line cannot be read before and
after it. -/
theorem LineEdit.lineWords {t t' : Text} (h : LineEdit t t') :
    t.lineWords = t'.lineWords ∨ ¬ t.lineWords.Readable ∧ ¬ t'.lineWords.Readable := by
  cases h with
  | carriageReturn t =>
      left
      rw [Text.lineWords, Text.lineWords, SourceLine.ofFragment_append_return]
  | @respace w w' hlabel hbody =>
      rw [w.lineWords_text, w'.lineWords_text]
      have hlabel : w.label.bind Text.inner? = w'.label.bind Text.inner? ∨
          ¬ (∀ name ∈ w.label.bind Text.inner?, isSymbolName name = true) ∧
            ¬ ∀ name ∈ w'.label.bind Text.inner?, isSymbolName name = true := by
        generalize w.label = label at hlabel
        generalize w'.label = label' at hlabel
        cases hlabel with
        | none => exact Or.inl rfl
        | some hlabel => exact hlabel.inner?
      rcases hlabel with hlabel | ⟨hlabel, hlabel'⟩
      · rcases hbody.bodyWords with hbody | ⟨hbody, hbody'⟩
        · left
          rw [LineForm.words, LineForm.words, hlabel, hbody]
        · exact Or.inr ⟨fun hr => hbody hr.2, fun hr => hbody' hr.2⟩
      · exact Or.inr ⟨fun hr => hlabel hr.1, fun hr => hlabel' hr.1⟩
  | @mnemonic w w' before m gap gap' rest hlabel hbefore hne hm hgap hblank hgap' hblank' hb hb' =>
      left
      have hpad : ∀ s : Text, (before ++ s).bodyWords = s.bodyWords := by
        intro s
        simpa using Text.bodyWords_pad hbefore Text.blank_nil s
      rw [w.lineWords_text, w'.lineWords_text, LineForm.words, LineForm.words, hlabel, hb, hb',
        hpad, hpad, Text.bodyWords_gap hne hm hgap hblank hgap' hblank']

theorem lineWords_of_blank {pad comment : Text} (hpad : pad.Blank) (hcomment : IsComment comment) :
    (pad ++ comment).lineWords.isBlank = true := by
  have hnot : ∀ sep, isBlank sep = false → sep ∉ pad := fun sep hsep =>
    Text.not_mem_of_blank hsep hpad
  let w : LineForm := ⟨none, pad, comment, by simp, hnot ';' (by decide),
    fun _ => hnot ':' (by decide), hcomment⟩
  have hwords : (pad ++ comment).lineWords = w.words := w.lineWords_text
  rw [hwords, LineForm.words, Text.bodyWords_of_blank hpad]
  rfl

/-- An edit of the layout keeps the image. -/
theorem SourceEdit.assemble_iff {src src' : Text} (h : SourceEdit src src') (rom : Array UInt8) :
    assemble src = .ok rom ↔ assemble src' = .ok rom := by
  cases h with
  | @line t t' before after hedit hsrc hsrc' =>
      rcases hedit.lineWords with hwords | ⟨hbad, hbad'⟩
      · refine (assemble_agree_of_words ?_).eq_ok_iff
        simp only [map_words_sourceLines, hsrc, hsrc', List.map_append, List.map_cons, hwords]
      · refine iff_of_false (fun hrom => hbad ?_) (fun hrom => hbad' ?_)
        · exact readable_of_assemble hrom (by rw [hsrc]; simp)
        · exact readable_of_assemble hrom (by rw [hsrc']; simp)
  | @blankLine pad comment before after hpad hcomment hsrc hsrc' =>
      have hblank := lineWords_of_blank hpad hcomment
      refine (assemble_agree_of_words ?_).eq_ok_iff
      simp only [map_words_sourceLines, hsrc, hsrc', List.map_append, List.map_cons,
        List.filter_append, List.filter_cons, hblank]
      rfl

/-- Layout carries no meaning. Sources whose lines have the same words, but for blank lines,
have the same image or are refused for the same reason on corresponding lines. Any number of
edits of the layout, made or undone, keeps the image. -/
theorem layout_irrelevant (src src' : Text) :
    ((sourceLines src).map SourceLine.words = (sourceLines src').map SourceLine.words →
      Agree (RomError.Matches Eq (CorrespondingLines src src')) Eq (assemble src) (assemble src')) ∧
    (Relation.EqvGen SourceEdit src src' →
      ∀ rom, assemble src = .ok rom ↔ assemble src' = .ok rom) := by
  refine ⟨assemble_agree_of_words, ?_⟩
  intro h rom
  induction h with
  | rel src src' hedit => exact hedit.assemble_iff rom
  | refl src => exact Iff.rfl
  | symm src src' _ ih => exact ih.symm
  | trans src src' src'' _ _ ih ih' => exact ih.trans ih'

/-- A line with blanks and a comment put in, and a comment line before it. -/
theorem layout_irrelevant_labelled :
    (sourceLines "a:LD B,$10".toList).map SourceLine.words =
        (sourceLines ";\n a :LD  B , $10;\r".toList).map SourceLine.words ∧
      Agree (RomError.Matches Eq
          (CorrespondingLines "a:LD B,$10".toList ";\n a :LD  B , $10;\r".toList)) Eq
        (assemble "a:LD B,$10".toList) (assemble ";\n a :LD  B , $10;\r".toList) ∧
      Relation.EqvGen SourceEdit "a:LD B,$10".toList ";\n a :LD  B , $10;\r".toList ∧
      (assemble "a:LD B,$10".toList = .ok #[0x81, 1, 0x10] ↔
        assemble ";\n a :LD  B , $10;\r".toList = .ok #[0x81, 1, 0x10]) := by
  have hblank : Text.Blank [' '] := Text.blank_cons.mpr ⟨by decide, Text.blank_nil⟩
  have hblanks : Text.Blank [' ', ' '] := Text.blank_cons.mpr ⟨by decide, hblank⟩
  have hmnemonic : ∀ c ∈ ['L', 'D'], isBlank c = false :=
    List.forall_mem_cons.mpr ⟨by decide, List.forall_mem_singleton.mpr (by decide)⟩
  have hsemicolon : IsComment [';'] := by simp [IsComment]
  let plain : LineForm :=
    ⟨some ['a'], "LD B,$10".toList, [], by simp, by decide, by simp, by simp [IsComment]⟩
  let spaced : LineForm :=
    ⟨some [' ', 'a', ' '], "LD B , $10".toList, [';'], by simp, by decide, by simp, hsemicolon⟩
  let wide : LineForm :=
    ⟨some [' ', 'a', ' '], "LD  B , $10".toList, [';'], by simp, by decide, by simp, hsemicolon⟩
  have hspaced : LineEdit plain.text spaced.text :=
    .respace (.some (.around ['a'] Text.blank_nil Text.blank_nil hblank hblank))
      (.comma ['L', 'D', ' ', 'B'] ['$', '1', '0'] Text.blank_nil Text.blank_nil hblank hblank)
  have hwide : LineEdit spaced.text wide.text :=
    .mnemonic rfl Text.blank_nil (by simp) hmnemonic (by simp) hblank (by simp) hblanks rfl rfl
  have hwords : (sourceLines "a:LD B,$10".toList).map SourceLine.words =
      (sourceLines ";\n a :LD  B , $10;\r".toList).map SourceLine.words := by decide +kernel
  have hedits : Relation.EqvGen SourceEdit "a:LD B,$10".toList ";\n a :LD  B , $10;\r".toList := by
    have h₁ : SourceEdit "a:LD B,$10".toList " a :LD B , $10;".toList :=
      .line hspaced (rfl : _ = [] ++ plain.text :: []) (rfl : _ = [] ++ spaced.text :: [])
    have h₂ : SourceEdit " a :LD B , $10;".toList " a :LD  B , $10;".toList :=
      .line hwide (rfl : _ = [] ++ spaced.text :: []) (rfl : _ = [] ++ wide.text :: [])
    have h₃ : SourceEdit " a :LD  B , $10;".toList " a :LD  B , $10;\r".toList :=
      .line (.carriageReturn _) (rfl : _ = [] ++ wide.text :: []) rfl
    have h₄ : SourceEdit " a :LD  B , $10;\r".toList ";\n a :LD  B , $10;\r".toList :=
      .blankLine Text.blank_nil hsemicolon (rfl : _ = [] ++ [wide.text ++ ['\r']]) rfl
    exact .trans _ _ _ (.rel _ _ h₁) (.trans _ _ _ (.rel _ _ h₂)
      (.trans _ _ _ (.rel _ _ h₃) (.rel _ _ h₄)))
  exact ⟨hwords, (layout_irrelevant _ _).1 hwords, hedits, (layout_irrelevant _ _).2 hedits _⟩

end MightyAsm
