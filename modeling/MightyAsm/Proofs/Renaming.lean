import MightyAsm.Proofs.NewNames
import MightyAsm.Proofs.SideBySide

/-!
# Renaming symbols

The names of symbols carry no meaning. They may be replaced by others, all at once and where
they stand, as long as different names stay different and none becomes the name of a register.

* `renameSymbols`: a source with other names for its symbols;
* `exists_replaced_body`, `exists_replaced_line`: a line with new names has the new words;
* `map_lineWords_renameSymbols`: the words of the new source;
* `renaming_irrelevant`: the new source has the same image, and the same symbols by other
  names, or it is refused for the same reason.
-/

namespace MightyAsm

/-- A source with a new name for each of its symbols, wherever one is defined or used. -/
def renameSymbols (f : Text → Text) (src : Text) : Text :=
  src.replaceTokens (renameWord f) 0 ((allLines src).flatMap SourceLine.nameTokens)

def Symbol.rename (f : Text → Text) (s : Symbol) : Symbol := { s with name := f s.name }

section Renaming

variable {f : Text → Text} (hmaps : Set.MapsTo f symbolNames symbolNames)

include hmaps

/-! ## Lines -/

theorem exists_replaced_body {l : SourceLine} {b : Text} {offs : Nat}
    (hl : l.instr = (Fragment.mk b offs).trimmedToken? l.line) :
    ∃ b', Replaced (renameWord f) offs l.body.nameTokens b b' ∧
      b'.bodyWords = b.bodyWords.map (renameWord f) := by
  by_cases hblank : b.Blank
  · rw [Fragment.trimmedToken?_of_blank hblank] at hl
    have hbody : l.body = .blank := by simp only [SourceLine.body, hl]
    rw [hbody, Text.bodyWords_of_blank hblank]
    exact ⟨b, .nil offs b, Text.bodyWords_of_blank hblank⟩
  · rw [Fragment.trimmedToken?_of_not_blank hblank] at hl
    obtain ⟨before, after, hbefore, hafter, htext, htrim⟩ := (Fragment.mk b offs).exists_trim
    dsimp only at htext htrim
    rw [htrim] at hl
    have hne : b.trim ≠ [] := fun hnil => hblank (Text.trim_eq_nil_iff.mp hnil)
    have hinner : ∃ t',
        Replaced (renameWord f) (offs + before.byteSize) l.body.nameTokens b.trim t' ∧
        t'.bodyWords = b.trim.bodyWords.map (renameWord f) := by
      cases hread : ConstDef.read? b.trim with
      | some c =>
          have hbody : l.body =
              .constant ((Fragment.mk c.name (offs + before.byteSize)).token l.line) c.value := by
            simp only [SourceLine.body, hl, Fragment.token, Fragment.span, hread]
          rw [hbody]
          exact exists_replaced_constant hmaps (Text.trim_trim b) hread _ l.line
      | none =>
          have hbody : l.body = .instruction
              (.ofToken ((Fragment.mk b.trim (offs + before.byteSize)).token l.line)) := by
            simp only [SourceLine.body, hl, Fragment.token, Fragment.span, hread]
          rw [hbody]
          exact exists_replaced_operands hmaps
            ((Fragment.mk b.trim (offs + before.byteSize)).token l.line) hne
            (Text.trim_trim b) hread
    obtain ⟨t', hreplaced, hwords⟩ := hinner
    have hwhole := (hreplaced.append_right after).prepend before
    rw [← htext] at hwhole
    refine ⟨_, hwhole, ?_⟩
    rw [Text.bodyWords_pad hbefore hafter, hwords, ← Text.bodyWords_pad hbefore hafter b.trim,
      ← htext]

/-- A line with new names, in its parts. -/
theorem exists_replaced_line (w : LineForm) (line offs : Nat) :
    ∃ t', Replaced (renameWord f) offs
        (SourceLine.ofFragment line ⟨w.text, offs⟩).nameTokens w.text t' ∧
      t'.lineWords = w.text.lineWords.map (renameWord f) := by
  have hl := w.ofFragment_text line offs
  generalize SourceLine.ofFragment line ⟨w.text, offs⟩ = l at hl
  have hinstr : l.instr = (Fragment.mk w.body (offs + w.front.byteSize)).trimmedToken? l.line := by
    rw [hl]
  obtain ⟨b', hbody, hwords⟩ := exists_replaced_body hmaps hinstr
  have hsemicolon : ';' ∉ b' := hbody.not_mem hmaps (by decide) w.not_mem_body
  have hrest := hbody.append_right w.comment
  unfold SourceLine.nameTokens
  rw [w.lineWords_text, LineForm.words]
  cases hlabel : w.label with
  | none =>
      have hnone : l.label = none := by rw [hl, hlabel]; rfl
      have hfront : w.front = [] := by simp only [LineForm.front, hlabel]
      have hcolon : ':' ∉ b' := hbody.not_mem hmaps (by decide) (w.colon hlabel)
      let w' : LineForm := ⟨none, b', w.comment, by simp, hsemicolon, fun _ => hcolon, w.isComment⟩
      refine ⟨w'.text, ?_, ?_⟩
      · rw [hnone, LineForm.text, hfront]
        rw [hfront] at hrest
        exact hrest
      · rw [w'.lineWords_text, LineForm.words, hwords]
        rfl
  | some t =>
      have hsome : l.label = (Fragment.mk t offs).trimmedToken? line := by rw [hl, hlabel]; rfl
      have hfront : w.front = t ++ [':'] := by simp only [LineForm.front, hlabel]
      obtain ⟨t', hreplaced, hinner⟩ := exists_replaced_label hmaps t offs line
      have hmarks : ';' ∉ t' ∧ ':' ∉ t' :=
        ⟨hreplaced.not_mem hmaps (by decide) (w.not_mem_label t hlabel).1,
          hreplaced.not_mem hmaps (by decide) (w.not_mem_label t hlabel).2⟩
      let w' : LineForm :=
        ⟨some t', b', w.comment, by simpa using hmarks, hsemicolon, by simp, w.isComment⟩
      refine ⟨w'.text, ?_, ?_⟩
      · rw [hsome, LineForm.text, hfront]
        rw [hfront] at hrest
        exact (hreplaced.append_right [':']).append hrest
      · rw [w'.lineWords_text, LineForm.words, hwords]
        exact congrArg (LineWords.mk · _) hinner

/-! ## Sources -/

/-- The words of the new source are the new words. -/
theorem map_lineWords_renameSymbols (src : Text) :
    ((renameSymbols f src).splitOn '\n').map Text.lineWords =
      ((src.splitOn '\n').map Text.lineWords).map (LineWords.map (renameWord f)) := by
  let tokens : Fragment × Nat → List Token := fun x => (SourceLine.ofFragment x.2 x.1).nameTokens
  have hline : ∀ t ∈ src.splitOn '\n', ∀ offs line, ∃ t',
      Replaced (renameWord f) offs (tokens (⟨t, offs⟩, line)) t t' ∧
        (t'.lineWords = t.lineWords.map (renameWord f) ∧ '\n' ∉ t') := by
    intro t ht offs line
    obtain ⟨w, rfl⟩ := exists_lineForm t
    obtain ⟨t', hreplaced, hwords⟩ := exists_replaced_line hmaps w line offs
    exact ⟨t', hreplaced, hwords,
      hreplaced.not_mem hmaps (by decide) (Text.not_mem_of_mem_splitOn ht)⟩
  obtain ⟨ts', hts, hreplaced⟩ := Replaced.join hline 0 1
  have htokens : (lineFragments 1 0 (src.splitOn '\n')).flatMap tokens =
      (allLines src).flatMap SourceLine.nameTokens := by
    rw [allLines_eq_linesFrom, linesFrom_eq, List.flatMap_map]
  have hrenamed : renameSymbols f src = Text.join '\n' ts' := by
    rw [renameSymbols, ← htokens]
    rw [Text.join_splitOn] at hreplaced
    exact hreplaced.replaceTokens_eq
  have hne : ts' ≠ [] := by
    rintro rfl
    exact Text.splitOn_ne_nil '\n' src (List.forall₂_nil_right_iff.mp hts)
  have hfeed : ∀ t ∈ ts', '\n' ∉ t := by
    intro t' ht'
    obtain ⟨t, -, -, hfeed⟩ := exists_mem_of_forall₂ hts ht'
    exact hfeed
  rw [hrenamed, Text.splitOn_join hne hfeed, List.map_map, map_eq_map_iff_forall₂]
  exact hts.flip.imp fun _ _ h => h.1

theorem forall₂_matches_renameSymbols (src : Text) :
    List.Forall₂ (SourceLine.Matches (Renames f) Eq)
      (sourceLines src) (sourceLines (renameSymbols f src)) := by
  have hmap := map_lineWords_renameSymbols hmaps src
  rw [← map_words_allLines, ← map_words_allLines, List.map_map] at hmap
  have hwords := (map_eq_map_iff_forall₂.mp hmap).flip
  have hlines : (allLines src).map (·.line) = (allLines (renameSymbols f src)).map (·.line) := by
    have hlength := hwords.length_eq
    rw [length_allLines, length_allLines] at hlength
    rw [map_line_allLines, map_line_allLines, Fragment.splitOn, Fragment.splitOn,
      Fragment.length_layOut, Fragment.length_layOut, hlength]
  have hboth := hwords.mp (fun _ _ => And.intro) (map_eq_map_iff_forall₂.mp hlines)
  have hmatches : List.Forall₂ (fun l l' => l.isBlankLine = l'.isBlankLine ∧
      l.Matches (Renames f) Eq l') (allLines src)
      (allLines (renameSymbols f src)) := by
    refine forall₂_imp_mem hboth ?_
    rintro l hl l' hl' ⟨hl'words, hline⟩
    change l'.words = l.words.map (renameWord f) at hl'words
    refine ⟨?_, SourceLine.matches_of_words hl hl' hline ?_⟩
    · rw [← SourceLine.isBlank_words, ← SourceLine.isBlank_words, hl'words, LineWords.isBlank_map]
    · rw [hl'words]
      exact LineWords.matches_map (R := Renames f) (fun _ => rfl) l.words
  have hfilter := List.rel_filter (p := fun l : SourceLine => !l.isBlankLine)
    (q := fun l : SourceLine => !l.isBlankLine) (fun l l' h => by simp only [h.1]) hmatches
  exact hfilter.imp fun _ _ h => h.2

end Renaming

/-- Symbols by their new names are the same symbols. -/
theorem SymbolTable.Matches.map_rename {f : Text → Text} {t t' : SymbolTable}
    (h : t.Matches (Renames f) Eq t') :
    t'.symbols = t.symbols.map (Symbol.rename f) := by
  unfold SymbolTable.Matches at h
  rw [← List.map_id t'.symbols, map_eq_map_iff_forall₂]
  refine List.Forall₂.flip (h.imp ?_)
  rintro s s' ⟨hname, hsymbol, hvalue, hkind, hline⟩
  rw [Renames, renameWord_of_symbol hsymbol] at hname
  cases s'
  simp only at hname hvalue hkind hline
  simp only [flip, id, Symbol.rename, hname, hvalue, hkind, hline]

/-- Names carry no meaning. A source with other names for its symbols has the same image, or
is refused for the same fault on the same line; its symbols are the same but for their names. -/
theorem renaming_irrelevant {f : Text → Text} (hinj : Set.InjOn f symbolNames)
    (hmaps : Set.MapsTo f symbolNames symbolNames) (src : Text) :
    Agree (RomError.Matches (Renames f) Eq) Eq
        (assemble src) (assemble (renameSymbols f src)) ∧
      Agree (Diagnostic.Matches (Renames f) Eq)
        (fun p p' => p'.symbols.symbols = p.symbols.symbols.map (Symbol.rename f))
        (Program.ofSource src) (Program.ofSource (renameSymbols f src)) := by
  have hreword := rewording_renameWord hinj hmaps
  have hlines := forall₂_matches_renameSymbols hmaps src
  refine ⟨assemble_agree hreword hlines, ?_⟩
  exact (Program.ofSource_agree hreword hlines).imp fun _ _ hp => hp.symbols.map_rename

/-- A keyword and a mnemonic as names. -/
theorem renaming_irrelevant_keywords :
    Set.InjOn (fun t => 'x' :: '_' :: t) symbolNames ∧
      Set.MapsTo (fun t => 'x' :: '_' :: t) symbolNames symbolNames ∧
      renameSymbols (fun t => 'x' :: '_' :: t) "EQU EQU $10\nLD: LD A, EQU ; LD\nBRA LD".toList =
        "x_EQU EQU $10\nx_LD: LD A, x_EQU ; LD\nBRA x_LD".toList ∧
      Agree (RomError.Matches (Renames fun t => 'x' :: '_' :: t) Eq) Eq
        (assemble "EQU EQU $10\nLD: LD A, EQU ; LD\nBRA LD".toList)
        (assemble "x_EQU EQU $10\nx_LD: LD A, x_EQU ; LD\nBRA x_LD".toList) ∧
      Agree (Diagnostic.Matches (Renames fun t => 'x' :: '_' :: t) Eq)
        (fun p p' => p'.symbols.symbols = p.symbols.symbols.map (Symbol.rename ('x' :: '_' :: ·)))
        (Program.ofSource "EQU EQU $10\nLD: LD A, EQU ; LD\nBRA LD".toList)
        (Program.ofSource "x_EQU EQU $10\nx_LD: LD A, x_EQU ; LD\nBRA x_LD".toList) := by
  have hinj : Set.InjOn (fun t => 'x' :: '_' :: t) symbolNames := by
    intro t _ u _ h
    simpa using h
  have hmaps : Set.MapsTo (fun t => 'x' :: '_' :: t) symbolNames symbolNames := by
    intro t ht
    have hchars := isIdentChar_of_isIdentifier (isIdentifier_of_isSymbolName ht)
    have hnone : Register.ofText? ('x' :: '_' :: t) = none := by
      cases t <;> rfl
    have hstart : isIdentStart 'x' = true ∧ isIdentChar '_' = true := by decide
    show isSymbolName ('x' :: '_' :: t) = true
    simp only [isSymbolName, isIdentifier, hnone, hstart, List.all_cons,
      List.all_eq_true.mpr hchars]
    rfl
  have hsrc : renameSymbols (fun t => 'x' :: '_' :: t)
      "EQU EQU $10\nLD: LD A, EQU ; LD\nBRA LD".toList =
        "x_EQU EQU $10\nx_LD: LD A, x_EQU ; LD\nBRA x_LD".toList := by decide +kernel
  refine ⟨hinj, hmaps, hsrc, ?_⟩
  rw [← hsrc]
  exact renaming_irrelevant hinj hmaps _

end MightyAsm
