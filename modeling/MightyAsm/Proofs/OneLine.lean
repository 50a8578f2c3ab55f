import MightyAsm.Proofs.Layout
import MightyAsm.Proofs.Prefixes

/-!
# Changing one line of a source

A source is put together from its lines, so one of them can be changed and the others keep
their words and their numbers. They are read as before, so that what the source means depends
on what the changed line does.

* `allLines_of_splitOn`: the lines before and after a line;
* `OneLineChanged`: two sources that differ in one line;
* `OneLineChanged.exists_matches`: the sources mean programs that match if the line does the same
  to programs that match;
* `Program.Matches.assemble_eq`: such programs have the same symbols and the same image.
-/

namespace MightyAsm

/-! ## Lines in a row -/

theorem linesFrom_append_cons (line offs : Nat) (before : List Text) (t : Text)
    (after : List Text) :
    linesFrom line offs (before ++ t :: after) = linesFrom line offs before ++
      SourceLine.ofFragment (line + before.length)
          ⟨t, offs + (Text.ended '\n' before).byteSize⟩ ::
        linesFrom (line + before.length + 1)
          (offs + (Text.ended '\n' before).byteSize + t.byteSize + '\n'.utf8Size) after := by
  simp only [linesFrom_eq, lineFragments_append, List.map_append]
  rfl

/-- A line of a source, given the texts of the lines before it. -/
def lineAfter (before : List Text) (t : Text) : SourceLine :=
  SourceLine.ofFragment (before.length + 1) ⟨t, (Text.ended '\n' before).byteSize⟩

@[simp] theorem line_lineAfter (before : List Text) (t : Text) :
    (lineAfter before t).line = before.length + 1 :=
  SourceLine.line_ofFragment _ _

theorem allLines_of_splitOn {src t : Text} {before after : List Text}
    (h : src.splitOn '\n' = before ++ t :: after) :
    allLines src = linesFrom 1 0 before ++ lineAfter before t ::
      linesFrom (before.length + 2)
        ((Text.ended '\n' before).byteSize + t.byteSize + '\n'.utf8Size) after := by
  rw [allLines_eq_linesFrom, h, linesFrom_append_cons, Nat.zero_add,
    Nat.add_comm 1 before.length]
  rfl

theorem exists_lineAfter_of_mem {src : Text} {l : SourceLine} (h : l ∈ allLines src) :
    ∃ before t after, src.splitOn '\n' = before ++ t :: after ∧ l = lineAfter before t := by
  rw [allLines_eq_linesFrom, linesFrom_eq] at h
  obtain ⟨x, hx, rfl⟩ := List.mem_map.mp h
  obtain ⟨before, t, after, hsplit, rfl⟩ := exists_of_mem_lineFragments hx
  refine ⟨before, t, after, hsplit, ?_⟩
  rw [lineAfter, Nat.zero_add, Nat.add_comm]

/-- The words and the numbers of lines do not depend on the byte where they begin. -/
theorem forall₂_linesFrom (line offs offs' : Nat) (ts : List Text) :
    List.Forall₂ (fun l l' => l.line = l'.line ∧ l.words = l'.words) (linesFrom line offs ts)
      (linesFrom line offs' ts) := by
  induction ts generalizing line offs offs' with
  | nil => exact .nil
  | cons t ts ih =>
      refine .cons ⟨?_, ?_⟩ (ih _ _ _)
      · rw [SourceLine.line_ofFragment, SourceLine.line_ofFragment]
      · rw [SourceLine.words_ofFragment, SourceLine.words_ofFragment]
        rfl

/-! ## Two sources -/

/-- Two sources that differ in one line at most, the text of which is `t` or `t'`. -/
structure OneLineChanged (src src' : Text) (before : List Text) (t t' : Text)
    (after : List Text) : Prop where
  splitOn_eq : src.splitOn '\n' = before ++ t :: after
  splitOn_eq' : src'.splitOn '\n' = before ++ t' :: after

namespace OneLineChanged

variable {src src' t t' : Text} {before after : List Text}

/-- A line of a source can be changed by itself, to a text without a line feed. -/
theorem of_append (h : src.splitOn '\n' = before ++ t :: after) (ht' : '\n' ∉ t') :
    OneLineChanged src (Text.ended '\n' before ++ (t' ++ Text.begun '\n' after)) before t t'
      after := by
  refine ⟨h, ?_⟩
  rw [← Text.join_append_cons, Text.splitOn_join (by simp)]
  intro u hu
  have hother : u ∈ before ∨ u ∈ t :: after → '\n' ∉ u := by
    intro hmem
    rw [← List.mem_append, ← h] at hmem
    exact Text.not_mem_of_mem_splitOn hmem
  rcases List.mem_append.mp hu with hu | hu
  · exact hother (Or.inl hu)
  · rcases List.mem_cons.mp hu with rfl | hu
    · exact ht'
    · exact hother (Or.inr (List.mem_cons_of_mem t hu))

theorem forall₂_matches {ls ls' : List SourceLine} (hls : ∀ l ∈ ls, l ∈ allLines src)
    (hls' : ∀ l ∈ ls', l ∈ allLines src')
    (h : List.Forall₂ (fun l l' => l.line = l'.line ∧ l.words = l'.words) ls ls') :
    List.Forall₂ (SourceLine.Matches Eq Eq) ls ls' := by
  refine forall₂_imp_mem h ?_
  rintro l hl l' hl' ⟨hline, hwords⟩
  refine SourceLine.matches_of_words (hls l hl) (hls' l' hl') hline ?_
  rw [← hwords]
  exact l.words.matches_self

/-- The lines before and after the one that is changed are read alike. -/
theorem exists_allLines (h : OneLineChanged src src' before t t' after) :
    ∃ ls ms ls' ms', allLines src = ls ++ lineAfter before t :: ms ∧
      allLines src' = ls' ++ lineAfter before t' :: ms' ∧
      List.Forall₂ (SourceLine.Matches Eq Eq) ls ls' ∧
      List.Forall₂ (SourceLine.Matches Eq Eq) ms ms' := by
  have hsrc := allLines_of_splitOn h.splitOn_eq
  have hsrc' := allLines_of_splitOn h.splitOn_eq'
  refine ⟨_, _, _, _, hsrc, hsrc', ?_, ?_⟩
  · refine @forall₂_matches src src' _ _ ?_ ?_ (forall₂_linesFrom 1 0 0 before)
    · exact fun l hl => hsrc ▸ List.mem_append_left _ hl
    · exact fun l hl => hsrc' ▸ List.mem_append_left _ hl
  · refine @forall₂_matches src src' _ _ ?_ ?_ (forall₂_linesFrom _ _ _ after)
    · exact fun l hl => hsrc ▸ List.mem_append_right _ (List.mem_cons_of_mem _ hl)
    · exact fun l hl => hsrc' ▸ List.mem_append_right _ (List.mem_cons_of_mem _ hl)

/-- If the changed line does the same to programs that match, the sources mean programs that
match. The line may rely on what comes before it in the completed program. -/
theorem exists_matches (h : OneLineChanged src src' before t t' after) {p : Program}
    (hp : Program.ofSource src = .ok p)
    (hline : ∀ q r q' : Program, q.addLine (lineAfter before t) = .ok r → r.Begins p →
      q.Matches Eq Eq q' →
      ∃ r', q'.addLine (lineAfter before t') = .ok r' ∧ r.Matches Eq Eq r') :
    ∃ p', Program.ofSource src' = .ok p' ∧ p.Matches Eq Eq p' := by
  obtain ⟨ls, ms, ls', ms', hsrc, hsrc', hbefore, hafter⟩ := h.exists_allLines
  rw [Program.ofSource_eq_addLines, hsrc, Program.addLines_append] at hp
  obtain ⟨q, hq, hp⟩ := bind_eq_ok_iff.mp hp
  obtain ⟨r, hr, hp⟩ := Program.addLines_cons.mp hp
  obtain ⟨q', hq', hqq'⟩ :=
    (Program.matches_empty.addLines rewording_eq hbefore).exists_of_eq_ok hq
  obtain ⟨r', hr', hrr'⟩ := hline q r q' hr (Program.begins_of_addLines hp) hqq'
  obtain ⟨p', hp', hpp'⟩ := (hrr'.addLines rewording_eq hafter).exists_of_eq_ok hp
  refine ⟨p', ?_, hpp'⟩
  rw [Program.ofSource_eq_addLines, hsrc', Program.addLines_append]
  exact bind_eq_ok_iff.mpr ⟨q', hq', Program.addLines_cons.mpr ⟨r', hr', hp'⟩⟩

end OneLineChanged

/-! ## Programs that match word for word -/

theorem SymbolTable.Matches.eq {symbols symbols' : SymbolTable}
    (h : symbols.Matches Eq Eq symbols') : symbols' = symbols := by
  have hlist : symbols.symbols = symbols'.symbols := by
    rw [← List.forall₂_eq_eq_eq]
    refine List.Forall₂.imp ?_ h
    rintro ⟨name, value, kind, line⟩ ⟨name', value', kind', line'⟩ hs
    rw [show name = name' from hs.name, show value = value' from hs.value,
      show kind = kind' from hs.kind, show line = line' from hs.line]
  cases symbols
  cases symbols'
  exact congrArg SymbolTable.mk hlist.symm

theorem Program.Matches.assemble_eq {src src' : Text} {p p' : Program} {rom : Array UInt8}
    (h : p.Matches Eq Eq p') (hp : ofSource src = .ok p) (hp' : ofSource src' = .ok p')
    (hrom : assemble src = .ok rom) : assemble src' = .ok rom := by
  obtain ⟨q, hq, hrom⟩ := assemble_eq_ok_iff.mp hrom
  rw [hp] at hq
  cases hq
  exact assemble_eq_ok_iff.mpr ⟨p', hp', (h.rom rewording_eq).eq_ok_iff.mp hrom⟩

end MightyAsm
