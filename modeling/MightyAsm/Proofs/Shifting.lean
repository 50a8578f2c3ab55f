import MightyAsm.Proofs.Spacing

/-!
# Moving a text further down

A text that stands further down in a source has the lines that it has by itself. Their numbers
are higher by the line feeds before the text, and their tokens stand further on by the bytes
before it. So the lines of a source are found part by part.

* `Fragment.trimmedToken?_shift`, `SourceLine.ofFragment_shift`: a piece of a source, and one
  line, cut at another place;
* `linesFrom_shift`: lines with the same texts at another place;
* `SourceLine.isBlankLine_ofFragment`: which lines have nothing on them;
* `sourceLines_append`: the lines of two texts with a line feed between them.
-/

namespace MightyAsm

/-! ## Places -/

/-- The same piece of text `bytes` further on. -/
def Fragment.shift (bytes : Nat) (f : Fragment) : Fragment :=
  ⟨f.text, f.offs + bytes⟩

/-- The same token `lines` further down and `bytes` further on. -/
def Token.shift (lines bytes : Nat) (t : Token) : Token :=
  ⟨t.text, ⟨t.span.offs + bytes, t.span.len⟩, t.line + lines⟩

/-- The same line `lines` further down and `bytes` further on. -/
def SourceLine.shift (lines bytes : Nat) (l : SourceLine) : SourceLine :=
  ⟨l.line + lines, l.label.map (Token.shift lines bytes), l.instr.map (Token.shift lines bytes)⟩

/-! ## Cutting at another place -/

theorem Fragment.trim_shift (bytes : Nat) (f : Fragment) :
    (f.shift bytes).trim = f.trim.shift bytes := by
  simp only [Fragment.trim, Fragment.shift, Fragment.dropWhile, Nat.add_right_comm]

theorem Fragment.trimmedToken?_shift (lines bytes line : Nat) (f : Fragment) :
    (f.shift bytes).trimmedToken? (line + lines) =
      (f.trimmedToken? line).map (Token.shift lines bytes) := by
  by_cases hblank : f.text.Blank
  · rw [Fragment.trimmedToken?_of_blank hblank]
    exact Fragment.trimmedToken?_of_blank hblank _ _
  · rw [Fragment.trimmedToken?_of_not_blank hblank]
    refine (Fragment.trimmedToken?_of_not_blank hblank _ _).trans ?_
    exact congrArg (fun g => some (g.token (line + lines))) (Fragment.trim_shift bytes f)

theorem SourceLine.ofFragment_shift (lines bytes line : Nat) (f : Fragment) :
    SourceLine.ofFragment (line + lines) (f.shift bytes) =
      (SourceLine.ofFragment line f).shift lines bytes := by
  obtain ⟨w, hw⟩ := exists_lineForm f.text
  have hf : f = ⟨w.text, f.offs⟩ := by rw [hw]
  rw [hf, w.ofFragment_text, Fragment.shift, w.ofFragment_text, SourceLine.shift]
  congr 1
  · cases w.label with
    | none => rfl
    | some t => exact Fragment.trimmedToken?_shift lines bytes line ⟨t, f.offs⟩
  · rw [Nat.add_right_comm]
    exact Fragment.trimmedToken?_shift lines bytes line ⟨w.body, f.offs + w.front.byteSize⟩

theorem Fragment.layOut_shift (gap offs bytes : Nat) (ts : List Text) :
    Fragment.layOut gap (offs + bytes) ts =
      (Fragment.layOut gap offs ts).map (Fragment.shift bytes) := by
  induction ts generalizing offs with
  | nil => rfl
  | cons t ts ih =>
      have hnext : offs + bytes + t.byteSize + gap = offs + t.byteSize + gap + bytes := by omega
      rw [Fragment.layOut, Fragment.layOut, hnext, ih, List.map_cons]
      rfl

theorem linesFrom_shift (lines bytes line offs : Nat) (ts : List Text) :
    linesFrom (line + lines) (offs + bytes) ts =
      (linesFrom line offs ts).map (SourceLine.shift lines bytes) := by
  have hnumbers (fs : List Fragment) :
      (fs.map (Fragment.shift bytes)).zipIdx (line + lines) =
        (fs.zipIdx line).map fun x => (x.1.shift bytes, x.2 + lines) := by
    rw [Nat.add_comm line, ← List.map_snd_add_zipIdx_eq_zipIdx, List.zipIdx_map, List.map_map]
    rfl
  simp only [linesFrom_eq, lineFragments]
  rw [Fragment.layOut_shift, hnumbers, List.map_map, List.map_map]
  apply List.map_congr_left
  intro x _
  exact SourceLine.ofFragment_shift lines bytes x.2 x.1

/-! ## Lines with something on them -/

/-- Something other than blanks stands before the comment, the first colon apart. -/
def Text.HasCode (t : Text) : Prop :=
  ∃ c ∈ (t.takeWhile (· != ';')).erase ':', isBlank c = false

theorem LineForm.erase_colon (w : LineForm) :
    (w.front ++ w.body).erase ':' = w.label.getD [] ++ w.body := by
  unfold LineForm.front
  cases hlabel : w.label with
  | none => exact List.erase_of_not_mem (w.colon hlabel)
  | some t =>
      rw [List.append_assoc, List.erase_append_right _ (w.not_mem_label t hlabel).2]
      simp

theorem Fragment.isNone_trimmedToken? (f : Fragment) (line : Nat) :
    (f.trimmedToken? line).isNone = true ↔ f.text.Blank := by
  by_cases hblank : f.text.Blank
  · simp [Fragment.trimmedToken?_of_blank hblank, hblank]
  · simp [Fragment.trimmedToken?_of_not_blank hblank, hblank]

/-- A line is blank when it has nothing but blanks outside its comment and its first colon. -/
theorem SourceLine.isBlankLine_ofFragment (line : Nat) (f : Fragment) :
    (SourceLine.ofFragment line f).isBlankLine = false ↔ f.text.HasCode := by
  obtain ⟨w, hw⟩ := exists_lineForm f.text
  have hf : f = ⟨w.text, f.offs⟩ := by rw [hw]
  have hblank : (SourceLine.ofFragment line f).isBlankLine = true ↔
      Text.Blank (w.label.getD [] ++ w.body) := by
    rw [hf, w.ofFragment_text, SourceLine.isBlankLine, Bool.and_eq_true,
      Fragment.isNone_trimmedToken?, Text.blank_append]
    apply and_congr_left'
    cases w.label with
    | none => simp [Text.blank_nil]
    | some t => exact Fragment.isNone_trimmedToken? ⟨t, f.offs⟩ line
  rw [← Bool.not_eq_true, hblank, Text.HasCode, ← hw, w.takeWhile_text, w.erase_colon]
  simp only [Text.Blank, not_forall, Bool.not_eq_true, exists_prop]

theorem SourceLine.isBlankLine_shift (lines bytes : Nat) (l : SourceLine) :
    (l.shift lines bytes).isBlankLine = l.isBlankLine := by
  simp [SourceLine.shift, SourceLine.isBlankLine]

/-! ## Lines of a source -/

theorem sourceLines_append (a b : Text) :
    sourceLines (a ++ '\n' :: b) = sourceLines a ++
      (sourceLines b).map (SourceLine.shift (1 + a.count '\n') (a.byteSize + 1)) := by
  have hmoved : linesFrom (a.count '\n' + 2) (a.byteSize + 1) (b.splitOn '\n') =
      (allLines b).map (SourceLine.shift (1 + a.count '\n') (a.byteSize + 1)) := by
    rw [allLines_eq_linesFrom, ← linesFrom_shift, Nat.zero_add]
    congr 1
    omega
  simp only [sourceLines]
  rw [allLines_append, hmoved, List.filter_append, List.filter_map]
  congr 2
  apply List.filter_congr
  intro l _
  simp [SourceLine.isBlankLine_shift]

/-- The number of a line is among the numbers of the lines that are kept when the line has
something on it. -/
theorem exists_mem_sourceLines_iff (src : Text) (n : Nat) :
    (∃ l ∈ sourceLines src, l.line = n) ↔
      ∃ t, (t, n) ∈ (src.splitOn '\n').zipIdx 1 ∧ (t.dropLastChar '\r').HasCode := by
  have htexts := (map_text_lineFragments 1 0 (src.splitOn '\n')).symm
  constructor
  · rintro ⟨l, hl, rfl⟩
    rw [sourceLines, List.mem_filter, Bool.not_eq_true'] at hl
    obtain ⟨⟨f, n⟩, hf, rfl⟩ := List.mem_map.mp hl.1
    rw [SourceLine.line_ofFragment, htexts]
    exact ⟨f.text, List.mem_map_of_mem hf, (SourceLine.isBlankLine_ofFragment _ _).mp hl.2⟩
  · rintro ⟨t, ht, hcode⟩
    rw [htexts] at ht
    obtain ⟨⟨f, m⟩, hf, hfm⟩ := List.mem_map.mp ht
    obtain ⟨rfl, rfl⟩ := Prod.mk.inj hfm
    refine ⟨SourceLine.ofFragment m (f.dropLastChar '\r'), ?_, SourceLine.line_ofFragment _ _⟩
    rw [sourceLines, List.mem_filter, Bool.not_eq_true']
    exact ⟨List.mem_map_of_mem hf, (SourceLine.isBlankLine_ofFragment _ _).mpr hcode⟩

/-- The lines of two texts with a line feed between them are those of the first and, moved
behind it, those of the second. Their numbers increase, and they are the numbers of the lines
with something on them. -/
theorem sourceLines_compositional :
    (∀ a b : Text, sourceLines (a ++ '\n' :: b) = sourceLines a ++
      (sourceLines b).map (SourceLine.shift (1 + a.count '\n') (a.byteSize + 1))) ∧
    ∀ src : Text, (sourceLines src).Pairwise (fun l l' => l.line < l'.line) ∧
      ∀ n, (∃ l ∈ sourceLines src, l.line = n) ↔
        ∃ t, (t, n) ∈ (src.splitOn '\n').zipIdx 1 ∧ (t.dropLastChar '\r').HasCode :=
  ⟨sourceLines_append, fun src => ⟨sourceLines_pairwise_line src, exists_mem_sourceLines_iff src⟩⟩

example : sourceLines "é:\r\n ; LD\n : \r\n\u3000BEQ é".toList =
    [⟨1, some ⟨"é".toList, ⟨0, 2⟩, 1⟩, none⟩,
      ⟨4, none, some ⟨"BEQ é".toList, ⟨19, 6⟩, 4⟩⟩] := by
  decide +kernel

end MightyAsm
