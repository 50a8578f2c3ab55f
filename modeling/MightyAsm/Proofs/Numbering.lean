import MightyAsm.Proofs.Lines

/-!
# The lines of a part of a source

A source is cut at its line feeds. The text before any of them is a source in its own right,
and its lines are the first lines of the whole, with the numbers and the places that they
have there. All of this is said of `lineFragments`, the texts of some lines with their places
and numbers.

* `Text.join_append_cons`: a text with the separators on both sides of one of its parts;
* `lineFragments_append`, `exists_of_mem_lineFragments`: where the lines of a part stand;
* `linesFrom_append`: what is read of two parts, one after the other;
* `allLines_join_take`: the first lines of a source, put together again, are read as they were;
* `exists_allLines_join_append`: further lines come after the others and change none of them.
-/

namespace MightyAsm

/-! ## Texts in a row -/

namespace Text

/-- Texts with a separator after each of them. -/
def ended (sep : Char) (ts : List Text) : Text := ts.flatMap (· ++ [sep])

/-- Texts with a separator before each of them. -/
def begun (sep : Char) (ts : List Text) : Text := ts.flatMap (sep :: ·)

theorem join_cons (sep : Char) (t : Text) (ts : List Text) :
    join sep (t :: ts) = t ++ begun sep ts := by
  induction ts generalizing t with
  | nil => simp [join, begun]
  | cons u ts ih => rw [join, ih, begun, begun, List.flatMap_cons, List.cons_append]

theorem join_append_cons (sep : Char) (before : List Text) (t : Text) (after : List Text) :
    join sep (before ++ t :: after) = ended sep before ++ (t ++ begun sep after) := by
  induction before with
  | nil => exact join_cons sep t after
  | cons u before ih =>
      have hne : before ++ t :: after ≠ [] := by simp
      have hfront := @join_append sep [u] _ (by simp) hne
      rw [List.singleton_append] at hfront
      rw [List.cons_append, hfront, ih]
      simp [join, ended]

theorem byteSize_ended_cons (sep : Char) (t : Text) (ts : List Text) :
    (ended sep (t :: ts)).byteSize = t.byteSize + sep.utf8Size + (ended sep ts).byteSize := by
  simp [ended, Nat.add_assoc]

theorem count_ended {sep : Char} {ts : List Text} (h : ∀ t ∈ ts, sep ∉ t) :
    (ended sep ts).count sep = ts.length := by
  induction ts with
  | nil => rfl
  | cons t ts ih =>
      obtain ⟨ht, hts⟩ := List.forall_mem_cons.mp h
      have hcons : ended sep (t :: ts) = t ++ ([sep] ++ ended sep ts) := by simp [ended]
      rw [hcons, List.count_append, List.count_append, ih hts, List.count_eq_zero_of_not_mem ht,
        List.count_singleton_self, List.length_cons]
      omega

theorem ended_eq_join {sep : Char} {ts : List Text} (h : ts ≠ []) :
    ended sep ts = join sep ts ++ [sep] := by
  obtain ⟨before, t, rfl⟩ := (List.eq_nil_or_concat ts).resolve_left h
  rw [List.concat_eq_append, join_append_cons]
  simp [ended, begun]

theorem byteSize_ended_splitOn (sep : Char) (t : Text) :
    (ended sep (t.splitOn sep)).byteSize = t.byteSize + sep.utf8Size := by
  rw [ended_eq_join (splitOn_ne_nil sep t), join_splitOn, byteSize_append, byteSize_cons,
    byteSize_nil, Nat.add_zero]

end Text

/-! ## Fragments -/

theorem Fragment.length_layOut (gap offs : Nat) (ts : List Text) :
    (Fragment.layOut gap offs ts).length = ts.length := by
  rw [← List.length_map (·.text), Fragment.map_text_layOut]

theorem Fragment.layOut_append (sep : Char) (offs : Nat) (ts us : List Text) :
    layOut sep.utf8Size offs (ts ++ us) = layOut sep.utf8Size offs ts ++
      layOut sep.utf8Size (offs + (Text.ended sep ts).byteSize) us := by
  induction ts generalizing offs with
  | nil => rfl
  | cons t ts ih =>
      have hend : offs + t.byteSize + sep.utf8Size + (Text.ended sep ts).byteSize =
          offs + (Text.ended sep (t :: ts)).byteSize := by
        rw [Text.byteSize_ended_cons]
        omega
      rw [List.cons_append, layOut, ih, hend]
      rfl

/-! ## Lines -/

/-- The lines with the given texts, from a line and a byte of a source on, each with its
number. -/
def lineFragments (line offs : Nat) (ts : List Text) : List (Fragment × Nat) :=
  (Fragment.layOut '\n'.utf8Size offs ts).zipIdx line

theorem map_text_lineFragments (line offs : Nat) (ts : List Text) :
    (lineFragments line offs ts).map (fun x => (x.1.text, x.2)) = ts.zipIdx line := by
  nth_rewrite 2 [← Fragment.map_text_layOut '\n'.utf8Size offs ts]
  rw [List.zipIdx_map]
  rfl

theorem lineFragments_append (line offs : Nat) (ts us : List Text) :
    lineFragments line offs (ts ++ us) = lineFragments line offs ts ++
      lineFragments (line + ts.length) (offs + (Text.ended '\n' ts).byteSize) us := by
  rw [lineFragments, Fragment.layOut_append, List.zipIdx_append, Fragment.length_layOut]
  rfl

theorem exists_of_mem_lineFragments {line offs : Nat} {ts : List Text} {x : Fragment × Nat}
    (h : x ∈ lineFragments line offs ts) :
    ∃ before t after, ts = before ++ t :: after ∧
      x = (⟨t, offs + (Text.ended '\n' before).byteSize⟩, line + before.length) := by
  induction ts generalizing line offs with
  | nil => cases h
  | cons t ts ih =>
      rcases List.mem_cons.mp h with rfl | h
      · exact ⟨[], t, ts, rfl, rfl⟩
      · obtain ⟨before, u, after, rfl, rfl⟩ := ih h
        have hline : line + 1 + before.length = line + (t :: before).length := by
          rw [List.length_cons]
          omega
        have hoffs : offs + t.byteSize + '\n'.utf8Size + (Text.ended '\n' before).byteSize =
            offs + (Text.ended '\n' (t :: before)).byteSize := by
          rw [Text.byteSize_ended_cons]
          omega
        exact ⟨t :: before, u, after, rfl, by rw [hline, hoffs]⟩

/-- What is read of the lines with the given texts, from a line and a byte of a source on. -/
def linesFrom (line offs : Nat) (ts : List Text) : List SourceLine :=
  (lineFragments line offs ts).map fun x => SourceLine.ofFragment x.2 (x.1.dropLastChar '\r')

theorem allLines_eq_linesFrom (src : Text) : allLines src = linesFrom 1 0 (src.splitOn '\n') := rfl

theorem linesFrom_append (line offs : Nat) (ts us : List Text) :
    linesFrom line offs (ts ++ us) = linesFrom line offs ts ++
      linesFrom (line + ts.length) (offs + (Text.ended '\n' ts).byteSize) us := by
  rw [linesFrom, lineFragments_append, List.map_append]
  rfl

theorem allLines_append (s t : Text) :
    allLines (s ++ '\n' :: t) = allLines s ++
      linesFrom (s.count '\n' + 2) (s.byteSize + 1) (t.splitOn '\n') := by
  have hline : 1 + (s.count '\n' + 1) = s.count '\n' + 2 := by omega
  have hsize : '\n'.utf8Size = 1 := rfl
  rw [allLines_eq_linesFrom, Text.splitOn_append, linesFrom_append, Text.length_splitOn,
    Text.byteSize_ended_splitOn, hline, hsize, Nat.zero_add]
  rfl

theorem length_allLines (src : Text) : (allLines src).length = (src.splitOn '\n').length := by
  rw [allLines, List.length_map, List.length_zipIdx, Fragment.splitOn, Fragment.length_layOut]

theorem line_of_allLines_eq {src : Text} {before after : List SourceLine} {l : SourceLine}
    (h : allLines src = before ++ l :: after) : l.line = before.length + 1 := by
  have hnumbers := map_line_allLines src
  rw [h, List.map_append, List.map_cons] at hnumbers
  have hl := congrArg (·[before.length]?) hnumbers
  simp only [List.getElem?_append_right, List.length_map, Nat.le_refl, Nat.sub_self,
    List.getElem?_cons_zero] at hl
  obtain ⟨hlt, hval⟩ := List.getElem?_eq_some_iff.mp hl.symm
  rw [List.getElem_range'] at hval
  omega

/-! ## The first lines -/

theorem exists_allLines_join_append {ts : List Text} (h : ts ≠ []) (more : List Text) :
    ∃ rest, allLines (Text.join '\n' (ts ++ more)) = allLines (Text.join '\n' ts) ++ rest := by
  by_cases hmore : more = []
  · exact ⟨[], by rw [hmore, List.append_nil, List.append_nil]⟩
  · rw [Text.join_append h hmore, allLines_append]
    exact ⟨_, rfl⟩

theorem allLines_join_take {src : Text} {k : Nat} (hk : k ≠ 0) :
    allLines (Text.join '\n' ((src.splitOn '\n').take k)) = (allLines src).take k := by
  by_cases hle : k ≤ (src.splitOn '\n').length
  · have hne : (src.splitOn '\n').take k ≠ [] := by
      simp [hk, Text.splitOn_ne_nil]
    -- The first lines hold no line feed, so they are cut as they were before.
    have hlength : (allLines (Text.join '\n' ((src.splitOn '\n').take k))).length = k := by
      rw [length_allLines, Text.splitOn_join hne, List.length_take_of_le hle]
      exact fun t ht => Text.not_mem_of_mem_splitOn (List.mem_of_mem_take ht)
    obtain ⟨rest, hrest⟩ := exists_allLines_join_append hne ((src.splitOn '\n').drop k)
    rw [List.take_append_drop, Text.join_splitOn] at hrest
    rw [hrest, List.take_left' hlength]
  · have hall : (allLines src).length ≤ k := by
      rw [length_allLines]
      omega
    rw [List.take_of_length_le hall, List.take_of_length_le (by omega), Text.join_splitOn]

end MightyAsm
