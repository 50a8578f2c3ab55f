import Mathlib.Algebra.Order.BigOperators.Group.List
import Mathlib.Algebra.Order.Group.Nat
import MightyAsm.Proofs.Padding
import MightyAsm.Source.Line

/-!
# The lines of a source

* `sourceLines_pairwise_line`: line numbers increase along the lines that are kept;
* `located_of_mem_sourceLines`: labels bear the numbers of their lines;
* `sum_instrSize_sourceLines_le`: the instruction parts of all lines together have no more
  bytes than the source.
-/

namespace MightyAsm

/-! ## Fragments -/

theorem Fragment.map_text_layOut (gap offs : Nat) (ts : List Text) :
    (Fragment.layOut gap offs ts).map (·.text) = ts := by
  induction ts generalizing offs with
  | nil => rfl
  | cons t ts ih => simp [Fragment.layOut, ih]

theorem Fragment.Within.byteSize_le {f g : Fragment} (h : f.Within g) :
    f.text.byteSize ≤ g.text.byteSize := by
  obtain ⟨before, after, ht, -⟩ := h
  rw [ht]
  simp only [Text.byteSize_append]
  omega

theorem Fragment.eq_of_trimmedToken? {f : Fragment} {line : Nat} {t : Token}
    (h : f.trimmedToken? line = some t) : t = f.trim.token line := by
  unfold Fragment.trimmedToken? at h
  split at h
  · cases h
  · cases h
    rfl

/-- Label and instruction part are pieces of the line without the blanks around them. -/
theorem SourceLine.exists_of_ofFragment {line : Nat} {f : Fragment} {t : Token}
    (h : (SourceLine.ofFragment line f).label = some t ∨
      (SourceLine.ofFragment line f).instr = some t) :
    ∃ g : Fragment, g.Within f ∧ t = g.trim.token line := by
  have hcode := Fragment.takeWhile_within (· != ';') f
  unfold SourceLine.ofFragment at h
  dsimp only at h
  split at h
  · rename_i label instr hcut
    obtain ⟨hlabel, hinstr⟩ := Fragment.cut?_within hcut
    rcases h with h | h
    · exact ⟨label, hlabel.trans hcode, Fragment.eq_of_trimmedToken? h⟩
    · exact ⟨instr, hinstr.trans hcode, Fragment.eq_of_trimmedToken? h⟩
  · rcases h with h | h
    · cases h
    · exact ⟨_, hcode, Fragment.eq_of_trimmedToken? h⟩

/-! ## Line numbers -/

@[simp] theorem SourceLine.line_ofFragment (line : Nat) (f : Fragment) :
    (SourceLine.ofFragment line f).line = line := by
  unfold SourceLine.ofFragment
  dsimp only
  split <;> rfl

theorem map_line_allLines (src : Text) :
    (allLines src).map (·.line) = List.range' 1 ((Fragment.mk src 0).splitOn '\n').length := by
  rw [allLines, List.map_map, ← List.zipIdx_map_snd]
  apply List.map_congr_left
  rintro ⟨f, line⟩ -
  exact SourceLine.line_ofFragment line _

theorem sourceLines_sublist (src : Text) : (sourceLines src).Sublist (allLines src) :=
  List.filter_sublist

theorem allLines_pairwise_line (src : Text) :
    (allLines src).Pairwise (fun l l' => l.line < l'.line) := by
  rw [← List.pairwise_map, map_line_allLines]
  exact List.pairwise_lt_range'

theorem sourceLines_pairwise_line (src : Text) :
    (sourceLines src).Pairwise (fun l l' => l.line < l'.line) :=
  (allLines_pairwise_line src).sublist (sourceLines_sublist src)

/-- The label of a line bears the number of the line. -/
def SourceLine.Located (l : SourceLine) : Prop := ∀ t ∈ l.label, t.line = l.line

theorem SourceLine.located_ofFragment (line : Nat) (f : Fragment) :
    (SourceLine.ofFragment line f).Located := by
  intro t ht
  obtain ⟨g, -, rfl⟩ := SourceLine.exists_of_ofFragment (Or.inl ht)
  exact (SourceLine.line_ofFragment line f).symm

theorem located_of_mem_sourceLines {src : Text} {l : SourceLine} (h : l ∈ sourceLines src) :
    l.Located := by
  obtain ⟨x, -, rfl⟩ := List.mem_map.mp ((sourceLines_sublist src).subset h)
  exact SourceLine.located_ofFragment x.2 _

/-! ## Sizes -/

/-- The bytes of the instruction part of a line. -/
def SourceLine.instrSize (l : SourceLine) : Nat :=
  match l.instr with
  | none => 0
  | some t => t.text.byteSize

theorem SourceLine.instr_ofFragment_within {line : Nat} {f : Fragment} {t : Token}
    (h : (SourceLine.ofFragment line f).instr = some t) : t.fragment.Within f := by
  obtain ⟨g, hg, rfl⟩ := SourceLine.exists_of_ofFragment (Or.inr h)
  exact (Fragment.trim_within g).trans hg

theorem SourceLine.instrSize_ofFragment_le (line : Nat) (f : Fragment) :
    (SourceLine.ofFragment line f).instrSize ≤ f.text.byteSize := by
  unfold SourceLine.instrSize
  cases h : (SourceLine.ofFragment line f).instr with
  | none => exact Nat.zero_le _
  | some t => exact (SourceLine.instr_ofFragment_within h).byteSize_le

theorem sum_instrSize_allLines_le (src : Text) :
    ((allLines src).map SourceLine.instrSize).sum ≤ src.byteSize := by
  have hline : ∀ x ∈ ((Fragment.mk src 0).splitOn '\n').zipIdx 1,
      (SourceLine.ofFragment x.2 (x.1.dropLastChar '\r')).instrSize ≤ x.1.text.byteSize :=
    fun x _ => (SourceLine.instrSize_ofFragment_le _ _).trans
      (Fragment.dropLastChar_within '\r' x.1).byteSize_le
  calc ((allLines src).map SourceLine.instrSize).sum
      ≤ ((((Fragment.mk src 0).splitOn '\n').zipIdx 1).map fun x => x.1.text.byteSize).sum := by
        rw [allLines, List.map_map]
        exact List.sum_le_sum hline
    _ = ((src.splitOn '\n').map Text.byteSize).sum := by
        have htext : ((Fragment.mk src 0).splitOn '\n').map (·.text) = src.splitOn '\n' :=
          Fragment.map_text_layOut '\n'.utf8Size 0 _
        rw [← htext, ← List.zipIdx_map_fst 1 ((Fragment.mk src 0).splitOn '\n'), List.map_map,
          List.map_map, List.zipIdx_map_fst]
        rfl
    _ ≤ src.byteSize := Text.sum_byteSize_splitOn_le '\n' src

theorem sum_instrSize_sourceLines_le (src : Text) :
    ((sourceLines src).map SourceLine.instrSize).sum ≤ src.byteSize := by
  refine le_trans ?_ (sum_instrSize_allLines_le src)
  exact ((sourceLines_sublist src).map SourceLine.instrSize).sum_le_sum (fun _ _ => Nat.zero_le _)

end MightyAsm
