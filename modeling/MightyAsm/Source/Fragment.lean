import MightyAsm.Source.Span

/-!
# Fragments

A fragment is a piece of a source that knows at which byte it begins. Cutting a fragment
yields fragments whose offsets are moved along, so that the place of every piece of a line
is known however often the line has been cut.

`Fragment.Within` says that a fragment is a piece of another at the place it claims. Every
cut yields such pieces (`takeWhile_within`, `dropWhile_within`, `trim_within`,
`cut?_within`, `splitOn_within`).
-/

namespace MightyAsm

/-- A piece of a source and the offset of its first byte. -/
structure Fragment where
  text : Text
  offs : Nat := 0
deriving DecidableEq, Repr, Inhabited

namespace Fragment

/-- The bytes of the source that a fragment covers. -/
def span (f : Fragment) : Span :=
  ⟨f.offs, f.text.byteSize⟩

/-! ## Cutting -/

/-- The longest part at the start whose characters all satisfy `p`. -/
def takeWhile (p : Char → Bool) (f : Fragment) : Fragment :=
  ⟨f.text.takeWhile p, f.offs⟩

/-- What is left after the longest part at the start whose characters all satisfy `p`. -/
def dropWhile (p : Char → Bool) (f : Fragment) : Fragment :=
  ⟨f.text.dropWhile p, f.offs + Text.byteSize (f.text.takeWhile p)⟩

/-- A fragment without blanks at either end. Of a fragment with nothing but blanks the empty
text at its start is left. -/
def trim (f : Fragment) : Fragment :=
  (Fragment.mk f.text.trimEnd f.offs).dropWhile isBlank

/-- A fragment without one `last` at its end, if it ends in one. -/
def dropLastChar (last : Char) (f : Fragment) : Fragment :=
  ⟨f.text.dropLastChar last, f.offs⟩

/-- The parts before and after the first `sep`, if there is one. -/
def cut? (sep : Char) (f : Fragment) : Option (Fragment × Fragment) :=
  match f.text.dropWhile (· != sep) with
  | [] => none
  | _ :: rest =>
      let left := f.takeWhile (· != sep)
      some (left, ⟨rest, left.offs + left.text.byteSize + sep.utf8Size⟩)

/-- Texts that stand one after the other from `offs` on, each two of them `gap` bytes apart. -/
def layOut (gap : Nat) (offs : Nat) : List Text → List Fragment
  | [] => []
  | t :: ts => ⟨t, offs⟩ :: layOut gap (offs + t.byteSize + gap) ts

/-- The parts between the occurrences of `sep`. -/
def splitOn (sep : Char) (f : Fragment) : List Fragment :=
  layOut sep.utf8Size f.offs (f.text.splitOn sep)

/-- The part from byte `start` to byte `stop`, both counted from the start of the fragment. -/
def slice (start stop : Nat) (f : Fragment) : Fragment :=
  ⟨(f.text.dropBytes start).takeBytes (stop - start), f.offs + start⟩

@[simp] theorem text_trim (f : Fragment) : f.trim.text = f.text.trim := rfl

/-! ## Pieces -/

/-- The text of `f` stands in `g` at the place that the offsets say. -/
def Within (f g : Fragment) : Prop :=
  ∃ before after : Text, g.text = before ++ (f.text ++ after) ∧ f.offs = g.offs + before.byteSize

theorem Within.refl (f : Fragment) : f.Within f :=
  ⟨[], [], by simp⟩

theorem Within.trans {f g h : Fragment} (hfg : f.Within g) (hgh : g.Within h) : f.Within h := by
  obtain ⟨b₁, a₁, ht₁, ho₁⟩ := hfg
  obtain ⟨b₂, a₂, ht₂, ho₂⟩ := hgh
  exact ⟨b₂ ++ b₁, a₁ ++ a₂, by rw [ht₂, ht₁]; simp, by rw [ho₁, ho₂]; simp; omega⟩

theorem takeWhile_within (p : Char → Bool) (f : Fragment) : (f.takeWhile p).Within f :=
  ⟨[], f.text.dropWhile p, by simp [takeWhile]⟩

theorem dropWhile_within (p : Char → Bool) (f : Fragment) : (f.dropWhile p).Within f :=
  ⟨f.text.takeWhile p, [], by simp [dropWhile]⟩

theorem trim_within (f : Fragment) : f.trim.Within f := by
  refine (dropWhile_within isBlank _).trans ?_
  obtain ⟨after, ht, _⟩ := Text.exists_trimEnd f.text
  exact ⟨[], after, by simpa using ht⟩

theorem dropLastChar_within (last : Char) (f : Fragment) : (f.dropLastChar last).Within f := by
  unfold dropLastChar Text.dropLastChar
  split
  · rename_i h
    obtain ⟨front, hf⟩ := List.getLast?_eq_some_iff.mp h
    exact ⟨[], [last], by simp [hf]⟩
  · exact .refl f

theorem cut?_within {sep : Char} {f left right : Fragment} (h : f.cut? sep = some (left, right)) :
    left.Within f ∧ right.Within f := by
  unfold cut? at h
  split at h
  · cases h
  · rename_i c rest hd
    cases h
    refine ⟨takeWhile_within _ f, f.text.takeWhile (· != sep) ++ [sep], [], ?_, ?_⟩
    · simpa using (Text.dropWhile_ne_eq_cons hd).2
    · simp [takeWhile, Nat.add_assoc]

theorem layOut_within (sep : Char) (offs : Nat) (ts : List Text) :
    ∀ f ∈ layOut sep.utf8Size offs ts, f.Within ⟨Text.join sep ts, offs⟩ := by
  induction ts generalizing offs with
  | nil => simp [layOut]
  | cons t ts ih =>
      intro f hf
      rcases List.mem_cons.mp hf with rfl | hf
      · cases ts with
        | nil => exact .refl _
        | cons u us => exact ⟨[], sep :: Text.join sep (u :: us), by simp [Text.join]⟩
      · refine (ih _ f hf).trans ?_
        cases ts with
        | nil => simp [layOut] at hf
        | cons u us =>
            exact ⟨t ++ [sep], [], by simp [Text.join], by simp; omega⟩

theorem splitOn_within {sep : Char} {f g : Fragment} (h : g ∈ f.splitOn sep) : g.Within f := by
  have hg := layOut_within sep f.offs _ g h
  rwa [Text.join_splitOn] at hg

end Fragment

end MightyAsm
