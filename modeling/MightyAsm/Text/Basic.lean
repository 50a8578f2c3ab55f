import MightyAsm.Text.Blank

/-!
# Texts

A text is a list of characters. Positions in a source are counted in bytes of its UTF-8
encoding, so the size of a text is the sum of the sizes of its characters.

* `Text.byteSize_append`: the size of a concatenation is the sum of the sizes;
* `Text.join_splitOn`: putting the separator between the pieces of a split gives the text back;
* `Text.exists_trim`: trimming removes blanks at the two ends and nothing else.
-/

namespace MightyAsm

/-- A text, as the sequence of its characters. -/
abbrev Text := List Char

namespace Text

/-! ## Size in bytes -/

/-- The number of bytes of a text in UTF-8. -/
def byteSize (t : Text) : Nat :=
  t.foldr (fun c n => c.utf8Size + n) 0

@[simp] theorem byteSize_nil : byteSize [] = 0 := rfl

@[simp] theorem byteSize_cons (c : Char) (t : Text) :
    byteSize (c :: t) = c.utf8Size + byteSize t := rfl

@[simp] theorem byteSize_append (s t : Text) : byteSize (s ++ t) = byteSize s + byteSize t := by
  induction s with
  | nil => simp
  | cons c s ih => simp [ih, Nat.add_assoc]

/-! ## Cutting -/

/-- The pieces of a text between the occurrences of `sep`; there is always at least one. -/
def splitOn (sep : Char) (t : Text) : List Text :=
  t.foldr (fun c pieces => if c = sep then [] :: pieces else pieces.modifyHead (c :: ·)) [[]]

@[simp] theorem splitOn_nil (sep : Char) : splitOn sep [] = [[]] := rfl

theorem splitOn_cons (sep c : Char) (t : Text) :
    splitOn sep (c :: t) =
      if c = sep then [] :: splitOn sep t else (splitOn sep t).modifyHead (c :: ·) := rfl

theorem splitOn_ne_nil (sep : Char) (t : Text) : splitOn sep t ≠ [] := by
  induction t with
  | nil => simp
  | cons c t ih =>
      rw [splitOn_cons]
      split
      · simp
      · cases h : splitOn sep t with
        | nil => exact absurd h ih
        | cons p ps => simp

/-- The texts of a list with `sep` between each two of them. -/
def join (sep : Char) : List Text → Text
  | [] => []
  | [p] => p
  | p :: q :: ps => p ++ sep :: join sep (q :: ps)

theorem join_splitOn (sep : Char) (t : Text) : join sep (splitOn sep t) = t := by
  induction t with
  | nil => rfl
  | cons c t ih =>
      rw [splitOn_cons]
      cases h : splitOn sep t with
      | nil => exact absurd h (splitOn_ne_nil sep t)
      | cons p ps =>
          rw [h] at ih
          split
          · subst c
            simp [join, ih]
          · cases ps with
            | nil => simpa [join] using ih
            | cons q qs => simpa [join] using ih

theorem dropWhile_ne_eq_cons {sep c : Char} {t rest : Text}
    (h : t.dropWhile (· != sep) = c :: rest) :
    c = sep ∧ t = t.takeWhile (· != sep) ++ sep :: rest := by
  have hc : (c != sep) = false := by
    have := List.head?_dropWhile_not (· != sep) t
    rw [h] at this
    simpa using this
  have hc : c = sep := by simpa using hc
  refine ⟨hc, ?_⟩
  subst hc
  rw [← h, List.takeWhile_append_dropWhile]

/-- The characters that lie wholly within the first `n` bytes. -/
def takeBytes (n : Nat) : Text → Text
  | [] => []
  | c :: rest => if c.utf8Size ≤ n then c :: takeBytes (n - c.utf8Size) rest else []

/-- The text from its `n`-th byte on, if a character begins there. -/
def dropBytes (n : Nat) : Text → Text
  | [] => []
  | c :: rest => if n = 0 then c :: rest else dropBytes (n - c.utf8Size) rest

theorem takeBytes_append (s t : Text) : takeBytes (byteSize s) (s ++ t) = s := by
  induction s with
  | nil =>
      cases t with
      | nil => rfl
      | cons c t =>
          have hc := c.utf8Size_pos
          simp [takeBytes]
          omega
  | cons c s ih => simp [takeBytes, ih]

theorem dropBytes_append (s t : Text) : dropBytes (byteSize s) (s ++ t) = t := by
  induction s with
  | nil => cases t <;> simp [dropBytes]
  | cons c s ih =>
      have hc := c.utf8Size_pos
      rw [List.cons_append, dropBytes, byteSize_cons, if_neg (by omega),
        Nat.add_sub_cancel_left, ih]

/-! ## Blanks at the ends -/

/-- A text without the blanks at its start. -/
def trimStart (t : Text) : Text :=
  t.dropWhile isBlank

/-- A text without the blanks at its end. -/
def trimEnd (t : Text) : Text :=
  t.foldr (fun c kept => if kept.isEmpty && isBlank c then [] else c :: kept) []

/-- A text without the blanks at its start and at its end. -/
def trim (t : Text) : Text :=
  trimStart (trimEnd t)

@[simp] theorem trimEnd_nil : trimEnd [] = [] := rfl

theorem trimEnd_cons (c : Char) (t : Text) :
    trimEnd (c :: t) = if (trimEnd t).isEmpty && isBlank c then [] else c :: trimEnd t := rfl

theorem exists_trimEnd (t : Text) :
    ∃ after : Text, t = trimEnd t ++ after ∧ ∀ c ∈ after, isBlank c = true := by
  induction t with
  | nil => exact ⟨[], by simp⟩
  | cons c t ih =>
      obtain ⟨after, ht, hafter⟩ := ih
      rw [trimEnd_cons]
      split
      · rename_i h
        simp only [Bool.and_eq_true, List.isEmpty_iff] at h
        rw [h.1, List.nil_append] at ht
        refine ⟨c :: t, rfl, ?_⟩
        intro d hd
        rcases List.mem_cons.mp hd with rfl | hd
        · exact h.2
        · exact hafter d (ht ▸ hd)
      · exact ⟨after, by rw [List.cons_append, ← ht], hafter⟩

theorem exists_trim (t : Text) :
    ∃ before after : Text, t = before ++ trim t ++ after ∧
      (∀ c ∈ before, isBlank c = true) ∧ ∀ c ∈ after, isBlank c = true := by
  obtain ⟨after, ht, hafter⟩ := exists_trimEnd t
  refine ⟨(trimEnd t).takeWhile isBlank, after, ?_, ?_, hafter⟩
  · rw [trim, trimStart, List.takeWhile_append_dropWhile]
    exact ht
  · intro c hc
    exact List.all_eq_true.mp List.all_takeWhile c hc

/-- A text without one `last` at its end, if it ends in one. -/
def dropLastChar (last : Char) (t : Text) : Text :=
  if t.getLast? = some last then t.dropLast else t

/-! ## Letter case -/

/-- A text with the letters `a` to `z` in upper case. -/
def upper (t : Text) : Text :=
  t.map Char.toUpper

end Text

end MightyAsm
