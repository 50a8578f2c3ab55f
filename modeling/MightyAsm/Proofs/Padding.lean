import Mathlib.Algebra.GroupWithZero.Nat
import Mathlib.Data.List.TakeWhile
import MightyAsm.Text.Identifier

/-!
# Padding and splitting texts

Blanks at the ends of a text are padding: `trim` removes them, however many there are.
A separator that is not blank cuts a text into the same parts whether or not the text was
trimmed before, as long as the parts are trimmed afterwards.

* `trim_pad`: trimming does not see blanks put around a text;
* `splitOn_append`: a text with the separator in it is split on either side of it;
* `splitOn_join`: a split undoes a join of parts without the separator;
* `map_trim_splitOn_trim`: trimming before a split does not matter for the trimmed parts;
* `sum_byteSize_splitOn_le`: the parts of a split have no more bytes than the text.
-/

namespace MightyAsm.Text

/-! ## Blank texts -/

/-- A text of nothing but blanks. -/
def Blank (t : Text) : Prop := ∀ c ∈ t, isBlank c = true

theorem blank_nil : Blank [] := by simp [Blank]

theorem blank_cons {c : Char} {t : Text} : Blank (c :: t) ↔ isBlank c = true ∧ Blank t := by
  simp [Blank]

theorem not_mem_of_blank {t : Text} {sep : Char} (hsep : isBlank sep = false) (h : Blank t) :
    sep ∉ t := by
  intro hmem
  rw [h sep hmem] at hsep
  cases hsep

/-! ## Trimming -/

theorem trimEnd_eq_nil_iff {t : Text} : trimEnd t = [] ↔ Blank t := by
  induction t with
  | nil => simp [blank_nil]
  | cons c t ih =>
      rw [trimEnd_cons, blank_cons, ← ih]
      by_cases hc : isBlank c = true
      · by_cases ht : trimEnd t = [] <;> simp [hc, ht]
      · simp [hc]

theorem trimEnd_append_of_blank (t : Text) {after : Text} (h : Blank after) :
    trimEnd (t ++ after) = trimEnd t := by
  induction t with
  | nil => simpa using trimEnd_eq_nil_iff.mpr h
  | cons c t ih => rw [List.cons_append, trimEnd_cons, trimEnd_cons, ih]

theorem trimEnd_append_of_ne_nil (s : Text) {t : Text} (h : trimEnd t ≠ []) :
    trimEnd (s ++ t) = s ++ trimEnd t := by
  induction s with
  | nil => rfl
  | cons c s ih =>
      simp [trimEnd_cons, ih, h]

theorem trimStart_append_of_blank {before : Text} (h : Blank before) (t : Text) :
    trimStart (before ++ t) = trimStart t :=
  List.dropWhile_append_of_pos h

theorem trim_eq_nil_iff {t : Text} : trim t = [] ↔ Blank t := by
  rw [trim, trimStart, List.dropWhile_eq_nil_iff]
  constructor
  · intro h
    obtain ⟨after, ht, hafter⟩ := exists_trimEnd t
    intro c hc
    rw [ht, List.mem_append] at hc
    exact hc.elim (h c) (hafter c)
  · intro h
    simp [trimEnd_eq_nil_iff.mpr h]

/-- Blanks around a text do not change what trimming leaves of it. -/
theorem trim_pad {before after : Text} (hbefore : Blank before) (hafter : Blank after)
    (t : Text) : trim (before ++ (t ++ after)) = trim t := by
  rw [trim, ← List.append_assoc, trimEnd_append_of_blank _ hafter]
  by_cases ht : trimEnd t = []
  · have hblank : Blank (before ++ t) := by
      intro c hc
      exact (List.mem_append.mp hc).elim (hbefore c) (trimEnd_eq_nil_iff.mp ht c)
    rw [trimEnd_eq_nil_iff.mpr hblank, trim, ht]
  · rw [trimEnd_append_of_ne_nil _ ht, trimStart_append_of_blank hbefore, trim]

theorem trim_trim (t : Text) : trim (trim t) = trim t := by
  obtain ⟨before, after, ht, hbefore, hafter⟩ := exists_trim t
  rw [List.append_assoc] at ht
  have hpad := trim_pad hbefore hafter (trim t)
  rw [← ht] at hpad
  exact hpad.symm

theorem trim_cons_of_blank {c : Char} (hc : isBlank c = true) (t : Text) :
    trim (c :: t) = trim t := by
  have h : trim ([c] ++ (t ++ [])) = trim t := trim_pad (by simp [Blank, hc]) blank_nil t
  simpa using h

theorem trimEnd_eq_self_of_noBlank {t : Text} (h : ∀ c ∈ t, isBlank c = false) :
    trimEnd t = t := by
  induction t with
  | nil => rfl
  | cons c t ih =>
      have hc : isBlank c = false := h c List.mem_cons_self
      simp [trimEnd_cons, hc, ih fun d hd => h d (List.mem_cons_of_mem c hd)]

theorem trimStart_cons_of_not_blank {c : Char} (hc : isBlank c = false) (t : Text) :
    trimStart (c :: t) = c :: t := by
  simp [trimStart, hc]

theorem trim_eq_self_of_noBlank {t : Text} (h : ∀ c ∈ t, isBlank c = false) : trim t = t := by
  rw [trim, trimEnd_eq_self_of_noBlank h]
  cases t with
  | nil => rfl
  | cons c t => exact trimStart_cons_of_not_blank (h c List.mem_cons_self) t

theorem trim_append_of_noBlank {c : Char} (hc : isBlank c = false) (s : Text) {t : Text}
    (hne : t ≠ []) (ht : ∀ d ∈ t, isBlank d = false) : trim (c :: s ++ t) = c :: s ++ t := by
  rw [trim, trimEnd_append_of_ne_nil _ (by rwa [trimEnd_eq_self_of_noBlank ht]),
    trimEnd_eq_self_of_noBlank ht]
  exact trimStart_cons_of_not_blank hc _

/-! ## Splitting -/

theorem exists_splitOn_eq_cons (sep : Char) (t : Text) :
    ∃ p ps, splitOn sep t = p :: ps := by
  cases h : splitOn sep t with
  | nil => exact absurd h (splitOn_ne_nil sep t)
  | cons p ps => exact ⟨p, ps, rfl⟩

theorem splitOn_eq_singleton {sep : Char} {t : Text} (h : sep ∉ t) : splitOn sep t = [t] := by
  induction t with
  | nil => rfl
  | cons c t ih =>
      simp only [List.mem_cons, not_or] at h
      rw [splitOn_cons, if_neg (Ne.symm h.1), ih h.2]
      rfl

theorem splitOn_append (sep : Char) (s t : Text) :
    splitOn sep (s ++ sep :: t) = splitOn sep s ++ splitOn sep t := by
  induction s with
  | nil => simp [splitOn_cons]
  | cons c s ih =>
      obtain ⟨p, ps, hp⟩ := exists_splitOn_eq_cons sep s
      rw [List.cons_append, splitOn_cons, splitOn_cons, ih, hp]
      split
      · rfl
      · rfl

theorem splitOn_append_sep {sep : Char} {p : Text} (h : sep ∉ p) (t : Text) :
    splitOn sep (p ++ sep :: t) = p :: splitOn sep t := by
  rw [splitOn_append, splitOn_eq_singleton h, List.singleton_append]

theorem not_mem_of_mem_splitOn {sep : Char} {t part : Text} (h : part ∈ splitOn sep t) :
    sep ∉ part := by
  induction t generalizing part with
  | nil =>
      rw [splitOn_nil, List.mem_singleton] at h
      simp [h]
  | cons c t ih =>
      obtain ⟨p, ps, hp⟩ := exists_splitOn_eq_cons sep t
      rw [hp] at ih
      rw [splitOn_cons, hp] at h
      split at h
      · rcases List.mem_cons.mp h with rfl | h
        · simp
        · exact ih h
      · rename_i hc
        rcases List.mem_cons.mp h with rfl | h
        · simp [Ne.symm hc, ih List.mem_cons_self]
        · exact ih (List.mem_cons_of_mem p h)

theorem length_splitOn (sep : Char) (t : Text) : (splitOn sep t).length = t.count sep + 1 := by
  induction t with
  | nil => rfl
  | cons c t ih =>
      rw [splitOn_cons, List.count_cons]
      by_cases hc : c = sep
      · simp [hc, ih]
      · simp [hc, ih]

theorem join_append {sep : Char} {ps qs : List Text} (hps : ps ≠ []) (hqs : qs ≠ []) :
    join sep (ps ++ qs) = join sep ps ++ sep :: join sep qs := by
  induction ps with
  | nil => exact absurd rfl hps
  | cons p ps ih =>
      cases ps with
      | nil =>
          cases qs with
          | nil => exact absurd rfl hqs
          | cons q qs => rfl
      | cons p' ps =>
          have htail := ih (by simp)
          simp only [List.cons_append, join] at htail ⊢
          rw [htail, List.append_assoc, List.cons_append]

theorem splitOn_join {sep : Char} {ps : List Text} (hne : ps ≠ []) (h : ∀ p ∈ ps, sep ∉ p) :
    splitOn sep (join sep ps) = ps := by
  induction ps with
  | nil => exact absurd rfl hne
  | cons p ps ih =>
      have hp : sep ∉ p := h p List.mem_cons_self
      cases ps with
      | nil => exact splitOn_eq_singleton hp
      | cons q ps =>
          rw [join, splitOn_append_sep hp,
            ih (by simp) (fun r hr => h r (List.mem_cons_of_mem p hr))]

theorem subset_join {sep : Char} {parts : List Text} {part : Text} (h : part ∈ parts) :
    ∀ c ∈ part, c ∈ join sep parts := by
  intro c hc
  induction parts with
  | nil => cases h
  | cons p parts ih =>
      cases parts with
      | nil =>
          rw [List.mem_singleton] at h
          exact h ▸ hc
      | cons q parts =>
          rw [join, List.mem_append]
          rcases List.mem_cons.mp h with rfl | h
          · exact Or.inl hc
          · exact Or.inr (List.mem_cons_of_mem _ (ih h))

theorem eq_or_mem_of_mem_join {sep c : Char} {parts : List Text} (h : c ∈ join sep parts) :
    c = sep ∨ ∃ part ∈ parts, c ∈ part := by
  induction parts with
  | nil => cases h
  | cons p parts ih =>
      cases parts with
      | nil => exact Or.inr ⟨p, List.mem_cons_self, h⟩
      | cons q parts =>
          rw [join, List.mem_append, List.mem_cons] at h
          rcases h with h | h | h
          · exact Or.inr ⟨p, List.mem_cons_self, h⟩
          · exact Or.inl h
          · rcases ih h with h | ⟨part, hpart, hc⟩
            · exact Or.inl h
            · exact Or.inr ⟨part, List.mem_cons_of_mem p hpart, hc⟩

/-- Blanks at the end of a text only pad the last of its parts. -/
theorem map_trimEnd_splitOn_append {sep : Char} (hsep : isBlank sep = false) (t : Text)
    {after : Text} (hafter : Blank after) :
    (splitOn sep (t ++ after)).map trimEnd = (splitOn sep t).map trimEnd := by
  induction t with
  | nil =>
      rw [List.nil_append, splitOn_eq_singleton (not_mem_of_blank hsep hafter)]
      simpa using trimEnd_eq_nil_iff.mpr hafter
  | cons c t ih =>
      obtain ⟨p, ps, hp⟩ := exists_splitOn_eq_cons sep (t ++ after)
      obtain ⟨q, qs, hq⟩ := exists_splitOn_eq_cons sep t
      rw [hp, hq] at ih
      rw [List.cons_append, splitOn_cons, splitOn_cons, hp, hq]
      split
      · simpa using ih
      · -- `trimEnd (c :: p)` depends on `p` only through `trimEnd p`
        simp only [List.map_cons, List.cons.injEq] at ih
        simp [trimEnd_cons, ih]

theorem map_trim_splitOn_append {sep : Char} (hsep : isBlank sep = false) (t : Text)
    {after : Text} (hafter : Blank after) :
    (splitOn sep (t ++ after)).map trim = (splitOn sep t).map trim := by
  have h := congrArg (List.map trimStart) (map_trimEnd_splitOn_append hsep t hafter)
  rw [List.map_map, List.map_map] at h
  exact h

/-- Blanks at the start of a text only pad the first of its parts. -/
theorem map_trim_splitOn_prepend {sep : Char} (hsep : isBlank sep = false) {before : Text}
    (hbefore : Blank before) (t : Text) :
    (splitOn sep (before ++ t)).map trim = (splitOn sep t).map trim := by
  induction before with
  | nil => rfl
  | cons c before ih =>
      obtain ⟨hc, hbefore⟩ := blank_cons.mp hbefore
      obtain ⟨p, ps, hp⟩ := exists_splitOn_eq_cons sep (before ++ t)
      have hne : c ≠ sep := by
        rintro rfl
        rw [hc] at hsep
        cases hsep
      rw [← ih hbefore, List.cons_append, splitOn_cons, if_neg hne, hp]
      simp [trim_cons_of_blank hc]

/-- The trimmed parts of a text are those of the trimmed text. -/
theorem map_trim_splitOn_trim {sep : Char} (hsep : isBlank sep = false) (t : Text) :
    (splitOn sep (trim t)).map trim = (splitOn sep t).map trim := by
  obtain ⟨before, after, ht, hbefore, hafter⟩ := exists_trim t
  calc (splitOn sep (trim t)).map trim
      = (splitOn sep (before ++ trim t)).map trim :=
        (map_trim_splitOn_prepend hsep hbefore _).symm
    _ = (splitOn sep (before ++ trim t ++ after)).map trim :=
        (map_trim_splitOn_append hsep _ hafter).symm
    _ = (splitOn sep t).map trim := by rw [← ht]

/-! ## The first word -/

/-- The part of a text before its first blank. -/
def word (t : Text) : Text := t.takeWhile fun c => !isBlank c

/-- The rest of a text from its first blank on. -/
def afterWord (t : Text) : Text := t.dropWhile fun c => !isBlank c

theorem word_append_afterWord (t : Text) : t.word ++ t.afterWord = t :=
  List.takeWhile_append_dropWhile

/-- A text is cut where its first part ends, whatever follows. -/
theorem span_append {p : Char → Bool} {front rest : Text} (hfront : ∀ c ∈ front, p c = true)
    (hrest : ∀ c ∈ rest.head?, p c = false) :
    (front ++ rest).takeWhile p = front ∧ (front ++ rest).dropWhile p = rest := by
  rw [List.takeWhile_append_of_pos hfront, List.dropWhile_append_of_pos hfront]
  cases rest with
  | nil => simp
  | cons c rest =>
      have hc : p c = false := hrest c rfl
      simp [hc]

theorem word_append {m : Text} (hm : ∀ c ∈ m, isBlank c = false) {rest : Text}
    (hrest : ∀ c ∈ rest.head?, isBlank c = true) :
    (m ++ rest).word = m ∧ (m ++ rest).afterWord = rest :=
  span_append (by simpa using hm) (by simpa using hrest)

theorem isBlank_head?_append {gap : Text} (hgap : gap ≠ []) (hblank : gap.Blank)
    (t : Text) : ∀ c ∈ (gap ++ t).head?, isBlank c = true := by
  cases gap with
  | nil => exact absurd rfl hgap
  | cons g gap =>
      intro c hc
      have hg : g = c := by simpa using hc
      exact hg ▸ hblank g List.mem_cons_self

theorem afterWord_eq_cons {t rest : Text} {c : Char} (h : t.afterWord = c :: rest) :
    isBlank c = true := by
  have hc := List.head?_dropWhile_not (fun c => !isBlank c) t
  rw [show t.dropWhile (fun c => !isBlank c) = c :: rest from h] at hc
  simpa using hc

/-! ## Sizes -/

theorem length_le_byteSize (t : Text) : t.length ≤ byteSize t := by
  induction t with
  | nil => simp
  | cons c t ih =>
      have hc := c.utf8Size_pos
      simp only [List.length_cons, byteSize_cons]
      omega

theorem sum_byteSize_splitOn_le (sep : Char) (t : Text) :
    ((splitOn sep t).map byteSize).sum ≤ byteSize t := by
  induction t with
  | nil => simp
  | cons c t ih =>
      obtain ⟨p, ps, hp⟩ := exists_splitOn_eq_cons sep t
      rw [hp] at ih
      rw [splitOn_cons, hp]
      simp only [List.map_cons, List.sum_cons, byteSize_cons] at ih ⊢
      split
      · simp only [List.map_cons, List.sum_cons, byteSize_nil]
        omega
      · simp only [List.modifyHead_cons, List.map_cons, List.sum_cons, byteSize_cons]
        omega

end MightyAsm.Text
