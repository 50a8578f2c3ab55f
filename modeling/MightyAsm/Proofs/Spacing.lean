import MightyAsm.Proofs.Words

/-!
# Blanks between words

The words of a line do not depend on how many blanks stand around them. Blanks around the
whole are trimmed, those after the mnemonic are skipped, and those around a comma are trimmed
from the operands on its two sides.

* `ConstDef.read?_append`: a definition is read as its name and what follows it;
* `Text.bodyWords_pad`: blanks around the instruction part;
* `Text.bodyWords_gap`: blanks between the mnemonic and the operands;
* `Text.operands_append_trimEnd`: what follows the mnemonic is cut at its commas;
* `Text.bodyWords_comma`: blanks around a comma after the mnemonic.
-/

namespace MightyAsm

/-! ## Constant definitions -/

theorem not_isIdentChar_of_isBlank {c : Char} (h : isBlank c = true) : isIdentChar c = false := by
  by_contra hident
  have hblank := not_isBlank_of_isIdentChar ((Bool.not_eq_false _).mp hident)
  rw [h] at hblank
  cases hblank

namespace ConstDef

/-- The value that a text gives to the name before it. -/
def value? (t : Text) : Option UInt8 := do
  let rest ← afterBlanks? t
  guard (isKeyword rest.word)
  dollarByte? (← afterBlanks? rest.afterWord)

theorem read?_append {name rest : Text} (hname : isIdentifier name = true)
    (hrest : ∀ c ∈ rest.head?, isIdentChar c = false) :
    read? (name ++ rest) = (value? rest).map (ConstDef.mk name) := by
  obtain ⟨htake, hdrop⟩ := Text.span_append (isIdentChar_of_isIdentifier hname) hrest
  simp only [read?, htake, hdrop, hname]
  unfold value? Text.word Text.afterWord
  cases afterBlanks? rest with
  | none => rfl
  | some rest =>
      by_cases hkey : isKeyword (rest.takeWhile fun c => !isBlank c) = true
      · cases hvalue : afterBlanks? (rest.dropWhile fun c => !isBlank c) with
        | none => simp [hkey, hvalue]
        | some value => cases hbyte : dollarByte? value <;> simp [hkey, hvalue, hbyte]
      · simp [hkey]

theorem afterBlanks?_append {gap : Text} (hgap : gap ≠ []) (hblank : gap.Blank) (t : Text) :
    afterBlanks? (gap ++ t) = some t.trimStart := by
  have htrim := Text.trimStart_append_of_blank hblank t
  cases gap with
  | nil => exact absurd rfl hgap
  | cons g gap =>
      have hg : isBlank g = true := hblank g List.mem_cons_self
      rw [List.cons_append] at htrim ⊢
      simp only [afterBlanks?, hg, if_true, htrim]

/-- The first word of a definition is the name. -/
theorem word_of_read? {t : Text} {c : ConstDef} (h : read? t = some c) :
    t.word = c.name ∧ isIdentifier c.name = true := by
  obtain ⟨gap, keyword, gap', digits, hname, hgap, hblank, -, -, -, -, -, rfl⟩ := exists_of_read? h
  have hnameBlank : ∀ ch ∈ c.name, isBlank ch = false := fun ch hch =>
    not_isBlank_of_isIdentChar (isIdentChar_of_isIdentifier hname ch hch)
  exact ⟨(Text.word_append hnameBlank (Text.isBlank_head?_append hgap hblank _)).1, hname⟩

theorem read?_eq_none_of_word {t : Text} (h : ¬ isIdentifier t.word = true) : read? t = none := by
  cases hread : read? t with
  | none => rfl
  | some c =>
      obtain ⟨hword, hname⟩ := word_of_read? hread
      rw [hword] at h
      exact absurd hname h

/-- No comma stands in the definition of a constant. -/
theorem read?_eq_none_of_comma {t : Text} (h : ',' ∈ t) : read? t = none := by
  cases hread : read? t with
  | none => rfl
  | some c =>
      obtain ⟨hword, hname⟩ := word_of_read? hread
      have hcomma : ',' ∉ t.word := by
        rw [hword]
        exact fun hmem => absurd (isIdentChar_of_isIdentifier hname ',' hmem) (by decide)
      -- What follows the name is a single operand.
      have hlength := congrArg List.length (cut_of_read? hread).2
      simp only [List.length_map, Text.length_splitOn, List.length_singleton] at hlength
      have hafter : ',' ∉ t.afterWord := List.count_eq_zero.mp (by omega)
      rw [← t.word_append_afterWord, List.mem_append] at h
      exact absurd h (not_or.mpr ⟨hcomma, hafter⟩)

theorem read?_gap {m gap gap' : Text} (hm : ∀ c ∈ m, isBlank c = false) (hgap : gap ≠ [])
    (hblank : gap.Blank) (hgap' : gap' ≠ []) (hblank' : gap'.Blank) (t : Text) :
    read? (m ++ (gap ++ t)) = read? (m ++ (gap' ++ t)) := by
  have hhead : ∀ {g : Text}, g ≠ [] → g.Blank → ∀ c ∈ (g ++ t).head?, isIdentChar c = false :=
    fun hg hgblank c hc => not_isIdentChar_of_isBlank (Text.isBlank_head?_append hg hgblank t c hc)
  by_cases hname : isIdentifier m = true
  · rw [read?_append hname (hhead hgap hblank), read?_append hname (hhead hgap' hblank')]
    simp only [value?, afterBlanks?_append hgap hblank, afterBlanks?_append hgap' hblank']
  · rw [read?_eq_none_of_word, read?_eq_none_of_word]
    · rwa [(Text.word_append hm (Text.isBlank_head?_append hgap' hblank' t)).1]
    · rwa [(Text.word_append hm (Text.isBlank_head?_append hgap hblank t)).1]

end ConstDef

/-! ## Instruction parts -/

namespace Text

theorem isBlank_comma : isBlank ',' = false := by decide

theorem blank_append {s t : Text} : Blank (s ++ t) ↔ Blank s ∧ Blank t :=
  List.forall_mem_append

theorem head?_trimStart (t : Text) : ∀ c ∈ t.trimStart.head?, isBlank c = false := by
  intro c hc
  have hstop := List.head?_dropWhile_not isBlank t
  rw [show (t.dropWhile isBlank).head? = some c from hc] at hstop
  exact hstop

theorem isBlank_of_mem_word (t : Text) : ∀ c ∈ t.word, isBlank c = false := by
  intro c hc
  simpa using List.mem_takeWhile_imp hc

theorem word_ne_nil {t : Text} (hne : t ≠ []) (htrim : t.trim = t) : t.word ≠ [] := by
  cases t with
  | nil => exact absurd rfl hne
  | cons c t =>
      have hc : isBlank c = false := by
        apply head?_trimStart (trimEnd (c :: t)) c
        rw [show (trimEnd (c :: t)).trimStart = c :: t from htrim]
        rfl
      simp [word, hc]

/-- What follows the first word begins with a blank. -/
theorem ne_nil_of_afterWord_eq {t before after : Text} (hblank : ¬ t.afterWord.Blank)
    (h : t.afterWord = before ++ (t.afterWord.trim ++ after)) : before ≠ [] := by
  rintro rfl
  cases htrim : t.afterWord.trim with
  | nil => exact hblank (trim_eq_nil_iff.mp htrim)
  | cons c rest =>
      rw [htrim, List.nil_append, List.cons_append] at h
      have hc := head?_trimStart t.afterWord.trimEnd c (by
        rw [show t.afterWord.trimEnd.trimStart = c :: rest from htrim]
        rfl)
      rw [afterWord_eq_cons h] at hc
      cases hc

theorem inner?_of_not_blank {t : Text} (h : ¬ t.Blank) : t.inner? = some t.trim := by
  unfold inner?
  split
  · rename_i hnil
    exact absurd (trim_eq_nil_iff.mp hnil) h
  · rfl

theorem inner?_pad {before after : Text} (hbefore : before.Blank) (hafter : after.Blank)
    (t : Text) : inner? (before ++ (t ++ after)) = inner? t := by
  simp only [inner?, trim_pad hbefore hafter]

theorem bodyWords_pad {before after : Text} (hbefore : before.Blank) (hafter : after.Blank)
    (t : Text) : bodyWords (before ++ (t ++ after)) = bodyWords t := by
  rw [bodyWords, inner?_pad hbefore hafter, bodyWords]

theorem bodyWords_of_blank {t : Text} (h : t.Blank) : bodyWords t = .blank := by
  simp only [bodyWords, inner?, trim_eq_nil_iff.mpr h]

theorem map_trim_splitOn_trimEnd (t : Text) :
    (splitOn ',' (trimEnd t)).map trim = (splitOn ',' t).map trim := by
  obtain ⟨after, hsplit, hafter⟩ := exists_trimEnd t
  have hparts := map_trim_splitOn_append isBlank_comma (trimEnd t) hafter
  rw [← hsplit] at hparts
  exact hparts.symm

section Words

variable {m : Text} (hne : m ≠ []) (hm : ∀ c ∈ m, isBlank c = false)

include hne hm

/-- The first word stays whole when what follows it is trimmed. -/
theorem trim_word_append (t : Text) : trim (m ++ t) = m ++ trimEnd t := by
  have hend : trimEnd (m ++ t) = m ++ trimEnd t := by
    by_cases ht : trimEnd t = []
    · rw [ht, trimEnd_append_of_blank m (trimEnd_eq_nil_iff.mp ht), List.append_nil,
        trimEnd_eq_self_of_noBlank hm]
    · exact trimEnd_append_of_ne_nil m ht
  rw [trim, hend]
  cases m with
  | nil => exact absurd rfl hne
  | cons c m => exact trimStart_cons_of_not_blank (hm c List.mem_cons_self) _

theorem bodyWords_word_append (t : Text) : bodyWords (m ++ t) = instrWords (m ++ trimEnd t) := by
  have hblank : ¬ (m ++ t).Blank := by
    obtain ⟨c, hc⟩ := List.exists_mem_of_ne_nil m hne
    intro hblank
    have htrue := hblank c (List.mem_append_left t hc)
    rw [hm c hc] at htrue
    cases htrue
  rw [bodyWords, inner?_of_not_blank hblank, trim_word_append hne hm]

omit hne in
theorem instrWords_gap {gap gap' : Text} (hgap : gap ≠ []) (hblank : gap.Blank) (hgap' : gap' ≠ [])
    (hblank' : gap'.Blank) (t : Text) :
    instrWords (m ++ (gap ++ t)) = instrWords (m ++ (gap' ++ t)) := by
  obtain ⟨hword, hafter⟩ := word_append hm (isBlank_head?_append hgap hblank t)
  obtain ⟨hword', hafter'⟩ := word_append hm (isBlank_head?_append hgap' hblank' t)
  have htrim : ∀ {g : Text}, g.Blank → trim (g ++ t) = trim t := by
    intro g hg
    simpa using trim_pad hg blank_nil t
  have hoperands : operands (m ++ (gap ++ t)) = operands (m ++ (gap' ++ t)) := by
    simp only [operands, hafter, hafter', htrim hblank, htrim hblank',
      map_trim_splitOn_prepend isBlank_comma hblank,
      map_trim_splitOn_prepend isBlank_comma hblank']
  unfold instrWords
  rw [ConstDef.read?_gap hm hgap hblank hgap' hblank', hword, hword', hoperands]

/-- The number of blanks after the mnemonic does not matter. -/
theorem bodyWords_gap {gap gap' : Text} (hgap : gap ≠ []) (hblank : gap.Blank) (hgap' : gap' ≠ [])
    (hblank' : gap'.Blank) (t : Text) :
    bodyWords (m ++ (gap ++ t)) = bodyWords (m ++ (gap' ++ t)) := by
  rw [bodyWords_word_append hne hm, bodyWords_word_append hne hm]
  by_cases ht : trimEnd t = []
  · have htblank := trimEnd_eq_nil_iff.mp ht
    rw [trimEnd_eq_nil_iff.mpr (blank_append.mpr ⟨hblank, htblank⟩),
      trimEnd_eq_nil_iff.mpr (blank_append.mpr ⟨hblank', htblank⟩)]
  · rw [trimEnd_append_of_ne_nil gap ht, trimEnd_append_of_ne_nil gap' ht]
    exact instrWords_gap hm hgap hblank hgap' hblank' _

omit hne in
theorem word_append_trimEnd {t : Text} (ht : ∀ c ∈ t.head?, isBlank c = true) :
    (m ++ trimEnd t).word = m ∧ (m ++ trimEnd t).afterWord = trimEnd t := by
  obtain ⟨after, hsplit, -⟩ := exists_trimEnd t
  apply word_append hm
  intro c hc
  refine ht c ?_
  rw [hsplit, List.head?_append, hc]
  rfl

omit hne in
/-- What follows the mnemonic is cut at its commas. -/
theorem operands_append_trimEnd {t : Text} (ht : ∀ c ∈ t.head?, isBlank c = true)
    (hblank : ¬ t.Blank) : operands (m ++ trimEnd t) = (t.splitOn ',').map trim := by
  have htrim : trim (trimEnd t) = trim t := by
    obtain ⟨after, hsplit, hblank⟩ := exists_trimEnd t
    have hpad := trim_pad blank_nil hblank (trimEnd t)
    rw [List.nil_append, ← hsplit] at hpad
    exact hpad.symm
  unfold operands
  rw [(word_append_trimEnd hm ht).2, htrim]
  split
  · rename_i hnil
    exact absurd (trim_eq_nil_iff.mp hnil) hblank
  · exact map_trim_splitOn_trimEnd t

/-- The words are a mnemonic and operands, unless the whole is a definition. -/
theorem bodyWords_of_not_blank {t : Text} (ht : ∀ c ∈ t.head?, isBlank c = true)
    (hblank : ¬ t.Blank) (hread : ConstDef.read? (m ++ trimEnd t) = none) :
    bodyWords (m ++ t) = .instruction m ((t.splitOn ',').map trim) := by
  rw [bodyWords_word_append hne hm, instrWords, hread, (word_append_trimEnd hm ht).1,
    operands_append_trimEnd hm ht hblank]

theorem bodyWords_of_comma {t : Text} (ht : ∀ c ∈ t.head?, isBlank c = true) (hcomma : ',' ∈ t) :
    bodyWords (m ++ t) = .instruction m ((t.splitOn ',').map trim) := by
  obtain ⟨after, hsplit, hafter⟩ := exists_trimEnd t
  have hmem : ',' ∈ trimEnd t := by
    rw [hsplit, List.mem_append] at hcomma
    exact hcomma.resolve_right (not_mem_of_blank isBlank_comma hafter)
  refine bodyWords_of_not_blank hne hm ht ?_ ?_
  · exact fun hblank => absurd (hblank ',' hcomma) (by decide)
  · exact ConstDef.read?_eq_none_of_comma (List.mem_append_right m hmem)

/-- Blanks around a comma are trimmed from the operands on its two sides. -/
theorem bodyWords_comma {t u v : Text} (ht : ∀ c ∈ t.head?, isBlank c = true) (htne : t ≠ [])
    (hu : u.Blank) (hv : v.Blank) (rest : Text) :
    bodyWords (m ++ (t ++ (u ++ ',' :: (v ++ rest)))) =
      .instruction m ((t.splitOn ',').map trim ++ (rest.splitOn ',').map trim) := by
  have hhead : ∀ c ∈ (t ++ (u ++ ',' :: (v ++ rest))).head?, isBlank c = true := by
    cases t with
    | nil => exact absurd rfl htne
    | cons g t => exact ht
  rw [bodyWords_of_comma hne hm hhead (by simp), ← List.append_assoc t u, splitOn_append,
    List.map_append, map_trim_splitOn_append isBlank_comma t hu,
    map_trim_splitOn_prepend isBlank_comma hv]

end Words

end Text

end MightyAsm
