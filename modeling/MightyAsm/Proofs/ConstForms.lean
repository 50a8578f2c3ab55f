import MightyAsm.Proofs.LetterCase
import MightyAsm.Proofs.Precedence

/-!
# The form of a constant definition

A constant definition is a name, a keyword, and a dollar sign with hexadecimal digits, with
blanks in between. `ConstForm` writes this down without saying how a text is read: the keyword
is one of two words up to case folding, and the value is that of the digits in base 16.

* `hexByte?_eq_some_iff`, `ConstDef.isKeyword_iff`: digits and keywords by their values;
* `ConstForm.text_injective`: a text has the form in one way only;
* `ConstDef.read?_eq_some_iff`: the constants that are read are those of the form;
* `ConstDef.read?_exact`: reading accepts just the texts of the form, each in one way;
* `ConstDef.never_shadows`: a definition is never an instruction.
-/

namespace MightyAsm

/-! ## Digits -/

/-- The hexadecimal digits in the order of their values. -/
def hexDigits : Text :=
  ['0', '1', '2', '3', '4', '5', '6', '7', '8', '9', 'a', 'b', 'c', 'd', 'e', 'f']

/-- A hexadecimal digit, in either letter case. -/
def IsHexDigit (c : Char) : Prop := c.toLower ∈ hexDigits

/-- The value of a text of hexadecimal digits. -/
def hexValue (digits : Text) : Nat :=
  digits.foldl (fun n c => 16 * n + hexDigits.idxOf c.toLower) 0

theorem hexDigit?_eq (c : Char) : hexDigit? c =
    if c.toLower ∈ hexDigits then some (hexDigits.idxOf c.toLower) else none := by
  refine forall_char (P := fun c => hexDigit? c =
    if c.toLower ∈ hexDigits then some (hexDigits.idxOf c.toLower) else none)
    (by decide +kernel) ?_ c
  intro c hc
  have hnot : c.toLower ∉ hexDigits := by
    rw [toLower_of_le hc]
    intro hmem
    have hlow : hexDigits.all (fun d => decide (d.toNat < 128)) = true := by decide
    have hlt : c.toNat < 128 := of_decide_eq_true (List.all_eq_true.mp hlow c hmem)
    omega
  have hle : ∀ last : Char, last.toNat < 128 → ¬ c ≤ last := by
    intro last hlast hle
    have hnat : c.toNat ≤ last.toNat := hle
    omega
  rw [if_neg hnot, hexDigit?, if_neg fun h => hle '9' (by decide) h.2,
    if_neg fun h => hle 'F' (by decide) h.2, if_neg fun h => hle 'f' (by decide) h.2]

theorem idxOf_lt_of_isHexDigit {c : Char} (h : IsHexDigit c) :
    hexDigits.idxOf c.toLower < 16 :=
  List.idxOf_lt_length_iff.mpr h

/-- A text of one or two hexadecimal digits. -/
structure IsHexByte (digits : Text) : Prop where
  length : digits.length = 1 ∨ digits.length = 2
  digit : ∀ c ∈ digits, IsHexDigit c

theorem IsHexByte.hexValue_lt {digits : Text} (h : IsHexByte digits) : hexValue digits < 256 := by
  obtain ⟨hlength, hdigit⟩ := h
  match digits with
  | [] => simp at hlength
  | [low] =>
      have hlow := idxOf_lt_of_isHexDigit (hdigit low (by simp))
      simp only [hexValue, List.foldl_cons, List.foldl_nil]
      omega
  | [high, low] =>
      have hhigh := idxOf_lt_of_isHexDigit (hdigit high (by simp))
      have hlow := idxOf_lt_of_isHexDigit (hdigit low (by simp))
      simp only [hexValue, List.foldl_cons, List.foldl_nil]
      omega
  | _ :: _ :: _ :: _ => simp at hlength

theorem hexByte?_of_isHexByte {digits : Text} (h : IsHexByte digits) :
    hexByte? digits = some (UInt8.ofNat (hexValue digits)) := by
  obtain ⟨hlength, hdigit⟩ := h
  match digits with
  | [] => simp at hlength
  | [low] =>
      have hlow : low.toLower ∈ hexDigits := hdigit low (by simp)
      simp [hexByte?, hexDigit?_eq, hexValue, hlow]
  | [high, low] =>
      have hhigh : high.toLower ∈ hexDigits := hdigit high (by simp)
      have hlow : low.toLower ∈ hexDigits := hdigit low (by simp)
      simp [hexByte?, hexDigit?_eq, hexValue, hhigh, hlow]
  | _ :: _ :: _ :: _ => simp at hlength

theorem isHexByte_of_hexByte? {digits : Text} {b : UInt8} (h : hexByte? digits = some b) :
    IsHexByte digits := by
  match digits with
  | [] => cases h
  | [low] =>
      refine ⟨.inl rfl, ?_⟩
      by_cases hlow : low.toLower ∈ hexDigits
      · simpa [IsHexDigit] using hlow
      · simp [hexByte?, hexDigit?_eq, hlow] at h
  | [high, low] =>
      refine ⟨.inr rfl, ?_⟩
      by_cases hhigh : high.toLower ∈ hexDigits
      · by_cases hlow : low.toLower ∈ hexDigits
        · simpa [IsHexDigit] using ⟨hhigh, hlow⟩
        · simp [hexByte?, hexDigit?_eq, hlow] at h
      · simp [hexByte?, hexDigit?_eq, hhigh] at h
  | _ :: _ :: _ :: _ => cases h

/-- One or two digits write the byte that has their value in base 16. -/
theorem hexByte?_eq_some_iff {digits : Text} {b : UInt8} :
    hexByte? digits = some b ↔ IsHexByte digits ∧ hexValue digits = b.toNat := by
  constructor
  · intro h
    have hdigits := isHexByte_of_hexByte? h
    rw [hexByte?_of_isHexByte hdigits, Option.some_inj] at h
    rw [← h, UInt8.toNat_ofNat', Nat.mod_eq_of_lt hdigits.hexValue_lt]
    exact ⟨hdigits, rfl⟩
  · rintro ⟨hdigits, hvalue⟩
    rw [hexByte?_of_isHexByte hdigits, hvalue, UInt8.ofNat_toNat]

/-! ## Keywords -/

/-- Simple case folding, as far as it leads to the letters from `a` to `z`. Besides the capital
letters only the long s and the Kelvin sign fold to one of these; characters that fold to others
are left as they are. -/
def foldCase (c : Char) : Char :=
  if c = 'ſ' then 's' else if c = '\u212a' then 'k' else c.toLower

/-- The words that make a definition. -/
def keywords : List Text := [['c', 'o', 'n', 's', 't'], ['e', 'q', 'u']]

/-- For the letters of keywords it does not matter whether characters are put in capital letters
or folded. -/
theorem keywordLetter_eq_iff {k : Char} (hk : k ∈ keywords.flatten) (c : Char) :
    ConstDef.keywordLetter c = k.toUpper ↔ foldCase c = k := by
  refine forall_char (P := fun c => ConstDef.keywordLetter c = k.toUpper ↔ foldCase c = k)
    ?_ ?_ c
  · have hall : (keywords.flatten.all fun k => decide (∀ n : Fin 128,
        ConstDef.keywordLetter (Char.ofNat n.val) = k.toUpper ↔
          foldCase (Char.ofNat n.val) = k)) = true := by decide +kernel
    exact of_decide_eq_true (List.all_eq_true.mp hall k hk)
  · intro c hc
    have hall : (keywords.flatten.all fun k => decide (k.toNat < 128 ∧ k.toUpper.toNat < 128 ∧
        k ≠ 'k' ∧ ('S' = k.toUpper ↔ 's' = k))) = true := by decide
    obtain ⟨hlt, hltUpper, hne, hs⟩ := of_decide_eq_true (List.all_eq_true.mp hall k hk)
    have hupper : c ≠ k.toUpper := fun h => by rw [h] at hc; omega
    have hself : c ≠ k := fun h => by rw [h] at hc; omega
    unfold ConstDef.keywordLetter foldCase
    rw [toUpper_of_le hc, toLower_of_le hc]
    by_cases hlong : c = 'ſ'
    · rw [if_pos hlong, if_pos hlong, hs]
    · rw [if_neg hlong, if_neg hlong]
      by_cases hkelvin : c = '\u212a'
      · rw [if_pos hkelvin]
        simp [hne.symm, hupper]
      · rw [if_neg hkelvin]
        simp [hupper, hself]

theorem map_keywordLetter_eq_iff {w : Text} (hw : w ∈ keywords) (t : Text) :
    t.map ConstDef.keywordLetter = w.upper ↔ t.map foldCase = w := by
  have hletter : ∀ k ∈ w, k ∈ keywords.flatten := fun k hk => List.mem_flatten.mpr ⟨w, hw, hk⟩
  rw [Text.upper, map_eq_map_iff_forall₂, ← List.map_id w, map_eq_map_iff_forall₂, List.map_id]
  constructor
  · intro h
    exact forall₂_imp_mem h fun c _ k hk => (keywordLetter_eq_iff (hletter k hk) c).mp
  · intro h
    exact forall₂_imp_mem h fun c _ k hk => (keywordLetter_eq_iff (hletter k hk) c).mpr

theorem ConstDef.isKeyword_iff {t : Text} :
    ConstDef.isKeyword t = true ↔ t.map foldCase ∈ keywords := by
  have hconst := @map_keywordLetter_eq_iff ['c', 'o', 'n', 's', 't'] (by decide) t
  have hequ := @map_keywordLetter_eq_iff ['e', 'q', 'u'] (by decide) t
  simp only [ConstDef.isKeyword, List.contains_iff_mem, keywords, List.mem_cons,
    List.not_mem_nil, or_false, ← hconst, ← hequ]
  rfl

theorem ConstDef.isBlank_of_isKeyword {t : Text} (h : ConstDef.isKeyword t = true) :
    ∀ c ∈ t, isBlank c = false := by
  intro c hc
  have hletters : [['C', 'O', 'N', 'S', 'T'], ['E', 'Q', 'U']].all (·.all isIdentStart) = true := by
    decide
  have hword := List.all_eq_true.mp hletters _ (List.contains_iff_mem.mp h)
  have hstart := List.all_eq_true.mp hword _ (List.mem_map_of_mem hc)
  unfold ConstDef.keywordLetter at hstart
  by_cases hlong : c = 'ſ'
  · rw [hlong]
    decide
  · rw [if_neg hlong] at hstart
    exact isBlank_eq_false_of_isOperandChar
      (isOperandChar_of_isIdentStart (isIdentStart_of_toUpper hstart))

/-! ## Definitions in parts -/

/-- One blank or more. -/
def Gap := {t : Text // t ≠ [] ∧ t.Blank}

theorem Gap.head? (g : Gap) (t : Text) : ∀ c ∈ (g.val ++ t).head?, isBlank c = true :=
  Text.isBlank_head?_append g.property.1 g.property.2 t

theorem Gap.afterBlanks? (g : Gap) {t : Text} (ht : ∀ c ∈ t.head?, isBlank c = false) :
    ConstDef.afterBlanks? (g.val ++ t) = some t := by
  have htrim : t.trimStart = t := (@Text.span_append isBlank [] t (by simp) ht).2
  rw [ConstDef.afterBlanks?_append g.property.1 g.property.2, htrim]

/-- The parts of a constant definition: a name, a keyword and digits, with gaps in between. -/
structure ConstForm where
  name : Text
  gap : Gap
  keyword : Text
  gap' : Gap
  digits : Text
  isIdentifier_name : isIdentifier name = true
  folds : keyword.map foldCase ∈ keywords
  isHexByte_digits : IsHexByte digits

namespace ConstForm

variable (f g : ConstForm)

/-- What follows the gap after the name. -/
def assignment : Text := f.keyword ++ (f.gap'.val ++ '$' :: f.digits)

def text : Text := f.name ++ (f.gap.val ++ f.assignment)

/-- The value of a constant is that of its digits in base 16. -/
def value : Nat := hexValue f.digits

theorem value_lt : f.value < 2 ^ 8 := f.isHexByte_digits.hexValue_lt

theorem isKeyword_keyword : ConstDef.isKeyword f.keyword = true :=
  ConstDef.isKeyword_iff.mpr f.folds

theorem isBlank_keyword : ∀ c ∈ f.keyword, isBlank c = false :=
  ConstDef.isBlank_of_isKeyword f.isKeyword_keyword

theorem not_isIdentChar_afterName :
    ∀ c ∈ (f.gap.val ++ f.assignment).head?, isIdentChar c = false :=
  fun c hc => not_isIdentChar_of_isBlank (f.gap.head? _ c hc)

theorem isBlank_head_assignment : ∀ c ∈ f.assignment.head?, isBlank c = false := by
  intro c hc
  cases hkey : f.keyword with
  | nil =>
      have hfold := f.folds
      rw [hkey] at hfold
      exact absurd hfold (by decide)
  | cons k rest =>
      have hk : k = c := by simpa [assignment, hkey] using hc
      exact hk ▸ f.isBlank_keyword k (by simp [hkey])

theorem isBlank_head_gap' :
    ∀ c ∈ (f.gap'.val ++ '$' :: f.digits).head?, (!isBlank c) = false := by
  intro c hc
  rw [f.gap'.head? _ c hc, Bool.not_true]

theorem isBlank_head_dollar (digits : Text) : ∀ c ∈ ('$' :: digits).head?, isBlank c = false := by
  intro c hc
  cases hc
  decide

theorem hexByte?_digits : hexByte? f.digits = some (UInt8.ofNat f.value) :=
  hexByte?_of_isHexByte f.isHexByte_digits

end ConstForm

/-- Two texts that are cut at the same change of a class of characters have the same parts. -/
theorem Text.append_inj_of_span {p : Char → Bool} {front front' rest rest' : Text}
    (hfront : ∀ c ∈ front, p c = true) (hrest : ∀ c ∈ rest.head?, p c = false)
    (hfront' : ∀ c ∈ front', p c = true) (hrest' : ∀ c ∈ rest'.head?, p c = false)
    (h : front ++ rest = front' ++ rest') : front = front' ∧ rest = rest' := by
  obtain ⟨htake, hdrop⟩ := Text.span_append hfront hrest
  obtain ⟨htake', hdrop'⟩ := Text.span_append hfront' hrest'
  rw [h] at htake hdrop
  exact ⟨htake.symm.trans htake', hdrop.symm.trans hdrop'⟩

namespace ConstForm

/-- Each part of a definition ends where the class of its characters does, so that a text is a
definition in one way only. -/
theorem text_injective : Function.Injective text := by
  intro f g h
  obtain ⟨hname, h⟩ := Text.append_inj_of_span
    (isIdentChar_of_isIdentifier f.isIdentifier_name) f.not_isIdentChar_afterName
    (isIdentChar_of_isIdentifier g.isIdentifier_name) g.not_isIdentChar_afterName h
  obtain ⟨hgap, h⟩ := Text.append_inj_of_span f.gap.property.2 f.isBlank_head_assignment
    g.gap.property.2 g.isBlank_head_assignment h
  obtain ⟨hkeyword, h⟩ := Text.append_inj_of_span (p := fun c => !isBlank c)
    (by simpa using f.isBlank_keyword) f.isBlank_head_gap'
    (by simpa using g.isBlank_keyword) g.isBlank_head_gap' h
  obtain ⟨hgap', h⟩ := Text.append_inj_of_span f.gap'.property.2 (isBlank_head_dollar _)
    g.gap'.property.2 (isBlank_head_dollar _) h
  have hdigits : f.digits = g.digits := (List.cons.inj h).2
  cases f
  cases g
  cases hname
  cases Subtype.ext hgap
  cases hkeyword
  cases Subtype.ext hgap'
  cases hdigits
  rfl

theorem read?_text (f : ConstForm) :
    ConstDef.read? f.text = some ⟨f.name, UInt8.ofNat f.value⟩ := by
  obtain ⟨hword, hafter⟩ := Text.word_append f.isBlank_keyword
    (f.gap'.head? ('$' :: f.digits))
  rw [text, ConstDef.read?_append f.isIdentifier_name f.not_isIdentChar_afterName,
    ConstDef.value?, f.gap.afterBlanks? f.isBlank_head_assignment]
  simp only [Option.bind_eq_bind, Option.bind_some, assignment, hword, hafter,
    f.isKeyword_keyword, f.gap'.afterBlanks? (isBlank_head_dollar f.digits),
    ConstDef.dollarByte?, f.hexByte?_digits]
  rfl

end ConstForm

namespace ConstDef

/-- The constants that are read are those of the form. -/
theorem read?_eq_some_iff {t : Text} {c : ConstDef} :
    read? t = some c ↔ ∃ f : ConstForm, f.text = t ∧ f.name = c.name ∧ f.value = c.value.toNat := by
  constructor
  · intro h
    obtain ⟨gap, keyword, gap', digits, hname, hgap, hblank, hkey, -, hgap', hblank', hdigits,
      rfl⟩ := exists_of_read? h
    obtain ⟨hbyte, hvalue⟩ := hexByte?_eq_some_iff.mp hdigits
    exact ⟨⟨c.name, ⟨gap, hgap, hblank⟩, keyword, ⟨gap', hgap', hblank'⟩, digits, hname,
      isKeyword_iff.mp hkey, hbyte⟩, rfl, rfl, hvalue⟩
  · rintro ⟨f, rfl, hname, hvalue⟩
    rw [f.read?_text, hname, hvalue, UInt8.ofNat_toNat]

theorem read?_eq_none_iff {t : Text} : read? t = none ↔ ∀ f : ConstForm, f.text ≠ t := by
  constructor
  · rintro hnone f rfl
    rw [f.read?_text] at hnone
    cases hnone
  · intro h
    cases hread : read? t with
    | none => rfl
    | some c =>
        obtain ⟨f, hf, -⟩ := read?_eq_some_iff.mp hread
        exact absurd hf (h f)

/-- A text is read as a constant just if it has the form of a definition, and then with the name
and the value of the form. There is at most one way to see the form in a text, and a text
without it is not read. -/
theorem read?_exact (t : Text) :
    (∀ c : ConstDef, read? t = some c ↔
      ∃ f : ConstForm, f.text = t ∧ f.name = c.name ∧ f.value = c.value.toNat) ∧
    (∀ f g : ConstForm, f.text = t → g.text = t → f = g) ∧
    (read? t = none ↔ ∀ f : ConstForm, f.text ≠ t) := by
  refine ⟨fun c => read?_eq_some_iff, ?_, read?_eq_none_iff⟩
  intro f g hf hg
  exact ConstForm.text_injective (hf.trans hg.symm)

/-- A definition whose name is a keyword, with other blanks than spaces and a long s. -/
theorem read?_exact_long_s :
    ∃ f : ConstForm, f.text = "EQU\u2003\tConſT\n$aF".toList ∧ f.keyword = "ConſT".toList ∧
      read? "EQU\u2003\tConſT\n$aF".toList = some ⟨"EQU".toList, 0xAF⟩ ∧
      ∀ g : ConstForm, g.text = "EQU\u2003\tConſT\n$aF".toList → g = f := by
  have hgap : Text.Blank "\u2003\t".toList := List.all_eq_true.mp (by decide +kernel)
  have hgap' : Text.Blank ['\n'] := List.all_eq_true.mp (by decide)
  have hdigit : ∀ c ∈ ['a', 'F'], IsHexDigit c := by simp [IsHexDigit, hexDigits]
  let f : ConstForm := ⟨"EQU".toList, ⟨"\u2003\t".toList, by decide, hgap⟩, "ConſT".toList,
    ⟨['\n'], by decide, hgap'⟩, ['a', 'F'], by decide, by decide, .inr rfl, hdigit⟩
  have hf : f.text = "EQU\u2003\tConſT\n$aF".toList := rfl
  obtain ⟨hread, hunique, -⟩ := read?_exact "EQU\u2003\tConſT\n$aF".toList
  exact ⟨f, hf, rfl, (hread _).mpr ⟨f, hf, rfl, rfl⟩, fun g hg => hunique g f hg hf⟩

end ConstDef

/-! ## Definitions and instructions -/

theorem Fragment.trim_gap {gap t : Text} (hgap : gap.Blank) (htrim : t.trim = t) (hne : t ≠ [])
    (offs : Nat) : (Fragment.mk (gap ++ t) offs).trim = ⟨t, offs + gap.byteSize⟩ := by
  have hhead : ∀ after : Text, ∀ c ∈ (t ++ after).head?, isBlank c = false := by
    intro after c hc
    rw [List.head?_append_of_ne_nil t hne, ← htrim] at hc
    exact Text.head?_trimStart t.trimEnd c hc
  have hpad : Text.trim (gap ++ t) = t := by
    have hpad := Text.trim_pad hgap Text.blank_nil t
    rwa [List.append_nil, htrim] at hpad
  obtain ⟨before, after, hbefore, -, htext, hplace⟩ := (Fragment.mk (gap ++ t) offs).exists_trim
  dsimp only at htext hplace
  rw [hpad] at htext hplace
  -- The text in the middle begins with a character that is not blank, so the gaps are the same.
  have hsame : gap = before := by
    refine (Text.append_inj_of_span hgap ?_ hbefore (hhead after) htext).1
    simpa using hhead []
  rw [hplace, hsame]

namespace ConstForm

variable (f : ConstForm) {t : Token}

theorem trim_assignment : f.assignment.trim = f.assignment :=
  ConstDef.trim_value f.isKeyword_keyword f.isBlank_keyword f.hexByte?_digits

theorem ofText?_assignment : Operand.ofText? f.assignment = none := by
  rw [← f.trim_assignment]
  exact ConstDef.ofText?_trim_value f.isKeyword_keyword f.isBlank_keyword f.gap'.property.1
    f.gap'.property.2 f.hexByte?_digits

theorem not_mem_comma_assignment : ',' ∉ f.assignment := by
  have hdigits : ',' ∉ f.digits := fun hmem =>
    absurd (isOperandChar_of_hexByte? f.hexByte?_digits ',' hmem) (by decide)
  simp [assignment, ConstDef.not_mem_comma_of_isKeyword f.isKeyword_keyword,
    Text.not_mem_of_blank Text.isBlank_comma f.gap'.property.2, hdigits]

/-- The token of what follows the name, where a token has the text of a definition. -/
def assignmentIn (t : Token) : Token :=
  (Fragment.mk f.assignment (t.span.offs + f.name.byteSize + f.gap.val.byteSize)).token t.line

/-- Read as an instruction, a definition has its name for the mnemonic and one operand. -/
theorem operands_ofToken (ht : t.text = f.text) :
    (Instruction.ofToken t).operands = [f.assignmentIn t] := by
  have hne : f.assignment ≠ [] := by simp [assignment]
  have hname : ∀ c ∈ f.name, isBlank c = false := fun c hc =>
    not_isBlank_of_isIdentChar (isIdentChar_of_isIdentifier f.isIdentifier_name c hc)
  obtain ⟨hword, hafter⟩ := Text.word_append hname (f.gap.head? f.assignment)
  have hrest : (t.fragment.dropWhile fun c => !isBlank c).trim =
      ⟨f.assignment, t.span.offs + f.name.byteSize + f.gap.val.byteSize⟩ := by
    rw [← Fragment.trim_gap f.gap.property.2 f.trim_assignment hne]
    rw [Fragment.dropWhile, Token.fragment, ht, text]
    rw [Text.word] at hword
    rw [Text.afterWord] at hafter
    rw [hword, hafter]
  have hop := Fragment.trim_gap Text.blank_nil f.trim_assignment hne
    (t.span.offs + f.name.byteSize + f.gap.val.byteSize)
  simp only [Instruction.ofToken, hrest, Fragment.splitOn,
    Text.splitOn_eq_singleton f.not_mem_comma_assignment]
  simpa [Fragment.layOut, assignmentIn] using congrArg (·.token t.line) hop

theorem resolve_ofToken (ht : t.text = f.text) (symbols : SymbolTable) :
    (Instruction.ofToken t).resolve symbols = .error (.malformed (f.assignmentIn t)) := by
  have hnone : Operand.ofText? (f.assignmentIn t).text = none := f.ofText?_assignment
  simp only [Instruction.resolve, f.operands_ofToken ht, Operands.ofOne, hnone]
  rfl

end ConstForm

namespace ConstDef

variable {t : Token} {symbols : SymbolTable}

theorem exists_malformed_of_read? {c : ConstDef} (h : read? t.text = some c) :
    ∃ f : ConstForm, f.text = t.text ∧ f.name = c.name ∧
      (Instruction.ofToken t).resolve symbols = .error (.malformed (f.assignmentIn t)) := by
  obtain ⟨f, hf, hname, -⟩ := read?_eq_some_iff.mp h
  exact ⟨f, hf, hname, f.resolve_ofToken hf.symm symbols⟩

theorem read?_eq_none_of_resolve {r : Opcode × Operands}
    (h : (Instruction.ofToken t).resolve symbols = .ok r) : read? t.text = none := by
  cases hc : read? t.text with
  | none => rfl
  | some c =>
      obtain ⟨f, -, -, herror⟩ := exists_malformed_of_read? hc
      rw [h] at herror
      cases herror

/-- A text that defines a constant is no instruction, wherever it stands and whatever symbols
are known: what follows its name is a malformed operand. So whatever is accepted as an
instruction is taken as one. -/
theorem never_shadows (t : Token) (symbols : SymbolTable) :
    (∀ c : ConstDef, read? t.text = some c →
      ∃ f : ConstForm, f.text = t.text ∧ f.name = c.name ∧
        (Instruction.ofToken t).resolve symbols = .error (.malformed (f.assignmentIn t))) ∧
    ∀ r, (Instruction.ofToken t).resolve symbols = .ok r → read? t.text = none ∧
      ∀ l : SourceLine, l.instr = some t → l.body = .instruction (Instruction.ofToken t) := by
  refine ⟨fun c hc => exists_malformed_of_read? hc, ?_⟩
  intro r hr
  have hnone := read?_eq_none_of_resolve hr
  refine ⟨hnone, ?_⟩
  intro l hl
  simp only [SourceLine.body, hl, hnone]

/-- A definition whose name is a keyword, and an instruction with the mnemonic `LD`. -/
theorem never_shadows_keyword :
    (∃ f : ConstForm, f.text = "EQU EQU $1".toList ∧ f.name = "EQU".toList ∧
      (Instruction.ofToken ⟨"EQU EQU $1".toList, ⟨7, 10⟩, 3⟩).resolve .empty =
        .error (.malformed (f.assignmentIn ⟨"EQU EQU $1".toList, ⟨7, 10⟩, 3⟩))) ∧
    (⟨1, none, some ⟨"LD b, $1F".toList, ⟨0, 9⟩, 1⟩⟩ : SourceLine).body =
      .instruction (Instruction.ofToken ⟨"LD b, $1F".toList, ⟨0, 9⟩, 1⟩) := by
  have hread : read? "EQU EQU $1".toList = some ⟨"EQU".toList, 1⟩ := by decide +kernel
  obtain ⟨r, hr⟩ : ∃ r, (Instruction.ofToken ⟨"LD b, $1F".toList, ⟨0, 9⟩, 1⟩).resolve .empty =
      .ok r := ⟨(⟨0x81, 3, .direct⟩, .regAddr ⟨1⟩ 0x1F), by decide +kernel⟩
  exact ⟨(never_shadows ⟨"EQU EQU $1".toList, ⟨7, 10⟩, 3⟩ .empty).1 _ hread,
    ((never_shadows ⟨"LD b, $1F".toList, ⟨0, 9⟩, 1⟩ .empty).2 r hr).2 _ rfl⟩

end ConstDef

end MightyAsm
