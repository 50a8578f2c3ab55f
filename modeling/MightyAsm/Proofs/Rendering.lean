import MightyAsm.Proofs.Spacing

/-!
# Printing a line and splitting it again

A line is printed from a label, a mnemonic and operands, with blanks of any kind and number
between them and a comment at the end. Splitting the line gives back what it was printed from.

* `LineParts`: the texts that a line can be printed from;
* `LineStyle`: the blanks around them and the comment;
* `LineParts.form`: a printed line in the parts that it is cut into;
* `LineParts.split_render`: splitting undoes printing.
-/

namespace MightyAsm

/-! ## Printing -/

/-- A text of blanks. -/
abbrev Padding : Type := { t : Text // t.Blank }

theorem Padding.not_mem (pad : Padding) {sep : Char} (hsep : isBlank sep = false) :
    sep ∉ pad.val :=
  Text.not_mem_of_blank hsep pad.property

/-- A label, a mnemonic and operands that can be told apart on a line. A single empty operand
cannot be told from no operand. -/
structure LineParts where
  label : Option Text
  mnemonic : Text
  operands : List Text
  label_ne : ∀ t ∈ label, t ≠ []
  label_trim : ∀ t ∈ label, t.trim = t
  label_clear : ∀ t ∈ label, ';' ∉ t ∧ ':' ∉ t
  mnemonic_ne : mnemonic ≠ []
  mnemonic_word : ∀ c ∈ mnemonic, isBlank c = false
  mnemonic_clear : ';' ∉ mnemonic ∧ ':' ∉ mnemonic
  operand_trim : ∀ op ∈ operands, op.trim = op
  operand_clear : ∀ op ∈ operands, ',' ∉ op ∧ ';' ∉ op ∧ ':' ∉ op
  operands_ne : operands ≠ [[]]

/-- What a line has besides its parts. The padding of operand number `i` stands around it,
within the commas next to it. -/
structure LineStyle where
  beforeLabel : Padding
  afterLabel : Padding
  /-- Whether a line without a label has a colon all the same. -/
  bareColon : Bool
  beforeMnemonic : Padding
  gap : Padding
  gap_ne : gap.val ≠ []
  aroundOperand : Nat → Padding × Padding
  atEnd : Padding
  comment : Option Text

namespace LineStyle

variable (style : LineStyle)

def padOperands (ops : List Text) : List Text :=
  ops.mapIdx fun i op =>
    (style.aroundOperand i).1.val ++ (op ++ (style.aroundOperand i).2.val)

/-- The comment and the semicolon before it. -/
def commentText : Text :=
  match style.comment with
  | none => []
  | some t => ';' :: t

end LineStyle

namespace LineParts

variable (parts : LineParts) (style : LineStyle)

/-- What stands before the colon, if the line has one. -/
def beforeColon : Option Text :=
  match parts.label with
  | some t => some (style.beforeLabel.val ++ (t ++ style.afterLabel.val))
  | none =>
      if style.bareColon then some (style.beforeLabel.val ++ style.afterLabel.val) else none

/-- What follows the mnemonic, up to the comment. -/
def afterMnemonic : Text :=
  match parts.operands with
  | [] => style.atEnd.val
  | ops => style.gap.val ++ (Text.join ',' (style.padOperands ops) ++ style.atEnd.val)

/-- What follows the colon, up to the comment. -/
def body : Text := style.beforeMnemonic.val ++ (parts.mnemonic ++ parts.afterMnemonic style)

/-- The line with the given parts in the given style. -/
def render : Text :=
  match parts.beforeColon style with
  | none => parts.body style ++ style.commentText
  | some t => t ++ ':' :: (parts.body style ++ style.commentText)

end LineParts

/-! ## The operands -/

namespace LineStyle

variable (style : LineStyle)

theorem isComment_commentText : IsComment style.commentText := by
  unfold commentText
  cases style.comment with
  | none => simp [IsComment]
  | some t => simp [IsComment]

theorem map_trim_padOperands (ops : List Text) :
    (style.padOperands ops).map Text.trim = ops.map Text.trim := by
  unfold padOperands
  apply List.ext_getElem
  · simp
  · intro i hi hi'
    have hpad := fun t => Text.trim_pad (style.aroundOperand i).1.property
      (style.aroundOperand i).2.property t
    simp [hpad]

theorem not_mem_padOperands {sep : Char} (hsep : isBlank sep = false) {ops : List Text}
    (hops : ∀ op ∈ ops, sep ∉ op) : ∀ op ∈ style.padOperands ops, sep ∉ op := by
  intro op hop
  obtain ⟨i, hi, rfl⟩ := List.mem_mapIdx.mp hop
  simp only [List.mem_append, not_or]
  exact ⟨Padding.not_mem _ hsep, hops _ (List.getElem_mem hi), Padding.not_mem _ hsep⟩

end LineStyle

namespace LineParts

variable (parts : LineParts) (style : LineStyle)

theorem isBlank_head?_afterMnemonic :
    ∀ c ∈ (parts.afterMnemonic style).head?, isBlank c = true := by
  unfold afterMnemonic
  split
  · intro c hc
    exact style.atEnd.property c (List.mem_of_mem_head? hc)
  · exact Text.isBlank_head?_append style.gap_ne style.gap.property _

/-- The trimmed pieces between the commas are the operands again. -/
theorem map_trim_splitOn_afterMnemonic (hne : parts.operands ≠ []) :
    ((parts.afterMnemonic style).splitOn ',').map Text.trim = parts.operands := by
  have hpadded : style.padOperands parts.operands ≠ [] := by
    simpa [LineStyle.padOperands] using hne
  have hcomma : ∀ op ∈ style.padOperands parts.operands, ',' ∉ op :=
    style.not_mem_padOperands Text.isBlank_comma fun op hop => (parts.operand_clear op hop).1
  unfold afterMnemonic
  split
  · contradiction
  · rw [Text.map_trim_splitOn_prepend Text.isBlank_comma style.gap.property,
      Text.map_trim_splitOn_append Text.isBlank_comma _ style.atEnd.property,
      Text.splitOn_join hpadded hcomma, style.map_trim_padOperands]
    exact (List.map_congr_left parts.operand_trim).trans (List.map_id' _)

/-- Operands leave more than blanks: a comma, or the one operand that is not empty. -/
theorem blank_afterMnemonic_iff : (parts.afterMnemonic style).Blank ↔ parts.operands = [] := by
  constructor
  · intro hblank
    by_contra hne
    have hops := parts.map_trim_splitOn_afterMnemonic style hne
    rw [Text.splitOn_eq_singleton (Text.not_mem_of_blank Text.isBlank_comma hblank),
      List.map_singleton, Text.trim_eq_nil_iff.mpr hblank] at hops
    exact parts.operands_ne hops.symm
  · intro hnil
    simp only [afterMnemonic, hnil]
    exact style.atEnd.property

theorem operands_mnemonic_append :
    (parts.mnemonic ++ (parts.afterMnemonic style).trimEnd).operands = parts.operands := by
  have hhead := parts.isBlank_head?_afterMnemonic style
  by_cases hnil : parts.operands = []
  · have hblank := (parts.blank_afterMnemonic_iff style).mpr hnil
    rw [Text.operands, (Text.word_append_trimEnd parts.mnemonic_word hhead).2,
      Text.trimEnd_eq_nil_iff.mpr hblank, hnil]
    rfl
  · have hblank := mt (parts.blank_afterMnemonic_iff style).mp hnil
    rw [Text.operands_append_trimEnd parts.mnemonic_word hhead hblank,
      parts.map_trim_splitOn_afterMnemonic style hnil]

/-! ## The printed line -/

theorem not_mem_body {sep : Char} (hsep : isBlank sep = false) (hcomma : sep ≠ ',')
    (hmnemonic : sep ∉ parts.mnemonic) (hops : ∀ op ∈ parts.operands, sep ∉ op) :
    sep ∉ parts.body style := by
  have hafter : sep ∉ parts.afterMnemonic style := by
    unfold afterMnemonic
    split
    · exact style.atEnd.not_mem hsep
    · simp only [List.mem_append, not_or]
      refine ⟨style.gap.not_mem hsep, ?_, style.atEnd.not_mem hsep⟩
      intro hmem
      rcases Text.eq_or_mem_of_mem_join hmem with rfl | ⟨op, hop, hmem⟩
      · exact hcomma rfl
      · exact style.not_mem_padOperands hsep hops op hop hmem
  simp only [body, List.mem_append, not_or]
  exact ⟨style.beforeMnemonic.not_mem hsep, hmnemonic, hafter⟩

theorem not_mem_beforeColon {t : Text} (ht : t ∈ parts.beforeColon style) :
    ';' ∉ t ∧ ':' ∉ t := by
  have hpad : ∀ pad : Padding, ';' ∉ pad.val ∧ ':' ∉ pad.val := fun pad =>
    ⟨pad.not_mem (by decide), pad.not_mem (by decide)⟩
  have hbefore := hpad style.beforeLabel
  have hafter := hpad style.afterLabel
  unfold beforeColon at ht
  split at ht
  · rename_i label hlabel
    obtain rfl : _ = t := by simpa using ht
    have hclear := parts.label_clear label hlabel
    simp [hbefore, hafter, hclear]
  · obtain ⟨-, rfl⟩ : style.bareColon = true ∧ _ = t := by simpa using ht
    simp [hbefore, hafter]

/-- The printed line is cut where it was put together. -/
def form : LineForm where
  label := parts.beforeColon style
  body := parts.body style
  comment := style.commentText
  not_mem_label := fun _ ht => parts.not_mem_beforeColon style ht
  not_mem_body := parts.not_mem_body style (by decide) (by decide) parts.mnemonic_clear.1
    fun op hop => (parts.operand_clear op hop).2.1
  colon := fun _ => parts.not_mem_body style (by decide) (by decide) parts.mnemonic_clear.2
    fun op hop => (parts.operand_clear op hop).2.2
  isComment := style.isComment_commentText

theorem text_form : (parts.form style).text = parts.render style := by
  have hlabel : (parts.form style).label = parts.beforeColon style := rfl
  unfold LineForm.text LineForm.front render
  rw [hlabel]
  cases parts.beforeColon style with
  | none => rfl
  | some t => exact List.append_cons t ':' _ |>.symm

theorem inner?_beforeColon : (parts.beforeColon style).bind Text.inner? = parts.label := by
  unfold beforeColon
  cases hlabel : parts.label with
  | some t =>
      have htext := Text.inner?_of_trim_eq (parts.label_ne t hlabel) (parts.label_trim t hlabel)
      simp only [Option.bind_some,
        Text.inner?_pad style.beforeLabel.property style.afterLabel.property, htext]
  | none =>
      cases style.bareColon with
      | false => rfl
      | true =>
          have hblank : Text.trim (style.beforeLabel.val ++ style.afterLabel.val) = [] :=
            Text.trim_eq_nil_iff.mpr
              (Text.blank_append.mpr ⟨style.beforeLabel.property, style.afterLabel.property⟩)
          simp [Text.inner?, hblank]

theorem trim_body :
    (parts.body style).trim = parts.mnemonic ++ (parts.afterMnemonic style).trimEnd := by
  have hpad := Text.trim_pad style.beforeMnemonic.property Text.blank_nil
    (parts.mnemonic ++ parts.afterMnemonic style)
  rw [List.append_nil] at hpad
  rw [body, hpad, Text.trim_word_append parts.mnemonic_ne parts.mnemonic_word]

/-- A printed line is split into the label, the mnemonic and the operands that it was printed
from, whatever the blanks between them and the comment. -/
theorem split_render (line offs : Nat) :
    (SourceLine.ofFragment line ⟨parts.render style, offs⟩).label.map (·.text) = parts.label ∧
    ∃ t, (SourceLine.ofFragment line ⟨parts.render style, offs⟩).instr = some t ∧
      (Instruction.ofToken t).mnemonic.text = parts.mnemonic ∧
      (Instruction.ofToken t).operands.map (·.text) = parts.operands := by
  rw [← parts.text_form style, (parts.form style).ofFragment_text]
  constructor
  · rw [← parts.inner?_beforeColon style]
    show Option.map _ (Option.bind (parts.beforeColon style) _) = _
    cases parts.beforeColon style with
    | none => rfl
    | some t => exact Fragment.map_text_trimmedToken? _ _
  · have htrim := parts.trim_body style
    have hblank : ¬ (parts.body style).Blank := by
      rw [← Text.trim_eq_nil_iff, htrim]
      simp [parts.mnemonic_ne]
    have hhead := parts.isBlank_head?_afterMnemonic style
    refine ⟨_, Fragment.trimmedToken?_of_not_blank hblank _ _, ?_, ?_⟩
    · show (parts.body style).trim.word = parts.mnemonic
      rw [htrim, (Text.word_append_trimEnd parts.mnemonic_word hhead).1]
    · rw [Instruction.map_text_operands]
      show (parts.body style).trim.operands = parts.operands
      rw [htrim, parts.operands_mnemonic_append style]

/-- A label and two operands, the first of them empty. -/
def labelled : LineParts where
  label := some ['a']
  mnemonic := ['L', 'D']
  operands := [[], ['x', ' ', 'y']]
  label_ne := by simp
  label_trim := by
    intro t ht
    cases ht
    rfl
  label_clear := by simp
  mnemonic_ne := by simp
  mnemonic_word := List.forall_mem_cons.mpr ⟨by decide, List.forall_mem_singleton.mpr (by decide)⟩
  mnemonic_clear := by simp
  operand_trim := List.forall_mem_cons.mpr ⟨rfl, List.forall_mem_singleton.mpr rfl⟩
  operand_clear := by simp
  operands_ne := by simp

/-- The parts of a line with a comma and a colon in its comment. -/
theorem split_render_labelled :
    let line := SourceLine.ofFragment 1 ⟨" a :LD ,x y ;b:c,".toList, 0⟩
    line.label.map (·.text) = some ['a'] ∧
      ∃ t, line.instr = some t ∧ (Instruction.ofToken t).mnemonic.text = ['L', 'D'] ∧
        (Instruction.ofToken t).operands.map (·.text) = [[], ['x', ' ', 'y']] := by
  let blank : Padding := ⟨[' '], by simp [Text.Blank]; decide⟩
  let none : Padding := ⟨[], Text.blank_nil⟩
  exact labelled.split_render ⟨blank, blank, false, none, blank, by simp [blank],
    fun _ => (none, none), blank, some "b:c,".toList⟩ 1 0

end LineParts

end MightyAsm
