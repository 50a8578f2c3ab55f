import Mathlib.Data.Option.Basic
import MightyAsm.Program.Resolution
import MightyAsm.Proofs.Lines
import MightyAsm.Proofs.OperandText

/-!
# Commands and their spellings

A command is an instruction with its operands read and its symbols still by name. There are
seven forms, and a value of `Command` is always one of them. `Command.SpelledBy` is the
grammar: the mnemonic in any letter case, at least one blank, and the operands with commas
between them and any blanks around them.

* `Command.spelledBy_iff_reads`: a text spells a command exactly if the words that the text
  is cut into read as the mnemonic and the operands of the command;
* `Command.SpelledBy.unique`: a text spells at most one command;
* `ConstDef.read?_eq_none_of_spelledBy`: what spells a command defines no constant;
* `Command.SpelledBy.two_mul_size_le`: a spelling has twice as many bytes as the encoding.
-/

namespace MightyAsm

/-! ## Commands -/

inductive UnaryOp where
  | inc
  | dec
deriving DecidableEq, Repr

inductive BinaryOp where
  | add
  | sub
  | and
  | or
  | xor
deriving DecidableEq, Repr

inductive MemoryOp where
  | ld
  | st
deriving DecidableEq, Repr

/-- The branches that the machine implements. -/
inductive BranchOp where
  | bra
  | bne
  | beq
deriving DecidableEq, Repr

def UnaryOp.name : UnaryOp → Text
  | .inc => ['I', 'N', 'C']
  | .dec => ['D', 'E', 'C']

def BinaryOp.name : BinaryOp → Text
  | .add => ['A', 'D', 'D']
  | .sub => ['S', 'U', 'B']
  | .and => ['A', 'N', 'D']
  | .or => ['O', 'R']
  | .xor => ['X', 'O', 'R']

def MemoryOp.name : MemoryOp → Text
  | .ld => ['L', 'D']
  | .st => ['S', 'T']

def BranchOp.name : BranchOp → Text
  | .bra => ['B', 'R', 'A']
  | .bne => ['B', 'N', 'E']
  | .beq => ['B', 'E', 'Q']

@[simp] theorem UnaryOp.name_inj {a b : UnaryOp} : a.name = b.name ↔ a = b := by
  cases a <;> cases b <;> decide

@[simp] theorem BinaryOp.name_inj {a b : BinaryOp} : a.name = b.name ↔ a = b := by
  cases a <;> cases b <;> decide

@[simp] theorem MemoryOp.name_inj {a b : MemoryOp} : a.name = b.name ↔ a = b := by
  cases a <;> cases b <;> decide

@[simp] theorem BranchOp.name_inj {a b : BranchOp} : a.name = b.name ↔ a = b := by
  cases a <;> cases b <;> decide

/-- An instruction of the machine with its operands, in which symbols stand by name. -/
inductive Command where
  | unary (op : UnaryOp) (r : Register)
  | binary (op : BinaryOp) (r s : Register)
  | load (r : Register) (value : UInt8)
  | memory (op : MemoryOp) (r : Register) (addr : UInt8)
  | memorySymbol (op : MemoryOp) (r : Register) (name : Text)
  | branchTo (op : BranchOp) (name : Text)
  | branchHere (op : BranchOp)
deriving DecidableEq, Repr

namespace Command

def mnemonic : Command → Text
  | .unary op _ => op.name
  | .binary op _ _ => op.name
  | .load _ _ => MemoryOp.ld.name
  | .memory op _ _ => op.name
  | .memorySymbol op _ _ => op.name
  | .branchTo op _ => op.name
  | .branchHere op => op.name

def mode : Command → Mode
  | .unary .. => .implied
  | .binary .. => .registerPair
  | .load .. => .immediate
  | .memory .. | .memorySymbol .. => .direct
  | .branchTo .. | .branchHere _ => .relative

def operands : Command → List Operand
  | .unary _ r => [.reg r]
  | .binary _ r s => [.reg r, .reg s]
  | .load r value => [.reg r, .imm value]
  | .memory _ r addr => [.reg r, .addr addr]
  | .memorySymbol _ r name => [.reg r, .symbol name]
  | .branchTo _ name => [.symbol name]
  | .branchHere _ => [.here]

def size (c : Command) : Nat := c.mode.instructionSize

/-- Each operand is encoded by one byte. -/
theorem size_eq (c : Command) : c.size = c.operands.length + 1 := by
  cases c <;> rfl

theorem length_operands_pos (c : Command) : 0 < c.operands.length := by
  cases c <;> exact Nat.succ_pos _

theorem exists_opcode? (c : Command) : ∃ op, opcode? c.mnemonic c.mode = some op := by
  cases c with
  | unary op r => cases op <;> exact ⟨_, rfl⟩
  | binary op r s => cases op <;> exact ⟨_, rfl⟩
  | load r value => exact ⟨_, rfl⟩
  | memory op r addr => cases op <;> exact ⟨_, rfl⟩
  | memorySymbol op r name => cases op <;> exact ⟨_, rfl⟩
  | branchTo op name => cases op <;> exact ⟨_, rfl⟩
  | branchHere op => cases op <;> exact ⟨_, rfl⟩

theorem eq_of_mnemonic_operands {c d : Command} (hm : c.mnemonic = d.mnemonic)
    (ho : c.operands = d.operands) : c = d := by
  cases c <;> cases d <;> simp_all [operands, mnemonic]

end Command

theorem Command.mem_instructionSet (c : Command) :
    ∃ op, opcode? c.mnemonic c.mode = some op ∧ (c.mnemonic, op) ∈ instructionSet := by
  obtain ⟨op, hop⟩ := c.exists_opcode?
  exact ⟨op, hop, (mem_instructionSet_of_opcode? hop).1⟩

theorem Command.isIdentStart_mnemonic (c : Command) :
    ∀ ch ∈ c.mnemonic, isIdentStart ch = true := by
  have hall : ∀ entry ∈ instructionSet, entry.1.all isIdentStart = true := by decide
  obtain ⟨op, -, hmem⟩ := c.mem_instructionSet
  exact List.all_eq_true.mp (hall _ hmem)

theorem Command.two_le_length_mnemonic (c : Command) : 2 ≤ c.mnemonic.length := by
  have hall : ∀ entry ∈ instructionSet, 2 ≤ entry.1.length := by decide
  obtain ⟨op, -, hmem⟩ := c.mem_instructionSet
  exact hall _ hmem

/-! ## Words of an instruction -/

theorem Instruction.operands_ofToken_of_blank {t : Token} (h : t.text.afterWord.Blank) :
    (Instruction.ofToken t).operands = [] := by
  have hrest : (t.fragment.dropWhile fun c => !isBlank c).trim.text = [] :=
    Text.trim_eq_nil_iff.mpr h
  simp only [Instruction.ofToken, hrest]

/-- The operands of an instruction part, as texts: what follows the mnemonic, cut at the
commas and trimmed. -/
theorem Instruction.map_text_operands_ofToken {t : Token} (h : ¬ t.text.afterWord.Blank) :
    (Instruction.ofToken t).operands.map (·.text) =
      (t.text.afterWord.splitOn ',').map Text.trim := by
  rw [← Text.map_trim_splitOn_trim (by decide)]
  have htext : (t.fragment.dropWhile fun c => !isBlank c).trim.text = t.text.afterWord.trim := rfl
  have hne : t.text.afterWord.trim ≠ [] := fun hnil => h (Text.trim_eq_nil_iff.mp hnil)
  simp only [Instruction.ofToken]
  split
  · rename_i hnil
    exact absurd hnil hne
  · rw [List.map_map, Fragment.splitOn]
    have hcomp : (fun op : Token => op.text) ∘ (fun op : Fragment => op.trim.token t.line) =
        Text.trim ∘ fun f : Fragment => f.text := rfl
    rw [hcomp, ← List.map_map, Fragment.map_text_layOut, htext]

/-! ## Spellings -/

/-- The texts that spell a command: the mnemonic in any letter case, at least one blank, and
the operands with commas between them. -/
def Command.SpelledBy (c : Command) (t : Text) : Prop :=
  ∃ (mnemonic gap : Text) (parts : List Text), mnemonic.upper = c.mnemonic ∧ gap ≠ [] ∧
    gap.Blank ∧ List.Forall₂ Operand.SpelledBy c.operands parts ∧
    t = mnemonic ++ (gap ++ Text.join ',' parts)

/-- The words of an instruction are the mnemonic and the operands of a command. -/
def Instruction.Reads (i : Instruction) (c : Command) : Prop :=
  i.key = c.mnemonic ∧ i.operands.map (fun op => Operand.ofText? op.text) = c.operands.map some

/-- The first word of a spelling is the mnemonic, and the operands are what the commas
separate in the rest. -/
theorem Command.SpelledBy.cut {c : Command} {t : Text} (h : c.SpelledBy t) :
    t.word.upper = c.mnemonic ∧ ¬ t.afterWord.Blank ∧
      ((t.afterWord.splitOn ',').map Text.trim).map Operand.ofText? = c.operands.map some := by
  obtain ⟨m, gap, parts, hm, hgap, hblank, hparts, ht⟩ := h
  have hmBlank : ∀ ch ∈ m, isBlank ch = false := by
    intro ch hch
    have hstart := isIdentStart_of_upper (hm ▸ c.isIdentStart_mnemonic) ch hch
    exact not_isBlank_of_isIdentChar (by simp [isIdentChar, hstart])
  obtain ⟨hword, hafter⟩ :=
    Text.word_append hmBlank (Text.isBlank_head?_append hgap hblank (Text.join ',' parts))
  rw [← ht] at hword hafter
  have hne : parts ≠ [] := by
    rintro rfl
    cases c <;> cases hparts
  refine ⟨by rw [hword, hm], ?_, ?_⟩
  · obtain ⟨part, hpart⟩ := List.exists_mem_of_ne_nil parts hne
    obtain ⟨o, ho⟩ := exists_spelledBy_of_mem hparts hpart
    intro hall
    refine ho.not_blank (fun ch hch => hall ch ?_)
    rw [hafter]
    exact List.mem_append_right gap (Text.subset_join hpart ch hch)
  · rw [hafter, Text.map_trim_splitOn_prepend (by decide) hblank, Text.splitOn_join hne,
      ← forall₂_spelledBy_iff.mp hparts, List.map_map]
    · rfl
    · intro part hpart
      obtain ⟨o, ho⟩ := exists_spelledBy_of_mem hparts hpart
      exact ho.not_mem_comma

/-- A text spells a command exactly if its words read as the command. -/
theorem Command.spelledBy_iff_reads {c : Command} {t : Token} :
    c.SpelledBy t.text ↔ (Instruction.ofToken t).Reads c := by
  constructor
  · intro h
    obtain ⟨hword, hblank, hread⟩ := h.cut
    refine ⟨hword, ?_⟩
    rw [← Instruction.map_text_operands_ofToken hblank, List.map_map] at hread
    exact hread
  · rintro ⟨hkey, hread⟩
    have hblank : ¬ t.text.afterWord.Blank := by
      intro hblank
      rw [Instruction.operands_ofToken_of_blank hblank] at hread
      cases c <;> cases hread
    -- The blank that ends the first word is the gap; all further blanks pad the operands.
    obtain ⟨g, rest, hafter⟩ : ∃ g rest, t.text.afterWord = g :: rest := by
      cases hcases : t.text.afterWord with
      | nil => rw [hcases] at hblank; exact absurd Text.blank_nil hblank
      | cons g rest => exact ⟨g, rest, rfl⟩
    have hg := Text.afterWord_eq_cons hafter
    refine ⟨t.text.word, [g], Text.splitOn ',' rest, hkey, by simp,
      by simpa [Text.Blank] using hg, ?_, ?_⟩
    · rw [forall₂_spelledBy_iff, ← hread]
      have htexts := Instruction.map_text_operands_ofToken hblank
      rw [hafter, show g :: rest = [g] ++ rest from rfl,
        Text.map_trim_splitOn_prepend (by decide) (by simpa [Text.Blank] using hg)] at htexts
      have hmap := congrArg (List.map Operand.ofText?) htexts
      rw [List.map_map, List.map_map] at hmap
      exact hmap.symm
    · rw [Text.join_splitOn, List.singleton_append, ← hafter, Text.word_append_afterWord]

theorem Command.SpelledBy.unique {c d : Command} {t : Text} (hc : c.SpelledBy t)
    (hd : d.SpelledBy t) : c = d := by
  obtain ⟨hmc, -, hoc⟩ := hc.cut
  obtain ⟨hmd, -, hod⟩ := hd.cut
  apply Command.eq_of_mnemonic_operands (hmc.symm.trans hmd)
  exact List.map_injective_iff.mpr (fun _ _ h => Option.some.inj h) (hoc.symm.trans hod)

/-- Between operands stand commas, and each operand has a character. -/
theorem two_mul_length_le_of_spelledBy {os : List Operand} {parts : List Text}
    (h : List.Forall₂ Operand.SpelledBy os parts) :
    2 * os.length ≤ (Text.join ',' parts).length + 1 := by
  induction h with
  | nil => simp
  | @cons o part os parts ho hrest ih =>
      have hpart : 0 < part.length := by
        apply List.length_pos_iff.mpr
        rintro rfl
        exact ho.not_blank Text.blank_nil
      cases hrest with
      | nil =>
          simp only [Text.join, List.length_cons, List.length_nil]
          omega
      | cons _ _ =>
          simp only [Text.join, List.length_append, List.length_cons] at ih ⊢
          omega

/-- A spelling has at least two bytes for each byte of the encoding. -/
theorem Command.SpelledBy.two_mul_size_le {c : Command} {t : Text} (h : c.SpelledBy t) :
    2 * c.size ≤ t.byteSize := by
  refine Nat.le_trans ?_ (Text.length_le_byteSize t)
  obtain ⟨m, gap, parts, hm, hgap, -, hparts, rfl⟩ := h
  have hmnemonic : 2 ≤ m.length := by
    have hlen := congrArg List.length hm
    rw [Text.upper, List.length_map] at hlen
    rw [hlen]
    exact c.two_le_length_mnemonic
  have hjoin := two_mul_length_le_of_spelledBy hparts
  have hpos := List.length_pos_iff.mpr hgap
  rw [c.size_eq]
  simp only [List.length_append]
  omega

/-! ## Constant definitions -/

theorem ConstDef.exists_of_afterBlanks? {t rest : Text} (h : ConstDef.afterBlanks? t = some rest) :
    ∃ gap : Text, gap ≠ [] ∧ gap.Blank ∧ t = gap ++ rest := by
  unfold ConstDef.afterBlanks? at h
  split at h
  · cases h
  · rename_i c t
    split at h
    · rename_i hc
      cases h
      refine ⟨(c :: t).takeWhile isBlank, ?_, ?_, ?_⟩
      · simp [hc]
      · exact fun d hd => List.mem_takeWhile_imp hd
      · exact List.takeWhile_append_dropWhile.symm
    · cases h

theorem ConstDef.exists_of_read? {t : Text} {c : ConstDef} (h : ConstDef.read? t = some c) :
    ∃ gap keyword gap' digits : Text, isIdentifier c.name = true ∧ gap ≠ [] ∧ gap.Blank ∧
      ConstDef.isKeyword keyword = true ∧ (∀ ch ∈ keyword, isBlank ch = false) ∧
      gap' ≠ [] ∧ gap'.Blank ∧ hexByte? digits = some c.value ∧
      t = c.name ++ (gap ++ (keyword ++ (gap' ++ '$' :: digits))) := by
  simp only [ConstDef.read?, Option.bind_eq_bind, Option.bind_eq_some_iff] at h
  obtain ⟨_, hname, rest, hrest, _, hkey, value, hvalue, b, hb, hc⟩ := h
  cases hc
  have hname : isIdentifier (t.takeWhile isIdentChar) = true :=
    (Option.guard_eq_some' _).mp hname
  have hkey : ConstDef.isKeyword (rest.takeWhile fun ch => !isBlank ch) = true :=
    (Option.guard_eq_some' _).mp hkey
  obtain ⟨gap, hgap, hblank, htail⟩ := ConstDef.exists_of_afterBlanks? hrest
  obtain ⟨gap', hgap', hblank', htail'⟩ := ConstDef.exists_of_afterBlanks? hvalue
  obtain ⟨digits, rfl, hdigits⟩ : ∃ digits, value = '$' :: digits ∧ hexByte? digits = some b := by
    unfold ConstDef.dollarByte? at hb
    split at hb
    · exact ⟨_, rfl, hb⟩
    · cases hb
  refine ⟨gap, rest.takeWhile fun ch => !isBlank ch, gap', digits, hname, hgap, hblank, hkey, ?_,
    hgap', hblank', hdigits, ?_⟩
  · intro ch hch
    simpa using List.mem_takeWhile_imp hch
  · rw [← htail', List.takeWhile_append_dropWhile, ← htail, List.takeWhile_append_dropWhile]

theorem ConstDef.not_mem_comma_of_isKeyword {t : Text} (h : ConstDef.isKeyword t = true) :
    ',' ∉ t := by
  intro hmem
  have hcomma : ',' ∈ t.map ConstDef.keywordLetter :=
    List.mem_map.mpr ⟨',', hmem, by decide⟩
  simp only [ConstDef.isKeyword, List.contains_iff_mem, List.mem_cons, List.not_mem_nil,
    or_false] at h
  rcases h with h | h
  · rw [h] at hcomma; revert hcomma; decide
  · rw [h] at hcomma; revert hcomma; decide

/-- A keyword begins with a letter and a value ends in a digit, so nothing is trimmed. -/
theorem ConstDef.trim_value {keyword gap digits : Text} {b : UInt8}
    (hkey : ConstDef.isKeyword keyword = true) (hkeyBlank : ∀ ch ∈ keyword, isBlank ch = false)
    (hdigits : hexByte? digits = some b) :
    Text.trim (keyword ++ (gap ++ '$' :: digits)) = keyword ++ (gap ++ '$' :: digits) := by
  have hend : ∀ ch ∈ '$' :: digits, isBlank ch = false := by
    intro ch hch
    apply isBlank_eq_false_of_isOperandChar
    rcases List.mem_cons.mp hch with rfl | hch
    · decide
    · exact isOperandChar_of_hexByte? hdigits ch hch
  cases keyword with
  | nil => exact absurd hkey (by decide)
  | cons k keyword =>
      rw [← List.append_assoc]
      exact Text.trim_append_of_noBlank (hkeyBlank k List.mem_cons_self) (keyword ++ gap)
        (by simp) hend

/-- A blank stands before the value of a definition: what follows the name is no operand. -/
theorem ConstDef.ofText?_trim_value {keyword gap digits : Text} {b : UInt8}
    (hkey : ConstDef.isKeyword keyword = true) (hkeyBlank : ∀ ch ∈ keyword, isBlank ch = false)
    (hgap : gap ≠ []) (hblank : gap.Blank) (hdigits : hexByte? digits = some b) :
    Operand.ofText? (Text.trim (keyword ++ (gap ++ '$' :: digits))) = none := by
  rw [ConstDef.trim_value hkey hkeyBlank hdigits]
  cases hread : Operand.ofText? (keyword ++ (gap ++ '$' :: digits)) with
  | none => rfl
  | some o =>
      obtain ⟨g, hg⟩ := List.exists_mem_of_ne_nil gap hgap
      have hchar := (Operand.ofText?_eq_some_iff.mp hread).isOperandChar g (by simp [hg])
      have hfalse := isBlank_eq_false_of_isOperandChar hchar
      rw [hblank g hg] at hfalse
      cases hfalse

/-- Cut into words, the definition of a constant has a single operand, and that is none. -/
theorem ConstDef.cut_of_read? {t : Text} {c : ConstDef} (h : ConstDef.read? t = some c) :
    ¬ t.afterWord.Blank ∧
      ((t.afterWord.splitOn ',').map Text.trim).map Operand.ofText? = [none] := by
  obtain ⟨gap, keyword, gap', digits, hname, hgap, hblank, hkey, hkeyBlank, hgap', hblank',
    hdigits, ht⟩ := ConstDef.exists_of_read? h
  have hnameBlank : ∀ ch ∈ c.name, isBlank ch = false := fun ch hch =>
    not_isBlank_of_isIdentChar (isIdentChar_of_isIdentifier hname ch hch)
  obtain ⟨-, hafter⟩ := Text.word_append hnameBlank
    (Text.isBlank_head?_append hgap hblank (keyword ++ (gap' ++ '$' :: digits)))
  rw [← ht] at hafter
  have hsep : isBlank ',' = false := by decide
  have hcomma : ',' ∉ keyword ++ (gap' ++ '$' :: digits) := by
    have hdigit : ',' ∉ digits := fun hmem =>
      absurd (isOperandChar_of_hexByte? hdigits ',' hmem) (by decide)
    simp [ConstDef.not_mem_comma_of_isKeyword hkey,
      Text.not_mem_of_blank hsep hblank', hdigit]
  constructor
  · intro hall
    exact absurd (hall '$' (by rw [hafter]; simp)) (by decide)
  · rw [hafter, Text.map_trim_splitOn_prepend (by decide) hblank,
      Text.splitOn_eq_singleton hcomma]
    simpa using ConstDef.ofText?_trim_value hkey hkeyBlank hgap' hblank' hdigits

theorem ConstDef.read?_eq_none_of_spelledBy {c : Command} {t : Text} (h : c.SpelledBy t) :
    ConstDef.read? t = none := by
  cases hread : ConstDef.read? t with
  | none => rfl
  | some d =>
      obtain ⟨-, -, hcut⟩ := h.cut
      rw [(ConstDef.cut_of_read? hread).2] at hcut
      cases c <;> cases hcut

end MightyAsm
