import MightyAsm.Program.Basic
import MightyAsm.Proofs.Command
import MightyAsm.Proofs.Numbering

/-!
# The places of tokens

A token says which bytes of a source it covers and on which line they are. A source is cut
into lines, a line into label and instruction, and an instruction into mnemonic and operands;
all tokens that come out of this tell the truth about their places.

* `Span.Covers`: a span covers a text on a line of a source;
* `Token.StandsIn.piece`: a piece of a token that stands in a source stands there too;
* `covers_of_mem_lines`: the lines of a source stand in it;
* `SourceLine.HasToken.standsIn`: so does every token of a line.
-/

namespace MightyAsm

/-- The text stands in the source just where the span says, and all of it on one line. -/
def Span.Covers (span : Span) (src : Text) (line : Nat) (t : Text) : Prop :=
  ∃ before after : Text, src = before ++ (t ++ after) ∧ span = ⟨before.byteSize, t.byteSize⟩ ∧
    before.count '\n' + 1 = line ∧ '\n' ∉ t

/-- A token tells the truth about its place. -/
def Token.StandsIn (t : Token) (src : Text) : Prop := t.span.Covers src t.line t.text

/-! ## Pieces -/

theorem Span.Covers.piece {src : Text} {line : Nat} {f g : Fragment}
    (hg : g.span.Covers src line g.text) (hf : f.Within g) : f.span.Covers src line f.text := by
  obtain ⟨before, after, hsrc, hspan, hline, hfeed⟩ := hg
  obtain ⟨before', after', htext, hoffs⟩ := hf
  have hbegin : g.offs = before.byteSize := congrArg Span.offs hspan
  rw [htext] at hsrc hfeed
  simp only [List.mem_append, not_or] at hfeed
  refine ⟨before ++ before', after' ++ after, ?_, ?_, ?_, hfeed.2.1⟩
  · rw [hsrc]
    simp only [List.append_assoc]
  · rw [Fragment.span, hoffs, hbegin, Text.byteSize_append]
  · rw [List.count_append, List.count_eq_zero_of_not_mem hfeed.1, Nat.add_zero, hline]

theorem Token.StandsIn.span_fragment {src : Text} {t : Token} (ht : t.StandsIn src) :
    t.fragment.span = t.span := by
  obtain ⟨before, after, -, hspan, -, -⟩ := ht
  rw [Fragment.span, Token.fragment, hspan]

theorem Token.StandsIn.piece {src : Text} {t : Token} {f : Fragment} (ht : t.StandsIn src)
    (hf : f.Within t.fragment) : (f.token t.line).StandsIn src := by
  have hcovers : t.fragment.span.Covers src t.line t.fragment.text := ht.span_fragment.symm ▸ ht
  exact hcovers.piece hf

/-! ## Lines -/

/-- The line feeds before a line are those that end the lines above it. -/
theorem covers_of_mem_lines {src : Text} {x : Fragment × Nat}
    (h : x ∈ lineFragments 1 0 (src.splitOn '\n')) : x.1.span.Covers src x.2 x.1.text := by
  obtain ⟨before, t, after, hsplit, rfl⟩ := exists_of_mem_lineFragments h
  have hfeeds : ∀ u ∈ before ++ t :: after, '\n' ∉ u := by
    rw [← hsplit]
    exact fun u hu => Text.not_mem_of_mem_splitOn hu
  refine ⟨Text.ended '\n' before, Text.begun '\n' after, ?_, ?_, ?_, hfeeds t (by simp)⟩
  · rw [← Text.join_append_cons, ← hsplit, Text.join_splitOn]
  · rw [Fragment.span, Nat.zero_add]
  · rw [Text.count_ended fun u hu => hfeeds u (List.mem_append_left _ hu), Nat.add_comm]

/-! ## The tokens of a line -/

/-- The tokens of a line: its label, its instruction part and the operands of that, and the
name of the constant that it defines. -/
inductive SourceLine.HasToken (l : SourceLine) : Token → Prop
  | label {t : Token} : l.label = some t → HasToken l t
  | instr {t : Token} : l.instr = some t → HasToken l t
  | operand {t op : Token} : l.instr = some t → op ∈ (Instruction.ofToken t).operands →
      HasToken l op
  | constant {t : Token} {c : ConstDef} : l.instr = some t → ConstDef.read? t.text = some c →
      HasToken l ((Fragment.mk c.name t.span.offs).token l.line)

/-- The operands of an instruction are pieces of it. -/
theorem Instruction.exists_of_mem_operands {t op : Token}
    (h : op ∈ (Instruction.ofToken t).operands) :
    ∃ f : Fragment, f.Within t.fragment ∧ op = f.token t.line := by
  simp only [Instruction.ofToken] at h
  split at h
  · cases h
  · obtain ⟨f, hf, rfl⟩ := List.mem_map.mp h
    have hrest := (Fragment.trim_within _).trans
      (Fragment.dropWhile_within (fun c => !isBlank c) t.fragment)
    exact ⟨f.trim, (Fragment.trim_within f).trans ((Fragment.splitOn_within hf).trans hrest), rfl⟩

theorem ConstDef.name_within {t : Token} {c : ConstDef} (h : ConstDef.read? t.text = some c) :
    (Fragment.mk c.name t.span.offs).Within t.fragment := by
  obtain ⟨gap, keyword, gap', digits, -, -, -, -, -, -, -, -, ht⟩ := ConstDef.exists_of_read? h
  exact ⟨[], _, ht, rfl⟩

section Lines

variable {src : Text} {l : SourceLine} {t : Token}

theorem standsIn_of_part (hl : l ∈ allLines src) (ht : l.label = some t ∨ l.instr = some t) :
    t.StandsIn src ∧ t.line = l.line := by
  obtain ⟨x, hx, rfl⟩ := List.mem_map.mp hl
  obtain ⟨g, hg, rfl⟩ := SourceLine.exists_of_ofFragment ht
  have hwithin : g.trim.Within x.1 :=
    (Fragment.trim_within g).trans (hg.trans (Fragment.dropLastChar_within '\r' x.1))
  exact ⟨(covers_of_mem_lines hx).piece hwithin, (SourceLine.line_ofFragment _ _).symm⟩

theorem trim_of_instr (hl : l ∈ allLines src) (ht : l.instr = some t) :
    t.text.trim = t.text := by
  obtain ⟨x, -, rfl⟩ := List.mem_map.mp hl
  obtain ⟨g, -, rfl⟩ := SourceLine.exists_of_ofFragment (Or.inr ht)
  exact Text.trim_trim g.text

/-- All tokens of a line are where they say, and on the line. -/
theorem SourceLine.HasToken.standsIn (h : l.HasToken t) (hl : l ∈ allLines src) :
    t.StandsIn src ∧ t.line = l.line := by
  cases h with
  | label ht => exact standsIn_of_part hl (Or.inl ht)
  | instr ht => exact standsIn_of_part hl (Or.inr ht)
  | operand ht hop =>
      obtain ⟨hinstr, hline⟩ := standsIn_of_part hl (Or.inr ht)
      obtain ⟨f, hf, rfl⟩ := Instruction.exists_of_mem_operands hop
      exact ⟨hinstr.piece hf, hline⟩
  | constant ht hc =>
      obtain ⟨hinstr, hline⟩ := standsIn_of_part hl (Or.inr ht)
      exact ⟨hline ▸ hinstr.piece (ConstDef.name_within hc), rfl⟩

end Lines

end MightyAsm
