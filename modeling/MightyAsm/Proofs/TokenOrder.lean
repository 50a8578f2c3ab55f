import Mathlib.Data.List.Chain
import MightyAsm.Proofs.Places
import MightyAsm.Proofs.Spacing

/-!
# The order of the tokens on a line

The tokens of a source are found where they say: the bytes that a token names are within the
source and spell its text, and its line is counted by the line feeds before it. On a line the
tokens do not overlap: a label ends before the colon and the instruction part begins after it,
the mnemonic comes first there, and commas stand between the operands.

* `Token.StandsIn.exact`: what it means for a token to tell the truth about its place;
* `Fragment.isChain_layOut`: the pieces of a split stand in order, separators between them;
* `Instruction.ordered_ofToken`: the order of mnemonic and operands;
* `SourceLine.colon_between`: the colon stands between label and instruction part;
* `tokens_in_place`: all of this for every line of a source.
-/

namespace MightyAsm

/-! ## Single tokens -/

/-- The bytes that a token names spell its text, and its number is that of the line where they
are. -/
structure Token.Exact (t : Token) (src : Text) : Prop where
  stop_le : t.span.stop ≤ src.byteSize
  standsIn : t.StandsIn src
  extract_eq : t.span.extract src = t.text
  line_eq : t.line = 1 + (src.takeBytes t.span.offs).count '\n'
  not_mem_feed : '\n' ∉ t.text

theorem Token.StandsIn.exact {t : Token} {src : Text} (h : t.StandsIn src) : t.Exact src := by
  have ⟨before, after, hsrc, hspan, hline, hfeed⟩ := h
  refine ⟨?_, h, ?_, ?_, hfeed⟩
  · rw [hspan, hsrc]
    simp only [Span.stop, Text.byteSize_append]
    omega
  · rw [hspan, hsrc, Span.extract_append]
  · rw [hspan, hsrc, Text.takeBytes_append, ← hline, Nat.add_comm]

/-- A token that was cut out of a text begins and ends within its bytes, so that its distance
from the start of the text can be measured. -/
structure Token.CutFrom (t : Token) (base : Fragment) : Prop where
  start_le : base.offs ≤ t.span.offs
  stop_le : t.span.stop ≤ base.span.stop
  within : t.fragment.Within base

theorem Fragment.Within.cutFrom {f base : Fragment} (h : f.Within base) (line : Nat) :
    (f.token line).CutFrom base := by
  have ⟨before, after, htext, hoffs⟩ := h
  refine ⟨?_, ?_, h⟩
  · show base.offs ≤ f.offs
    omega
  · show f.offs + f.text.byteSize ≤ base.offs + base.text.byteSize
    rw [htext, hoffs]
    simp only [Text.byteSize_append]
    omega

/-! ## Mnemonic and operands -/

/-- Each two pieces of a text are parted by a separator that stands where the first ends. -/
theorem Fragment.isChain_layOut (sep : Char) (offs : Nat) (ts : List Text) :
    (layOut sep.utf8Size offs ts).IsChain fun f g =>
      (Fragment.mk [sep] f.span.stop).Within ⟨Text.join sep ts, offs⟩ ∧ f.span.stop < g.offs := by
  induction ts generalizing offs with
  | nil => exact .nil
  | cons t ts ih =>
      cases ts with
      | nil => exact .singleton _
      | cons u us =>
          have htail : (Fragment.mk (Text.join sep (u :: us))
              (offs + t.byteSize + sep.utf8Size)).Within
                ⟨Text.join sep (t :: u :: us), offs⟩ :=
            ⟨t ++ [sep], [], by simp [Text.join], by simp [Nat.add_assoc]⟩
          refine .cons_cons ⟨⟨t, Text.join sep (u :: us), rfl, rfl⟩, ?_⟩ ?_
          · exact Nat.lt_add_of_pos_right sep.utf8Size_pos
          · exact (ih (offs + t.byteSize + sep.utf8Size)).imp fun f g h =>
              ⟨h.1.trans htail, h.2⟩

/-- Mnemonic and operands of an instruction stand in order in a source. The mnemonic begins
the instruction, and a comma stands between each two operands. -/
structure Instruction.Ordered (i : Instruction) (src : Text) : Prop where
  mnemonic_offs : i.mnemonic.span.offs = i.text.span.offs
  mnemonic_stop : ∀ op ∈ i.operands, i.mnemonic.span.stop < op.span.offs
  comma_between : i.operands.IsChain fun op next => ∃ k, op.span.stop ≤ k ∧
    k < next.span.offs ∧ (Span.mk k 1).Covers src i.text.line [',']

namespace Instruction

/-- The operands are the trimmed pieces of a text that begins after the mnemonic and a blank. -/
theorem exists_operands_ofToken {t : Token} (h : ¬ t.text.afterWord.Blank) :
    ∃ gap args after : Text, gap ≠ [] ∧ gap.Blank ∧ after.Blank ∧
      t.text = t.text.word ++ (gap ++ (args ++ after)) ∧
      (ofToken t).operands = ((Fragment.mk args
        (t.span.offs + t.text.word.byteSize + gap.byteSize)).splitOn ',').map
          fun op => op.trim.token t.line := by
  let tail := t.fragment.dropWhile fun c => !isBlank c
  obtain ⟨gap, after, hgap, hafter, htail, htrim⟩ := tail.exists_trim
  refine ⟨gap, tail.text.trim, after, Text.ne_nil_of_afterWord_eq h htail, hgap, hafter, ?_, ?_⟩
  · rw [← htail]
    exact t.text.word_append_afterWord.symm
  · have hargs : tail.trim = ⟨tail.text.trim,
        t.span.offs + t.text.word.byteSize + gap.byteSize⟩ := htrim
    rw [← hargs]
    simp only [ofToken]
    split
    · rename_i hnil
      exact absurd (Text.trim_eq_nil_iff.mp hnil) h
    · rfl

theorem ordered_ofToken {t : Token} {src : Text} (ht : t.StandsIn src) :
    (ofToken t).Ordered src := by
  by_cases hblank : t.text.afterWord.Blank
  · have hnil := operands_ofToken_of_blank hblank
    refine ⟨rfl, ?_, ?_⟩
    · simp [hnil]
    · rw [hnil]
      exact .nil
  · obtain ⟨gap, args, after, hgap, -, -, htext, hops⟩ := exists_operands_ofToken hblank
    have hwithin : (Fragment.mk args
        (t.span.offs + t.text.word.byteSize + gap.byteSize)).Within t.fragment :=
      ⟨t.text.word ++ gap, after, by rw [List.append_assoc]; exact htext,
        by rw [Text.byteSize_append, ← Nat.add_assoc]; rfl⟩
    refine ⟨rfl, ?_, ?_⟩
    · intro op hop
      rw [hops] at hop
      obtain ⟨f, hf, rfl⟩ := List.mem_map.mp hop
      have hcut := (f.trim_within.trans (Fragment.splitOn_within hf)).cutFrom t.line
      have hlength := gap.length_le_byteSize
      have hpos := List.length_pos_of_ne_nil hgap
      refine Nat.lt_of_lt_of_le ?_ hcut.start_le
      show t.span.offs + t.text.word.byteSize < t.span.offs + t.text.word.byteSize + gap.byteSize
      omega
    · rw [hops]
      refine List.isChain_map_of_isChain _ ?_ (Fragment.isChain_layOut ',' _ _)
      rintro f g ⟨hcomma, hlt⟩
      rw [Text.join_splitOn] at hcomma
      -- The blanks around an operand stand on its own side of the comma.
      exact ⟨f.span.stop, (f.trim_within.cutFrom t.line).stop_le,
        Nat.lt_of_lt_of_le hlt (g.trim_within.cutFrom t.line).start_le,
        ht.piece (hcomma.trans hwithin)⟩

end Instruction

/-! ## Lines -/

/-- The lines of a source and their numbers, each line without the carriage return at its
end. -/
def numberedLines (src : Text) : List (Fragment × Nat) :=
  (lineFragments 1 0 (src.splitOn '\n')).map fun x => (x.1.dropLastChar '\r', x.2)

theorem covers_of_mem_numberedLines {src : Text} {x : Fragment × Nat}
    (h : x ∈ numberedLines src) : x.1.span.Covers src x.2 x.1.text := by
  obtain ⟨y, hy, rfl⟩ := List.mem_map.mp h
  exact (covers_of_mem_lines hy).piece (Fragment.dropLastChar_within '\r' y.1)

namespace SourceLine

/-- The tokens that the instruction part of a line is cut into: mnemonic and operands, and the
name of the constant that the line defines. -/
def pieces (l : SourceLine) (t : Token) : List Token :=
  (Instruction.ofToken t).mnemonic :: (Instruction.ofToken t).operands ++
    (ConstDef.read? t.text).toList.map fun c => (Fragment.mk c.name t.span.offs).token l.line

/-- All tokens of a line. -/
def tokens (l : SourceLine) : List Token :=
  l.label.toList ++ l.instr.toList.flatMap fun t => t :: l.pieces t

/-- Byte `k` is the first colon of a line, and the comment has not begun there. -/
def ColonAt (base : Fragment) (k : Nat) : Prop :=
  ∃ start rest, base.text = start ++ ':' :: rest ∧ ':' ∉ start ∧ ';' ∉ start ∧
    k = base.offs + start.byteSize

/-- All tokens of a line are where they say and within the text that they were cut from, and
they stand in order along the line. -/
structure InPlace (l : SourceLine) (src : Text) (base : Fragment) : Prop where
  covers : base.span.Covers src l.line base.text
  exact_tokens : ∀ t ∈ l.tokens, t.Exact src ∧ t.line = l.line
  label_cut : ∀ t ∈ l.label, t.CutFrom base
  instr_cut : ∀ t ∈ l.instr, t.CutFrom base
  pieces_cut : ∀ t ∈ l.instr, ∀ piece ∈ l.pieces t, piece.CutFrom t.fragment
  ordered : ∀ t ∈ l.instr, (Instruction.ofToken t).Ordered src
  colon : l.label ≠ none → ∃ k, ColonAt base k
  label_stop : ∀ k, ColonAt base k → ∀ t ∈ l.label, t.span.stop ≤ k
  instr_start : ∀ k, ColonAt base k → ∀ t ∈ l.instr, k < t.span.offs

theorem exists_colonAt {line : Nat} {base : Fragment}
    (h : (ofFragment line base).label ≠ none) : ∃ k, ColonAt base k := by
  obtain ⟨w, hw⟩ := exists_lineForm base.text
  have hbase : base = ⟨w.text, base.offs⟩ := by rw [hw]
  cases hlabel : w.label with
  | none =>
      rw [hbase, w.ofFragment_text, hlabel] at h
      exact absurd rfl h
  | some start =>
      obtain ⟨hsemicolon, hcolon⟩ := w.not_mem_label start hlabel
      refine ⟨_, start, w.body ++ w.comment, ?_, hcolon, hsemicolon, rfl⟩
      rw [← hw, LineForm.text, LineForm.front, hlabel, List.append_assoc, List.singleton_append]

/-- The colon stands between the label and the instruction part. -/
theorem colon_between {base : Fragment} {k : Nat} (h : ColonAt base k) (line : Nat) :
    (∀ t ∈ (ofFragment line base).label, t.span.stop ≤ k) ∧
      ∀ t ∈ (ofFragment line base).instr, k < t.span.offs := by
  obtain ⟨start, rest, htext, hcolon, hsemicolon, rfl⟩ := h
  let w : LineForm := ⟨some start, rest.takeWhile (· != ';'), rest.dropWhile (· != ';'),
    by simp [hsemicolon, hcolon], Text.not_mem_takeWhile_ne ';' rest, by simp,
    Text.head?_dropWhile_ne ';' rest⟩
  have hw : base = ⟨w.text, base.offs⟩ := by
    have hrest : w.text = base.text := by
      simp [w, LineForm.text, LineForm.front, htext]
    rw [hrest]
  rw [hw, w.ofFragment_text]
  constructor
  · intro t ht
    obtain rfl := Fragment.eq_of_trimmedToken? (show _ = some t from ht)
    exact ((Fragment.trim_within _).cutFrom line).stop_le
  · intro t ht
    obtain rfl := Fragment.eq_of_trimmedToken? (show _ = some t from ht)
    refine Nat.lt_of_lt_of_le ?_ ((Fragment.trim_within _).cutFrom line).start_le
    show base.offs + start.byteSize < base.offs + (start ++ [':']).byteSize
    have hsize : ':'.utf8Size = 1 := rfl
    simp [hsize]

theorem cutFrom_of_part {line : Nat} {base : Fragment} {t : Token}
    (h : (ofFragment line base).label = some t ∨ (ofFragment line base).instr = some t) :
    t.CutFrom base := by
  obtain ⟨g, hg, rfl⟩ := exists_of_ofFragment h
  exact (g.trim_within.trans hg).cutFrom line

theorem exists_of_mem_pieces {l : SourceLine} {t piece : Token} (hline : t.line = l.line)
    (h : piece ∈ l.pieces t) :
    ∃ f : Fragment, f.Within t.fragment ∧ piece = f.token t.line := by
  simp only [pieces, List.cons_append, List.mem_cons, List.mem_append, List.mem_map,
    Option.mem_toList] at h
  rcases h with rfl | hop | ⟨c, hc, rfl⟩
  · exact ⟨_, Fragment.takeWhile_within _ _, rfl⟩
  · exact Instruction.exists_of_mem_operands hop
  · exact ⟨_, ConstDef.name_within hc, by rw [hline]⟩

end SourceLine

/-- The tokens of every line of a source are exact: they are where they say, within the text
that they were cut from, and in order along the line. -/
theorem tokens_in_place {src : Text} {l : SourceLine} (hl : l ∈ allLines src) :
    ∃ base, (base, l.line) ∈ numberedLines src ∧ l = SourceLine.ofFragment l.line base ∧
      l.InPlace src base := by
  have hmem := hl
  rw [allLines_eq_linesFrom] at hmem
  obtain ⟨⟨f, line⟩, hf, rfl⟩ := List.mem_map.mp hmem
  have hbase := List.mem_map_of_mem (f := fun x => (x.1.dropLastChar '\r', x.2)) hf
  dsimp only at hl hbase ⊢
  rw [SourceLine.line_ofFragment]
  generalize f.dropLastChar '\r' = base at hl hbase ⊢
  refine ⟨base, hbase, rfl, ?_⟩
  have hinstr : ∀ t ∈ (SourceLine.ofFragment line base).instr,
      t.StandsIn src ∧ t.line = (SourceLine.ofFragment line base).line :=
    fun t ht => standsIn_of_part hl (Or.inr ht)
  refine ⟨?_, ?_, fun t ht => SourceLine.cutFrom_of_part (Or.inl ht),
    fun t ht => SourceLine.cutFrom_of_part (Or.inr ht), ?_, ?_, SourceLine.exists_colonAt,
    fun k hk => (SourceLine.colon_between hk line).1,
    fun k hk => (SourceLine.colon_between hk line).2⟩
  · rw [SourceLine.line_ofFragment]
    exact covers_of_mem_numberedLines hbase
  · intro t ht
    simp only [SourceLine.tokens, List.mem_append, Option.mem_toList, List.mem_flatMap,
      List.mem_cons] at ht
    rcases ht with hlabel | ⟨i, hi, rfl | hpiece⟩
    · obtain ⟨hstands, hline⟩ := standsIn_of_part hl (Or.inl hlabel)
      exact ⟨hstands.exact, hline⟩
    · obtain ⟨hstands, hline⟩ := hinstr t hi
      exact ⟨hstands.exact, hline⟩
    · obtain ⟨hstands, hline⟩ := hinstr i hi
      obtain ⟨f, hf, rfl⟩ := SourceLine.exists_of_mem_pieces hline hpiece
      exact ⟨(hstands.piece hf).exact, hline⟩
  · intro t ht piece hpiece
    obtain ⟨f, hf, rfl⟩ := SourceLine.exists_of_mem_pieces (hinstr t ht).2 hpiece
    exact hf.cutFrom t.line
  · exact fun t ht => Instruction.ordered_ofToken (hinstr t ht).1

/-- The tokens of the second line of a source, whose label has two bytes. -/
theorem tokens_in_place_second :
    let l : SourceLine :=
      ⟨2, some ⟨['é'], ⟨3, 2⟩, 2⟩, some ⟨"LD B , $10".toList, ⟨6, 10⟩, 2⟩⟩
    l ∈ allLines "\r\n é:LD B , $10 ;\r\n".toList ∧
      ∃ base, (base, 2) ∈ numberedLines "\r\n é:LD B , $10 ;\r\n".toList ∧
        l = SourceLine.ofFragment 2 base ∧ l.InPlace "\r\n é:LD B , $10 ;\r\n".toList base := by
  intro l
  have hl : l ∈ allLines "\r\n é:LD B , $10 ;\r\n".toList := by decide +kernel
  exact ⟨hl, tokens_in_place hl⟩

end MightyAsm
