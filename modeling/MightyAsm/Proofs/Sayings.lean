import MightyAsm.Proofs.Prefixes
import MightyAsm.Proofs.Table
import MightyAsm.Proofs.Words

/-!
# What the words of a line say

The words of a line alone decide which entry of a listing the line reads as, but for the
number of the line. Lines with the same words say the same wherever they stand.

* `LineWords.Says`: what the words of a line say;
* `SourceLine.reads_iff`: a line reads as what its words say;
* `Entry.Same`: entries that say the same on different lines;
* `exists_reads_of_said`: lines read as any entries that their words say;
* `Program.exists_listing_of_lines`, `Program.exists_ofSource_of_lines`: listings of all lines
  of a source, blank ones included.
-/

namespace MightyAsm

/-! ## Words -/

def BodyWords.Says : BodyWords → EntryBody → Prop
  | .blank, b => b = .blank
  | .constant c, b => b = .constant c
  | .instruction mnemonic operands, b => ∃ c : Command, b = .command c ∧
      mnemonic.upper = c.mnemonic ∧ operands.map Operand.ofText? = c.operands.map some

/-- The words of a line say what an entry does. -/
def LineWords.Says (w : LineWords) (e : Entry) : Prop :=
  e.label = w.label ∧ w.body.Says e.body

theorem BodyWords.Says.unique {w : BodyWords} {b b' : EntryBody} (h : w.Says b)
    (h' : w.Says b') : b = b' := by
  cases w with
  | blank => exact Eq.trans h (Eq.symm h')
  | constant c => exact Eq.trans h (Eq.symm h')
  | instruction mnemonic operands =>
      obtain ⟨c, rfl, hmnemonic, hoperands⟩ := h
      obtain ⟨c', rfl, hmnemonic', hoperands'⟩ := h'
      rw [Command.eq_of_mnemonic_operands (hmnemonic.symm.trans hmnemonic')]
      exact List.map_injective_iff.mpr (fun _ _ h => Option.some.inj h)
        (hoperands.symm.trans hoperands')

section Lines

variable {l l' : SourceLine} {e e' : Entry}

/-- A line reads as an entry with its number exactly if its words say so. -/
theorem SourceLine.reads_iff : l.Reads e ↔ e.line = l.line ∧ l.words.Says e := by
  unfold SourceLine.Reads LineWords.Says SourceLine.words
  refine and_congr_right' (and_congr_right' ?_)
  rw [SourceLine.words_body]
  cases l.instr with
  | none => cases e.body <;> simp [BodyWords.Says]
  | some t =>
      dsimp only
      unfold Text.instrWords
      cases hc : ConstDef.read? t.text with
      | some c =>
          cases e.body with
          | blank => simp [BodyWords.Says]
          | constant d => simp [BodyWords.Says, hc, eq_comm]
          | command d =>
              have hnot : ¬ d.SpelledBy t.text := by
                intro hspelled
                rw [ConstDef.read?_eq_none_of_spelledBy hspelled] at hc
                cases hc
              simp [BodyWords.Says, hnot]
      | none =>
          cases e.body with
          | blank => simp [BodyWords.Says]
          | constant d => simp [BodyWords.Says, hc]
          | command d =>
              have hreads : d.SpelledBy t.text ↔ t.text.word.upper = d.mnemonic ∧
                  t.text.operands.map Operand.ofText? = d.operands.map some := by
                rw [Command.spelledBy_iff_reads, ← Instruction.map_text_operands, List.map_map]
                rfl
              simp [BodyWords.Says, hreads]

/-- Entries that say the same, maybe on different lines. -/
structure Entry.Same (e e' : Entry) : Prop where
  label : e'.label = e.label
  body : e'.body = e.body

theorem LineWords.Says.same {w : LineWords} (h : w.Says e) (h' : w.Says e') : e.Same e' :=
  ⟨h'.1.trans h.1.symm, h'.2.unique h.2⟩

end Lines

/-! ## Listings -/

section Listings

variable {ls : List SourceLine} {ws : List LineWords} {es es' : Listing}

theorem forall₂_says_of_reads (h : List.Forall₂ SourceLine.Reads ls es) :
    List.Forall₂ LineWords.Says (ls.map SourceLine.words) es :=
  List.forall₂_map_left_iff.mpr (h.imp fun _ _ hreads => (SourceLine.reads_iff.mp hreads).2)

theorem forall₂_same_of_said (h : List.Forall₂ LineWords.Says ws es)
    (h' : List.Forall₂ LineWords.Says ws es') : List.Forall₂ Entry.Same es es' := by
  have hflip : List.Forall₂ (flip LineWords.Says) es ws := List.Forall₂.flip h
  exact forall₂_trans hflip h' fun _ _ _ hsaid hsaid' => LineWords.Says.same hsaid hsaid'

/-- Lines read as the entries that their words say, with their own numbers. -/
theorem exists_reads_of_said (h : List.Forall₂ LineWords.Says (ls.map SourceLine.words) es) :
    ∃ es', List.Forall₂ SourceLine.Reads ls es' ∧ List.Forall₂ Entry.Same es es' := by
  rw [List.forall₂_map_left_iff] at h
  induction h with
  | nil => exact ⟨[], .nil, .nil⟩
  | @cons l e ls es hsaid _ ih =>
      obtain ⟨es', hreads, hsame⟩ := ih
      refine ⟨{ e with line := l.line } :: es', .cons ?_ hreads, .cons ⟨rfl, rfl⟩ hsame⟩
      exact SourceLine.reads_iff.mpr ⟨rfl, hsaid⟩

end Listings

namespace Program

variable {src : Text} {p : Program} {es : Listing}

theorem located_of_mem_linesFrom {line offs : Nat} {ts : List Text} :
    ∀ l ∈ linesFrom line offs ts, l.Located := by
  intro l hl
  obtain ⟨x, -, rfl⟩ := List.mem_map.mp hl
  exact SourceLine.located_ofFragment x.2 _

/-- All lines of a source that is read form a listing, which the program represents. -/
theorem exists_listing_of_lines (h : ofSource src = .ok p) :
    ∃ es, List.Forall₂ SourceLine.Reads (allLines src) es ∧ Listing.Admitted [] es ∧
      p.Represents es := by
  rw [ofSource_eq_addLines] at h
  obtain ⟨es, hreads, hadmitted, hrep⟩ := represents_empty.addLines located_of_mem_linesFrom h
  exact ⟨es, hreads, hadmitted, hrep⟩

theorem exists_ofSource_of_lines (hreads : List.Forall₂ SourceLine.Reads (allLines src) es)
    (hadmitted : Listing.Admitted [] es) : ∃ p, ofSource src = .ok p ∧ p.Represents es := by
  rw [ofSource_eq_addLines]
  exact represents_empty.exists_addLines located_of_mem_linesFrom hreads hadmitted

end Program

end MightyAsm
