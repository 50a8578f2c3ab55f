import MightyAsm.Proofs.Spacing

/-!
# Replacing tokens in place

A token says which bytes of a source it covers. So the tokens of a source can be replaced by
other words where they stand, and all text between them is kept.

* `Text.replaceTokens`: a text with its tokens replaced;
* `Replaced`: what comes out if the tokens stand in the text one after the other;
* `Replaced.append`, `Replaced.join`: texts that are put together are replaced part by part;
* `SourceLine.nameTokens`: the tokens of a line that may name symbols.
-/

namespace MightyAsm

/-- A text that begins at byte `offs` of a source, with another word for each of its tokens.
The tokens are given in the order in which they stand there. -/
def Text.replaceTokens (g : Text → Text) (offs : Nat) : List Token → Text → Text
  | [], t => t
  | tok :: toks, t =>
      t.takeBytes (tok.span.offs - offs) ++ (g tok.text ++
        replaceTokens g tok.span.stop toks (t.dropBytes (tok.span.stop - offs)))

/-- The tokens stand in a text that begins at byte `offs`, and another word is put in the
place of each of them. -/
inductive Replaced (g : Text → Text) : Nat → List Token → Text → Text → Prop
  | nil (offs : Nat) (t : Text) : Replaced g offs [] t t
  | cons {offs line : Nat} {toks : List Token} {rest rest' : Text} (before word : Text) :
      Replaced g (offs + before.byteSize + word.byteSize) toks rest rest' →
      Replaced g offs (⟨word, ⟨offs + before.byteSize, word.byteSize⟩, line⟩ :: toks)
        (before ++ (word ++ rest)) (before ++ (g word ++ rest'))

namespace Replaced

variable {g : Text → Text} {offs : Nat} {toks toks' : List Token} {s s' t t' : Text}

theorem replaceTokens_eq (h : Replaced g offs toks t t') : t.replaceTokens g offs toks = t' := by
  induction h with
  | nil offs t => rfl
  | @cons offs line toks rest rest' before word _ ih =>
      have hdrop : (before ++ (word ++ rest)).dropBytes
          (offs + before.byteSize + word.byteSize - offs) = rest := by
        rw [Nat.add_assoc, Nat.add_sub_cancel_left, ← Text.byteSize_append, ← List.append_assoc,
          Text.dropBytes_append]
      simp only [Text.replaceTokens, Span.stop]
      rw [Nat.add_sub_cancel_left, Text.takeBytes_append, hdrop, ih]

theorem prepend (s : Text) (h : Replaced g (offs + s.byteSize) toks t t') :
    Replaced g offs toks (s ++ t) (s ++ t') := by
  cases h with
  | nil => exact .nil offs (s ++ t)
  | @cons _ line toks rest rest' before word hrest =>
      have hbegin : offs + s.byteSize + before.byteSize = offs + (s ++ before).byteSize := by
        rw [Text.byteSize_append, Nat.add_assoc]
      rw [hbegin] at hrest ⊢
      simpa only [List.append_assoc] using Replaced.cons (s ++ before) word hrest

/-- Texts that stand next to each other are replaced each on its own. -/
theorem append (h : Replaced g offs toks s s')
    (h' : Replaced g (offs + s.byteSize) toks' t t') :
    Replaced g offs (toks ++ toks') (s ++ t) (s' ++ t') := by
  induction h with
  | nil offs s => exact h'.prepend s
  | @cons offs line toks rest rest' before word _ ih =>
      simp only [List.append_assoc, List.cons_append]
      apply Replaced.cons before word
      apply ih
      simpa only [Text.byteSize_append, Nat.add_assoc] using h'

theorem append_right (h : Replaced g offs toks s s') (t : Text) :
    Replaced g offs toks (s ++ t) (s' ++ t) := by
  simpa using h.append (.nil _ t)

/-- A character of the new text is one of the old, or one that the new words bring in. -/
theorem mem_or {P : Char → Prop} (hg : ∀ word, ∀ c ∈ g word, c ∈ word ∨ P c)
    (h : Replaced g offs toks t t') : ∀ c ∈ t', c ∈ t ∨ P c := by
  induction h with
  | nil offs t => exact fun c hc => Or.inl hc
  | cons before word _ ih =>
      intro c hc
      simp only [List.mem_append] at hc ⊢
      rcases hc with hc | hc | hc
      · exact Or.inl (Or.inl hc)
      · exact (hg word c hc).imp_left fun hmem => Or.inr (Or.inl hmem)
      · exact (ih c hc).imp_left fun hmem => Or.inr (Or.inr hmem)

/-- The parts of a text between separators are replaced each on its own. -/
theorem join {sep : Char} {tokens : Fragment × Nat → List Token} {R : Text → Text → Prop}
    {ts : List Text}
    (h : ∀ t ∈ ts, ∀ offs line, ∃ t', Replaced g offs (tokens (⟨t, offs⟩, line)) t t' ∧ R t t')
    (offs line : Nat) :
    ∃ ts', List.Forall₂ R ts ts' ∧
      Replaced g offs (((Fragment.layOut sep.utf8Size offs ts).zipIdx line).flatMap tokens)
        (Text.join sep ts) (Text.join sep ts') := by
  induction ts generalizing offs line with
  | nil => exact ⟨[], .nil, .nil offs []⟩
  | cons t ts ih =>
      obtain ⟨t', ht', hR⟩ := h t List.mem_cons_self offs line
      obtain ⟨ts', hts, hrest⟩ := ih (fun u hu => h u (List.mem_cons_of_mem t hu))
        (offs + t.byteSize + sep.utf8Size) (line + 1)
      refine ⟨t' :: ts', .cons hR hts, ?_⟩
      rw [Fragment.layOut, List.zipIdx_cons, List.flatMap_cons]
      cases hts with
      | nil => simpa [Text.join, Fragment.layOut] using ht'
      | @cons u u' us us' _ _ =>
          apply ht'.append
          apply Replaced.prepend [sep]
          simpa [Nat.add_assoc] using hrest

end Replaced

/-! ## Names -/

def SourceLine.Body.nameTokens : SourceLine.Body → List Token
  | .blank => []
  | .constant name _ => [name]
  | .instruction i => i.operands

/-- The tokens of a line that may name symbols: its label, and the name of the constant that
it defines or the operands of its instruction. -/
def SourceLine.nameTokens (l : SourceLine) : List Token :=
  l.label.toList ++ l.body.nameTokens

end MightyAsm
