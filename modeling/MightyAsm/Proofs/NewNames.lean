import Mathlib.Data.Set.Function
import MightyAsm.Proofs.Lists
import MightyAsm.Proofs.Replacing
import MightyAsm.Proofs.Rewording

/-!
# New names in a line

Names of symbols are replaced by other names where they stand in a line. The line is cut into
words where it was cut before, because a name is a word of its own and a new name has no
character at which anything is cut. Nothing becomes the definition of a constant that was none
before, and what was one stays one.

* `renameWord`: the new name of a symbol;
* `rewording_renameWord`: new names are read as the old ones were;
* `exists_replaced_label`, `exists_replaced_constant`, `exists_replaced_operands`: the parts of
  a line with new names;
* `bodyWords_of_reworded`: new operands are cut out of a line where the old ones were.
-/

namespace MightyAsm

/-- The identifiers that may name symbols. -/
def symbolNames : Set Text := {t | isSymbolName t = true}

/-- The new name of a symbol. All other words stay as they are. -/
def renameWord (f : Text → Text) (t : Text) : Text := if isSymbolName t then f t else t

/-- The second word is the new name of the first. -/
def Renames (f : Text → Text) (t t' : Text) : Prop := t' = renameWord f t

section Renaming

variable {f : Text → Text}

theorem renameWord_of_symbol {t : Text} (h : isSymbolName t = true) : renameWord f t = f t :=
  if_pos h

theorem renameWord_of_not_symbol {t : Text} (h : ¬ isSymbolName t = true) : renameWord f t = t :=
  if_neg h

theorem isIdentifier_of_isSymbolName {t : Text} (h : isSymbolName t = true) :
    isIdentifier t = true := by
  simp only [isSymbolName, Bool.and_eq_true] at h
  exact h.1

/-! ## Words -/

/-- Words are read as the same operands by their new names. -/
theorem rewording_renameWord (hinj : Set.InjOn f symbolNames)
    (hmaps : Set.MapsTo f symbolNames symbolNames) : Rewording (Renames f) := by
  refine ⟨?_, ?_⟩
  · rintro t _ rfl
    by_cases ht : isSymbolName t = true
    · have hread := Operand.ofText?_eq_symbol_iff.mpr ⟨rfl, ht⟩
      have hread' := Operand.ofText?_eq_symbol_iff.mpr ⟨rfl, hmaps ht⟩
      rw [renameWord_of_symbol ht, hread, hread']
      exact .some (.symbol (renameWord_of_symbol ht).symm)
    · rw [renameWord_of_not_symbol ht]
      cases hread : Operand.ofText? t with
      | none => exact .none
      | some o =>
          refine .some ?_
          cases o with
          | symbol name =>
              obtain ⟨rfl, hname⟩ := Operand.ofText?_eq_symbol_iff.mp hread
              exact absurd hname ht
          | _ => constructor
  · rintro t _ u _ rfl rfl ht hu
    rw [renameWord_of_symbol ht, renameWord_of_symbol hu]
    exact (hinj.eq_iff ht hu).symm

section Words

variable (hmaps : Set.MapsTo f symbolNames symbolNames)

include hmaps

theorem mem_renameWord (t : Text) : ∀ c ∈ renameWord f t, c ∈ t ∨ isIdentChar c = true := by
  intro c hc
  by_cases ht : isSymbolName t = true
  · rw [renameWord_of_symbol ht] at hc
    exact Or.inr (isIdentChar_of_isIdentifier (isIdentifier_of_isSymbolName (hmaps ht)) c hc)
  · rw [renameWord_of_not_symbol ht] at hc
    exact Or.inl hc

theorem isIdentifier_renameWord {t : Text} (h : isIdentifier t = true) :
    isIdentifier (renameWord f t) = true := by
  by_cases ht : isSymbolName t = true
  · rw [renameWord_of_symbol ht]
    exact isIdentifier_of_isSymbolName (hmaps ht)
  · rwa [renameWord_of_not_symbol ht]

theorem trim_renameWord {t : Text} (h : t.trim = t) : (renameWord f t).trim = renameWord f t := by
  by_cases ht : isSymbolName t = true
  · rw [renameWord_of_symbol ht]
    apply Text.trim_eq_self_of_noBlank
    intro c hc
    have hident := isIdentifier_of_isSymbolName (hmaps ht)
    exact not_isBlank_of_isIdentChar (isIdentChar_of_isIdentifier hident c hc)
  · rwa [renameWord_of_not_symbol ht]

theorem renameWord_eq_nil {t : Text} (h : renameWord f t = []) : t = [] := by
  by_cases ht : isSymbolName t = true
  · have hname := hmaps ht
    rw [renameWord_of_symbol ht] at h
    rw [h] at hname
    cases hname
  · rwa [renameWord_of_not_symbol ht] at h

end Words

/-! ## Words with blanks around them -/

/-- A text with a new name within the blanks around it. -/
structure Reworded (f : Text → Text) (t t' : Text) : Prop where
  trim_eq : t'.trim = renameWord f t.trim
  eq_of_eq : renameWord f t.trim = t.trim → t' = t
  chars : ∀ c ∈ t', c ∈ t ∨ isIdentChar c = true

section Pieces

variable (hmaps : Set.MapsTo f symbolNames symbolNames)

include hmaps

theorem Replaced.not_mem {offs : Nat} {toks : List Token} {t t' : Text}
    (h : Replaced (renameWord f) offs toks t t') {c : Char} (hc : isIdentChar c = false)
    (hmem : c ∉ t) : c ∉ t' := by
  intro hmem'
  rcases h.mem_or (mem_renameWord hmaps) c hmem' with h | h
  · exact hmem h
  · rw [hc] at h
    cases h

theorem exists_replaced_trim (x : Fragment) (line : Nat) :
    ∃ t', Replaced (renameWord f) x.offs [x.trim.token line] x.text t' ∧
      Reworded f x.text t' := by
  obtain ⟨before, after, hbefore, hafter, htext, htrim⟩ := x.exists_trim
  have hreplaced : Replaced (renameWord f) x.offs [x.trim.token line] x.text
      (before ++ (renameWord f x.text.trim ++ after)) := by
    have hcons : Replaced (renameWord f) x.offs [x.trim.token line]
        (before ++ (x.text.trim ++ after)) (before ++ (renameWord f x.text.trim ++ after)) := by
      rw [htrim]
      exact .cons before x.text.trim (.nil _ after)
    rwa [← htext] at hcons
  refine ⟨_, hreplaced, ?_, ?_, hreplaced.mem_or (mem_renameWord hmaps)⟩
  · rw [Text.trim_pad hbefore hafter, trim_renameWord hmaps (Text.trim_trim _)]
  · intro heq
    rw [heq, ← htext]

theorem exists_replaced_label (t : Text) (offs line : Nat) :
    ∃ t', Replaced (renameWord f) offs ((Fragment.mk t offs).trimmedToken? line).toList t t' ∧
      t'.inner? = t.inner?.map (renameWord f) := by
  by_cases hblank : t.Blank
  · have hnone : (Fragment.mk t offs).trimmedToken? line = none :=
      Fragment.trimmedToken?_of_blank hblank offs line
    rw [hnone]
    refine ⟨t, .nil offs t, ?_⟩
    simp only [Text.inner?, Text.trim_eq_nil_iff.mpr hblank, Option.map_none]
  · rw [Fragment.trimmedToken?_of_not_blank hblank]
    obtain ⟨t', ht', hword⟩ := exists_replaced_trim hmaps ⟨t, offs⟩ line
    refine ⟨t', ht', ?_⟩
    have hblank' : ¬ t'.Blank := by
      intro hblank'
      have hnil := Text.trim_eq_nil_iff.mpr hblank'
      rw [hword.trim_eq] at hnil
      exact hblank (Text.trim_eq_nil_iff.mp (renameWord_eq_nil hmaps hnil))
    rw [Text.inner?_of_not_blank hblank', Text.inner?_of_not_blank hblank, hword.trim_eq]
    rfl

/-! ## Instruction parts -/

theorem exists_replaced_constant {t : Text} {c : ConstDef} (htrim : t.trim = t)
    (hread : ConstDef.read? t = some c) (offs line : Nat) :
    ∃ t', Replaced (renameWord f) offs [(Fragment.mk c.name offs).token line] t t' ∧
      t'.bodyWords = t.bodyWords.map (renameWord f) := by
  obtain ⟨gap, keyword, gap', digits, hname, hgap, hblank, -, -, -, -, -, ht⟩ :=
    ConstDef.exists_of_read? hread
  have hhead := Text.isBlank_head?_append hgap hblank (keyword ++ (gap' ++ '$' :: digits))
  generalize gap ++ (keyword ++ (gap' ++ '$' :: digits)) = rest at ht hhead
  subst ht
  -- The text after the name does not change, and so does not its value.
  have hwords : ∀ {name : Text}, isIdentifier name = true →
      (name ++ rest).bodyWords = .constant ⟨name, c.value⟩ := by
    have hstop : ∀ ch ∈ rest.head?, isIdentChar ch = false :=
      fun ch hch => not_isIdentChar_of_isBlank (hhead ch hch)
    have hword : ∀ {name : Text}, isIdentifier name = true →
        name ≠ [] ∧ ∀ ch ∈ name, isBlank ch = false := by
      intro name hname
      refine ⟨?_, fun ch hch =>
        not_isBlank_of_isIdentChar (isIdentChar_of_isIdentifier hname ch hch)⟩
      rintro rfl
      cases hname
    have hend : rest.trimEnd = rest := by
      obtain ⟨hne, hnoBlank⟩ := hword hname
      rw [Text.trim_word_append hne hnoBlank] at htrim
      exact List.append_cancel_left htrim
    have hvalue : ConstDef.value? rest = some c.value := by
      rw [ConstDef.read?_append hname hstop] at hread
      obtain ⟨value, hvalue, hc⟩ := Option.map_eq_some_iff.mp hread
      rw [hvalue, ← hc]
    intro name hname
    obtain ⟨hne, hnoBlank⟩ := hword hname
    rw [Text.bodyWords_word_append hne hnoBlank, hend, Text.instrWords,
      ConstDef.read?_append hname hstop, hvalue]
    rfl
  have hcons : Replaced (renameWord f) offs [(Fragment.mk c.name offs).token line] (c.name ++ rest)
      (renameWord f c.name ++ rest) := .cons [] c.name (.nil _ rest)
  refine ⟨_, hcons, ?_⟩
  rw [hwords (isIdentifier_renameWord hmaps hname), hwords hname]
  rfl

omit hmaps in
theorem exists_of_blank_join {parts : List Text} (hne : parts ≠ [])
    (h : (Text.join ',' parts).Blank) : ∃ part, parts = [part] ∧ part.Blank := by
  cases parts with
  | nil => exact absurd rfl hne
  | cons part parts =>
      cases parts with
      | nil => exact ⟨part, rfl, h⟩
      | cons next parts => exact absurd (h ',' (by simp [Text.join])) (by decide)

/-- New operands are cut out of an instruction part where the old ones were. -/
theorem bodyWords_of_reworded {m before after : Text} {parts parts' : List Text} (hne : m ≠ [])
    (hm : ∀ c ∈ m, isBlank c = false) (hgap : before ≠ []) (hbefore : before.Blank)
    (hafter : after.Blank) (hparts : List.Forall₂ (Reworded f) parts parts') (hsome : parts ≠ [])
    (hcomma : ∀ part ∈ parts, ',' ∉ part) (hblank : ¬ (Text.join ',' parts).Blank)
    (hread : ConstDef.read? (m ++ (before ++ (Text.join ',' parts ++ after)).trimEnd) = none) :
    (m ++ (before ++ (Text.join ',' parts' ++ after))).bodyWords =
      (m ++ (before ++ (Text.join ',' parts ++ after))).bodyWords.map (renameWord f) := by
  have hcut : ∀ {ps : List Text}, ps ≠ [] → (∀ part ∈ ps, ',' ∉ part) →
      ((before ++ (Text.join ',' ps ++ after)).splitOn ',').map Text.trim = ps.map Text.trim := by
    intro ps hps hfree
    rw [Text.map_trim_splitOn_prepend Text.isBlank_comma hbefore,
      Text.map_trim_splitOn_append Text.isBlank_comma _ hafter, Text.splitOn_join hps hfree]
  have hsome' : parts' ≠ [] := by
    rintro rfl
    cases hparts
    exact hsome rfl
  have hcomma' : ∀ part ∈ parts', ',' ∉ part := by
    intro part' hpart' hmem
    obtain ⟨part, hpart, hword⟩ := exists_mem_of_forall₂ hparts hpart'
    rcases hword.chars ',' hmem with h | h
    · exact hcomma part hpart h
    · exact absurd h (by decide)
  have htrim : parts'.map Text.trim = (parts.map Text.trim).map (renameWord f) := by
    rw [List.map_map, map_eq_map_iff_forall₂]
    exact hparts.flip.imp fun _ _ hword => hword.trim_eq
  have hhead : ∀ t : Text, ∀ c ∈ (before ++ t).head?, isBlank c = true :=
    Text.isBlank_head?_append hgap hbefore
  have hblank' : ¬ (Text.join ',' parts').Blank := by
    intro hall
    obtain ⟨part', rfl, hpart'⟩ := exists_of_blank_join hsome' hall
    obtain ⟨part, rfl, hword⟩ := forall₂_singleton_right.mp hparts
    have hnil := Text.trim_eq_nil_iff.mpr hpart'
    rw [hword.trim_eq] at hnil
    exact hblank (Text.trim_eq_nil_iff.mp (renameWord_eq_nil hmaps hnil))
  have hread' :
      ConstDef.read? (m ++ (before ++ (Text.join ',' parts' ++ after)).trimEnd) = none := by
    cases hc : ConstDef.read? (m ++ (before ++ (Text.join ',' parts' ++ after)).trimEnd) with
    | none => rfl
    | some c =>
        -- A definition has a single operand, and that is no name: nothing was replaced.
        obtain ⟨-, hops⟩ := ConstDef.cut_of_read? hc
        rw [(Text.word_append_trimEnd hm (hhead _)).2, Text.map_trim_splitOn_trimEnd,
          hcut hsome' hcomma', List.map_map, List.map_eq_singleton_iff] at hops
        obtain ⟨part', rfl, hpart'⟩ := hops
        obtain ⟨part, rfl, hword⟩ := forall₂_singleton_right.mp hparts
        have hsame : part' = part := by
          apply hword.eq_of_eq
          apply renameWord_of_not_symbol
          intro hsymbol
          rw [Function.comp, hword.trim_eq, renameWord_of_symbol hsymbol,
            Operand.ofText?_eq_symbol_iff.mpr ⟨rfl, hmaps hsymbol⟩] at hpart'
          cases hpart'
        rw [hsame, hread] at hc
        cases hc
  have hnot : ∀ {t : Text}, ¬ t.Blank → ¬ (before ++ (t ++ after)).Blank := by
    intro t ht hall
    exact ht (Text.blank_append.mp (Text.blank_append.mp hall).2).1
  rw [Text.bodyWords_of_not_blank hne hm (hhead _) (hnot hblank) hread,
    Text.bodyWords_of_not_blank hne hm (hhead _) (hnot hblank') hread', hcut hsome hcomma,
    hcut hsome' hcomma', htrim]
  rfl

theorem exists_replaced_parts (t : Text) (offs line : Nat) :
    ∃ parts', List.Forall₂ (Reworded f) (t.splitOn ',') parts' ∧
      Replaced (renameWord f) offs
        (((Fragment.mk t offs).splitOn ',').map fun op => op.trim.token line) t
        (Text.join ',' parts') := by
  let tokens : Fragment × Nat → List Token := fun x => [x.1.trim.token line]
  have hpart : ∀ part ∈ t.splitOn ',', ∀ offs k, ∃ part',
      Replaced (renameWord f) offs (tokens (⟨part, offs⟩, k)) part part' ∧ Reworded f part part' :=
    fun part _ offs _ => exists_replaced_trim hmaps ⟨part, offs⟩ line
  obtain ⟨parts', hparts, hreplaced⟩ := Replaced.join hpart offs 0
  refine ⟨parts', hparts, ?_⟩
  have htokens : (((Fragment.mk t offs).splitOn ',').zipIdx 0).flatMap tokens =
      ((Fragment.mk t offs).splitOn ',').map fun op => op.trim.token line := by
    rw [← List.zipIdx_map_fst 0 ((Fragment.mk t offs).splitOn ','), List.map_map,
      List.zipIdx_map_fst, List.map_eq_flatMap]
    rfl
  rw [Text.join_splitOn] at hreplaced
  rw [← htokens]
  exact hreplaced

theorem exists_replaced_operands (t : Token) (hne : t.text ≠ []) (htrim : t.text.trim = t.text)
    (hread : ConstDef.read? t.text = none) :
    ∃ t', Replaced (renameWord f) t.span.offs (Instruction.ofToken t).operands t.text t' ∧
      t'.bodyWords = t.text.bodyWords.map (renameWord f) := by
  by_cases hblank : t.text.afterWord.Blank
  · rw [Instruction.operands_ofToken_of_blank hblank]
    refine ⟨t.text, .nil _ _, ?_⟩
    have hoperands : t.text.operands = [] := by
      simp only [Text.operands, Text.trim_eq_nil_iff.mpr hblank]
    rw [Text.bodyWords, Text.inner?_of_trim_eq hne htrim]
    simp only [Text.instrWords, hread, hoperands]
    rfl
  · obtain ⟨before, after, hbefore, hafter, hargs, hrest⟩ :=
      (t.fragment.dropWhile fun c => !isBlank c).exists_trim
    have htext : (t.fragment.dropWhile fun c => !isBlank c).text = t.text.afterWord := rfl
    rw [htext] at hargs hrest
    have htokens : (Instruction.ofToken t).operands =
        ((Fragment.mk t.text.afterWord.trim
          (t.span.offs + t.text.word.byteSize + before.byteSize)).splitOn ',').map
            fun op => op.trim.token t.line := by
      simp only [Instruction.ofToken, hrest]
      split
      · rename_i hnil
        exact absurd (Text.trim_eq_nil_iff.mp hnil) hblank
      · rfl
    obtain ⟨parts', hparts, hreplaced⟩ := exists_replaced_parts hmaps t.text.afterWord.trim
      (t.span.offs + t.text.word.byteSize + before.byteSize) t.line
    rw [← htokens] at hreplaced
    have hwhole := ((hreplaced.append_right after).prepend before).prepend t.text.word
    have hjoin := Text.join_splitOn ',' t.text.afterWord.trim
    rw [← hargs, Text.word_append_afterWord] at hwhole
    refine ⟨_, hwhole, ?_⟩
    have hword : t.text.word ≠ [] := Text.word_ne_nil hne htrim
    have hnoBlank := t.text.isBlank_of_mem_word
    have hgap : before ≠ [] := Text.ne_nil_of_afterWord_eq hblank hargs
    have hrename := bodyWords_of_reworded hmaps hword hnoBlank hgap hbefore hafter hparts
      (Text.splitOn_ne_nil ',' _) (fun part hpart => Text.not_mem_of_mem_splitOn hpart)
    rw [hjoin, ← hargs, Text.word_append_afterWord] at hrename
    apply hrename
    · intro hall
      rw [← Text.trim_eq_nil_iff, Text.trim_trim, Text.trim_eq_nil_iff] at hall
      exact hblank hall
    · rw [← Text.trim_word_append hword hnoBlank, Text.word_append_afterWord, htrim]
      exact hread

end Pieces

end Renaming

end MightyAsm
