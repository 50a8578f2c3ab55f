import MightyAsm.Proofs.Rearranging

/-!
# Hoisting constants

A constant takes no bytes, so no address depends on where it is defined. Its line can be moved
to the front of a source: no command loses a symbol that it needs, and the table of symbols is
the same but for its order.

* `Listing.rearranged_hoist`: a constant that is moved to the front rearranges a listing;
* `Listing.admitted_hoist`: a listing can be read with a constant moved to its front;
* `assemble_hoist_constant`: a source with a constant moved to its front has the same image and
  the same symbols.
-/

namespace MightyAsm

/-! ## Listings -/

namespace Listing

variable {before after es' : Listing} {e : Entry} {c : ConstDef}

/-- An entry that only defines a constant can stand first. -/
theorem rearranged_hoist (hlabel : e.label = none) (hbody : e.body = .constant c)
    (hsame : List.Forall₂ Entry.Same (e :: (before ++ after)) es') :
    Rearranged (before ++ e :: after) es' := by
  have hnone : ∀ c, e.body ≠ .command c := by simp [hbody]
  obtain ⟨hsize, hcommands, -⟩ := Entry.of_noCommand hnone
  -- a constant is the same definition at any address
  have hdefs : ∀ addr, e.definitions addr = e.definitions 0 := by
    intro addr
    simp only [Entry.definitions, hbody, Entry.labelDefinitions, hlabel]
  refine ⟨?_, _, ?_, Listing.forall₂_definitionsFrom hsame 0 0⟩
  · have hfront : commands (before ++ e :: after) = commandsFrom 0 (e :: (before ++ after)) := by
      rw [commands_append, commandsFrom_cons, commandsFrom_cons, hcommands, hcommands, hsize]
      exact (commands_append before after).symm
    rw [hfront]
    exact Listing.forall₂_commandsFrom hsame 0 0
  · have hrest : definitionsFrom 0 (before ++ after) =
        definitions before ++ definitionsFrom before.size after := definitions_append before after
    rw [definitions_append, definitionsFrom_cons, definitionsFrom_cons, hdefs, hsize,
      Nat.add_zero, Nat.add_zero, hrest, ← List.append_assoc, ← List.append_assoc]
    exact List.perm_append_comm.append_right _

theorem admitted_hoist (hlabel : e.label = none) (hbody : e.body = .constant c)
    (h : Admitted [] (before ++ e :: after)) : Admitted [] (e :: (before ++ after)) := by
  obtain ⟨hdefinable, hknown⟩ := admitted_iff.mp h
  have hrearranged := rearranged_hoist hlabel hbody (forall₂_same_self (e :: (before ++ after)))
  refine admitted_iff.mpr ⟨hrearranged.definable hdefinable, ?_⟩
  rw [known_iff_knownAfter] at hknown ⊢
  obtain ⟨hbefore, -, hafter⟩ := knownAfter_append.mp hknown
  have hnone : e.addressSymbol? = none := (Entry.of_noCommand (by simp [hbody])).2.2
  refine ⟨by simp [hnone], knownAfter_append.mpr ⟨?_, ?_⟩⟩
  · exact hbefore.mono (List.nil_subset _)
  · exact hafter.mono (by simp [List.append_subset])

end Listing

/-! ## Sources -/

theorem splitOn_join_hoist {sep : Char} {src t : Text} {before after : List Text}
    (h : src.splitOn sep = before ++ t :: after) :
    (Text.join sep (t :: (before ++ after))).splitOn sep = t :: (before ++ after) := by
  apply Text.splitOn_join (List.cons_ne_nil _ _)
  intro part hpart
  have hmem : part ∈ src.splitOn sep := by
    rw [h]
    exact List.perm_middle.mem_iff.mpr hpart
  exact Text.not_mem_of_mem_splitOn hmem

/-- A line that only defines a constant can be moved to the front of a source. -/
theorem assemble_hoist_constant {src t : Text} {before after : List Text} {c : ConstDef}
    {rom : Array UInt8} (hsrc : src.splitOn '\n' = before ++ t :: after)
    (ht : t.lineWords = ⟨none, .constant c⟩) (h : assemble src = .ok rom) :
    assemble (Text.join '\n' (t :: (before ++ after))) = .ok rom ∧
      ∃ p p', Program.ofSource src = .ok p ∧
        Program.ofSource (Text.join '\n' (t :: (before ++ after))) = .ok p' ∧
        ∀ name, p'.symbols.meaning? name = p.symbols.meaning? name := by
  obtain ⟨p, hp, hrom⟩ := assemble_eq_ok_iff.mp h
  obtain ⟨es, hreads, hes, hrep⟩ := Program.exists_listing_of_lines hp
  -- the listing has an entry for the line between those for the lines around it
  have hsaid := forall₂_says_of_reads hreads
  rw [map_words_allLines, hsrc, List.map_append, List.map_cons] at hsaid
  obtain ⟨front, back, rfl, hfront, hback⟩ := forall₂_append_left hsaid
  obtain ⟨e, rest, he, hrest, rfl⟩ := List.forall₂_cons_left_iff.mp hback
  have ⟨hlabel, hbody⟩ := he
  rw [ht] at hlabel hbody
  have hsaid' : List.Forall₂ LineWords.Says
      (((Text.join '\n' (t :: (before ++ after))).splitOn '\n').map Text.lineWords)
      (e :: (front ++ rest)) := by
    rw [splitOn_join_hoist hsrc, List.map_cons, List.map_append]
    exact .cons he (List.rel_append hfront hrest)
  obtain ⟨p', hp'⟩ :=
    (Program.exists_ofSource_iff_admitted hsaid').mpr (Listing.admitted_hoist hlabel hbody hes)
  obtain ⟨es', hsame, hes', hrep'⟩ := Program.exists_listing_of_said hsaid' hp'
  have hrearranged := Listing.rearranged_hoist hlabel hbody hsame
  have hrom' := hrep.rom_of_rearranged hes hrep' hes' hrearranged
    (Program.ofSource_laidOut hp).inStep (Program.ofSource_laidOut hp').inStep hrom
  exact ⟨assemble_eq_ok_iff.mpr ⟨p', hp', hrom'⟩, p, p', hp, hp',
    hrep.meaning?_eq_of_rearranged hes hrep' hes' hrearranged⟩

/-- A constant between a branch and its target, moved in front of both. -/
theorem assemble_hoist_constant_key :
    Text.splitOn '\n' "BNE end\nKEY EQU $1f ; key\nend: ST B, KEY".toList =
        ["BNE end".toList] ++ "KEY EQU $1f ; key".toList :: ["end: ST B, KEY".toList] ∧
      Text.lineWords "KEY EQU $1f ; key".toList = ⟨none, .constant ⟨"KEY".toList, 0x1F⟩⟩ ∧
      assemble "BNE end\nKEY EQU $1f ; key\nend: ST B, KEY".toList =
        .ok #[0x23, 1, 0x82, 1, 0x1F] ∧
      assemble (Text.join '\n' ("KEY EQU $1f ; key".toList ::
          (["BNE end".toList] ++ ["end: ST B, KEY".toList]))) = .ok #[0x23, 1, 0x82, 1, 0x1F] ∧
      ∃ p p', Program.ofSource "BNE end\nKEY EQU $1f ; key\nend: ST B, KEY".toList = .ok p ∧
        Program.ofSource (Text.join '\n' ("KEY EQU $1f ; key".toList ::
          (["BNE end".toList] ++ ["end: ST B, KEY".toList]))) = .ok p' ∧
        ∀ name, p'.symbols.meaning? name = p.symbols.meaning? name := by
  have hsrc : Text.splitOn '\n' "BNE end\nKEY EQU $1f ; key\nend: ST B, KEY".toList =
      ["BNE end".toList] ++ "KEY EQU $1f ; key".toList :: ["end: ST B, KEY".toList] := by
    decide +kernel
  have ht : Text.lineWords "KEY EQU $1f ; key".toList =
      ⟨none, .constant ⟨"KEY".toList, 0x1F⟩⟩ := by decide +kernel
  have h : assemble "BNE end\nKEY EQU $1f ; key\nend: ST B, KEY".toList =
      .ok #[0x23, 1, 0x82, 1, 0x1F] := by decide +kernel
  exact ⟨hsrc, ht, h, assemble_hoist_constant hsrc ht h⟩

end MightyAsm
