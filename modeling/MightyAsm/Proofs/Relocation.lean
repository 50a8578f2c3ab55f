import MightyAsm.Proofs.Rearranging

/-!
# Relocation

A branch is encoded as a distance, so it does not matter where it stands as long as its target
is moved along. A source whose branches lead to its own labels, and whose other symbols are its
own constants, has the same bytes after any other source.

* `Relocatable`: the sources whose code can be moved;
* `Relocatable.movable`: all of their commands can be moved;
* `Program.exists_ofSource_append_iff`: when one source can be read after another;
* `assemble_append_relocatable`: the image of one source after another is one image after the
  other.
-/

namespace MightyAsm

/-- A source whose branches lead to labels that it defines itself, and whose symbols for
addresses are constants that it defines itself. -/
structure Relocatable (src : Text) : Prop where
  target : ∀ l ∈ sourceLines src, ∀ (op : BranchOp) (mnemonic name : Text),
    l.words.body = .instruction mnemonic [name] → mnemonic.upper = op.name →
    isSymbolName name = true → ∃ l' ∈ sourceLines src, l'.words.label = some name
  address : ∀ l ∈ sourceLines src, ∀ (op : MemoryOp) (mnemonic r name : Text),
    l.words.body = .instruction mnemonic [r, name] → mnemonic.upper = op.name →
    isSymbolName name = true →
    ∃ l' ∈ sourceLines src, ∃ value, l'.words.body = .constant ⟨name, value⟩

section Relocation

variable {src : Text} {es : Listing}

theorem exists_line_of_command (hreads : List.Forall₂ SourceLine.Reads (allLines src) es)
    {c : PlacedCommand} (hc : c ∈ es.commands) :
    ∃ l ∈ sourceLines src, ∃ mnemonic operands, l.words.body = .instruction mnemonic operands ∧
      mnemonic.upper = c.command.mnemonic ∧
      operands.map Operand.ofText? = c.command.operands.map some := by
  obtain ⟨e, he, hbody⟩ := Listing.exists_of_mem_commands hc
  obtain ⟨l, hl, hread⟩ := exists_mem_of_forall₂ hreads he
  obtain ⟨-, -, hsaid⟩ := SourceLine.reads_iff.mp hread
  rw [hbody] at hsaid
  cases hwords : l.words.body with
  | blank =>
      rw [hwords] at hsaid
      cases hsaid
  | constant d =>
      rw [hwords] at hsaid
      cases hsaid
  | instruction mnemonic operands =>
      rw [hwords] at hsaid
      obtain ⟨d, hd, hmnemonic, hoperands⟩ := hsaid
      cases hd
      refine ⟨l, List.mem_filter.mpr ⟨hl, ?_⟩, mnemonic, operands, hwords, hmnemonic, hoperands⟩
      rw [← SourceLine.isBlank_words, LineWords.isBlank, hwords]
      simp

theorem exists_entry_of_line (hreads : List.Forall₂ SourceLine.Reads (allLines src) es)
    {l : SourceLine} (hl : l ∈ sourceLines src) : ∃ e ∈ es, l.words.Says e := by
  have hall := (sourceLines_sublist src).subset hl
  obtain ⟨e, he, hread⟩ := exists_mem_right_of_forall₂ hreads hall
  exact ⟨e, he, (SourceLine.reads_iff.mp hread).2⟩

theorem Relocatable.exists_label (h : Relocatable src)
    (hreads : List.Forall₂ SourceLine.Reads (allLines src) es) {c : PlacedCommand}
    (hc : c ∈ es.commands) {op : BranchOp} {name : Text}
    (hcommand : c.command = .branchTo op name) :
    ∃ d ∈ es.definitions, d.name = name ∧ d.kind = .label := by
  obtain ⟨l, hl, mnemonic, operands, hwords, hmnemonic, hoperands⟩ :=
    exists_line_of_command hreads hc
  rw [hcommand] at hmnemonic hoperands
  obtain ⟨t, rfl, ht⟩ := List.map_eq_singleton_iff.mp hoperands
  obtain ⟨rfl, hname⟩ := Operand.ofText?_eq_symbol_iff.mp ht
  obtain ⟨l', hl', hlabel⟩ := h.target l hl op mnemonic t hwords hmnemonic hname
  obtain ⟨e, he, helabel, -⟩ := exists_entry_of_line hreads hl'
  exact Listing.exists_definition_of_label he (helabel.trans hlabel)

theorem Relocatable.exists_constant (h : Relocatable src)
    (hreads : List.Forall₂ SourceLine.Reads (allLines src) es) {c : PlacedCommand}
    (hc : c ∈ es.commands) {op : MemoryOp} {r : Register} {name : Text}
    (hcommand : c.command = .memorySymbol op r name) :
    ∃ d ∈ es.definitions, d.name = name ∧ d.kind = .const := by
  obtain ⟨l, hl, mnemonic, operands, hwords, hmnemonic, hoperands⟩ :=
    exists_line_of_command hreads hc
  rw [hcommand] at hmnemonic hoperands
  obtain ⟨first, rest, rfl, -, hrest⟩ := List.map_eq_cons_iff.mp hoperands
  obtain ⟨t, rfl, ht⟩ := List.map_eq_singleton_iff.mp hrest
  obtain ⟨rfl, hname⟩ := Operand.ofText?_eq_symbol_iff.mp ht
  obtain ⟨l', hl', value, hbody⟩ := h.address l hl op mnemonic first t hwords hmnemonic hname
  obtain ⟨e, he, -, hsaid⟩ := exists_entry_of_line hreads hl'
  rw [hbody] at hsaid
  exact Listing.exists_definition_of_constant he hsaid

/-- The commands of a source can be moved to where its labels are moved. -/
theorem Relocatable.movable (h : Relocatable src)
    (hreads : List.Forall₂ SourceLine.Reads (allLines src) es) {p p' : Program} {es' : Listing}
    {n : Nat} (hp : p.Represents es) (hes : Listing.Admitted [] es) (hp' : p'.Represents es')
    (hes' : Listing.Admitted [] es')
    (hmoved : ∀ d ∈ es.definitions, ∃ d' ∈ es'.definitions, d.Moved n d') :
    ∀ c ∈ es.commands, c.command.Movable p.symbols p'.symbols n := by
  intro c hc
  refine ⟨?_, ?_⟩
  · intro name hname value hvalue
    cases hcommand : c.command with
    | memorySymbol op r name' =>
        rw [hcommand] at hname
        cases hname
        obtain ⟨d, hd, rfl, hkind⟩ := h.exists_constant hreads hc hcommand
        obtain ⟨value', hvalue', hsame⟩ := hp.value?_moved hes hp' hes' hmoved hd hvalue
        rw [hkind, if_neg (by decide), Nat.add_zero, UInt8.toNat_inj] at hsame
        rwa [hsame] at hvalue'
    | _ =>
        rw [hcommand] at hname
        cases hname
  · intro op name hcommand dest hdest
    obtain ⟨d, hd, rfl, hkind⟩ := h.exists_label hreads hc hcommand
    obtain ⟨dest', hdest', hsame⟩ := hp.value?_moved hes hp' hes' hmoved hd hdest
    rw [hkind, if_pos rfl] at hsame
    exact ⟨dest', hdest', hsame⟩

end Relocation

/-! ## One source after another -/

section Append

variable {src src' : Text} {es es' : Listing}

theorem forall₂_says_append (hreads : List.Forall₂ SourceLine.Reads (allLines src) es)
    (hreads' : List.Forall₂ SourceLine.Reads (allLines src') es') :
    List.Forall₂ LineWords.Says (((src ++ '\n' :: src').splitOn '\n').map Text.lineWords)
      (es ++ es') := by
  rw [Text.splitOn_append, List.map_append, ← map_words_allLines, ← map_words_allLines]
  exact List.rel_append (forall₂_says_of_reads hreads) (forall₂_says_of_reads hreads')

/-- One program can follow another: they share no names, and its labels stay in the first 256
bytes. -/
structure Program.CanFollow (q p : Program) : Prop where
  distinct : p.symbols.names.Disjoint q.symbols.names
  inMemory : ∀ s ∈ q.symbols.symbols, s.kind = .label → p.size + s.value.toNat < 256

theorem Program.exists_ofSource_append_iff {p q : Program} (hp : ofSource src = .ok p)
    (hq : ofSource src' = .ok q) :
    (∃ r, ofSource (src ++ '\n' :: src') = .ok r) ↔ q.CanFollow p := by
  obtain ⟨es, hreads, hes, hrep⟩ := exists_listing_of_lines hp
  obtain ⟨es', hreads', hes', hrep'⟩ := exists_listing_of_lines hq
  rw [exists_ofSource_iff_admitted (forall₂_says_append hreads hreads'),
    Listing.admitted_append_iff hes hes', ← hrep'.map_definition hes', List.forall_mem_map,
    ← Listing.map_name_definitions, ← Listing.map_name_definitions, ← hrep.names_eq,
    ← hrep'.names_eq, ← hrep.size_eq]
  exact ⟨fun h => ⟨h.1, h.2⟩, fun h => ⟨h.1, h.2⟩⟩

/-- Code that is relocatable keeps its bytes behind any other code. -/
theorem Relocatable.assemble_append {rom rom' : Array UInt8} {r : Program}
    (hreloc : Relocatable src') (h : assemble src = .ok rom) (h' : assemble src' = .ok rom')
    (hr : Program.ofSource (src ++ '\n' :: src') = .ok r) :
    assemble (src ++ '\n' :: src') = .ok (rom ++ rom') := by
  obtain ⟨p, hp, hrom⟩ := assemble_eq_ok_iff.mp h
  obtain ⟨q, hq, hrom'⟩ := assemble_eq_ok_iff.mp h'
  obtain ⟨es, hreads, hes, hrep⟩ := Program.exists_listing_of_lines hp
  obtain ⟨es', hreads', hes', hrep'⟩ := Program.exists_listing_of_lines hq
  obtain ⟨both, hboth, hadmitted, hrrep⟩ :=
    Program.exists_listing_of_said (forall₂_says_append hreads hreads') hr
  obtain ⟨first, second, rfl, hfirst, hsecond⟩ := forall₂_append_left hboth
  -- the first part stays where it is, the second one is moved behind it
  have hdefs := Listing.forall₂_definitionsFrom hfirst 0 0
  have hdefs' := Listing.forall₂_definitionsFrom hsecond 0 (Listing.size first)
  have hcommands := Listing.forall₂_commandsFrom hfirst 0 0
  have hcommands' := Listing.forall₂_commandsFrom hsecond 0 (Listing.size first)
  rw [Nat.zero_add] at hdefs' hcommands'
  have hmovable := hrep.movable_zero hes hrrep hadmitted (fun d hd => by
    obtain ⟨d', hd', hmoved⟩ := exists_mem_right_of_forall₂ hdefs hd
    rw [Listing.definitions_append]
    exact ⟨d', List.mem_append_left _ hd', hmoved⟩)
  have hmovable' := hreloc.movable hreads' hrep' hes' hrrep hadmitted (fun d hd => by
    obtain ⟨d', hd', hmoved⟩ := exists_mem_right_of_forall₂ hdefs' hd
    rw [Listing.definitions_append]
    exact ⟨d', List.mem_append_right _ hd', hmoved⟩)
  have hstmts := hrrep.stmts
  rw [Listing.commands_append] at hstmts
  obtain ⟨ss, ss', hsplit, hss, hss'⟩ := forall₂_append_left hstmts
  obtain ⟨chunks, hchunks, hflat⟩ :=
    (Program.rom_eq_ok_iff (Program.ofSource_laidOut hp).inStep).mp hrom
  obtain ⟨chunks', hchunks', hflat'⟩ :=
    (Program.rom_eq_ok_iff (Program.ofSource_laidOut hq).inStep).mp hrom'
  refine assemble_eq_ok_iff.mpr ⟨r, hr, ?_⟩
  refine (Program.rom_eq_ok_iff (Program.ofSource_laidOut hr).inStep).mpr
    ⟨chunks ++ chunks', ?_, by simp [hflat, hflat']⟩
  rw [hsplit]
  exact List.rel_append
    (forall₂_bytes_moved hcommands hrep.stmts hss (fun c _ => hmovable c.command) hchunks)
    (forall₂_bytes_moved hcommands' hrep'.stmts hss' hmovable' hchunks')

end Append

/-- A source after another one has one image after the other, if it is read at all; and it is
read exactly if its program can follow the other. -/
theorem assemble_append_relocatable {src src' : Text} {rom rom' : Array UInt8}
    (h : assemble src = .ok rom) (h' : assemble src' = .ok rom') (hreloc : Relocatable src') :
    ((∃ r, Program.ofSource (src ++ '\n' :: src') = .ok r) →
        assemble (src ++ '\n' :: src') = .ok (rom ++ rom')) ∧
      ∃ p q, Program.ofSource src = .ok p ∧ Program.ofSource src' = .ok q ∧
        ((∃ r, Program.ofSource (src ++ '\n' :: src') = .ok r) ↔ q.CanFollow p) := by
  obtain ⟨p, hp, -⟩ := assemble_eq_ok_iff.mp h
  obtain ⟨q, hq, -⟩ := assemble_eq_ok_iff.mp h'
  refine ⟨?_, p, q, hp, hq, Program.exists_ofSource_append_iff hp hq⟩
  rintro ⟨r, hr⟩
  exact hreloc.assemble_append h h' hr

/-- A loop over an address that a constant names, after one command. -/
theorem assemble_append_relocatable_loop :
    assemble "one EQU $05\nINC A".toList = .ok #[0xA0, 0] ∧
      assemble "at EQU $10\nloop: LD B, at\nBNE loop".toList = .ok #[0x81, 1, 0x10, 0x23, 0xFC] ∧
      Relocatable "at EQU $10\nloop: LD B, at\nBNE loop".toList ∧
      assemble ("one EQU $05\nINC A".toList ++
        '\n' :: "at EQU $10\nloop: LD B, at\nBNE loop".toList) =
          .ok #[0xA0, 0, 0x81, 1, 0x10, 0x23, 0xFC] := by
  have h : assemble "one EQU $05\nINC A".toList = .ok #[0xA0, 0] := by decide +kernel
  have h' : assemble "at EQU $10\nloop: LD B, at\nBNE loop".toList =
      .ok #[0x81, 1, 0x10, 0x23, 0xFC] := by decide +kernel
  have hwords : (sourceLines "at EQU $10\nloop: LD B, at\nBNE loop".toList).map SourceLine.words =
      [⟨none, .constant ⟨"at".toList, 0x10⟩⟩,
        ⟨some "loop".toList, .instruction "LD".toList ["B".toList, "at".toList]⟩,
        ⟨none, .instruction "BNE".toList ["loop".toList]⟩] := by decide +kernel
  have hreloc : Relocatable "at EQU $10\nloop: LD B, at\nBNE loop".toList := by
    have hmem : ∀ {w : LineWords}, w ∈ [⟨none, .constant ⟨"at".toList, 0x10⟩⟩,
        ⟨some "loop".toList, .instruction "LD".toList ["B".toList, "at".toList]⟩,
        ⟨none, .instruction "BNE".toList ["loop".toList]⟩] ↔
        ∃ l ∈ sourceLines "at EQU $10\nloop: LD B, at\nBNE loop".toList, l.words = w := by
      intro w
      rw [← hwords, List.mem_map]
    refine ⟨?_, ?_⟩
    · intro l hl op mnemonic name hbody _ _
      have hl' := hmem.mpr ⟨l, hl, rfl⟩
      simp only [List.mem_cons, List.not_mem_nil, or_false] at hl'
      obtain ⟨label, hlabel, hwords⟩ := hmem.mp (List.mem_cons_of_mem _ List.mem_cons_self)
      rcases hl' with hl' | hl' | hl' <;> rw [hl'] at hbody <;> cases hbody
      exact ⟨label, hlabel, by rw [hwords]⟩
    · intro l hl op mnemonic r name hbody _ _
      have hl' := hmem.mpr ⟨l, hl, rfl⟩
      simp only [List.mem_cons, List.not_mem_nil, or_false] at hl'
      obtain ⟨constant, hconstant, hwords⟩ := hmem.mp List.mem_cons_self
      rcases hl' with hl' | hl' | hl' <;> rw [hl'] at hbody <;> cases hbody
      exact ⟨constant, hconstant, 0x10, by rw [hwords]⟩
  have hread : ∃ r, Program.ofSource ("one EQU $05\nINC A".toList ++
      '\n' :: "at EQU $10\nloop: LD B, at\nBNE loop".toList) = .ok r := ⟨_, rfl⟩
  exact ⟨h, h', hreloc, (assemble_append_relocatable h h' hreloc).1 hread⟩

end MightyAsm
