import MightyAsm.Proofs.Definitions
import MightyAsm.Proofs.Lists

/-!
# The symbols of a source

The table of a program holds the definitions of its source and nothing else, in the order of
the lines. The value of a label is counted in bytes of instructions, and it is never cut
down to a byte: a label further on is refused.

* `SourceLine.Reads.unique`: a line says one thing only;
* `Listing.exists_of_mem_locate`: an address is the size of what stands before it;
* `Program.exists_tabulates`: the symbols of a source.
-/

namespace MightyAsm

/-! ## What a line says -/

section Reads

variable {l : SourceLine} {e e' : Entry} {t : Token} {c : ConstDef}

theorem SourceLine.Reads.body_eq_blank (h : l.Reads e) (hl : l.instr = none) :
    e.body = .blank := by
  obtain ⟨-, -, hbody⟩ := h
  cases he : e.body with
  | blank => rfl
  | constant c =>
      rw [he, hl] at hbody
      obtain ⟨t, ht, -⟩ := hbody
      cases ht
  | command c =>
      rw [he, hl] at hbody
      obtain ⟨t, ht, -⟩ := hbody
      cases ht

theorem SourceLine.Reads.body_eq_constant (h : l.Reads e) (hl : l.instr = some t)
    (hc : ConstDef.read? t.text = some c) : e.body = .constant c := by
  obtain ⟨-, -, hbody⟩ := h
  cases he : e.body with
  | blank =>
      rw [he, hl] at hbody
      cases hbody
  | constant c' =>
      rw [he, hl] at hbody
      obtain ⟨t', ht', hc'⟩ := hbody
      cases ht'
      rw [hc] at hc'
      cases hc'
      rfl
  | command c' =>
      rw [he, hl] at hbody
      obtain ⟨t', ht', hspelled⟩ := hbody
      cases ht'
      rw [ConstDef.read?_eq_none_of_spelledBy hspelled] at hc
      cases hc

theorem SourceLine.Reads.exists_command (h : l.Reads e) (hl : l.instr = some t)
    (hc : ConstDef.read? t.text = none) : ∃ c, e.body = .command c ∧ c.SpelledBy t.text := by
  obtain ⟨-, -, hbody⟩ := h
  cases he : e.body with
  | blank =>
      rw [he, hl] at hbody
      cases hbody
  | constant c' =>
      rw [he, hl] at hbody
      obtain ⟨t', ht', hc'⟩ := hbody
      cases ht'
      rw [hc] at hc'
      cases hc'
  | command c' =>
      rw [he, hl] at hbody
      obtain ⟨t', ht', hspelled⟩ := hbody
      cases ht'
      exact ⟨c', rfl, hspelled⟩

theorem SourceLine.Reads.unique (h : l.Reads e) (h' : l.Reads e') : e = e' := by
  have hbody : e.body = e'.body := by
    cases hl : l.instr with
    | none => rw [h.body_eq_blank hl, h'.body_eq_blank hl]
    | some t =>
        cases hc : ConstDef.read? t.text with
        | some c => rw [h.body_eq_constant hl hc, h'.body_eq_constant hl hc]
        | none =>
            obtain ⟨c, he, hspelled⟩ := h.exists_command hl hc
            obtain ⟨c', he', hspelled'⟩ := h'.exists_command hl hc
            rw [he, he', hspelled.unique hspelled']
  have hline : e.line = e'.line := h.1.trans h'.1.symm
  have hlabel : e.label = e'.label := h.2.1.trans h'.2.1.symm
  cases e
  cases e'
  simp_all only

end Reads

/-- The texts that define a constant: its name, a keyword, and a dollar sign with the
hexadecimal digits of its value, with blanks between the three. -/
def ConstDef.WrittenAs (c : ConstDef) (t : Text) : Prop :=
  ∃ gap keyword gap' digits : Text, isIdentifier c.name = true ∧ gap ≠ [] ∧ gap.Blank ∧
    ConstDef.isKeyword keyword = true ∧ gap' ≠ [] ∧ gap'.Blank ∧
    hexByte? digits = some c.value ∧ t = c.name ++ (gap ++ (keyword ++ (gap' ++ '$' :: digits)))

theorem ConstDef.writtenAs_of_read? {t : Text} {c : ConstDef} (h : ConstDef.read? t = some c) :
    c.WrittenAs t := by
  obtain ⟨gap, keyword, gap', digits, hname, hgap, hblank, hkey, -, hgap', hblank', hdigits, ht⟩ :=
    ConstDef.exists_of_read? h
  exact ⟨gap, keyword, gap', digits, hname, hgap, hblank, hkey, hgap', hblank', hdigits, ht⟩

/-- A constant comes before the label of its line. -/
theorem Entry.mem_definitions_iff {addr : Nat} {e : Entry} {d : Definition} :
    d ∈ e.definitions addr ↔
      (∃ c, e.body = .constant c ∧ d = ⟨c.name, c.value.toNat, .const, e.line⟩) ∨
      ∃ name, e.label = some name ∧ d = ⟨name, addr, .label, e.line⟩ := by
  have hlabel : d ∈ e.labelDefinitions addr ↔
      ∃ name, e.label = some name ∧ d = ⟨name, addr, .label, e.line⟩ := by
    unfold Entry.labelDefinitions
    cases e.label <;> simp
  rw [← hlabel, Entry.definitions]
  cases e.body <;> simp

/-! ## Addresses -/

namespace Listing

theorem exists_of_mem_locate {es : Listing} {start addr : Nat} {e : Entry}
    (h : (addr, e) ∈ es.locate start) :
    ∃ before after, es = before ++ e :: after ∧ addr = start + size before := by
  induction es generalizing start with
  | nil => cases h
  | cons e' es ih =>
      rcases List.mem_cons.mp h with heq | h
      · cases heq
        exact ⟨[], es, rfl, rfl⟩
      · obtain ⟨before, after, rfl, haddr⟩ := ih h
        refine ⟨e' :: before, after, rfl, ?_⟩
        rw [size_cons]
        omega

/-- The bytes of all instructions on lines before a line. -/
def sizeBefore (es : Listing) (line : Nat) : Nat := size (es.filter fun e => e.line < line)

theorem sizeBefore_eq {before after : Listing} {e : Entry}
    (h : (before ++ e :: after).Pairwise fun e e' => e.line < e'.line) :
    sizeBefore (before ++ e :: after) e.line = size before := by
  obtain ⟨-, hafter, hlt⟩ := List.pairwise_append.mp h
  have hfront : before.filter (fun e' => e'.line < e.line) = before :=
    List.filter_eq_self.mpr fun e' he' => by simpa using hlt e' he' e List.mem_cons_self
  have hback : (e :: after).filter (fun e' => e'.line < e.line) = [] := by
    rw [List.filter_eq_nil_iff]
    intro e' he'
    rcases List.mem_cons.mp he' with rfl | he'
    · simp
    · have hle := (List.pairwise_cons.mp hafter).1 e' he'
      simp only [decide_eq_true_eq]
      omega
  rw [sizeBefore, List.filter_append, hfront, hback, List.append_nil]

theorem map_line_of_reads {ls : List SourceLine} {es : Listing}
    (h : List.Forall₂ SourceLine.Reads ls es) : es.map (·.line) = ls.map (·.line) := by
  induction h with
  | nil => rfl
  | cons hread _ ih => rw [List.map_cons, List.map_cons, ih, hread.1]

theorem pairwise_line_of_reads {src : Text} {es : Listing}
    (h : List.Forall₂ SourceLine.Reads (sourceLines src) es) :
    es.Pairwise fun e e' => e.line < e'.line := by
  rw [← List.pairwise_map, map_line_of_reads h, List.pairwise_map]
  exact sourceLines_pairwise_line src

end Listing

/-! ## The table -/

/-- The definition that a symbol records. -/
def Symbol.definition (s : Symbol) : Definition :=
  ⟨s.name, s.value.toNat, s.kind, s.line⟩

theorem Definition.definition_symbol {d : Definition} (h : d.value < 256) :
    d.symbol.definition = d := by
  have hvalue : (UInt8.ofNat d.value).toNat = d.value := UInt8.toNat_ofNat_of_lt' h
  simp only [Definition.symbol, Symbol.definition, hvalue]

/-- The symbols of a program are the definitions of its source. -/
structure Program.Tabulates (p : Program) (src : Text) (es : Listing) : Prop where
  /-- The entries are what the lines of the source say. -/
  reads_iff : ∀ es', List.Forall₂ SourceLine.Reads (sourceLines src) es' ↔ es' = es
  /-- The symbols are the definitions in the order of the lines, each one once. On one line a
  constant comes before the label. -/
  definitions_eq : p.symbols.symbols.map Symbol.definition = es.definitions
  /-- A label stands for the bytes of all instructions on the lines before its own. -/
  label : ∀ s ∈ p.symbols.symbols, s.kind = .label →
    (∃ l ∈ sourceLines src, l.line = s.line ∧ l.label.map (·.text) = some s.name) ∧
      es.sizeBefore s.line < 256 ∧ s.value.toNat = es.sizeBefore s.line
  /-- A constant stands for the hexadecimal digits that its line writes. -/
  constant : ∀ s ∈ p.symbols.symbols, s.kind = .const →
    ∃ l ∈ sourceLines src, l.line = s.line ∧
      ∃ t, l.instr = some t ∧ ConstDef.WrittenAs ⟨s.name, s.value⟩ t.text
  /-- No two symbols have the same name. -/
  distinct : p.symbols.names.Nodup
  /-- The names are identifiers that name no register. -/
  named : ∀ s ∈ p.symbols.symbols,
    isIdentifier s.name = true ∧ Register.ofText? s.name = none

namespace Program

variable {src : Text} {p : Program} {es : Listing} {s : Symbol}

theorem Represents.exists_definition (hp : p.Represents es)
    (hreads : List.Forall₂ SourceLine.Reads (sourceLines src) es)
    (hs : s ∈ p.symbols.symbols) :
    ∃ l ∈ sourceLines src, ∃ before e after d, l.Reads e ∧ es = before ++ e :: after ∧
      d ∈ es.definitions ∧ d ∈ e.definitions (Listing.size before) ∧ s = d.symbol := by
  rw [hp.symbols_eq] at hs
  obtain ⟨d, hd, rfl⟩ := List.mem_map.mp hs
  obtain ⟨⟨addr, e⟩, hmem, hde⟩ := List.mem_flatMap.mp hd
  obtain ⟨before, after, hes, haddr⟩ := Listing.exists_of_mem_locate hmem
  obtain ⟨l, hl, hread⟩ := exists_mem_of_forall₂ hreads (y := e) (by simp [hes])
  rw [Nat.zero_add] at haddr
  exact ⟨l, hl, before, e, after, d, hread, hes, hd, haddr ▸ hde, rfl⟩

theorem Represents.map_definition (hp : p.Represents es) (hes : Listing.Admitted [] es) :
    p.symbols.symbols.map Symbol.definition = es.definitions := by
  have hid : ∀ d ∈ es.definitions, (Symbol.definition ∘ Definition.symbol) d = id d :=
    fun d hd => Definition.definition_symbol (Listing.value_lt hes d hd)
  rw [hp.symbols_eq, List.map_map, List.map_congr_left hid, List.map_id]

theorem Represents.label_value (hp : p.Represents es) (hes : Listing.Admitted [] es)
    (hreads : List.Forall₂ SourceLine.Reads (sourceLines src) es)
    (hs : s ∈ p.symbols.symbols) (hkind : s.kind = .label) :
    (∃ l ∈ sourceLines src, l.line = s.line ∧ l.label.map (·.text) = some s.name) ∧
      es.sizeBefore s.line < 256 ∧ s.value.toNat = es.sizeBefore s.line := by
  obtain ⟨l, hl, before, e, after, d, hread, hsplit, hdes, hd, rfl⟩ :=
    hp.exists_definition hreads hs
  rcases Entry.mem_definitions_iff.mp hd with ⟨c, -, rfl⟩ | ⟨name, hlabel, rfl⟩
  · cases hkind
  · have hbyte := Listing.value_lt hes _ hdes
    have hbefore : es.sizeBefore e.line = Listing.size before := by
      have hlines := Listing.pairwise_line_of_reads hreads
      rw [hsplit] at hlines ⊢
      exact Listing.sizeBefore_eq hlines
    refine ⟨⟨l, hl, hread.1.symm, hread.2.1.symm.trans hlabel⟩, ?_, ?_⟩
    · exact hbefore.trans_lt hbyte
    · exact (UInt8.toNat_ofNat_of_lt' hbyte).trans hbefore.symm

theorem Represents.constant_value (hp : p.Represents es)
    (hreads : List.Forall₂ SourceLine.Reads (sourceLines src) es)
    (hs : s ∈ p.symbols.symbols) (hkind : s.kind = .const) :
    ∃ l ∈ sourceLines src, l.line = s.line ∧
      ∃ t, l.instr = some t ∧ ConstDef.WrittenAs ⟨s.name, s.value⟩ t.text := by
  obtain ⟨l, hl, before, e, after, d, hread, -, -, hd, rfl⟩ := hp.exists_definition hreads hs
  rcases Entry.mem_definitions_iff.mp hd with ⟨c, hbody, rfl⟩ | ⟨name, -, rfl⟩
  · obtain ⟨hline, -, hinstr⟩ := hread
    rw [hbody] at hinstr
    obtain ⟨t, ht, hc⟩ := hinstr
    refine ⟨l, hl, hline.symm, t, ht, ?_⟩
    simpa [Definition.symbol] using ConstDef.writtenAs_of_read? hc
  · cases hkind

/-- The symbols of a source that is read are its definitions. -/
theorem exists_tabulates (h : ofSource src = .ok p) : ∃ es, p.Tabulates src es := by
  obtain ⟨es, hreads, hes, hp⟩ := exists_listing_of_ofSource h
  obtain ⟨hnamed, hdistinct, -⟩ := Listing.definable_nil_iff.mp (Listing.admitted_iff.mp hes).1
  refine ⟨es, ?_, hp.map_definition hes, fun s => hp.label_value hes hreads,
    fun s => hp.constant_value hreads, ?_, ?_⟩
  · have hunique : Relator.RightUnique SourceLine.Reads := fun _ _ _ h h' => h.unique h'
    intro es'
    constructor
    · intro hreads'
      exact hunique.forall₂ hreads' hreads
    · rintro rfl
      exact hreads
  · rw [hp.names_eq]
    exact hdistinct
  · intro s hs
    rw [hp.symbols_eq] at hs
    obtain ⟨d, hd, rfl⟩ := List.mem_map.mp hs
    have hname := hnamed d hd
    simp only [isSymbolName, Bool.and_eq_true, Option.isNone_iff_eq_none] at hname
    exact hname

/-- Blank lines and constants take no space, and a line may have both definitions. -/
theorem exists_tabulates_labelled :
    ∃ p es, ofSource "INC A\n\nhere: KEY EQU $1f\nend: LD B, KEY".toList = .ok p ∧
      p.Tabulates "INC A\n\nhere: KEY EQU $1f\nend: LD B, KEY".toList es ∧
      p.symbols.symbols = [⟨"KEY".toList, 0x1F, .const, 3⟩, ⟨"here".toList, 2, .label, 3⟩,
        ⟨"end".toList, 2, .label, 4⟩] := by
  obtain ⟨p, hp, hsymbols⟩ : ∃ p,
      ofSource "INC A\n\nhere: KEY EQU $1f\nend: LD B, KEY".toList = .ok p ∧
      p.symbols.symbols = [⟨"KEY".toList, 0x1F, .const, 3⟩, ⟨"here".toList, 2, .label, 3⟩,
        ⟨"end".toList, 2, .label, 4⟩] := ⟨_, rfl, rfl⟩
  obtain ⟨es, htabulates⟩ := exists_tabulates hp
  exact ⟨p, es, hp, htabulates, hsymbols⟩

end Program

end MightyAsm
