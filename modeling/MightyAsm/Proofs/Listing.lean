import MightyAsm.Proofs.Steps

/-!
# Listings

A listing is what the lines of a source say once each of them is read on its own: a label,
and a constant, a command or nothing after it. Addresses, definitions and the places of
commands are functions of the listing. Reading a source line by line builds a program that
represents the listing of its lines.

* `SourceLine.Reads`: what a line says, by the grammar alone;
* `Listing.Definable`, `Listing.Admits`: when a definition, and when a line, can follow others;
* `Program.Represents`: the program has the size, the symbols and the statements of a listing;
* `Program.Represents.addLine`, `Program.Represents.exists_addLine`: a line is taken exactly if
  it reads as an entry that the listing before it admits;
* `Program.exists_listing_of_ofSource`, `Program.exists_ofSource_of_listing`: a source is read
  exactly if its lines read as a listing in which each entry is admitted.
-/

namespace MightyAsm

/-! ## Entries -/

/-- What follows the label on a line. -/
inductive EntryBody where
  | blank
  | constant (c : ConstDef)
  | command (c : Command)
deriving DecidableEq, Repr

/-- What a line says: its number, its label and what follows it. -/
structure Entry where
  line : Nat
  label : Option Text
  body : EntryBody
deriving DecidableEq, Repr

/-- The defined names of a program with what they stand for. The value of a label is its
address, which may be too large for a symbol. -/
structure Definition where
  name : Text
  value : Nat
  kind : SymbolKind
  line : Nat
deriving DecidableEq, Repr

structure PlacedCommand where
  line : Nat
  addr : Nat
  command : Command
deriving DecidableEq, Repr

def Definition.symbol (d : Definition) : Symbol :=
  ⟨d.name, UInt8.ofNat d.value, d.kind, d.line⟩

/-- A source line reads as an entry: the instruction part defines the constant or spells the
command of the entry. -/
def SourceLine.Reads (l : SourceLine) (e : Entry) : Prop :=
  e.line = l.line ∧ e.label = l.label.map (·.text) ∧
    match e.body with
    | .blank => l.instr = none
    | .constant c => ∃ t, l.instr = some t ∧ ConstDef.read? t.text = some c
    | .command c => ∃ t, l.instr = some t ∧ c.SpelledBy t.text

namespace Entry

/-- The bytes that an entry takes. Only commands take any. -/
def size (e : Entry) : Nat :=
  match e.body with
  | .command c => c.size
  | _ => 0

def labelDefinitions (addr : Nat) (e : Entry) : List Definition :=
  match e.label with
  | none => []
  | some name => [⟨name, addr, .label, e.line⟩]

/-- The definitions of an entry at an address. A constant comes before the label. -/
def definitions (addr : Nat) (e : Entry) : List Definition :=
  match e.body with
  | .constant c => ⟨c.name, c.value.toNat, .const, e.line⟩ :: e.labelDefinitions addr
  | _ => e.labelDefinitions addr

def commands (addr : Nat) (e : Entry) : List PlacedCommand :=
  match e.body with
  | .command c => [⟨e.line, addr, c⟩]
  | _ => []

/-- The symbol whose value the command of an entry needs at once. -/
def addressSymbol? (e : Entry) : Option Text :=
  match e.body with
  | .command c => c.addressSymbol?
  | _ => none

/-- An entry without a command takes no bytes and needs no symbol. -/
theorem of_noCommand {e : Entry} (h : ∀ c, e.body ≠ .command c) :
    e.size = 0 ∧ (∀ addr, e.commands addr = []) ∧ e.addressSymbol? = none := by
  unfold size commands addressSymbol?
  cases hbody : e.body with
  | blank => exact ⟨rfl, fun _ => rfl, rfl⟩
  | constant c => exact ⟨rfl, fun _ => rfl, rfl⟩
  | command c => exact absurd hbody (h c)

end Entry

/-! ## Listings -/

/-- The entries of a source, in order. -/
abbrev Listing := List Entry

namespace Listing

def size (es : Listing) : Nat := (es.map Entry.size).sum

def locate (addr : Nat) : Listing → List (Nat × Entry)
  | [] => []
  | e :: es => (addr, e) :: locate (addr + e.size) es

def definitions (es : Listing) : List Definition :=
  (es.locate 0).flatMap fun x => x.2.definitions x.1

def commands (es : Listing) : List PlacedCommand :=
  (es.locate 0).flatMap fun x => x.2.commands x.1

@[simp] theorem size_nil : size [] = 0 := rfl

theorem size_cons (e : Entry) (es : Listing) : size (e :: es) = e.size + size es := rfl

@[simp] theorem size_append (es es' : Listing) : size (es ++ es') = size es + size es' := by
  simp [size]

@[simp] theorem size_singleton (e : Entry) : size [e] = e.size := by
  simp [size]

theorem locate_append (addr : Nat) (es es' : Listing) :
    locate addr (es ++ es') = locate addr es ++ locate (addr + size es) es' := by
  induction es generalizing addr with
  | nil => simp [locate]
  | cons e es ih => simp [locate, ih, size, Nat.add_assoc]

@[simp] theorem definitions_nil : definitions [] = [] := rfl

@[simp] theorem definitions_concat (es : Listing) (e : Entry) :
    definitions (es ++ [e]) = definitions es ++ e.definitions (size es) := by
  simp [definitions, locate_append, locate]

@[simp] theorem commands_nil : commands [] = [] := rfl

@[simp] theorem commands_concat (es : Listing) (e : Entry) :
    commands (es ++ [e]) = commands es ++ e.commands (size es) := by
  simp [commands, locate_append, locate]

/-- New definitions that can follow old ones: each has a name that may name a symbol and that
is free, and no label is further than a byte reaches. -/
def Definable (old : List Definition) : List Definition → Prop
  | [] => True
  | d :: new => isSymbolName d.name = true ∧ d.name ∉ old.map (·.name) ∧
      (d.kind = .label → d.value < 256) ∧ Definable (old ++ [d]) new

theorem definable_append {old new new' : List Definition} :
    Definable old (new ++ new') ↔ Definable old new ∧ Definable (old ++ new) new' := by
  induction new generalizing old with
  | nil => simp [Definable]
  | cons d new ih => simp [Definable, ih, and_assoc]

/-- An entry that can follow a listing: its definitions can be made, and the symbol that its
command needs is among those defined so far. -/
def Admits (es : Listing) (e : Entry) : Prop :=
  Definable es.definitions (e.definitions es.size) ∧
    ∀ name ∈ e.addressSymbol?, name ∈ (definitions (es ++ [e])).map (·.name)

/-- Entries that can follow a listing one after the other. -/
def Admitted (before : Listing) : Listing → Prop
  | [] => True
  | e :: es => before.Admits e ∧ Admitted (before ++ [e]) es

end Listing

/-! ## Programs that represent a listing -/

/-- A statement that is meant by a placed command. -/
def PlacedCommand.Denotes (symbols : SymbolTable) (c : PlacedCommand) (s : Statement) : Prop :=
  s.line = c.line ∧ s.addr = c.addr ∧ opcode? c.command.mnemonic c.command.mode = some s.opcode ∧
    c.command.Denotes symbols s.operands

/-- A program of a size with the symbols of definitions and the statements of commands. -/
structure Program.Holds (p : Program) (size : Nat) (ds : List Definition)
    (cs : List PlacedCommand) : Prop where
  size_eq : p.size = size
  symbols_eq : p.symbols.symbols = ds.map Definition.symbol
  stmts : List.Forall₂ (PlacedCommand.Denotes p.symbols) cs p.stmts.toList

/-- The program has the size, the symbols and the statements of a listing. -/
def Program.Represents (p : Program) (es : Listing) : Prop :=
  p.Holds es.size es.definitions es.commands

theorem PlacedCommand.Denotes.append {t t' : SymbolTable} {new : List Symbol}
    {c : PlacedCommand} {s : Statement} (ht : t'.symbols = t.symbols ++ new)
    (h : c.Denotes t s) : c.Denotes t' s :=
  ⟨h.1, h.2.1, h.2.2.1, h.2.2.2.append ht⟩

namespace Program

theorem represents_empty : empty.Represents [] :=
  ⟨rfl, rfl, List.Forall₂.nil⟩

variable {p p' : Program} {size : Nat} {ds : List Definition} {cs : List PlacedCommand}

theorem Holds.names_eq (h : p.Holds size ds cs) : p.symbols.names = ds.map (·.name) := by
  rw [SymbolTable.names, h.symbols_eq, List.map_map]
  rfl

def withDefinitions (p : Program) (new : List Definition) : Program :=
  { p with symbols := ⟨p.symbols.symbols ++ new.map Definition.symbol⟩ }

theorem Holds.withDefinitions (h : p.Holds size ds cs) (new : List Definition) :
    (p.withDefinitions new).Holds size (ds ++ new) cs := by
  refine ⟨h.size_eq, by simp [Program.withDefinitions, h.symbols_eq], ?_⟩
  exact h.stmts.imp fun c s hs => hs.append rfl

theorem Holds.addStatement (h : p.Holds size ds cs) {line : Nat} {op : Opcode}
    {operands : Operands} {c : Command} (hop : opcode? c.mnemonic c.mode = some op)
    (hden : c.Denotes p.symbols operands) :
    Holds { p with stmts := p.stmts.push ⟨line, p.size, op, operands⟩, size := p.size + op.size }
      (size + c.size) ds (cs ++ [⟨line, size, c⟩]) := by
  refine ⟨?_, h.symbols_eq, ?_⟩
  · show p.size + op.size = size + c.size
    rw [h.size_eq, opcode?_size hop, Command.size]
  · rw [Array.toList_push]
    exact List.rel_append h.stmts
      (List.Forall₂.cons ⟨rfl, h.size_eq, hop, hden⟩ List.Forall₂.nil)

/-! ### Lines -/

variable {l : SourceLine} {e : Entry}

theorem Holds.addLabel?_eq_ok_iff (h : p.Holds size ds cs) (hloc : l.Located)
    (hline : e.line = l.line) (hlabel : e.label = l.label.map (·.text)) :
    p.addLabel? l.label = .ok p' ↔ Listing.Definable ds (e.labelDefinitions size) ∧
      p' = p.withDefinitions (e.labelDefinitions size) := by
  cases hl : l.label with
  | none =>
      rw [hl] at hlabel
      simp [addLabel?_none_eq_ok_iff, Entry.labelDefinitions, hlabel, Listing.Definable,
        Program.withDefinitions]
  | some t =>
      rw [hl] at hlabel
      have hdefs : e.labelDefinitions size = [⟨t.text, size, .label, l.line⟩] := by
        simp [Entry.labelDefinitions, hlabel, hline]
      rw [addLabel?_some_eq_ok_iff, hdefs, h.names_eq, h.size_eq, hloc t hl]
      simp only [Listing.Definable, forall_const, and_true]
      constructor
      · rintro ⟨hsize, hname, hfree, hp⟩
        exact ⟨⟨hname, hfree, hsize⟩, hp⟩
      · rintro ⟨⟨hname, hfree, hsize⟩, hp⟩
        exact ⟨hsize, hname, hfree, hp⟩

theorem Holds.addLine_of_blank_eq_ok_iff (h : p.Holds size ds cs) (hloc : l.Located)
    (hreads : l.Reads e) (hbody : e.body = .blank) :
    p.addLine l = .ok p' ↔ Listing.Definable ds (e.definitions size) ∧
      p' = p.withDefinitions (e.definitions size) := by
  obtain ⟨hline, hlabel, hinstr⟩ := hreads
  rw [hbody] at hinstr
  rw [addLine_of_blank hinstr, h.addLabel?_eq_ok_iff hloc hline hlabel]
  simp only [Entry.definitions, hbody]

theorem Holds.addLine_of_constant_eq_ok_iff (h : p.Holds size ds cs) (hloc : l.Located)
    (hreads : l.Reads e) {c : ConstDef} (hbody : e.body = .constant c) :
    p.addLine l = .ok p' ↔ Listing.Definable ds (e.definitions size) ∧
      p' = p.withDefinitions (e.definitions size) := by
  obtain ⟨hline, hlabel, hinstr⟩ := hreads
  rw [hbody] at hinstr
  obtain ⟨t, ht, hc⟩ := hinstr
  have hconst := h.withDefinitions [⟨c.name, c.value.toNat, .const, l.line⟩]
  have hsymbol : p.withSymbol ⟨c.name, c.value, .const, l.line⟩ =
      p.withDefinitions [⟨c.name, c.value.toNat, .const, l.line⟩] := by
    simp [withSymbol, Program.withDefinitions, Definition.symbol]
  rw [Program.addLine_of_constant_eq_ok_iff ht hc, hsymbol,
    hconst.addLabel?_eq_ok_iff hloc hline hlabel, h.names_eq]
  simp only [Entry.definitions, hbody, hline, Listing.Definable]
  simp [and_assoc, Program.withDefinitions]

/-- A line without a command makes its definitions and nothing else. -/
theorem Holds.addLine_of_noCommand_eq_ok_iff (h : p.Holds size ds cs) (hloc : l.Located)
    (hreads : l.Reads e) (hnone : ∀ c, e.body ≠ .command c) :
    p.addLine l = .ok p' ↔ Listing.Definable ds (e.definitions size) ∧
      p' = p.withDefinitions (e.definitions size) := by
  cases hbody : e.body with
  | blank => exact h.addLine_of_blank_eq_ok_iff hloc hreads hbody
  | constant c => exact h.addLine_of_constant_eq_ok_iff hloc hreads hbody
  | command c => exact absurd hbody (hnone c)

/-- On a line with a command the label comes first, and then the statement. -/
theorem Holds.addLine_of_command (h : p.Holds size ds cs) (hloc : l.Located)
    (hreads : l.Reads e) {c : Command} (hbody : e.body = .command c)
    (hp : p.addLine l = .ok p') :
    Listing.Definable ds (e.definitions size) ∧
      (∀ name ∈ c.addressSymbol?, name ∈ (ds ++ e.definitions size).map (·.name)) ∧
      p'.Holds (size + c.size) (ds ++ e.definitions size) (cs ++ [⟨e.line, size, c⟩]) := by
  obtain ⟨hline, hlabel, hinstr⟩ := hreads
  rw [hbody] at hinstr
  obtain ⟨t, ht, hspelled⟩ := hinstr
  have hconst := ConstDef.read?_eq_none_of_spelledBy hspelled
  obtain ⟨q, op, operands, hq, hresolve, rfl⟩ :=
    (addLine_of_instruction_eq_ok_iff ht hconst).mp hp
  obtain ⟨hdefinable, rfl⟩ := (h.addLabel?_eq_ok_iff hloc hline hlabel).mp hq
  have hdefs : e.definitions size = e.labelDefinitions size := by
    simp only [Entry.definitions, hbody]
  have hholds := h.withDefinitions (e.labelDefinitions size)
  obtain ⟨c', hread, hop, hden⟩ := Instruction.exists_command_of_resolve hresolve
  have hc : c' = c := (Command.spelledBy_iff_reads.mpr hread).unique hspelled
  subst hc
  rw [hdefs, hline]
  refine ⟨hdefinable, ?_, hholds.addStatement hop hden⟩
  rw [← hholds.names_eq]
  exact hden.mem_names

theorem Holds.exists_addLine_of_command (h : p.Holds size ds cs) (hloc : l.Located)
    (hreads : l.Reads e) {c : Command} (hbody : e.body = .command c)
    (hdefinable : Listing.Definable ds (e.definitions size))
    (hknown : ∀ name ∈ c.addressSymbol?, name ∈ (ds ++ e.definitions size).map (·.name)) :
    ∃ p', p.addLine l = .ok p' := by
  obtain ⟨hline, hlabel, hinstr⟩ := hreads
  rw [hbody] at hinstr
  obtain ⟨t, ht, hspelled⟩ := hinstr
  have hconst := ConstDef.read?_eq_none_of_spelledBy hspelled
  have hdefs : e.definitions size = e.labelDefinitions size := by
    simp only [Entry.definitions, hbody]
  rw [hdefs] at hdefinable hknown
  have hholds := h.withDefinitions (e.labelDefinitions size)
  rw [← hholds.names_eq] at hknown
  have hresolve := Instruction.exists_resolve_of_reads (Command.spelledBy_iff_reads.mp hspelled)
    fun name hname => SymbolTable.value?_isSome_iff.mpr (hknown name hname)
  obtain ⟨⟨op, operands⟩, hresolve⟩ := hresolve
  exact ⟨_, (addLine_of_instruction_eq_ok_iff ht hconst).mpr ⟨_, op, operands,
    (h.addLabel?_eq_ok_iff hloc hline hlabel).mpr ⟨hdefinable, rfl⟩, hresolve, rfl⟩⟩

variable {es : Listing}

/-- A line that is taken reads as an entry. -/
theorem exists_reads_of_addLine (h : p.addLine l = .ok p') : ∃ e, l.Reads e := by
  cases ht : l.instr with
  | none => exact ⟨⟨l.line, l.label.map (·.text), .blank⟩, rfl, rfl, ht⟩
  | some t =>
      cases hc : ConstDef.read? t.text with
      | some c => exact ⟨⟨l.line, l.label.map (·.text), .constant c⟩, rfl, rfl, t, ht, hc⟩
      | none =>
          obtain ⟨q, op, operands, -, hresolve, -⟩ :=
            (addLine_of_instruction_eq_ok_iff ht hc).mp h
          obtain ⟨c, hread, -, -⟩ := Instruction.exists_command_of_resolve hresolve
          exact ⟨⟨l.line, l.label.map (·.text), .command c⟩, rfl, rfl, t, ht,
            Command.spelledBy_iff_reads.mpr hread⟩

/-- A line is only taken if the listing admits its entry, and then the program represents
the longer listing. -/
theorem Represents.addLine (hp : p.Represents es) (hloc : l.Located) (hreads : l.Reads e)
    (h : p.addLine l = .ok p') : es.Admits e ∧ p'.Represents (es ++ [e]) := by
  by_cases hcommand : ∃ c, e.body = .command c
  · obtain ⟨c, hbody⟩ := hcommand
    obtain ⟨hdefinable, hknown, hholds⟩ := hp.addLine_of_command hloc hreads hbody h
    refine ⟨⟨hdefinable, ?_⟩, ?_⟩
    · rw [Listing.definitions_concat]
      simpa only [Entry.addressSymbol?, hbody] using hknown
    · simpa [Represents, Entry.size, Entry.commands, hbody] using hholds
  · have hnone := not_exists.mp hcommand
    obtain ⟨hsize, hcommands, hsymbol⟩ := Entry.of_noCommand hnone
    obtain ⟨hdefinable, rfl⟩ := (hp.addLine_of_noCommand_eq_ok_iff hloc hreads hnone).mp h
    refine ⟨⟨hdefinable, by simp [hsymbol]⟩, ?_⟩
    have hholds := hp.withDefinitions (e.definitions es.size)
    simpa [Represents, hsize, hcommands] using hholds

/-- A line whose entry the listing admits is taken. -/
theorem Represents.exists_addLine (hp : p.Represents es) (hloc : l.Located)
    (hreads : l.Reads e) (hadmits : es.Admits e) : ∃ p', p.addLine l = .ok p' := by
  obtain ⟨hdefinable, hknown⟩ := hadmits
  by_cases hcommand : ∃ c, e.body = .command c
  · obtain ⟨c, hbody⟩ := hcommand
    refine hp.exists_addLine_of_command hloc hreads hbody hdefinable ?_
    rw [← Listing.definitions_concat]
    simpa only [Entry.addressSymbol?, hbody] using hknown
  · have hnone := not_exists.mp hcommand
    exact ⟨_, (hp.addLine_of_noCommand_eq_ok_iff hloc hreads hnone).mpr ⟨hdefinable, rfl⟩⟩

/-! ### Sources -/

theorem Represents.addLines {ls : List SourceLine} (hp : p.Represents es)
    (hloc : ∀ l ∈ ls, l.Located) (h : p.addLines ls = .ok p') :
    ∃ new, List.Forall₂ SourceLine.Reads ls new ∧ Listing.Admitted es new ∧
      p'.Represents (es ++ new) := by
  induction ls generalizing p es with
  | nil =>
      cases h
      exact ⟨[], List.Forall₂.nil, trivial, by simpa using hp⟩
  | cons l ls ih =>
      obtain ⟨q, hq, hrest⟩ := addLines_cons.mp h
      obtain ⟨e, hreads⟩ := exists_reads_of_addLine hq
      obtain ⟨hadmits, hq⟩ := hp.addLine (hloc l List.mem_cons_self) hreads hq
      obtain ⟨new, hnew, hadmitted, hp'⟩ :=
        ih hq (fun l' hl' => hloc l' (List.mem_cons_of_mem l hl')) hrest
      exact ⟨e :: new, List.Forall₂.cons hreads hnew, ⟨hadmits, hadmitted⟩, by simpa using hp'⟩

theorem Represents.exists_addLines {ls : List SourceLine} {new : Listing} (hp : p.Represents es)
    (hloc : ∀ l ∈ ls, l.Located) (hreads : List.Forall₂ SourceLine.Reads ls new)
    (hadmitted : Listing.Admitted es new) :
    ∃ p', p.addLines ls = .ok p' ∧ p'.Represents (es ++ new) := by
  induction hreads generalizing p es with
  | nil => exact ⟨p, rfl, by simpa using hp⟩
  | @cons l e ls new hread hrest ih =>
      obtain ⟨hadmits, hadmitted⟩ := hadmitted
      obtain ⟨q, hq⟩ := hp.exists_addLine (hloc l List.mem_cons_self) hread hadmits
      obtain ⟨-, hqrep⟩ := hp.addLine (hloc l List.mem_cons_self) hread hq
      obtain ⟨p', hp', hrep⟩ :=
        ih hqrep (fun l' hl' => hloc l' (List.mem_cons_of_mem l hl')) hadmitted
      exact ⟨p', addLines_cons.mpr ⟨q, hq, hp'⟩, by simpa using hrep⟩

/-- The lines of a source that is read form a listing, which the program represents. -/
theorem exists_listing_of_ofSource {src : Text} (h : ofSource src = .ok p) :
    ∃ es, List.Forall₂ SourceLine.Reads (sourceLines src) es ∧ Listing.Admitted [] es ∧
      p.Represents es := by
  obtain ⟨es, hreads, hadmitted, hrep⟩ :=
    represents_empty.addLines (fun l hl => located_of_mem_sourceLines hl) h
  exact ⟨es, hreads, hadmitted, by simpa using hrep⟩

/-- A source whose lines form a listing is read. -/
theorem exists_ofSource_of_listing {src : Text}
    (hreads : List.Forall₂ SourceLine.Reads (sourceLines src) es)
    (hadmitted : Listing.Admitted [] es) : ∃ p, ofSource src = .ok p ∧ p.Represents es := by
  obtain ⟨p, hp, hrep⟩ :=
    represents_empty.exists_addLines (fun l hl => located_of_mem_sourceLines hl) hreads hadmitted
  exact ⟨p, hp, by simpa using hrep⟩

end Program

end MightyAsm
