import Mathlib.Data.List.Nodup
import MightyAsm.Proofs.Branches
import MightyAsm.Proofs.Sayings

/-!
# Moving code

The same entries may stand at another place of a listing. Their commands are then moved by
some number of bytes, and so are the values of their labels; the values of constants are not.
A command keeps its bytes when it is moved, if its address symbol keeps its value and the
target of its branch is moved along.

* `branchDistance?_add`: a branch and its destination are moved together;
* `PlacedCommand.Denotes.bytes_moved`, `forall₂_bytes_moved`: moved commands keep their bytes;
* `Listing.forall₂_commandsFrom`, `Listing.forall₂_definitionsFrom`: what moving does to the
  commands and the definitions of a listing;
* `Program.Represents.value?_moved`: what it does to the values of symbols.
-/

namespace MightyAsm

/-! ## Commands -/

/-- Addresses are words that wrap around, but destinations are bytes: near a destination the
distance does not wrap. -/
theorem branchDistance?_add {pc n : Nat} {dest dest' : UInt8} {distance : Int}
    (h : branchDistance? pc dest = some distance) (hrange : -128 ≤ distance ∧ distance ≤ 127)
    (hdest : dest'.toNat = dest.toNat + n) : branchDistance? (pc + n) dest' = some distance := by
  have hbyte := dest'.toNat_lt
  unfold branchDistance? at h
  dsimp only at h
  split at h
  · rw [Option.some.injEq] at h
    subst h
    have hmod : Int.bmod ((pc + n : Nat) : Int) 0x100000000 = Int.bmod pc 0x100000000 + n := by
      rw [Int.natCast_add, ← Int.bmod_add_bmod]
      apply Int.bmod_eq_of_le <;> omega
    have hnext : isWord (Int.bmod pc 0x100000000 + n + 1) = true := by
      simp only [isWord, Bool.and_eq_true, decide_eq_true_eq]
      omega
    have hsame : (dest'.toNat : Int) - (Int.bmod pc 0x100000000 + n + 1) =
        dest.toNat - (Int.bmod pc 0x100000000 + 1) := by
      omega
    have hword : isWord (dest.toNat - (Int.bmod pc 0x100000000 + 1)) = true := by
      simp only [isWord, Bool.and_eq_true, decide_eq_true_eq]
      omega
    simp only [branchDistance?, hmod, hnext, hsame, hword, Bool.and_self, if_true]
  · cases h

/-- The same command, `n` bytes further on. -/
structure PlacedCommand.Moved (n : Nat) (c c' : PlacedCommand) : Prop where
  command : c'.command = c.command
  addr : c'.addr = c.addr + n

/-- A command can be moved by `n` bytes from one table to another: its address symbol has the
same value in both, and the target of its branch is moved along. -/
structure Command.Movable (symbols symbols' : SymbolTable) (n : Nat) (c : Command) : Prop where
  address : ∀ name ∈ c.addressSymbol?, ∀ value, symbols.value? name = some value →
    symbols'.value? name = some value
  target : ∀ op name, c = .branchTo op name → ∀ dest, symbols.value? name = some dest →
    ∃ dest', symbols'.value? name = some dest' ∧ dest'.toNat = dest.toNat + n

section Commands

variable {symbols symbols' : SymbolTable} {n : Nat}

theorem Command.Denotes.encode_moved {c : Command} {operands operands' : Operands} {addr : Nat}
    {bytes : List UInt8} (h : c.Denotes symbols operands) (h' : c.Denotes symbols' operands')
    (hmovable : c.Movable symbols symbols' n) (hbytes : operands.encode symbols addr = .ok bytes) :
    operands'.encode symbols' (addr + n) = .ok bytes := by
  cases c with
  | memorySymbol op r name =>
      obtain ⟨value, hvalue, rfl⟩ := h
      obtain ⟨value', hvalue', rfl⟩ := h'
      rw [hmovable.address name rfl value hvalue] at hvalue'
      cases hvalue'
      exact hbytes
  | branchTo op name =>
      obtain ⟨t, rfl, rfl⟩ := h
      obtain ⟨t', ht', rfl⟩ := h'
      rw [Operands.encode, bind_eq_ok_iff] at hbytes ⊢
      obtain ⟨b, hb, hreturn⟩ := hbytes
      refine ⟨b, ?_, hreturn⟩
      rw [Target.encode, Target.encodeWith_symbol_eq_ok_iff] at hb ⊢
      obtain ⟨dest, distance, hdest, hdistance, hrange, hbyte⟩ := hb
      obtain ⟨dest', hdest', hmoved⟩ := hmovable.target op t.text rfl dest hdest
      rw [← ht'] at hdest'
      exact ⟨dest', distance, hdest', branchDistance?_add hdistance hrange hmoved, hrange, hbyte⟩
  | branchHere op =>
      cases h
      cases h'
      rw [Operands.encode, Target.encode, Target.encodeWith] at hbytes ⊢
      exact hbytes
  | _ =>
      cases h
      cases h'
      exact hbytes

theorem PlacedCommand.Denotes.bytes_moved {c c' : PlacedCommand} {s s' : Statement}
    {chunk : List UInt8} (h : c.Denotes symbols s) (h' : c'.Denotes symbols' s')
    (hmoved : c.Moved n c') (hmovable : c.command.Movable symbols symbols' n)
    (hchunk : s.bytes symbols = .ok chunk) : s'.bytes symbols' = .ok chunk := by
  obtain ⟨-, haddr, hop, hden⟩ := h
  obtain ⟨-, haddr', hop', hden'⟩ := h'
  rw [hmoved.command] at hop' hden'
  have hopcode : s'.opcode = s.opcode := Option.some.inj (hop'.symm.trans hop)
  rw [Statement.bytes, map_eq_ok_iff] at hchunk ⊢
  obtain ⟨bytes, hbytes, rfl⟩ := hchunk
  rw [haddr] at hbytes
  rw [haddr', hmoved.addr, hopcode]
  exact ⟨bytes, hden.encode_moved hden' hmovable hbytes, rfl⟩

/-- Commands that are moved together keep their bytes. -/
theorem forall₂_bytes_moved {cs cs' : List PlacedCommand} {ss ss' : List Statement}
    {chunks : List (List UInt8)} (hmoved : List.Forall₂ (PlacedCommand.Moved n) cs cs')
    (hss : List.Forall₂ (PlacedCommand.Denotes symbols) cs ss)
    (hss' : List.Forall₂ (PlacedCommand.Denotes symbols') cs' ss')
    (hmovable : ∀ c ∈ cs, c.command.Movable symbols symbols' n)
    (hchunks : List.Forall₂ (fun s chunk => s.bytes symbols = .ok chunk) ss chunks) :
    List.Forall₂ (fun s chunk => s.bytes symbols' = .ok chunk) ss' chunks := by
  induction hmoved generalizing ss ss' chunks with
  | nil =>
      cases hss
      cases hss'
      cases hchunks
      exact .nil
  | cons hc _ ih =>
      cases hss with
      | cons hs hss =>
          cases hss' with
          | cons hs' hss' =>
              cases hchunks with
              | cons hchunk hchunks =>
                  obtain ⟨hfirst, hrest⟩ := List.forall_mem_cons.mp hmovable
                  exact .cons (hs.bytes_moved hs' hc hfirst hchunk) (ih hss hss' hrest hchunks)

end Commands

/-! ## Listings -/

/-- The same definition, `n` bytes further on. Only labels are moved. -/
structure Definition.Moved (n : Nat) (d d' : Definition) : Prop where
  name : d'.name = d.name
  kind : d'.kind = d.kind
  value : d'.value = d.value + if d.kind = .label then n else 0

theorem Definition.Moved.value_eq {d d' : Definition} (h : d.Moved 0 d') : d'.value = d.value := by
  rw [h.value, ite_self, Nat.add_zero]

theorem Entry.Same.size_eq {e e' : Entry} (h : e.Same e') : e'.size = e.size := by
  rw [Entry.size, h.body, Entry.size]

namespace Listing

/-- The definitions of a listing that begins at an address. -/
def definitionsFrom (addr : Nat) (es : Listing) : List Definition :=
  (es.locate addr).flatMap fun x => x.2.definitions x.1

/-- The commands of a listing that begins at an address. -/
def commandsFrom (addr : Nat) (es : Listing) : List PlacedCommand :=
  (es.locate addr).flatMap fun x => x.2.commands x.1

theorem definitionsFrom_cons (addr : Nat) (e : Entry) (es : Listing) :
    definitionsFrom addr (e :: es) = e.definitions addr ++ definitionsFrom (addr + e.size) es := by
  simp [definitionsFrom, locate]

theorem commandsFrom_cons (addr : Nat) (e : Entry) (es : Listing) :
    commandsFrom addr (e :: es) = e.commands addr ++ commandsFrom (addr + e.size) es := by
  simp [commandsFrom, locate]

theorem definitions_append (es es' : Listing) :
    definitions (es ++ es') = definitions es ++ definitionsFrom es.size es' := by
  simp [definitions, definitionsFrom, locate_append]

theorem commands_append (es es' : Listing) :
    commands (es ++ es') = commands es ++ commandsFrom es.size es' := by
  simp [commands, commandsFrom, locate_append]

variable {es es' : Listing}

theorem forall₂_definitionsFrom (h : List.Forall₂ Entry.Same es es') (addr n : Nat) :
    List.Forall₂ (Definition.Moved n) (es.definitionsFrom addr)
      (es'.definitionsFrom (addr + n)) := by
  induction h generalizing addr with
  | nil => exact .nil
  | @cons e e' es es' he _ ih =>
      have hlabels : List.Forall₂ (Definition.Moved n) (e.labelDefinitions addr)
          (e'.labelDefinitions (addr + n)) := by
        unfold Entry.labelDefinitions
        rw [he.label]
        cases e.label with
        | none => exact .nil
        | some name => exact .cons ⟨rfl, rfl, rfl⟩ .nil
      have hfirst : List.Forall₂ (Definition.Moved n) (e.definitions addr)
          (e'.definitions (addr + n)) := by
        unfold Entry.definitions
        rw [he.body]
        cases e.body with
        | constant c => exact .cons ⟨rfl, rfl, rfl⟩ hlabels
        | _ => exact hlabels
      have hrest := ih (addr + e.size)
      rw [Nat.add_right_comm] at hrest
      rw [definitionsFrom_cons, definitionsFrom_cons, he.size_eq]
      exact List.rel_append hfirst hrest

theorem forall₂_commandsFrom (h : List.Forall₂ Entry.Same es es') (addr n : Nat) :
    List.Forall₂ (PlacedCommand.Moved n) (es.commandsFrom addr) (es'.commandsFrom (addr + n)) := by
  induction h generalizing addr with
  | nil => exact .nil
  | @cons e e' es es' he _ ih =>
      have hfirst : List.Forall₂ (PlacedCommand.Moved n) (e.commands addr)
          (e'.commands (addr + n)) := by
        unfold Entry.commands
        rw [he.body]
        cases e.body with
        | command c => exact .cons ⟨rfl, rfl⟩ .nil
        | _ => exact .nil
      have hrest := ih (addr + e.size)
      rw [Nat.add_right_comm] at hrest
      rw [commandsFrom_cons, commandsFrom_cons, he.size_eq]
      exact List.rel_append hfirst hrest

theorem eq_of_mem_definitions (hes : Admitted [] es) {d d' : Definition} (hd : d ∈ es.definitions)
    (hd' : d' ∈ es.definitions) (hname : d.name = d'.name) : d = d' :=
  List.inj_on_of_nodup_map (definable_nil_iff.mp (admitted_iff.mp hes).1).2.1 hd hd' hname

theorem exists_of_mem_commands {c : PlacedCommand} (h : c ∈ es.commands) :
    ∃ e ∈ es, e.body = .command c.command := by
  obtain ⟨⟨addr, e⟩, hmem, hc⟩ := List.mem_flatMap.mp h
  obtain ⟨before, after, rfl, -⟩ := exists_of_mem_locate hmem
  refine ⟨e, by simp, ?_⟩
  unfold Entry.commands at hc
  cases hbody : e.body with
  | command d =>
      rw [hbody, List.mem_singleton] at hc
      rw [hc]
  | blank => simp [hbody] at hc
  | constant d => simp [hbody] at hc

/-- The definitions of an entry are among those of its listing, at the address it has there. -/
theorem exists_definitions_subset {e : Entry} (he : e ∈ es) :
    ∃ addr, e.definitions addr ⊆ es.definitions := by
  obtain ⟨before, after, rfl⟩ := List.append_of_mem he
  refine ⟨size before, ?_⟩
  rw [definitions_append, definitionsFrom_cons]
  intro d hd
  simp [hd]

theorem exists_definition_of_label {e : Entry} {name : Text} (he : e ∈ es)
    (hlabel : e.label = some name) : ∃ d ∈ es.definitions, d.name = name ∧ d.kind = .label := by
  obtain ⟨addr, hsubset⟩ := exists_definitions_subset he
  exact ⟨_, hsubset (Entry.mem_definitions_iff.mpr (Or.inr ⟨name, hlabel, rfl⟩)), rfl, rfl⟩

theorem exists_definition_of_constant {e : Entry} {c : ConstDef} (he : e ∈ es)
    (hbody : e.body = .constant c) : ∃ d ∈ es.definitions, d.name = c.name ∧ d.kind = .const := by
  obtain ⟨addr, hsubset⟩ := exists_definitions_subset he
  exact ⟨_, hsubset (Entry.mem_definitions_iff.mpr (Or.inl ⟨c, hbody, rfl⟩)), rfl, rfl⟩

end Listing

/-! ## Symbols -/

/-- Symbols keep their values where the definitions are moved, but for labels. -/
theorem Program.Represents.value?_moved {p p' : Program} {es es' : Listing} {n : Nat}
    (hp : p.Represents es) (hes : Listing.Admitted [] es) (hp' : p'.Represents es')
    (hes' : Listing.Admitted [] es')
    (hmoved : ∀ d ∈ es.definitions, ∃ d' ∈ es'.definitions, d.Moved n d') {d : Definition}
    (hd : d ∈ es.definitions) {value : UInt8} (hvalue : p.symbols.value? d.name = some value) :
    ∃ value', p'.symbols.value? d.name = some value' ∧
      value'.toNat = value.toNat + if d.kind = .label then n else 0 := by
  obtain ⟨d₁, hd₁, hname, hd₁value⟩ := (hp.value?_eq_some_iff hes).mp hvalue
  cases Listing.eq_of_mem_definitions hes hd₁ hd hname
  obtain ⟨d', hd', hdd'⟩ := hmoved d hd
  have hlt := Listing.value_lt hes' d' hd'
  refine ⟨UInt8.ofNat d'.value, (hp'.value?_eq_some_iff hes').mpr ⟨d', hd', hdd'.name, ?_⟩, ?_⟩
  · exact (UInt8.toNat_ofNat_of_lt' hlt).symm
  · rw [UInt8.toNat_ofNat_of_lt' hlt, hdd'.value, hd₁value]

/-- Where no definition is moved, all commands can stay as they are. -/
theorem Program.Represents.movable_zero {p p' : Program} {es es' : Listing}
    (hp : p.Represents es) (hes : Listing.Admitted [] es) (hp' : p'.Represents es')
    (hes' : Listing.Admitted [] es')
    (hmoved : ∀ d ∈ es.definitions, ∃ d' ∈ es'.definitions, d.Moved 0 d') (c : Command) :
    c.Movable p.symbols p'.symbols 0 := by
  have hkeep : ∀ {name : Text} {value : UInt8}, p.symbols.value? name = some value →
      p'.symbols.value? name = some value := by
    intro name value hvalue
    obtain ⟨d, hd, rfl, -⟩ := (hp.value?_eq_some_iff hes).mp hvalue
    obtain ⟨value', hvalue', hsame⟩ := hp.value?_moved hes hp' hes' hmoved hd hvalue
    rw [ite_self, Nat.add_zero, UInt8.toNat_inj] at hsame
    rwa [hsame] at hvalue'
  exact ⟨fun _ _ _ hvalue => hkeep hvalue, fun _ _ _ dest hdest => ⟨dest, hkeep hdest, rfl⟩⟩

end MightyAsm
