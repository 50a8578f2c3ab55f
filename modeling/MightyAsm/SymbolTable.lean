import MightyAsm.Text.Basic

/-!
# Symbol tables

Labels and constants share one namespace. A symbol table lists the symbols of a program in
the order of their definitions; a name that is defined keeps its first definition.

* `SymbolTable.insert_eq_ok_iff`: a symbol is taken exactly if its name is free, and then it
  becomes the last one;
* `SymbolTable.insert_eq_error_iff`: otherwise the symbol that has the name is returned.
-/

namespace MightyAsm

/-- What a symbol stands for: an address or a constant. -/
inductive SymbolKind where
  | label
  | const
deriving DecidableEq, Repr, Inhabited

/-- The name of a kind of symbol. -/
def SymbolKind.name : SymbolKind → String
  | .label => "label"
  | .const => "const"

/-- A defined symbol: its name, its value, its kind and the line that defines it. -/
structure Symbol where
  name : Text
  value : UInt8
  kind : SymbolKind
  line : Nat
deriving DecidableEq, Repr, Inhabited

/-- The symbols of a program, in the order of their definitions. -/
structure SymbolTable where
  symbols : List Symbol := []
deriving DecidableEq, Repr, Inhabited

namespace SymbolTable

/-- The table without symbols. -/
def empty : SymbolTable :=
  ⟨[]⟩

/-- The number of symbols. -/
def size (t : SymbolTable) : Nat :=
  t.symbols.length

/-- Whether a table has no symbols. -/
def isEmpty (t : SymbolTable) : Bool :=
  t.symbols.isEmpty

/-- The symbol with a name. -/
def find? (t : SymbolTable) (name : Text) : Option Symbol :=
  t.symbols.find? fun s => s.name == name

/-- The value of the symbol with a name. -/
def value? (t : SymbolTable) (name : Text) : Option UInt8 :=
  (t.find? name).map (·.value)

/-- The table with one symbol more, or the symbol that has its name already. -/
def insert (t : SymbolTable) (s : Symbol) : Except Symbol SymbolTable :=
  match t.find? s.name with
  | some first => .error first
  | none => .ok ⟨t.symbols ++ [s]⟩

theorem insert_eq_ok_iff {t t' : SymbolTable} {s : Symbol} :
    t.insert s = .ok t' ↔ t.find? s.name = none ∧ t' = ⟨t.symbols ++ [s]⟩ := by
  unfold insert
  split
  · rename_i h
    simp [h]
  · rename_i h
    simp [h, eq_comm]

theorem insert_eq_error_iff {t : SymbolTable} {s first : Symbol} :
    t.insert s = .error first ↔ t.find? s.name = some first := by
  unfold insert
  split
  · rename_i h
    simp [h]
  · rename_i h
    simp [h]

end SymbolTable

end MightyAsm
