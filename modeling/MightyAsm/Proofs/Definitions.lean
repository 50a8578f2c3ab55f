import Mathlib.Data.List.Induction
import MightyAsm.Proofs.Listing

/-!
# Definitions of a listing

Reading checks each definition, and each use of an address, at its line. Said of the whole
listing, that means conditions on the list of its definitions, and one on what stands before
each use.

* `Listing.definable_nil_iff`: when all definitions of a listing can be made;
* `Listing.admitted_iff`: what reading checks line by line, as conditions on the whole;
* `Program.Represents.value?_eq_some_iff`: symbols have the values of the definitions.
-/

namespace MightyAsm

/-! ## Admitted listings -/

namespace Listing

theorem definable_nil_iff {ds : List Definition} :
    Definable [] ds ↔ (∀ d ∈ ds, isSymbolName d.name = true) ∧ (ds.map (·.name)).Nodup ∧
      ∀ d ∈ ds, d.kind = .label → d.value < 256 := by
  induction ds using List.reverseRecOn with
  | nil => simp [Definable]
  | append_singleton ds d ih =>
      rw [definable_append, ih, List.map_append, List.map_singleton,
        List.perm_append_comm.nodup_iff, List.singleton_append, List.nodup_cons]
      simp only [Definable, List.nil_append, List.forall_mem_append, List.forall_mem_singleton]
      tauto

theorem admitted_concat {before es : Listing} {e : Entry} :
    Admitted before (es ++ [e]) ↔ Admitted before es ∧ (before ++ es).Admits e := by
  induction es generalizing before with
  | nil => simp [Admitted]
  | cons a es ih => simp [Admitted, ih, and_assoc]

/-- Every symbol whose value is needed at once is among those defined up to its line. -/
def Known (es : Listing) : Prop :=
  ∀ before e after, es = before ++ e :: after →
    ∀ name ∈ e.addressSymbol?, name ∈ (definitions (before ++ [e])).map (·.name)

theorem known_concat {es : Listing} {e : Entry} :
    Known (es ++ [e]) ↔ Known es ∧
      ∀ name ∈ e.addressSymbol?, name ∈ (definitions (es ++ [e])).map (·.name) := by
  constructor
  · intro h
    refine ⟨?_, h es e [] rfl⟩
    rintro before e' after rfl
    exact h before e' (after ++ [e]) (by simp)
  · rintro ⟨hes, he⟩ before e' after heq
    rcases List.eq_nil_or_concat after with rfl | ⟨after, last, rfl⟩
    · obtain ⟨rfl, hlast⟩ := List.append_inj' heq rfl
      cases hlast
      exact he
    · have hsplit : es ++ [e] = (before ++ e' :: after) ++ [last] := by simpa using heq
      obtain ⟨hinit, -⟩ := List.append_inj' hsplit rfl
      exact hes before e' after hinit

/-- What reading checks line by line, said of the whole listing. -/
theorem admitted_iff {es : Listing} :
    Admitted [] es ↔ Definable [] es.definitions ∧ es.Known := by
  induction es using List.reverseRecOn with
  | nil => simp [Admitted, Definable, Known]
  | append_singleton es e ih =>
      rw [admitted_concat, ih, known_concat, definitions_concat, definable_append, List.nil_append,
        Admits, List.nil_append, definitions_concat]
      tauto

end Listing

/-! ## Values of symbols -/

theorem Entry.value_lt_of_const {addr : Nat} {e : Entry} {d : Definition}
    (h : d ∈ e.definitions addr) (hkind : d.kind = .const) : d.value < 256 := by
  have hlabel : d ∉ e.labelDefinitions addr := by
    intro hmem
    unfold Entry.labelDefinitions at hmem
    cases hl : e.label with
    | none => simp [hl] at hmem
    | some name =>
        rw [hl, List.mem_singleton] at hmem
        rw [hmem] at hkind
        cases hkind
  unfold Entry.definitions at h
  cases hbody : e.body with
  | constant c =>
      rw [hbody] at h
      rcases List.mem_cons.mp h with rfl | h
      · exact c.value.toNat_lt
      · exact absurd h hlabel
  | blank => rw [hbody] at h; exact absurd h hlabel
  | command c => rw [hbody] at h; exact absurd h hlabel

theorem Listing.value_lt {es : Listing} (h : Admitted [] es) :
    ∀ d ∈ es.definitions, d.value < 256 := by
  intro d hd
  cases hkind : d.kind with
  | label => exact (definable_nil_iff.mp (admitted_iff.mp h).1).2.2 d hd hkind
  | const =>
      obtain ⟨x, -, hx⟩ := List.mem_flatMap.mp hd
      exact Entry.value_lt_of_const hx hkind

theorem Program.Represents.nodup_names {p : Program} {es : Listing} (hp : p.Represents es)
    (hes : Listing.Admitted [] es) : p.symbols.names.Nodup := by
  rw [hp.names_eq]
  exact (Listing.definable_nil_iff.mp (Listing.admitted_iff.mp hes).1).2.1

/-- The table of a program finds the definitions of its listing. -/
theorem Program.Represents.value?_eq_some_iff {p : Program} {es : Listing}
    (hp : p.Represents es) (hes : Listing.Admitted [] es) {name : Text} {value : UInt8} :
    p.symbols.value? name = some value ↔
      ∃ d ∈ es.definitions, d.name = name ∧ d.value = value.toNat := by
  have hnodup := hp.nodup_names hes
  simp only [SymbolTable.value?, Option.map_eq_some_iff, SymbolTable.find?_eq_some_iff hnodup,
    hp.symbols_eq, List.mem_map]
  constructor
  · rintro ⟨_, ⟨⟨d, hd, rfl⟩, hname⟩, rfl⟩
    refine ⟨d, hd, hname, ?_⟩
    exact (UInt8.toNat_ofNat_of_lt' (Listing.value_lt hes d hd)).symm
  · rintro ⟨d, hd, hname, hvalue⟩
    refine ⟨d.symbol, ⟨⟨d, hd, rfl⟩, hname⟩, ?_⟩
    rw [Definition.symbol, hvalue, UInt8.ofNat_toNat]

end MightyAsm
