import Mathlib.Data.Finset.Card
import MightyAsm.Proofs.Steps

/-!
# Runs of insertions

A new table is offered symbols one after the other. It keeps the first symbol of each name,
in the order in which these came, and refuses the others without a change. Both views of a
table, the list of its symbols and the look-up by name, are described from the sequence of
all the symbols that were offered.

* `SymbolTable.offer_cases`: what one insertion can do;
* `SymbolTable.HoldsFirsts.offer`, `SymbolTable.HoldsFirsts.offerAll`: what one insertion
  keeps, and a run of them;
* `SymbolTable.firstWins`: listing, size, look-ups and answers after any run.
-/

namespace MightyAsm

/-! ## First symbols -/

/-- The symbol is in the sequence, and none that stands before it has its name. -/
def Symbol.FirstIn (s : Symbol) (ss : List Symbol) : Prop :=
  ∃ before after, ss = before ++ s :: after ∧ ∀ x ∈ before, x.name ≠ s.name

theorem Symbol.find?_eq_some_iff_firstIn {s : Symbol} {ss : List Symbol} {name : Text} :
    ss.find? (fun x => x.name == name) = some s ↔ s.FirstIn ss ∧ s.name = name := by
  rw [List.find?_eq_some_iff_append, beq_iff_eq, and_comm]
  apply and_congr_left
  rintro rfl
  simp [FirstIn]

namespace SymbolTable

variable {t : SymbolTable} {s : Symbol} {ss done : List Symbol} {name m n : Text}

/-- Both names occur in the sequence, and the first symbol with the one stands before the first
with the other. -/
def FirstBefore (ss : List Symbol) (m n : Text) : Prop :=
  m ∈ ss.map (·.name) ∧ n ∈ ss.map (·.name) ∧
    (ss.map (·.name)).idxOf m < (ss.map (·.name)).idxOf n

theorem FirstBefore.ne (h : FirstBefore ss m n) : m ≠ n := by
  rintro rfl
  exact Nat.lt_irrefl _ h.2.2

theorem FirstBefore.concat (h : FirstBefore ss m n) (s : Symbol) :
    FirstBefore (ss ++ [s]) m n := by
  obtain ⟨hm, hn, hlt⟩ := h
  unfold FirstBefore
  rw [List.map_append, List.idxOf_append_of_mem hm, List.idxOf_append_of_mem hn]
  exact ⟨List.mem_append_left _ hm, List.mem_append_left _ hn, hlt⟩

/-- A name that is new comes after all others. -/
theorem firstBefore_concat (hm : m ∈ ss.map (·.name)) (hs : s.name ∉ ss.map (·.name)) :
    FirstBefore (ss ++ [s]) m s.name := by
  have hlt := List.idxOf_lt_length_of_mem hm
  unfold FirstBefore
  rw [List.map_append, List.idxOf_append_of_mem hm, List.idxOf_append_of_notMem hs]
  refine ⟨List.mem_append_left _ hm, List.mem_append_right _ List.mem_cons_self, ?_⟩
  omega

/-! ## One insertion -/

/-- The table after a symbol was offered: with the symbol, or as it was where the name is
taken. -/
def offer (t : SymbolTable) (s : Symbol) : SymbolTable :=
  match t.insert s with
  | .ok t' => t'
  | .error _ => t

/-- A symbol with a new name becomes the last one; any other is refused, with the symbol that
has the name. -/
theorem offer_cases (t : SymbolTable) (s : Symbol) :
    (t.find? s.name = none ∧ t.insert s = .ok (t.offer s) ∧
        t.offer s = ⟨t.symbols ++ [s]⟩) ∨
      ∃ first, t.find? s.name = some first ∧ t.insert s = .error first ∧ t.offer s = t := by
  cases hinsert : t.insert s with
  | ok t' =>
      obtain ⟨hfree, rfl⟩ := insert_eq_ok_iff.mp hinsert
      exact Or.inl ⟨hfree, by simp [offer, hinsert], by simp [offer, hinsert]⟩
  | error first =>
      have htaken := insert_eq_error_iff.mp hinsert
      exact Or.inr ⟨first, htaken, rfl, by simp [offer, hinsert]⟩

/-! ## Any number of insertions -/

/-- The table after symbols were offered one after the other. -/
def offerAll (t : SymbolTable) (ss : List Symbol) : SymbolTable :=
  ss.foldl offer t

theorem offerAll_concat (t : SymbolTable) (ss : List Symbol) (s : Symbol) :
    t.offerAll (ss ++ [s]) = (t.offerAll ss).offer s := by
  rw [offerAll, List.foldl_append]
  rfl

/-- The table finds what a search of the whole sequence finds, and lists the names in the
order in which they came. -/
structure HoldsFirsts (t : SymbolTable) (ss : List Symbol) : Prop where
  find?_eq : ∀ name, t.find? name = ss.find? (fun s => s.name == name)
  ordered : t.names.Pairwise (FirstBefore ss)

namespace HoldsFirsts

theorem mem_names_iff (h : t.HoldsFirsts ss) : name ∈ t.names ↔ name ∈ ss.map (·.name) := by
  rw [← not_iff_not, ← find?_eq_none_iff, h.find?_eq]
  simp

theorem nodup (h : t.HoldsFirsts ss) : t.names.Nodup :=
  h.ordered.imp FirstBefore.ne

theorem mem_symbols_iff (h : t.HoldsFirsts ss) : s ∈ t.symbols ↔ s.FirstIn ss := by
  have hfind : t.find? s.name = some s ↔ s ∈ t.symbols ∧ s.name = s.name :=
    find?_eq_some_iff h.nodup
  rw [h.find?_eq, Symbol.find?_eq_some_iff_firstIn] at hfind
  simpa using hfind.symm

theorem size_eq (h : t.HoldsFirsts ss) : t.size = (ss.map (·.name)).toFinset.card := by
  have hnames : t.names.toFinset = (ss.map (·.name)).toFinset := by
    ext name
    simp only [List.mem_toFinset]
    exact h.mem_names_iff
  rw [← hnames, List.toFinset_card_of_nodup h.nodup, names, List.length_map, size]

/-- What one insertion keeps. -/
theorem offer (h : t.HoldsFirsts ss) (s : Symbol) : (t.offer s).HoldsFirsts (ss ++ [s]) := by
  have hordered : t.names.Pairwise (FirstBefore (ss ++ [s])) :=
    h.ordered.imp fun hbefore => hbefore.concat s
  rcases t.offer_cases s with ⟨hfree, -, hoffer⟩ | ⟨first, htaken, -, hoffer⟩
  · rw [hoffer]
    have hnew : s.name ∉ ss.map (·.name) := by
      rw [← h.mem_names_iff]
      exact find?_eq_none_iff.mp hfree
    refine ⟨?_, ?_⟩
    · intro name
      rw [List.find?_append, ← h.find?_eq, find?, find?, List.find?_append]
    · rw [names, List.map_append, List.pairwise_append]
      refine ⟨hordered, List.pairwise_singleton _ _, ?_⟩
      intro m hm n hn
      rw [List.map_singleton, List.mem_singleton] at hn
      rw [hn]
      exact firstBefore_concat (h.mem_names_iff.mp hm) hnew
  · rw [hoffer]
    refine ⟨?_, hordered⟩
    intro name
    rw [List.find?_append, ← h.find?_eq]
    -- under its own name the refused symbol is hidden by an earlier one
    by_cases hname : s.name = name
    · rw [← hname, htaken, Option.some_or]
    · simp [hname]

/-- What any number of insertions keeps. -/
theorem offerAll (h : t.HoldsFirsts done) (ss : List Symbol) :
    (t.offerAll ss).HoldsFirsts (done ++ ss) := by
  induction ss generalizing t done with
  | nil =>
      rw [List.append_nil]
      exact h
  | cons s ss ih =>
      have hrest := ih (h.offer s)
      rw [List.append_assoc] at hrest
      exact hrest

end HoldsFirsts

theorem holdsFirsts_empty : empty.HoldsFirsts [] :=
  ⟨fun _ => rfl, List.Pairwise.nil⟩

theorem holdsFirsts_offerAll (ss : List Symbol) : (empty.offerAll ss).HoldsFirsts ss :=
  holdsFirsts_empty.offerAll ss

/-! ## First definitions win -/

/-- How an insertion is answered after other symbols were offered, where `t` is the table at
that time and `t'` the table after it. -/
structure Answered (before : List Symbol) (s : Symbol) (t t' : SymbolTable) : Prop where
  /-- The symbol is taken exactly if its name did not occur earlier. -/
  taken : t.insert s = .ok t' ↔ ∀ x ∈ before, x.name ≠ s.name
  /-- Otherwise the first symbol with the name is returned, and nothing changes: neither the
  listing and its length nor what any name finds. -/
  refused : (∃ x ∈ before, x.name = s.name) → ∃ first, first.FirstIn before ∧
    first.name = s.name ∧ t.insert s = .error first ∧ t' = t

/-- What a new table holds when symbols were offered to it, and how it answered. -/
structure FirstWins (ss : List Symbol) : Prop where
  /-- The first symbol of each name is listed, with its value, kind and line, and no other. -/
  mem_iff : ∀ s, s ∈ (empty.offerAll ss).symbols ↔ s.FirstIn ss
  /-- The symbols are listed in the order in which their names came first. -/
  ordered : (empty.offerAll ss).names.Pairwise (FirstBefore ss)
  /-- No name is listed twice. -/
  nodup : (empty.offerAll ss).names.Nodup
  /-- Every name that was offered is listed. -/
  mem_names_iff : ∀ name, name ∈ (empty.offerAll ss).names ↔ ∃ s ∈ ss, s.name = name
  /-- The size is the number of distinct names. -/
  size_eq : (empty.offerAll ss).size = (ss.map (·.name)).toFinset.card
  /-- A name finds the symbol that is listed with it. -/
  find?_iff : ∀ name s, (empty.offerAll ss).find? name = some s ↔
    s ∈ (empty.offerAll ss).symbols ∧ s.name = name
  /-- The value of a name is that of the symbol it finds. -/
  value?_eq : ∀ name, (empty.offerAll ss).value? name =
    ((empty.offerAll ss).find? name).map (·.value)
  /-- Each insertion of the run is answered by what was offered before it. -/
  answered : ∀ before s after, ss = before ++ s :: after →
    Answered before s (empty.offerAll before) (empty.offerAll (before ++ [s]))

theorem HoldsFirsts.answered (h : t.HoldsFirsts ss) (s : Symbol) :
    Answered ss s t (t.offer s) := by
  rcases t.offer_cases s with ⟨hfree, hinsert, -⟩ | ⟨first, htaken, hinsert, hoffer⟩
  · have hnone : ∀ x ∈ ss, x.name ≠ s.name := by
      intro x hx hname
      have hmem : s.name ∈ t.names := h.mem_names_iff.mpr (List.mem_map.mpr ⟨x, hx, hname⟩)
      exact find?_eq_none_iff.mp hfree hmem
    refine ⟨⟨fun _ => hnone, fun _ => hinsert⟩, ?_⟩
    rintro ⟨x, hx, hname⟩
    exact absurd hname (hnone x hx)
  · rw [h.find?_eq, Symbol.find?_eq_some_iff_firstIn] at htaken
    obtain ⟨hfirst, hname⟩ := htaken
    refine ⟨?_, fun _ => ⟨first, hfirst, hname, hinsert, hoffer⟩⟩
    constructor
    · intro hok
      rw [hinsert] at hok
      cases hok
    · intro hnone
      obtain ⟨before, after, rfl, -⟩ := hfirst
      exact absurd hname (hnone first (by simp))

/-- The first definition of a name wins, over every run of insertions into a new table. -/
theorem firstWins (ss : List Symbol) : FirstWins ss := by
  have h := holdsFirsts_offerAll ss
  refine ⟨fun s => h.mem_symbols_iff, h.ordered, h.nodup, ?_, h.size_eq,
    fun name s => find?_eq_some_iff h.nodup, fun name => rfl, ?_⟩
  · intro name
    rw [h.mem_names_iff, List.mem_map]
  · intro before s after _
    rw [offerAll_concat]
    exact (holdsFirsts_offerAll before).answered s

example :
    (empty.offerAll [⟨"z".toList, 0, .label, 1⟩, ⟨"a".toList, 3, .label, 2⟩,
      ⟨"z".toList, 0x10, .const, 3⟩, ⟨"Z".toList, 3, .label, 4⟩]).symbols =
      [⟨"z".toList, 0, .label, 1⟩, ⟨"a".toList, 3, .label, 2⟩, ⟨"Z".toList, 3, .label, 4⟩] := by
  decide

end SymbolTable

end MightyAsm
