import MightyAsm.Proofs.Moving

/-!
# Rearranged listings

Reading checks each entry against the definitions before it. The checks only ask which names
are defined by then and where the labels stand, so they come out the same for a listing with
other line numbers, and often for one with its entries in another order or further entries
before them.

* `Listing.KnownAfter`: what is asked of the symbols of addresses, for any names known before;
* `Listing.Rearranged`: the same commands and the same definitions, the latter in some order;
* `Listing.admitted_of_same`: line numbers do not decide whether a listing is read;
* `Listing.admitted_append_iff`: when one listing can follow another;
* `Program.Represents.meaning?_eq_of_rearranged`, `Program.Represents.rom_of_rearranged`:
  rearranging keeps what the symbols stand for, and the image.
-/

namespace MightyAsm

/-! ## Names -/

/-- The names that an entry defines. -/
def Entry.names (e : Entry) : List Text := (e.definitions 0).map (·.name)

theorem Entry.map_name_definitions (e : Entry) (addr : Nat) :
    (e.definitions addr).map (·.name) = e.names := by
  unfold Entry.names Entry.definitions Entry.labelDefinitions
  cases e.body <;> cases e.label <;> rfl

theorem Entry.Same.names_eq {e e' : Entry} (h : e.Same e') : e'.names = e.names := by
  unfold Entry.names Entry.definitions Entry.labelDefinitions
  rw [h.body, h.label]
  cases e.body <;> cases e.label <;> rfl

theorem Entry.Same.addressSymbol?_eq {e e' : Entry} (h : e.Same e') :
    e'.addressSymbol? = e.addressSymbol? := by
  rw [Entry.addressSymbol?, h.body, Entry.addressSymbol?]

namespace Listing

def names (es : Listing) : List Text := es.flatMap Entry.names

theorem names_append (es es' : Listing) : names (es ++ es') = names es ++ names es' :=
  List.flatMap_append

theorem map_name_definitionsFrom (es : Listing) (addr : Nat) :
    (definitionsFrom addr es).map (·.name) = names es := by
  induction es generalizing addr with
  | nil => rfl
  | cons e es ih =>
      rw [definitionsFrom_cons, List.map_append, e.map_name_definitions, ih]
      rfl

theorem map_name_definitions (es : Listing) : (definitions es).map (·.name) = names es :=
  map_name_definitionsFrom es 0

/-- After some names, each entry only needs a symbol that is known by then. -/
def KnownAfter (known : List Text) : Listing → Prop
  | [] => True
  | e :: es => (∀ name ∈ e.addressSymbol?, name ∈ known ++ e.names) ∧
      KnownAfter (known ++ e.names) es

theorem knownAfter_append {known : List Text} {es es' : Listing} :
    KnownAfter known (es ++ es') ↔ KnownAfter known es ∧ KnownAfter (known ++ names es) es' := by
  induction es generalizing known with
  | nil => simp [KnownAfter, names]
  | cons e es ih => simp [KnownAfter, ih, names, and_assoc]

theorem known_iff_knownAfter {es : Listing} : Known es ↔ KnownAfter [] es := by
  induction es using List.reverseRecOn with
  | nil => simp [Known, KnownAfter]
  | append_singleton es e ih =>
      rw [known_concat, knownAfter_append, ih, map_name_definitions]
      simp [KnownAfter, names]

/-- Further names do no harm. -/
theorem KnownAfter.mono {known known' : List Text} {es : Listing} (h : KnownAfter known es)
    (hsub : known ⊆ known') : KnownAfter known' es := by
  induction es generalizing known known' with
  | nil => trivial
  | cons e es ih =>
      have hsub' : known ++ e.names ⊆ known' ++ e.names :=
        List.append_subset.mpr ⟨fun _ hx => List.mem_append_left _ (hsub hx),
          List.subset_append_right known' e.names⟩
      exact ⟨fun name hname => hsub' (h.1 name hname), ih h.2 hsub'⟩

theorem KnownAfter.of_same {known : List Text} {es es' : Listing}
    (hsame : List.Forall₂ Entry.Same es es') (h : KnownAfter known es) : KnownAfter known es' := by
  induction hsame generalizing known with
  | nil => trivial
  | cons he _ ih =>
      rw [KnownAfter, he.names_eq, he.addressSymbol?_eq]
      exact ⟨h.1, ih h.2⟩

/-! ## Rearranged listings -/

/-- The same commands at the same addresses, and the same definitions in some order. -/
structure Rearranged (es es' : Listing) : Prop where
  commands : List.Forall₂ (PlacedCommand.Moved 0) es.commands es'.commands
  definitions : ∃ ds, es.definitions.Perm ds ∧
    List.Forall₂ (Definition.Moved 0) ds es'.definitions

variable {es es' : Listing}

theorem Rearranged.exists_definition (h : Rearranged es es') :
    ∀ d ∈ es.definitions, ∃ d' ∈ es'.definitions, d.Moved 0 d' := by
  obtain ⟨ds, hperm, hmoved⟩ := h.definitions
  intro d hd
  exact exists_mem_right_of_forall₂ hmoved (hperm.mem_iff.mp hd)

theorem Rearranged.exists_definition_left (h : Rearranged es es') :
    ∀ d' ∈ es'.definitions, ∃ d ∈ es.definitions, d.Moved 0 d' := by
  obtain ⟨ds, hperm, hmoved⟩ := h.definitions
  intro d' hd'
  obtain ⟨d, hd, hdd'⟩ := exists_mem_of_forall₂ hmoved hd'
  exact ⟨d, hperm.mem_iff.mpr hd, hdd'⟩

/-- Whether definitions can be made does not depend on their order. -/
theorem Rearranged.definable (h : Rearranged es es') (hes : Definable [] es.definitions) :
    Definable [] es'.definitions := by
  obtain ⟨hnamed, hnodup, hmemory⟩ := definable_nil_iff.mp hes
  refine definable_nil_iff.mpr ⟨?_, ?_, ?_⟩
  · intro d' hd'
    obtain ⟨d, hd, hmoved⟩ := h.exists_definition_left d' hd'
    rw [hmoved.name]
    exact hnamed d hd
  · obtain ⟨ds, hperm, hmoved⟩ := h.definitions
    have hnames : ds.map (·.name) = es'.definitions.map (·.name) :=
      map_eq_map_iff_forall₂.mpr (hmoved.imp fun _ _ hdd' => hdd'.name.symm)
    rw [← hnames]
    exact (hperm.map _).nodup_iff.mp hnodup
  · intro d' hd' hkind
    obtain ⟨d, hd, hmoved⟩ := h.exists_definition_left d' hd'
    rw [hmoved.kind] at hkind
    rw [hmoved.value_eq]
    exact hmemory d hd hkind

theorem forall₂_same_self (es : Listing) : List.Forall₂ Entry.Same es es :=
  List.forall₂_same.mpr fun _ _ => ⟨rfl, rfl⟩

theorem rearranged_of_same (h : List.Forall₂ Entry.Same es es') : Rearranged es es' :=
  ⟨forall₂_commandsFrom h 0 0, _, List.Perm.refl _, forall₂_definitionsFrom h 0 0⟩

theorem admitted_of_same (h : List.Forall₂ Entry.Same es es') (hes : Admitted [] es) :
    Admitted [] es' := by
  obtain ⟨hdefinable, hknown⟩ := admitted_iff.mp hes
  refine admitted_iff.mpr ⟨(rearranged_of_same h).definable hdefinable, ?_⟩
  rw [known_iff_knownAfter] at hknown ⊢
  exact hknown.of_same h

/-- One listing can follow another if they share no names and no label gets too far. -/
theorem admitted_append_iff (hes : Admitted [] es) (hes' : Admitted [] es') :
    Admitted [] (es ++ es') ↔ (names es).Disjoint (names es') ∧
      ∀ d ∈ es'.definitions, d.kind = .label → es.size + d.value < 256 := by
  obtain ⟨hdefinable, hknown⟩ := admitted_iff.mp hes
  obtain ⟨hdefinable', hknown'⟩ := admitted_iff.mp hes'
  obtain ⟨hnamed, hnodup, hmemory⟩ := definable_nil_iff.mp hdefinable
  obtain ⟨hnamed', hnodup', -⟩ := definable_nil_iff.mp hdefinable'
  rw [map_name_definitions] at hnodup hnodup'
  rw [known_iff_knownAfter] at hknown hknown'
  have hboth : Known (es ++ es') := known_iff_knownAfter.mpr
    (knownAfter_append.mpr ⟨hknown, hknown'.mono (List.nil_subset _)⟩)
  have hmoved := forall₂_definitionsFrom (forall₂_same_self es') 0 es.size
  rw [Nat.zero_add] at hmoved
  rw [admitted_iff, and_iff_left hboth, definable_nil_iff, map_name_definitions, names_append,
    List.nodup_append', definitions_append]
  constructor
  · rintro ⟨-, ⟨-, -, hdisjoint⟩, hlabels⟩
    refine ⟨hdisjoint, ?_⟩
    intro d hd hkind
    obtain ⟨d', hd', hdd'⟩ := exists_mem_right_of_forall₂ hmoved hd
    have hlt := hlabels d' (List.mem_append_right _ hd') (hdd'.kind.trans hkind)
    rw [hdd'.value, if_pos hkind] at hlt
    omega
  · rintro ⟨hdisjoint, hlabels⟩
    refine ⟨?_, ⟨hnodup, hnodup', hdisjoint⟩, ?_⟩
    · refine List.forall_mem_append.mpr ⟨hnamed, ?_⟩
      intro d' hd'
      obtain ⟨d, hd, hdd'⟩ := exists_mem_of_forall₂ hmoved hd'
      rw [hdd'.name]
      exact hnamed' d hd
    · refine List.forall_mem_append.mpr ⟨hmemory, ?_⟩
      intro d' hd' hkind
      obtain ⟨d, hd, hdd'⟩ := exists_mem_of_forall₂ hmoved hd'
      rw [hdd'.kind] at hkind
      have hlt := hlabels d hd hkind
      rw [hdd'.value, if_pos hkind]
      omega

end Listing

/-! ## Programs -/

/-- The value and the kind of the symbol with a name. -/
def SymbolTable.meaning? (t : SymbolTable) (name : Text) : Option (UInt8 × SymbolKind) :=
  (t.find? name).map fun s => (s.value, s.kind)

namespace Program

variable {p p' : Program} {es es' : Listing}

theorem Represents.meaning?_eq_some_iff (hp : p.Represents es) (hes : Listing.Admitted [] es)
    {name : Text} {value : UInt8} {kind : SymbolKind} :
    p.symbols.meaning? name = some (value, kind) ↔
      ∃ d ∈ es.definitions, d.name = name ∧ d.value = value.toNat ∧ d.kind = kind := by
  have hnodup := hp.nodup_names hes
  rw [SymbolTable.meaning?, Option.map_eq_some_iff, ← hp.map_definition hes]
  simp only [SymbolTable.find?_eq_some_iff hnodup, List.mem_map, exists_exists_and_eq_and,
    Prod.mk.injEq, Symbol.definition, UInt8.toNat_inj, and_assoc]

theorem Represents.meaning?_eq_of_rearranged (hp : p.Represents es) (hes : Listing.Admitted [] es)
    (hp' : p'.Represents es') (hes' : Listing.Admitted [] es') (h : es.Rearranged es')
    (name : Text) : p'.symbols.meaning? name = p.symbols.meaning? name := by
  apply Option.ext
  rintro ⟨value, kind⟩
  rw [hp.meaning?_eq_some_iff hes, hp'.meaning?_eq_some_iff hes']
  constructor
  · rintro ⟨d', hd', rfl, hvalue, rfl⟩
    obtain ⟨d, hd, hmoved⟩ := h.exists_definition_left d' hd'
    exact ⟨d, hd, hmoved.name.symm, hmoved.value_eq.symm.trans hvalue, hmoved.kind.symm⟩
  · rintro ⟨d, hd, rfl, hvalue, rfl⟩
    obtain ⟨d', hd', hmoved⟩ := h.exists_definition d hd
    exact ⟨d', hd', hmoved.name, hmoved.value_eq.trans hvalue, hmoved.kind⟩

/-- Rearranged programs have the same image. -/
theorem Represents.rom_of_rearranged (hp : p.Represents es) (hes : Listing.Admitted [] es)
    (hp' : p'.Represents es') (hes' : Listing.Admitted [] es') (h : es.Rearranged es')
    (hstep : InStep 0 p.stmts.toList) (hstep' : InStep 0 p'.stmts.toList) {rom : Array UInt8}
    (hrom : p.rom = .ok rom) : p'.rom = .ok rom := by
  obtain ⟨chunks, hchunks, hflat⟩ := (Program.rom_eq_ok_iff hstep).mp hrom
  have hmovable := hp.movable_zero hes hp' hes' h.exists_definition
  refine (Program.rom_eq_ok_iff hstep').mpr ⟨chunks, ?_, hflat⟩
  exact forall₂_bytes_moved h.commands hp.stmts hp'.stmts (fun c _ => hmovable c.command) hchunks

variable {src : Text}

/-- A source that is read has a listing with the same entries as any that its words say. -/
theorem exists_listing_of_said
    (hsaid : List.Forall₂ LineWords.Says ((src.splitOn '\n').map Text.lineWords) es)
    (h : ofSource src = .ok p) :
    ∃ es', List.Forall₂ Entry.Same es es' ∧ Listing.Admitted [] es' ∧ p.Represents es' := by
  obtain ⟨es', hreads, hes', hrep⟩ := exists_listing_of_lines h
  have hsaid' := forall₂_says_of_reads hreads
  rw [map_words_allLines] at hsaid'
  exact ⟨es', forall₂_same_of_said hsaid hsaid', hes', hrep⟩

/-- A source is read exactly if the listing that its words say is admitted. -/
theorem exists_ofSource_iff_admitted
    (hsaid : List.Forall₂ LineWords.Says ((src.splitOn '\n').map Text.lineWords) es) :
    (∃ p, ofSource src = .ok p) ↔ Listing.Admitted [] es := by
  rw [← map_words_allLines] at hsaid
  constructor
  · rintro ⟨p, hp⟩
    obtain ⟨es', hreads, hes', -⟩ := exists_listing_of_lines hp
    exact Listing.admitted_of_same (forall₂_same_of_said (forall₂_says_of_reads hreads) hsaid) hes'
  · intro hes
    obtain ⟨es', hreads, hsame⟩ := exists_reads_of_said hsaid
    obtain ⟨p, hp, -⟩ := exists_ofSource_of_lines hreads (Listing.admitted_of_same hsame hes)
    exact ⟨p, hp⟩

end Program

end MightyAsm
