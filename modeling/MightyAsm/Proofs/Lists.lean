import Mathlib.Data.List.Forall2
import Mathlib.Data.List.Nodup

/-!
# Lists related item by item

Lines and entries, entries and statements, statements and bytes correspond to each other
item by item. These are the facts about such lists that are used for all of them, and one
about lists in which things are looked up: the symbols by their names and the instructions
by their opcode bytes.
-/

namespace MightyAsm

theorem forall₂_singleton_left {α β : Type} {R : α → β → Prop} {x : α} {ys : List β} :
    List.Forall₂ R [x] ys ↔ ∃ y, R x y ∧ ys = [y] := by
  simp [List.forall₂_cons_left_iff]

theorem forall₂_singleton_right {α β : Type} {R : α → β → Prop} {y : β} {xs : List α} :
    List.Forall₂ R xs [y] ↔ ∃ x, xs = [x] ∧ R x y := by
  simp [List.forall₂_cons_right_iff, and_comm]

theorem forall₂_pair_left {α β : Type} {R : α → β → Prop} {x x' : α} {ys : List β} :
    List.Forall₂ R [x, x'] ys ↔ ∃ y y', R x y ∧ R x' y' ∧ ys = [y, y'] := by
  simp [List.forall₂_cons_left_iff]

theorem forall₂_append_left {α β : Type} {R : α → β → Prop} {xs ys : List α} {zs : List β}
    (h : List.Forall₂ R (xs ++ ys) zs) :
    ∃ us vs, zs = us ++ vs ∧ List.Forall₂ R xs us ∧ List.Forall₂ R ys vs := by
  induction xs generalizing zs with
  | nil => exact ⟨[], zs, rfl, List.Forall₂.nil, h⟩
  | cons x xs ih =>
      cases h with
      | cons hx hrest =>
          obtain ⟨us, vs, rfl, hus, hvs⟩ := ih hrest
          exact ⟨_ :: us, vs, rfl, List.Forall₂.cons hx hus, hvs⟩

theorem map_eq_map_iff_forall₂ {α β γ : Type} {f : α → γ} {g : β → γ} {xs : List α}
    {ys : List β} : xs.map f = ys.map g ↔ List.Forall₂ (fun x y => f x = g y) xs ys := by
  rw [← List.forall₂_eq_eq_eq, List.forall₂_map_left_iff, List.forall₂_map_right_iff]

theorem forall₂_imp_mem {α β : Type} {R S : α → β → Prop} {xs : List α} {ys : List β}
    (h : List.Forall₂ R xs ys) (himp : ∀ x ∈ xs, ∀ y ∈ ys, R x y → S x y) :
    List.Forall₂ S xs ys := by
  obtain ⟨hlength, hzip⟩ := List.forall₂_iff_zip.mp h
  refine List.forall₂_iff_zip.mpr ⟨hlength, ?_⟩
  intro x y hmem
  obtain ⟨hx, hy⟩ := List.of_mem_zip hmem
  exact himp x hx y hy (hzip hmem)

theorem exists_mem_of_forall₂ {α β : Type} {R : α → β → Prop} {xs : List α} {ys : List β}
    (h : List.Forall₂ R xs ys) {y : β} (hy : y ∈ ys) : ∃ x ∈ xs, R x y := by
  induction h with
  | nil => cases hy
  | @cons x y' xs ys hx _ ih =>
      rcases List.mem_cons.mp hy with rfl | hy
      · exact ⟨x, List.mem_cons_self, hx⟩
      · obtain ⟨x', hx', hxy⟩ := ih hy
        exact ⟨x', List.mem_cons_of_mem x hx', hxy⟩

theorem exists_mem_right_of_forall₂ {α β : Type} {R : α → β → Prop} {xs : List α} {ys : List β}
    (h : List.Forall₂ R xs ys) {x : α} (hx : x ∈ xs) : ∃ y ∈ ys, R x y := by
  have hflip : List.Forall₂ (flip R) ys xs := List.Forall₂.flip h
  exact exists_mem_of_forall₂ hflip hx

theorem forall₂_trans {α β γ : Type} {P : α → β → Prop} {Q : β → γ → Prop} {R : α → γ → Prop}
    {xs : List α} {ys : List β} {zs : List γ} (hxy : List.Forall₂ P xs ys)
    (hyz : List.Forall₂ Q ys zs) (h : ∀ x y z, P x y → Q y z → R x z) :
    List.Forall₂ R xs zs := by
  induction hxy generalizing zs with
  | nil =>
      cases hyz
      exact List.Forall₂.nil
  | cons hx _ ih =>
      cases hyz with
      | cons hz hzs => exact List.Forall₂.cons (h _ _ _ hx hz) (ih hzs)

theorem forall₂_congr_left {α β γ : Type} {D : α → β → Prop} {Q : α → γ → Prop}
    {R : β → γ → Prop} {xs : List α} {ys : List β} (h : List.Forall₂ D xs ys)
    (hiff : ∀ x ∈ xs, ∀ y z, D x y → (R y z ↔ Q x z)) (zs : List γ) :
    List.Forall₂ R ys zs ↔ List.Forall₂ Q xs zs := by
  induction h generalizing zs with
  | nil => simp
  | @cons x y xs ys hxy hrest ih =>
      have htail := ih fun x' hx' => hiff x' (List.mem_cons_of_mem x hx')
      simp only [List.forall₂_cons_left_iff, htail, hiff x List.mem_cons_self y _ hxy]

theorem exists_forall₂_iff {α β : Type} {R : α → β → Prop} {xs : List α} :
    (∃ ys, List.Forall₂ R xs ys) ↔ ∀ x ∈ xs, ∃ y, R x y := by
  induction xs with
  | nil => simp
  | cons x xs ih =>
      rw [List.forall_mem_cons, ← ih]
      simp only [List.forall₂_cons_left_iff]
      constructor
      · rintro ⟨_, y, ys, hy, hys, rfl⟩
        exact ⟨⟨y, hy⟩, ys, hys⟩
      · rintro ⟨⟨y, hy⟩, ys, hys⟩
        exact ⟨_, y, ys, hy, hys, rfl⟩

theorem forall₂_zipIdx {α β : Type} {R : α → β → Prop} {xs : List α} {ys : List β}
    (h : List.Forall₂ R xs ys) (n : Nat) :
    List.Forall₂ (fun x y => R x.1 y.1 ∧ y.2 = x.2) (xs.zipIdx n) (ys.zipIdx n) := by
  induction h generalizing n with
  | nil => exact .nil
  | cons hx _ ih => exact .cons ⟨hx, rfl⟩ (ih (n + 1))

/-- In a list without duplicate keys a key finds the one item that has it. -/
theorem find?_key_eq_some_iff {α β : Type} [BEq β] [LawfulBEq β] {key : α → β} {xs : List α}
    (hnodup : (xs.map key).Nodup) {k : β} {x : α} :
    xs.find? (fun y => key y == k) = some x ↔ x ∈ xs ∧ key x = k := by
  have hfound : ∀ {y}, xs.find? (fun y => key y == k) = some y → y ∈ xs ∧ key y = k :=
    fun h => ⟨List.mem_of_find?_eq_some h, by simpa using List.find?_some h⟩
  constructor
  · exact hfound
  · rintro ⟨hmem, rfl⟩
    have hsome : (xs.find? fun y => key y == key x).isSome :=
      List.find?_isSome.mpr ⟨x, hmem, beq_self_eq_true (key x)⟩
    obtain ⟨y, hy⟩ := Option.isSome_iff_exists.mp hsome
    rw [hy, List.inj_on_of_nodup_map hnodup (hfound hy).1 hmem (hfound hy).2]

end MightyAsm
