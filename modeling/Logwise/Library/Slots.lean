import Mathlib.Algebra.Ring.Nat
import Mathlib.Data.List.Basic

/-!
# Lists of slots

A list whose entries are replaced one at a time and which grows at the end: what an entry of the
new list was before, and what becomes of an entry of the old one.
-/

namespace Slots

variable {α : Type*} {xs : List α} {i k : ℕ} {x y old : α}

theorem getElem?_set_of_some (h : xs[i]? = some old) : (xs.set i y)[i]? = some y := by
  have hlt : i < xs.length := (List.getElem?_eq_some_iff.mp h).1
  rw [List.getElem?_set_self hlt]

/-- An entry that differs from the replaced one is still there. -/
theorem mem_set_of_ne (h : xs[i]? = some old) (hx : x ∈ xs) (hne : x ≠ old) : x ∈ xs.set i y := by
  obtain ⟨j, hj⟩ := List.mem_iff_getElem?.mp hx
  refine List.mem_iff_getElem?.mpr ⟨j, ?_⟩
  have hij : i ≠ j := by
    rintro rfl
    rw [h] at hj
    exact hne (Option.some.inj hj).symm
  rw [List.getElem?_set_ne hij]
  exact hj

theorem getElem?_set_cases (h : (xs.set i x)[k]? = some y) :
    (k = i ∧ y = x) ∨ (k ≠ i ∧ xs[k]? = some y) := by
  by_cases hk : i = k
  · subst hk
    refine Or.inl ⟨rfl, ?_⟩
    obtain ⟨hlt, he⟩ := List.getElem?_eq_some_iff.mp h
    rw [List.getElem_set_self] at he
    exact he.symm
  · rw [List.getElem?_set_ne hk] at h
    exact Or.inr ⟨Ne.symm hk, h⟩

theorem getElem?_append_cases (h : (xs ++ [x])[k]? = some y) : xs[k]? = some y ∨ y = x := by
  by_cases hk : k < xs.length
  · rw [List.getElem?_append_left hk] at h
    exact Or.inl h
  · have hm := List.mem_of_getElem? (List.getElem?_append_right (Nat.le_of_not_lt hk) ▸ h)
    exact Or.inr (List.mem_singleton.mp hm)

theorem forall_mem_set {p : α → Prop} (h : ∀ x ∈ xs, p x) (hy : p y) : ∀ x ∈ xs.set i y, p x := by
  intro x hx
  obtain hold | rfl := List.mem_or_eq_of_mem_set hx
  · exact h x hold
  · exact hy

theorem forall_mem_concat {p : α → Prop} (h : ∀ x ∈ xs, p x) (hy : p y) :
    ∀ x ∈ xs ++ [y], p x :=
  List.forall_mem_append.mpr ⟨h, List.forall_mem_singleton.mpr hy⟩

/-- Replacing an entry without a property loses none that has it. -/
theorem exists_mem_set {p : α → Prop} (h : xs[i]? = some old) (hold : ¬ p old)
    (hx : ∃ x ∈ xs, p x) : ∃ x ∈ xs.set i y, p x := by
  obtain ⟨x, hm, hp⟩ := hx
  refine ⟨x, mem_set_of_ne h hm ?_, hp⟩
  rintro rfl
  exact hold hp

/-- Replacing an entry changes a count by that entry alone. -/
theorem countP_set_add (p : α → Bool) (h : xs[i]? = some old) :
    (xs.set i y).countP p + (p old).toNat = xs.countP p + (p y).toNat := by
  induction xs generalizing i with
  | nil => cases h
  | cons x xs ih =>
    cases i with
    | zero =>
      obtain rfl : x = old := Option.some.inj h
      cases hx : p x <;> cases hy : p y <;> simp [hx, hy]
    | succ i =>
      have hrest := ih (i := i) h
      cases hx : p x
      · simpa [hx] using hrest
      · simp only [List.set_cons_succ, List.countP_cons, hx, if_true]
        omega

/-- Replacing an entry changes a total by that entry alone. -/
theorem sum_map_set_add (f : α → ℕ) (h : xs[i]? = some old) :
    ((xs.set i y).map f).sum + f old = (xs.map f).sum + f y := by
  induction xs generalizing i with
  | nil => cases h
  | cons x xs ih =>
    cases i with
    | zero =>
      obtain rfl : x = old := Option.some.inj h
      simp only [List.set_cons_zero, List.map_cons, List.sum_cons]
      omega
    | succ i =>
      have hrest := ih (i := i) h
      simp only [List.set_cons_succ, List.map_cons, List.sum_cons]
      omega

/-- A property that is counted once belongs to one entry. -/
theorem eq_of_countP_le_one {p : α → Bool} (h : xs.countP p ≤ 1) (hi : xs[i]? = some x)
    (hx : p x = true) (hk : xs[k]? = some y) (hy : p y = true) : i = k := by
  induction xs generalizing i k with
  | nil => cases hi
  | cons z zs ih =>
    rw [List.countP_cons] at h
    have hnone : p z = true → ∀ w ∈ zs, ¬ p w = true := fun hz =>
      List.countP_eq_zero.mp (by rw [if_pos hz] at h; omega)
    cases i with
    | zero =>
      cases k with
      | zero => rfl
      | succ k =>
        obtain rfl : z = x := Option.some.inj hi
        exact absurd hy (hnone hx y (List.mem_of_getElem? hk))
    | succ i =>
      cases k with
      | zero =>
        obtain rfl : z = y := Option.some.inj hk
        exact absurd hx (hnone hy x (List.mem_of_getElem? hi))
      | succ k => rw [ih (Nat.le_of_add_right_le h) hi hk]

/-- What one entry contributes is exchanged. -/
theorem perm_flatMap_set {β : Type*} (g : α → List β) (h : xs[i]? = some old) (new : α) :
    (g new ++ xs.flatMap g).Perm (g old ++ (xs.set i new).flatMap g) := by
  induction xs generalizing i with
  | nil => cases h
  | cons x xs ih =>
    cases i with
    | zero =>
      obtain rfl := Option.some.inj h
      rw [List.set_cons_zero, List.flatMap_cons, List.flatMap_cons, ← List.append_assoc,
        ← List.append_assoc]
      exact List.perm_append_comm.append_right _
    | succ i =>
      rw [List.set_cons_succ, List.flatMap_cons, List.flatMap_cons, ← List.append_assoc,
        ← List.append_assoc]
      have hswap : (g new ++ g x ++ xs.flatMap g).Perm (g x ++ (g new ++ xs.flatMap g)) := by
        rw [← List.append_assoc]
        exact List.perm_append_comm.append_right _
      have hback : (g x ++ (g old ++ (xs.set i new).flatMap g)).Perm
          (g old ++ g x ++ (xs.set i new).flatMap g) := by
        rw [← List.append_assoc]
        exact List.perm_append_comm.append_right _
      exact hswap.trans (((ih h).append_left _).trans hback)

theorem count_flatMap_set {β : Type*} [BEq β] [LawfulBEq β] (g : α → List β)
    (h : xs[i]? = some old) (new : α) (b : β) :
    (g new).count b + (xs.flatMap g).count b = (g old).count b + ((xs.set i new).flatMap g).count b := by
  have hcount := (perm_flatMap_set g h new).count_eq b
  rwa [List.count_append, List.count_append] at hcount

/-- The first entry that passes a test splits the list. -/
theorem exists_split_of_findIdx? {p : α → Bool} (h : xs.findIdx? p = some i) :
    ∃ before x after, xs = before ++ x :: after ∧ before.length = i ∧ p x = true ∧
      ∀ y ∈ before, p y = false := by
  induction xs generalizing i with
  | nil => cases h
  | cons x xs ih =>
    rw [List.findIdx?_cons] at h
    split at h
    next hx =>
      cases h
      exact ⟨[], x, xs, rfl, rfl, hx, fun _ hm => by cases hm⟩
    next hx =>
      obtain ⟨k, hk, rfl⟩ := Option.map_eq_some_iff.mp h
      obtain ⟨before, y, after, rfl, rfl, hy, hbefore⟩ := ih hk
      refine ⟨x :: before, y, after, rfl, rfl, hy, ?_⟩
      exact List.forall_mem_cons.mpr ⟨(Bool.not_eq_true _).mp hx, hbefore⟩

end Slots
