import Mathlib.Data.List.Perm.Basic

/-!
# Items that are opened once and closed once

A log of events, some of which open something and some of which close it, next to the items whose
owner has yet to close what they stand for. `Settled` says that what was closed and what the items
stand for is what was opened, no more and no less. An item may stand for nothing.
-/

namespace Ledger

variable {ε γ κ : Type*}

/-- An item, and whether its owner has let it go. -/
structure Owned (γ : Type*) where
  item : γ
  dropped : Bool
  deriving DecidableEq

/-- The item at place `k`, while its owner has it. -/
def Owned.live (items : List (Owned γ)) (k : ℕ) : Option γ :=
  items[k]?.bind fun owned => if owned.dropped then none else some owned.item

theorem Owned.get_of_live {items : List (Owned γ)} {k : ℕ} {item : γ}
    (h : Owned.live items k = some item) : items[k]? = some ⟨item, false⟩ := by
  obtain ⟨⟨found, dropped⟩, hget, hlive⟩ := Option.bind_eq_some_iff.mp h
  cases dropped with
  | true => cases hlive
  | false =>
    cases hlive
    exact hget

/-- What the item still has to close. -/
def Owned.due (key : γ → Option κ) (owned : Owned γ) : Option κ :=
  if owned.dropped then none else key owned.item

def Settled (opened closed : ε → Option κ) (key : γ → Option κ) (log : List ε)
    (items : List (Owned γ)) : Prop :=
  (log.filterMap closed ++ items.filterMap (Owned.due key)).Perm (log.filterMap opened)

variable {opened closed : ε → Option κ} {key : γ → Option κ} {log : List ε} {e : ε}
  {items : List (Owned γ)} {item : γ} {k : ℕ}

theorem settled_nil : Settled opened closed key [] ([] : List (Owned γ)) := List.Perm.refl _

theorem filterMap_concat_none {f : ε → Option κ} (h : f e = none) :
    (log ++ [e]).filterMap f = log.filterMap f := by
  simp [List.filterMap_append, h]

/-- An event that neither opens nor closes. -/
theorem Settled.other (h : Settled opened closed key log items) (hopened : opened e = none)
    (hclosed : closed e = none) : Settled opened closed key (log ++ [e]) items := by
  rw [Settled, filterMap_concat_none hopened, filterMap_concat_none hclosed]
  exact h

/-- A new item for what was just opened. -/
theorem Settled.opening (h : Settled opened closed key log items) (hopened : opened e = key item)
    (hclosed : closed e = none) :
    Settled opened closed key (log ++ [e]) (items ++ [⟨item, false⟩]) := by
  have hnew : [e].filterMap opened = [(⟨item, false⟩ : Owned γ)].filterMap (Owned.due key) := by
    simp only [List.filterMap_cons, List.filterMap_nil, hopened]
    rfl
  rw [Settled, filterMap_concat_none hclosed, List.filterMap_append, List.filterMap_append, hnew,
    ← List.append_assoc]
  exact List.Perm.append_right _ h

/-- A new item that stands for nothing. -/
theorem Settled.idle (h : Settled opened closed key log items) (hkey : key item = none) :
    Settled opened closed key log (items ++ [⟨item, false⟩]) := by
  have hnew : [(⟨item, false⟩ : Owned γ)].filterMap (Owned.due key) = [] := by
    have hdue : Owned.due key ⟨item, false⟩ = none := hkey
    rw [List.filterMap_cons_none hdue, List.filterMap_nil]
  rw [Settled, List.filterMap_append, hnew, List.append_nil]
  exact h

/-- What letting an item go takes out of what is due. -/
theorem filterMap_due_set (key : γ → Option κ) (hk : items[k]? = some ⟨item, false⟩) :
    (items.filterMap (Owned.due key)).Perm
      ((key item).toList ++ (items.set k ⟨item, true⟩).filterMap (Owned.due key)) := by
  induction items generalizing k with
  | nil => cases hk
  | cons head items ih =>
    cases k with
    | zero =>
      obtain rfl := Option.some.inj hk
      have hnone : Owned.due key ⟨item, true⟩ = none := rfl
      rw [List.set_cons_zero, List.filterMap_cons_none hnone]
      cases hkey : key item with
      | none =>
        have hdue : Owned.due key ⟨item, false⟩ = none := hkey
        rw [List.filterMap_cons_none hdue]
        exact List.Perm.refl _
      | some value =>
        have hdue : Owned.due key ⟨item, false⟩ = some value := hkey
        rw [List.filterMap_cons_some hdue]
        exact List.Perm.refl _
    | succ k =>
      have hrest := ih (k := k) hk
      rw [List.set_cons_succ]
      cases hdue : Owned.due key head with
      | none =>
        rw [List.filterMap_cons_none hdue, List.filterMap_cons_none hdue]
        exact hrest
      | some value =>
        rw [List.filterMap_cons_some hdue, List.filterMap_cons_some hdue]
        exact (hrest.cons value).trans List.perm_middle.symm

/-- The item goes, and what it stands for is closed. -/
theorem Settled.closing (h : Settled opened closed key log items)
    (hk : items[k]? = some ⟨item, false⟩) (hopened : opened e = none)
    (hclosed : closed e = key item) :
    Settled opened closed key (log ++ [e]) (items.set k ⟨item, true⟩) := by
  have hnew : [e].filterMap closed = (key item).toList := by
    cases hkey : key item with
    | none => rw [List.filterMap_cons_none (hclosed.trans hkey)]; rfl
    | some value => rw [List.filterMap_cons_some (hclosed.trans hkey)]; rfl
  rw [Settled, filterMap_concat_none hopened, List.filterMap_append, hnew, List.append_assoc]
  exact ((filterMap_due_set key hk).append_left _).symm.trans h

/-- An item that stands for nothing goes. -/
theorem Settled.forgetting (h : Settled opened closed key log items)
    (hk : items[k]? = some ⟨item, false⟩) (hkey : key item = none) :
    Settled opened closed key log (items.set k ⟨item, true⟩) := by
  have hdue := filterMap_due_set key hk
  rw [hkey] at hdue
  exact (hdue.append_left _).symm.trans h

/-- While an item has something to close, something was opened. -/
theorem Settled.log_ne_nil (h : Settled opened closed key log items)
    (hk : items[k]? = some ⟨item, false⟩) (hkey : key item ≠ none) : log ≠ [] := by
  rintro rfl
  have hnil : items.filterMap (Owned.due key) = [] := List.Perm.eq_nil h
  obtain ⟨value, hvalue⟩ := Option.ne_none_iff_exists'.mp hkey
  have hmem : value ∈ items.filterMap (Owned.due key) :=
    List.mem_filterMap.mpr ⟨_, List.mem_of_getElem? hk, hvalue⟩
  rw [hnil] at hmem
  cases hmem

end Ledger
