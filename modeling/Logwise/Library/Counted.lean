import Logwise.Library.Slots
import Mathlib.Data.List.Count
import Mathlib.Data.List.Perm.Basic
import Mathlib.Logic.Relation

/-!
# Reference counted allocations

Allocations that own a reference to a parent, if any, and are freed when the last reference to them
is given up. `refs` are the references that are not owned by an allocation. As long as the counts
account for them, exactly the allocations some reference leads to are live.
-/

namespace Counted

variable {α : Type*}

structure Node (α : Type*) where
  strong : ℕ
  parent : Option ℕ
  value : α

abbrev Heap (α : Type*) := List (Node α)

namespace Node

def retain (node : Node α) : Node α := { node with strong := node.strong + 1 }

def release (node : Node α) : Node α := { node with strong := node.strong - 1 }

/-- The node is live and owns a reference to `a`. -/
def holds (a : ℕ) (node : Node α) : Bool := decide (0 < node.strong) && node.parent == some a

end Node

namespace Heap

def alloc (heap : Heap α) (parent : Option ℕ) (value : α) : Heap α :=
  heap ++ [{ strong := 1, parent := parent, value := value }]

def retain (heap : Heap α) (a : ℕ) : Heap α := heap.modify a Node.retain

def release (heap : Heap α) (a : ℕ) : Heap α := heap.modify a Node.release

/-- The reference that is given up with the last one to `a`. -/
def freed (heap : Heap α) (a : ℕ) : Option ℕ :=
  heap[a]?.bind fun node => if node.strong = 1 then node.parent else none

def update (heap : Heap α) (a : ℕ) (f : α → α) : Heap α :=
  heap.modify a fun node => { node with value := f node.value }

def Live (heap : Heap α) (a : ℕ) : Prop := ∃ node, heap[a]? = some node ∧ 0 < node.strong

def value? (heap : Heap α) (a : ℕ) : Option α := heap[a]?.map Node.value

def parent? (heap : Heap α) (a : ℕ) : Option ℕ := heap[a]?.bind Node.parent

/-- `b` owns a reference to `a`, or did. -/
def Owns (heap : Heap α) (b a : ℕ) : Prop := heap.parent? b = some a

/-- The reference `r` keeps `a` alive. -/
def Leads (heap : Heap α) (r a : ℕ) : Prop := Relation.ReflTransGen heap.Owns r a

end Heap

/-- The counts account for all references. An allocation is younger than its parent. -/
structure Accounted (heap : Heap α) (refs : List ℕ) : Prop where
  strong : ∀ a (node : Node α), heap[a]? = some node →
    node.strong = refs.count a + heap.countP (Node.holds a)
  refs : ∀ a ∈ refs, a < heap.length
  parents : ∀ a (node : Node α) parent, heap[a]? = some node → node.parent = some parent → parent < a

variable {heap : Heap α} {refs refs' : List ℕ} {a b : ℕ} {node : Node α}

namespace Accounted

theorem nil : Accounted ([] : Heap α) [] where
  strong := fun _ _ h => by cases h
  refs := fun _ h => by cases h
  parents := fun _ _ _ h => by cases h

/-- It does not matter who has a reference. -/
theorem congr (h : Accounted heap refs) (hcount : ∀ b, refs'.count b = refs.count b) :
    Accounted heap refs' where
  strong := fun a node ha => by rw [h.strong a node ha, hcount]
  refs := fun a ha => h.refs a (List.count_pos_iff.mp (hcount a ▸ List.count_pos_iff.mpr ha))
  parents := h.parents

theorem live_of_mem (h : Accounted heap refs) (ha : a ∈ refs) : heap.Live a := by
  have hlt := h.refs a ha
  refine ⟨heap[a], List.getElem?_eq_getElem hlt, ?_⟩
  have hcount := h.strong a _ (List.getElem?_eq_getElem hlt)
  have hpos := List.count_pos_iff.mpr ha
  omega

theorem live_of_owns (h : Accounted heap refs) (hb : heap.Live b) (howns : heap.Owns b a)
    (ha : a < heap.length) : heap.Live a := by
  obtain ⟨node, hnode, hstrong⟩ := hb
  obtain ⟨_, hnode', hparent⟩ := Option.bind_eq_some_iff.mp howns
  cases hnode.symm.trans hnode'
  refine ⟨heap[a], List.getElem?_eq_getElem ha, ?_⟩
  have hcount := h.strong a _ (List.getElem?_eq_getElem ha)
  have hholds : 0 < heap.countP (Node.holds a) :=
    List.countP_pos_iff.mpr ⟨node, List.mem_of_getElem? hnode, by simp [Node.holds, hstrong, hparent]⟩
  omega

theorem lt_of_owns (h : Accounted heap refs) (howns : heap.Owns b a) : a < b ∧ b < heap.length := by
  obtain ⟨node, hnode, hparent⟩ := Option.bind_eq_some_iff.mp howns
  exact ⟨h.parents b node a hnode hparent, (List.getElem?_eq_some_iff.mp hnode).1⟩

theorem live_of_leads (h : Accounted heap refs) (hb : heap.Live b) (hleads : heap.Leads b a) :
    heap.Live a := by
  induction hleads with
  | refl => exact hb
  | tail _ howns ih =>
    obtain ⟨hlt, hlength⟩ := h.lt_of_owns howns
    exact h.live_of_owns ih howns (Nat.lt_trans hlt hlength)

/-- **What is live**: the allocations some reference leads to, and no others. -/
theorem live_iff (h : Accounted heap refs) : heap.Live a ↔ ∃ r ∈ refs, heap.Leads r a := by
  constructor
  · intro hlive
    -- a live allocation no reference points to is owned by a younger one
    induction hn : heap.length - a using Nat.strong_induction_on generalizing a with
    | _ n ih =>
      obtain ⟨node, hnode, hstrong⟩ := hlive
      by_cases ha : a ∈ refs
      · exact ⟨a, ha, Relation.ReflTransGen.refl⟩
      · have hcount := h.strong a node hnode
        rw [List.count_eq_zero_of_not_mem ha] at hcount
        have hpos : 0 < heap.countP (Node.holds a) := by omega
        obtain ⟨owner, hmem, hholds⟩ := List.countP_pos_iff.mp hpos
        obtain ⟨b, hb⟩ := List.mem_iff_getElem?.mp hmem
        obtain ⟨howner, hparent⟩ := (Bool.and_eq_true _ _).mp hholds
        have howns : heap.Owns b a := Option.bind_eq_some_iff.mpr ⟨owner, hb, eq_of_beq hparent⟩
        obtain ⟨hlt, hlength⟩ := h.lt_of_owns howns
        obtain ⟨r, hr, hleads⟩ := ih (heap.length - b) (by omega)
          ⟨owner, hb, of_decide_eq_true howner⟩ rfl
        exact ⟨r, hr, hleads.tail howns⟩
  · rintro ⟨r, hr, hleads⟩
    exact h.live_of_leads (h.live_of_mem hr) hleads

end Accounted

/-! ## The operations -/

namespace Heap

variable {f : α → α}

@[simp] theorem value?_retain : (heap.retain a).value? b = heap.value? b := by
  simp only [value?, retain, List.getElem?_modify]
  by_cases hb : a = b <;> cases heap[b]? <;> simp [hb, Node.retain]

@[simp] theorem value?_release : (heap.release a).value? b = heap.value? b := by
  simp only [value?, release, List.getElem?_modify]
  by_cases hb : a = b <;> cases heap[b]? <;> simp [hb, Node.release]

theorem value?_update :
    (heap.update a f).value? b = if a = b then (heap.value? b).map f else heap.value? b := by
  simp only [value?, update, List.getElem?_modify]
  by_cases hb : a = b <;> cases heap[b]? <;> simp [hb]

@[simp] theorem parent?_retain : (heap.retain a).parent? b = heap.parent? b := by
  simp only [parent?, retain, List.getElem?_modify]
  by_cases hb : a = b <;> cases heap[b]? <;> simp [hb, Node.retain]

@[simp] theorem parent?_release : (heap.release a).parent? b = heap.parent? b := by
  simp only [parent?, release, List.getElem?_modify]
  by_cases hb : a = b <;> cases heap[b]? <;> simp [hb, Node.release]

@[simp] theorem parent?_update : (heap.update a f).parent? b = heap.parent? b := by
  simp only [parent?, update, List.getElem?_modify]
  by_cases hb : a = b <;> cases heap[b]? <;> simp [hb]

@[simp] theorem length_retain : (heap.retain a).length = heap.length := List.length_modify ..

@[simp] theorem length_release : (heap.release a).length = heap.length := List.length_modify ..

@[simp] theorem length_update : (heap.update a f).length = heap.length := List.length_modify ..

theorem live_update : (heap.update a f).Live b ↔ heap.Live b := by
  simp only [Live, update, List.getElem?_modify]
  by_cases hb : a = b <;> cases heap[b]? <;> simp [hb]

theorem live_retain (ha : heap.Live a) : (heap.retain a).Live b ↔ heap.Live b := by
  simp only [Live, retain, List.getElem?_modify]
  by_cases hb : a = b
  · subst hb
    obtain ⟨node, hnode, hstrong⟩ := ha
    simp [hnode, Node.retain, hstrong]
  · cases heap[b]? <;> simp [hb]

/-- The last reference to `a` is the one that is given up. -/
def Last (heap : Heap α) (a : ℕ) : Prop := ∃ node, heap[a]? = some node ∧ node.strong = 1

theorem live_release : (heap.release a).Live b ↔ heap.Live b ∧ ¬ (a = b ∧ heap.Last a) := by
  simp only [Live, release, List.getElem?_modify, Last]
  by_cases hb : a = b
  · subst hb
    cases heap[a]? with
    | none => simp
    | some node =>
      simp only [Node.release, if_pos, Option.map_eq_map, Option.map_some, Option.some.injEq,
        exists_eq_left', true_and]
      omega
  · cases heap[b]? <;> simp [hb]

theorem getElem?_alloc_of_ne {parent : Option ℕ} {value : α} (hb : b ≠ heap.length) :
    (heap.alloc parent value)[b]? = heap[b]? := by
  rw [alloc]
  obtain hlt | hgt := Nat.lt_or_gt_of_ne hb
  · exact List.getElem?_append_left hlt
  · rw [List.getElem?_eq_none (by simp; omega), List.getElem?_eq_none (Nat.le_of_lt hgt)]

theorem value?_alloc_of_ne {parent : Option ℕ} {value : α} (hb : b ≠ heap.length) :
    (heap.alloc parent value).value? b = heap.value? b := by
  rw [value?, getElem?_alloc_of_ne hb, value?]

theorem parent?_alloc_of_ne {parent : Option ℕ} {value : α} (hb : b ≠ heap.length) :
    (heap.alloc parent value).parent? b = heap.parent? b := by
  rw [parent?, getElem?_alloc_of_ne hb, parent?]

@[simp] theorem value?_alloc_length {parent : Option ℕ} {value : α} :
    (heap.alloc parent value).value? heap.length = some value := by
  simp [value?, alloc]

theorem live_alloc {parent : Option ℕ} {value : α} :
    (heap.alloc parent value).Live b ↔ heap.Live b ∨ b = heap.length := by
  by_cases hb : b = heap.length
  · subst hb
    simp [Live, alloc]
  · rw [Live, getElem?_alloc_of_ne hb, or_iff_left hb, Live]

end Heap

theorem modify_eq_set (ha : heap[a]? = some node) (f : Node α → Node α) :
    heap.modify a f = heap.set a (f node) := by
  refine List.ext_getElem? fun i => ?_
  rw [List.getElem?_modify, List.getElem?_set]
  by_cases hi : a = i
  · subst hi
    rw [ha, if_pos rfl, if_pos (List.getElem?_eq_some_iff.mp ha).1]
    simp
  · simp [hi]

/-- How the owners of `b` change with one allocation. -/
theorem countP_holds_set (ha : heap[a]? = some node) (new : Node α) (b : ℕ) :
    (heap.set a new).countP (Node.holds b) + (if node.holds b then 1 else 0) =
      heap.countP (Node.holds b) + if new.holds b then 1 else 0 := by
  obtain ⟨hlt, rfl⟩ := List.getElem?_eq_some_iff.mp ha
  rw [List.countP_set hlt]
  have hpos : heap[a].holds b = true → 0 < heap.countP (Node.holds b) := fun hholds =>
    List.countP_pos_iff.mpr ⟨_, List.getElem_mem hlt, hholds⟩
  by_cases hholds : heap[a].holds b = true
  · have := hpos hholds
    simp only [hholds, if_true]
    omega
  · simp [hholds]

theorem getElem?_alloc {parent : Option ℕ} {value : α}
    (h : (heap.alloc parent value)[b]? = some node) : heap[b]? = some node ∨
      b = heap.length ∧ node = { strong := 1, parent := parent, value := value } := by
  rw [Heap.alloc, List.getElem?_append] at h
  split at h
  · exact Or.inl h
  next hlt =>
    obtain ⟨hlast, hnew⟩ := List.getElem?_eq_some_iff.mp h
    rw [List.length_singleton] at hlast
    refine Or.inr ⟨by omega, hnew.symm.trans ?_⟩
    simp

theorem countP_holds_alloc (heap : Heap α) (parent : Option ℕ) (value : α) (b : ℕ) :
    (heap.alloc parent value).countP (Node.holds b) =
      heap.countP (Node.holds b) + parent.toList.count b := by
  rw [Heap.alloc, List.countP_append]
  congr 1
  cases parent with
  | none => rfl
  | some p => simp [Node.holds, List.countP_cons, List.count_cons]

namespace Accounted

/-- Nothing owns a reference to what is not there. -/
theorem countP_holds_eq_zero (h : Accounted heap refs) (hb : heap.length ≤ b) :
    heap.countP (Node.holds b) = 0 := by
  rw [List.countP_eq_zero]
  intro node hmem hholds
  obtain ⟨i, hi⟩ := List.mem_iff_getElem?.mp hmem
  have hparent : node.parent = some b := eq_of_beq ((Bool.and_eq_true _ _).mp hholds).2
  have hlt := h.parents i node b hi hparent
  have hlength := (List.getElem?_eq_some_iff.mp hi).1
  omega

/-- A new allocation takes over the reference to its parent. -/
theorem alloc {parent : Option ℕ} (h : Accounted heap (parent.toList ++ refs)) (value : α) :
    Accounted (heap.alloc parent value) (heap.length :: refs) where
  strong := fun b node hb => by
    rw [countP_holds_alloc, List.count_cons]
    obtain hold | ⟨rfl, rfl⟩ := getElem?_alloc hb
    · have hne : heap.length ≠ b := Nat.ne_of_gt (List.getElem?_eq_some_iff.mp hold).1
      rw [h.strong b node hold, List.count_append]
      simp [hne]
      omega
    · have hrefs : (parent.toList ++ refs).count heap.length = 0 :=
        List.count_eq_zero_of_not_mem fun hmem => Nat.lt_irrefl _ (h.refs _ hmem)
      rw [List.count_append] at hrefs
      rw [h.countP_holds_eq_zero (Nat.le_refl _)]
      simp
      omega
  refs := fun b hb => by
    rw [Heap.alloc, List.length_append]
    obtain rfl | hb := List.mem_cons.mp hb
    · exact Nat.lt_succ_self _
    · exact Nat.lt_succ_of_lt (h.refs b (List.mem_append_right _ hb))
  parents := fun b node p hb hp => by
    obtain hold | ⟨rfl, rfl⟩ := getElem?_alloc hb
    · exact h.parents b node p hold hp
    · obtain rfl : parent = some p := hp
      exact h.refs p (List.mem_append_left _ (List.mem_singleton_self p))

/-- Another reference. -/
theorem retain (h : Accounted heap refs) (ha : a ∈ refs) :
    Accounted (heap.retain a) (a :: refs) := by
  obtain ⟨node, hnode, hstrong⟩ := h.live_of_mem ha
  have hset : heap.retain a = heap.set a node.retain := modify_eq_set hnode Node.retain
  have hholds : ∀ b, node.retain.holds b = node.holds b := fun b => by
    simp [Node.holds, Node.retain, hstrong]
  have hcount : ∀ b, (heap.set a node.retain).countP (Node.holds b) =
      heap.countP (Node.holds b) := fun b => by
    have hnew := countP_holds_set hnode node.retain b
    rw [hholds] at hnew
    omega
  rw [hset]
  refine ⟨fun b new hb => ?_, fun b hb => ?_, fun b new p hb hp => ?_⟩
  · rw [hcount, List.count_cons]
    obtain ⟨rfl, rfl⟩ | ⟨hne, hold⟩ := Slots.getElem?_set_cases hb
    · have hstrong := h.strong b node hnode
      simp only [Node.retain, beq_self_eq_true, if_true]
      omega
    · simp [h.strong b new hold, hne.symm]
  · rw [List.length_set]
    obtain rfl | hb := List.mem_cons.mp hb
    · exact h.refs b ha
    · exact h.refs b hb
  · obtain ⟨rfl, rfl⟩ | ⟨-, hold⟩ := Slots.getElem?_set_cases hb
    · exact h.parents b node p hnode hp
    · exact h.parents b new p hold hp

/-- One reference less; with the last one the allocation gives up its own. -/
theorem release (h : Accounted heap (a :: refs)) :
    Accounted (heap.release a) ((heap.freed a).toList ++ refs) := by
  obtain ⟨node, hnode, hstrong⟩ := h.live_of_mem (List.mem_cons_self ..)
  have hset : heap.release a = heap.set a node.release := modify_eq_set hnode Node.release
  -- what the allocation owned is in the list instead
  have hcount : ∀ b, (heap.set a node.release).countP (Node.holds b) +
      (heap.freed a).toList.count b = heap.countP (Node.holds b) := fun b => by
    have hnew := countP_holds_set hnode node.release b
    rw [Heap.freed, hnode, Option.bind_some]
    by_cases hlast : node.strong = 1
    · rw [if_pos hlast]
      have hgone : node.release.holds b = false := by simp [Node.holds, Node.release, hlast]
      rw [hgone] at hnew
      cases hparent : node.parent with
      | none =>
        have hnone : node.holds b = false := by simp [Node.holds, hparent]
        simp [hnone] at hnew
        simp [hnew]
      | some p =>
        by_cases hp : p = b
        · have hheld : node.holds b = true := by simp [Node.holds, hparent, hp, hstrong]
          simp [hheld] at hnew
          simp [hp, hnew]
        · have hfree : node.holds b = false := by simp [Node.holds, hparent, hp]
          simp [hfree] at hnew
          simp [hp, hnew]
    · have hkept : node.release.holds b = node.holds b := by
        have hpos : 0 < node.strong - 1 := by omega
        simp [Node.holds, Node.release, hstrong, hpos]
      rw [hkept] at hnew
      simp [hlast]
      omega
  rw [hset]
  refine ⟨fun b new hb => ?_, fun b hb => ?_, fun b new p hb hp => ?_⟩
  · have hcount := hcount b
    rw [List.count_append]
    obtain ⟨rfl, rfl⟩ | ⟨hne, hold⟩ := Slots.getElem?_set_cases hb
    · have hstrong := h.strong b node hnode
      rw [List.count_cons_self] at hstrong
      show node.strong - 1 = _
      omega
    · have hstrong := h.strong b new hold
      rw [List.count_cons_of_ne hne.symm] at hstrong
      omega
  · rw [List.length_set]
    obtain hfreed | hb := List.mem_append.mp hb
    · obtain ⟨_, hnode', hparent⟩ := Option.bind_eq_some_iff.mp (Option.mem_toList.mp hfreed)
      cases hnode.symm.trans hnode'
      split at hparent
      · exact Nat.lt_trans (h.parents a node b hnode hparent) (h.refs a (List.mem_cons_self ..))
      · cases hparent
    · exact h.refs b (List.mem_cons_of_mem _ hb)
  · obtain ⟨rfl, rfl⟩ | ⟨-, hold⟩ := Slots.getElem?_set_cases hb
    · exact h.parents b node p hnode hp
    · exact h.parents b new p hold hp

/-- What an allocation carries is not counted. -/
theorem update (h : Accounted heap refs) (a : ℕ) (f : α → α) :
    Accounted (heap.update a f) refs := by
  have hcount : ∀ b, (heap.update a f).countP (Node.holds b) = heap.countP (Node.holds b) := by
    intro b
    rw [Heap.update]
    cases hnode : heap[a]? with
    | none => rw [List.modify_eq_self (List.getElem?_eq_none_iff.mp hnode)]
    | some node =>
      have hnew := countP_holds_set hnode { node with value := f node.value } b
      have hholds : Node.holds b { node with value := f node.value } = node.holds b := rfl
      rw [modify_eq_set hnode]
      rw [hholds] at hnew
      omega
  have hold : ∀ (b : ℕ) (new : Node α), (heap.update a f)[b]? = some new →
      ∃ node : Node α, heap[b]? = some node ∧ new.strong = node.strong ∧ new.parent = node.parent := by
    intro b new hb
    rw [Heap.update, List.getElem?_modify] at hb
    obtain ⟨node, hnode, rfl⟩ := Option.map_eq_some_iff.mp hb
    refine ⟨node, hnode, ?_, ?_⟩
    · split <;> rfl
    · split <;> rfl
  refine ⟨fun b new hb => ?_, fun b hb => ?_, fun b new p hb hp => ?_⟩
  · obtain ⟨node, hnode, hstrong, -⟩ := hold b new hb
    rw [hcount, hstrong, h.strong b node hnode]
  · rw [Heap.length_update]
    exact h.refs b hb
  · obtain ⟨node, hnode, -, hparent⟩ := hold b new hb
    exact h.parents b node p hnode (hparent ▸ hp)

end Accounted

end Counted
