import Mathlib.Data.List.Nodup
import Mathlib.Order.Nat

/-!
# Bounded logs that overwrite their oldest entry

What is to be said of a log that is filled at the back, emptied at once by a reader, and may give
up its oldest entry to make room: the entries in the order they entered, how many of them are no
longer held, and the positions of those that were overwritten. What the reader has been given and
what is held agree with the log when together they are the entries that were not overwritten.
-/

/-- The entries of a list but for those at the given positions. -/
def Backlog.without {α : Type*} (lost : List ℕ) (xs : List α) : List α :=
  (xs.zipIdx.filter fun entry => entry.2 ∉ lost).map Prod.fst

structure Backlog (α : Type*) where
  entered : List α := []
  front : ℕ := 0
  overwritten : List ℕ := []
  drainedTo : ℕ := 0

namespace Backlog

variable {α : Type*} {b : Backlog α} {x : α} {xs ys rest : List α} {lost : List ℕ}

theorem without_append (h : ∀ p ∈ lost, p < xs.length) :
    without lost (xs ++ ys) = without lost xs ++ ys := by
  have hkeep : ((ys.zipIdx xs.length).filter fun entry => entry.2 ∉ lost) = ys.zipIdx xs.length := by
    refine List.filter_eq_self.mpr fun entry hm => decide_eq_true fun hlost => ?_
    have hge := List.le_snd_of_mem_zipIdx hm
    have hlt := h _ hlost
    omega
  rw [without, List.zipIdx_append, List.filter_append, List.map_append, Nat.zero_add, hkeep,
    List.zipIdx_map_fst]
  rfl

theorem without_concat (lost : List ℕ) (xs : List α) (x : α) :
    without (lost ++ [xs.length]) (xs ++ [x]) = without lost xs := by
  have hlast : (([x].zipIdx xs.length).filter fun entry => entry.2 ∉ lost ++ [xs.length]) = [] := by
    simp
  rw [without, List.zipIdx_append, List.filter_append, Nat.zero_add, hlast, List.append_nil, without]
  refine congrArg (List.map Prod.fst) (List.filter_congr fun entry hm => ?_)
  have hlt : entry.2 < xs.length := by simpa using List.snd_lt_of_mem_zipIdx hm
  have hne : entry.2 ≠ xs.length := hlt.ne
  simp [hne]

/-- What is held: the entries that entered last. -/
def held (b : Backlog α) : List α := b.entered.drop b.front

/-- The entries that were neither overwritten nor are held. -/
def gone (b : Backlog α) : List α := without b.overwritten (b.entered.take b.front)

/-- The entries that were not overwritten. -/
def survivors (b : Backlog α) : List α := without b.overwritten b.entered

def enter (x : α) (b : Backlog α) : Backlog α := { b with entered := b.entered ++ [x] }

/-- The oldest entry that is held is given up. -/
def overwrite (b : Backlog α) : Backlog α :=
  { b with front := b.front + 1, overwritten := b.overwritten ++ [b.front] }

def drain (b : Backlog α) : Backlog α :=
  { b with front := b.entered.length, drainedTo := b.entered.length }

/-- The reader was given the batches of `drained`, and `kept` is what is held. -/
structure Agrees (b : Backlog α) (drained : List (List α)) (kept : List α) : Prop where
  front_le : b.front ≤ b.entered.length
  before : ∀ p ∈ b.overwritten, p < b.front
  nodup : b.overwritten.Nodup
  counted : b.gone.length + b.overwritten.length = b.front
  drained_eq : drained.flatten = b.gone
  kept_eq : kept = b.held

variable {drained : List (List α)} {kept : List α}

theorem agrees_empty : Agrees ({} : Backlog α) [] [] where
  front_le := Nat.zero_le _
  before p hp := by cases hp
  nodup := List.nodup_nil
  counted := rfl
  drained_eq := rfl
  kept_eq := rfl

theorem Agrees.gone_append_held (h : Agrees b drained kept) : b.gone ++ b.held = b.survivors := by
  have hbefore : ∀ p ∈ b.overwritten, p < (b.entered.take b.front).length := by
    intro p hp
    rw [List.length_take, Nat.min_eq_left h.front_le]
    exact h.before p hp
  rw [gone, held, ← without_append hbefore, List.take_append_drop]
  rfl

theorem Agrees.enter (h : Agrees b drained kept) (x : α) :
    Agrees (b.enter x) drained (kept ++ [x]) := by
  have hgone : (b.enter x).gone = b.gone := by
    rw [gone, Backlog.enter, List.take_append_of_le_length h.front_le]
    rfl
  refine ⟨?_, h.before, h.nodup, ?_, ?_, ?_⟩
  · rw [Backlog.enter, List.length_append]
    exact h.front_le.trans (Nat.le_add_right _ _)
  · rw [hgone]
    exact h.counted
  · rw [hgone]
    exact h.drained_eq
  · rw [h.kept_eq, held, held, Backlog.enter, List.drop_append_of_le_length h.front_le]

/-- The oldest entry held is the first that is neither overwritten nor drained. -/
theorem Agrees.oldest (h : Agrees b drained (x :: rest)) :
    b.entered[b.front]? = some x ∧ b.entered.drop (b.front + 1) = rest := by
  have hheld : b.entered.drop b.front = x :: rest := h.kept_eq.symm
  constructor
  · rw [← List.head?_drop, hheld]
    rfl
  · rw [← List.drop_drop, hheld]
    rfl

theorem Agrees.overwrite (h : Agrees b drained (x :: rest)) : Agrees b.overwrite drained rest := by
  obtain ⟨holdest, hrest⟩ := h.oldest
  have hlt : b.front < b.entered.length := (List.getElem?_eq_some_iff.mp holdest).1
  have hgone : b.overwrite.gone = b.gone := by
    have hlength : (b.entered.take b.front).length = b.front := by
      rw [List.length_take, Nat.min_eq_left h.front_le]
    rw [gone, Backlog.overwrite, List.take_add_one, holdest]
    have hconcat := without_concat b.overwritten (b.entered.take b.front) x
    rw [hlength] at hconcat
    exact hconcat
  refine ⟨hlt, ?_, ?_, ?_, ?_, hrest.symm⟩
  · intro p hp
    obtain hold | hnew := List.mem_append.mp hp
    · exact (h.before p hold).trans (Nat.lt_succ_self _)
    · rw [List.mem_singleton.mp hnew]
      exact Nat.lt_succ_self _
  · refine List.nodup_append.mpr ⟨h.nodup, List.nodup_singleton _, ?_⟩
    intro p hp q hq
    rw [List.mem_singleton.mp hq]
    exact (h.before p hp).ne
  · rw [hgone, Backlog.overwrite, List.length_append, ← Nat.add_assoc, h.counted]
    rfl
  · rw [hgone]
    exact h.drained_eq

theorem Agrees.drain (h : Agrees b drained kept) : Agrees b.drain (drained ++ [kept]) [] := by
  have hgone : b.drain.gone = b.gone ++ b.held := by
    rw [h.gone_append_held, gone, Backlog.drain, List.take_length]
    rfl
  refine ⟨le_rfl, fun p hp => (h.before p hp).trans_le h.front_le, h.nodup, ?_, ?_, ?_⟩
  · have hcounted := h.counted
    have hle := h.front_le
    rw [hgone, List.length_append, held, List.length_drop, Backlog.drain]
    dsimp only
    omega
  · rw [hgone, List.flatten_append, h.drained_eq, h.kept_eq]
    simp
  · exact (List.drop_length).symm

/-- What was drained, followed by what is held, is what was not overwritten. -/
theorem Agrees.log (h : Agrees b drained kept) : drained.flatten ++ kept = b.survivors := by
  rw [h.drained_eq, h.kept_eq, h.gone_append_held]

/-- Every entry is drained, held or overwritten. -/
theorem Agrees.length (h : Agrees b drained kept) :
    b.entered.length = drained.flatten.length + kept.length + b.overwritten.length := by
  have hcounted := h.counted
  have hle := h.front_le
  rw [h.drained_eq, h.kept_eq, held, List.length_drop]
  omega

end Backlog
