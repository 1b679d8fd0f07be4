import Logwise.Runtime.Lineage
import Logwise.Library.Transition

/-!
# Ancestry

In a runtime whose contexts were all created under parents it returned itself, `is_descendant` ends
and answers whether one context is an ancestor of the other. Links play no part in it.
-/

namespace Logwise

/-- The parent recorded for a context, if it is known and has one. -/
def parentOf (contexts : Contexts) (token : ContextToken) : Option ContextToken :=
  (contexts.lookup token.id).bind ContextSnapshot.parent

/-- `ancestor` is the context or reached from it by following recorded parents. -/
def Ancestor (contexts : Contexts) (token ancestor : ContextToken) : Prop :=
  Relation.ReflTransGen (fun child parent => parentOf contexts child = some parent) token ancestor

theorem parentOf_eq_some {contexts : Contexts} {token parent : ContextToken} :
    parentOf contexts token = some parent ↔
      ∃ snapshot, contexts.lookup token.id = some snapshot ∧ snapshot.parent = some parent :=
  Option.bind_eq_some_iff

theorem lineageStep_eq {contexts : Contexts} {ancestor candidate : ContextToken} :
    lineageStep contexts ancestor candidate =
      if candidate.isNone then .inl false
      else if candidate = ancestor then .inl true
      else (parentOf contexts candidate).elim (.inl false) .inr := by
  unfold lineageStep parentOf
  cases contexts.lookup candidate.id with
  | none => rfl
  | some snapshot =>
    dsimp only
    rw [Option.bind_some]
    cases snapshot.parent <;> rfl

theorem acyclic_iff {contexts : Contexts} : Acyclic contexts ↔
    ∀ token parent, parentOf contexts token = some parent → parent.id < token.id := by
  constructor
  · intro h token parent hparent
    obtain ⟨snapshot, hlookup, hfound⟩ := parentOf_eq_some.mp hparent
    exact h token.id snapshot parent hlookup hfound
  · intro h id snapshot parent hlookup hfound
    exact h ⟨id, 0⟩ parent (parentOf_eq_some.mpr ⟨snapshot, hlookup, hfound⟩)

theorem parentOf_cons (contexts : Contexts) (id : UInt64) (snapshot : ContextSnapshot)
    (token : ContextToken) : parentOf ((id, snapshot) :: contexts) token =
      if token.id = id then snapshot.parent else parentOf contexts token := by
  rw [parentOf, List.lookup_cons]
  by_cases hid : token.id = id
  · rw [if_pos hid, beq_iff_eq.mpr hid]
    rfl
  · rw [if_neg hid, beq_eq_false_iff_ne.mpr hid]
    rfl

/-- Above a context other than the ancestor, the way goes on from its parent. -/
theorem ancestor_iff_of_ne {contexts : Contexts} {token ancestor : ContextToken}
    (hne : token ≠ ancestor) : Ancestor contexts token ancestor ↔
      ∃ parent, parentOf contexts token = some parent ∧ Ancestor contexts parent ancestor := by
  constructor
  · intro h
    obtain rfl | ⟨parent, hparent, hrest⟩ := Relation.ReflTransGen.cases_head h
    · exact absurd rfl hne
    · exact ⟨parent, hparent, hrest⟩
  · rintro ⟨parent, hparent, hrest⟩
    exact Relation.ReflTransGen.head hparent hrest

/-- What the walk answers, where no recorded parent is the token of no context. -/
theorem lineage_answer {contexts : Contexts}
    (hrooted : ∀ child parent, parentOf contexts child = some parent → parent.isNone = false)
    {n : ℕ} {candidate ancestor : ContextToken} {answer : Bool}
    (h : Walk.within (lineageStep contexts ancestor) n candidate = some answer) :
    answer = true ↔ candidate.isNone = false ∧ Ancestor contexts candidate ancestor := by
  induction n generalizing candidate with
  | zero => cases h
  | succ n ih =>
    rw [Walk.within, lineageStep_eq] at h
    by_cases hnone : candidate.isNone = true
    · rw [if_pos hnone] at h
      cases h
      simp [hnone]
    · rw [if_neg hnone] at h
      have hsome : candidate.isNone = false := Bool.eq_false_of_not_eq_true hnone
      by_cases heq : candidate = ancestor
      · rw [if_pos heq] at h
        cases h
        subst heq
        exact ⟨fun _ => ⟨hsome, Relation.ReflTransGen.refl⟩, fun _ => rfl⟩
      · rw [if_neg heq] at h
        rw [ancestor_iff_of_ne heq]
        cases hparent : parentOf contexts candidate with
        | none =>
          rw [hparent] at h
          cases h
          simp
        | some parent =>
          rw [hparent] at h
          rw [ih h]
          constructor
          · rintro ⟨-, hrest⟩
            exact ⟨hsome, parent, rfl, hrest⟩
          · rintro ⟨-, other, hother, hrest⟩
            cases hother
            exact ⟨hrooted candidate parent hparent, hrest⟩

/-! ## Links -/

theorem parentOf_map (contexts : Contexts) (f : UInt64 × ContextSnapshot → UInt64 × ContextSnapshot)
    (hkey : ∀ entry, (f entry).1 = entry.1)
    (hparent : ∀ entry, (f entry).2.parent = entry.2.parent) (token : ContextToken) :
    parentOf (contexts.map f) token = parentOf contexts token := by
  induction contexts with
  | nil => rfl
  | cons entry contexts ih =>
    obtain ⟨id, snapshot⟩ := entry
    have hentry : f (id, snapshot) = (id, (f (id, snapshot)).2) := Prod.ext (hkey _) rfl
    rw [parentOf, parentOf, List.map_cons, hentry, List.lookup_cons, List.lookup_cons]
    cases token.id == id with
    | true => exact hparent (id, snapshot)
    | false => exact ih

/-- `link_context` leaves every recorded parent as it is. -/
theorem parentOf_linkContext (context related token : ContextToken) (rt : Runtime) :
    parentOf (rt.linkContext context related).contexts token = parentOf rt.contexts token := by
  refine parentOf_map rt.contexts _ ?_ ?_ token
  · rintro ⟨id, snapshot⟩
    dsimp only
    split <;> rfl
  · rintro ⟨id, snapshot⟩
    dsimp only
    split <;> rfl

theorem isDescendant_linkContext (context related candidate ancestor : ContextToken) (rt : Runtime) :
    isDescendant (rt.linkContext context related).contexts candidate ancestor =
      isDescendant rt.contexts candidate ancestor := by
  have hstep : lineageStep (rt.linkContext context related).contexts ancestor =
      lineageStep rt.contexts ancestor := by
    funext token
    rw [lineageStep_eq, lineageStep_eq, parentOf_linkContext]
  rw [isDescendant, isDescendant, hstep, Runtime.linkContext, List.length_map]

/-! ## Runs -/

namespace Ancestry

/-- The runtime with the tokens `create_context` has returned, each with the parent it was given. -/
structure State where
  runtime : Runtime
  created : List (ContextToken × ContextToken)

def initial : State := { runtime := .new, created := [] }

inductive Action where
  | create (parent : ContextToken) (name : String)
  | link (context related : ContextToken)
  deriving DecidableEq

def step (s : State) : Action → Option State
  | .create parent name =>
    (s.runtime.createContext parent name).map fun (token, runtime) =>
      { runtime := runtime, created := s.created ++ [(token, parent)] }
  | .link context related => some { s with runtime := s.runtime.linkContext context related }

/-- The parent is the token of no context, or one that the runtime has returned. -/
def Known (s : State) : Action → Prop
  | .create parent _ => parent.isNone = true ∨ parent ∈ s.created.map Prod.fst
  | .link _ _ => True

instance (s : State) : (a : Action) → Decidable (Known s a)
  | .create _ _ => inferInstanceAs (Decidable (_ ∨ _))
  | .link _ _ => inferInstanceAs (Decidable True)

/-- The parents recorded are those that the contexts were created under, and older. -/
structure State.Recorded (s : State) : Prop where
  acyclic : Acyclic s.runtime.contexts
  below : ∀ entry ∈ s.created, entry.1.id < s.runtime.nextContext
  parents : ∀ token parent, parentOf s.runtime.contexts token = some parent ↔
    parent.isNone = false ∧ ∃ own, (own, parent) ∈ s.created ∧ own.id = token.id

theorem recorded_initial : initial.Recorded where
  acyclic _ _ _ h := by cases h
  below _ hm := by cases hm
  parents token parent := by
    constructor
    · intro h
      cases h
    · rintro ⟨-, own, hm, -⟩
      cases hm

variable {s s' : State}

theorem recorded_step {a : Action} (h : s.Recorded) (hok : Known s a) (hs : step s a = some s') :
    s'.Recorded := by
  cases a with
  | create parent name =>
    obtain ⟨⟨token, runtime⟩, hcreate, rfl⟩ := Option.map_eq_some_iff.mp hs
    have hgenuine : parent.isNone = true ∨ parent.id < s.runtime.nextContext := by
      refine hok.imp_right fun hm => ?_
      obtain ⟨entry, hentry, rfl⟩ := List.mem_map.mp hm
      exact h.below entry hentry
    have hordered := Runtime.createContext_ordered hgenuine ⟨h.acyclic, UInt64.le_refl _⟩ hcreate
    unfold Runtime.createContext at hcreate
    dsimp only at hcreate
    split at hcreate <;> cases hcreate
    next hmax =>
      have hsucc : s.runtime.nextContext < s.runtime.nextContext + 1 := by
        rw [UInt64.lt_iff_toNat_lt, toNat_add_one hmax]
        exact Nat.lt_succ_self _
      refine ⟨hordered.acyclic, fun entry hm => ?_, fun token found => ?_⟩
      · obtain hold | hnew := List.mem_append.mp hm
        · exact UInt64.lt_trans (h.below entry hold) hsucc
        · rw [List.mem_singleton.mp hnew]
          exact hsucc
      · dsimp only
        rw [parentOf_cons]
        by_cases hid : token.id = s.runtime.nextContext
        · -- the new context is the only one with its id
          have hfresh : ∀ own, (own, found) ∈ s.created → own.id ≠ token.id := by
            intro own hm he
            have hlt := h.below _ hm
            rw [he, hid] at hlt
            exact absurd hlt (UInt64.lt_irrefl _)
          rw [if_pos hid]
          constructor
          · intro hparent
            split at hparent <;> cases hparent
            next hnone =>
              exact ⟨Bool.eq_false_of_not_eq_true hnone, _,
                List.mem_append_right _ (List.mem_singleton_self _), hid.symm⟩
          · rintro ⟨hnone, own, hm, he⟩
            obtain hold | hnew := List.mem_append.mp hm
            · exact absurd he (hfresh own hold)
            · cases List.mem_singleton.mp hnew
              rw [hnone]
              rfl
        · rw [if_neg hid, h.parents]
          refine and_congr_right fun _ => exists_congr fun own => ?_
          refine and_congr_left fun he => ⟨fun hm => List.mem_append_left _ hm, fun hm => ?_⟩
          obtain hold | hnew := List.mem_append.mp hm
          · exact hold
          · cases List.mem_singleton.mp hnew
            exact absurd he.symm hid
  | link context related =>
    cases hs
    refine ⟨acyclic_iff.mpr fun token parent hparent => ?_, h.below, fun token parent => ?_⟩
    · rw [parentOf_linkContext] at hparent
      exact acyclic_iff.mp h.acyclic token parent hparent
    · rw [parentOf_linkContext]
      exact h.parents token parent

/-- **Lineage queries end and mean ancestry**, in every runtime whose contexts were created under
parents it had returned: the loop of `is_descendant` ends, with the answer whether the one token is
an ancestor of the other along the parents given to `create_context`. -/
theorem lineage_means_ancestry (s : State) (hrun : Transition.Reaches step Known initial s) :
    (∀ token parent, parentOf s.runtime.contexts token = some parent ↔
      parent.isNone = false ∧ ∃ own, (own, parent) ∈ s.created ∧ own.id = token.id) ∧
    (∀ candidate ancestor, ∃ n answer,
      Walk.within (lineageStep s.runtime.contexts ancestor) n candidate = some answer ∧
        isDescendant s.runtime.contexts candidate ancestor = some answer ∧
        (answer = true ↔
          candidate.isNone = false ∧ Ancestor s.runtime.contexts candidate ancestor)) ∧
    (∀ (filter : Filter) (selected context : ContextToken), filter.context = some selected →
      filter.descendants = true →
        ∃ answer, filter.matchesContext s.runtime.contexts context = some answer ∧
          (answer = true ↔ context.isNone = false ∧ Ancestor s.runtime.contexts context selected)) ∧
    ∀ (context related candidate ancestor : ContextToken) (filter : Filter),
      isDescendant (s.runtime.linkContext context related).contexts candidate ancestor =
          isDescendant s.runtime.contexts candidate ancestor ∧
        filter.matchesContext (s.runtime.linkContext context related).contexts candidate =
          filter.matchesContext s.runtime.contexts candidate := by
  have h : s.Recorded := hrun.invariant (fun _ _ _ h hok hs => recorded_step h hok hs) recorded_initial
  have hrooted : ∀ child parent, parentOf s.runtime.contexts child = some parent →
      parent.isNone = false := fun child parent hparent => ((h.parents child parent).mp hparent).1
  have hanswers : ∀ candidate ancestor, ∃ answer,
      isDescendant s.runtime.contexts candidate ancestor = some answer ∧
        (answer = true ↔
          candidate.isNone = false ∧ Ancestor s.runtime.contexts candidate ancestor) := by
    intro candidate ancestor
    obtain ⟨answer, hanswer⟩ :=
      Option.isSome_iff_exists.mp (isDescendant_isSome h.acyclic candidate ancestor)
    exact ⟨answer, hanswer, lineage_answer hrooted hanswer⟩
  refine ⟨h.parents, fun candidate ancestor => ?_, fun filter selected context hcontext hdescendants => ?_,
    fun context related candidate ancestor filter => ?_⟩
  · obtain ⟨answer, hanswer, hiff⟩ := hanswers candidate ancestor
    exact ⟨_, answer, hanswer, hanswer, hiff⟩
  · obtain ⟨answer, hanswer, hiff⟩ := hanswers context selected
    refine ⟨answer, ?_, hiff⟩
    rw [Filter.matchesContext, hcontext]
    dsimp only
    rw [if_pos hdescendants]
    exact hanswer
  · refine ⟨isDescendant_linkContext context related candidate ancestor s.runtime, ?_⟩
    unfold Filter.matchesContext
    simp only [isDescendant_linkContext]

/-- A context under another, linked to it from the other side. -/
theorem lineage_means_ancestry_child : ∃ s, Transition.Reaches step Known initial s ∧
    s.created.length = 2 ∧ Ancestor s.runtime.contexts ⟨2, 0⟩ ⟨1, 0⟩ ∧
      ¬ Ancestor s.runtime.contexts ⟨1, 0⟩ ⟨2, 0⟩ := by
  obtain ⟨s, hrun, hcreated, hchild, hroot⟩ := Transition.exists_reaches step Known initial
    (fun s => s.created.length = 2 ∧ isDescendant s.runtime.contexts ⟨2, 0⟩ ⟨1, 0⟩ = some true ∧
      isDescendant s.runtime.contexts ⟨1, 0⟩ ⟨2, 0⟩ = some false)
    [.create .none "checkout", .create ⟨1, 0⟩ "payment", .link ⟨1, 0⟩ ⟨2, 0⟩] (by decide)
  obtain ⟨-, hends, -, -⟩ := lineage_means_ancestry s hrun
  obtain ⟨-, answer, -, hanswer, hiff⟩ := hends ⟨2, 0⟩ ⟨1, 0⟩
  obtain ⟨-, answer', -, hanswer', hiff'⟩ := hends ⟨1, 0⟩ ⟨2, 0⟩
  rw [hchild] at hanswer
  rw [hroot] at hanswer'
  cases hanswer
  cases hanswer'
  exact ⟨s, hrun, hcreated, (hiff.mp rfl).2, fun h => absurd (hiff'.mpr ⟨rfl, h⟩) Bool.false_ne_true⟩

end Ancestry

end Logwise
