import Logwise.Runtime.Dispatch

/-!
# Circular lineage

`is_descendant` ends where every parent is older than its child. `create_context` numbers
contexts upwards, so a lineage can only become circular through a parent token nobody was
given yet.
-/

namespace Logwise

/-- The parent a context is created under is no context, or one numbered below `bound`. -/
def Operation.Genuine (bound : UInt64) : Operation → Prop
  | .createContext parent _ => parent.isNone = true ∨ parent.id < bound
  | _ => True

/-- Acyclic lineage in a runtime that has numbered its contexts up to at least `bound`. -/
structure Runtime.Ordered (bound : UInt64) (rt : Runtime) : Prop where
  acyclic : Acyclic rt.contexts
  bound : bound ≤ rt.nextContext

theorem acyclic_cons {contexts : Contexts} (h : Acyclic contexts) {id : UInt64}
    {snapshot : ContextSnapshot} (hp : ∀ parent, snapshot.parent = some parent → parent.id < id) :
    Acyclic ((id, snapshot) :: contexts) := by
  intro key found parent hlookup hparent
  rw [List.lookup_cons] at hlookup
  split at hlookup
  next heq =>
    cases hlookup
    rw [eq_of_beq heq]
    exact hp parent hparent
  next => exact h key found parent hlookup hparent

/-- Changing snapshots without changing keys or parents keeps the lineage. -/
theorem acyclic_map {contexts : Contexts} (h : Acyclic contexts)
    (f : UInt64 × ContextSnapshot → UInt64 × ContextSnapshot)
    (hkey : ∀ entry, (f entry).1 = entry.1)
    (hparent : ∀ entry, (f entry).2.parent = entry.2.parent) : Acyclic (contexts.map f) := by
  have hlookup : ∀ id found, (contexts.map f).lookup id = some found →
      ∃ snapshot, contexts.lookup id = some snapshot ∧ found.parent = snapshot.parent := by
    clear h
    intro id found hl
    induction contexts with
    | nil => cases hl
    | cons entry contexts ih =>
      have hfst : f entry = (entry.1, (f entry).2) := Prod.ext (hkey entry) rfl
      rw [List.map_cons, hfst, List.lookup_cons] at hl
      rw [show entry :: contexts = (entry.1, entry.2) :: contexts from rfl, List.lookup_cons]
      cases he : id == entry.1 with
      | true =>
        rw [he] at hl
        cases hl
        exact ⟨entry.2, rfl, hparent entry⟩
      | false =>
        rw [he] at hl
        exact ih hl
  intro id found parent hl hp
  obtain ⟨snapshot, hs, he⟩ := hlookup id found hl
  exact h id snapshot parent hs (he ▸ hp)

namespace Runtime

theorem Ordered.of_eq {bound : UInt64} {rt rt' : Runtime} (h : Ordered bound rt)
    (he : rt'.contexts = rt.contexts ∧ rt'.nextContext = rt.nextContext) : Ordered bound rt' :=
  ⟨he.1 ▸ h.acyclic, he.2 ▸ h.bound⟩

theorem createContext_ordered {parent token : ContextToken} {name : String} {bound : UInt64}
    {rt rt' : Runtime} (hg : parent.isNone = true ∨ parent.id < bound) (ho : Ordered bound rt)
    (h : createContext parent name rt = some (token, rt')) : Ordered bound rt' := by
  unfold createContext at h
  dsimp only at h
  split at h
  · cases h
  next hmax =>
    cases h
    refine ⟨acyclic_cons ho.acyclic ?_, ?_⟩
    · intro ancestor hparent
      split at hparent
      · cases hparent
      next hnone =>
        cases hparent
        obtain hn | hlt := hg
        · exact absurd hn hnone
        · exact UInt64.lt_of_lt_of_le hlt ho.bound
    · have hb := UInt64.le_iff_toNat_le.mp ho.bound
      rw [UInt64.le_iff_toNat_le, toNat_add_one hmax]
      omega

/-- **Lineage stays acyclic** under every operation whose parents are genuine. -/
theorem perform_ordered {platform : Platform} {now : Instant} {operation : Operation}
    {bound : UInt64} {rt rt' : Runtime} (hg : operation.Genuine bound) (ho : Ordered bound rt)
    (h : operation.perform platform now rt = some rt') : Ordered bound rt' := by
  cases operation with
  | setInterest interest =>
    obtain ⟨_, rfl⟩ := advanceGeneration_frame h
    exact ho.of_eq ⟨rfl, rfl⟩
  | activate filter interest ttl | activateContext root interest ttl =>
    obtain ⟨⟨result, next⟩, ha, rfl⟩ := Option.map_eq_some_iff.mp h
    obtain ⟨_, _, rfl⟩ := activate_frame ha
    exact ho.of_eq ⟨rfl, rfl⟩
  | addRemoteSink sink filter level | addLocalSink sink filter level
  | addEphemeralSink sink filter level =>
    obtain ⟨⟨id, next⟩, ha, rfl⟩ := Option.map_eq_some_iff.mp h
    obtain ⟨_, _, _, rfl⟩ := addSink_frame ha
    exact ho.of_eq ⟨rfl, rfl⟩
  | removeSink id =>
    obtain ⟨⟨removed, next⟩, ha, rfl⟩ := Option.map_eq_some_iff.mp h
    obtain ⟨_, _, rfl⟩ := removeSink_frame ha
    exact ho.of_eq ⟨rfl, rfl⟩
  | createContext parent name =>
    obtain ⟨⟨token, next⟩, ha, rfl⟩ := Option.map_eq_some_iff.mp h
    exact createContext_ordered hg ho ha
  | linkContext context related =>
    cases h
    refine ⟨acyclic_map ho.acyclic _ ?_ ?_, ho.bound⟩
    · rintro ⟨id, snapshot⟩
      dsimp only
      split <;> rfl
    · rintro ⟨id, snapshot⟩
      dsimp only
      split <;> rfl

theorem emit_ordered {platform : Platform} {event : EventRef} {reactions : List Reaction}
    {thread : Thread} {bound : UInt64} {rt : Runtime} {outcome : Outcome}
    (hg : ∀ reaction ∈ reactions, reaction.Makes (Operation.Genuine bound))
    (ho : Ordered bound rt) (h : emit platform event reactions thread rt = some outcome) :
    Ordered bound outcome.runtime := by
  refine emit_preserves (I := Ordered bound) (P := Operation.Genuine bound) ?_ ?_ ?_ hg ho h
  · intro operation now rt₁ rt₂ hop hord hp
    exact perform_ordered hop hord hp
  · intro rt₁ n hord
    exact hord.of_eq ⟨rfl, rfl⟩
  · intro rt₁ n hord
    exact hord.of_eq ⟨rfl, rfl⟩

end Runtime

end Logwise
