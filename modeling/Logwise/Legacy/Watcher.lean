import Logwise.Legacy.Heartbeat
import Logwise.Library.Slots
import Mathlib.Data.List.Perm.Subperm
import Mathlib.Data.Nat.Basic

/-!
# What the watcher holds and remembers

Two invariants of the heartbeat protocol. Every heartbeat is registered once and completed after its
guard's drop, wherever its messages are; and as long as a guard is not dropped, the watcher's map
remembers that it was reported.
-/

namespace Logwise.Legacy.Heartbeats

variable {origin last : ℕ} {s s' : State} {a : Action} {g : ℕ} {guard : HeartbeatGuard} {id : ℕ}

/-! ## Steps -/

/-- What a step can do. -/
inductive Moves (origin : ℕ) (s : State) : Action → State → Prop
  | create (name : String) (duration : ℕ) (callsite : CallSite) (context : Context) (now : ℕ)
      (hclock : s.clock ≤ now) :
      Moves origin s (.create name duration callsite context true now) { s with
        clock := now, nextId := s.nextId + 1
        guards := s.guards ++
          [{ id := s.nextId, name := name, createdAt := now, deadline := now + duration
             callsite := callsite, context := context, phase := .registering }] }
  | inert (name : String) (duration : ℕ) (callsite : CallSite) (context : Context) (enabled : Bool)
      (now nextId : ℕ) (hclock : s.clock ≤ now) (hnext : s.nextId ≤ nextId) :
      Moves origin s (.create name duration callsite context enabled now)
        { s with clock := now, nextId := nextId }
  | register (g : ℕ) (guard : HeartbeatGuard) (spawned : Bool) (hg : s.guards[g]? = some guard)
      (hphase : guard.phase = .registering) :
      Moves origin s (.register g spawned) { setPhase g guard .live s with
        watcher := spawnWatcher s.watcher spawned
        channel := send (spawnWatcher s.watcher spawned) s.channel (.register guard.heartbeat) }
  | drop (g : ℕ) (guard : HeartbeatGuard) (dropSite : CallSite) (now stamp : ℕ)
      (hg : s.guards[g]? = some guard) (hlive : guard.phase = .live) (hclock : s.clock ≤ now)
      (hstamp : now ≤ stamp) :
      Moves origin s (.drop g dropSite now stamp) (dropGuard origin g guard dropSite now stamp s)
  | complete (g : ℕ) (guard : HeartbeatGuard) (droppedAt : ℕ) (hg : s.guards[g]? = some guard)
      (hphase : guard.phase = .completing droppedAt) :
      Moves origin s (.complete g) { setPhase g guard (.dropped droppedAt) s with
        channel := send s.watcher s.channel (.complete guard.id) }
  | receive (message : Message) (channel : List Message) (hwatcher : s.watcher = .receiving)
      (hchannel : s.channel = message :: channel) :
      Moves origin s .receive (Heartbeats.receive { s with channel := channel } message)
  | timeout (now deadline : ℕ) (hwatcher : s.watcher = .receiving) (hclock : s.clock ≤ now)
      (hdeadline : nextDeadline s.heartbeats = some deadline) (hdue : deadline ≤ now) :
      Moves origin s (.timeout now) { s with watcher := .checking, clock := now }
  | judge (heartbeat : Heartbeat) (now stamp : ℕ) (hwatcher : s.watcher = .completing heartbeat)
      (hclock : s.clock ≤ now) (hstamp : now ≤ stamp) :
      Moves origin s (.judge now stamp) (Heartbeats.judge origin heartbeat now stamp s)
  | readClock (now : ℕ) (hwatcher : s.watcher = .checking) (hclock : s.clock ≤ now) :
      Moves origin s (.readClock now) { s with
        watcher := .sweeping now (s.heartbeats.map Heartbeat.id), clock := now }
  | visit (heartbeat : Heartbeat) (now stamp : ℕ) (left : List ℕ)
      (hwatcher : s.watcher = .sweeping now left) (hleft : heartbeat.id ∈ left)
      (hclock : s.clock ≤ stamp)
      (hfound : lookup s.heartbeats heartbeat.id = some heartbeat) :
      Moves origin s (.visit heartbeat.id stamp) (Heartbeats.visit origin heartbeat now stamp
        { s with watcher := .sweeping now (left.erase heartbeat.id) })
  | sweepEnd (now : ℕ) (hwatcher : s.watcher = .sweeping now []) :
      Moves origin s .sweepEnd { s with watcher := .receiving }

theorem lookup_some {heartbeats : List Heartbeat} {heartbeat : Heartbeat}
    (h : lookup heartbeats id = some heartbeat) : heartbeat ∈ heartbeats ∧ heartbeat.id = id :=
  ⟨List.mem_of_find?_eq_some h, by simpa using List.find?_some h⟩

theorem moves_of_step (hs : step origin last s a = some s') : Moves origin s a s' := by
  cases a with
  | create name duration callsite context enabled now =>
    simp only [step] at hs
    split at hs
    next hclock =>
      cases enabled with
      | false =>
        cases hs
        exact .inert name duration callsite context false now s.nextId hclock le_rfl
      | true =>
        simp only [if_true] at hs
        split at hs <;> cases hs
        · exact .create name duration callsite context now hclock
        · exact .inert name duration callsite context true now _ hclock (Nat.le_succ _)
    next => cases hs
  | register g spawned =>
    obtain ⟨guard, hg, hguard⟩ := Option.bind_eq_some_iff.mp hs
    split at hguard <;> cases hguard
    next hphase => exact .register g guard spawned hg hphase
  | drop g dropSite now stamp =>
    obtain ⟨guard, hg, hguard⟩ := Option.bind_eq_some_iff.mp hs
    split at hguard <;> cases hguard
    next hcond => exact .drop g guard dropSite now stamp hg hcond.1 hcond.2.1 hcond.2.2
  | complete g =>
    obtain ⟨guard, hg, hguard⟩ := Option.bind_eq_some_iff.mp hs
    split at hguard <;> cases hguard
    next droppedAt hphase => exact .complete g guard droppedAt hg hphase
  | receive =>
    simp only [step] at hs
    split at hs <;> cases hs
    next message channel hwatcher hchannel => exact .receive message channel hwatcher hchannel
  | timeout now =>
    simp only [step] at hs
    split at hs <;> cases hs
    next hcond =>
      obtain ⟨hwatcher, hclock, deadline, hdeadline, hdue⟩ := hcond
      exact .timeout now deadline hwatcher hclock hdeadline hdue
  | judge now stamp =>
    simp only [step] at hs
    split at hs
    next heartbeat hwatcher =>
      split at hs <;> cases hs
      next hcond => exact .judge heartbeat now stamp hwatcher hcond.1 hcond.2
    next => cases hs
  | readClock now =>
    simp only [step] at hs
    split at hs <;> cases hs
    next hcond => exact .readClock now hcond.1 hcond.2
  | visit id stamp =>
    simp only [step] at hs
    split at hs
    next now left hwatcher =>
      split at hs
      next hcond =>
        obtain ⟨heartbeat, hfound, rfl⟩ := Option.map_eq_some_iff.mp hs
        obtain ⟨-, rfl⟩ := lookup_some hfound
        exact .visit heartbeat now stamp left hwatcher hcond.1 hcond.2 hfound
      next => cases hs
    next => cases hs
  | sweepEnd =>
    simp only [step] at hs
    split at hs <;> cases hs
    next now hwatcher => exact .sweepEnd now hwatcher

/-! ## One registration for each guard -/

theorem map_id_markWarned (heartbeats : List Heartbeat) (id : ℕ) :
    (markWarned heartbeats id).map Heartbeat.id = heartbeats.map Heartbeat.id := by
  rw [markWarned, List.map_map]
  refine List.map_congr_left fun heartbeat _ => ?_
  show Heartbeat.id (if heartbeat.id = id then _ else heartbeat) = heartbeat.id
  split <;> rfl

/-- Some guard has the identifier, and its phase the property. -/
def State.Has (s : State) (id : ℕ) (p : GuardPhase → Prop) : Prop :=
  ∃ (g : ℕ) (guard : HeartbeatGuard), s.guards[g]? = some guard ∧ guard.id = id ∧ p guard.phase

def Message.registers : Message → Option ℕ
  | .register heartbeat => some heartbeat.id
  | .complete _ => none

/-- The heartbeat in the hands of the watcher. -/
def held : Watcher → List ℕ
  | .completing heartbeat => [heartbeat.id]
  | _ => []

/-- The registrations under way, those in the map, and the one taken out of it. -/
def State.copies (s : State) : List ℕ :=
  s.channel.filterMap Message.registers ++ s.heartbeats.map Heartbeat.id ++ held s.watcher

/-- Every heartbeat is registered once, and completed after its guard's drop. -/
structure State.Orderly (s : State) : Prop where
  ids : (s.guards.map HeartbeatGuard.id).Nodup
  next : ∀ guard ∈ s.guards, guard.id < s.nextId
  once : s.copies.Nodup
  sent : ∀ id ∈ s.copies, s.Has id fun phase => phase ≠ .registering
  finished : ∀ id, .complete id ∈ s.channel ∨ id ∈ held s.watcher →
    s.Has id fun phase => phase.droppedAt ≠ none

theorem orderly_initial : initial.Orderly where
  ids := List.nodup_nil
  next := by simp [initial]
  once := List.nodup_nil
  sent := by simp [initial, State.copies, held]
  finished := by simp [initial, held]

/-- A guard is moved on. -/
theorem State.Has.set {p : GuardPhase → Prop} {phase : GuardPhase} (h : s.Has id p)
    (hg : s.guards[g]? = some guard) (hp : p guard.phase → p phase)
    (hguards : s'.guards = s.guards.set g { guard with phase := phase }) : s'.Has id p := by
  obtain ⟨i, other, hi, hid, hother⟩ := h
  by_cases hig : i = g
  · subst hig
    cases hg.symm.trans hi
    refine ⟨i, { guard with phase := phase }, ?_, hid, hp hother⟩
    rw [hguards]
    exact Slots.getElem?_set_of_some hi
  · refine ⟨i, other, ?_, hid, hother⟩
    rw [hguards, List.getElem?_set_ne (Ne.symm hig)]
    exact hi

theorem State.Has.of_guards {p : GuardPhase → Prop} (h : s.Has id p)
    (hguards : s'.guards = s.guards) : s'.Has id p := by
  obtain ⟨i, other, hi, hrest⟩ := h
  exact ⟨i, other, hguards ▸ hi, hrest⟩

theorem map_id_set {phase : GuardPhase} (hg : s.guards[g]? = some guard) :
    (s.guards.set g { guard with phase := phase }).map HeartbeatGuard.id =
      s.guards.map HeartbeatGuard.id := by
  obtain ⟨hlt, he⟩ := List.getElem?_eq_some_iff.mp hg
  rw [List.map_set]
  refine (congrArg _ ?_).trans (List.set_getElem_self (by rwa [List.length_map]))
  rw [List.getElem_map, he]

theorem State.Orderly.next_set {phase : GuardPhase} (h : s.Orderly) (hg : s.guards[g]? = some guard) :
    ∀ other ∈ s.guards.set g { guard with phase := phase }, other.id < s.nextId :=
  Slots.forall_mem_set h.next (h.next guard (List.mem_of_getElem? hg))

/-- No two guards have one identifier. -/
theorem State.Orderly.place (h : s.Orderly) {i j : ℕ} {other : HeartbeatGuard}
    (hi : s.guards[i]? = some other) (hj : s.guards[j]? = some guard) (hid : other.id = guard.id) :
    i = j := by
  have hlt := (List.getElem?_eq_some_iff.mp hi).1
  refine (List.getElem?_inj (by rwa [List.length_map]) h.ids).mp ?_
  rw [List.getElem?_map, List.getElem?_map, hi, hj, Option.map_some, Option.map_some, hid]

/-- A guard's phase is the one its identifier leads to. -/
theorem State.Orderly.phase (h : s.Orderly) (hg : s.guards[g]? = some guard)
    {p : GuardPhase → Prop} (hhas : s.Has guard.id p) : p guard.phase := by
  obtain ⟨i, other, hi, hid, hp⟩ := hhas
  obtain rfl : i = g := h.place hi hg hid
  cases hg.symm.trans hi
  exact hp

theorem nodup_of_subperm {xs ys : List ℕ} (h : xs.Subperm ys) (hys : ys.Nodup) : xs.Nodup := by
  obtain ⟨copies, hperm, hsub⟩ := h
  exact hperm.nodup_iff.mp (hys.sublist hsub)

/-- A step of the watcher that registers nothing. -/
theorem State.Orderly.watch (h : s.Orderly) (hguards : s'.guards = s.guards)
    (hnext : s.nextId ≤ s'.nextId) (hcopies : s'.copies.Subperm s.copies)
    (hchannel : ∀ id, .complete id ∈ s'.channel ∨ id ∈ held s'.watcher →
      .complete id ∈ s.channel ∨ id ∈ held s.watcher) : s'.Orderly where
  ids := hguards ▸ h.ids
  next other ho := Nat.lt_of_lt_of_le (h.next other (hguards ▸ ho)) hnext
  once := nodup_of_subperm hcopies h.once
  sent id hid := (h.sent id (hcopies.subset hid)).of_guards hguards
  finished id hid := (h.finished id (hchannel id hid)).of_guards hguards

/-- A step of one guard that sends nothing to be registered. -/
theorem State.Orderly.advance {phase : GuardPhase} (h : s.Orderly) (hg : s.guards[g]? = some guard)
    (hguards : s'.guards = s.guards.set g { guard with phase := phase })
    (hnext : s'.nextId = s.nextId) (hcopies : s'.copies = s.copies)
    (hregistering : phase ≠ .registering)
    (hdropped : guard.phase.droppedAt ≠ none → phase.droppedAt ≠ none)
    (hchannel : ∀ id, .complete id ∈ s'.channel ∨ id ∈ held s'.watcher →
      (.complete id ∈ s.channel ∨ id ∈ held s.watcher) ∨
        id = guard.id ∧ phase.droppedAt ≠ none) : s'.Orderly where
  ids := by
    rw [hguards, map_id_set hg]
    exact h.ids
  next other ho := by
    rw [hguards] at ho
    rw [hnext]
    exact h.next_set hg other ho
  once := hcopies ▸ h.once
  sent id hid := (h.sent id (hcopies ▸ hid)).set hg (fun _ => hregistering) hguards
  finished id hid := by
    obtain hold | ⟨rfl, hnew⟩ := hchannel id hid
    · exact (h.finished id hold).set hg hdropped hguards
    · exact ⟨g, { guard with phase := phase },
        hguards ▸ Slots.getElem?_set_of_some hg, rfl, hnew⟩

theorem held_spawnWatcher (watcher : Watcher) (spawned : Bool) :
    held (spawnWatcher watcher spawned) = held watcher := by
  cases watcher <;> cases spawned <;> rfl

theorem mem_send {watcher : Watcher} {channel : List Message} {m message : Message}
    (h : m ∈ send watcher channel message) : m ∈ channel ∨ m = message := by
  rw [send] at h
  split at h
  · exact Or.inl h
  · exact (List.mem_append.mp h).imp_right List.mem_singleton.mp

theorem registers_send_complete (watcher : Watcher) (channel : List Message) (id : ℕ) :
    (send watcher channel (.complete id)).filterMap Message.registers =
      channel.filterMap Message.registers := by
  rw [send]
  split
  · rfl
  · rw [List.filterMap_append]
    exact List.append_nil _

/-- A registration that is sent adds one copy at most. -/
theorem copies_send_register {watcher : Watcher} (hheld : held watcher = held s.watcher)
    (heartbeat : Heartbeat) :
    (State.copies { s with
      watcher := watcher, channel := send watcher s.channel (.register heartbeat) }).Subperm
        (heartbeat.id :: s.copies) := by
  rw [State.copies, State.copies]
  dsimp only
  rw [hheld, send]
  split
  · exact (List.sublist_cons_self _ _).subperm
  · rw [List.filterMap_append, List.append_assoc, List.append_assoc, List.append_assoc]
    exact List.perm_middle.subperm

/-- A registration is sent while the guard's phase still tells that it has not been. -/
theorem orderly_register (h : s.Orderly) (hg : s.guards[g]? = some guard)
    (hphase : guard.phase = .registering) (watcher : Watcher)
    (hheld : held watcher = held s.watcher) :
    State.Orderly { setPhase g guard .live s with
      watcher := watcher, channel := send watcher s.channel (.register guard.heartbeat) } := by
  have hfresh : guard.id ∉ s.copies := fun hid => h.phase hg (h.sent guard.id hid) hphase
  have hguards : (setPhase g guard .live s).guards = s.guards.set g { guard with phase := .live } :=
    rfl
  have hcopies := copies_send_register hheld guard.heartbeat
  refine ⟨?_, h.next_set hg, ?_, fun id hid => ?_, fun id hid => ?_⟩
  · rw [hguards, map_id_set hg]
    exact h.ids
  · exact nodup_of_subperm hcopies (List.nodup_cons.mpr ⟨hfresh, h.once⟩)
  · obtain rfl | hold := List.mem_cons.mp (hcopies.subset hid)
    · exact ⟨g, _, Slots.getElem?_set_of_some hg, rfl, GuardPhase.noConfusion⟩
    · exact (h.sent id hold).set hg (fun _ => GuardPhase.noConfusion) hguards
  · have hold : .complete id ∈ s.channel ∨ id ∈ held s.watcher := by
      obtain hc | hw := hid
      · exact Or.inl ((mem_send hc).resolve_right nofun)
      · exact Or.inr (hheld ▸ hw)
    refine (h.finished id hold).set hg (fun hdropped => ?_) hguards
    rw [hphase] at hdropped
    exact absurd rfl hdropped

/-- A message that is received makes no copy of a heartbeat. -/
theorem copies_receive {message : Message} {channel : List Message}
    (hwatcher : s.watcher = .receiving) (hchannel : s.channel = message :: channel) :
    (receive { s with channel := channel } message).copies.Subperm s.copies := by
  have hheld : held s.watcher = [] := by rw [hwatcher]; rfl
  cases message with
  | register heartbeat =>
    have hcopies : s.copies = heartbeat.id :: (channel.filterMap Message.registers ++
        s.heartbeats.map Heartbeat.id) := by
      rw [State.copies, hchannel, hheld, List.append_nil]
      rfl
    rw [hcopies]
    show (channel.filterMap Message.registers ++
      (heartbeat.id :: (remove s.heartbeats heartbeat.id).map Heartbeat.id) ++ []).Subperm _
    rw [List.append_nil]
    refine List.perm_middle.subperm.trans (List.Sublist.subperm ?_)
    exact ((List.filter_sublist.map _).append_left _).cons_cons _
  | complete id =>
    cases hfound : lookup s.heartbeats id with
    | none =>
      simp only [receive, hfound]
      rw [State.copies, State.copies, hchannel, hheld]
      exact List.Subperm.refl _
    | some heartbeat =>
      obtain ⟨hmem, hid⟩ := lookup_some hfound
      simp only [receive, hfound]
      have hremoved : ((remove s.heartbeats id).map Heartbeat.id ++ [heartbeat.id]).Subperm
          (s.heartbeats.map Heartbeat.id) := by
        refine List.perm_append_comm.subperm.trans ?_
        refine List.cons_subperm_of_not_mem_of_mem ?_ (List.mem_map_of_mem hmem)
          (List.filter_sublist.map _).subperm
        simp [remove, hid]
      rw [State.copies, State.copies, hchannel, hheld, List.append_nil, List.append_assoc]
      exact (List.subperm_append_left _).mpr hremoved

theorem orderly_receive {message : Message} {channel : List Message} (h : s.Orderly)
    (hwatcher : s.watcher = .receiving) (hchannel : s.channel = message :: channel) :
    (receive { s with channel := channel } message).Orderly := by
  have hcopies := copies_receive hwatcher hchannel
  cases message with
  | register heartbeat =>
    refine h.watch rfl le_rfl hcopies fun id hid => ?_
    obtain hc | hw := hid
    · exact Or.inl (hchannel ▸ List.mem_cons_of_mem _ hc)
    · cases hw
  | complete id =>
    cases hfound : lookup s.heartbeats id with
    | none =>
      simp only [receive, hfound] at hcopies ⊢
      refine h.watch rfl le_rfl hcopies fun other hid => ?_
      obtain hc | hw := hid
      · exact Or.inl (hchannel ▸ List.mem_cons_of_mem _ hc)
      · cases hw
    | some heartbeat =>
      obtain ⟨hmem, hid⟩ := lookup_some hfound
      simp only [receive, hfound] at hcopies ⊢
      refine h.watch rfl le_rfl hcopies fun other hother => ?_
      obtain hc | hw := hother
      · exact Or.inl (hchannel ▸ List.mem_cons_of_mem _ hc)
      · rw [List.mem_singleton.mp hw, hid, hchannel]
        exact Or.inl List.mem_cons_self

/-- A reading of the clock, and what the watcher does with it, register and complete nothing. -/
theorem State.Orderly.watcher (h : s.Orderly) (hguards : s'.guards = s.guards)
    (hnext : s.nextId ≤ s'.nextId) (hchannel : s'.channel = s.channel)
    (hids : s'.heartbeats.map Heartbeat.id = s.heartbeats.map Heartbeat.id)
    (hheld : (held s'.watcher).Sublist (held s.watcher)) : s'.Orderly := by
  refine h.watch hguards hnext ?_ fun id hid => ?_
  · rw [State.copies, State.copies, hchannel, hids]
    exact (hheld.append_left _).subperm
  · exact hid.imp (fun hc => hchannel ▸ hc) fun hw => hheld.subset hw

theorem orderly_create (h : s.Orderly) (now : ℕ) (hid : guard.id = s.nextId) :
    State.Orderly { s with
      clock := now, nextId := s.nextId + 1, guards := s.guards ++ [guard] } := by
  have hhas : ∀ {id : ℕ} {p : GuardPhase → Prop}, s.Has id p →
      State.Has { s with clock := now, nextId := s.nextId + 1, guards := s.guards ++ [guard] } id p := by
    rintro id p ⟨i, other, hi, hrest⟩
    refine ⟨i, other, ?_, hrest⟩
    show (s.guards ++ [guard])[i]? = some other
    rw [List.getElem?_append_left (List.getElem?_eq_some_iff.mp hi).1, hi]
  refine ⟨?_, ?_, h.once, fun id hid => hhas (h.sent id hid), fun id hid => hhas (h.finished id hid)⟩
  · rw [List.map_append]
    refine List.nodup_append.mpr ⟨h.ids, List.pairwise_singleton _ _, fun old hold new hnew => ?_⟩
    obtain ⟨other, hother, rfl⟩ := List.mem_map.mp hold
    rw [List.mem_singleton.mp hnew, hid]
    exact Nat.ne_of_lt (h.next other hother)
  · exact Slots.forall_mem_concat (fun other hother => Nat.lt_succ_of_lt (h.next other hother))
      (hid ▸ Nat.lt_succ_self _)

theorem orderly_step (h : s.Orderly) (hs : step origin last s a = some s') : s'.Orderly := by
  cases moves_of_step hs with
  | create name duration callsite context now hclock =>
    -- the id is fresh
    exact orderly_create h now rfl
  | inert name duration callsite context enabled now nextId hclock hnext =>
    exact h.watcher rfl hnext rfl rfl (List.Sublist.refl _)
  | register g guard spawned hg hphase =>
    exact orderly_register h hg hphase _ (held_spawnWatcher _ _)
  | drop g guard dropSite now stamp hg hlive hclock hstamp =>
    rw [dropGuard]
    split <;>
      exact h.advance hg rfl rfl rfl GuardPhase.noConfusion (fun _ => nofun) fun _ hid => Or.inl hid
  | complete g guard droppedAt hg hphase =>
    -- a `Complete` carries no heartbeat, so no copy is added
    refine h.advance hg rfl rfl ?_ GuardPhase.noConfusion (fun _ => nofun) fun id hid => ?_
    · rw [State.copies, State.copies]
      show (send s.watcher s.channel (.complete guard.id)).filterMap _ ++ _ ++ _ = _
      rw [registers_send_complete]
      rfl
    · obtain hc | hw := hid
      · obtain hold | hnew := mem_send hc
        · exact Or.inl (Or.inl hold)
        · exact Or.inr ⟨Message.complete.inj hnew, nofun⟩
      · exact Or.inl (Or.inr hw)
  | receive message channel hwatcher hchannel => exact orderly_receive h hwatcher hchannel
  -- the watcher's own steps make no copy of a heartbeat and send nothing
  | timeout now deadline hwatcher hclock hdeadline hdue =>
    exact h.watcher rfl le_rfl rfl rfl (List.nil_sublist _)
  | judge heartbeat now stamp hwatcher hclock hstamp =>
    rw [judge]
    split <;> exact h.watcher rfl le_rfl rfl rfl (List.nil_sublist _)
  | readClock now hwatcher hclock => exact h.watcher rfl le_rfl rfl rfl (List.nil_sublist _)
  | visit heartbeat now stamp left hwatcher hleft hclock hfound =>
    rw [visit]
    split
    · exact h.watcher rfl le_rfl rfl (map_id_markWarned _ _) (List.nil_sublist _)
    · exact h.watcher rfl le_rfl rfl rfl (List.nil_sublist _)
  | sweepEnd now hwatcher => exact h.watcher rfl le_rfl rfl rfl (List.nil_sublist _)

/-! ## What was reported -/

/-- The watcher has the heartbeat in its map, and has warned of it. -/
def Warned (heartbeats : List Heartbeat) (id : ℕ) : Prop :=
  ∃ heartbeat, lookup heartbeats id = some heartbeat ∧ heartbeat.warned = true

variable {heartbeats : List Heartbeat} {heartbeat : Heartbeat} {other : ℕ}

theorem lookup_remove (hne : id ≠ other) :
    lookup (remove heartbeats other) id = lookup heartbeats id := by
  rw [lookup, remove, List.find?_filter]
  refine congrArg (fun p => heartbeats.find? p) (funext fun heartbeat => ?_)
  by_cases hid : heartbeat.id = id <;> simp [hid, hne]

theorem Warned.remove (h : Warned heartbeats id) (hne : id ≠ other) :
    Warned (remove heartbeats other) id := by
  obtain ⟨heartbeat, hfound, hwarned⟩ := h
  exact ⟨heartbeat, (lookup_remove hne).trans hfound, hwarned⟩

theorem Warned.insert (h : Warned heartbeats id) (hne : id ≠ heartbeat.id) :
    Warned (insert heartbeats heartbeat) id := by
  obtain ⟨found, hfound, hwarned⟩ := h.remove hne
  refine ⟨found, ?_, hwarned⟩
  rw [Heartbeats.insert, lookup, List.find?_cons_of_neg (by simpa using Ne.symm hne)]
  exact hfound

theorem lookup_markWarned : lookup (markWarned heartbeats other) id =
    (lookup heartbeats id).map fun heartbeat =>
      if heartbeat.id = other then { heartbeat with warned := true } else heartbeat := by
  rw [lookup, markWarned, List.find?_map]
  refine congrArg (Option.map _) (congrArg (fun p => heartbeats.find? p) (funext fun heartbeat => ?_))
  show decide (Heartbeat.id (if heartbeat.id = other then _ else heartbeat) = id) = _
  split <;> rfl

theorem Warned.mark (h : Warned heartbeats id) : Warned (markWarned heartbeats other) id := by
  obtain ⟨heartbeat, hfound, hwarned⟩ := h
  refine ⟨_, by rw [lookup_markWarned, hfound]; rfl, ?_⟩
  show Heartbeat.warned (if heartbeat.id = other then _ else heartbeat) = true
  split
  · rfl
  · exact hwarned

theorem warned_mark (h : lookup heartbeats id = some heartbeat) :
    Warned (markWarned heartbeats id) id := by
  refine ⟨_, by rw [lookup_markWarned, h]; rfl, ?_⟩
  show Heartbeat.warned (if heartbeat.id = id then _ else heartbeat) = true
  rw [if_pos (lookup_some h).2]

/-- The heartbeat is on its way to the watcher, in its map, or just taken out of it. -/
def State.Holds (s : State) (heartbeat : Heartbeat) : Prop :=
  .register heartbeat ∈ s.channel ∨ heartbeat ∈ s.heartbeats ∨ s.watcher = .completing heartbeat

theorem State.Holds.of_watcher (h : s'.Holds heartbeat) (hchannel : s'.channel = s.channel)
    (hheartbeats : s'.heartbeats = s.heartbeats) (hwatcher : s'.watcher ≠ .completing heartbeat) :
    s.Holds heartbeat := by
  obtain hc | hm | hcompleting := h
  · exact Or.inl (hchannel ▸ hc)
  · exact Or.inr (Or.inl (hheartbeats ▸ hm))
  · exact absurd hcompleting hwatcher

theorem State.Holds.mem_copies (h : s.Holds heartbeat) : heartbeat.id ∈ s.copies := by
  obtain hc | hm | hcompleting := h
  · refine List.mem_append_left _ (List.mem_append_left _ ?_)
    exact List.mem_filterMap.mpr ⟨.register heartbeat, hc, rfl⟩
  · exact List.mem_append_left _ (List.mem_append_right _ (List.mem_map_of_mem hm))
  · refine List.mem_append_right _ ?_
    rw [hcompleting]
    exact List.mem_singleton_self _

/-- What the watcher holds after a message, the message or the watcher held before. -/
theorem holds_receive {message : Message} {channel : List Message}
    (hchannel : s.channel = message :: channel)
    (h : (receive { s with channel := channel } message).Holds heartbeat) : s.Holds heartbeat := by
  cases message with
  | register registered =>
    obtain hc | hm | hcompleting := h
    · exact Or.inl (hchannel ▸ List.mem_cons_of_mem _ hc)
    · obtain rfl | hm := List.mem_cons.mp hm
      · exact Or.inl (hchannel ▸ List.mem_cons_self)
      · exact Or.inr (Or.inl (List.mem_of_mem_filter hm))
    · cases hcompleting
  | complete id =>
    cases hfound : lookup s.heartbeats id with
    | none =>
      simp only [receive, hfound] at h
      obtain hc | hm | hcompleting := h
      · exact Or.inl (hchannel ▸ List.mem_cons_of_mem _ hc)
      · exact Or.inr (Or.inl hm)
      · cases hcompleting
    | some found =>
      simp only [receive, hfound] at h
      obtain hc | hm | hcompleting := h
      · exact Or.inl (hchannel ▸ List.mem_cons_of_mem _ hc)
      · exact Or.inr (Or.inl (List.mem_of_mem_filter hm))
      · cases hcompleting
        exact Or.inr (Or.inl (lookup_some hfound).1)

/-- The reports and the watcher's memory of them. -/
structure State.Accounted (s : State) : Prop where
  known : ∀ report ∈ s.reports, report.id < s.nextId
  recalled : ∀ heartbeat, s.Holds heartbeat → heartbeat.warned = true →
    ∃ report ∈ s.reports, report.id = heartbeat.id
  remembered : ∀ report ∈ s.reports, ∀ (g : ℕ) (guard : HeartbeatGuard), s.guards[g]? = some guard →
    guard.id = report.id → guard.phase.droppedAt = none → Warned s.heartbeats guard.id

theorem accounted_initial : initial.Accounted := by
  constructor <;> simp [initial, State.Holds]

/-- A step that reports nothing. -/
theorem State.Accounted.keep (h : s.Accounted) (hnext : s.nextId ≤ s'.nextId)
    (hreports : s'.reports = s.reports)
    (hheld : ∀ heartbeat, s'.Holds heartbeat → heartbeat.warned = true → s.Holds heartbeat)
    (hguards : ∀ (g : ℕ) (guard : HeartbeatGuard), s'.guards[g]? = some guard → guard.phase.droppedAt = none →
      s.nextId ≤ guard.id ∨ ∃ old : HeartbeatGuard, s.guards[g]? = some old ∧ old.id = guard.id ∧
        old.phase.droppedAt = none)
    (hwarned : ∀ (g : ℕ) (guard : HeartbeatGuard), s.guards[g]? = some guard → guard.phase.droppedAt = none →
      Warned s.heartbeats guard.id → Warned s'.heartbeats guard.id) : s'.Accounted where
  known report hr := Nat.lt_of_lt_of_le (h.known report (hreports ▸ hr)) hnext
  recalled heartbeat hb hw := by
    rw [hreports]
    exact h.recalled heartbeat (hheld heartbeat hb hw) hw
  remembered report hr g guard hg hid hundropped := by
    rw [hreports] at hr
    obtain hnew | ⟨old, hold, hsame, hnone⟩ := hguards g guard hg hundropped
    · have := h.known report hr
      omega
    · rw [← hsame]
      exact hwarned g old hold hnone (h.remembered report hr g old hold (hsame.trans hid) hnone)

/-- A step that reports a heartbeat of which the guard is dropped, or which the watcher marks. -/
theorem State.Accounted.report (h : s.Accounted) {report : Report} (hnext : s'.nextId = s.nextId)
    (hreports : s'.reports = report :: s.reports) (hknown : report.id < s.nextId)
    (hheld : ∀ heartbeat, s'.Holds heartbeat → heartbeat.warned = true →
      heartbeat.id = report.id ∨ s.Holds heartbeat)
    (hguards : ∀ (g : ℕ) (guard : HeartbeatGuard), s'.guards[g]? = some guard → guard.phase.droppedAt = none →
      s.guards[g]? = some guard)
    (hwarned : ∀ id, Warned s.heartbeats id → Warned s'.heartbeats id)
    (hnew : ∀ (g : ℕ) (guard : HeartbeatGuard), s'.guards[g]? = some guard → guard.id = report.id →
      guard.phase.droppedAt = none → Warned s'.heartbeats guard.id) : s'.Accounted where
  known other ho := by
    rw [hnext]
    rw [hreports] at ho
    obtain rfl | hold := List.mem_cons.mp ho
    · exact hknown
    · exact h.known other hold
  recalled heartbeat hb hw := by
    rw [hreports]
    obtain hsame | hold := hheld heartbeat hb hw
    · exact ⟨report, List.mem_cons_self, hsame.symm⟩
    · obtain ⟨other, ho, hid⟩ := h.recalled heartbeat hold hw
      exact ⟨other, List.mem_cons_of_mem _ ho, hid⟩
  remembered other ho g guard hg hid hundropped := by
    rw [hreports] at ho
    obtain rfl | hold := List.mem_cons.mp ho
    · exact hnew g guard hg hid hundropped
    · exact hwarned _ (h.remembered other hold g guard (hguards g guard hg hundropped) hid hundropped)

/-- One guard goes on and nothing is reported. -/
theorem State.Accounted.advance {phase : GuardPhase} (h : s.Accounted) (hg : s.guards[g]? = some guard)
    (hguards : s'.guards = s.guards.set g { guard with phase := phase })
    (hundropped : phase.droppedAt = none → guard.phase.droppedAt = none)
    (hnext : s'.nextId = s.nextId) (hreports : s'.reports = s.reports)
    (hheartbeats : s'.heartbeats = s.heartbeats)
    (hheld : ∀ heartbeat, s'.Holds heartbeat → heartbeat.warned = true → s.Holds heartbeat) :
    s'.Accounted := by
  refine h.keep (Nat.le_of_eq hnext.symm) hreports hheld (fun i other hi hnone => Or.inr ?_)
    (fun _ _ _ _ hw => hheartbeats ▸ hw)
  obtain ⟨rfl, rfl⟩ | ⟨-, hold⟩ := Slots.getElem?_set_cases (hguards ▸ hi)
  · exact ⟨guard, hg, rfl, hundropped hnone⟩
  · exact ⟨other, hold, rfl, hnone⟩

theorem lt_nextId (ho : s.Orderly) {p : GuardPhase → Prop} (h : s.Has id p) : id < s.nextId := by
  obtain ⟨i, other, hi, rfl, -⟩ := h
  exact ho.next other (List.mem_of_getElem? hi)

theorem accounted_receive {message : Message} {channel : List Message} (ho : s.Orderly)
    (h : s.Accounted) (hchannel : s.channel = message :: channel) :
    (receive { s with channel := channel } message).Accounted := by
  have hself : ∀ (g : ℕ) (guard : HeartbeatGuard), s.guards[g]? = some guard →
      guard.phase.droppedAt = none → s.nextId ≤ guard.id ∨ ∃ old : HeartbeatGuard,
        s.guards[g]? = some old ∧ old.id = guard.id ∧ old.phase.droppedAt = none :=
    fun g guard hg hnone => Or.inr ⟨guard, hg, rfl, hnone⟩
  have hheld : ∀ other, (receive { s with channel := channel } message).Holds other →
      other.warned = true → s.Holds other := fun _ hother _ => holds_receive hchannel hother
  cases message with
  | register heartbeat =>
    refine h.keep le_rfl rfl hheld hself fun i other hi hnone hw => ?_
    refine hw.insert fun hsame => ?_
    obtain ⟨found, hfound, -⟩ := hw
    obtain ⟨hmem, hid⟩ := lookup_some hfound
    have honce := ho.once
    rw [State.copies, hchannel, List.append_assoc] at honce
    refine (List.nodup_append.mp honce).2.2 heartbeat.id ?_ heartbeat.id ?_ rfl
    · simp [Message.registers]
    · rw [← hsame, ← hid]
      exact List.mem_append_left _ (List.mem_map_of_mem hmem)
  | complete id =>
    have hdropped : s.Has id fun phase => phase.droppedAt ≠ none :=
      ho.finished id (Or.inl (hchannel ▸ List.mem_cons_self))
    cases hfound : lookup s.heartbeats id with
    | none =>
      simp only [receive, hfound] at hheld ⊢
      exact h.keep le_rfl rfl hheld hself fun _ _ _ _ hw => hw
    | some heartbeat =>
      simp only [receive, hfound] at hheld ⊢
      refine h.keep le_rfl rfl hheld hself fun i other hi hnone hw => ?_
      refine hw.remove ?_
      rintro rfl
      exact ho.phase hi hdropped hnone

/-- A step of the watcher that reports nothing and leaves its map alone. -/
theorem State.Accounted.look (h : s.Accounted) (hnext : s.nextId ≤ s'.nextId)
    (hreports : s'.reports = s.reports) (hguards : s'.guards = s.guards)
    (hheartbeats : s'.heartbeats = s.heartbeats)
    (hheld : ∀ heartbeat, s'.Holds heartbeat → heartbeat.warned = true → s.Holds heartbeat) :
    s'.Accounted :=
  h.keep hnext hreports hheld
    (fun _ other hi hnone => Or.inr ⟨other, hguards ▸ hi, rfl, hnone⟩)
    fun _ _ _ _ hw => hheartbeats ▸ hw

theorem accounted_drop (ho : s.Orderly) (h : s.Accounted) (hg : s.guards[g]? = some guard)
    (dropSite : CallSite) (now stamp : ℕ) :
    (dropGuard origin g guard dropSite now stamp s).Accounted := by
  rw [dropGuard]
  split
  · refine h.report rfl rfl (lt_nextId ho (p := fun _ => True) ⟨g, guard, hg, rfl, trivial⟩)
      (fun _ hh _ => Or.inr hh) (fun _ other hi hnone => ?_) (fun _ hw => hw)
      fun i other hi hid hnone => ?_
    · obtain ⟨rfl, rfl⟩ | ⟨-, hold⟩ := Slots.getElem?_set_cases hi
      · cases hnone
      · exact hold
    · obtain ⟨rfl, rfl⟩ | ⟨hne, hold⟩ := Slots.getElem?_set_cases hi
      · cases hnone
      · exact absurd (ho.place hold hg hid) hne
  · exact h.advance hg rfl nofun rfl rfl rfl fun _ hh _ => hh

theorem accounted_judge (ho : s.Orderly) (h : s.Accounted)
    (hwatcher : s.watcher = .completing heartbeat) (now stamp : ℕ) :
    (judge origin heartbeat now stamp s).Accounted := by
  have hfinished : s.Has heartbeat.id fun phase => phase.droppedAt ≠ none :=
    ho.finished _ (Or.inr (by rw [hwatcher]; exact List.mem_singleton_self _))
  rw [judge]
  split
  · refine h.report rfl rfl (lt_nextId ho hfinished)
      (fun _ hh _ => Or.inr (hh.of_watcher rfl rfl nofun)) (fun _ _ hi _ => hi)
      (fun _ hw => hw) fun i other hi hid hnone => ?_
    have hsame : other.id = heartbeat.id := hid
    exact absurd hnone (ho.phase hi (hsame ▸ hfinished))
  · exact h.look le_rfl rfl rfl rfl fun _ hh _ => hh.of_watcher rfl rfl nofun

theorem accounted_visit (ho : s.Orderly) (h : s.Accounted)
    (hfound : lookup s.heartbeats id = some heartbeat) (now stamp : ℕ) (left : List ℕ) :
    (visit origin heartbeat now stamp { s with watcher := .sweeping now left }).Accounted := by
  obtain ⟨hmem, hid⟩ := lookup_some hfound
  rw [visit]
  split
  · refine h.report rfl rfl (lt_nextId ho (ho.sent _ (State.Holds.mem_copies (Or.inr (Or.inl hmem)))))
      (fun other hother hw => ?_) (fun _ _ hi _ => hi) (fun _ hw => hw.mark) fun _ other _ hsame _ => ?_
    · obtain hc | hm | hcompleting := hother
      · exact Or.inr (Or.inl hc)
      · obtain ⟨old, hold, rfl⟩ := List.mem_map.mp hm
        by_cases hmarked : old.id = heartbeat.id
        · rw [if_pos hmarked]
          exact Or.inl hmarked
        · rw [if_neg hmarked]
          exact Or.inr (Or.inr (Or.inl hold))
      · cases hcompleting
    · have hother : other.id = heartbeat.id := hsame
      rw [hother]
      exact warned_mark (hid ▸ hfound)
  · exact h.look le_rfl rfl rfl rfl fun _ hh _ => hh.of_watcher rfl rfl nofun

theorem accounted_step (ho : s.Orderly) (h : s.Accounted) (hs : step origin last s a = some s') :
    s'.Accounted := by
  cases moves_of_step hs with
  | create name duration callsite context now hclock =>
    -- an id above every earlier one has not been reported
    refine h.keep (Nat.le_succ _) rfl (fun _ hh _ => hh) (fun i other hi hnone => ?_)
      (fun _ _ _ _ hw => hw)
    obtain hold | rfl := Slots.getElem?_append_cases hi
    · exact Or.inr ⟨other, hold, rfl, hnone⟩
    · exact Or.inl le_rfl
  | inert name duration callsite context enabled now nextId hclock hnext =>
    exact h.look hnext rfl rfl rfl fun _ hh _ => hh
  | register g guard spawned hg hphase =>
    -- the heartbeat that is sent is not marked
    refine h.advance hg rfl (fun _ => by rw [hphase]; rfl) rfl rfl rfl fun heartbeat hh hw => ?_
    obtain hc | hm | hcompleting := hh
    · obtain hold | hnew := mem_send hc
      · exact Or.inl hold
      · cases hnew
        cases hw
    · exact Or.inr (Or.inl hm)
    · refine Or.inr (Or.inr ?_)
      have hspawn : spawnWatcher s.watcher spawned = .completing heartbeat := hcompleting
      cases hwatcher : s.watcher <;> rw [hwatcher] at hspawn <;> cases spawned <;> cases hspawn <;> rfl
  | drop g guard dropSite now stamp hg hlive hclock hstamp =>
    exact accounted_drop ho h hg dropSite now stamp
  | complete g guard droppedAt hg hphase =>
    refine h.advance hg rfl nofun rfl rfl rfl fun heartbeat hh _ => ?_
    obtain hc | hrest := hh
    · exact Or.inl ((mem_send hc).resolve_right nofun)
    · exact Or.inr hrest
  | receive message channel hwatcher hchannel => exact accounted_receive ho h hchannel
  | timeout now deadline hwatcher hclock hdeadline hdue =>
    exact h.look le_rfl rfl rfl rfl fun _ hh _ => hh.of_watcher rfl rfl nofun
  -- the only reports of the watcher are made here and in a visit
  | judge heartbeat now stamp hwatcher hclock hstamp =>
    exact accounted_judge ho h hwatcher now stamp
  | readClock now hwatcher hclock =>
    exact h.look le_rfl rfl rfl rfl fun _ hh _ => hh.of_watcher rfl rfl nofun
  | visit heartbeat now stamp left hwatcher hleft hclock hfound =>
    exact accounted_visit ho h hfound now stamp (left.erase heartbeat.id)
  | sweepEnd now hwatcher =>
    exact h.look le_rfl rfl rfl rfl fun _ hh _ => hh.of_watcher rfl rfl nofun

end Logwise.Legacy.Heartbeats
