import Logwise.Legacy.Watcher
import Logwise.Library.Transition

/-!
# Heartbeats finished in time

Three places may report a heartbeat: the destructor of its guard, the watcher's handling of
`Complete` and the sweep after each message. Each compares the deadline with a reading of its own,
while the `Complete` of a guard dropped in time may still be in the channel.
-/

namespace Logwise.Legacy.Heartbeats

variable {origin last : ℕ} {s s' : State} {a : Action} {g id : ℕ} {guard : HeartbeatGuard}
  {heartbeat : Heartbeat}

/-- The guard's drop has read a time not after its deadline. -/
def State.DroppedInTime (s : State) (id : ℕ) : Prop :=
  ∃ guard ∈ s.guards, guard.id = id ∧ ∃ droppedAt ∈ guard.phase.droppedAt, droppedAt ≤ guard.deadline

/-- No heartbeat finished in time is reported. -/
def State.InTimeUnreported (s : State) : Prop :=
  ∀ report ∈ s.reports, ¬ s.DroppedInTime report.id

/-- Once a guard is dropped in time, the watcher compares no reading at or past the deadline with
its heartbeat, and a guard dropped at the very instant of its deadline has not been warned of. -/
def Timely (s : State) : Action → Prop
  | .drop g _ now _ => ∀ guard, s.guards[g]? = some guard → now ≤ guard.deadline →
    ¬ Warned s.heartbeats guard.id
  | .judge now _ => ∀ heartbeat, s.watcher = .completing heartbeat →
    s.DroppedInTime heartbeat.id → now < heartbeat.deadline
  | .visit id _ => ∀ now left heartbeat, s.watcher = .sweeping now left →
    lookup s.heartbeats id = some heartbeat → s.DroppedInTime id → now < heartbeat.deadline
  | _ => True

theorem droppedInTime_set {phase : GuardPhase} (hg : s.guards[g]? = some guard)
    (hguards : s'.guards = s.guards.set g { guard with phase := phase }) (h : s'.DroppedInTime id) :
    s.DroppedInTime id ∨
      id = guard.id ∧ ∃ droppedAt ∈ phase.droppedAt, droppedAt ≤ guard.deadline := by
  obtain ⟨other, hother, rfl, hintime⟩ := h
  rw [hguards] at hother
  obtain ⟨i, hi⟩ := List.mem_iff_getElem?.mp hother
  obtain ⟨rfl, rfl⟩ | ⟨-, hold⟩ := Slots.getElem?_set_cases hi
  · exact Or.inr ⟨rfl, hintime⟩
  · exact Or.inl ⟨other, List.mem_of_getElem? hold, rfl, hintime⟩

theorem State.InTimeUnreported.keep (h : s.InTimeUnreported) (hreports : s'.reports = s.reports)
    (hdropped : ∀ id, s'.DroppedInTime id → s.DroppedInTime id) : s'.InTimeUnreported :=
  fun report hr hd => h report (hreports ▸ hr) (hdropped _ hd)

theorem State.InTimeUnreported.report {report : Report} (h : s.InTimeUnreported)
    (hreports : s'.reports = report :: s.reports) (hguards : s'.guards = s.guards)
    (hlate : ¬ s.DroppedInTime report.id) : s'.InTimeUnreported := by
  have hsame : ∀ id, s'.DroppedInTime id → s.DroppedInTime id := by
    rintro id ⟨guard, hguard, hrest⟩
    exact ⟨guard, hguards ▸ hguard, hrest⟩
  intro other ho hd
  rw [hreports] at ho
  obtain rfl | hold := List.mem_cons.mp ho
  · exact hlate (hsame _ hd)
  · exact h other hold (hsame _ hd)

theorem unreported_drop (ho : s.Orderly) (ha : s.Accounted) (h : s.InTimeUnreported)
    (hg : s.guards[g]? = some guard) (hlive : guard.phase = .live) {now : ℕ}
    (htimely : now ≤ guard.deadline → ¬ Warned s.heartbeats guard.id) (dropSite : CallSite)
    (stamp : ℕ) : (dropGuard origin g guard dropSite now stamp s).InTimeUnreported := by
  have hnone : guard.phase.droppedAt = none := by rw [hlive]; rfl
  have hbefore : ∀ {id : ℕ}, s.DroppedInTime id → id ≠ guard.id := by
    rintro _ ⟨other, hother, hid, droppedAt, hdropped, -⟩ rfl
    obtain ⟨i, hi⟩ := List.mem_iff_getElem?.mp hother
    have hphase := ho.phase hg (p := fun phase => phase.droppedAt ≠ none)
      ⟨i, other, hi, hid, fun hno => by cases hno.symm.trans hdropped⟩
    exact hphase hnone
  rw [dropGuard]
  split
  next hlate =>
    intro report hr hd
    have hold : s.DroppedInTime report.id := by
      refine (droppedInTime_set hg rfl hd).resolve_right ?_
      rintro ⟨-, droppedAt, hdropped, hle⟩
      cases hdropped
      exact absurd hlate (Nat.not_lt.mpr hle)
    obtain rfl | hr := List.mem_cons.mp hr
    · exact hbefore hold rfl
    · exact h report hr hold
  next hintime =>
    intro report hr hd
    obtain hold | ⟨hid, -⟩ := droppedInTime_set hg rfl hd
    · exact h report hr hold
    · exact htimely (Nat.not_lt.mp hintime) (ha.remembered report hr g guard hg hid.symm hnone)

theorem unreported_step (ho : s.Orderly) (ha : s.Accounted) (h : s.InTimeUnreported)
    (htimely : Timely s a) (hs : step origin last s a = some s') : s'.InTimeUnreported := by
  cases moves_of_step hs with
  | create name duration callsite context now hclock =>
    -- a guard that was just created is not dropped
    refine h.keep rfl ?_
    rintro id ⟨other, hother, hid, droppedAt, hdropped, hle⟩
    obtain hold | hnew := List.mem_append.mp hother
    · exact ⟨other, hold, hid, droppedAt, hdropped, hle⟩
    · rw [List.mem_singleton.mp hnew] at hdropped
      cases hdropped
  | inert name duration callsite context enabled now nextId hclock hnext => exact h.keep rfl fun _ hd => hd
  | register g guard spawned hg hphase =>
    refine h.keep rfl fun id hd => (droppedInTime_set hg rfl hd).resolve_right ?_
    rintro ⟨-, droppedAt, hdropped, -⟩
    cases hdropped
  | drop g guard dropSite now stamp hg hlive hclock hstamp =>
    -- the destructor reports late drops itself
    exact unreported_drop ho ha h hg hlive (htimely guard hg) dropSite stamp
  | complete g guard droppedAt hg hphase =>
    -- sending `Complete` does not change when the guard was dropped
    refine h.keep rfl fun id hd => ?_
    obtain hold | ⟨rfl, hintime⟩ := droppedInTime_set hg rfl hd
    · exact hold
    · refine ⟨guard, List.mem_of_getElem? hg, rfl, ?_⟩
      rw [hphase]
      exact hintime
  | receive message channel hwatcher hchannel =>
    cases message with
    | register heartbeat => exact h.keep rfl fun _ hd => hd
    | complete id =>
      simp only [receive]
      split <;> exact h.keep rfl fun _ hd => hd
  | timeout now deadline hwatcher hclock hdeadline hdue => exact h.keep rfl fun _ hd => hd
  | judge heartbeat now stamp hwatcher hclock hstamp =>
    -- timely: the reading of a heartbeat finished in time is before its deadline
    rw [judge]
    split
    next hlate =>
      refine h.report rfl rfl fun hd => ?_
      exact absurd hlate.2 (Nat.not_le.mpr (htimely heartbeat hwatcher hd))
    next => exact h.keep rfl fun _ hd => hd
  | readClock now hwatcher hclock => exact h.keep rfl fun _ hd => hd
  | visit heartbeat now stamp left hwatcher hleft hclock hfound =>
    -- and so is the reading of the sweep
    rw [visit]
    split
    next hlate =>
      refine h.report rfl rfl fun hd => ?_
      exact absurd hlate.2 (Nat.not_le.mpr (htimely now left heartbeat hwatcher hfound hd))
    next => exact h.keep rfl fun _ hd => hd
  | sweepEnd now hwatcher => exact h.keep rfl fun _ hd => hd

/-- A heartbeat that is not reported yet is not marked. -/
theorem unwarned_of_droppedInTime (ha : s.Accounted) (h : s.InTimeUnreported)
    (hholds : s.Holds heartbeat) (hd : s.DroppedInTime heartbeat.id) : heartbeat.warned = false := by
  cases hwarned : heartbeat.warned with
  | false => rfl
  | true =>
    obtain ⟨report, hr, hid⟩ := ha.recalled heartbeat hholds hwarned
    exact absurd (hid ▸ hd) (h report hr)

/-- A step that is not timely reports a heartbeat finished in time. -/
theorem unreported_break (ha : s.Accounted) (h : s.InTimeUnreported) (hno : ¬ Timely s a)
    (hs : step origin last s a = some s') : ¬ s'.InTimeUnreported := by
  intro hafter
  cases moves_of_step hs with
  | drop g guard dropSite now stamp hg hlive hclock hstamp =>
    -- dropped exactly at the deadline, and marked by a sweep before
    refine hno fun other hother hle hwarned => ?_
    cases hg.symm.trans hother
    obtain ⟨heartbeat, hfound, hw⟩ := hwarned
    obtain ⟨hmem, hid⟩ := lookup_some hfound
    obtain ⟨report, hr, hsame⟩ := ha.recalled heartbeat (Or.inr (Or.inl hmem)) hw
    rw [dropGuard, if_neg (Nat.not_lt.mpr hle)] at hafter
    refine hafter report hr ⟨{ guard with phase := .completing now }, ?_, ?_, now, rfl, hle⟩
    · exact List.mem_of_getElem? (Slots.getElem?_set_of_some hg)
    · exact (hsame.trans hid).symm
  | judge heartbeat now stamp hwatcher hclock hstamp =>
    refine hno fun other hother hd => Nat.not_le.mp fun hle => ?_
    cases hwatcher.symm.trans hother
    have hunwarned := unwarned_of_droppedInTime ha h (Or.inr (Or.inr hwatcher)) hd
    rw [judge, if_pos ⟨hunwarned, hle⟩] at hafter
    exact hafter _ List.mem_cons_self hd
  | visit heartbeat now stamp left hwatcher hleft hclock hfound =>
    refine hno fun now' left' other hother hfound' hd => Nat.not_le.mp fun hle => ?_
    cases hwatcher.symm.trans hother
    cases hfound.symm.trans hfound'
    have hmem := (lookup_some hfound).1
    have hunwarned := unwarned_of_droppedInTime ha h (Or.inr (Or.inl hmem)) hd
    rw [visit, if_pos ⟨hunwarned, hle⟩] at hafter
    exact hafter _ List.mem_cons_self hd
  | _ => exact hno trivial

/-- **When a heartbeat finished in time is never reported**: in every state a run goes through no
record is about a guard that was dropped in time, exactly when each of its steps is timely. -/
theorem in_time_unreported_iff (origin last : ℕ) (as : List Action) :
    Transition.Throughout (step origin last) State.InTimeUnreported initial as ↔
      Transition.Admitted (step origin last) Timely initial as := by
  refine Transition.throughout_iff_admitted
    (I := fun s => s.Orderly ∧ s.Accounted ∧ s.InTimeUnreported) ?_ ?_ ?_ ?_
  · rintro s ⟨-, -, h⟩
    exact h
  · rintro s a t ⟨ho, ha, h⟩ htimely hs
    exact ⟨orderly_step ho hs, accounted_step ho ha hs, unreported_step ho ha h htimely hs⟩
  · rintro s a t ⟨-, ha, h⟩ hno hs
    exact unreported_break ha h hno hs
  · exact ⟨orderly_initial, accounted_initial, fun _ hr => by cases hr⟩

/-- A guard with ten nanoseconds is registered, and dropped after nine; the watcher gets to its
`Complete` after twelve. -/
def delayedCompletion : List Action :=
  [.create "frame" 10 { file := "src/main.rs", line := 10, column := 5 } (.root 0 false 0) true 0,
    .register 0 true, .receive, .readClock 1, .visit 1 1, .sweepEnd,
    .drop 0 { file := "src/main.rs", line := 20, column := 1 } 9 9, .complete 0,
    .receive, .judge 12 12]

theorem delayed_completion_reported : ∃ s,
    Transition.Reaches (step 0 100) Transition.always initial s ∧
      s.DroppedInTime 1 ∧ ∃ report ∈ s.reports, report.id = 1 := by
  obtain ⟨s, hrun, ⟨guard, hguard, hid, hdropped⟩, hreported⟩ :=
    Transition.exists_reaches (step 0 100) Transition.always initial
      (fun s => (∃ guard ∈ s.guards, guard.id = 1 ∧
        ∃ droppedAt ∈ guard.phase.droppedAt, droppedAt ≤ guard.deadline) ∧
          ∃ report ∈ s.reports, report.id = 1) delayedCompletion (by decide)
  exact ⟨s, hrun, ⟨guard, hguard, hid, hdropped⟩, hreported⟩

end Logwise.Legacy.Heartbeats
