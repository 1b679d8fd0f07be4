import Logwise.Legacy.Watcher
import Logwise.Library.Transition
import Mathlib.Data.List.Nodup
import Mathlib.Order.Bounds.Basic

/-!
# The watcher's loop

`heartbeat_loop` by itself, fed any messages at any time and woken whenever it waits with a timeout.
The handling of `Complete` and the sweep both report a missed deadline, and the mark on the entry is
what they share.
-/

namespace Logwise.Legacy.WatcherLoop

open Heartbeats

structure Loop where
  state : State
  /-- Oldest first. -/
  sent : List Message
  /-- The ids whose `Complete` has been processed. -/
  completed : List ℕ

def initial : Loop :=
  { state := { Heartbeats.initial with watcher := .receiving }, sent := [], completed := [] }

def Loop.registered (l : Loop) : List ℕ := l.sent.filterMap Message.registers

inductive Action where
  | send (message : Message)
  | receive
  | timeout
  /-- Every sender is gone. -/
  | disconnect
  | judge (now stamp : ℕ)
  | readClock (now : ℕ)
  | visit (id stamp : ℕ)
  | sweepEnd

/-- The `Complete` the step is done with. -/
def processed (s : State) : Heartbeats.Action → Option ℕ
  | .receive =>
    match s.channel with
    | .complete id :: _ => if lookup s.heartbeats id = none then some id else none
    | _ => none
  | .judge _ _ =>
    match s.watcher with
    | .completing heartbeat => some heartbeat.id
    | _ => none
  | _ => none

/-- The loop creates no guards, so that the latest `Instant` does not matter. -/
def Loop.watch (origin : ℕ) (l : Loop) (a : Heartbeats.Action) : Option Loop :=
  (Heartbeats.step origin 0 l.state a).map fun state =>
    { l with state := state, completed := (processed l.state a).toList ++ l.completed }

def Loop.wait (l : Loop) (watcher : Watcher) : Loop :=
  { l with state := { l.state with watcher := watcher } }

def Loop.post (l : Loop) (message : Message) : Loop :=
  { l with
    state := { l.state with channel := send l.state.watcher l.state.channel message }
    sent := l.sent ++ [message] }

def step (origin : ℕ) (l : Loop) : Action → Option Loop
  | .send message => some (l.post message)
  | .receive => l.watch origin .receive
  | .timeout =>
    -- without a deadline `recv_sync` waits for a message
    if l.state.watcher = .receiving ∧ (nextDeadline l.state.heartbeats).isSome = true then
      some (l.wait .checking)
    else none
  | .disconnect =>
    if l.state.watcher = .receiving ∧ l.state.channel = [] then some (l.wait .gone) else none
  | .judge now stamp => l.watch origin (.judge now stamp)
  | .readClock now => l.watch origin (.readClock now)
  | .visit id stamp => l.watch origin (.visit id stamp)
  | .sweepEnd => l.watch origin .sweepEnd

/-- Ids are registered once, before they are completed, and by `HeartbeatGuard::new`. -/
def Proper (l : Loop) : Action → Prop
  | .send (.register heartbeat) => heartbeat.warned = false ∧ heartbeat.id ∉ l.registered
  | .send (.complete id) => id ∈ l.registered
  | _ => True

instance (l : Loop) : (a : Action) → Decidable (Proper l a)
  | .send (.register _) => inferInstanceAs (Decidable (_ ∧ _))
  | .send (.complete _) => inferInstanceAs (Decidable (_ ∈ _))
  | .receive | .timeout | .disconnect | .judge _ _ | .readClock _ | .visit _ _ | .sweepEnd =>
    inferInstanceAs (Decidable True)

variable {origin : ℕ} {l l' : Loop} {a : Action}

/-- What a step can do. -/
inductive Moves (origin : ℕ) (l : Loop) : Loop → Prop
  | register (heartbeat : Heartbeat) (hwarned : heartbeat.warned = false)
      (hnew : heartbeat.id ∉ l.registered) : Moves origin l (l.post (.register heartbeat))
  | complete (id : ℕ) (hid : id ∈ l.registered) : Moves origin l (l.post (.complete id))
  | receive (message : Message) (channel : List Message) (ended : List ℕ)
      (hwatcher : l.state.watcher = .receiving) (hchannel : l.state.channel = message :: channel)
      (hended : ∀ id ∈ ended, message = .complete id ∧ lookup l.state.heartbeats id = none) :
      Moves origin l { l with
        state := Heartbeats.receive { l.state with channel := channel } message
        completed := ended ++ l.completed }
  | wait (watcher : Watcher) (hheld : held watcher = [])
      (hsweep : ∀ now left, watcher ≠ .sweeping now left) : Moves origin l (l.wait watcher)
  | judge (heartbeat : Heartbeat) (now stamp : ℕ)
      (hwatcher : l.state.watcher = .completing heartbeat) :
      Moves origin l { l with
        state := Heartbeats.judge origin heartbeat now stamp l.state
        completed := heartbeat.id :: l.completed }
  | readClock (now : ℕ) (hwatcher : l.state.watcher = .checking) :
      Moves origin l { l with
        state := { l.state with
          watcher := .sweeping now (l.state.heartbeats.map Heartbeat.id), clock := now } }
  | visit (heartbeat : Heartbeat) (now stamp : ℕ) (left : List ℕ)
      (hwatcher : l.state.watcher = .sweeping now left)
      (hfound : lookup l.state.heartbeats heartbeat.id = some heartbeat) :
      Moves origin l { l with
        state := Heartbeats.visit origin heartbeat now stamp
          { l.state with watcher := .sweeping now (left.erase heartbeat.id) } }

theorem moves_of_step (hok : Proper l a) (hs : step origin l a = some l') : Moves origin l l' := by
  cases a with
  | send message =>
    cases hs
    cases message with
    | register heartbeat => exact .register heartbeat hok.1 hok.2
    | complete id => exact .complete id hok
  | receive =>
    obtain ⟨state, hstate, rfl⟩ := Option.map_eq_some_iff.mp hs
    cases Heartbeats.moves_of_step hstate with
    | receive message channel hwatcher hchannel =>
      refine .receive message channel _ hwatcher hchannel fun id hid => ?_
      simp only [processed, hchannel] at hid
      cases message with
      | register heartbeat => cases hid
      | complete other =>
        dsimp only at hid
        split at hid
        next hnone =>
          cases List.mem_singleton.mp hid
          exact ⟨rfl, hnone⟩
        next => cases hid
  | timeout =>
    simp only [step] at hs
    split at hs <;> cases hs
    exact .wait .checking rfl fun _ _ => Watcher.noConfusion
  | disconnect =>
    simp only [step] at hs
    split at hs <;> cases hs
    exact .wait .gone rfl fun _ _ => Watcher.noConfusion
  | judge now stamp =>
    obtain ⟨state, hstate, rfl⟩ := Option.map_eq_some_iff.mp hs
    cases Heartbeats.moves_of_step hstate with
    | judge heartbeat now stamp hwatcher hclock hstamp =>
      simp only [processed, hwatcher]
      exact .judge heartbeat now stamp hwatcher
  | readClock now =>
    obtain ⟨state, hstate, rfl⟩ := Option.map_eq_some_iff.mp hs
    cases Heartbeats.moves_of_step hstate with
    | readClock now hwatcher hclock => exact .readClock now hwatcher
  | visit id stamp =>
    obtain ⟨state, hstate, rfl⟩ := Option.map_eq_some_iff.mp hs
    cases Heartbeats.moves_of_step hstate with
    | visit heartbeat now stamp left hwatcher hleft hclock hfound =>
      exact .visit heartbeat now stamp left hwatcher hfound
  | sweepEnd =>
    obtain ⟨state, hstate, rfl⟩ := Option.map_eq_some_iff.mp hs
    cases Heartbeats.moves_of_step hstate with
    | sweepEnd now hwatcher => exact .wait .receiving rfl fun _ _ => Watcher.noConfusion

/-! ## One heartbeat for each id -/

/-- No id is registered behind its `Complete`. -/
def Ordered (channel : List Message) : Prop :=
  channel.Pairwise fun earlier later =>
    ∀ id, earlier = .complete id → Message.registers later ≠ some id

/-- Each id is registered once and has one copy, until its `Complete` is processed. -/
structure Loop.Orderly (l : Loop) : Prop where
  once : l.state.copies.Nodup
  registered : ∀ id ∈ l.state.copies, id ∈ l.registered
  announced : ∀ id, .complete id ∈ l.state.channel → id ∈ l.registered
  ordered : Ordered l.state.channel
  finished : ∀ id ∈ l.completed, id ∈ l.registered ∧ id ∉ l.state.copies

theorem orderly_initial : initial.Orderly where
  once := List.nodup_nil
  registered _ hid := by cases hid
  announced _ hid := by cases hid
  ordered := List.Pairwise.nil
  finished _ hid := by cases hid

/-- A step of the watcher, which makes no copy of a heartbeat. -/
theorem Loop.Orderly.keep (h : l.Orderly) (hsent : l'.sent = l.sent)
    (hcopies : l'.state.copies.Subperm l.state.copies)
    (hchannel : l'.state.channel.Sublist l.state.channel)
    (hcompleted : ∀ id ∈ l'.completed, id ∈ l.completed ∨
      id ∈ l.registered ∧ id ∉ l'.state.copies) : l'.Orderly := by
  have hregistered : l'.registered = l.registered := by rw [Loop.registered, hsent]; rfl
  refine ⟨nodup_of_subperm hcopies h.once, fun id hid => ?_, fun id hid => ?_,
    h.ordered.sublist hchannel, fun id hid => ?_⟩
  · rw [hregistered]
    exact h.registered id (hcopies.subset hid)
  · rw [hregistered]
    exact h.announced id (hchannel.subset hid)
  · rw [hregistered]
    obtain hold | hnew := hcompleted id hid
    · obtain ⟨hid, hgone⟩ := h.finished id hold
      exact ⟨hid, fun hm => hgone (hcopies.subset hm)⟩
    · exact hnew

theorem registered_post (l : Loop) (message : Message) :
    (l.post message).registered = l.registered ++ (Message.registers message).toList := by
  rw [Loop.registered, Loop.post, List.filterMap_append]
  cases message <;> rfl

/-- A message that is sent waits behind the others, or is dropped. -/
theorem ordered_send {watcher : Watcher} {channel : List Message} {message : Message}
    (h : Ordered channel)
    (hlast : ∀ id, .complete id ∈ channel → Message.registers message ≠ some id) :
    Ordered (send watcher channel message) := by
  rw [send]
  split
  · exact h
  · refine List.pairwise_append.mpr ⟨h, List.pairwise_singleton _ _, fun earlier he later hl => ?_⟩
    rintro id rfl
    rw [List.mem_singleton.mp hl]
    exact hlast id he

theorem orderly_register (h : l.Orderly) {heartbeat : Heartbeat}
    (hnew : heartbeat.id ∉ l.registered) : (l.post (.register heartbeat)).Orderly := by
  have hregistered : (l.post (.register heartbeat)).registered = l.registered ++ [heartbeat.id] :=
    registered_post l _
  have hcopies : (l.post (.register heartbeat)).state.copies.Subperm
      (heartbeat.id :: l.state.copies) := copies_send_register rfl heartbeat
  refine ⟨?_, fun id hid => ?_, fun id hid => ?_, ordered_send h.ordered ?_, fun id hid => ?_⟩
  · refine nodup_of_subperm hcopies ?_
    exact List.nodup_cons.mpr ⟨fun hm => hnew (h.registered _ hm), h.once⟩
  · rw [hregistered]
    obtain rfl | hold := List.mem_cons.mp (hcopies.subset hid)
    · exact List.mem_append_right _ (List.mem_singleton_self _)
    · exact List.mem_append_left _ (h.registered id hold)
  · rw [hregistered]
    obtain hold | hsent := mem_send hid
    · exact List.mem_append_left _ (h.announced id hold)
    · cases hsent
  · intro id hid he
    cases Option.some.inj he
    exact hnew (h.announced _ hid)
  · rw [hregistered]
    obtain ⟨hid, hgone⟩ := h.finished id hid
    refine ⟨List.mem_append_left _ hid, fun hm => ?_⟩
    obtain rfl | hold := List.mem_cons.mp (hcopies.subset hm)
    · exact hnew hid
    · exact hgone hold

theorem orderly_complete (h : l.Orderly) {id : ℕ} (hid : id ∈ l.registered) :
    (l.post (.complete id)).Orderly := by
  have hregistered : (l.post (.complete id)).registered = l.registered := by
    rw [registered_post]
    exact List.append_nil _
  have hcopies : (l.post (.complete id)).state.copies = l.state.copies := by
    show (send l.state.watcher l.state.channel (.complete id)).filterMap Message.registers ++ _ ++ _ = _
    rw [registers_send_complete]
    rfl
  refine ⟨?_, fun other hother => ?_, fun other hother => ?_, ordered_send h.ordered ?_,
    fun other hother => ?_⟩
  · rw [hcopies]
    exact h.once
  · rw [hregistered]
    exact h.registered other (hcopies ▸ hother)
  · rw [hregistered]
    obtain hold | hnew := mem_send hother
    · exact h.announced other hold
    · cases hnew
      exact hid
  · intro _ _ he
    cases he
  · rw [hregistered, hcopies]
    exact h.finished other hother

/-- What the handling of a message leaves alone. -/
theorem receive_frame (s : State) (message : Message) :
    (Heartbeats.receive s message).channel = s.channel ∧
      (Heartbeats.receive s message).reports = s.reports ∧
      ∀ now left, (Heartbeats.receive s message).watcher ≠ .sweeping now left := by
  cases message with
  | register heartbeat => exact ⟨rfl, rfl, fun _ _ => Watcher.noConfusion⟩
  | complete id =>
    rw [Heartbeats.receive]
    split <;> exact ⟨rfl, rfl, fun _ _ => Watcher.noConfusion⟩

theorem orderly_receive (h : l.Orderly) {message : Message} {channel : List Message}
    {ended : List ℕ} (hwatcher : l.state.watcher = .receiving)
    (hchannel : l.state.channel = message :: channel)
    (hended : ∀ id ∈ ended, message = .complete id ∧ lookup l.state.heartbeats id = none) :
    Loop.Orderly { l with
      state := receive { l.state with channel := channel } message
      completed := ended ++ l.completed } := by
  refine h.keep rfl (copies_receive hwatcher hchannel) ?_ fun id hid => ?_
  · show (receive { l.state with channel := channel } message).channel.Sublist _
    rw [(receive_frame _ message).1, hchannel]
    exact List.sublist_cons_self _ _
  · obtain hnew | hold := List.mem_append.mp hid
    · obtain ⟨rfl, hnone⟩ := hended id hnew
      refine Or.inr ⟨h.announced id (hchannel ▸ List.mem_cons_self), fun hm => ?_⟩
      -- no registration of the id is left behind its `Complete`
      simp only [receive, hnone, State.copies, held, List.append_nil] at hm
      obtain hlater | hin := List.mem_append.mp hm
      · obtain ⟨later, hlater, hregisters⟩ := List.mem_filterMap.mp hlater
        have hordered := h.ordered
        rw [hchannel] at hordered
        exact (List.pairwise_cons.mp hordered).1 later hlater id rfl hregisters
      · obtain ⟨heartbeat, hheartbeat, rfl⟩ := List.mem_map.mp hin
        have := List.find?_eq_none.mp hnone heartbeat hheartbeat
        exact this (decide_eq_true rfl)
    · exact Or.inl hold

theorem orderly_judge (h : l.Orderly) {heartbeat : Heartbeat}
    (hwatcher : l.state.watcher = .completing heartbeat) (now stamp : ℕ) :
    Loop.Orderly { l with
      state := judge origin heartbeat now stamp l.state
      completed := heartbeat.id :: l.completed } := by
  have hcopies : l.state.copies =
      (judge origin heartbeat now stamp l.state).copies ++ [heartbeat.id] := by
    rw [State.copies, hwatcher, judge]
    split <;> exact congrArg (· ++ [heartbeat.id]) (List.append_nil _).symm
  have honce := h.once
  rw [hcopies] at honce
  refine h.keep rfl ?_ ?_ fun id hid => ?_
  · rw [hcopies]
    exact (List.sublist_append_left _ _).subperm
  · rw [judge]
    split <;> exact List.Sublist.refl _
  · obtain rfl | hold := List.mem_cons.mp hid
    · refine Or.inr ⟨h.registered _ ?_, fun hm => ?_⟩
      · rw [hcopies]
        exact List.mem_append_right _ (List.mem_singleton_self _)
      · exact (List.nodup_append.mp honce).2.2 _ hm _ (List.mem_singleton_self _) rfl
    · exact Or.inl hold

theorem orderly_moves (h : l.Orderly) (hm : Moves origin l l') : l'.Orderly := by
  cases hm with
  | register heartbeat hwarned hnew => exact orderly_register h hnew
  | complete id hid => exact orderly_complete h hid
  | receive message channel ended hwatcher hchannel hended =>
    exact orderly_receive h hwatcher hchannel hended
  | wait watcher hheld hsweep =>
    refine h.keep rfl ?_ (List.Sublist.refl _) fun _ hid => Or.inl hid
    rw [Loop.wait, State.copies, State.copies]
    exact ((hheld ▸ List.nil_sublist _).append_left _).subperm
  | judge heartbeat now stamp hwatcher => exact orderly_judge h hwatcher now stamp
  | readClock now hwatcher =>
    refine h.keep rfl ?_ (List.Sublist.refl _) fun _ hid => Or.inl hid
    exact ((List.nil_sublist _).append_left _).subperm
  | visit heartbeat now stamp left hwatcher hfound =>
    refine h.keep rfl ?_ ?_ fun _ hid => Or.inl hid
    · have hcopies : (visit origin heartbeat now stamp
          { l.state with watcher := .sweeping now (left.erase heartbeat.id) }).copies =
            l.state.copies := by
        rw [State.copies, State.copies, hwatcher, visit]
        split
        · rw [map_id_markWarned]
          rfl
        · rfl
      exact hcopies ▸ List.Subperm.refl _
    · rw [visit]
      split <;> exact List.Sublist.refl _

/-! ## One report for each heartbeat -/

def reported (s : State) : List ℕ := s.reports.map Report.id

/-- The mark on a heartbeat tells whether it was reported, as long as the loop holds it. -/
structure Loop.Told (origin : ℕ) (l : Loop) : Prop where
  once : (reported l.state).Nodup
  known : ∀ id ∈ reported l.state, id ∈ l.registered
  marked : ∀ heartbeat, l.state.Holds heartbeat →
    (heartbeat.warned = true ↔ heartbeat.id ∈ reported l.state)
  genuine : ∀ heartbeat, l.state.Holds heartbeat → heartbeat.warned = false →
    .register heartbeat ∈ l.sent
  accurate : ∀ report ∈ l.state.reports, ∃ (heartbeat : Heartbeat) (now stamp : ℕ),
    .register heartbeat ∈ l.sent ∧ heartbeat.deadline ≤ now ∧
      report = missed origin heartbeat now stamp

theorem told_initial : initial.Told origin := by
  constructor <;> simp [initial, Heartbeats.initial, reported, State.Holds]

/-- A step that reports nothing, and holds nothing more than a heartbeat just sent. -/
theorem Loop.Told.keep (h : l.Told origin) (hreports : l'.state.reports = l.state.reports)
    (hsent : l.sent ⊆ l'.sent)
    (hheld : ∀ heartbeat, l'.state.Holds heartbeat → l.state.Holds heartbeat ∨
      heartbeat.warned = false ∧ heartbeat.id ∉ l.registered ∧ .register heartbeat ∈ l'.sent) :
    l'.Told origin := by
  have hreported : reported l'.state = reported l.state := by rw [reported, hreports]; rfl
  refine ⟨?_, fun id hid => ?_, fun heartbeat hh => ?_, fun heartbeat hh hw => ?_,
    fun report hr => ?_⟩
  · rw [hreported]
    exact h.once
  · rw [hreported] at hid
    exact (List.filterMap_subset _ hsent) (h.known id hid)
  · rw [hreported]
    obtain hold | ⟨hw, hnew, -⟩ := hheld heartbeat hh
    · exact h.marked heartbeat hold
    · rw [hw]
      exact iff_of_false Bool.false_ne_true fun hid => hnew (h.known _ hid)
  · obtain hold | ⟨-, -, hnew⟩ := hheld heartbeat hh
    · exact hsent (h.genuine heartbeat hold hw)
    · exact hnew
  · rw [hreports] at hr
    obtain ⟨heartbeat, now, stamp, hregister, hlate, rfl⟩ := h.accurate report hr
    exact ⟨heartbeat, now, stamp, hsent hregister, hlate, rfl⟩

/-- A heartbeat is reported that is marked from then on, or no longer held. -/
theorem Loop.Told.report (h : l.Told origin) (ho : l.Orderly) {heartbeat : Heartbeat} {now stamp : ℕ}
    (hholds : l.state.Holds heartbeat) (hwarned : heartbeat.warned = false)
    (hlate : heartbeat.deadline ≤ now) (hsent : l'.sent = l.sent)
    (hreports : l'.state.reports = missed origin heartbeat now stamp :: l.state.reports)
    (hheld : ∀ other, l'.state.Holds other →
      l.state.Holds other ∧ other.id ≠ heartbeat.id ∨
        other.id = heartbeat.id ∧ other.warned = true) : l'.Told origin := by
  have hreported : reported l'.state = heartbeat.id :: reported l.state := by
    rw [reported, hreports]; rfl
  have hregistered : l'.registered = l.registered := by rw [Loop.registered, hsent]; rfl
  have hnew : heartbeat.id ∉ reported l.state := fun hid => by
    have := (h.marked heartbeat hholds).mpr hid
    rw [hwarned] at this
    cases this
  refine ⟨?_, fun id hid => ?_, fun other hother => ?_, fun other hother hw => ?_,
    fun report hr => ?_⟩
  · rw [hreported]
    exact List.nodup_cons.mpr ⟨hnew, h.once⟩
  · rw [hregistered]
    rw [hreported] at hid
    obtain rfl | hold := List.mem_cons.mp hid
    · exact ho.registered _ hholds.mem_copies
    · exact h.known id hold
  · rw [hreported, List.mem_cons]
    obtain ⟨hold, hne⟩ | ⟨hsame, hw⟩ := hheld other hother
    · rw [h.marked other hold, or_iff_right hne]
    · exact iff_of_true hw (Or.inl hsame)
  · rw [hsent]
    obtain ⟨hold, -⟩ | ⟨-, hmark⟩ := hheld other hother
    · exact h.genuine other hold hw
    · rw [hw] at hmark
      cases hmark
  · rw [hsent]
    rw [hreports] at hr
    obtain rfl | hold := List.mem_cons.mp hr
    · exact ⟨heartbeat, now, stamp, h.genuine heartbeat hholds hwarned, hlate, rfl⟩
    · exact h.accurate report hold

variable {heartbeat other : Heartbeat}

theorem ne_of_register {s : State} (honce : s.copies.Nodup) (hother : .register other ∈ s.channel)
    (hheartbeat : heartbeat ∈ s.heartbeats) : other.id ≠ heartbeat.id := by
  rw [State.copies, List.append_assoc] at honce
  refine (List.nodup_append.mp honce).2.2 other.id ?_ heartbeat.id ?_
  · exact List.mem_filterMap.mpr ⟨.register other, hother, rfl⟩
  · exact List.mem_append_left _ (List.mem_map_of_mem hheartbeat)

theorem ne_of_completing {s : State} (honce : s.copies.Nodup)
    (hwatcher : s.watcher = .completing heartbeat)
    (hother : .register other ∈ s.channel ∨ other ∈ s.heartbeats) : other.id ≠ heartbeat.id := by
  rw [State.copies, hwatcher] at honce
  refine (List.nodup_append.mp honce).2.2 other.id ?_ heartbeat.id (List.mem_singleton_self _)
  obtain hc | hm := hother
  · exact List.mem_append_left _ (List.mem_filterMap.mpr ⟨.register other, hc, rfl⟩)
  · exact List.mem_append_right _ (List.mem_map_of_mem hm)

theorem told_judge (ho : l.Orderly) (h : l.Told origin)
    (hwatcher : l.state.watcher = .completing heartbeat) (now stamp : ℕ) (completed : List ℕ) :
    Loop.Told origin { l with
      state := judge origin heartbeat now stamp l.state, completed := completed } := by
  rw [judge]
  split
  next hlate =>
    refine h.report ho (Or.inr (Or.inr hwatcher)) hlate.1 hlate.2 rfl rfl fun other hother => ?_
    obtain hc | hm | hcompleting := hother
    · exact Or.inl ⟨Or.inl hc, ne_of_completing ho.once hwatcher (Or.inl hc)⟩
    · exact Or.inl ⟨Or.inr (Or.inl hm), ne_of_completing ho.once hwatcher (Or.inr hm)⟩
    · cases hcompleting
  next =>
    refine h.keep rfl (List.Subset.refl _) fun other hother => Or.inl ?_
    exact hother.of_watcher rfl rfl Watcher.noConfusion

theorem told_visit (ho : l.Orderly) (h : l.Told origin)
    (hfound : lookup l.state.heartbeats heartbeat.id = some heartbeat) (now stamp : ℕ)
    (left : List ℕ) :
    Loop.Told origin { l with
      state := visit origin heartbeat now stamp { l.state with watcher := .sweeping now left } } := by
  have hmem : heartbeat ∈ l.state.heartbeats := (lookup_some hfound).1
  rw [visit]
  split
  next hlate =>
    refine h.report ho (Or.inr (Or.inl hmem)) hlate.1 hlate.2 rfl rfl fun other hother => ?_
    obtain hc | hm | hcompleting := hother
    · exact Or.inl ⟨Or.inl hc, ne_of_register ho.once hc hmem⟩
    · obtain ⟨old, hold, rfl⟩ := List.mem_map.mp hm
      by_cases hmarked : old.id = heartbeat.id
      · rw [if_pos hmarked]
        exact Or.inr ⟨hmarked, rfl⟩
      · rw [if_neg hmarked]
        exact Or.inl ⟨Or.inr (Or.inl hold), hmarked⟩
    · cases hcompleting
  next =>
    refine h.keep rfl (List.Subset.refl _) fun other hother => Or.inl ?_
    exact hother.of_watcher rfl rfl Watcher.noConfusion

theorem told_moves (ho : l.Orderly) (h : l.Told origin) (hm : Moves origin l l') : l'.Told origin := by
  cases hm with
  | register heartbeat hwarned hnew =>
    refine h.keep rfl (List.subset_append_left _ _) fun other hother => ?_
    obtain hc | hrest := hother
    · obtain hold | hsent := mem_send hc
      · exact Or.inl (Or.inl hold)
      · cases hsent
        exact Or.inr ⟨hwarned, hnew, List.mem_append_right _ (List.mem_singleton_self _)⟩
    · exact Or.inl (Or.inr hrest)
  | complete id hid =>
    refine h.keep rfl (List.subset_append_left _ _) fun other hother => Or.inl ?_
    obtain hc | hrest := hother
    · obtain hold | hsent := mem_send hc
      · exact Or.inl hold
      · cases hsent
    · exact Or.inr hrest
  | receive message channel ended hwatcher hchannel hended =>
    refine h.keep (receive_frame _ message).2.1 (List.Subset.refl _) fun other hother => Or.inl ?_
    exact holds_receive hchannel hother
  | wait watcher hheld hsweep =>
    refine h.keep rfl (List.Subset.refl _) fun other hother => Or.inl ?_
    refine hother.of_watcher rfl rfl fun hcompleting => ?_
    have hwatcher : watcher = .completing other := hcompleting
    rw [hwatcher] at hheld
    cases hheld
  | judge heartbeat now stamp hwatcher => exact told_judge ho h hwatcher now stamp _
  | readClock now hwatcher =>
    refine h.keep rfl (List.Subset.refl _) fun other hother => Or.inl ?_
    exact hother.of_watcher rfl rfl Watcher.noConfusion
  | visit heartbeat now stamp left hwatcher hfound => exact told_visit ho h hfound now stamp _

/-! ## No deadline missed by a sweep -/

/-- What a sweep is done with is marked if it was due. -/
def Loop.Swept (l : Loop) : Prop :=
  ∀ now left, l.state.watcher = .sweeping now left → ∀ heartbeat ∈ l.state.heartbeats,
    heartbeat.id ∉ left → heartbeat.deadline ≤ now → heartbeat.warned = true

theorem swept_initial : initial.Swept := fun _ _ hwatcher => by cases hwatcher

theorem ids_nodup {s : State} (honce : s.copies.Nodup) :
    (s.heartbeats.map Heartbeat.id).Nodup :=
  (List.nodup_append.mp (List.nodup_append.mp honce).1).2.1

theorem swept_visit (ho : l.Orderly) (h : l.Swept) {now : ℕ} {left : List ℕ}
    (hwatcher : l.state.watcher = .sweeping now left)
    (hfound : lookup l.state.heartbeats heartbeat.id = some heartbeat) (stamp : ℕ) :
    Loop.Swept { l with
      state := visit origin heartbeat now stamp
        { l.state with watcher := .sweeping now (left.erase heartbeat.id) } } := by
  have hmem : heartbeat ∈ l.state.heartbeats := (lookup_some hfound).1
  -- an entry the sweep has got to since is the one just visited
  have hentry : ∀ entry ∈ l.state.heartbeats, entry.id ∉ left.erase heartbeat.id →
      entry.id ∉ left ∨ entry = heartbeat := by
    intro entry hm hid
    by_cases hsame : entry.id = heartbeat.id
    · exact Or.inr (List.inj_on_of_nodup_map (ids_nodup ho.once) hm hmem hsame)
    · exact Or.inl fun hleft => hid ((List.mem_erase_of_ne hsame).mpr hleft)
  rw [visit]
  split
  next hlate =>
    intro now' left' hsweep entry hm hid hdue
    cases hsweep
    obtain ⟨old, hold, rfl⟩ := List.mem_map.mp hm
    by_cases hmarked : old.id = heartbeat.id
    · rw [if_pos hmarked]
    · rw [if_neg hmarked] at hid hdue ⊢
      obtain hdone | rfl := hentry old hold hid
      · exact h now left hwatcher old hold hdone hdue
      · exact absurd rfl hmarked
  next hearly =>
    intro now' left' hsweep entry hm hid hdue
    cases hsweep
    obtain hdone | rfl := hentry entry hm hid
    · exact h now left hwatcher entry hm hdone hdue
    · exact Bool.eq_true_of_not_eq_false fun hw => hearly ⟨hw, hdue⟩

theorem swept_moves (ho : l.Orderly) (h : l.Swept) (hm : Moves origin l l') : l'.Swept := by
  cases hm with
  | register heartbeat hwarned hnew => exact h
  | complete id hid => exact h
  | receive message channel ended hwatcher hchannel hended =>
    intro now left hsweep
    exact absurd hsweep ((receive_frame _ message).2.2 now left)
  | wait watcher hheld hsweep =>
    intro now left hsweeping
    exact absurd hsweeping (hsweep now left)
  | judge heartbeat now stamp hwatcher =>
    intro now' left hsweep
    rw [judge] at hsweep
    split at hsweep <;> cases hsweep
  | readClock now hwatcher =>
    intro now' left hsweep entry hm hid hdue
    cases hsweep
    exact absurd (List.mem_map_of_mem hm) hid
  | visit heartbeat now stamp left hwatcher hfound => exact swept_visit ho h hwatcher hfound stamp

/-! ## What the loop waits for -/

theorem nextDeadline_eq_none {heartbeats : List Heartbeat} :
    nextDeadline heartbeats = none ↔ ∀ heartbeat ∈ heartbeats, heartbeat.warned = true := by
  rw [nextDeadline, List.min?_eq_none_iff, List.map_eq_nil_iff, List.filter_eq_nil_iff]
  refine forall₂_congr fun heartbeat _ => ?_
  cases heartbeat.warned <;> decide

theorem nextDeadline_eq_some {heartbeats : List Heartbeat} {deadline : ℕ} :
    nextDeadline heartbeats = some deadline ↔
      IsLeast {d | ∃ heartbeat ∈ heartbeats, heartbeat.warned = false ∧ heartbeat.deadline = d}
        deadline := by
  rw [nextDeadline, List.min?_eq_some_iff]
  have hmem : ∀ d, d ∈ (heartbeats.filter fun heartbeat => !heartbeat.warned).map
      Heartbeat.deadline ↔
        ∃ heartbeat ∈ heartbeats, heartbeat.warned = false ∧ heartbeat.deadline = d := by
    intro d
    simp [and_assoc]
  rw [hmem]
  exact and_congr_right fun _ => forall_congr' fun d => imp_congr_left (hmem d)

/-! ## Silence after a `Complete` -/

def reportsOf (s : State) (id : ℕ) : List Report := s.reports.filter fun report => report.id = id

theorem reportsOf_judge {s : State} {id : ℕ} (hne : heartbeat.id ≠ id) (now stamp : ℕ) :
    reportsOf (judge origin heartbeat now stamp s) id = reportsOf s id := by
  rw [judge]
  split
  · exact List.filter_cons_of_neg fun hid => hne (of_decide_eq_true hid)
  · rfl

theorem reportsOf_visit {s : State} {id : ℕ} (hne : heartbeat.id ≠ id) (now stamp : ℕ) :
    reportsOf (visit origin heartbeat now stamp s) id = reportsOf s id := by
  rw [visit]
  split
  · exact List.filter_cons_of_neg fun hid => hne (of_decide_eq_true hid)
  · rfl

theorem quiet_moves (ho : l.Orderly) {id : ℕ} (hid : id ∈ l.completed) (hm : Moves origin l l') :
    id ∈ l'.completed ∧ reportsOf l'.state id = reportsOf l.state id := by
  have hgone : ∀ heartbeat, l.state.Holds heartbeat → heartbeat.id ≠ id := by
    rintro heartbeat hholds rfl
    exact (ho.finished _ hid).2 hholds.mem_copies
  cases hm with
  | register heartbeat hwarned hnew => exact ⟨hid, rfl⟩
  | complete id hid' => exact ⟨hid, rfl⟩
  | receive message channel ended hwatcher hchannel hended =>
    refine ⟨List.mem_append_right _ hid, ?_⟩
    rw [reportsOf, (receive_frame _ message).2.1]
    rfl
  | wait watcher hheld hsweep => exact ⟨hid, rfl⟩
  | judge heartbeat now stamp hwatcher =>
    exact ⟨List.mem_cons_of_mem _ hid,
      reportsOf_judge (hgone heartbeat (Or.inr (Or.inr hwatcher))) now stamp⟩
  | readClock now hwatcher => exact ⟨hid, rfl⟩
  | visit heartbeat now stamp left hwatcher hfound =>
    exact ⟨hid, reportsOf_visit (hgone heartbeat (Or.inr (Or.inl (lookup_some hfound).1))) now stamp⟩

/-! ## Runs -/

abbrev Reaches (origin : ℕ) : Loop → Loop → Prop := Transition.Reaches (step origin) Proper

theorem sound_of_reaches (h : Reaches origin initial l) :
    l.Orderly ∧ l.Told origin ∧ l.Swept := by
  refine Transition.Reaches.invariant (I := fun l : Loop => l.Orderly ∧ l.Told origin ∧ l.Swept)
    ?_ h ⟨orderly_initial, told_initial, swept_initial⟩
  rintro l a l' ⟨ho, ht, hsw⟩ hok hs
  have hm := moves_of_step hok hs
  exact ⟨orderly_moves ho hm, told_moves ho ht hm, swept_moves ho hsw hm⟩

theorem quiet_of_reaches (ho : l.Orderly) {id : ℕ} (hid : id ∈ l.completed)
    (h : Reaches origin l l') :
    id ∉ l'.state.heartbeats.map Heartbeat.id ∧ reportsOf l'.state id = reportsOf l.state id := by
  have hlater : l'.Orderly ∧ id ∈ l'.completed ∧ reportsOf l'.state id = reportsOf l.state id := by
    refine Transition.Reaches.invariant
      (I := fun m : Loop => m.Orderly ∧ id ∈ m.completed ∧ reportsOf m.state id = reportsOf l.state id)
      ?_ h ⟨ho, hid, rfl⟩
    rintro m a m' ⟨hom, hidm, hsame⟩ hok hs
    have hm := moves_of_step hok hs
    obtain ⟨hid', hsame'⟩ := quiet_moves hom hidm hm
    exact ⟨orderly_moves hom hm, hid', hsame'.trans hsame⟩
  obtain ⟨ho', hid', hsame⟩ := hlater
  refine ⟨fun hm => (ho'.finished id hid').2 ?_, hsame⟩
  exact List.mem_append_left _ (List.mem_append_right _ hm)

/-- **The watcher reports a late heartbeat once and forgets a finished one.** However messages,
timeouts and readings of the clock follow each other: each id is reported at most once, by the
handling of its `Complete` and all sweeps together; after its `Complete` the id is in the map no more
and is not reported again; at the end of a sweep every entry that was due is marked and reported; and
the loop waits for the least deadline of an entry that is not. -/
theorem reports_each_once (hrun : Reaches origin initial l) :
    (reported l.state).Nodup ∧
    (∀ report ∈ l.state.reports, ∃ (heartbeat : Heartbeat) (now stamp : ℕ),
      .register heartbeat ∈ l.sent ∧ heartbeat.deadline ≤ now ∧
        report = missed origin heartbeat now stamp) ∧
    (∀ id ∈ l.completed, ∀ l', Reaches origin l l' →
      id ∉ l'.state.heartbeats.map Heartbeat.id ∧
        reportsOf l'.state id = reportsOf l.state id) ∧
    (∀ now left l', l.state.watcher = .sweeping now left → step origin l .sweepEnd = some l' →
      ∀ heartbeat ∈ l'.state.heartbeats, heartbeat.deadline ≤ now →
        heartbeat.warned = true ∧ heartbeat.id ∈ reported l'.state) ∧
    (l.state.watcher = .receiving →
      (nextDeadline l.state.heartbeats = none → ∀ heartbeat ∈ l.state.heartbeats,
        heartbeat.warned = true ∧ heartbeat.id ∈ reported l.state) ∧
      ∀ deadline, nextDeadline l.state.heartbeats = some deadline →
        IsLeast {d | ∃ heartbeat ∈ l.state.heartbeats,
          heartbeat.warned = false ∧ heartbeat.deadline = d} deadline) := by
  obtain ⟨ho, ht, hsw⟩ := sound_of_reaches hrun
  have hreported : ∀ heartbeat ∈ l.state.heartbeats, heartbeat.warned = true →
      heartbeat.id ∈ reported l.state := fun heartbeat hm hw =>
    (ht.marked heartbeat (Or.inr (Or.inl hm))).mp hw
  refine ⟨ht.once, ht.accurate, fun id hid l' hlater => quiet_of_reaches ho hid hlater,
    fun now left l' hwatcher hs => ?_, fun _ => ⟨fun hnone heartbeat hm => ?_, fun deadline hsome => ?_⟩⟩
  · obtain ⟨state, hstate, rfl⟩ := Option.map_eq_some_iff.mp hs
    cases Heartbeats.moves_of_step hstate with
    | sweepEnd now' hwatching =>
      cases hwatcher.symm.trans hwatching
      intro heartbeat hm hdue
      have hw := hsw now [] hwatcher heartbeat hm List.not_mem_nil hdue
      exact ⟨hw, hreported heartbeat hm hw⟩
  · have hw := nextDeadline_eq_none.mp hnone heartbeat hm
    exact ⟨hw, hreported heartbeat hm hw⟩
  · exact nextDeadline_eq_some.mp hsome

def frameHeartbeat (id deadline : ℕ) : Heartbeat :=
  { id := id, name := "frame", createdAt := 0, deadline := deadline
    callsite := { file := "src/main.rs", line := 10, column := 5 }, warned := false
    context := .root 0 false 0 }

/-- A heartbeat that a sweep finds late, completed while another one is still in time. -/
theorem reports_each_once_late : ∃ l, Reaches 0 initial l ∧ l.state.watcher = .receiving ∧
    l.completed = [1] ∧ (reported l.state).count 1 = 1 ∧
      1 ∉ l.state.heartbeats.map Heartbeat.id := by
  obtain ⟨l, hrun, hwatcher, hcompleted, hreported⟩ :=
    Transition.exists_reaches (step 0) Proper initial
      (fun l => l.state.watcher = .receiving ∧ l.completed = [1] ∧ 1 ∈ reported l.state)
      [.send (.register (frameHeartbeat 1 5)), .receive, .readClock 2, .visit 1 2, .sweepEnd,
        .timeout, .readClock 7, .visit 1 8, .sweepEnd, .send (.register (frameHeartbeat 2 20)),
        .send (.complete 1), .receive, .readClock 9, .visit 2 9, .visit 1 9, .sweepEnd,
        .receive, .judge 10 10, .readClock 11, .visit 2 11, .sweepEnd] (by decide)
  obtain ⟨honce, -, hquiet, -, -⟩ := reports_each_once hrun
  exact ⟨l, hrun, hwatcher, hcompleted, List.count_eq_one_of_mem honce hreported,
    (hquiet 1 (by rw [hcompleted]; exact List.mem_singleton_self _) l Transition.Reaches.refl).1⟩

end Logwise.Legacy.WatcherLoop
