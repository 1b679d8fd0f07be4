import Logwise.Wire.RoundTrip

/-!
# The transport

`Transport` (`logwise_runtime_wasm/src/wire.rs`): the counters every frame carries. `Accounts` says
what the counters are after a list of outcomes, whatever the calls and the host's answers were.
-/

namespace Logwise.Wire

inductive HostStatus where
  | accepted | unavailable | versionMismatch | dropped
  | hostError (code : Int32)
  deriving DecidableEq

/-- What a caller of `encode` or `emit` passes. -/
structure Request where
  event : EventRef
  links : List ContextToken
  identity : Identity
  output : List UInt8
  scratch : List UInt8

structure Transport where
  nextSequence : UInt64
  dropped : UInt64
  truncated : UInt64
  maxValueBytes : ℕ

namespace Transport

def new (maxValueBytes : ℕ) : Transport :=
  { nextSequence := 0, dropped := 0, truncated := 0, maxValueBytes := maxValueBytes }

/-- The envelope `encode` builds. -/
def envelope (transport : Transport) (request : Request) : Envelope :=
  { event := request.event
    sequence := transport.nextSequence + 1
    droppedBefore := transport.dropped
    truncatedBefore := transport.truncated
    omittedFields := 0
    links := request.links
    identity := request.identity }

def encode (request : Request) (transport : Transport) :
    Except Stop EncodedEnvelope × Transport :=
  let advanced := { transport with nextSequence := transport.nextSequence + 1 }
  match encodeEnvelope (transport.envelope request) transport.maxValueBytes request.output
      request.scratch with
  | .ok encoded => (.ok encoded, { advanced with
      truncated := advanced.truncated + UInt64.ofNat encoded.truncatedValues })
  | .error (.error error) =>
    (.error (.error error), { advanced with dropped := advanced.dropped + 1 })
  | .error .panic => (.error .panic, advanced)

/-- `emit`: the status, with the frame that was offered to the host. -/
def emit (request : Request) (hostEmit : List UInt8 → HostStatus) (transport : Transport) :
    Except Stop (EncodedEnvelope × HostStatus) × Transport :=
  match transport.encode request with
  | (.ok encoded, transport) =>
    let status := hostEmit encoded.bytes
    (.ok (encoded, status), if status ≠ .accepted then
      { transport with dropped := transport.dropped + 1 } else transport)
  | (.error stop, transport) => (.error stop, transport)

end Transport

/-! ## Runs -/

inductive Call where
  | encode (request : Request)
  | emit (request : Request) (hostEmit : List UInt8 → HostStatus)

def Call.request : Call → Request
  | .encode request | .emit request _ => request

/-- How a call ended. -/
inductive Outcome where
  | failed (stop : Stop)
  | returned (encoded : EncodedEnvelope)
  | offered (encoded : EncodedEnvelope) (status : HostStatus)

namespace Outcome

/-- The frame the call produced. -/
def produced : Outcome → Option EncodedEnvelope
  | .failed _ => none
  | .returned encoded | .offered encoded _ => some encoded

/-- The call returned an error, or the host did not accept its frame. -/
def lost : Outcome → Bool
  | .failed _ => true
  | .returned _ => false
  | .offered _ status => status ≠ .accepted

def truncatedValues (outcome : Outcome) : ℕ :=
  (outcome.produced.map EncodedEnvelope.truncatedValues).getD 0

end Outcome

namespace Transport

def perform (transport : Transport) : Call → Outcome × Transport
  | .encode request =>
    match transport.encode request with
    | (.ok encoded, transport) => (.returned encoded, transport)
    | (.error stop, transport) => (.failed stop, transport)
  | .emit request hostEmit =>
    match transport.emit request hostEmit with
    | (.ok (encoded, status), transport) => (.offered encoded status, transport)
    | (.error stop, transport) => (.failed stop, transport)

/-- Calls made one after another. -/
def run (transport : Transport) : List Call → List Outcome × Transport
  | [] => ([], transport)
  | call :: calls =>
    let (outcome, transport) := transport.perform call
    let (outcomes, transport) := transport.run calls
    (outcome :: outcomes, transport)

/-- The counters after calls with these outcomes, modulo `2 ^ 64`. -/
structure Accounts (transport : Transport) (past : List Outcome) : Prop where
  nextSequence : transport.nextSequence = UInt64.ofNat past.length
  dropped : transport.dropped = UInt64.ofNat (past.countP Outcome.lost)
  truncated : transport.truncated = UInt64.ofNat (past.map Outcome.truncatedValues).sum

theorem accounts_new (maxValueBytes : ℕ) : (new maxValueBytes).Accounts [] := ⟨rfl, rfl, rfl⟩

/-- What `encode` does: a frame with the counters of before, or one more loss. -/
theorem encode_cases (transport : Transport) (request : Request) :
    (∃ encoded, encodeEnvelope (transport.envelope request) transport.maxValueBytes request.output
          request.scratch = .ok encoded ∧
        transport.encode request = (.ok encoded, { transport with
          nextSequence := transport.nextSequence + 1
          truncated := transport.truncated + UInt64.ofNat encoded.truncatedValues })) ∨
      ∃ error, transport.encode request = (.error (.error error), { transport with
        nextSequence := transport.nextSequence + 1, dropped := transport.dropped + 1 }) := by
  rw [encode]
  obtain ⟨-, -, -, hok⟩ | ⟨error, herror⟩ := encodeEnvelope_cases (transport.envelope request)
    transport.maxValueBytes request.output request.scratch
  · rw [hok]
    exact Or.inl ⟨_, rfl, rfl⟩
  · rw [herror]
    exact Or.inr ⟨error, rfl⟩

/-- What a call does: it takes the next sequence and adds its own loss and its own cut values. -/
theorem perform_cases (transport : Transport) (call : Call) :
    ∃ outcome, transport.perform call = (outcome, { transport with
        nextSequence := transport.nextSequence + 1
        dropped := transport.dropped + UInt64.ofNat outcome.lost.toNat
        truncated := transport.truncated + UInt64.ofNat outcome.truncatedValues }) ∧
      ∀ encoded ∈ outcome.produced, encodeEnvelope (transport.envelope call.request)
        transport.maxValueBytes call.request.output call.request.scratch = .ok encoded := by
  cases call with
  | encode request =>
    rw [perform]
    obtain ⟨encoded, hencoded, hrun⟩ | ⟨error, hrun⟩ := transport.encode_cases request
    · rw [hrun]
      refine ⟨.returned encoded, ?_, fun _ h => ?_⟩
      · simp [Outcome.lost, Outcome.truncatedValues, Outcome.produced]
      · cases h
        exact hencoded
    · rw [hrun]
      refine ⟨.failed (.error error), ?_, nofun⟩
      simp [Outcome.lost, Outcome.truncatedValues, Outcome.produced]
  | emit request hostEmit =>
    rw [perform, emit]
    obtain ⟨encoded, hencoded, hrun⟩ | ⟨error, hrun⟩ := transport.encode_cases request
    · rw [hrun]
      refine ⟨.offered encoded (hostEmit encoded.bytes), ?_, fun _ h => ?_⟩
      · by_cases hstatus : hostEmit encoded.bytes = .accepted
        · simp [Outcome.lost, Outcome.truncatedValues, Outcome.produced, hstatus]
        · simp [Outcome.lost, Outcome.truncatedValues, Outcome.produced, hstatus]
      · cases h
        exact hencoded
    · rw [hrun]
      refine ⟨.failed (.error error), ?_, nofun⟩
      simp [Outcome.lost, Outcome.truncatedValues, Outcome.produced]

/-- **Step**: the counters go on to account for every call made. -/
theorem Accounts.perform {transport : Transport} {past : List Outcome}
    (h : transport.Accounts past) (call : Call) :
    (transport.perform call).2.Accounts (past ++ [(transport.perform call).1]) := by
  obtain ⟨outcome, hrun, -⟩ := transport.perform_cases call
  rw [hrun]
  refine ⟨?_, ?_, ?_⟩
  · rw [List.length_append, h.nextSequence, UInt64.ofNat_add]
    rfl
  · rw [List.countP_append, h.dropped, UInt64.ofNat_add]
    cases hlost : outcome.lost <;> simp [hlost]
  · rw [List.map_append, List.sum_append, h.truncated, UInt64.ofNat_add]
    simp

theorem Accounts.run {transport : Transport} {past : List Outcome} (h : transport.Accounts past)
    (calls : List Call) : (transport.run calls).2.Accounts (past ++ (transport.run calls).1) := by
  induction calls generalizing transport past with
  | nil => simpa [Transport.run] using h
  | cons call calls ih =>
    have hrest := ih (h.perform call)
    rwa [List.append_assoc] at hrest

@[simp] theorem length_run (transport : Transport) (calls : List Call) :
    (transport.run calls).1.length = calls.length := by
  induction calls generalizing transport with
  | nil => rfl
  | cons call calls ih => exact congrArg Nat.succ (ih _)

/-- The outcomes of the first calls do not depend on the later ones. -/
theorem take_run (transport : Transport) (calls : List Call) (k : ℕ) :
    (transport.run calls).1.take k = (transport.run (calls.take k)).1 := by
  induction calls generalizing transport k with
  | nil => simp [Transport.run]
  | cons call calls ih =>
    cases k with
    | zero => rfl
    | succ k => exact congrArg _ (ih _ k)

/-- The outcome of a call is what it does after the calls before it. -/
theorem getElem?_run (transport : Transport) (calls : List Call) (k : ℕ) :
    (transport.run calls).1[k]? =
      calls[k]?.map fun call => ((transport.run (calls.take k)).2.perform call).1 := by
  induction calls generalizing transport k with
  | nil => simp [Transport.run]
  | cons call calls ih =>
    cases k with
    | zero => rfl
    | succ k => exact ih _ k

/-- A frame carries the counters of the calls before it. -/
theorem Accounts.produced {transport : Transport} {past : List Outcome}
    (h : transport.Accounts past) {call : Call} {encoded : EncodedEnvelope}
    (hproduced : encoded ∈ (transport.perform call).1.produced) :
    ∃ frame, decodeFrame encoded.bytes = some (frame, []) ∧
      frame.sequence = UInt64.ofNat (past.length + 1) ∧
      frame.droppedBefore = UInt64.ofNat (past.countP Outcome.lost) ∧
      frame.truncatedBefore = UInt64.ofNat (past.map Outcome.truncatedValues).sum := by
  obtain ⟨outcome, hrun, hencoded⟩ := transport.perform_cases call
  rw [hrun] at hproduced
  obtain ⟨hvalid, -, hbytes, -⟩ := encodeEnvelope_ok (hencoded encoded hproduced)
  have hreads := (reads_frame (hvalid.wellFormed (valueLimit_le transport.maxValueBytes)
    call.request.scratch.length)).run
  rw [← hbytes] at hreads
  refine ⟨_, hreads, ?_, h.dropped, h.truncated⟩
  rw [UInt64.ofNat_add, ← h.nextSequence]
  rfl

end Transport

/-! ## What a host can tell -/

section Accounting

variable {maxValueBytes : ℕ} {calls : List Call} {outcomes : List Outcome}

/-- What was not lost was delivered. -/
theorem countP_delivered (outcomes : List Outcome) :
    outcomes.countP (fun outcome => !outcome.lost) + outcomes.countP Outcome.lost =
      outcomes.length := by
  have hsplit := List.length_eq_countP_add_countP Outcome.lost (l := outcomes)
  simp only [Bool.not_eq_true, Bool.decide_eq_false] at hsplit
  omega

/-- Between two deliveries every call was lost. -/
theorem countP_lost_gap {i j : ℕ} (hij : i < j) (hj : j ≤ outcomes.length)
    (hi : ∀ outcome ∈ outcomes[i]?, outcome.lost = false)
    (hgap : ∀ m, i < m → m < j → ∀ outcome ∈ outcomes[m]?, outcome.lost = true) :
    (outcomes.take j).countP Outcome.lost = (outcomes.take i).countP Outcome.lost + (j - i - 1) := by
  have hsplit : outcomes.take j =
      outcomes.take (i + 1) ++ (outcomes.drop (i + 1)).take (j - (i + 1)) := by
    rw [← List.take_add, Nat.add_sub_cancel' hij]
  have hfirst : (outcomes.take (i + 1)).countP Outcome.lost =
      (outcomes.take i).countP Outcome.lost := by
    rw [List.take_add_one, List.countP_append]
    have hlt : i < outcomes.length := by omega
    simp [List.getElem?_eq_getElem hlt, hi _ (List.getElem?_eq_getElem hlt)]
  have hmiddle : ((outcomes.drop (i + 1)).take (j - (i + 1))).countP Outcome.lost =
      ((outcomes.drop (i + 1)).take (j - (i + 1))).length := by
    rw [List.countP_eq_length]
    intro outcome houtcome
    obtain ⟨m, hm, rfl⟩ := List.mem_iff_getElem.mp houtcome
    rw [List.length_take, List.length_drop] at hm
    have hget : outcomes[i + 1 + m]? = some (outcomes[i + 1 + m]) :=
      List.getElem?_eq_getElem (by omega)
    rw [List.getElem_take, List.getElem_drop]
    exact hgap (i + 1 + m) (by omega) (by omega) _ hget
  rw [hsplit, List.countP_append, hfirst, hmiddle, List.length_take, List.length_drop]
  omega

/-- The call at position `k`, counted from zero, produced a frame, and the host read it. -/
def FrameAt (outcomes : List Outcome) (k : ℕ) (frame : Frame) : Prop :=
  ∃ outcome ∈ outcomes[k]?, ∃ encoded ∈ outcome.produced,
    decodeFrame encoded.bytes = some (frame, [])

/-- The counters a host reads off a frame, as numbers. -/
theorem frameAt_counters (houtcomes : outcomes = ((Transport.new maxValueBytes).run calls).1)
    (hcalls : calls.length < 2 ^ 64)
    (htruncated : (outcomes.map Outcome.truncatedValues).sum < 2 ^ 64) {k : ℕ} {outcome : Outcome}
    (houtcome : outcome ∈ outcomes[k]?) {encoded : EncodedEnvelope}
    (hencoded : encoded ∈ outcome.produced) :
    ∃ frame, decodeFrame encoded.bytes = some (frame, []) ∧ frame.sequence.toNat = k + 1 ∧
      frame.droppedBefore.toNat = (outcomes.take k).countP Outcome.lost ∧
      frame.truncatedBefore.toNat = ((outcomes.take k).map Outcome.truncatedValues).sum := by
  have hlength : outcomes.length = calls.length := by rw [houtcomes, Transport.length_run]
  have hk : k < outcomes.length := (List.getElem?_eq_some_iff.mp houtcome).1
  obtain ⟨call, -, rfl⟩ := Option.map_eq_some_iff.mp
    ((Transport.getElem?_run ..).symm.trans (houtcomes ▸ houtcome))
  have haccounts := (Transport.accounts_new maxValueBytes).run (calls.take k)
  rw [List.nil_append, ← Transport.take_run, ← houtcomes] at haccounts
  obtain ⟨frame, hframe, hsequence, hdropped, htruncated'⟩ := haccounts.produced hencoded
  have hcount : (outcomes.take k).countP Outcome.lost ≤ (outcomes.take k).length :=
    List.countP_le_length
  have hsum : ((outcomes.take k).map Outcome.truncatedValues).sum ≤
      (outcomes.map Outcome.truncatedValues).sum := by
    conv_rhs => rw [← List.take_append_drop k outcomes, List.map_append, List.sum_append]
    exact Nat.le_add_right ..
  rw [List.length_take] at hsequence hcount
  refine ⟨frame, hframe, ?_, ?_, ?_⟩
  · rw [hsequence, Nat.min_eq_left hk.le]
    exact UInt64.toNat_ofNat_of_lt' (show _ < 2 ^ 64 by omega)
  · rw [hdropped]
    exact UInt64.toNat_ofNat_of_lt' (show _ < 2 ^ 64 by omega)
  · rw [htruncated']
    exact UInt64.toNat_ofNat_of_lt' (show _ < 2 ^ 64 by omega)

end Accounting

/-- A note passed with an output buffer of so many bytes. -/
def noting (room : ℕ) : Request :=
  { event := (noted (.literal "ready")).event, links := [], identity := { worker := 0, test := none }
    output := List.replicate room 0, scratch := [0, 0, 0, 0] }

end Logwise.Wire
