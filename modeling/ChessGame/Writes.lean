import ChessGame.Network
/-!
# Writes

The sending half of `TcpSession` and of `WebSocketSession`. That a write is going is
not stored anywhere: both classes take it from `_outbox` not being empty. Any number of
writes could be outstanding here, so that there is at most one is a theorem.
-/
open Runs

namespace ChessGame

/-- Which class a session is of. -/
inductive SessionKind where
  | tcp | webSocket
  deriving DecidableEq, Repr

structure Writer (α : Type) where
  /-- What `send` has left to the executor, in order. -/
  posted : List α
  /-- `_outbox` -/
  outbox : List α
  /-- The payloads of the writes that have not completed. -/
  writes : List α
  /-- Every payload the socket was given. No handler reads it. -/
  handed : List α
  deriving DecidableEq, Repr

variable {α : Type}

namespace Writer

def new : Writer α := ⟨[], [], [], []⟩

/-- `async_write` of `_outbox.front()`. Neither caller comes with an empty outbox. -/
def doWrite (w : Writer α) : Writer α :=
  match w.outbox with
  | [] => w
  | payload :: _ => { w with writes := w.writes ++ [payload], handed := w.handed ++ [payload] }

/-- The function that `send` gives to the executor. -/
def push (payload : α) (w : Writer α) : Writer α :=
  let writing := !w.outbox.isEmpty
  let w := { w with outbox := w.outbox ++ [payload] }
  if !writing then w.doWrite else w

end Writer

/-- `dispatch` runs the function at once when it is called on the strand. -/
def TcpSession.send (onStrand : Bool) (payload : α) (w : Writer α) : Writer α :=
  if onStrand then w.push payload else { w with posted := w.posted ++ [payload] }

/-- `post` never does. -/
def WebSocketSession.send (payload : α) (w : Writer α) : Writer α := { w with posted := w.posted ++ [payload] }

/-- `send`, called by the session's own handlers or from elsewhere. -/
def SessionKind.send : SessionKind → Bool → α → Writer α → Writer α
  | .tcp => TcpSession.send
  | .webSocket => fun _ => WebSocketSession.send

namespace Writer

/-- The completion of a write that went well. -/
def completed (w : Writer α) : Writer α :=
  let w := { w with outbox := w.outbox.tail }
  if !w.outbox.isEmpty then w.doWrite else w

/-- The completion of a write that failed: `on_disconnect` may send the session some more. -/
def failed (kind : SessionKind) (payloads : List α) (w : Writer α) : Writer α :=
  payloads.foldl (fun w payload => kind.send true payload w) w

/-- The `i`th outstanding write is over. -/
def finish (i : ℕ) (w : Writer α) : Writer α := { w with writes := w.writes.eraseIdx i }

end Writer

inductive WriteEvent (α : Type) where
  | send (payload : α)
  /-- The executor runs the function posted first. -/
  | run
  | complete (i : ℕ)
  | fail (i : ℕ) (payloads : List α)
  deriving DecidableEq, Repr

/-- The event is a failed write. -/
def WriteEvent.isFail : WriteEvent α → Bool
  | .fail _ _ => true
  | _ => false

/-- The payload of a call of `send`. -/
def WriteEvent.payload : WriteEvent α → Option α
  | .send payload => some payload
  | _ => none

namespace Writer

def act (kind : SessionKind) (w : Writer α) : WriteEvent α → Option (Writer α)
  | .send payload => some (kind.send false payload w)
  | .run =>
    match w.posted with
    | [] => none
    | payload :: posted => some ({ w with posted }.push payload)
  | .complete i => if i < w.writes.length then some (w.finish i).completed else none
  | .fail i payloads => if i < w.writes.length then some ((w.finish i).failed kind payloads) else none

/-- The event happens. -/
def Acts (kind : SessionKind) (w : Writer α) (ev : WriteEvent α) (w' : Writer α) : Prop := w.act kind ev = some w'

/-- The payloads of the calls of `send`, in order. -/
def sent (l : List (Writer α × WriteEvent α)) : List α := l.filterMap fun x => x.2.payload

/-- The write of the first payload is outstanding, if there is one. -/
def InStep (w : Writer α) : Prop := w.writes = w.outbox.take 1

/-- No write is outstanding and none will be: the payload that could not be written stays in front. -/
def Broken (w : Writer α) : Prop := w.writes = [] ∧ w.outbox ≠ []

/-- What has been sent: handed over, waiting in the outbox, waiting for the executor. -/
def all (w : Writer α) : List α := w.handed ++ w.outbox.tail ++ w.posted

variable {kind : SessionKind} {w w' : Writer α} {ev : WriteEvent α} {payload : α} {payloads : List α} {i : ℕ}

/-! ## The handlers -/

theorem send_outside (kind : SessionKind) (payload : α) (w : Writer α) :
    kind.send false payload w = { w with posted := w.posted ++ [payload] } := by
  cases kind <;> rfl

theorem InStep.push (h : InStep w) (payload : α) :
    InStep (w.push payload) ∧ (w.push payload).posted = w.posted ∧
      (w.push payload).handed ++ (w.push payload).outbox.tail = w.handed ++ w.outbox.tail ++ [payload] := by
  obtain ⟨posted, outbox, writes, handed⟩ := w
  obtain rfl : writes = outbox.take 1 := h
  cases outbox with
  | nil => simp [Writer.push, doWrite, InStep]
  | cons first rest => simp [Writer.push, InStep]

theorem InStep.index (h : InStep w) (hi : i < w.writes.length) : i = 0 ∧ w.outbox ≠ [] := by
  rw [InStep] at h
  have hlen := congrArg List.length h
  rw [List.length_take] at hlen
  refine ⟨by omega, ?_⟩
  rintro hnil
  simp [h, hnil] at hi

/-- The write that is over was the only one. -/
theorem InStep.finish (h : InStep w) (hi : i < w.writes.length) : w.finish i = { w with writes := [] } := by
  obtain ⟨rfl, hne⟩ := h.index hi
  obtain ⟨first, rest, hout⟩ := List.exists_cons_of_ne_nil hne
  have hwrites : w.writes = w.outbox.take 1 := h
  rw [Writer.finish, hwrites, hout]
  rfl

theorem InStep.completed (h : InStep w) (hi : i < w.writes.length) :
    InStep (w.finish i).completed ∧ (w.finish i).completed.outbox = w.outbox.tail ∧
      (w.finish i).completed.all = w.all := by
  rw [h.finish hi]
  obtain ⟨-, hne⟩ := h.index hi
  obtain ⟨posted, outbox, writes, handed⟩ := w
  obtain ⟨first, rest, rfl⟩ := List.exists_cons_of_ne_nil hne
  cases rest with
  | nil => simp [Writer.completed, InStep, all]
  | cons next rest => simp [Writer.completed, doWrite, InStep, all]

theorem Broken.push (h : Broken w) (payload : α) : Broken (w.push payload) ∧ (w.push payload).handed = w.handed := by
  obtain ⟨hwrites, hne⟩ := h
  have hpush : w.push payload = { w with outbox := w.outbox ++ [payload] } := by
    simp [Writer.push, hne]
  rw [hpush]
  exact ⟨⟨hwrites, by simp⟩, rfl⟩

theorem Broken.send (h : Broken w) (kind : SessionKind) (onStrand : Bool) (payload : α) :
    Broken (kind.send onStrand payload w) ∧ (kind.send onStrand payload w).handed = w.handed := by
  have hpost : Broken { w with posted := w.posted ++ [payload] } := h
  cases kind with
  | tcp =>
    cases onStrand with
    | true => exact h.push payload
    | false => exact ⟨hpost, rfl⟩
  | webSocket => exact ⟨hpost, rfl⟩

theorem Broken.failed (h : Broken w) (kind : SessionKind) (payloads : List α) :
    Broken (w.failed kind payloads) ∧ (w.failed kind payloads).handed = w.handed := by
  induction payloads generalizing w with
  | nil => exact ⟨h, rfl⟩
  | cons payload payloads ih =>
    obtain ⟨hsend, hhanded⟩ := h.send kind true payload
    obtain ⟨hrest, hrest'⟩ := ih hsend
    exact ⟨hrest, hrest'.trans hhanded⟩

/-! ## What an event does -/

/-- In step, an event that is no failure keeps in step and loses nothing. -/
theorem InStep.next (h : InStep w) (hact : Acts kind w ev w') (hev : ev.isFail = false) :
    InStep w' ∧ w'.all = w.all ++ ev.payload.toList := by
  unfold Acts act at hact
  cases ev with
  | send payload =>
    dsimp only at hact
    rw [send_outside, Option.some.injEq] at hact
    subst hact
    exact ⟨h, by simp [all, WriteEvent.payload]⟩
  | run =>
    dsimp only at hact
    split at hact
    · cases hact
    · rename_i payload posted hposted
      cases hact
      have hposts : InStep { w with posted } := h
      obtain ⟨hpush, hpost, hhanded⟩ := hposts.push payload
      refine ⟨hpush, ?_⟩
      rw [all, hhanded, hpost, all, hposted]
      simp [WriteEvent.payload]
  | complete i =>
    dsimp only at hact
    split at hact
    · rename_i hi
      cases hact
      obtain ⟨hstep, -, hall⟩ := h.completed hi
      exact ⟨hstep, by rw [hall]; simp [WriteEvent.payload]⟩
    · cases hact
  | fail i payloads => cases hev

/-- A failure breaks the writer. -/
theorem InStep.fail (h : InStep w) (hact : Acts kind w ev w') (hev : ev.isFail = true) :
    Broken w' ∧ w'.handed = w.handed := by
  cases ev with
  | fail i payloads =>
    simp only [Acts, act] at hact
    split at hact
    · rename_i hi
      cases hact
      rw [h.finish hi]
      have hbroken : Broken { w with writes := [] } := ⟨rfl, (h.index hi).2⟩
      exact hbroken.failed kind payloads
    · cases hact
  | _ => cases hev

/-- A broken writer stays broken and hands nothing over. -/
theorem Broken.next (h : Broken w) (hact : Acts kind w ev w') : Broken w' ∧ w'.handed = w.handed := by
  unfold Acts act at hact
  cases ev with
  | send payload =>
    cases hact
    exact h.send kind false payload
  | run =>
    dsimp only at hact
    split at hact
    · cases hact
    · rename_i payload posted _
      cases hact
      have hposts : Broken { w with posted } := h
      exact hposts.push payload
  | complete i | fail i payloads =>
    rw [h.1] at hact
    cases hact

/-! ## Runs -/

theorem reached_state (h : Reachable (Acts kind) (new : Writer α) w) : InStep w ∨ Broken w := by
  have hnew : InStep (new : Writer α) := rfl
  apply h.inv (fun w => InStep w ∨ Broken w) (.inl hnew)
  rintro w ev w' (hw | hw) hact
  · cases hev : ev.isFail with
    | false => exact .inl (hw.next hact hev).1
    | true => exact .inr (hw.fail hact hev).1
  · exact .inr (hw.next hact).1

/-- As long as no write fails, what was sent is accounted for, in order. -/
theorem run_inStep {l : List (Writer α × WriteEvent α)} (h : Run (Acts kind) new l w)
    (hl : ∀ x ∈ l, x.2.isFail = false) : InStep w ∧ w.all = sent l := by
  induction h with
  | nil => exact ⟨rfl, rfl⟩
  | @snoc l w ev w' _ hact ih =>
    rw [List.forall_mem_append, List.forall_mem_singleton] at hl
    obtain ⟨hstep, hall⟩ := ih hl.1
    obtain ⟨hstep', hall'⟩ := hstep.next hact hl.2
    refine ⟨hstep', ?_⟩
    rw [hall', hall, sent, sent, List.filterMap_append]
    cases ev <;> rfl

/-- At most one write is ever outstanding. Until one fails, one is exactly when the outbox is not empty, and what was
sent is what the socket was given, then the rest of the outbox, then what is still posted. After a failure the socket
is given nothing more. -/
theorem writes_in_order (kind : SessionKind) {l : List (Writer α × WriteEvent α)} (h : Run (Acts kind) new l w) :
    w.writes.length ≤ 1 ∧
      ((∀ x ∈ l, x.2.isFail = false) →
        (w.writes.length = 1 ↔ w.outbox ≠ []) ∧ w.handed ++ w.outbox.tail ++ w.posted = sent l) ∧
      ∀ x ∈ l, x.2.isFail = true → w.handed = x.1.handed := by
  refine ⟨?_, fun hl => ?_, ?_⟩
  · rcases reached_state ⟨l, h⟩ with hw | hw
    · rw [hw]
      exact List.length_take_le 1 _
    · rw [hw.1]
      exact Nat.zero_le 1
  · obtain ⟨hstep, hall⟩ := run_inStep h hl
    refine ⟨?_, hall⟩
    rw [hstep]
    cases w.outbox <;> simp
  · have hbroken : ∀ x ∈ l, x.2.isFail = true → Broken w ∧ w.handed = x.1.handed := by
      apply h.after (fun _ ev => ev.isFail = true) fun w w' => Broken w' ∧ w'.handed = w.handed
      · intro w ev w' hr hev hact
        rcases reached_state hr with hw | hw
        · exact hw.fail hact hev
        · exact hw.next hact
      · rintro w w' ev w'' ⟨hb, hhanded⟩ hact
        obtain ⟨hb', hhanded'⟩ := hb.next hact
        exact ⟨hb', hhanded'.trans hhanded⟩
    exact fun x hx hev => (hbroken x hx hev).2

/-- Two replies, and the second cannot be written; a third is sent meanwhile. -/
theorem writes_in_order_failed : ∃ l w, Run (Acts (α := String) .tcp) new l w ∧
    l.map Prod.snd = [.send "pong", .send "left", .run, .run, .complete 0, .send "queued", .fail 0 ["sent"], .run] ∧
    w.writes.length ≤ 1 ∧ w.handed = ["pong", "left"] ∧ w.outbox = ["left", "sent", "queued"] := by
  have hend : (follow (fun w ev => (act .tcp w ev).map fun w' => (ev, w')) (new : Writer String) [.send "pong",
      .send "left", .run, .run, .complete 0, .send "queued", .fail 0 ["sent"], .run]).any (fun w =>
      w.handed = ["pong", "left"] ∧ w.outbox = ["left", "sent", "queued"]) = true := by decide +kernel
  obtain ⟨w, hw, htest⟩ := (Option.any_eq_true _ _).1 hend
  obtain ⟨l, hr, hl⟩ := follow_run (Acts (α := String) .tcp) id (fun {w ev ev' w'} hf => by
    obtain ⟨u, hu, heq⟩ := Option.map_eq_some_iff.1 hf
    cases heq
    exact ⟨hu, rfl⟩) .nil hw
  exact ⟨l, w, hr, by simpa using hl, (writes_in_order .tcp hr).1, of_decide_eq_true htest⟩

/-! ## The connections of the network -/

/-- The writer as the network sees it. -/
def connection (reading : Bool) (w : Writer Message) : Connection := ⟨reading, w.posted, w.outbox, !w.writes.isEmpty⟩

theorem run_connection {w w' : Writer Message} (reading : Bool) (h : InStep w) (hact : Acts kind w .run w') :
    w'.connection reading = (w.connection reading).push := by
  obtain ⟨posted, outbox, writes, handed⟩ := w
  obtain rfl : writes = outbox.take 1 := h
  cases posted with
  | nil => cases hact
  | cons payload posted =>
    cases hact
    cases outbox <;> simp [connection, Connection.push, push, doWrite]

theorem complete_connection {w w' : Writer Message} (reading : Bool) (h : InStep w)
    (hact : Acts kind w (.complete i) w') : w'.connection reading = (w.connection reading).pop := by
  simp only [Acts, act] at hact
  split at hact
  · rename_i hi
    cases hact
    obtain ⟨hstep, hout, -⟩ := h.completed hi
    have hposted : (w.finish i).completed.posted = w.posted := by
      simp only [completed, doWrite]
      split
      · split <;> rfl
      · rfl
    simp only [connection, Connection.pop]
    rw [hposted, hout, hstep, hout]
    cases w.outbox.tail <;> rfl
  · cases hact

end Writer

end ChessGame
