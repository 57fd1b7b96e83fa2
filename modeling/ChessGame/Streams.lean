import ChessGame.Lib.Frames
import ChessGame.Writes
/-!
# Streams

What a client sends over TCP is a stream of bytes, and it comes in any pieces. `do_read`
waits for a newline in `_buffer`, takes one line out, handles it and waits again. What
came behind the line stays in the buffer.
-/
open Frames Runs

namespace ChessGame

structure Streams where
  network : Network
  /-- `_buffer` of every `TcpSession`, empty before there is one. -/
  buffers : SessionId → List Byte

inductive StreamEvent where
  /-- Bytes get into `_buffer`. A read takes some only while no line is complete; here they come at any time. -/
  | arrive (p : SessionId) (bytes : List Byte)
  /-- `async_read_until` completes. -/
  | line (p : SessionId)
  | network (ev : NetworkEvent)
  deriving DecidableEq, Repr

/-- The bytes for the session. -/
def StreamEvent.bytes (p : SessionId) : StreamEvent → List Byte
  | .arrive q bytes => if q = p then bytes else []
  | _ => []

/-! ## Who is read from -/

namespace Network

variable {env : Env} {parseJson : List Byte → Except JsonError Json} {n : Network} {ev : NetworkEvent} {p : SessionId}

/-- Whether the session is read from, if there is one. -/
def reading (n : Network) (p : SessionId) : Option Bool := (n.connections p).map (·.reading)

/-- The string that `handle_command` of the session is called with. -/
def data (p : SessionId) : NetworkEvent → Option (List Byte)
  | .read q raw => if q = p then some raw else none
  | _ => none

theorem any_reading : (n.connections p).any (·.reading) = true ↔ n.reading p = some true := by
  rw [reading]
  cases n.connections p <;> simp

theorem serve_reading (env : Env) (e : Event) : (n.serve env e).reading p = n.reading p := by
  show ((n.connections p).map _).map _ = _
  rw [Option.map_map]
  rfl

theorem disconnect_reading (env : Env) (q : SessionId) : (n.disconnect env q).reading p = n.reading p := by
  show (n.serve env (.disconnect q)).reading p = _
  exact serve_reading env _

theorem update_reading {q : SessionId} {f : Connection → Connection} (hf : ∀ c, (f c).reading = c.reading) :
    (n.update q f).reading p = n.reading p := by
  by_cases hq : p = q
  · subst hq
    simp [reading, update, Function.comp_def, hf]
  · simp [reading, update, hq]

/-- Only an error of the read stops the reading, and only a new session starts it. -/
theorem handle_reading (parseJson : List Byte → Except JsonError Json) (env : Env) (n : Network) (ev : NetworkEvent)
    (p : SessionId) : (n.handle parseJson env ev).reading p =
      if ev = .accept p then some true
      else if ev = .readError p then (n.reading p).map fun _ => false
      else n.reading p := by
  cases ev with
  | accept q =>
    by_cases hq : p = q
    · subst hq
      simp [handle, reading, Connection.new]
    · have hne : NetworkEvent.accept q ≠ .accept p := fun h => hq (NetworkEvent.accept.inj h).symm
      rw [if_neg hne, if_neg (by simp)]
      simp only [handle, reading, Function.update_of_ne hq]
  | read q raw => rw [if_neg (by simp), if_neg (by simp), handle, serve_reading]
  | readError q =>
    rw [if_neg (by simp), handle, disconnect_reading]
    by_cases hq : p = q
    · subst hq
      simp [update, reading, Function.comp_def]
    · have hne : NetworkEvent.readError q ≠ .readError p := fun h => hq (NetworkEvent.readError.inj h).symm
      rw [if_neg hne]
      simp [update, reading, hq]
  | sent q =>
    rw [if_neg (by simp), if_neg (by simp)]
    apply update_reading
    intro c
    unfold Connection.push
    cases c.posted <;> rfl
  | written q =>
    rw [if_neg (by simp), if_neg (by simp)]
    exact update_reading fun _ => rfl
  | writeError q =>
    rw [if_neg (by simp), if_neg (by simp), handle, disconnect_reading]
    exact update_reading fun _ => rfl

end Network

/-! ## The events -/

namespace Streams

variable {env : Env} {parseJson : List Byte → Except JsonError Json} {kind : SessionId → SessionKind}
  {s s' : Streams} {ev : StreamEvent} {p : SessionId} {l : List (Streams × StreamEvent)}

def init : Streams := ⟨.init, fun _ => []⟩

/-- Whether the event can happen. A read of a `TcpSession` fails only while its buffer holds no newline. -/
def enabled (kind : SessionId → SessionKind) (s : Streams) : StreamEvent → Bool
  | .arrive p _ => kind p = .tcp && (s.network.connections p).any (·.reading)
  | .line p => kind p = .tcp && (s.network.connections p).any (·.reading) && newline ∈ s.buffers p
  | .network (.read p raw) => kind p = .webSocket && s.network.enabled (.read p raw)
  | .network (.readError p) => (kind p = .webSocket || newline ∉ s.buffers p) && s.network.enabled (.readError p)
  | .network ev => s.network.enabled ev

/-- What happens in the network. -/
def networkEvent (s : Streams) : StreamEvent → Option NetworkEvent
  | .arrive _ _ => none
  | .line p => some (.read p (firstLine newline (s.buffers p)))
  | .network ev => some ev

/-- The handler of `do_read`; the others leave the buffers alone. -/
def handle (parseJson : List Byte → Except JsonError Json) (env : Env) (s : Streams) : StreamEvent → Streams
  | .arrive p bytes => { s with buffers := Function.update s.buffers p (s.buffers p ++ bytes) }
  | .line p =>
    let data := firstLine newline (s.buffers p)
    -- the newline is taken out of the buffer with the line
    { network := s.network.handle parseJson env (.read p data)
      buffers := Function.update s.buffers p ((s.buffers p).drop (data.length + 1)) }
  | .network ev => { s with network := s.network.handle parseJson env ev }

/-- An event that can happen does. -/
def Happens (kind : SessionId → SessionKind) (parseJson : List Byte → Except JsonError Json) (env : Env) (s : Streams)
    (ev : StreamEvent) (s' : Streams) : Prop :=
  s.enabled kind ev = true ∧ s' = s.handle parseJson env ev

/-- The string that an event passes to `handle_command` of the session. -/
def passes (p : SessionId) (s : Streams) (ev : StreamEvent) : Option (List Byte) :=
  (s.networkEvent ev).bind (Network.data p)

/-- The bytes that came for the session. -/
def stream (p : SessionId) (l : List (Streams × StreamEvent)) : List Byte := l.flatMap fun x => x.2.bytes p

/-- The strings passed to `handle_command` of the session, in order. -/
def passed (p : SessionId) (l : List (Streams × StreamEvent)) : List (List Byte) :=
  l.filterMap fun x => x.1.passes p x.2

theorem handle_network (parseJson : List Byte → Except JsonError Json) (env : Env) (s : Streams) (ev : StreamEvent) :
    (s.handle parseJson env ev).network =
      ((s.networkEvent ev).map fun e => s.network.handle parseJson env e).getD s.network := by
  cases ev <;> rfl

theorem enabled_network (hen : s.enabled kind ev = true) : ∀ e ∈ s.networkEvent ev, s.network.enabled e = true := by
  intro e he
  cases ev with
  | arrive q bytes => cases he
  | line q =>
    cases he
    simp only [enabled, Bool.and_eq_true] at hen
    exact hen.1.2
  | network ev =>
    cases he
    cases e with
    | read q raw => exact (Bool.and_eq_true _ _ ▸ hen).2
    | readError q => exact (Bool.and_eq_true _ _ ▸ hen).2
    | _ => exact hen

/-- Without the bytes, it is a run of the network. -/
theorem reached_network (h : Reachable (Happens kind parseJson env) init s) :
    Reachable (Network.Happens parseJson env) .init s.network := by
  have hinit : Reachable (Network.Happens parseJson env) .init init.network := Reachable.init
  apply h.inv (fun s => Reachable (Network.Happens parseJson env) .init s.network) hinit
  rintro s ev _ hr ⟨hen, rfl⟩
  have henabled := enabled_network hen
  rw [handle_network]
  cases hev : s.networkEvent ev with
  | none => exact hr
  | some e => exact hr.next ⟨henabled e hev, rfl⟩

/-! ## Nothing is lost -/

/-- The bytes in the buffer and those that come are the line that is passed on and the bytes left. -/
theorem happens_bytes (h : Happens kind parseJson env s ev s') (htcp : kind p = .tcp) :
    (∀ line ∈ (s.passes p ev).toList, newline ∉ line) ∧
      s.buffers p ++ ev.bytes p = join newline (s.passes p ev).toList ++ s'.buffers p := by
  obtain ⟨hen, rfl⟩ := h
  cases ev with
  | arrive q bytes =>
    refine ⟨by simp [passes, networkEvent], ?_⟩
    by_cases hq : q = p
    · subst hq
      simp [passes, networkEvent, handle, StreamEvent.bytes, join]
    · simp [passes, networkEvent, handle, StreamEvent.bytes, join, hq, Ne.symm hq]
  | line q =>
    by_cases hq : q = p
    · subst hq
      simp only [enabled, Bool.and_eq_true, decide_eq_true_eq] at hen
      obtain ⟨hline, heq⟩ := firstLine_eq hen.2
      refine ⟨by simpa [passes, networkEvent, Network.data] using hline, ?_⟩
      simpa [passes, networkEvent, Network.data, handle, StreamEvent.bytes, join] using heq
    · simp [passes, networkEvent, Network.data, handle, StreamEvent.bytes, join, hq, Ne.symm hq]
  | network ev =>
    -- a `TcpSession` reads no messages
    have hnone : Network.data p ev = none := by
      cases ev with
      | read q raw =>
        have hq : q ≠ p := by
          rintro rfl
          simp [enabled, htcp] at hen
        simp [Network.data, hq]
      | _ => rfl
    simp [passes, networkEvent, hnone, handle, StreamEvent.bytes, join]

/-- The stream is the lines passed on and what is in the buffer. -/
theorem run_stream (h : Run (Happens kind parseJson env) init l s) (htcp : kind p = .tcp) :
    (∀ line ∈ passed p l, newline ∉ line) ∧ stream p l = join newline (passed p l) ++ s.buffers p := by
  induction h with
  | nil => exact ⟨by simp [passed], rfl⟩
  | @snoc l s ev s' _ hst ih =>
    obtain ⟨hlines, hstream⟩ := ih
    obtain ⟨hline, hbytes⟩ := happens_bytes hst htcp
    have hpassed : passed p (l ++ [(s, ev)]) = passed p l ++ (s.passes p ev).toList := by
      rw [passed, List.filterMap_append]
      cases hp : s.passes p ev <;> simp [passed, hp]
    rw [hpassed, List.forall_mem_append]
    refine ⟨⟨hlines, hline⟩, ?_⟩
    calc stream p (l ++ [(s, ev)]) = stream p l ++ ev.bytes p := by simp [stream]
      _ = join newline (passed p l) ++ (s.buffers p ++ ev.bytes p) := by rw [hstream, List.append_assoc]
      _ = join newline (passed p l ++ (s.passes p ev).toList) ++ s'.buffers p := by
        rw [hbytes, ← List.append_assoc, join, join, join, List.flatMap_append]

/-! ## The end of the reading -/

/-- The session is not read from any more, and no line is left. -/
def Ended (p : SessionId) (s : Streams) : Prop := s.network.reading p = some false ∧ newline ∉ s.buffers p

theorem happens_readError (htcp : kind p = .tcp) (h : Happens kind parseJson env s (.network (.readError p)) s') :
    Ended p s' := by
  obtain ⟨hen, rfl⟩ := h
  simp only [enabled, htcp, Network.enabled, Bool.and_eq_true, Bool.or_eq_true, decide_eq_true_eq, Network.any_reading]
    at hen
  rcases hen with ⟨hkind | hno, hreading⟩
  · cases hkind
  · refine ⟨?_, hno⟩
    rw [handle_network]
    simp [networkEvent, Network.handle_reading, hreading]

theorem Ended.next (he : Ended p s) (h : Happens kind parseJson env s ev s') : Ended p s' := by
  obtain ⟨hreading, hno⟩ := he
  obtain ⟨hen, rfl⟩ := h
  have hstopped : (s.network.connections p).any (·.reading) = false := by
    rw [← Bool.not_eq_true, Network.any_reading, hreading]
    nofun
  constructor
  · have henabled := enabled_network hen
    rw [handle_network]
    cases hev : s.networkEvent ev with
    | none => exact hreading
    | some e =>
      -- a session is accepted once
      have hnew : e ≠ .accept p := by
        rintro rfl
        have hnone : s.network.reading p = none := by
          rw [Network.reading, Option.isNone_iff_eq_none.1 (henabled _ hev)]
          rfl
        rw [hnone] at hreading
        cases hreading
      rw [Option.map_some, Option.getD_some, Network.handle_reading, if_neg hnew, hreading, Option.map_some, ite_self]
  · cases ev with
    | arrive q bytes | line q =>
      have hq : p ≠ q := by
        rintro rfl
        simp [enabled, hstopped] at hen
      simpa [handle, hq] using hno
    | network ev => exact hno

/-- However the stream of a `TcpSession` is cut, the strings passed on and the lines still in the buffer are the lines
of the stream. Once the read has failed, all of them have been passed on. -/
theorem lines_passed (h : Run (Happens kind parseJson env) init l s) (htcp : kind p = .tcp) :
    passed p l ++ split newline (s.buffers p) = split newline (stream p l) ∧
      ∀ x ∈ l, x.2 = .network (.readError p) → passed p l = split newline (stream p l) := by
  obtain ⟨hlines, hstream⟩ := run_stream h htcp
  have hsplit : split newline (stream p l) = passed p l ++ split newline (s.buffers p) := by
    rw [hstream, split_join_append hlines]
  refine ⟨hsplit.symm, fun x hx hev => ?_⟩
  have hended : ∀ x ∈ l, x.2 = .network (.readError p) → Ended p s := by
    apply h.after (fun _ ev => ev = .network (.readError p)) fun _ s => Ended p s
    · rintro s _ s' - rfl hst
      exact happens_readError htcp hst
    · intro _ s ev s' he hst
      exact he.next hst
  rw [hsplit, split_of_not_mem (hended x hx hev).2, List.append_nil]

def take (s : Streams) (ev : StreamEvent) : Option (StreamEvent × Streams) :=
  if s.enabled (fun _ => .tcp) ev then some (ev, s.handle Network.readsLines .even ev) else none

theorem take_happens {ev' : StreamEvent} (h : s.take ev = some (ev', s')) :
    Happens (fun _ => .tcp) Network.readsLines .even s ev' s' ∧ id ev' = ev := by
  unfold take at h
  split at h
  · rename_i hen
    cases h
    exact ⟨⟨hen, rfl⟩, rfl⟩
  · cases h

/-- Alice's sign-in comes in two pieces, the second with her request for the queue and the start of a line she never
ends. -/
def twoPieces : List StreamEvent := [.network (.accept 0), .arrive 0 (Network.aliceLine.take 20),
  .arrive 0 (Network.aliceLine.drop 20 ++ newline :: Network.queueLine ++ [newline, 123]), .line 0, .network (.sent 0),
  .line 0, .network (.readError 0)]

theorem lines_passed_pieces : ∃ l s, Run (Happens (fun _ => .tcp) Network.readsLines .even) init l s ∧
    l.map Prod.snd = twoPieces ∧ passed 0 l = [Network.aliceLine, Network.queueLine] := by
  have hend : (follow take init twoPieces).isSome = true := by decide +kernel
  obtain ⟨s, hs⟩ := Option.isSome_iff_exists.1 hend
  obtain ⟨l, hr, hl⟩ := follow_run (Happens (fun _ => .tcp) Network.readsLines .even) id take_happens .nil hs
  rw [List.nil_append] at hr
  have hl' : l.map Prod.snd = twoPieces := by simpa using hl
  have hfailed : StreamEvent.network (.readError 0) ∈ l.map Prod.snd := by
    rw [hl']
    simp [twoPieces]
  obtain ⟨x, hx, hev⟩ := List.mem_map.1 hfailed
  have hstream : stream 0 l = twoPieces.flatMap (·.bytes 0) := by
    rw [← hl', List.flatMap_map]
    rfl
  have hlines : split newline (twoPieces.flatMap (·.bytes 0)) = [Network.aliceLine, Network.queueLine] := by
    decide +kernel
  exact ⟨l, s, hr, hl', by rw [(lines_passed hr rfl).2 x hx hev, hstream, hlines]⟩

end Streams

end ChessGame
