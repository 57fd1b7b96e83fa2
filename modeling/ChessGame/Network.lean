import ChessGame.Dispatch
import ChessGame.Tables
/-!
# The network

Of every session asio keeps one read and at most one write going, and the two go on
independently. An error of either makes the server forget the session, but only an
error of the read stops the reading.
-/
open Runs

namespace ChessGame

/-- What is going on for a session, and its `_outbox`. -/
structure Connection where
  /-- `do_read` waits for a line; for a WebSocket the handshake counts as the first wait. -/
  reading : Bool
  /-- What `send` has put on the strand. -/
  posted : List Message
  outbox : List Message
  /-- `do_write` waits for its completion. -/
  writing : Bool
  deriving DecidableEq, Repr

namespace Connection

/-- After `start`. -/
def new : Connection := ⟨true, [], [], false⟩

/-- The function that `send` puts on the strand. -/
def push (c : Connection) : Connection :=
  match c.posted with
  | [] => c
  | msg :: posted => { c with posted, outbox := c.outbox ++ [msg], writing := c.writing || c.outbox.isEmpty }

/-- The end of a write that went well. -/
def pop (c : Connection) : Connection := { c with outbox := c.outbox.tail, writing := !c.outbox.tail.isEmpty }

end Connection

inductive NetworkEvent where
  /-- An acceptor makes a session. -/
  | accept (p : SessionId)
  | read (p : SessionId) (raw : List Byte)
  | readError (p : SessionId)
  | sent (p : SessionId)
  | written (p : SessionId)
  | writeError (p : SessionId)
  deriving DecidableEq, Repr

structure Network where
  server : Server
  connections : SessionId → Option Connection
  /-- The sessions for which `on_disconnect` has run. No handler reads it. -/
  disconnected : List SessionId

namespace Network

variable {env : Env} {parseJson : List Byte → Except JsonError Json}

def init : Network := ⟨.init, fun _ => none, []⟩

def update (n : Network) (p : SessionId) (f : Connection → Connection) : Network :=
  { n with connections := Function.update n.connections p ((n.connections p).map f) }

/-- The calls of `send`. -/
def deliver (out : Outbox) (n : Network) : Network := { n with
  connections := fun p => (n.connections p).map fun c =>
    { c with posted := c.posted ++ (out.filter (·.1 = p)).map Prod.snd } }

/-- The server handles an event. -/
def serve (env : Env) (ev : Event) (n : Network) : Network :=
  let (server, out) := n.server.handle env ev
  deliver out { n with server }

def disconnect (env : Env) (p : SessionId) (n : Network) : Network :=
  n.serve env (.disconnect p) |> fun n => { n with disconnected := n.disconnected ++ [p] }

/-- Whether the event can happen. -/
def enabled (n : Network) : NetworkEvent → Bool
  | .accept p => (n.connections p).isNone
  | .read p _ | .readError p => (n.connections p).any (·.reading)
  | .sent p => (n.connections p).any fun c => !c.posted.isEmpty
  | .written p | .writeError p => (n.connections p).any (·.writing)

/-- The handlers of `do_read` and `do_write`. -/
def handle (parseJson : List Byte → Except JsonError Json) (env : Env) (n : Network) : NetworkEvent → Network
  | .accept p => { n.serve env (.connect p) with connections := Function.update n.connections p (some .new) }
  | .read p raw => n.serve env (.command p (ProtocolParser.parse parseJson raw).command)
  | .readError p => (n.update p fun c => { c with reading := false }).disconnect env p
  | .sent p => n.update p .push
  | .written p => n.update p .pop
  | .writeError p => (n.update p fun c => { c with writing := false }).disconnect env p

/-- An event that can happen does. -/
def Happens (parseJson : List Byte → Except JsonError Json) (env : Env) (n : Network) (ev : NetworkEvent)
    (n' : Network) : Prop :=
  n.enabled ev = true ∧ n' = n.handle parseJson env ev

/-- What reaches the server. -/
def event (parseJson : List Byte → Except JsonError Json) : NetworkEvent → Option Event
  | .accept p => some (.connect p)
  | .read p raw => some (.command p (ProtocolParser.parse parseJson raw).command)
  | .readError p | .writeError p => some (.disconnect p)
  | .sent _ | .written _ => none

theorem event_command {ev : NetworkEvent} {p : SessionId} {cmd : Command}
    (h : event parseJson ev = some (.command p cmd)) :
    ∃ raw, ev = .read p raw ∧ (ProtocolParser.parse parseJson raw).command = cmd := by
  cases ev with
  | read p' raw =>
    simp only [event, Option.some.injEq, Event.command.injEq] at h
    exact ⟨raw, by rw [h.1], h.2⟩
  | _ => cases h

theorem handle_server (parseJson : List Byte → Except JsonError Json) (env : Env) (n : Network) (ev : NetworkEvent) :
    (n.handle parseJson env ev).server = ((event parseJson ev).map fun e =>
      (n.server.handle env e).1).getD n.server := by
  cases ev <;> rfl

theorem mem_disconnected {n : Network} {ev : NetworkEvent} {p : SessionId} :
    p ∈ (n.handle parseJson env ev).disconnected ↔ p ∈ n.disconnected ∨ ev = .readError p ∨ ev = .writeError p := by
  cases ev <;> simp [handle, disconnect, serve, deliver, update, eq_comm]

end Network

/-! ## Out of the game -/

namespace Server

variable {env : Env} {s t : Server} {p : SessionId} {ev : Event}

/-- The session neither waits nor sits in a room. -/
def Out (s : Server) (p : SessionId) : Prop := p ∉ s.queue ∧ (s.sessions p).room = none

theorem Out.finish (ho : Out s p) {r : RoomId} {room : GameRoom} {decided : Option (SessionId × SessionId)}
    {write : Database → Database} {entries : List Entry} : Out (s.finish env r room decided write entries) p := by
  constructor
  · rw [finish_queue]
    exact ho.1
  · rw [finish_room]
    split
    · rfl
    · exact ho.2

/-- Only its own request for the queue brings a session in. -/
theorem Out.next (ho : Out s p) (hc : Change env s ev t) (hev : ev ≠ .command p .queue) : Out t p := by
  obtain ⟨hqueue, hroom⟩ := ho
  cases hc with
  | idle _ | refused _ | changed _ _ _ _ => exact ⟨hqueue, hroom⟩
  | login _ _ => exact ⟨hqueue, (login_seat _ _).trans hroom⟩
  | @queued p' _ _ _ =>
    have hne : p ≠ p' := by
      rintro rfl
      exact hev rfl
    exact ⟨by simpa using hne, (setInQueue_room true).trans hroom⟩
  | @paired p' q white black _ _ _ hq hor =>
    have hne : p ≠ p' := by
      rintro rfl
      exact hev rfl
    have hne' : p ≠ q := by
      rintro rfl
      rw [hq] at hqueue
      exact hqueue (List.mem_singleton_self p)
    refine ⟨List.not_mem_nil, ?_⟩
    rw [pair_other, hroom]
    obtain ⟨rfl, rfl⟩ | ⟨rfl, rfl⟩ := hor
    · exact not_or.2 ⟨hne, hne'⟩
    · exact not_or.2 ⟨hne', hne⟩
  | unqueued _ _ => exact ⟨List.not_mem_nil, (setInQueue_room false).trans hroom⟩
  | @ended _ r room _ _ =>
    rw [endGame_eq]
    exact Out.finish (s := s.setGame r room) ⟨hqueue, hroom⟩
  | quit _ _ =>
    rw [roomDisconnect_eq]
    exact Out.finish ⟨hqueue, hroom⟩

theorem onDisconnect_out (env : Env) (h : Lobby s) (p : SessionId) : Out (s.onDisconnect env p).1 p := by
  refine ⟨?_, (left_change env h p [] fun hr => Quits.disconnect hr).2⟩
  have hqueue : (s.onDisconnect env p).1.queue = (s.removeFromQueue p).1.queue := by
    show ((s.removeFromQueue p).1.leaveRoom env p).1.queue = _
    unfold leaveRoom
    split
    · rfl
    · rw [roomDisconnect_eq, finish_queue]
  rw [hqueue]
  cases hin : (s.sessions p).inQueue with
  | true =>
    rw [removeFromQueue_waiting hin]
    exact h.nodup.not_mem_erase
  | false =>
    rw [removeFromQueue_idle hin, h.queued, hin]
    exact Bool.false_ne_true

/-- A request for the queue that is not refused brings the session in. -/
theorem handleQueue_in (env : Env) (h : Lobby s) (hauth : (s.sessions p).authorized = true) (ho : Out s p) :
    ¬ Out (s.handle env (.command p .queue)).1 p := by
  obtain ⟨hqueue, hroom⟩ := ho
  have hin : (s.sessions p).inQueue = false := by
    rw [h.queued] at hqueue
    exact Bool.not_eq_true _ ▸ hqueue
  have hhandled : (s.handle env (.command p .queue)).1 = (s.handleQueue env p).1 := by
    simp [handle, handleCommand, hauth]
  rw [hhandled]
  rintro ⟨hqueue', hroom'⟩
  obtain ⟨-, he⟩ | ⟨q, white, black, -, hor, he⟩ := handleQueue_seeks env h hauth hroom hin
  · rw [he] at hqueue'
    exact hqueue' (List.mem_singleton_self p)
  · have hp : p = white ∨ p = black := by
      obtain ⟨rfl, -⟩ | ⟨-, rfl⟩ := hor
      · exact .inl rfl
      · exact .inr rfl
    rw [he, pair_seat hp] at hroom'
    cases hroom'

end Server

namespace Network

variable {env : Env} {parseJson : List Byte → Except JsonError Json} {n n' : Network} {ev : NetworkEvent}
  {l : List (Network × NetworkEvent)}

/-- The sessions that have been disconnected are out. -/
def StaysOut (n : Network) : Prop := ∀ p ∈ n.disconnected, Server.Out n.server p

/-- A line of a session that is signed in, and has been disconnected, asks for the queue. -/
def QueuesLate (parseJson : List Byte → Except JsonError Json) (n : Network) (ev : NetworkEvent) : Prop :=
  ∃ p raw, ev = .read p raw ∧ p ∈ n.disconnected ∧ (n.server.sessions p).authorized = true ∧
    (ProtocolParser.parse parseJson raw).command = .queue

/-- The server sees its events one after the other. -/
theorem reached_server (h : Reachable (Happens parseJson env) init n) : Server.Reached env n.server := by
  have hinit : Server.Reached env init.server := Reachable.init
  refine h.inv (fun n => Server.Reached env n.server) hinit ?_
  rintro n ev _ hr ⟨-, rfl⟩
  rw [handle_server]
  cases event parseJson ev with
  | none => exact hr
  | some e => exact hr.next rfl

theorem staysOut_next (hl : Server.Lobby n.server) (hout : StaysOut n) :
    StaysOut (n.handle parseJson env ev) ↔ ¬ QueuesLate parseJson n ev := by
  constructor
  · rintro hout' ⟨p, raw, rfl, hp, hauth, hqueue⟩
    have hp' := hout' p (mem_disconnected.2 (.inl hp))
    rw [handle_server, event, hqueue] at hp'
    exact Server.handleQueue_in env hl hauth (hout p hp) hp'
  · intro hno p hp
    rw [handle_server]
    obtain hp | rfl | rfl := mem_disconnected.1 hp
    · -- it was disconnected before: only a request for the queue brings it back
      cases hev : event parseJson ev with
      | none => exact hout p hp
      | some e =>
        by_cases hqueue : e = .command p .queue
        · rw [hqueue, Option.map_some, Option.getD_some]
          -- the line came from the session itself, which is not signed in
          have hauth : (n.server.sessions p).authorized = false := by
            rw [← Bool.not_eq_true]
            intro hauth
            rw [hqueue] at hev
            obtain ⟨raw, rfl, hcmd⟩ := event_command hev
            exact hno ⟨p, raw, rfl, hp, hauth, hcmd⟩
          simpa [Server.handle, Server.handleCommand, hauth] using hout p hp
        · exact (hout p hp).next (Server.handle_change env hl e) hqueue
    · exact Server.onDisconnect_out env hl p
    · exact Server.onDisconnect_out env hl p

theorem init_staysOut : StaysOut init := nofun

/-- In a run no disconnected session comes back exactly when none of them, while signed in, asks for the queue. -/
theorem staysOut_iff (h : Run (Happens parseJson env) init l n) :
    ((∀ x ∈ l, StaysOut x.1) ∧ StaysOut n) ↔ ∀ x ∈ l, ¬ QueuesLate parseJson x.1 x.2 := by
  refine (h.always_iff StaysOut (fun _ => True) (fun n ev => ¬ QueuesLate parseJson n ev) init_staysOut trivial ?_).1
  rintro n ev _ hr hout - ⟨-, rfl⟩
  exact ⟨trivial, staysOut_next (reached_server hr).lobby hout⟩

/-! ### A line that was already there -/

def aliceLine : List Byte := utf8 "\x7b\"nick\":\"alice\",\"password\":\"a\",\"type\":\"auth\"\x7d"

def bobLine : List Byte := utf8 "\x7b\"nick\":\"bob\",\"password\":\"b\",\"type\":\"auth\"\x7d"

def queueLine : List Byte := utf8 "\x7b\"type\":\"queue\"\x7d"

/-- What the library reads from the lines. -/
def readsLines (data : List Byte) : Except JsonError Json :=
  if data = aliceLine then
    .ok (.object [("nick", .string "alice"), ("password", .string "a"), ("type", .string "auth")])
  else if data = bobLine then
    .ok (.object [("nick", .string "bob"), ("password", .string "b"), ("type", .string "auth")])
  else if data = queueLine then .ok (.object [("type", .string "queue")])
  else .error .parseError

def take (n : Network) (ev : NetworkEvent) : Option (NetworkEvent × Network) :=
  if n.enabled ev then some (ev, n.handle readsLines .even ev) else none

theorem take_happens {ev' : NetworkEvent} (h : n.take ev = some (ev', n')) :
    Happens readsLines .even n ev' n' ∧ id ev' = ev := by
  unfold take at h
  split at h
  · rename_i hen
    cases h
    exact ⟨⟨hen, rfl⟩, rfl⟩
  · cases h

/-- Alice signs in again after the answer to her first sign-in could not be written. -/
def signInTwice : List NetworkEvent := [.accept 0, .read 0 aliceLine, .sent 0, .writeError 0, .read 0 aliceLine]

theorem staysOut_sign_in : ∃ l n, Run (Happens readsLines .even) init l n ∧ l.map Prod.snd = signInTwice ∧
    0 ∈ n.disconnected ∧ StaysOut n := by
  have hend : (follow take init signInTwice).any (fun n => 0 ∈ n.disconnected) = true := by decide +kernel
  obtain ⟨n, hn, hgone⟩ := (Option.any_eq_true _ _).1 hend
  obtain ⟨l, hr, hl⟩ := follow_run (Happens readsLines .even) id take_happens .nil hn
  have hl' : l.map Prod.snd = signInTwice := by simpa using hl
  refine ⟨l, n, hr, hl', of_decide_eq_true hgone, ((staysOut_iff hr).2 ?_).2⟩
  rintro x hx ⟨p, raw, hev, -, -, hqueue⟩
  have hmem : NetworkEvent.read p raw ∈ signInTwice := by
    rw [← hl', ← hev]
    exact List.mem_map_of_mem hx
  obtain ⟨-, rfl⟩ : p = 0 ∧ raw = aliceLine := by simpa [signInTwice] using hmem
  have hcommand : (ProtocolParser.parse readsLines aliceLine).command ≠ .queue := by decide +kernel
  exact hcommand hqueue

/-- Bob waits. The answer to Alice's sign-in cannot be written, and the next line of hers is already there. -/
def lateLine : List NetworkEvent := [.accept 0, .accept 1, .read 1 bobLine, .read 1 queueLine, .read 0 aliceLine,
  .sent 0, .writeError 0, .read 0 queueLine]

/-- Alice is gone, and Bob is matched with her. -/
theorem staysOut_fails : ∃ l n, Run (Happens readsLines .even) init l n ∧ l.map Prod.snd = lateLine ∧
    0 ∈ n.disconnected ∧ 1 ∉ n.disconnected ∧ (n.server.sessions 0).room = some 0 ∧
    (n.server.sessions 1).room = some 0 ∧ ¬ StaysOut n := by
  have hend : (follow take init lateLine).any (fun n => 0 ∈ n.disconnected ∧ 1 ∉ n.disconnected ∧
      (n.server.sessions 0).room = some 0 ∧ (n.server.sessions 1).room = some 0) = true := by decide +kernel
  obtain ⟨n, hn, htest⟩ := (Option.any_eq_true _ _).1 hend
  obtain ⟨hgone, hthere, h0, h1⟩ := of_decide_eq_true htest
  obtain ⟨l, hr, hl⟩ := follow_run (Happens readsLines .even) id take_happens .nil hn
  refine ⟨l, n, hr, by simpa using hl, hgone, hthere, h0, h1, fun hout => ?_⟩
  rw [(hout 0 hgone).2] at h0
  cases h0

end Network

end ChessGame
