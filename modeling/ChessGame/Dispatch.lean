import ChessGame.Protocol
import ChessGame.Server
/-!
# Which branch a line takes

`TcpSession::handle_command` and `WebSocketSession::handle_command`. The two are
written out separately and take the same branches. The commands they know are those
the parser yields, and `leaderboard`, which the factory has no class for.
-/

namespace ChessGame

open Protocol ProtocolParser

/-- Where `handle_command` ends up. -/
inductive Branch where
  | invalidFormat | pong | auth | leaderboard | notAuthorized | queue | leave | chat | move | draw | unknownCommand
  deriving DecidableEq, Repr

def TcpSession.handleCommand (authorized : Bool) (cmd : GameCommand) : Branch :=
  if !cmd.isValid then .invalidFormat
  else if cmd.type = "ping" then .pong
  else if cmd.type = "auth" then .auth
  else if cmd.type = "leaderboard" then .leaderboard
  else if !authorized then .notAuthorized
  else if cmd.type = "queue" then .queue
  else if cmd.type = "leave" then .leave
  else if cmd.type = "chat" then .chat
  else if cmd.type = "move" then .move
  else if cmd.type = "draw" then .draw
  else .unknownCommand

def WebSocketSession.handleCommand (authorized : Bool) (cmd : GameCommand) : Branch :=
  if !cmd.isValid then .invalidFormat
  else if cmd.type = "ping" then .pong
  else if cmd.type = "auth" then .auth
  else if cmd.type = "leaderboard" then .leaderboard
  else if !authorized then .notAuthorized
  else if cmd.type = "queue" then .queue
  else if cmd.type = "leave" then .leave
  else if cmd.type = "chat" then .chat
  else if cmd.type = "move" then .move
  else if cmd.type = "draw" then .draw
  else .unknownCommand

/-! ## The branches of the server -/

/-- What the branch does. -/
def Branch.run (env : Env) (p : SessionId) (cmd : GameCommand) (s : Server) : Branch → Server × Outbox
  | .invalidFormat => (s, [(p, .error "Invalid format")])
  | .pong => (s, [(p, .ok "pong")])
  | .auth => s.handleAuth env p cmd.nick cmd.password
  | .leaderboard => s.handleLeaderboard p
  | .notAuthorized => (s, [(p, .error "Not authorized")])
  | .queue => s.handleQueue env p
  | .leave => s.handleLeave env p
  | .chat => s.handleChat p cmd.text
  | .move => s.handleMove env p cmd.from cmd.to cmd.promotion
  | .draw => s.handleDraw env p cmd.action
  | .unknownCommand => (s, [(p, .error "Unknown command")])

/-- The command by its type, with the members its branch reads. -/
def GameCommand.command (cmd : GameCommand) : Command :=
  if !cmd.isValid then .invalid
  else if cmd.type = "ping" then .ping
  else if cmd.type = "auth" then .auth cmd.nick cmd.password
  else if cmd.type = "leaderboard" then .leaderboard
  else if cmd.type = "queue" then .queue
  else if cmd.type = "leave" then .leave
  else if cmd.type = "chat" then .chat cmd.text
  else if cmd.type = "move" then .move cmd.from cmd.to cmd.promotion
  else if cmd.type = "draw" then .draw cmd.action
  else .unknown

/-- The server's handler does what the branch does. -/
theorem handleCommand_branch (env : Env) (p : SessionId) (cmd : GameCommand) (s : Server) :
    s.handleCommand env p cmd.command = (TcpSession.handleCommand (s.sessions p).authorized cmd).run env p cmd s := by
  unfold GameCommand.command TcpSession.handleCommand
  by_cases hvalid : (!cmd.isValid) = true
  · rw [if_pos hvalid, if_pos hvalid]; rfl
  rw [if_neg hvalid, if_neg hvalid]
  by_cases hping : cmd.type = "ping"
  · rw [if_pos hping, if_pos hping]; rfl
  rw [if_neg hping, if_neg hping]
  by_cases hlogin : cmd.type = "auth"
  · rw [if_pos hlogin, if_pos hlogin]; rfl
  rw [if_neg hlogin, if_neg hlogin]
  by_cases hleaders : cmd.type = "leaderboard"
  · rw [if_pos hleaders, if_pos hleaders]; rfl
  rw [if_neg hleaders, if_neg hleaders]
  -- the others are only for sessions that are signed in
  cases hauth : (s.sessions p).authorized with
  | false =>
    rw [if_pos (show (!false) = true from rfl)]
    split_ifs <;> simp [Server.handleCommand, hauth, Branch.run]
  | true =>
    rw [if_neg (show ¬ (!true) = true by decide)]
    split_ifs <;> simp [Server.handleCommand, hauth, Branch.run]

/-! ## Parser and dispatchers -/

/-- The types that the dispatchers compare with. -/
def dispatched : List String := ["ping", "auth", "leaderboard", "queue", "leave", "chat", "move", "draw"]

/-- The branch for a type. -/
def branchOf : String → Branch
  | "ping" => .pong
  | "auth" => .auth
  | "leaderboard" => .leaderboard
  | "queue" => .queue
  | "leave" => .leave
  | "chat" => .chat
  | "move" => .move
  | "draw" => .draw
  | _ => .unknownCommand

/-- An object with this type and with what a class of the type needs. -/
structure Asks (type : String) (j : Json) : Prop where
  typed : j.find "type" = some (.string type)
  members : ∀ k : RequestClass, k.name = type → Suits k j

/-- The line becomes a valid command of this type with the object's members, and both dispatchers take its branch. -/
structure Obeyed (parseJson : List Byte → Except JsonError Json) (raw : List Byte) (type : String) (j : Json) :
    Prop where
  valid : (parse parseJson raw).isValid = true
  typed : (parse parseJson raw).type = type
  members : ∀ k : RequestClass, k.name = type → ∀ key ∈ k.fields, Reads j key ((parse parseJson raw).field key)
  tcp : TcpSession.handleCommand true (parse parseJson raw) = branchOf type
  webSocket : WebSocketSession.handleCommand true (parse parseJson raw) = branchOf type

variable {cmd : GameCommand} {type : String} {k : RequestClass} {j : Json} {raw : List Byte}
  {parseJson : List Byte → Except JsonError Json} {authorized : Bool}

theorem sessions_agree (authorized : Bool) (cmd : GameCommand) :
    TcpSession.handleCommand authorized cmd = WebSocketSession.handleCommand authorized cmd := rfl

theorem handleCommand_dispatched (hv : cmd.isValid = true) (ht : cmd.type ∈ dispatched) :
    TcpSession.handleCommand true cmd = branchOf cmd.type := by
  simp only [dispatched, List.mem_cons, List.not_mem_nil, or_false] at ht
  unfold TcpSession.handleCommand
  rcases ht with ht | ht | ht | ht | ht | ht | ht | ht <;> rw [ht, hv] <;> rfl

/-- The classes of the factory are the types dispatched on but one. -/
theorem dispatched_iff (ht : type ∈ dispatched) : (∃ k : RequestClass, k.name = type) ↔ type ≠ "leaderboard" := by
  simp only [dispatched, List.mem_cons, List.not_mem_nil, or_false] at ht
  constructor
  · rintro ⟨k, rfl⟩
    cases k <;> decide
  · intro hne
    rcases ht with rfl | rfl | rfl | rfl | rfl | rfl | rfl | rfl
    · exact ⟨.ping, rfl⟩
    · exact ⟨.auth, rfl⟩
    · exact absurd rfl hne
    · exact ⟨.queue, rfl⟩
    · exact ⟨.leave, rfl⟩
    · exact ⟨.chat, rfl⟩
    · exact ⟨.move, rfl⟩
    · exact ⟨.draw, rfl⟩

theorem name_dispatched (k : RequestClass) : k.name ∈ dispatched := by cases k <;> decide

/-- A valid command has the type of one of the classes. -/
theorem parse_type (hv : (parse parseJson raw).isValid = true) :
    ∃ k : RequestClass, (parse parseJson raw).type = k.name := by
  obtain ⟨j, k, hj, hread⟩ := parse_valid.1 hv
  obtain ⟨m, b, hm, hmade⟩ := parse_readable hj hread
  exact ⟨k, by rw [hm, hmade.type]⟩

theorem parse_known (authorized : Bool) (hv : (parse parseJson raw).isValid = true) :
    TcpSession.handleCommand authorized (parse parseJson raw) ≠ .unknownCommand := by
  obtain ⟨k, hk⟩ := parse_type hv
  unfold TcpSession.handleCommand
  cases authorized <;> cases k <;> rw [hk, hv] <;> decide

theorem Asks.obeyed (h : Asks type j) (hj : parseJson (trim raw) = .ok j) (hk : k.name = type) :
    Obeyed parseJson raw type j := by
  obtain ⟨m, b, hm, hmade⟩ := parse_readable hj (h.members k hk).readable
  have hbranch : TcpSession.handleCommand true (parse parseJson raw) = branchOf type := by
    rw [hm, handleCommand_dispatched hmade.valid (hmade.type ▸ name_dispatched k), hmade.type, hk]
  refine ⟨hm ▸ hmade.valid, by rw [hm, hmade.type, hk], fun k' hk' => ?_, hbranch, hbranch⟩
  rw [RequestClass.name_inj (hk'.trans hk.symm), hm]
  exact hmade.fields

/-- Parser and dispatchers agree on every type but `leaderboard`, which the parser never yields. The two kinds of
session take the same branch for every line, and none of them turns a valid command down as unknown. -/
theorem parse_dispatch (ht : type ∈ dispatched) (hj : parseJson (trim raw) = .ok j) (h : Asks type j) (line : List Byte)
    (authorized : Bool) :
    (Obeyed parseJson raw type j ↔ type ≠ "leaderboard") ∧
      TcpSession.handleCommand authorized (parse parseJson line) =
        WebSocketSession.handleCommand authorized (parse parseJson line) ∧
      ((parse parseJson line).isValid = true →
        TcpSession.handleCommand authorized (parse parseJson line) ≠ .unknownCommand) := by
  refine ⟨?_, sessions_agree authorized _, parse_known authorized⟩
  rw [← dispatched_iff ht]
  constructor
  · intro hobeyed
    obtain ⟨k, hk⟩ := parse_type hobeyed.valid
    exact ⟨k, hk.symm.trans hobeyed.typed⟩
  · rintro ⟨k, hk⟩
    exact h.obeyed hj hk

def chatLine : List Byte := utf8 "\x7b\"text\":\"hi\",\"type\":\"chat\"\x7d"

def chatJson : Json := .object [("text", .string "hi"), ("type", .string "chat")]

theorem parse_dispatch_chat : Obeyed (parsesOnly chatLine chatJson) (newline :: chatLine) "chat" chatJson := by
  have htrim : trim (newline :: chatLine) = chatLine := by decide +kernel
  have hj : parsesOnly chatLine chatJson (trim (newline :: chatLine)) = .ok chatJson := by
    rw [htrim, parsesOnly, if_pos rfl]
  have hasks : Asks "chat" chatJson := by
    refine ⟨rfl, fun k hk => ?_⟩
    obtain rfl : RequestClass.chat = k := RequestClass.name_inj hk.symm
    refine ⟨rfl, fun key hkey => ⟨"hi", by decide, ?_⟩, List.forall_mem_nil _⟩
    rw [List.mem_singleton.1 hkey]
    rfl
  exact (parse_dispatch (by decide) hj hasks chatLine true).1.2 (by decide)

def leaderboardLine : List Byte := utf8 "\x7b\"type\":\"leaderboard\"\x7d"

/-- The request for the leaderboard does not get through. -/
theorem parse_dispatch_leaderboard :
    parsesOnly leaderboardLine (.object [("type", .string "leaderboard")]) (trim leaderboardLine) =
      .ok (.object [("type", .string "leaderboard")]) ∧
    Asks "leaderboard" (.object [("type", .string "leaderboard")]) ∧
    ¬ Obeyed (parsesOnly leaderboardLine (.object [("type", .string "leaderboard")])) leaderboardLine "leaderboard"
      (.object [("type", .string "leaderboard")]) ∧
    TcpSession.handleCommand true (parse (parsesOnly leaderboardLine (.object [("type", .string "leaderboard")]))
      leaderboardLine) = .invalidFormat := by
  have htrim : trim leaderboardLine = leaderboardLine := by decide +kernel
  have hj : parsesOnly leaderboardLine (.object [("type", .string "leaderboard")]) (trim leaderboardLine) =
      .ok (.object [("type", .string "leaderboard")]) := by
    rw [htrim, parsesOnly, if_pos rfl]
  have hinvalid : (parse (parsesOnly leaderboardLine
      (.object [("type", .string "leaderboard")])) leaderboardLine).isValid =
      false := by
    rw [parse, tryParse, hj]
    rfl
  refine ⟨hj, ⟨rfl, fun k hk => ?_⟩, fun hobeyed => ?_, ?_⟩
  · cases k <;> exact absurd hk (by decide)
  · rw [hobeyed.valid] at hinvalid
    cases hinvalid
  · rw [TcpSession.handleCommand, hinvalid]
    rfl

end ChessGame
