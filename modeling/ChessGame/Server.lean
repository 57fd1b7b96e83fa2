import ChessGame.Room
import ChessGame.Database
/-!
# The server

`server.cpp`, the part of `game_room.cpp` that reaches sessions and database,
and the dispatch of `handle_command`, which the two kinds of session share. The
server runs on one thread, so the events are handled one after the other.

A handler returns the new state and the messages it sends. `_rooms` keeps every
room, so a session's weak pointer is the room's index and never expires.
-/

namespace ChessGame

abbrev RoomId := ℕ

structure Session where
  authorized : Bool
  nick : String
  rating : ℤ
  userId : ℤ
  room : Option RoomId
  inQueue : Bool
  deriving DecidableEq, Repr

/-- A session as `TcpSession` and `WebSocketSession` construct it. -/
def Session.new : Session := ⟨false, "", 1000, -1, none, false⟩

inductive Message where
  | ok (message : String)
  | error (message : String)
  | queueUpdate (size : ℕ)
  | matchFound (opponent fen youAre : String)
  | chat («from» text : String)
  | move («from» «to» «by» fen : String)
  | check (side : String)
  | gameOver (result : String) (winner : Option String)
  | ratingUpdate (rating : ℤ)
  | drawOffer («from» : String)
  | drawDeclined («by» : String)
  | opponentDisconnected
  | leaderboard (players : List (ℤ × String × ℤ))
  deriving DecidableEq, Repr

abbrev Outbox := List (SessionId × Message)

/-- A record of what happened to the rooms. The model keeps it for the
theorems; no handler reads it. -/
inductive Entry where
  /-- `try_matchmake` created the room for sessions with these user ids. -/
  | matched (room : RoomId) (white black : ℤ)
  /-- `end_game` or `GameRoom::on_disconnect` ran on the room whose sessions had these user ids. -/
  | ended (room : RoomId) (white black : ℤ) (winner : Option ℤ)
  /-- `update_rating` ran: the two user ids and what it added to the ratings. -/
  | rated (room : RoomId) (winner loser gain loss : ℤ)
  /-- `save_game` ran with these ids. -/
  | saved (room : RoomId) (white black winner : ℤ)
  deriving DecidableEq, Repr

def Entry.room : Entry → RoomId
  | matched r .. | ended r .. | rated r .. | saved r .. => r

structure Server where
  allPlayers : List SessionId
  sessions : SessionId → Session
  queue : List SessionId
  rooms : List GameRoom
  db : Database
  journal : List Entry

/-- The commands `ProtocolParser::parse` yields, by their type. -/
inductive Command where
  /-- `is_valid` is false. -/
  | invalid
  | ping
  | auth (nick password : String)
  | leaderboard
  | queue
  | leave
  | chat (text : String)
  | move («from» «to» promotion : String)
  | draw (action : String)
  /-- Any other type. -/
  | unknown
  deriving DecidableEq, Repr

inductive Event where
  | connect (player : SessionId)
  | command (player : SessionId) (cmd : Command)
  /-- A read or write error of the session's socket. -/
  | disconnect (player : SessionId)
  deriving DecidableEq, Repr

namespace Server

/-- On tables that have just been created. -/
def init : Server := ⟨[], fun _ => .new, [], [], .empty, []⟩

/-! ## Sessions -/

def setSession (s : Server) (p : SessionId) (f : Session → Session) : Server :=
  { s with sessions := Function.update s.sessions p (f (s.sessions p)) }

def setRoom (s : Server) (p : SessionId) (room : Option RoomId) : Server := s.setSession p fun x => { x with room }

def setRating (s : Server) (p : SessionId) (rating : ℤ) : Server := s.setSession p fun x => { x with rating }

def setInQueue (s : Server) (p : SessionId) (inQueue : Bool) : Server := s.setSession p fun x => { x with inQueue }

def nick (s : Server) (p : SessionId) : String := (s.sessions p).nick

def userId (s : Server) (p : SessionId) : ℤ := (s.sessions p).userId

def rating (s : Server) (p : SessionId) : ℤ := (s.sessions p).rating

/-- `player->room().lock()`. -/
def roomOf (s : Server) (p : SessionId) : Option (RoomId × GameRoom) :=
  match (s.sessions p).room with
  | none => none
  | some r =>
    match s.rooms[r]? with
    | none => none
    | some room => some (r, room)

def setGame (s : Server) (r : RoomId) (room : GameRoom) : Server := { s with rooms := s.rooms.set r room }

def log (s : Server) (e : Entry) : Server := { s with journal := s.journal ++ [e] }

def broadcastQueueSize (s : Server) : Outbox :=
  (s.allPlayers.filter fun p => (s.sessions p).authorized).map fun p => (p, .queueUpdate s.queue.length)

/-- `GameRoom::broadcast`. -/
def broadcast (room : GameRoom) (msg : Message) : Outbox := [(room.white, msg), (room.black, msg)]

/-! ## The end of a game -/

/-- `std::lround`: halves away from zero. -/
def lround (x : ℚ) : ℤ := if 0 ≤ x then ⌊x + 1 / 2⌋ else ⌈x - 1 / 2⌉

def newWinnerRating (env : Env) (ra rb : ℤ) : ℤ := lround (ra + 32 * (1 - env.expectedScore ra rb))

def newLoserRating (env : Env) (ra rb : ℤ) : ℤ := lround (rb + 32 * (0 - (1 - env.expectedScore ra rb)))

/-- `GameRoom::update_rating`. The statements go out one after the other. -/
def updateRating (env : Env) (r : RoomId) (winner loser : SessionId) (s : Server) : Server × Outbox :=
  let ra := s.rating winner
  let rb := s.rating loser
  let winnerRating := newWinnerRating env ra rb
  let loserRating := newLoserRating env ra rb
  let s := (s.setRating winner winnerRating).setRating loser loserRating
  let db := s.db.updateRating (s.userId winner) winnerRating
  let db := db.updateRating (s.userId loser) loserRating
  let db := db.updateStats (s.userId winner) true false
  let db := db.updateStats (s.userId loser) false false
  let s := { s with db }
  let s := s.log (.rated r (s.userId winner) (s.userId loser) (winnerRating - ra) (loserRating - rb))
  (s, [(winner, .ratingUpdate (s.rating winner)), (loser, .ratingUpdate (s.rating loser))])

/-- `if (winner) { auto loser = opponent_of(winner); if (loser) update_rating(winner, loser); }`. -/
def rateWinner (env : Env) (r : RoomId) (room : GameRoom) (winner : Option SessionId) (s : Server) : Server × Outbox :=
  match winner with
  | none => (s, [])
  | some w =>
    match room.opponentOf w with
    | none => (s, [])
    | some loser => s.updateRating env r w loser

/-- `set_room({})` on both players. -/
def clearSeats (s : Server) (room : GameRoom) : Server := (s.setRoom room.white none).setRoom room.black none

/-- `GameRoom::end_game`. -/
def endGame (env : Env) (r : RoomId) (room : GameRoom) (e : Ending) (s : Server) : Server × Outbox :=
  let (s, out) := s.rateWinner env r room e.winner
  let whiteId := s.userId room.white
  let blackId := s.userId room.black
  let winnerId := match e.winner with
    | some w => s.userId w
    | none => -1
  let s := { s with db := s.db.saveGame whiteId blackId winnerId e.result.text room.position.getFen }
  let s := s.log (.saved r whiteId blackId winnerId)
  let s := s.log (.ended r whiteId blackId (e.winner.map s.userId))
  let out := out ++ broadcast room (.gameOver e.result.text (e.winner.map s.nick))
  (s.clearSeats room, out)

/-- `GameRoom::on_disconnect`. -/
def roomDisconnect (env : Env) (r : RoomId) (room : GameRoom) (who : SessionId) (s : Server) : Server × Outbox :=
  let other := room.opponentOf who
  let (s, out) := match other with
    | none => (s, [])
    | some other =>
      let (s, out) := s.updateRating env r other who
      (s.setRoom other none, (other, Message.opponentDisconnected) :: out)
  let s := s.log (.ended r (s.userId room.white) (s.userId room.black) (other.map s.userId))
  (s.clearSeats room, out)

/-! ## The queue -/

def removeFromQueue (p : SessionId) (s : Server) : Server × Outbox :=
  if (s.sessions p).inQueue then
    let s := s.setInQueue p false
    let s := { s with queue := s.queue.erase p }
    (s, s.broadcastQueueSize)
  else (s, [])

/-- The candidate with the nearest rating, the first of several. -/
def bestOpponent (s : Server) (first : SessionId) (best : SessionId) (rest : List SessionId) : SessionId :=
  rest.foldl (fun best p =>
    if |s.rating p - s.rating first| < |s.rating best - s.rating first| then p else best) best

/-- The room for two players, seated and told about it. -/
def openRoom (s : Server) (white black : SessionId) : Server × Outbox :=
  let r := s.rooms.length
  let s := { s with rooms := s.rooms ++ [GameRoom.new white black] }
  let s := (s.setRoom white (some r)).setRoom black (some r)
  let s := s.log (.matched r (s.userId white) (s.userId black))
  let fen := Position.init.getFen
  (s, [(white, .matchFound (s.nick black) fen "white"), (black, .matchFound (s.nick white) fen "black")])

def tryMatchmake (env : Env) (s : Server) : Server × Outbox :=
  match env.sort s.rating s.queue with
  | first :: second :: rest =>
    let white := first
    let black := s.bestOpponent first second rest
    let (s, out) := s.removeFromQueue white
    let (s, out') := s.removeFromQueue black
    let (s, out'') := s.openRoom white black
    (s, out ++ out' ++ out'')
  | _ => (s, [])

/-! ## The handlers -/

def handleAuth (env : Env) (p : SessionId) (nick password : String) (s : Server) : Server × Outbox :=
  if nick.isEmpty then (s, [(p, .error "nick required")])
  else
    match s.db.loginOrRegister env nick password with
    | (some info, db) =>
      let s := { s with db }
      let s := s.setSession p fun x =>
        { x with authorized := true, nick := info.nickname, rating := info.rating, userId := info.id }
      (s, [(p, .ok "authorized"), (p, .ratingUpdate (s.rating p))])
    | (none, db) => ({ s with db }, [(p, .error "Authentication failed")])

def handleQueue (env : Env) (p : SessionId) (s : Server) : Server × Outbox :=
  if !(s.sessions p).authorized then (s, [(p, .error "not authorized")])
  else if (s.sessions p).room.isSome then (s, [(p, .error "already in game")])
  else if (s.sessions p).inQueue then (s, [(p, .ok "already queued")])
  else
    let s := s.setInQueue p true
    let s := { s with queue := s.queue ++ [p] }
    let out := (p, Message.ok "queued") :: s.broadcastQueueSize
    let (s, out') := s.tryMatchmake env
    (s, out ++ out')

/-- `auto room = player->room().lock(); if (room) room->on_disconnect(player);`. -/
def leaveRoom (env : Env) (p : SessionId) (s : Server) : Server × Outbox :=
  match s.roomOf p with
  | none => (s, [])
  | some (r, room) => s.roomDisconnect env r room p

def handleLeave (env : Env) (p : SessionId) (s : Server) : Server × Outbox :=
  let (s, out) := s.removeFromQueue p
  let (s, out') := s.leaveRoom env p
  (s.setRoom p none, out ++ out' ++ [(p, .ok "left")])

def handleChat (p : SessionId) (text : String) (s : Server) : Server × Outbox :=
  if !(s.sessions p).authorized then (s, [(p, .error "not authorized")])
  else
    match s.roomOf p with
    | none => (s, [(p, .error "not in game")])
    | some (_, room) =>
      let out := match room.opponentOf p with
        | none => []
        | some «to» => [(«to», Message.chat (s.nick p) text)]
      (s, out ++ [(p, .ok "sent")])

/-- `GameRoom::on_move` with its effects on the server. -/
def roomMove (env : Env) (r : RoomId) (room : GameRoom) (call : MoveCall) (s : Server) : Server × Outbox :=
  match room.onMove call with
  | .error text => (s, [(call.player, .error text)])
  | .ok (room, ending) =>
    let s := s.setGame r room
    let out := broadcast room (.move call.fromSq call.toSq (s.nick call.player) room.position.getFen)
    match ending with
    | some e =>
      let (s, out') := s.endGame env r room e
      (s, out ++ out')
    | none =>
      let side := room.position.sideToMove
      if MoveGen.isCheck room.position.pieces side then
        (s, out ++ broadcast room (.check (if side = .white then "white" else "black")))
      else (s, out)

def handleMove (env : Env) (p : SessionId) (src dst promotion : String) (s : Server) : Server × Outbox :=
  if !(s.sessions p).authorized then (s, [(p, .error "not authorized")])
  else
    match s.roomOf p with
    | none => (s, [(p, .error "not in game")])
    | some (r, room) => s.roomMove env r room ⟨p, src, dst, promotion⟩

def handleDraw (env : Env) (p : SessionId) (action : String) (s : Server) : Server × Outbox :=
  if !(s.sessions p).authorized then (s, [(p, .error "not authorized")])
  else
    match s.roomOf p with
    | none => (s, [(p, .error "not in game")])
    | some (r, room) =>
      let action := if action.isEmpty then "offer" else action
      if action = "offer" then
        let out := match room.opponentOf p with
          | none => []
          | some «to» => [(«to», Message.drawOffer (s.nick p))]
        (s.setGame r (room.onDrawRequest p), out ++ [(p, .ok "draw offered")])
      else if action = "accept" then
        match room.onDrawAccept p with
        | some e =>
          let (s, out) := s.endGame env r room e
          (s, out ++ [(p, .ok "draw accepted")])
        | none => (s, [(p, .error "no draw offer to accept")])
      else if action = "decline" then
        match room.onDrawDecline p with
        | some (room, told) =>
          (s.setGame r room, [(told, .drawDeclined (s.nick p)), (p, .ok "draw declined")])
        | none => (s, [(p, .error "no draw offer to decline")])
      else (s, [(p, .error "unknown draw action")])

def handleLeaderboard (p : SessionId) (s : Server) : Server × Outbox :=
  if !(s.sessions p).authorized then (s, [(p, .error "not authorized")])
  else (s, [(p, .leaderboard (s.db.getTopPlayers 10))])

/-- `ChessServer::on_disconnect`. -/
def onDisconnect (env : Env) (p : SessionId) (s : Server) : Server × Outbox :=
  let (s, out) := s.removeFromQueue p
  let (s, out') := s.leaveRoom env p
  let s := { s with allPlayers := s.allPlayers.filter (· ≠ p) }
  (s, out ++ out' ++ s.broadcastQueueSize)

/-- `TcpSession::handle_command`, `WebSocketSession::handle_command`. -/
def handleCommand (env : Env) (p : SessionId) (cmd : Command) (s : Server) : Server × Outbox :=
  match cmd with
  | .invalid => (s, [(p, .error "Invalid format")])
  | .ping => (s, [(p, .ok "pong")])
  | .auth nick password => s.handleAuth env p nick password
  | .leaderboard => s.handleLeaderboard p
  | cmd =>
    if !(s.sessions p).authorized then (s, [(p, .error "Not authorized")])
    else
      match cmd with
      | .queue => s.handleQueue env p
      | .leave => s.handleLeave env p
      | .chat text => s.handleChat p text
      | .move src dst promotion => s.handleMove env p src dst promotion
      | .draw action => s.handleDraw env p action
      | _ => (s, [(p, .error "Unknown command")])

def handle (env : Env) (s : Server) : Event → Server × Outbox
  | .connect p => ({ s with allPlayers := s.allPlayers ++ [p] }, [])
  | .command p cmd => s.handleCommand env p cmd
  | .disconnect p => s.onDisconnect env p

end Server

end ChessGame
