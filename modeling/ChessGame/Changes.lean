import ChessGame.Sessions
import ChessGame.Play
/-!
# What an event does to the server

`handle_change` sums up the handlers: in a lobby that is in order, every event
does one of nine things. The results about runs of the server are case analyses
over them.
-/

namespace ChessGame

namespace Server

variable {env : Env} {s s' : Server} {p q : SessionId} {r : RoomId} {room : GameRoom}

/-! ## The queue -/

/-- The room in which two queued sessions meet. -/
def pair (s : Server) (white black : SessionId) : Server := { s with
  sessions := fun q => if q = white ∨ q = black then
    { s.sessions q with inQueue := false, room := some s.rooms.length } else s.sessions q
  queue := []
  rooms := s.rooms ++ [GameRoom.new white black]
  journal := s.journal ++ [.matched s.rooms.length (s.userId white) (s.userId black)] }

section
variable {white black : SessionId}

theorem pair_seat (h : q = white ∨ q = black) : (s.pair white black).sessions q =
    { s.sessions q with inQueue := false, room := some s.rooms.length } := if_pos h

theorem pair_other (h : ¬(q = white ∨ q = black)) : (s.pair white black).sessions q = s.sessions q := if_neg h

/-- Matching changes nothing about a session but where it sits and waits. -/
theorem pair_field {α : Type} (field : Session → α)
    (hf : ∀ x inQueue room, field { x with inQueue, room } = field x) (q : SessionId) :
    field ((s.pair white black).sessions q) = field (s.sessions q) := by
  by_cases hq : q = white ∨ q = black
  · rw [pair_seat hq, hf]
  · rw [pair_other hq]

theorem pair_userId (q : SessionId) : (s.pair white black).userId q = s.userId q :=
  pair_field Session.userId (fun _ _ _ => by rfl) q

theorem pair_rating (q : SessionId) : (s.pair white black).rating q = s.rating q :=
  pair_field Session.rating (fun _ _ _ => by rfl) q

theorem pair_authorized (q : SessionId) : ((s.pair white black).sessions q).authorized = (s.sessions q).authorized :=
  pair_field Session.authorized (fun _ _ _ => by rfl) q

/-- A seat in a room that was there before is an old one. -/
theorem pair_old_seat (hlt : r < s.rooms.length) (hq : ((s.pair white black).sessions q).room = some r) :
    (s.sessions q).room = some r := by
  by_cases hor : q = white ∨ q = black
  · rw [pair_seat hor] at hq
    cases hq
    exact absurd hlt (lt_irrefl _)
  · rwa [pair_other hor] at hq

/-- The two had no seat, so every seat is kept. -/
theorem pair_keeps (hw : (s.sessions white).room = none) (hb : (s.sessions black).room = none)
    (hq : (s.sessions q).room = some r) : ((s.pair white black).sessions q).room = some r := by
  rw [pair_other, hq]
  rintro (rfl | rfl)
  · rw [hw] at hq
    cases hq
  · rw [hb] at hq
    cases hq

theorem pair_new : (s.pair white black).rooms[s.rooms.length]? = some (GameRoom.new white black) :=
  List.getElem?_concat_length

theorem pair_old (h : s.rooms[r]? = some room) : (s.pair white black).rooms[r]? = some room := by
  obtain ⟨hlt, -⟩ := List.getElem?_eq_some_iff.1 h
  exact (List.getElem?_append_left hlt).trans h

end

theorem Lobby.queue_eq (h : Lobby s) (hp : (s.sessions p).inQueue = true) : s.queue = [p] := by
  have hmem := (h.queued p).2 hp
  have hlen := h.waiting
  match hq : s.queue, hmem, hlen with
  | [q], hmem, _ => rw [List.mem_singleton.1 hmem]

theorem removeFromQueue_waiting (hp : (s.sessions p).inQueue = true) :
    (s.removeFromQueue p).1 = { s.setInQueue p false with queue := s.queue.erase p } := by
  unfold removeFromQueue
  rw [if_pos hp]
  rfl

theorem removeFromQueue_idle (hp : (s.sessions p).inQueue = false) : (s.removeFromQueue p).1 = s := by
  unfold removeFromQueue
  rw [if_neg (by simp [hp])]

/-- `remove_from_queue` on both players of a match, and their room. -/
theorem openRoom_eq {white black : SessionId} (hne : white ≠ black) (hw : (s.sessions white).inQueue = true)
    (hb : (s.sessions black).inQueue = true) (hq : s.queue.Perm [white, black]) :
    ((((s.removeFromQueue white).1).removeFromQueue black).1.openRoom white black).1 = s.pair white black := by
  have hb' : ((s.removeFromQueue white).1.sessions black).inQueue = true := by
    rw [removeFromQueue_waiting hw]
    show ((s.setInQueue white false).sessions black).inQueue = true
    rw [setInQueue_inQueue, if_neg hne.symm, hb]
  have hempty : (s.queue.erase white).erase black = [] := by
    simpa using ((hq.erase white).erase black)
  rw [removeFromQueue_waiting hb', removeFromQueue_waiting hw]
  have hsessions : ∀ q, ((((s.setInQueue white false).setInQueue black false).setRoom white
      (some s.rooms.length)).setRoom black (some s.rooms.length)).sessions q = (s.pair white black).sessions q := by
    intro q
    simp only [setRoom, setInQueue, sessions_setSession, pair]
    by_cases h1 : q = white <;> by_cases h2 : q = black <;> simp [h1, h2, hne, hne.symm]
  unfold openRoom pair
  simp only [log]
  congr 1
  · exact funext hsessions
  · have hid : ∀ q, ((((s.setInQueue white false).setInQueue black false).setRoom white
        (some s.rooms.length)).setRoom black (some s.rooms.length)).userId q = s.userId q := by simp
    exact congrArg (s.journal ++ [·]) (congrArg₂ (Entry.matched s.rooms.length) (hid white) (hid black))

/-- Two sessions in the queue are matched, in one order or the other. -/
theorem tryMatchmake_pair (env : Env) (hne : p ≠ q) (hp : (s.sessions p).inQueue = true)
    (hq : (s.sessions q).inQueue = true) (hqueue : s.queue = [p, q]) :
    (s.tryMatchmake env).1 = s.pair p q ∨ (s.tryMatchmake env).1 = s.pair q p := by
  have hperm := env.sort_perm s.rating s.queue
  unfold tryMatchmake
  rw [hqueue] at hperm ⊢
  obtain hs | hs := List.perm_pair.1 hperm
  · rw [hs]
    exact .inl (openRoom_eq hne hp hq (hqueue ▸ .refl _))
  · rw [hs]
    exact .inr (openRoom_eq hne.symm hq hp (hqueue ▸ .swap ..))

theorem tryMatchmake_single (env : Env) (hqueue : s.queue = [p]) : (s.tryMatchmake env).1 = s := by
  have hperm := env.sort_perm s.rating s.queue
  unfold tryMatchmake
  rw [hqueue] at hperm ⊢
  rw [List.perm_singleton.1 hperm]

/-! ## The events -/

/-- What `handle_auth` makes of the session. -/
def loggedIn (info : UserInfo) (x : Session) : Session :=
  { x with authorized := true, nick := info.nickname, rating := info.rating, userId := info.id }

/-- Signing in changes no seat. -/
theorem login_seat (info : UserInfo) (db : Database) :
    ((setSession { s with db } p (loggedIn info)).sessions q).room = (s.sessions q).room := by
  have hroom : ∀ x, (loggedIn info x).room = x.room := fun _ => rfl
  exact setSession_field Session.room hroom { s with db } p q

/-- The mates have one of the players as winner, the other endings nobody. -/
structure Fits (room : GameRoom) (e : Ending) : Prop where
  mate : e.winner.isSome ↔ e.result = .checkmate
  player : ∀ w, e.winner = some w → w = room.white ∨ w = room.black

/-- The event makes `end_game` run: on which room, as it then is, and with what ending. -/
inductive Ends (s : Server) : Event → RoomId → GameRoom → Ending → Prop
  | move {p : SessionId} {r : RoomId} {room room' : GameRoom} {src dst promotion : String} {e : Ending} :
      s.roomOf p = some (r, room) → room.onMove ⟨p, src, dst, promotion⟩ = .ok (room', some e) →
      Ends s (.command p (.move src dst promotion)) r room' e
  | accept {p : SessionId} {r : RoomId} {room : GameRoom} {e : Ending} :
      s.roomOf p = some (r, room) → room.onDrawAccept p = some e → Ends s (.command p (.draw "accept")) r room e

/-- The event makes the session leave its room. -/
inductive Quits (s : Server) : Event → RoomId → GameRoom → SessionId → Prop
  | leave {p : SessionId} {r : RoomId} {room : GameRoom} : s.roomOf p = some (r, room) →
      Quits s (.command p .leave) r room p
  | disconnect {p : SessionId} {r : RoomId} {room : GameRoom} : s.roomOf p = some (r, room) →
      Quits s (.disconnect p) r room p

/-- What an event can do, up to the list of the connected sessions. -/
inductive Change (env : Env) (s : Server) : Event → Server → Prop
  | idle {ev : Event} (players : List SessionId) : Change env s ev { s with allPlayers := players }
  | refused {p : SessionId} {nick password : String} {db : Database} :
      s.db.loginOrRegister env nick password = (none, db) →
      Change env s (.command p (.auth nick password)) { s with db }
  | login {p : SessionId} {nick password : String} {info : UserInfo} {db : Database} : nick.isEmpty = false →
      s.db.loginOrRegister env nick password = (some info, db) →
      Change env s (.command p (.auth nick password)) (setSession { s with db } p (loggedIn info))
  | queued {p : SessionId} : (s.sessions p).authorized = true → (s.sessions p).room = none → s.queue = [] →
      Change env s (.command p .queue) { s.setInQueue p true with queue := [p] }
  | paired {p q white black : SessionId} : (s.sessions p).authorized = true → (s.sessions p).room = none →
      (s.sessions p).inQueue = false → s.queue = [q] → (white = p ∧ black = q ∨ white = q ∧ black = p) →
      Change env s (.command p .queue) (s.pair white black)
  | unqueued {ev : Event} {p : SessionId} (players : List SessionId) : (s.sessions p).inQueue = true →
      Change env s ev { s.setInQueue p false with queue := [], allPlayers := players }
  | changed {ev : Event} {p : SessionId} {r : RoomId} {room room' : GameRoom} : s.roomOf p = some (r, room) →
      room'.white = room.white → room'.black = room.black →
      (room'.position = room.position ∨ ∃ m, Played room.position m room'.position) →
        Change env s ev (s.setGame r room')
  | ended {ev : Event} {r : RoomId} {room : GameRoom} {e : Ending} : Ends s ev r room e →
      Change env s ev ((s.setGame r room).endGame env r room e).1
  | quit {ev : Event} {r : RoomId} {room : GameRoom} {p : SessionId} (players : List SessionId) :
      Quits s ev r room p → Change env s ev { (s.roomDisconnect env r room p).1 with allPlayers := players }

theorem idle_self (env : Env) (s : Server) (ev : Event) : Change env s ev s := .idle s.allPlayers

theorem handleAuth_change (env : Env) (s : Server) (p : SessionId) (nick password : String) :
    Change env s (.command p (.auth nick password)) (s.handleAuth env p nick password).1 := by
  unfold handleAuth
  split
  · exact idle_self ..
  · rename_i hnick
    split
    · rename_i h; exact .login (by simpa using hnick) h
    · rename_i h; exact .refused h

/-- The server while `handle_queue` looks for an opponent. -/
def enqueued (s : Server) (p : SessionId) : Server := { s.setInQueue p true with queue := s.queue ++ [p] }

theorem enqueued_inQueue : ((s.enqueued p).sessions q).inQueue = if q = p then true else (s.sessions q).inQueue :=
  setInQueue_inQueue true

/-- The newcomer's flag does not matter any more once it is paired. -/
theorem enqueued_pair {white black : SessionId} (hp : p = white ∨ p = black) :
    (s.enqueued p).pair white black = s.pair white black := by
  unfold pair
  have hid : ∀ q, (s.enqueued p).userId q = s.userId q := fun q => setInQueue_userId true
  rw [hid, hid]
  congr 1
  funext q
  split
  · simp only [enqueued, setInQueue, sessions_setSession]
    split
    · rename_i h
      rw [h]
      rfl
    · rfl
  · rename_i h
    have hne : q ≠ p := fun he => h (he ▸ hp)
    simp only [enqueued, setInQueue, sessions_setSession, if_neg hne]

theorem handleQueue_eq (env : Env) (hauth : (s.sessions p).authorized = true) (hroom : (s.sessions p).room = none)
    (hin : (s.sessions p).inQueue = false) : (s.handleQueue env p).1 = ((s.enqueued p).tryMatchmake env).1 := by
  unfold handleQueue
  rw [if_neg (by simp [hauth]), if_neg (by simp [hroom]), if_neg (by simp [hin])]
  rfl

theorem handleQueue_refused (env : Env) (h : ¬((s.sessions p).authorized = true ∧ (s.sessions p).room = none ∧
    (s.sessions p).inQueue = false)) : (s.handleQueue env p).1 = s := by
  unfold handleQueue
  split
  · rfl
  split
  · rfl
  split
  · rfl
  · simp_all

/-- A request for the queue that is not refused waits alone, or meets the one who waits. -/
theorem handleQueue_seeks (env : Env) (h : Lobby s) (hauth : (s.sessions p).authorized = true)
    (hroom : (s.sessions p).room = none) (hin : (s.sessions p).inQueue = false) :
    (s.queue = [] ∧ (s.handleQueue env p).1 = { s.setInQueue p true with queue := [p] }) ∨
      ∃ q white black, s.queue = [q] ∧ (white = p ∧ black = q ∨ white = q ∧ black = p) ∧
        (s.handleQueue env p).1 = s.pair white black := by
  rw [handleQueue_eq env hauth hroom hin]
  match hqueue : s.queue, h.waiting with
  | [], _ =>
    have hone : (s.enqueued p).queue = [p] := by rw [enqueued, hqueue]; rfl
    rw [tryMatchmake_single env hone, enqueued, hqueue]
    exact .inl ⟨rfl, rfl⟩
  | [q], _ =>
    have htwo : (s.enqueued p).queue = [q, p] := by rw [enqueued, hqueue]; rfl
    have hq : (s.sessions q).inQueue = true := (h.queued q).1 (by rw [hqueue]; exact List.mem_singleton_self q)
    have hne : q ≠ p := by
      rintro rfl
      rw [hin] at hq
      cases hq
    have hq' : ((s.enqueued p).sessions q).inQueue = true := by rw [enqueued_inQueue, if_neg hne, hq]
    have hp' : ((s.enqueued p).sessions p).inQueue = true := by rw [enqueued_inQueue, if_pos rfl]
    obtain hm | hm := tryMatchmake_pair env hne hq' hp' htwo
    · rw [hm, enqueued_pair (.inr rfl)]
      exact .inr ⟨q, q, p, rfl, .inr ⟨rfl, rfl⟩, rfl⟩
    · rw [hm, enqueued_pair (.inl rfl)]
      exact .inr ⟨q, p, q, rfl, .inl ⟨rfl, rfl⟩, rfl⟩

theorem handleQueue_change (env : Env) (h : Lobby s) (p : SessionId) :
    Change env s (.command p .queue) (s.handleQueue env p).1 := by
  by_cases hok : (s.sessions p).authorized = true ∧ (s.sessions p).room = none ∧ (s.sessions p).inQueue = false
  · obtain ⟨hauth, hroom, hin⟩ := hok
    obtain ⟨hqueue, he⟩ | ⟨q, white, black, hqueue, hor, he⟩ := handleQueue_seeks env h hauth hroom hin
    · rw [he]
      exact .queued hauth hroom hqueue
    · rw [he]
      exact .paired hauth hroom hin hqueue hor
  · rw [handleQueue_refused env hok]
    exact idle_self ..

theorem leaveRoom_none (env : Env) (hp : (s.sessions p).room = none) : s.leaveRoom env p = (s, []) := by
  unfold leaveRoom Server.roomOf
  simp [hp]

/-- Clearing the seat of a session without one changes nothing. -/
theorem setRoom_self (hp : (s.sessions p).room = none) : s.setRoom p none = s := by
  rw [setRoom_eq]
  congr 1
  funext q
  split
  · rename_i h
    rw [h, ← hp]
  · rfl

/-- What leaving and losing the connection have in common. -/
theorem left_change (env : Env) (h : Lobby s) (p : SessionId) (players : List SessionId) {ev : Event}
    (hev : ∀ {r room}, s.roomOf p = some (r, room) → Quits s ev r room p) :
    Change env s ev { ((s.removeFromQueue p).1.leaveRoom env p).1 with allPlayers := players } ∧
      (((s.removeFromQueue p).1.leaveRoom env p).1.sessions p).room = none := by
  cases hin : (s.sessions p).inQueue with
  | true =>
    have hroom := h.apart p hin
    have hroom' : ((s.removeFromQueue p).1.sessions p).room = none := by
      rw [removeFromQueue_waiting hin]
      exact (setInQueue_room false).trans hroom
    rw [leaveRoom_none env hroom', removeFromQueue_waiting hin]
    refine ⟨?_, (setInQueue_room false).trans hroom⟩
    rw [h.queue_eq hin, List.erase_cons_head]
    exact .unqueued players hin
  | false =>
    rw [removeFromQueue_idle hin]
    unfold leaveRoom
    cases hr : s.roomOf p with
    | none => exact ⟨.idle players, h.roomOf_none hr⟩
    | some x =>
      obtain ⟨r, room⟩ := x
      refine ⟨.quit players (hev hr), ?_⟩
      obtain ⟨-, hor⟩ := h.roomOf hr
      rw [roomDisconnect_eq, finish_room, if_pos hor]

/-- A room stored again. -/
theorem setGame_self (hr : s.rooms[r]? = some room) : s.setGame r room = s := by
  obtain ⟨hlt, hroom⟩ := List.getElem?_eq_some_iff.1 hr
  unfold setGame
  rw [← hroom, List.set_getElem_self hlt]

theorem handleMove_change (env : Env) (s : Server) (p : SessionId) (src dst promotion : String) :
    Change env s (.command p (.move src dst promotion)) (s.handleMove env p src dst promotion).1 := by
  unfold handleMove
  split
  · exact idle_self ..
  cases hr : s.roomOf p with
  | none => exact idle_self ..
  | some x =>
    obtain ⟨r, room⟩ := x
    simp only [roomMove]
    cases hm : room.onMove ⟨p, src, dst, promotion⟩ with
    | error text => exact idle_self ..
    | ok x =>
      obtain ⟨room', ending⟩ := x
      obtain ⟨m, hacc⟩ := onMove_ok hm
      cases ending with
      | some e => exact .ended (.move hr hm)
      | none =>
        have hchanged : Change env s (.command p (.move src dst promotion)) (s.setGame r room') :=
          .changed hr (by rw [hacc.room]) (by rw [hacc.room]) (.inr ⟨m, hacc.mem, hacc.applied⟩)
        dsimp only
        split <;> exact hchanged

theorem handleDraw_change (env : Env) (s : Server) (p : SessionId) (action : String) :
    Change env s (.command p (.draw action)) (s.handleDraw env p action).1 := by
  unfold handleDraw
  split
  · exact idle_self ..
  cases hr : s.roomOf p with
  | none => exact idle_self ..
  | some x =>
    obtain ⟨r, room⟩ := x
    dsimp only
    generalize haction : (if action.isEmpty then "offer" else action) = action'
    split
    · unfold GameRoom.onDrawRequest
      split_ifs <;> exact .changed hr rfl rfl (.inl rfl)
    split
    · rename_i haccept
      have hact : action = "accept" := by
        rw [haccept] at haction
        split at haction
        · simp at haction
        · exact haction
      cases he : room.onDrawAccept p with
      | none => exact idle_self ..
      | some e =>
        rw [hact]
        have hended : Change env s _ _ := .ended (.accept hr he)
        rwa [setGame_self (roomOf_eq_some.1 hr).2] at hended
    split
    · cases hd : room.onDrawDecline p with
      | none => exact idle_self ..
      | some x =>
        obtain ⟨room', told⟩ := x
        unfold GameRoom.onDrawDecline at hd
        split_ifs at hd <;> cases hd <;> exact .changed hr rfl rfl (.inl rfl)
    · exact idle_self ..

theorem handleLeave_change (env : Env) (h : Lobby s) (p : SessionId) :
    Change env s (.command p .leave) (s.handleLeave env p).1 := by
  obtain ⟨hchange, hroom⟩ := left_change env h p ((s.removeFromQueue p).1.leaveRoom env p).1.allPlayers .leave
  unfold handleLeave
  dsimp only
  rw [setRoom_self hroom]
  exact hchange

theorem onDisconnect_change (env : Env) (h : Lobby s) (p : SessionId) :
    Change env s (.disconnect p) (s.onDisconnect env p).1 :=
  (left_change env h p (((s.removeFromQueue p).1.leaveRoom env p).1.allPlayers.filter (· ≠ p)) .disconnect).1

theorem handleChat_change (env : Env) (s : Server) (p : SessionId) (text : String) :
    Change env s (.command p (.chat text)) (s.handleChat p text).1 := by
  unfold handleChat
  split
  · exact idle_self ..
  · split <;> exact idle_self ..

/-- The test for authorization that `handle_command` makes. -/
theorem guarded_change {ev : Event} {refused : Bool} {texts : Outbox} {handled : Server × Outbox}
    (h : refused = false → Change env s ev handled.1) : Change env s ev
      (if refused then (s, texts) else handled).1 := by
  cases refused with
  | true => exact idle_self ..
  | false => exact h rfl

theorem handleCommand_change (env : Env) (h : Lobby s) (p : SessionId) (cmd : Command) :
    Change env s (.command p cmd) (s.handleCommand env p cmd).1 := by
  cases cmd with
  | invalid | ping => exact idle_self ..
  | auth nick password => exact handleAuth_change env s p nick password
  | leaderboard =>
    unfold handleCommand handleLeaderboard
    dsimp only
    split <;> exact idle_self ..
  | queue => exact guarded_change fun _ => handleQueue_change env h p
  | leave => exact guarded_change fun _ => handleLeave_change env h p
  | chat text => exact guarded_change fun _ => handleChat_change env s p text
  | move src dst promotion => exact guarded_change fun _ => handleMove_change env s p src dst promotion
  | draw action => exact guarded_change fun _ => handleDraw_change env s p action
  | unknown => exact guarded_change fun _ => idle_self ..

theorem handle_change (env : Env) (h : Lobby s) (ev : Event) : Change env s ev (s.handle env ev).1 := by
  cases ev with
  | connect p => exact .idle _
  | command p cmd => exact handleCommand_change env h p cmd
  | disconnect p => exact onDisconnect_change env h p

end Server

end ChessGame
