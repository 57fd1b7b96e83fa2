import ChessGame.Server
/-!
# Sessions and seats

What the assignments to a session leave as it was, the invariant that ties the
queue, the session's fields and the seats of the rooms together, and what the two
ways to end a game, `end_game` and `GameRoom::on_disconnect`, have in common.
-/

namespace ChessGame

namespace Server

variable {env : Env} {s s' : Server} {p q : SessionId} {r : RoomId} {room : GameRoom}

/-! ## Assignments to sessions -/

theorem sessions_setSession (s : Server) (p q : SessionId) (f : Session → Session) :
    (s.setSession p f).sessions q = if q = p then f (s.sessions p) else s.sessions q := by
  exact Function.update_apply ..

/-- A field that the assignment does not touch. -/
theorem setSession_field {α : Type} (field : Session → α) {f : Session → Session} (hf : ∀ x, field (f x) = field x)
    (s : Server) (p q : SessionId) : field ((s.setSession p f).sessions q) = field (s.sessions q) := by
  rw [sessions_setSession]
  split
  · rename_i h; rw [hf, h]
  · rfl

@[simp] theorem setRoom_room (x : Option RoomId) :
    ((s.setRoom p x).sessions q).room = if q = p then x else (s.sessions q).room := by
  rw [setRoom, sessions_setSession]; split <;> rfl

@[simp] theorem setRoom_inQueue (x : Option RoomId) : ((s.setRoom p x).sessions q).inQueue = (s.sessions q).inQueue :=
  setSession_field (·.inQueue) (fun _ => by rfl) ..

@[simp] theorem setRoom_authorized (x : Option RoomId) :
    ((s.setRoom p x).sessions q).authorized = (s.sessions q).authorized :=
  setSession_field (·.authorized) (fun _ => by rfl) ..

@[simp] theorem setRoom_userId (x : Option RoomId) : (s.setRoom p x).userId q = s.userId q :=
  setSession_field (·.userId) (fun _ => by rfl) ..

@[simp] theorem setRoom_rating (x : Option RoomId) : (s.setRoom p x).rating q = s.rating q :=
  setSession_field (·.rating) (fun _ => by rfl) ..

@[simp] theorem setRating_rating (x : ℤ) : (s.setRating p x).rating q = if q = p then x else s.rating q := by
  rw [rating, setRating, sessions_setSession]; split <;> rfl

@[simp] theorem setRating_room (x : ℤ) : ((s.setRating p x).sessions q).room = (s.sessions q).room :=
  setSession_field (·.room) (fun _ => by rfl) ..

@[simp] theorem setRating_inQueue (x : ℤ) : ((s.setRating p x).sessions q).inQueue = (s.sessions q).inQueue :=
  setSession_field (·.inQueue) (fun _ => by rfl) ..

@[simp] theorem setRating_authorized (x : ℤ) : ((s.setRating p x).sessions q).authorized = (s.sessions q).authorized :=
  setSession_field (·.authorized) (fun _ => by rfl) ..

@[simp] theorem setRating_userId (x : ℤ) : (s.setRating p x).userId q = s.userId q :=
  setSession_field (·.userId) (fun _ => by rfl) ..

@[simp] theorem setInQueue_inQueue (x : Bool) :
    ((s.setInQueue p x).sessions q).inQueue = if q = p then x else (s.sessions q).inQueue := by
  rw [setInQueue, sessions_setSession]; split <;> rfl

@[simp] theorem setInQueue_room (x : Bool) : ((s.setInQueue p x).sessions q).room = (s.sessions q).room :=
  setSession_field (·.room) (fun _ => by rfl) ..

@[simp] theorem setInQueue_authorized (x : Bool) :
    ((s.setInQueue p x).sessions q).authorized = (s.sessions q).authorized :=
  setSession_field (·.authorized) (fun _ => by rfl) ..

@[simp] theorem setInQueue_userId (x : Bool) : (s.setInQueue p x).userId q = s.userId q :=
  setSession_field (·.userId) (fun _ => by rfl) ..

@[simp] theorem setInQueue_rating (x : Bool) : (s.setInQueue p x).rating q = s.rating q :=
  setSession_field (·.rating) (fun _ => by rfl) ..

/-! ## The lobby -/

/-- The room of a seated session: it is one of two different players, and both are seated there. -/
structure Seats (s : Server) (r : RoomId) (room : GameRoom) : Prop where
  here : s.rooms[r]? = some room
  ne : room.white ≠ room.black
  white : (s.sessions room.white).room = some r
  black : (s.sessions room.black).room = some r

structure Lobby (s : Server) : Prop where
  nodup : s.queue.Nodup
  queued : ∀ p, p ∈ s.queue ↔ (s.sessions p).inQueue = true
  apart : ∀ p, (s.sessions p).inQueue = true → (s.sessions p).room = none
  authorized : ∀ p, (s.sessions p).inQueue = true ∨ (s.sessions p).room ≠ none → (s.sessions p).authorized = true
  seated : ∀ p r, (s.sessions p).room = some r → ∃ room, Seats s r room ∧ (p = room.white ∨ p = room.black)
  waiting : s.queue.length ≤ 1

theorem roomOf_eq_some : s.roomOf p = some (r, room) ↔ (s.sessions p).room = some r ∧ s.rooms[r]? = some room := by
  unfold roomOf
  split
  · rename_i h
    simp [h]
  · rename_i r' h
    split
    · rename_i h'
      simp only [reduceCtorEq, h, Option.some.injEq, false_iff, not_and]
      rintro rfl
      simp [h']
    · rename_i room' h'
      simp only [h, Option.some.injEq, Prod.mk.injEq, and_congr_right_iff]
      rintro rfl
      simp [h']

theorem Lobby.roomOf (h : Lobby s) (hp : s.roomOf p = some (r, room)) :
    Seats s r room ∧ (p = room.white ∨ p = room.black) := by
  obtain ⟨hr, hroom⟩ := roomOf_eq_some.1 hp
  obtain ⟨room', hs, hp⟩ := h.seated p r hr
  have := hs.here.symm.trans hroom
  cases this
  exact ⟨hs, hp⟩

/-- Whoever sits in a room is signed in. -/
theorem Lobby.signedIn (h : Lobby s) (hp : s.roomOf p = some (r, room)) : (s.sessions p).authorized = true := by
  refine h.authorized p (.inr ?_)
  rw [(roomOf_eq_some.1 hp).1]
  exact Option.some_ne_none r

theorem Lobby.roomOf_none (h : Lobby s) (hp : s.roomOf p = none) : (s.sessions p).room = none := by
  cases hr : (s.sessions p).room with
  | none => rfl
  | some r =>
    obtain ⟨room, hs, -⟩ := h.seated p r hr
    simp [Server.roomOf, hr, hs.here] at hp

/-- Only the two players sit in a room. -/
theorem Lobby.seats (h : Lobby s) (hs : Seats s r room) (hp : (s.sessions p).room = some r) :
    p = room.white ∨ p = room.black := by
  obtain ⟨room', hs', hp⟩ := h.seated p r hp
  have := hs.here.symm.trans hs'.here
  cases this
  exact hp

theorem opponent_white : room.opponentOf room.white = some room.black := by simp [GameRoom.opponentOf, GameRoom.has]

theorem opponent_black (hne : room.white ≠ room.black) : room.opponentOf room.black = some room.white := by
  simp [GameRoom.opponentOf, GameRoom.has, hne.symm]

/-! ## The end of a game -/

/-- `update_rating` for the winner and the loser, if the game was decided. -/
def rate (env : Env) (r : RoomId) (decided : Option (SessionId × SessionId)) (s : Server) : Server :=
  match decided with
  | none => s
  | some (winner, loser) => (s.updateRating env r winner loser).1

/-- What both ways to end a game do: rate, write to the database and the journal, clear the seats. -/
def finish (env : Env) (r : RoomId) (room : GameRoom) (decided : Option (SessionId × SessionId))
    (write : Database → Database) (entries : List Entry) (s : Server) : Server :=
  clearSeats { s.rate env r decided with
    db := write (s.rate env r decided).db
    journal := (s.rate env r decided).journal ++ entries } room

section
variable (env r room) (decided : Option (SessionId × SessionId)) (write : Database → Database) (entries : List Entry)
  (s : Server)

theorem rate_rooms : (s.rate env r decided).rooms = s.rooms := by cases decided <;> rfl

theorem rate_queue : (s.rate env r decided).queue = s.queue := by cases decided <;> rfl

/-- Rating touches no other field of a session. -/
theorem rate_session (q : SessionId) : ((s.rate env r decided).sessions q) =
    { s.sessions q with rating := (s.rate env r decided).rating q } := by
  cases decided with
  | none => rfl
  | some wl =>
    have hset : ∀ (s : Server) (p : SessionId) (x : ℤ), (s.setRating p x).sessions q =
        { s.sessions q with rating := (s.setRating p x).rating q } := by
      intro s p x
      rw [setRating_rating, setRating, sessions_setSession, rating]
      split
      · rename_i h; rw [h]
      · rfl
    show ((s.setRating wl.1 _).setRating wl.2 _).sessions q = _
    rw [hset, hset s]
    rfl

theorem rate_room (q : SessionId) : ((s.rate env r decided).sessions q).room = (s.sessions q).room := by
  rw [rate_session]

theorem rate_inQueue (q : SessionId) : ((s.rate env r decided).sessions q).inQueue = (s.sessions q).inQueue := by
  rw [rate_session]

theorem rate_authorized (q : SessionId) :
    ((s.rate env r decided).sessions q).authorized = (s.sessions q).authorized := by
  rw [rate_session]

theorem rate_userId (q : SessionId) : (s.rate env r decided).userId q = s.userId q := by
  rw [userId, rate_session, userId]

theorem finish_rooms : (s.finish env r room decided write entries).rooms = s.rooms := rate_rooms ..

theorem finish_queue : (s.finish env r room decided write entries).queue = s.queue := rate_queue ..

theorem finish_room (q : SessionId) : ((s.finish env r room decided write entries).sessions q).room =
    if q = room.white ∨ q = room.black then none else (s.sessions q).room := by
  unfold finish clearSeats
  rw [setRoom_room, setRoom_room]
  by_cases hb : q = room.black
  · simp [hb]
  · by_cases hw : q = room.white
    · simp [hw]
    · rw [if_neg hb, if_neg hw, if_neg (by tauto)]
      exact rate_room ..

theorem finish_inQueue (q : SessionId) :
    ((s.finish env r room decided write entries).sessions q).inQueue = (s.sessions q).inQueue := by
  unfold finish clearSeats
  rw [setRoom_inQueue, setRoom_inQueue]
  exact rate_inQueue ..

theorem finish_authorized (q : SessionId) :
    ((s.finish env r room decided write entries).sessions q).authorized = (s.sessions q).authorized := by
  unfold finish clearSeats
  rw [setRoom_authorized, setRoom_authorized]
  exact rate_authorized ..

theorem finish_userId (q : SessionId) : (s.finish env r room decided write entries).userId q = s.userId q := by
  unfold finish clearSeats
  rw [setRoom_userId, setRoom_userId]
  exact rate_userId env r decided s q

theorem finish_rating (q : SessionId) :
    (s.finish env r room decided write entries).rating q = (s.rate env r decided).rating q := by
  unfold finish clearSeats
  rw [setRoom_rating, setRoom_rating]
  rfl

theorem finish_journal :
    (s.finish env r room decided write entries).journal = (s.rate env r decided).journal ++ entries := rfl

end

theorem rateWinner_eq (env : Env) (r : RoomId) (room : GameRoom) (winner : Option SessionId) (s : Server) :
    (s.rateWinner env r room winner).1 = s.rate env r (room.decides winner) := by
  unfold rateWinner GameRoom.decides
  cases winner with
  | none => rfl
  | some w =>
    simp only [Option.bind_some]
    cases room.opponentOf w <;> rfl

/-- `winner ? winner->user_id() : -1`. -/
def winnerId (s : Server) (winner : Option SessionId) : ℤ := ((winner.map s.userId).getD (-1))

theorem endGame_eq (env : Env) (r : RoomId) (room : GameRoom) (e : Ending) (s : Server) :
    (s.endGame env r room e).1 = s.finish env r room (room.decides e.winner)
      (fun db => db.saveGame (s.userId room.white) (s.userId room.black) (s.winnerId e.winner) e.result.text
        room.position.getFen)
      [.saved r (s.userId room.white) (s.userId room.black) (s.winnerId e.winner),
        .ended r (s.userId room.white) (s.userId room.black) (e.winner.map s.userId)] := by
  have hid : ∀ q, (s.rate env r (room.decides e.winner)).userId q = s.userId q :=
    fun q => rate_userId ..
  have hend : (s.endGame env r room e).1 =
      let t := (s.rateWinner env r room e.winner).1
      clearSeats { t with
        db := t.db.saveGame (t.userId room.white) (t.userId room.black) (t.winnerId e.winner) e.result.text
          room.position.getFen
        journal := (t.journal ++ [.saved r (t.userId room.white) (t.userId room.black) (t.winnerId e.winner)]) ++
          [.ended r (t.userId room.white) (t.userId room.black) (e.winner.map t.userId)] } room := by
    unfold endGame
    cases e.winner <;> rfl
  rw [hend, rateWinner_eq]
  simp only [finish, winnerId, hid, funext hid, List.append_assoc, List.singleton_append]

theorem opponentOf_seat {other who : SessionId} (h : room.opponentOf who = some other) :
    other = room.white ∨ other = room.black := by
  unfold GameRoom.opponentOf at h
  split at h
  · cases h
  · rw [Option.some.injEq] at h
    rw [← h]
    split <;> simp

theorem setRoom_eq (s : Server) (p : SessionId) (x : Option RoomId) :
    s.setRoom p x = { s with sessions := fun q =>
      if q = p then { s.sessions q with room := x } else s.sessions q } := by
  unfold setRoom setSession
  congr 1
  funext q
  rw [Function.update_apply]
  split
  · rename_i h; rw [h]
  · rfl

theorem clearSeats_eq (s : Server) (room : GameRoom) : s.clearSeats room = { s with
    sessions := fun q =>
      if q = room.white ∨ q = room.black then { s.sessions q with room := none } else s.sessions q } := by
  rw [clearSeats, setRoom_eq, setRoom_eq]
  congr 1
  funext q
  by_cases hb : q = room.black
  · have hor : q = room.white ∨ q = room.black := .inr hb
    simp only [if_pos hor, if_pos hb]
    split <;> rfl
  · simp only [if_neg hb, or_iff_left hb]

/-- Clearing a seat before both are cleared changes nothing. -/
theorem clearSeats_setRoom (s : Server) (h : p = room.white ∨ p = room.black) :
    (s.setRoom p none).clearSeats room = s.clearSeats room := by
  rw [clearSeats_eq, clearSeats_eq, setRoom_eq]
  congr 1
  funext q
  dsimp only
  by_cases h1 : q = room.white ∨ q = room.black
  · rw [if_pos h1, if_pos h1]
    split <;> rfl
  · have h2 : q ≠ p := fun he => h1 (he ▸ h)
    rw [if_neg h1, if_neg h1, if_neg h2]

theorem roomDisconnect_eq (env : Env) (r : RoomId) (room : GameRoom) (who : SessionId) (s : Server) :
    (s.roomDisconnect env r room who).1 = s.finish env r room ((room.opponentOf who).map fun other => (other, who)) id
      [.ended r (s.userId room.white) (s.userId room.black) ((room.opponentOf who).map s.userId)] := by
  unfold roomDisconnect
  cases hother : room.opponentOf who with
  | none => rfl
  | some other =>
    have hid : ∀ q, (s.updateRating env r other who).1.userId q = s.userId q :=
      fun q => rate_userId env r (some (other, who)) s q
    simp only [Option.map_some, setRoom_userId, hid]
    exact clearSeats_setRoom (log (s.updateRating env r other who).1 _) (opponentOf_seat hother)

end Server

end ChessGame
