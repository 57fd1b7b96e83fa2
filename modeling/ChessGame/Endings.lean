import ChessGame.Lobby
/-!
# The end of a game

A room has no flag that says it is over. What keeps it from ending twice is that
both players lose their seats when it ends and that nobody is ever seated in it
again.
-/

namespace ChessGame

def Entry.isEnded (r : RoomId) : Entry → Bool
  | .ended r' .. => r' = r
  | _ => false

def Entry.isRated (r : RoomId) : Entry → Bool
  | .rated r' .. => r' = r
  | _ => false

theorem Entry.room_of_isEnded {e : Entry} {r : RoomId} (h : e.isEnded r = true) : e.room = r := by
  cases e with
  | ended r' => exact of_decide_eq_true h
  | _ => cases h

namespace Server

open Runs

variable {env : Env} {s t : Server} {p q : SessionId} {r r' : RoomId} {room : GameRoom} {ev : Event}

/-! ## The kinds of events -/

/-- The event leaves database, journal and identities as they were. It may change a
room, but only one in which somebody sits. -/
structure Quiet (s t : Server) : Prop where
  db : t.db = s.db
  journal : t.journal = s.journal
  rating : ∀ q, t.rating q = s.rating q
  userId : ∀ q, t.userId q = s.userId q
  authorized : ∀ q, (t.sessions q).authorized = (s.sessions q).authorized
  seat : ∀ q, (t.sessions q).room = (s.sessions q).room
  length : t.rooms.length = s.rooms.length
  room : ∀ r, (∀ q, (s.sessions q).room ≠ some r) → t.rooms[r]? = s.rooms[r]?
  players : ∀ (r : RoomId) (room' : GameRoom), t.rooms[r]? = some room' →
    ∃ room, s.rooms[r]? = some room ∧ room.white = room'.white ∧ room.black = room'.black

/-- The entry that `update_rating` leaves. -/
def ratings (env : Env) (r : RoomId) (decided : Option (SessionId × SessionId)) (s : Server) : List Entry :=
  match decided with
  | none => []
  | some (winner, loser) => [.rated r (s.userId winner) (s.userId loser)
      (newWinnerRating env (s.rating winner) (s.rating loser) - s.rating winner)
      (newLoserRating env (s.rating winner) (s.rating loser) - s.rating loser)]

def savedEntry (r : RoomId) (row : GameRow) : Entry := .saved r row.whitePlayerId row.blackPlayerId row.winnerId

/-- The game in room `r` ends: `decided` are its winner and loser, if it has them, and
`rows` is what `save_game` inserts. -/
structure Closes (env : Env) (s t : Server) (r : RoomId) (white black : SessionId)
    (decided : Option (SessionId × SessionId)) (rows : List GameRow) : Prop where
  ne : white ≠ black
  seatWhite : (s.sessions white).room = some r
  seatBlack : (s.sessions black).room = some r
  two : ∀ x, decided = some x → x = (white, black) ∨ x = (black, white)
  users : t.db.users = (s.rate env r decided).db.users
  lastId : t.db.lastId = s.db.lastId
  games : t.db.games = s.db.games ++ rows
  written : ∀ row ∈ rows, row.whitePlayerId = s.userId white ∧ row.blackPlayerId = s.userId black ∧
    row.winnerId = (decided.map fun x => s.userId x.1).getD (-1)
  journal : t.journal = s.journal ++ (ratings env r decided s ++ rows.map (savedEntry r) ++
    [.ended r (s.userId white) (s.userId black) (decided.map fun x => s.userId x.1)])
  rating : ∀ q, t.rating q = (s.rate env r decided).rating q
  userId : ∀ q, t.userId q = s.userId q
  authorized : ∀ q, (t.sessions q).authorized = (s.sessions q).authorized
  seat : ∀ q, (t.sessions q).room = if q = white ∨ q = black then none else (s.sessions q).room
  length : t.rooms.length = s.rooms.length
  room : ∀ r' ≠ r, t.rooms[r']? = s.rooms[r']?

/-- What an event can do, as far as accounts and games are concerned. -/
inductive View (env : Env) (s : Server) : Event → Server → Prop
  | quiet {ev : Event} {t : Server} : Quiet s t → View env s ev t
  | refused {p : SessionId} {nick password : String} {db : Database} :
      s.db.loginOrRegister env nick password = (none, db) →
      View env s (.command p (.auth nick password)) { s with db }
  | login {p : SessionId} {nick password : String} {info : UserInfo} {db : Database} : nick.isEmpty = false →
      s.db.loginOrRegister env nick password = (some info, db) →
      View env s (.command p (.auth nick password)) (setSession { s with db } p (loggedIn info))
  | paired {ev : Event} {white black : SessionId} : (s.sessions white).room = none → (s.sessions black).room = none →
      View env s ev (s.pair white black)
  | ended {ev : Event} {t : Server} {r : RoomId} {room : GameRoom} {e : Ending} {row : GameRow} : Ends s ev r room e →
      Closes env s t r room.white room.black (room.decides e.winner) [row] → View env s ev t
  | quit {ev : Event} {t : Server} {r : RoomId} {room : GameRoom} {p : SessionId} : Quits s ev r room p →
      Closes env s t r room.white room.black ((room.opponentOf p).map fun other => (other, p)) [] → View env s ev t

theorem rate_journal (env : Env) (r : RoomId) (decided : Option (SessionId × SessionId)) (s : Server) :
    (s.rate env r decided).journal = s.journal ++ ratings env r decided s := by
  cases decided with
  | none => exact (List.append_nil _).symm
  | some x =>
    have hid : ∀ a b q, ((s.setRating x.1 a).setRating x.2 b).userId q = s.userId q := by simp
    exact congrArg (s.journal ++ [·]) (congrArg₂ (fun a b => Entry.rated r a b _ _) (hid ..) (hid ..))

theorem rate_lastId (env : Env) (r : RoomId) (decided : Option (SessionId × SessionId)) (s : Server) :
    (s.rate env r decided).db.lastId = s.db.lastId := by cases decided <;> rfl

theorem rate_games (env : Env) (r : RoomId) (decided : Option (SessionId × SessionId)) (s : Server) :
    (s.rate env r decided).db.games = s.db.games := by cases decided <;> rfl

/-- Winner and loser are the players, one way or the other. -/
theorem opponentOf_eq (hne : room.white ≠ room.black) (h : room.opponentOf p = some q) :
    (q, p) = (room.white, room.black) ∨ (q, p) = (room.black, room.white) := by
  unfold GameRoom.opponentOf at h
  split at h
  · cases h
  · rename_i hhas
    simp only [GameRoom.has, Bool.not_eq_true', Bool.not_eq_false, Bool.or_eq_true, decide_eq_true_eq] at hhas
    obtain rfl | rfl := hhas
    · simp at h
      simp [h]
    · simp [hne.symm] at h
      simp [h]

theorem Ends.fits {e : Ending} (h : Ends s ev r room e) : Fits room e := by
  cases h with
  | move _ hm =>
    obtain ⟨m, hacc⟩ := onMove_ok hm
    have hv := hacc.ending
    unfold GameRoom.verdict at hv
    split at hv
    · cases hv
      refine ⟨by simp, fun w hw => ?_⟩
      cases hw
      split <;> simp
    · split_ifs at hv <;> cases hv <;> exact ⟨by simp, nofun⟩
  | accept _ he =>
    unfold GameRoom.onDrawAccept at he
    split at he
    · cases he
      exact ⟨by simp, nofun⟩
    · cases he

theorem Fits.decides {e : Ending} (h : Fits room e) (hne : room.white ≠ room.black) :
    (room.decides e.winner = none ∧ e.winner = none) ∨
      (room.decides e.winner = some (room.white, room.black) ∧ e.winner = some room.white) ∨
      (room.decides e.winner = some (room.black, room.white) ∧ e.winner = some room.black) := by
  cases hw : e.winner with
  | none => exact .inl ⟨rfl, rfl⟩
  | some w =>
    obtain rfl | rfl := h.player w hw
    · exact .inr (.inl ⟨by rw [GameRoom.decides, Option.bind_some, opponent_white]; rfl, rfl⟩)
    · exact .inr (.inr ⟨by rw [GameRoom.decides, Option.bind_some, opponent_black hne]; rfl, rfl⟩)

theorem rate_setGame (decided : Option (SessionId × SessionId)) :
    (s.setGame r room).rate env r decided = (s.rate env r decided).setGame r room := by cases decided <;> rfl

/-- What `finish` does, in the terms of `Closes`. -/
theorem finish_closes (env : Env) {room₀ : GameRoom} (hs : Seats s r room₀) (hw : room.white = room₀.white)
    (hb : room.black = room₀.black) {decided : Option (SessionId × SessionId)} {rows : List GameRow}
    {write : Database → Database} {entries : List Entry}
    (hdecided : ∀ x, decided = some x → x = (room.white, room.black) ∨ x = (room.black, room.white))
    (hwrite : ∀ db, (write db).users = db.users ∧ (write db).lastId = db.lastId ∧ (write db).games = db.games ++ rows)
    (hrows : ∀ row ∈ rows, row.whitePlayerId = s.userId room.white ∧ row.blackPlayerId = s.userId room.black ∧
      row.winnerId = (decided.map fun x => s.userId x.1).getD (-1))
    (hentries : entries = rows.map (savedEntry r) ++
      [.ended r (s.userId room.white) (s.userId room.black) (decided.map fun x => s.userId x.1)]) :
    Closes env s ((s.setGame r room).finish env r room decided write entries) r room.white room.black decided rows where
  ne := by rw [hw, hb]; exact hs.ne
  seatWhite := by rw [hw]; exact hs.white
  seatBlack := by rw [hb]; exact hs.black
  two := hdecided
  users := (hwrite _).1.trans (by rw [rate_setGame]; rfl)
  lastId := (hwrite _).2.1.trans (rate_lastId ..)
  games := (hwrite _).2.2.trans (congrArg (· ++ rows) (rate_games ..))
  written := hrows
  journal := by
    have hrate : ((s.setGame r room).rate env r decided).journal = s.journal ++ ratings env r decided s :=
      rate_journal env r decided (s.setGame r room)
    rw [finish_journal, hrate, hentries, List.append_assoc, List.append_assoc]
  rating q := by
    rw [finish_rating, rate_setGame]
    rfl
  userId q := finish_userId ..
  authorized q := finish_authorized ..
  seat q := finish_room ..
  length := by
    rw [finish_rooms]
    exact List.length_set
  room r' hne := by
    rw [finish_rooms]
    exact List.getElem?_set_ne hne.symm

theorem Closes.connected {white black : SessionId} {decided : Option (SessionId × SessionId)} {rows : List GameRow}
    (h : Closes env s t r white black decided rows) (players : List SessionId) :
    Closes env s { t with allPlayers := players } r white black decided rows := { h with }

theorem Ends.closes (env : Env) (h : Lobby s) {e : Ending} (he : Ends s ev r room e) :
    ∃ row, Closes env s ((s.setGame r room).endGame env r room e).1 r room.white room.black (room.decides e.winner)
      [row] := by
  obtain ⟨room₀, hs, hw, hb⟩ := he.seats h
  have hne : room.white ≠ room.black := by rw [hw, hb]; exact hs.ne
  have hid : (room.decides e.winner).map (fun x => s.userId x.1) = e.winner.map s.userId := by
    obtain ⟨hd, he⟩ | ⟨hd, he⟩ | ⟨hd, he⟩ := he.fits.decides hne <;> rw [hd, he] <;> rfl
  rw [endGame_eq]
  refine ⟨_, finish_closes env hs hw hb ?_ (fun db => ⟨rfl, rfl, rfl⟩) ?_ ?_⟩
  · intro x hx
    obtain ⟨hd, -⟩ | ⟨hd, -⟩ | ⟨hd, -⟩ := he.fits.decides hne <;> rw [hd] at hx <;> cases hx
    · exact .inl rfl
    · exact .inr rfl
  · intro row hrow
    rw [List.mem_singleton.1 hrow, hid]
    exact ⟨rfl, rfl, rfl⟩
  · rw [hid]
    rfl

theorem Quits.closes (env : Env) (h : Lobby s) (hq : Quits s ev r room p) :
    Closes env s (s.roomDisconnect env r room p).1 r room.white room.black
      ((room.opponentOf p).map fun other => (other, p)) [] := by
  obtain ⟨hs, -⟩ := hq.seats h
  have hc : Closes env s ((s.setGame r room).finish env r room ((room.opponentOf p).map fun other => (other, p)) id
      [.ended r (s.userId room.white) (s.userId room.black) ((room.opponentOf p).map s.userId)]) r room.white
      room.black ((room.opponentOf p).map fun other => (other, p)) [] := by
    refine finish_closes env hs rfl rfl ?_ (fun db => ⟨rfl, rfl, (List.append_nil _).symm⟩) nofun ?_
    · intro x hx
      obtain ⟨q, hq, rfl⟩ := Option.map_eq_some_iff.1 hx
      exact opponentOf_eq hs.ne hq
    · rw [Option.map_map]
      rfl
  rwa [setGame_self hs.here, ← roomDisconnect_eq] at hc

theorem Change.view (h : Lobby s) (hc : Change env s ev t) : View env s ev t := by
  cases hc with
  | idle players => exact .quiet ⟨rfl, rfl, fun _ => rfl, fun _ => rfl, fun _ => rfl, fun _ => rfl, rfl, fun _ _ => rfl,
      fun _ room h => ⟨room, h, rfl, rfl⟩⟩
  | refused h => exact .refused h
  | login hnick h => exact .login hnick h
  | queued hauth hroom hqueue =>
    exact .quiet ⟨rfl, rfl, fun _ => setInQueue_rating .., fun _ => setInQueue_userId ..,
      fun _ => setInQueue_authorized .., fun _ => setInQueue_room .., rfl, fun _ _ => rfl,
      fun _ room h => ⟨room, h, rfl, rfl⟩⟩
  | @paired p q white black hauth hroom hin hqueue hor =>
    have hq : (s.sessions q).room = none :=
      h.apart q ((h.queued q).1 (by rw [hqueue]; exact List.mem_singleton_self q))
    obtain ⟨rfl, rfl⟩ | ⟨rfl, rfl⟩ := hor
    · exact .paired hroom hq
    · exact .paired hq hroom
  | unqueued players hp =>
    exact .quiet ⟨rfl, rfl, fun _ => setInQueue_rating .., fun _ => setInQueue_userId ..,
      fun _ => setInQueue_authorized .., fun _ => setInQueue_room .., rfl, fun _ _ => rfl,
      fun _ room h => ⟨room, h, rfl, rfl⟩⟩
  | @changed _ p r room room' hr hw hb _ =>
    refine .quiet ⟨rfl, rfl, fun _ => rfl, fun _ => rfl, fun _ => rfl, fun _ => rfl, List.length_set,
      fun r' hempty => ?_, fun r' room'' hr'' => ?_⟩
    · have hne : r ≠ r' := by
        rintro rfl
        exact hempty p (roomOf_eq_some.1 hr).1
      exact List.getElem?_set_ne hne
    · by_cases he : r = r'
      · subst he
        have hset := ((h.roomOf hr).1.setGame hw hb).here.symm.trans hr''
        cases hset
        exact ⟨room, (roomOf_eq_some.1 hr).2, hw.symm, hb.symm⟩
      · exact ⟨room'', (List.getElem?_set_ne he).symm.trans hr'', rfl, rfl⟩
  | ended he =>
    obtain ⟨row, hc⟩ := he.closes env h
    exact .ended he hc
  | quit players hq => exact .quit hq ((hq.closes env h).connected players)

theorem Handled.view (h : Lobby s) (hh : Handled env s ev t) : View env s ev t := (hh.change h).view h

/-! ## A game ends at most once -/

/-- The game in the room has ended. -/
def Over (s : Server) (r : RoomId) : Prop := ∃ e ∈ s.journal, e.isEnded r = true

/-- What holds of the journal in every state. -/
structure Settled (s : Server) : Prop where
  lobby : Lobby s
  known : ∀ e ∈ s.journal, e.room < s.rooms.length
  ended : ∀ r, s.journal.countP (·.isEnded r) ≤ 1
  rated : ∀ r, s.journal.countP (·.isRated r) ≤ s.journal.countP (·.isEnded r)
  empty : ∀ r, Over s r → ∀ p, (s.sessions p).room ≠ some r

theorem init_settled : Settled init where
  lobby := init_lobby
  known := nofun
  ended _ := Nat.zero_le 1
  rated _ := le_refl 0
  empty := by
    rintro r ⟨e, he, -⟩
    cases he

theorem Over.iff_countP : Over s r ↔ 0 < s.journal.countP (·.isEnded r) := List.countP_pos_iff.symm

section
variable {white black : SessionId} {decided : Option (SessionId × SessionId)} {rows : List GameRow}

/-- The journal entries of an ending are all about its room. -/
theorem Closes.entries (h : Closes env s t r white black decided rows) :
    ∃ added, t.journal = s.journal ++ added ∧ (∀ e ∈ added, e.room = r) ∧
      (∀ r', added.countP (·.isEnded r') = if r' = r then 1 else 0) ∧
      ∀ r', added.countP (·.isRated r') ≤ if r' = r then 1 else 0 := by
  refine ⟨_, h.journal, ?_, fun r' => ?_, fun r' => ?_⟩
  · intro e he
    simp only [List.mem_append, List.mem_map, List.mem_singleton] at he
    obtain (he | ⟨row, -, rfl⟩) | rfl := he
    · cases decided with
      | none => cases he
      | some x => rw [List.mem_singleton.1 he]; rfl
    · rfl
    · rfl
  · have hrates : (ratings env r decided s).countP (·.isEnded r') = 0 := by cases decided <;> rfl
    have hrows : (rows.map (savedEntry r)).countP (·.isEnded r') = 0 := by
      rw [List.countP_map, List.countP_eq_zero]
      exact fun row _ => Bool.false_ne_true
    rw [List.countP_append, List.countP_append, hrates, hrows, List.countP_singleton]
    simp [Entry.isEnded, eq_comm]
  · have hrates : (ratings env r decided s).countP (·.isRated r') ≤ if r' = r then 1 else 0 := by
      cases decided with
      | none => exact Nat.zero_le _
      | some x => simp [ratings, Entry.isRated, List.countP_singleton, eq_comm]
    have hrows : (rows.map (savedEntry r)).countP (·.isRated r') = 0 := by
      rw [List.countP_map, List.countP_eq_zero]
      exact fun row _ => Bool.false_ne_true
    rw [List.countP_append, List.countP_append, hrows, List.countP_singleton]
    exact hrates

/-- Three sessions cannot sit in one room. -/
theorem Closes.seated (h : Closes env s t r white black decided rows) (hl : Lobby s)
    (hp : (s.sessions p).room = some r) : p = white ∨ p = black := by
  obtain ⟨room, hseats, hw⟩ := hl.seated white r h.seatWhite
  have hb := hl.seats hseats h.seatBlack
  have hp := hl.seats hseats hp
  have hne := h.ne
  grind

/-- No other game ends. -/
theorem Closes.over (h : Closes env s t r white black decided rows) (hover : Over t r') : Over s r' ∨ r' = r := by
  obtain ⟨added, hj, hroom, -, -⟩ := h.entries
  obtain ⟨e, he, hended⟩ := hover
  rw [hj] at he
  obtain he | he := List.mem_append.1 he
  · exact .inl ⟨e, he, hended⟩
  · exact .inr ((Entry.room_of_isEnded hended).symm.trans (hroom e he))

/-- A game ends in a room where it has not ended before, and leaves the room empty. -/
theorem Closes.settled (h : Closes env s t r white black decided rows) (hs : Settled s) (ht : Lobby t) : Settled t := by
  obtain ⟨added, hj, hroom, hended, hrated⟩ := h.entries
  obtain ⟨room, hseats, hor⟩ := hs.lobby.seated white r h.seatWhite
  have hfresh : s.journal.countP (·.isEnded r) = 0 := by
    by_contra hpos
    exact hs.empty r (Over.iff_countP.2 (Nat.pos_of_ne_zero hpos)) white h.seatWhite
  constructor
  · exact ht
  · intro e he
    rw [hj, List.mem_append] at he
    rw [h.length]
    obtain he | he := he
    · exact hs.known e he
    · rw [hroom e he]
      exact (List.getElem?_eq_some_iff.1 hseats.here).1
  · intro r'
    rw [hj, List.countP_append, hended]
    split
    · rename_i heq
      rw [heq, hfresh]
    · exact hs.ended r'
  · intro r'
    rw [hj, List.countP_append, List.countP_append, hended]
    exact Nat.add_le_add (hs.rated r') (hrated r')
  · intro r' hover p hp
    rw [h.seat] at hp
    split at hp
    · cases hp
    · rename_i hnot
      refine hs.empty r' ?_ p hp
      have hne : r' ≠ r := by
        rintro rfl
        exact hnot (h.seated hs.lobby hp)
      rw [Over.iff_countP, hj, List.countP_append, hended, if_neg hne] at hover
      exact Over.iff_countP.2 hover

end

theorem pair_settled {white black : SessionId} (hs : Settled s) (ht : Lobby (s.pair white black)) :
    Settled (s.pair white black) := by
  have hj : (s.pair white black).journal = s.journal ++ [.matched s.rooms.length (s.userId white)
      (s.userId black)] := rfl
  have hlen : (s.pair white black).rooms.length = s.rooms.length + 1 := List.length_append
  have hended : ∀ r, (s.pair white black).journal.countP (·.isEnded r) = s.journal.countP (·.isEnded r) :=
    fun r => List.countP_append
  have hrated : ∀ r, (s.pair white black).journal.countP (·.isRated r) = s.journal.countP (·.isRated r) :=
    fun r => List.countP_append
  constructor
  · exact ht
  · intro e he
    rw [hj, List.mem_append, List.mem_singleton] at he
    rw [hlen]
    obtain he | rfl := he
    · exact Nat.lt_succ_of_lt (hs.known e he)
    · exact Nat.lt_succ_self _
  · intro r
    rw [hended]
    exact hs.ended r
  · intro r
    rw [hended, hrated]
    exact hs.rated r
  · intro r hover p hp
    have hover' : Over s r := by rwa [Over.iff_countP, hended, ← Over.iff_countP] at hover
    have hlt : r < s.rooms.length := by
      obtain ⟨e, he, hr⟩ := hover'
      exact Entry.room_of_isEnded hr ▸ hs.known e he
    exact hs.empty r hover' p (pair_old_seat hlt hp)

theorem View.settled (hs : Settled s) (hv : View env s ev t) (ht : Lobby t) : Settled t := by
  have hsame : t.journal = s.journal → t.rooms.length = s.rooms.length →
      (∀ p, (t.sessions p).room = (s.sessions p).room) → Settled t := by
    intro hj hlen hseat
    refine ⟨ht, ?_, ?_, ?_, ?_⟩
    · rw [hj, hlen]; exact hs.known
    · rw [hj]; exact hs.ended
    · rw [hj]; exact hs.rated
    · intro r hover p
      rw [hseat]
      rw [Over, hj] at hover
      exact hs.empty r hover p
  cases hv with
  | quiet h => exact hsame h.journal h.length h.seat
  | refused _ => exact hsame rfl rfl fun _ => rfl
  | login _ _ => exact hsame rfl rfl fun _ => login_seat _ _
  | paired _ _ => exact pair_settled hs ht
  | ended _ hc => exact hc.settled hs ht
  | quit _ hc => exact hc.settled hs ht

theorem Reached.settled (h : Reached env s) : Settled s :=
  h.inv Settled init_settled fun hs hh => (hh.view hs.lobby).settled hs ((hh.change hs.lobby).lobby hs.lobby)

/-! ### Ratings -/

/-- What `update_rating` does to a row of `users`. -/
def booked (env : Env) (s : Server) (winner loser : SessionId) (u : User) : User :=
  let ra := s.rating winner
  let rb := s.rating loser
  let u := if u.id = s.userId winner then { u with rating := newWinnerRating env ra rb } else u
  let u := if u.id = s.userId loser then { u with rating := newLoserRating env ra rb } else u
  let u := if u.id = s.userId winner then { u with gamesPlayed := u.gamesPlayed + 1, gamesWon := u.gamesWon + 1 } else u
  if u.id = s.userId loser then { u with gamesPlayed := u.gamesPlayed + 1 } else u

theorem booked_id (env : Env) (s : Server) (winner loser : SessionId) (u : User) :
    (booked env s winner loser u).id = u.id := by
  simp only [booked, apply_ite User.id, ite_self]

theorem booked_other {winner loser : SessionId} {u : User} (hw : u.id ≠ s.userId winner) (hl : u.id ≠ s.userId loser) :
    booked env s winner loser u = u := by
  simp [booked, hw, hl]

/-- The four statements of `update_rating`, one after the other. -/
theorem rate_writes (env : Env) (r : RoomId) (winner loser : SessionId) (s : Server) :
    (s.rate env r (some (winner, loser))).db =
      ((((s.db.updateRating (s.userId winner) (newWinnerRating env (s.rating winner) (s.rating loser))).updateRating
        (s.userId loser) (newLoserRating env (s.rating winner) (s.rating loser))).updateStats (s.userId winner)
        true false).updateStats (s.userId loser) false false) := by
  have hid : ∀ a b q, ((s.setRating winner a).setRating loser b).userId q = s.userId q := by simp
  rw [← hid _ _ winner, ← hid _ _ loser]
  rfl

theorem rate_users (env : Env) (r : RoomId) (winner loser : SessionId) (s : Server) :
    (s.rate env r (some (winner, loser))).db.users = s.db.users.map (booked env s winner loser) := by
  rw [rate_writes]
  simp only [Database.updateRating, Database.updateStats, Database.updateUser, List.map_map]
  rfl

theorem rate_rating (env : Env) (r : RoomId) (decided : Option (SessionId × SessionId)) (s : Server)
    (h : ∀ x, decided = some x → p ≠ x.1 ∧ p ≠ x.2) : (s.rate env r decided).rating p = s.rating p := by
  cases decided with
  | none => rfl
  | some x =>
    show ((s.setRating x.1 _).setRating x.2 _).rating p = _
    rw [setRating_rating, if_neg (h x rfl).2, setRating_rating, if_neg (h x rfl).1]

/-- The ratings in the sessions and in the database stay as they are. -/
def SameRatings (s t : Server) : Prop := (∀ p, t.rating p = s.rating p) ∧ t.db.users = s.db.users

/-- A game ends in the room, and only the ratings of the two sessions there change. -/
structure RatesThrough (s t : Server) (r : RoomId) : Prop where
  fresh : ¬Over s r
  ended : Over t r
  session : ∀ p, (s.sessions p).room ≠ some r → t.rating p = s.rating p
  stored : ∀ id, (∀ p, (s.sessions p).room = some r → s.userId p ≠ id) →
    t.db.users.filter (·.id = id) = s.db.users.filter (·.id = id)

theorem Closes.ratesThrough {white black : SessionId} {decided : Option (SessionId × SessionId)} {rows : List GameRow}
    (h : Closes env s t r white black decided rows) (hs : Settled s) : RatesThrough s t r where
  fresh := fun hover => hs.empty r hover white h.seatWhite
  ended := by
    rw [Over, h.journal]
    exact ⟨_, List.mem_append_right _ (List.mem_append_right _ (List.mem_singleton_self _)), decide_eq_true rfl⟩
  session p hp := by
    rw [h.rating]
    apply rate_rating
    intro x hx
    have hw : p ≠ white := by
      rintro rfl
      exact hp h.seatWhite
    have hb : p ≠ black := by
      rintro rfl
      exact hp h.seatBlack
    obtain rfl | rfl := h.two x hx
    · exact ⟨hw, hb⟩
    · exact ⟨hb, hw⟩
  stored id hid := by
    have hw := hid white h.seatWhite
    have hb := hid black h.seatBlack
    rw [h.users]
    cases hd : decided with
    | none => rfl
    | some x =>
      obtain ⟨winner, loser⟩ := x
      have hids : s.userId winner ≠ id ∧ s.userId loser ≠ id := by
        have htwo := h.two _ hd
        simp only [Prod.mk.injEq] at htwo
        obtain ⟨rfl, rfl⟩ | ⟨rfl, rfl⟩ := htwo
        · exact ⟨hw, hb⟩
        · exact ⟨hb, hw⟩
      have hkey : (fun u : User => decide (u.id = id)) ∘ booked env s winner loser = fun u => decide (u.id = id) := by
        funext u
        rw [Function.comp_apply, booked_id]
      rw [rate_users, List.filter_map, hkey]
      refine (List.map_congr_left fun u hu => ?_).trans (List.map_id _)
      have hu : u.id = id := of_decide_eq_true (List.mem_filter.1 hu).2
      exact booked_other (hu ▸ hids.1.symm) (hu ▸ hids.2.symm)

/-- Ratings change when a session logs in and when a game ends. -/
theorem View.ratings (hs : Settled s) (hv : View env s ev t) :
    (∃ p nick password, ev = .command p (.auth nick password)) ∨ SameRatings s t ∨ ∃ r, RatesThrough s t r := by
  cases hv with
  | quiet h => exact .inr (.inl ⟨h.rating, by rw [h.db]⟩)
  | refused _ => exact .inl ⟨_, _, _, rfl⟩
  | login _ _ => exact .inl ⟨_, _, _, rfl⟩
  | @paired _ white black _ _ =>
    exact .inr (.inl ⟨pair_rating, rfl⟩)
  | ended _ hc => exact .inr (.inr ⟨_, hc.ratesThrough hs⟩)
  | quit _ hc => exact .inr (.inr ⟨_, hc.ratesThrough hs⟩)

/-- What an event does to a room whose game is over: nothing, and nothing is recorded of it. -/
structure Spares (s t : Server) (r : RoomId) : Prop where
  room : t.rooms[r]? = s.rooms[r]?
  entries : t.journal.filter (·.room = r) = s.journal.filter (·.room = r)

theorem Closes.spares {white black : SessionId} {decided : Option (SessionId × SessionId)} {rows : List GameRow}
    (h : Closes env s t r white black decided rows) (hs : Settled s) (hover : Over s r') : Spares s t r' := by
  have hne : r' ≠ r := by
    rintro rfl
    exact hs.empty r' hover white h.seatWhite
  obtain ⟨added, hj, hroom, -⟩ := h.entries
  refine ⟨h.room r' hne, ?_⟩
  rw [hj, List.filter_append, List.append_right_eq_self, List.filter_eq_nil_iff]
  intro e he
  simpa [hroom e he] using hne.symm

theorem View.spares (hs : Settled s) (hv : View env s ev t) (hover : Over s r) : Spares s t r := by
  cases hv with
  | quiet h => exact ⟨h.room r (hs.empty r hover), by rw [h.journal]⟩
  | refused _ => exact ⟨rfl, rfl⟩
  | login _ _ => exact ⟨rfl, rfl⟩
  | @paired _ white black _ _ =>
    obtain ⟨e, he, hr⟩ := hover
    have hlt := hs.known e he
    rw [Entry.room_of_isEnded hr] at hlt
    refine ⟨List.getElem?_append_left hlt, ?_⟩
    have hj : (s.pair white black).journal = s.journal ++ [.matched s.rooms.length (s.userId white) (s.userId black)] :=
      rfl
    rw [hj, List.filter_append, List.append_right_eq_self, List.filter_eq_nil_iff]
    intro e he
    rw [List.mem_singleton.1 he]
    exact fun h => hlt.ne' (of_decide_eq_true h)
  | ended _ hc => exact hc.spares hs hover
  | quit _ hc => exact hc.spares hs hover

/-- In every run, a room's game ends at most once and is rated at most once. Whatever
event comes next, ratings change through a login or through one room, whose game
it ends; once the game in a room has ended, the event leaves the room alone. -/
theorem ends_once (env : Env) (events : List Event) (r : RoomId) (ev : Event) :
    let s := after env events
    let t := after env (events ++ [ev])
    s.journal.countP (·.isEnded r) ≤ 1 ∧ s.journal.countP (·.isRated r) ≤ 1 ∧
      ((∃ p nick password, ev = .command p (.auth nick password)) ∨ SameRatings s t ∨ ∃ r', RatesThrough s t r') ∧
      (Over s r → Spares s t r) := by
  intro s t
  have hs : Settled s := (after_reached env events).settled
  have hv : View env s ev t := by
    have hh : t = (s.handle env ev).1 := after_snoc env events ev
    exact Handled.view hs.lobby hh
  exact ⟨hs.ended r, (hs.rated r).trans (hs.ended r), hv.ratings hs, hv.spares hs⟩

end Server

end ChessGame
