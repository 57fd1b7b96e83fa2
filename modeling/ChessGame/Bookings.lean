import ChessGame.Ratings
/-!
# To whom a game is booked

A room keeps its two sessions, and `end_game` asks them who they are. These are the
users that were matched unless a session has signed in as somebody else meanwhile.
-/

namespace ChessGame

/-- The user ids of a row: white, black and the winner. -/
def GameRow.players (row : GameRow) : ℤ × ℤ × ℤ := (row.whitePlayerId, row.blackPlayerId, row.winnerId)

namespace Server

open Runs

variable {env : Env} {s t : Server} {p q : SessionId} {r : RoomId} {room : GameRoom} {ev : Event} {w b : ℤ}

/-- The end of the game in `r` is written to the users `w` and `b`, and to nobody else. `decided` are the sessions of
the winner and the loser, if it has them, and `rows` the ids in what it adds to `games`. -/
structure BookedTo (env : Env) (s t : Server) (r : RoomId) (w b : ℤ) (decided : Option (SessionId × SessionId))
    (rows : List (ℤ × ℤ × ℤ)) : Prop where
  users : ∀ winner loser, decided = some (winner, loser) →
    ((s.userId winner = w ∧ s.userId loser = b) ∨ (s.userId winner = b ∧ s.userId loser = w)) ∧
      t.db.users = s.db.users.map (booked env s winner loser) ∧
      ∃ gain loss, .rated r (s.userId winner) (s.userId loser) gain loss ∈ t.journal
  undecided : decided = none → t.db.users = s.db.users
  others : ∀ id, id ≠ w → id ≠ b → t.db.users.filter (·.id = id) = s.db.users.filter (·.id = id)
  games : t.db.games.map GameRow.players = s.db.games.map GameRow.players ++ rows
  rated : ∀ winner loser gain loss, .rated r winner loser gain loss ∈ t.journal →
    (winner = w ∧ loser = b) ∨ (winner = b ∧ loser = w)

/-- The event ends the game in `r`, one way or the other, and the game is booked to `w` and `b`. -/
inductive Books (env : Env) (s : Server) (ev : Event) (t : Server) (r : RoomId) (w b : ℤ) : Prop
  /-- `end_game` with a winner -/
  | won {room : GameRoom} {e : Ending} {winner loser : SessionId} : Ends s ev r room e → e.winner = some winner →
      room.opponentOf winner = some loser →
      BookedTo env s t r w b (some (winner, loser)) [(w, b, s.userId winner)] → Books env s ev t r w b
  /-- `end_game` without one -/
  | drawn {room : GameRoom} {e : Ending} : Ends s ev r room e → e.winner = none →
      BookedTo env s t r w b none [(w, b, -1)] → Books env s ev t r w b
  /-- `GameRoom::on_disconnect`, which saves no game -/
  | left {room : GameRoom} {p other : SessionId} : Quits s ev r room p → room.opponentOf p = some other →
      BookedTo env s t r w b (some (other, p)) [] → Books env s ev t r w b

/-- Whatever event comes next: if it ends a game, the game is booked to the users that were matched for it. -/
def BooksMatched (env : Env) (s : Server) : Prop := ∀ r w b ev, .matched r w b ∈ s.journal →
  ¬ Over s r → Over (s.handle env ev).1 r → Books env s ev (s.handle env ev).1 r w b

/-- A seated session that signs in stays the same user. -/
def KeepsIdentity (env : Env) (s : Server) : Event → Prop
  | .command p (.auth nick password) => nick.isEmpty ∨ (s.sessions p).room = none ∨
      ∀ info ∈ (s.db.loginOrRegister env nick password).1, info.id = s.userId p
  | _ => True

/-- The players of a room are the users that were matched for it. -/
structure Matched (s : Server) : Prop where
  settled : Settled s
  users : ∀ r w b room, .matched r w b ∈ s.journal → Seats s r room → s.userId room.white = w ∧ s.userId room.black = b

theorem init_matched : Matched init := ⟨init_settled, nofun⟩

/-- The rooms in which somebody sits have been matched before, and keep their players. -/
theorem Matched.same (h : Matched s) (ht : Settled t)
    (hseats : ∀ r room', Seats t r room' →
      ∃ room, Seats s r room ∧ room.white = room'.white ∧ room.black = room'.black ∧
      t.userId room.white = s.userId room.white ∧ t.userId room.black = s.userId room.black)
    (hj : ∀ r w b, .matched r w b ∈ t.journal → .matched r w b ∈ s.journal) : Matched t where
  settled := ht
  users r w b room' hm hs := by
    obtain ⟨room, hs, hw, hb, hwid, hbid⟩ := hseats r room' hs
    have hu := h.users r w b room (hj r w b hm) hs
    rw [← hw, ← hb, hwid, hbid]
    exact hu

theorem Closes.matched {white black : SessionId} {decided : Option (SessionId × SessionId)} {rows : List GameRow}
    (h : Closes env s t r white black decided rows) (hs : Matched s) (ht : Settled t) : Matched t := by
  refine hs.same ht (fun r' room' hs' => ?_) fun r' w b hm => ?_
  · have hover : Over t r := by
      rw [Over, h.journal]
      exact ⟨_, List.mem_append_right _ (List.mem_append_right _ (List.mem_singleton_self _)), decide_eq_true rfl⟩
    have hne : r' ≠ r := by
      rintro rfl
      exact ht.empty r' hover _ hs'.white
    have hseat : ∀ q, (t.sessions q).room = some r' → (s.sessions q).room = some r' := by
      intro q hq
      rw [h.seat] at hq
      split at hq
      · cases hq
      · exact hq
    exact ⟨room', ⟨h.room r' hne ▸ hs'.here, hs'.ne, hseat _ hs'.white, hseat _ hs'.black⟩, rfl, rfl, h.userId _,
      h.userId _⟩
  · rw [h.journal] at hm
    simp only [List.mem_append, List.mem_map, List.mem_singleton, reduceCtorEq, or_false] at hm
    obtain hm | hm | ⟨row, -, hm⟩ := hm
    · exact hm
    · cases decided <;> simp [ratings] at hm
    · cases hm

theorem View.matched (hs : Matched s) (hv : View env s ev t) (ht : Settled t) (hk : KeepsIdentity env s ev) :
    Matched t := by
  cases hv with
  | quiet h =>
    refine hs.same ht (fun r room' hs' => ?_) fun r w b hm => h.journal ▸ hm
    obtain ⟨room, hr, hw, hb⟩ := h.players r room' hs'.here
    refine ⟨room, ⟨hr, by rw [hw, hb]; exact hs'.ne, ?_, ?_⟩, hw, hb, h.userId _, h.userId _⟩
    · rw [hw, ← h.seat]
      exact hs'.white
    · rw [hb, ← h.seat]
      exact hs'.black
  | refused _ =>
    exact hs.same ht (fun r room h => ⟨room, ⟨h.here, h.ne, h.white, h.black⟩, rfl, rfl, rfl, rfl⟩) fun _ _ _ h => h
  | @login p nick password info db hnick h =>
    have hid : ∀ q r, (s.sessions q).room = some r →
        (setSession { s with db } p (loggedIn info)).userId q = s.userId q := by
      intro q r hq
      rw [userId, sessions_setSession]
      split
      · rename_i hqp
        subst hqp
        obtain hk | hk | hk := hk
        · rw [hnick] at hk
          cases hk
        · rw [hk] at hq
          cases hq
        · exact hk info (by rw [h]; rfl)
      · rfl
    refine hs.same ht (fun r room hs' => ?_) fun _ _ _ h => h
    have hw := (login_seat info db).symm.trans hs'.white
    have hb := (login_seat info db).symm.trans hs'.black
    exact ⟨room, ⟨hs'.here, hs'.ne, hw, hb⟩, rfl, rfl, hid _ r hw, hid _ r hb⟩
  | @paired _ white black hw hb =>
    refine ⟨ht, fun r w b room hm hs' => ?_⟩
    rw [pair_userId, pair_userId]
    have hj : (s.pair white black).journal = s.journal ++ [.matched s.rooms.length (s.userId white) (s.userId black)] :=
      rfl
    rw [hj, List.mem_append, List.mem_singleton] at hm
    obtain hm | hm := hm
    · -- a room that was matched before, so not the new one
      have hlt := hs.settled.known _ hm
      have hroom : s.rooms[r]? = some room := (List.getElem?_append_left hlt).symm.trans hs'.here
      exact hs.users r w b room hm ⟨hroom, hs'.ne, pair_old_seat hlt hs'.white, pair_old_seat hlt hs'.black⟩
    · cases hm
      have hroom := hs'.here.symm.trans pair_new
      cases hroom
      exact ⟨rfl, rfl⟩
  | ended _ hc => exact hc.matched hs ht
  | quit _ hc => exact hc.matched hs ht

/-! ## Runs -/

theorem Closes.bookedTo {white black : SessionId} {decided : Option (SessionId × SessionId)} {rows : List GameRow}
    (h : Closes env s t r white black decided rows) (hs : Settled s) :
    BookedTo env s t r (s.userId white) (s.userId black) decided (rows.map GameRow.players) where
  users winner loser hd := by
    subst hd
    refine ⟨?_, ?_, ?_⟩
    · obtain he | he := h.two _ rfl <;> cases he
      · exact .inl ⟨rfl, rfl⟩
      · exact .inr ⟨rfl, rfl⟩
    · rw [h.users, rate_users]
    · rw [h.journal]
      exact ⟨_, _, List.mem_append_right _ <|
        List.mem_append_left _ (List.mem_append_left _ (List.mem_singleton_self _))⟩
  undecided hd := by
    subst hd
    exact h.users
  others id hw hb := by
    refine (h.ratesThrough hs).stored id fun p hp => ?_
    obtain rfl | rfl := h.seated hs.lobby hp
    · exact hw.symm
    · exact hb.symm
  games := by rw [h.games, List.map_append]
  rated winner loser gain loss hm := by
    rw [h.journal, List.mem_append] at hm
    obtain hm | hm := hm
    · -- the game has not ended before, so it has not been rated
      have hopen : s.journal.countP (·.isEnded r) = 0 := by
        by_contra hpos
        exact hs.empty r (Over.iff_countP.2 (Nat.pos_of_ne_zero hpos)) white h.seatWhite
      have hrated := hs.rated r
      rw [hopen, Nat.le_zero, List.countP_eq_zero] at hrated
      exact absurd (decide_eq_true rfl) (hrated _ hm)
    · simp only [List.mem_append, List.mem_map, List.mem_singleton, reduceCtorEq, or_false] at hm
      obtain hm | ⟨row, -, hm⟩ := hm
      · cases hd : decided with
        | none => rw [hd] at hm; cases hm
        | some x =>
          rw [hd, ratings, List.mem_singleton] at hm
          cases hm
          obtain rfl | rfl := h.two x hd
          · exact .inl ⟨rfl, rfl⟩
          · exact .inr ⟨rfl, rfl⟩
      · cases hm

theorem Closes.players {white black : SessionId} {decided : Option (SessionId × SessionId)} {row : GameRow}
    (h : Closes env s t r white black decided [row]) :
    row.players = (s.userId white, s.userId black, (decided.map fun x => s.userId x.1).getD (-1)) := by
  obtain ⟨h1, h2, h3⟩ := h.written row (List.mem_singleton_self row)
  rw [GameRow.players, h1, h2, h3]

theorem Closes.books_ended {e : Ending} {row : GameRow}
    (h : Closes env s t r room.white room.black (room.decides e.winner) [row]) (hs : Settled s)
    (he : Ends s ev r room e) :
    Books env s ev t r (s.userId room.white) (s.userId room.black) := by
  have hbooked := h.bookedTo hs
  rw [List.map_singleton, h.players] at hbooked
  obtain ⟨hd, hw⟩ | ⟨hd, hw⟩ | ⟨hd, hw⟩ := he.fits.decides h.ne <;> rw [hd] at hbooked
  · exact .drawn he hw hbooked
  · exact .won he hw opponent_white hbooked
  · exact .won he hw (opponent_black h.ne) hbooked

theorem Closes.books_left
    (h : Closes env s t r room.white room.black ((room.opponentOf p).map fun other => (other, p)) [])
    (hs : Settled s) (hq : Quits s ev r room p) : Books env s ev t r (s.userId room.white) (s.userId room.black) := by
  have hbooked := h.bookedTo hs
  obtain rfl | rfl := (hq.seats hs.lobby).2
  · rw [opponent_white] at hbooked
    exact .left hq opponent_white hbooked
  · rw [opponent_black h.ne] at hbooked
    exact .left hq (opponent_black h.ne) hbooked

theorem Books.others (h : Books env s ev t r w b) (id : ℤ) (hw : id ≠ w) (hb : id ≠ b) :
    t.db.users.filter (·.id = id) = s.db.users.filter (·.id = id) := by
  cases h with
  | won _ _ _ h | drawn _ _ h | left _ _ h => exact h.others id hw hb

/-- In a run in which no seated session becomes another user, games are booked to the
users that were matched for them. -/
theorem books_matched {l : List (Server × Event)} (h : Run (Handled env) init l s)
    (hc : ∀ x ∈ l, KeepsIdentity env x.1 x.2) : BooksMatched env s := by
  have hinv : Matched s := by
    refine h.inv_of Matched (KeepsIdentity env) init_matched ?_ hc
    intro s ev t hr hm hk hh
    have hl := hm.settled.lobby
    exact (hh.view hl).matched hm ((hh.view hl).settled hm.settled ((hh.change hl).lobby hl)) hk
  intro r w b ev hm hopen hover
  have hl := hinv.settled.lobby
  have hv : View env s ev (s.handle env ev).1 := (handle_change env hl ev).view hl
  -- only an ending ends the game, and both its players are still those that were matched
  generalize (s.handle env ev).1 = t at hv hover
  cases hv with
  | quiet h => rw [Over, h.journal] at hover; exact absurd hover hopen
  | refused _ => exact absurd hover hopen
  | login _ _ => exact absurd hover hopen
  | paired _ _ =>
    obtain ⟨e, he, hended⟩ := hover
    obtain he | he := List.mem_append.1 he
    · exact absurd ⟨e, he, hended⟩ hopen
    · rw [List.mem_singleton.1 he] at hended
      cases hended
  | ended he hc =>
    obtain rfl := (hc.over hover).resolve_left hopen
    obtain ⟨room₀, hs, hw, hb⟩ := he.seats hl
    obtain ⟨rfl, rfl⟩ := hinv.users r w b room₀ hm hs
    rw [← hw, ← hb]
    exact hc.books_ended hinv.settled he
  | quit hq hc =>
    obtain rfl := (hc.over hover).resolve_left hopen
    obtain ⟨rfl, rfl⟩ := hinv.users r w b _ hm (hq.seats hl).1
    exact hc.books_left hinv.settled hq

instance (env : Env) (s : Server) : DecidablePred (KeepsIdentity env s)
  | .command p (.auth nick password) => inferInstanceAs (Decidable (nick.isEmpty ∨ (s.sessions p).room = none ∨
      ∀ info ∈ (s.db.loginOrRegister env nick password).1, info.id = s.userId p))
  | .command _ .invalid | .command _ .ping | .command _ .leaderboard | .command _ .queue | .command _ .leave
  | .command _ (.chat _) | .command _ (.move ..) | .command _ (.draw _) | .command _ .unknown
  | .connect _ | .disconnect _ => instDecidableTrue

/-- Bob leaves. -/
theorem books_matched_leave : Books .even (after .even opening) (.command 1 .leave)
    ((after .even opening).handle .even (.command 1 .leave)).1 0 1 2 := by
  have hkeeps : ∀ x ∈ steps .even init opening, KeepsIdentity .even x.1 x.2 := by decide +kernel
  refine books_matched (steps_run .even opening) hkeeps 0 1 2 (.command 1 .leave) (by decide +kernel) ?_ ?_
  · unfold Over
    decide +kernel
  · unfold Over
    decide +kernel

/-- Bob signs in as Carol and leaves: the loss is booked to Carol. -/
theorem books_matched_fails : ¬ BooksMatched .even (after .even (opening ++ [.command 1 (.auth "carol" "c")])) := by
  intro h
  have hbooked := h 0 1 2 (.command 1 .leave) (by decide +kernel) (by unfold Over; decide +kernel)
    (by unfold Over; decide +kernel)
  have hsame := hbooked.others 3 (by decide) (by decide)
  exact absurd hsame (by decide +kernel)

end Server

end ChessGame
