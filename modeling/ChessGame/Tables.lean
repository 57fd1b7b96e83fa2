import ChessGame.Turns
/-!
# The table of rooms

`try_matchmake` pushes every room it makes onto `_rooms`, and nothing takes one out.
The table therefore holds the games in progress exactly as long as no game has ended.
-/
open Runs

namespace ChessGame

namespace Server

variable {env : Env} {s t : Server} {p q : SessionId} {r : RoomId} {room : GameRoom} {ev : Event}

/-- `_rooms`: a room is identified by its place in the table. -/
def roomTable (s : Server) : List RoomId := List.range s.rooms.length

/-- Some session is seated in the room. -/
def InUse (s : Server) (r : RoomId) : Prop := ∃ p, (s.sessions p).room = some r

/-- Every room in use is in the table once, and no other room is. -/
structure TableRight (s : Server) : Prop where
  listed : ∀ r, InUse s r → (roomTable s).count r = 1
  others : ∀ r, ¬ InUse s r → r ∉ roomTable s

/-- The event ends a game. -/
def EndsGame (s : Server) (ev : Event) : Prop :=
  (∃ r room e, Ends s ev r room e) ∨ ∃ r room p, Quits s ev r room p

theorem tableRight_iff (h : Lobby s) : TableRight s ↔ ∀ r < s.rooms.length, InUse s r := by
  constructor
  · intro ht r hr
    by_contra hn
    exact ht.others r hn (List.mem_range.2 hr)
  · intro hall
    constructor
    · rintro r ⟨p, hp⟩
      obtain ⟨room, hs, -⟩ := h.seated p r hp
      obtain ⟨hlt, -⟩ := List.getElem?_eq_some_iff.1 hs.here
      exact List.count_eq_one_of_mem List.nodup_range (List.mem_range.2 hlt)
    · intro r hn hr
      exact hn (hall r (List.mem_range.1 hr))

/-! ## What an event does to the seats -/

/-- The handler reaches `end_game` with the room as it then is. -/
theorem Ends.handled (h : Lobby s) {e : Ending} (he : Ends s ev r room e) :
    (s.handle env ev).1 = ((s.setGame r room).endGame env r room e).1 := by
  cases he with
  | @move p _ _ _ src dst promotion _ hr hm =>
    have hauth := h.signedIn hr
    simp [handle, handleCommand, handleMove, roomMove, hauth, hr, hm]
  | @accept p _ _ _ hr he =>
    have hauth := h.signedIn hr
    rw [setGame_self (roomOf_eq_some.1 hr).2]
    simp [handle, handleCommand, handleDraw, hauth, hr, he]

theorem roomDisconnect_unseated (h : Lobby s) (hr : s.roomOf p = some (r, room)) :
    ((s.roomDisconnect env r room p).1.sessions p).room = none := by
  rw [roomDisconnect_eq, finish_room, if_pos (h.roomOf hr).2]

/-- The handler reaches the room's `on_disconnect`, and leaves the rest to it. -/
theorem Quits.handled (env : Env) (h : Lobby s) (hq : Quits s ev r room p) :
    ∃ players, (s.handle env ev).1 = { (s.roomDisconnect env r room p).1 with allPlayers := players } := by
  have hleft : s.roomOf p = some (r, room) → ((s.removeFromQueue p).1.leaveRoom env p).1 =
      (s.roomDisconnect env r room p).1 := by
    intro hr
    have hin : (s.sessions p).inQueue = false := by
      rw [← Bool.not_eq_true]
      intro hin
      have hroom := h.apart p hin
      rw [(roomOf_eq_some.1 hr).1] at hroom
      cases hroom
    rw [removeFromQueue_idle hin, leaveRoom, hr]
  cases hq with
  | leave hr =>
    have hauth := h.signedIn hr
    refine ⟨(s.roomDisconnect env r room p).1.allPlayers, ?_⟩
    simp only [handle, handleCommand, hauth, Bool.not_true, Bool.false_eq_true, if_false, handleLeave, hleft hr]
    exact setRoom_self (roomDisconnect_unseated h hr)
  | disconnect hr =>
    refine ⟨(s.roomDisconnect env r room p).1.allPlayers.filter (· ≠ p), ?_⟩
    simp only [handle, onDisconnect, hleft hr]

/-- Who leaves has no seat any more. -/
theorem Quits.unseated (h : Lobby s) (hq : Quits s ev r room p) : ((s.handle env ev).1.sessions p).room = none := by
  obtain ⟨players, he⟩ := hq.handled env h
  rw [he]
  cases hq with
  | leave hr | disconnect hr => exact roomDisconnect_unseated h hr

/-- An event that ends a game takes a player's seat. -/
theorem EndsGame.unseats (h : Lobby s) (he : EndsGame s ev) :
    ∃ p r, (s.sessions p).room = some r ∧ ((s.handle env ev).1.sessions p).room = none := by
  obtain ⟨r, room, e, he⟩ | ⟨r, room, p, hq⟩ := he
  · obtain ⟨room₀, hs, hw, -⟩ := he.seats h
    refine ⟨room.white, r, hw ▸ hs.white, ?_⟩
    rw [he.handled h, endGame_eq, finish_room, if_pos (.inl rfl)]
  · obtain ⟨hs, hor⟩ := hq.seats h
    refine ⟨p, r, ?_, hq.unseated h⟩
    obtain rfl | rfl := hor
    · exact hs.white
    · exact hs.black

/-- Where one player loses the seat the other does, and the room stays in the table. -/
theorem View.vacated (h : Lobby s) (hv : View env s ev t) (hp : (s.sessions p).room = some r)
    (hp' : (t.sessions p).room = none) : r < t.rooms.length ∧ ¬ InUse t r := by
  have hlt : r < s.rooms.length := by
    obtain ⟨room, hs, -⟩ := h.seated p r hp
    exact (List.getElem?_eq_some_iff.1 hs.here).1
  have hclosed : ∀ {r' white black decided rows}, Closes env s t r' white black decided rows →
      r < t.rooms.length ∧ ¬ InUse t r := by
    intro r' white black decided rows hc
    rw [hc.seat] at hp'
    split at hp'
    · rename_i hor
      obtain rfl : r = r' := by
        obtain rfl | rfl := hor
        · exact Option.some.inj (hp.symm.trans hc.seatWhite)
        · exact Option.some.inj (hp.symm.trans hc.seatBlack)
      refine ⟨hc.length ▸ hlt, ?_⟩
      rintro ⟨q, hq⟩
      rw [hc.seat] at hq
      split at hq
      · cases hq
      · rename_i hno
        exact hno (hc.seated h hq)
    · rw [hp] at hp'
      cases hp'
  cases hv with
  | quiet hq =>
    rw [hq.seat, hp] at hp'
    cases hp'
  | refused _ =>
    rw [hp] at hp'
    cases hp'
  | login _ _ =>
    rw [login_seat, hp] at hp'
    cases hp'
  | paired hw hb =>
    rw [pair_keeps hw hb hp] at hp'
    cases hp'
  | ended _ hc => exact hclosed hc
  | quit _ hc => exact hclosed hc

/-- The table stays right as long as no game ends. -/
theorem tableRight_next (h : Lobby s) (ht : TableRight s) :
    TableRight (s.handle env ev).1 ↔ ¬ EndsGame s ev := by
  have hc := handle_change env h ev
  have hl := hc.lobby h
  have hv := hc.view h
  rw [tableRight_iff h] at ht
  rw [tableRight_iff hl]
  constructor
  · intro hall he
    obtain ⟨p, r, hp, hp'⟩ := he.unseats h
    obtain ⟨hlt, hempty⟩ := hv.vacated h hp hp'
    exact hempty (hall r hlt)
  · intro hno
    generalize (s.handle env ev).1 = t at hv
    have hsame : t.rooms.length = s.rooms.length → (∀ q, (t.sessions q).room = (s.sessions q).room) →
        ∀ r < t.rooms.length, InUse t r := by
      intro hlen hseat r hr
      obtain ⟨p, hp⟩ := ht r (hlen ▸ hr)
      exact ⟨p, (hseat p).trans hp⟩
    cases hv with
    | quiet hq => exact hsame hq.length hq.seat
    | refused _ => exact hsame rfl fun _ => rfl
    | login _ _ => exact hsame rfl fun _ => login_seat _ _
    | @paired _ white black hw hb =>
      intro r hr
      have hlen : (s.pair white black).rooms.length = s.rooms.length + 1 := List.length_append
      by_cases hnew : r = s.rooms.length
      · refine ⟨white, ?_⟩
        rw [pair_seat (.inl rfl), hnew]
      · obtain ⟨p, hp⟩ := ht r (by omega)
        exact ⟨p, pair_keeps hw hb hp⟩
    | ended he _ => exact absurd (.inl ⟨_, _, _, he⟩) hno
    | quit hq _ => exact absurd (.inr ⟨_, _, _, hq⟩) hno

theorem init_tableRight : TableRight init :=
  (tableRight_iff init_lobby).2 nofun

/-- The table holds the games in progress throughout a run exactly when no game of the run ends. -/
theorem table_right_iff {l : List (Server × Event)} (h : Run (Handled env) init l s) :
    ((∀ x ∈ l, TableRight x.1) ∧ TableRight s) ↔ ∀ x ∈ l, ¬ EndsGame x.1 x.2 := by
  refine (h.always_iff TableRight (fun _ => True) (fun s ev => ¬ EndsGame s ev) init_tableRight trivial ?_).1
  intro s ev t hr ht _ hh
  rw [show t = (s.handle env ev).1 from hh]
  exact ⟨trivial, tableRight_next (Reached.lobby hr) ht⟩

theorem not_endsGame {s : Server} {ev : Event} (h : ev ∈ opening) : ¬ EndsGame s ev := by
  rintro (⟨_, _, _, he⟩ | ⟨_, _, _, hq⟩)
  · cases he <;> simp [opening] at h
  · cases hq <;> simp [opening] at h

/-- Alice and Bob are matched. -/
theorem table_right_opening : (roomTable (after .even opening)).length = 1 ∧ TableRight (after .even opening) := by
  refine ⟨by decide +kernel, ((table_right_iff (steps_run .even opening)).2 fun x hx => not_endsGame ?_).2⟩
  have hev := List.mem_map_of_mem (f := Prod.snd) hx
  rwa [steps_events] at hev

/-- Alice leaves: nobody sits in the room any more, and it is still in the table. -/
theorem table_right_fails : 0 ∈ roomTable (after .even (opening ++ [.command 0 .leave])) ∧
    ¬ InUse (after .even (opening ++ [.command 0 .leave])) 0 ∧
    ¬ TableRight (after .even (opening ++ [.command 0 .leave])) := by
  have hlisted : 0 ∈ roomTable (after .even (opening ++ [.command 0 .leave])) := by decide +kernel
  have hover : Over (after .even (opening ++ [.command 0 .leave])) 0 := by
    unfold Over
    decide +kernel
  have hempty : ¬ InUse (after .even (opening ++ [.command 0 .leave])) 0 := by
    rintro ⟨p, hp⟩
    exact (Reached.settled (after_reached ..)).empty 0 hover p hp
  exact ⟨hlisted, hempty, fun ht => ht.others 0 hempty hlisted⟩

end Server

end ChessGame
