import ChessGame.Changes
import ChessGame.Lib.Runs
/-!
# The lobby over a run

Whatever the clients send, in whatever order, the queue, the flags of the sessions
and the seats of the rooms tell the same story.
-/

namespace ChessGame

namespace Server

open Runs

variable {env : Env} {s t : Server} {p : SessionId} {r : RoomId} {room room' : GameRoom} {ev : Event}

/-- The server handles an event. -/
def Handled (env : Env) (s : Server) (ev : Event) (t : Server) : Prop := t = (s.handle env ev).1

/-- The server may stand like this. -/
def Reached (env : Env) (s : Server) : Prop := Reachable (Handled env) init s

theorem init_lobby : Lobby init where
  nodup := List.nodup_nil
  queued p := by simp [init, Session.new]
  apart p h := by cases h
  authorized p h := by simp [init, Session.new] at h
  seated p r h := by cases h
  waiting := Nat.zero_le 1

/-- Nobody enters or leaves the queue, nobody takes a seat, and both players of a
room leave it together. -/
theorem Lobby.congr (h : Lobby s) (hqueue : t.queue = s.queue)
    (hin : ∀ p, (t.sessions p).inQueue = (s.sessions p).inQueue)
    (hauth : ∀ p, (s.sessions p).authorized = true → (t.sessions p).authorized = true)
    (hroom : ∀ p r, (t.sessions p).room = some r → (s.sessions p).room = some r ∧
      ∀ q, (s.sessions q).room = some r → (t.sessions q).room = some r)
    (hrooms : ∀ (r : RoomId) (room : GameRoom), s.rooms[r]? = some room →
      ∃ room', t.rooms[r]? = some room' ∧ room'.white = room.white ∧ room'.black = room.black) : Lobby t where
  nodup := hqueue ▸ h.nodup
  queued p := by rw [hqueue, hin, h.queued]
  apart p hp := by
    cases hr : (t.sessions p).room with
    | none => rfl
    | some r =>
      have hs := h.apart p (hin p ▸ hp)
      rw [(hroom p r hr).1] at hs
      cases hs
  authorized p hp := by
    apply hauth p (h.authorized p _)
    rw [hin] at hp
    apply hp.imp_right
    intro hne
    obtain ⟨r, hr⟩ := Option.ne_none_iff_exists'.1 hne
    rw [(hroom p r hr).1]
    exact Option.some_ne_none r
  seated p r hp := by
    obtain ⟨hps, hall⟩ := hroom p r hp
    obtain ⟨room, hs, hor⟩ := h.seated p r hps
    obtain ⟨room', hr', hw, hb⟩ := hrooms r room hs.here
    exact ⟨room', ⟨hr', by rw [hw, hb]; exact hs.ne, hw ▸ hall _ hs.white, hb ▸ hall _ hs.black⟩, by rwa [hw, hb]⟩
  waiting := hqueue ▸ h.waiting

theorem Lobby.same (h : Lobby s) (hsessions : t.sessions = s.sessions) (hqueue : t.queue = s.queue)
    (hrooms : t.rooms = s.rooms) : Lobby t := by
  refine h.congr hqueue (fun p => by rw [hsessions]) (fun p hp => by rwa [hsessions]) ?_ ?_
  · intro p r hp
    rw [hsessions] at hp ⊢
    exact ⟨hp, fun q hq => hq⟩
  · intro r room hr
    exact ⟨room, hrooms ▸ hr, rfl, rfl⟩

theorem Seats.setGame (h : Seats s r room) (hw : room'.white = room.white) (hb : room'.black = room.black) :
    Seats (s.setGame r room') r room' where
  here := by
    obtain ⟨hlt, -⟩ := List.getElem?_eq_some_iff.1 h.here
    exact List.getElem?_set_self hlt
  ne := by rw [hw, hb]; exact h.ne
  white := by rw [hw]; exact h.white
  black := by rw [hb]; exact h.black

theorem Lobby.setGame (h : Lobby s) (hs : Seats s r room) (hw : room'.white = room.white)
    (hb : room'.black = room.black) : Lobby (s.setGame r room') := by
  refine h.congr rfl (fun _ => rfl) (fun _ h => h) (fun _ _ h => ⟨h, fun _ h => h⟩) ?_
  intro r' room₁ hr'
  by_cases he : r = r'
  · subst he
    have := hs.here.symm.trans hr'
    cases this
    exact ⟨room', (hs.setGame hw hb).here, hw, hb⟩
  · exact ⟨room₁, (List.getElem?_set_ne he).trans hr', rfl, rfl⟩

theorem Lobby.finish (h : Lobby s) (hs : Seats s r room) (decided : Option (SessionId × SessionId))
    (write : Database → Database) (entries : List Entry) : Lobby (s.finish env r room decided write entries) := by
  refine h.congr (finish_queue ..) (finish_inQueue env r room decided write entries s) ?_ ?_ ?_
  · intro p hp
    rwa [finish_authorized]
  · intro p r' hp
    rw [finish_room] at hp
    split at hp
    · cases hp
    · rename_i hnot
      refine ⟨hp, fun q hq => ?_⟩
      -- the two cleared seats were both in `r`, and `p` is neither of the players there
      have hne : r ≠ r' := by
        rintro rfl
        exact hnot (h.seats hs hp)
      rw [finish_room, if_neg, hq]
      rintro (rfl | rfl)
      · exact hne (Option.some.inj (hs.white.symm.trans hq))
      · exact hne (Option.some.inj (hs.black.symm.trans hq))
  · intro r' room' hr'
    exact ⟨room', by rw [finish_rooms, hr'], rfl, rfl⟩

/-- A session enters or leaves the queue. -/
theorem Lobby.setInQueue (h : Lobby s) {x : Bool} {queue : List SessionId} (players : List SessionId)
    (hmem : ∀ q, q ∈ queue ↔ (if q = p then x else (s.sessions q).inQueue) = true) (hlen : queue.length ≤ 1)
    (hp : x = true → (s.sessions p).authorized = true ∧ (s.sessions p).room = none) :
    Lobby { s.setInQueue p x with queue, allPlayers := players } where
  nodup := by
    match queue, hlen with
    | [], _ => exact List.nodup_nil
    | [q], _ => exact List.nodup_singleton q
  queued q := by
    rw [hmem]
    exact (congrArg (· = true) (setInQueue_inQueue x)).to_iff.symm
  apart q hq := by
    have hq' : (if q = p then x else (s.sessions q).inQueue) = true := setInQueue_inQueue x ▸ hq
    refine (setInQueue_room x).trans ?_
    split at hq'
    · rename_i he
      rw [he, (hp hq').2]
    · exact h.apart q hq'
  authorized q hq := by
    have hq' : (if q = p then x else (s.sessions q).inQueue) = true ∨ (s.sessions q).room ≠ none :=
      setInQueue_inQueue x ▸ setInQueue_room (s := s) x ▸ hq
    refine (setInQueue_authorized x).trans ?_
    obtain hq' | hq' := hq'
    · split at hq'
      · rename_i he
        rw [he, (hp hq').1]
      · exact h.authorized q (.inl hq')
    · exact h.authorized q (.inr hq')
  seated q r hq := by
    obtain ⟨room, hs, hor⟩ := h.seated q r (setInQueue_room (s := s) x ▸ hq)
    exact ⟨room, ⟨hs.here, hs.ne, (setInQueue_room x).trans hs.white, (setInQueue_room x).trans hs.black⟩, hor⟩
  waiting := hlen

/-- Two sessions are matched: only they were queued, so nobody waits any more. -/
theorem Lobby.pair (h : Lobby s) {white black : SessionId} (hne : white ≠ black)
    (hw : (s.sessions white).authorized = true ∧ (s.sessions white).room = none)
    (hb : (s.sessions black).authorized = true ∧ (s.sessions black).room = none)
    (hall : ∀ q, (s.sessions q).inQueue = true → q = white ∨ q = black) : Lobby (s.pair white black) where
  nodup := List.nodup_nil
  queued q := by
    by_cases hq : q = white ∨ q = black
    · rw [pair_seat hq]
      simp [Server.pair]
    · rw [pair_other hq]
      simpa [Server.pair] using fun hin => hq (hall q hin)
  apart q hin := by
    by_cases hq : q = white ∨ q = black
    · rw [pair_seat hq] at hin
      cases hin
    · rw [pair_other hq] at hin
      exact absurd (hall q hin) hq
  authorized q hin := by
    by_cases hq : q = white ∨ q = black
    · rw [pair_seat hq]
      obtain rfl | rfl := hq
      · exact hw.1
      · exact hb.1
    · rw [pair_other hq] at hin ⊢
      exact h.authorized q hin
  seated q r hr := by
    by_cases hq : q = white ∨ q = black
    · rw [pair_seat hq] at hr
      cases hr
      refine ⟨_, ⟨pair_new, hne, ?_, ?_⟩, hq⟩
      · exact congrArg Session.room (pair_seat (.inl rfl))
      · exact congrArg Session.room (pair_seat (.inr rfl))
    · rw [pair_other hq] at hr
      obtain ⟨room, hs, hor⟩ := h.seated q r hr
      exact ⟨room, ⟨pair_old hs.here, hs.ne, pair_keeps hw.2 hb.2 hs.white, pair_keeps hw.2 hb.2 hs.black⟩, hor⟩
  waiting := Nat.zero_le 1

/-- What `end_game` runs on is one of the rooms, with the same players. -/
theorem Ends.seats (h : Lobby s) {e : Ending} (he : Ends s ev r room e) :
    ∃ room₀, Seats s r room₀ ∧ room.white = room₀.white ∧ room.black = room₀.black := by
  cases he with
  | move hr hm =>
    obtain ⟨m, hacc⟩ := onMove_ok hm
    exact ⟨_, (h.roomOf hr).1, by rw [hacc.room], by rw [hacc.room]⟩
  | accept hr _ => exact ⟨_, (h.roomOf hr).1, rfl, rfl⟩

theorem Quits.seats (h : Lobby s) (hq : Quits s ev r room p) : Seats s r room ∧ (p = room.white ∨ p = room.black) := by
  cases hq with
  | leave hr => exact h.roomOf hr
  | disconnect hr => exact h.roomOf hr

theorem Change.lobby (h : Lobby s) (hc : Change env s ev t) : Lobby t := by
  cases hc with
  | idle players => exact h.same rfl rfl rfl
  | refused _ => exact h.same rfl rfl rfl
  | @login p nick password info db _ _ =>
    refine h.congr rfl (fun q => setSession_field (·.inQueue) (fun _ => by rfl) { s with db } p q) ?_ ?_ ?_
    · intro q hq
      rw [sessions_setSession]
      split
      · rfl
      · exact hq
    · intro q r hq
      exact ⟨(login_seat info db).symm.trans hq, fun x hx => (login_seat info db).trans hx⟩
    · exact fun _ room h => ⟨room, h, rfl, rfl⟩
  | @queued p hauth hroom hqueue =>
    refine h.setInQueue s.allPlayers (fun q => ?_) (le_refl 1) fun _ => ⟨hauth, hroom⟩
    have hq := h.queued q
    rw [hqueue] at hq
    by_cases he : q = p
    · simp [he]
    · simpa [he] using hq
  | @paired p q white black hauth hroom hin hqueue hor =>
    have hq : (s.sessions q).inQueue = true := (h.queued q).1 (by rw [hqueue]; exact List.mem_singleton_self q)
    have hne : p ≠ q := by
      rintro rfl
      rw [hin] at hq
      cases hq
    have hall : ∀ x, (s.sessions x).inQueue = true → x = q := by
      intro x hx
      have hmem := (h.queued x).2 hx
      rwa [hqueue, List.mem_singleton] at hmem
    obtain ⟨rfl, rfl⟩ | ⟨rfl, rfl⟩ := hor
    · exact h.pair hne ⟨hauth, hroom⟩ ⟨h.authorized _ (.inl hq), h.apart _ hq⟩ fun x hx => .inr (hall x hx)
    · exact h.pair hne.symm ⟨h.authorized _ (.inl hq), h.apart _ hq⟩ ⟨hauth, hroom⟩ fun x hx => .inl (hall x hx)
  | @unqueued _ p players hp =>
    refine h.setInQueue players (fun q => ?_) (Nat.zero_le 1) nofun
    have hq := h.queued q
    rw [h.queue_eq hp] at hq
    by_cases he : q = p
    · simp [he]
    · simpa [he] using hq
  | changed hr hw hb _ => exact h.setGame (h.roomOf hr).1 hw hb
  | ended he =>
    obtain ⟨room₀, hs, hw, hb⟩ := he.seats h
    rw [endGame_eq]
    exact (h.setGame hs hw hb).finish (hs.setGame hw hb) ..
  | quit players hq =>
    rw [roomDisconnect_eq]
    exact Lobby.same (h.finish (hq.seats h).1 ..) rfl rfl rfl

theorem Handled.change (h : Lobby s) (hh : Handled env s ev t) : Change env s ev t := by
  rw [Handled] at hh
  rw [hh]
  exact handle_change env h ev

theorem Reached.lobby (h : Reached env s) : Lobby s :=
  h.inv Lobby init_lobby fun hl hh => (hh.change hl).lobby hl

/-! ## Runs -/

/-- The server after the events. -/
def after (env : Env) (events : List Event) : Server := events.foldl (fun s ev => (s.handle env ev).1) init

theorem after_snoc (env : Env) (events : List Event) (ev : Event) :
    after env (events ++ [ev]) = ((after env events).handle env ev).1 := List.foldl_concat ..

/-- The events with the states that they find. -/
def steps (env : Env) : Server → List Event → List (Server × Event)
  | _, [] => []
  | s, ev :: events => (s, ev) :: steps env (s.handle env ev).1 events

theorem steps_snoc (env : Env) (s : Server) (events : List Event) (ev : Event) : steps env s (events ++ [ev]) =
    steps env s events ++ [(events.foldl (fun s ev => (s.handle env ev).1) s, ev)] := by
  induction events generalizing s with
  | nil => rfl
  | cons ev' events ih => rw [List.cons_append, steps, ih]; rfl

theorem steps_events (env : Env) (s : Server) (events : List Event) : (steps env s events).map Prod.snd = events := by
  induction events generalizing s with
  | nil => rfl
  | cons ev events ih => rw [steps, List.map_cons, ih]

/-- The server's loop from any state. -/
theorem steps_run_from (env : Env) (s : Server) (events : List Event) :
    Run (Handled env) s (steps env s events) (events.foldl (fun s ev => (s.handle env ev).1) s) := by
  induction events using List.reverseRecOn with
  | nil => exact .nil
  | append_singleton events ev ih =>
    rw [steps_snoc, List.foldl_concat]
    exact ih.snoc rfl

theorem steps_run (env : Env) (events : List Event) :
    Run (Handled env) init (steps env init events) (after env events) := steps_run_from env init events

theorem after_reached (env : Env) (events : List Event) : Reached env (after env events) := ⟨_, steps_run env events⟩

/-- The lobby is in order after all events of any clients, in any order. -/
theorem lobby_after (env : Env) (events : List Event) : Lobby (after env events) := (after_reached env events).lobby

end Server

end ChessGame
