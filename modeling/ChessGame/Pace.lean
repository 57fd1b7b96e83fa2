import ChessGame.Material
import ChessGame.Turns
/-!
# Every game ends

A pawn move or a capture lowers the potential of the position, no other move raises it,
and after a hundred moves without either the game is over. The bound holds of a room
that is moved in until a move ends the game, and so of the rooms of the server, which
takes no moves for a room after the end.
-/

namespace ChessGame

open Runs MoveGen Position

variable {pos pos' : Position} {m : Move} {room room' : GameRoom} {call : MoveCall} {e : Option Ending}

/-! ## Positions -/

/-- Two hundred half-moves for each unit of the potential spent, and those since then. -/
def InPace (pos : Position) : Prop := pos.moveCtr + 200 * potential pos ≤ 200 * 132 + pos.fiftyMovesCtr

theorem init_inPace : InPace Position.init := by
  rw [InPace, init_potential]
  decide

/-- A move made before the hundred are over keeps the pace. -/
theorem InPace.next (h : InPace pos) (hs : Sound pos) (hp : Played pos m pos') (hfifty : pos.fiftyMovesCtr < 200) :
    InPace pos' ∧ pos'.fiftyMovesCtr ≤ 200 := by
  have he := hp.effect hs
  have hctr := he.moveCtr
  have hpotential := he.potential hs
  have hcount := (applyMove_counts hp.2).1
  unfold InPace at h ⊢
  cases hi : isIrreversible m with
  | true =>
    rw [if_pos hi] at hpotential hcount
    omega
  | false =>
    rw [hi] at hpotential hcount
    simp only [Bool.false_eq_true, if_false] at hpotential hcount
    omega

/-! ## Rooms -/

theorem fifty_of_no_verdict (h : room.verdict = none) : room.position.fiftyMovesCtr < 200 := by
  unfold GameRoom.verdict at h
  split at h
  · cases h
  split at h
  · cases h
  split at h
  · cases h
  split at h
  · cases h
  · rename_i hfifty
    simpa [isFiftyMoveRule] using hfifty

/-- `on_move` accepts the call and ends the game. -/
def EndsRoom (room : GameRoom) (call : MoveCall) : Prop := ∃ room' e, room.onMove call = .ok (room', some e)

theorem Accepts.played (h : Accepts room call room' e m) : Played room.position m room'.position := ⟨h.mem, h.applied⟩

theorem Accepts.moveCtr (h : Accepts room call room' e m) (hr : Reached room.position) :
    room'.position.moveCtr = room.position.moveCtr + 1 :=
  (hr.effect h.played).moveCtr

/-- A room in which no move has ended the game yet. -/
structure Ongoing (room : GameRoom) : Prop where
  reached : Reached room.position
  inPace : InPace room.position
  fifty : room.position.fiftyMovesCtr < 200

theorem new_ongoing (white black : SessionId) : Ongoing (GameRoom.new white black) :=
  ⟨Reachable.init, init_inPace, Nat.zero_lt_succ _⟩

theorem Ongoing.moves (h : Ongoing room) : room.position.moveCtr < 26600 := by
  have hpace := h.inPace
  have hfifty := h.fifty
  unfold InPace at hpace
  omega

theorem Ongoing.next (h : Ongoing room) (hm : room.onMove call = .ok (room', none)) : Ongoing room' := by
  obtain ⟨m, hacc⟩ := onMove_ok hm
  obtain ⟨hpace, -⟩ := h.inPace.next h.reached.sound hacc.played h.fifty
  exact ⟨h.reached.next hacc.played, hpace, fifty_of_no_verdict hacc.ending.symm⟩

theorem ongoing_run {white black : SessionId} {l : List (GameRoom × MoveCall)}
    (h : Run Accepted (GameRoom.new white black) l room) (hopen : ∀ x ∈ l, ¬ EndsRoom x.1 x.2) :
    Ongoing room ∧ l.length = room.position.moveCtr := by
  induction h with
  | nil => exact ⟨new_ongoing white black, rfl⟩
  | @snoc l room call room' hr hacc ih =>
    simp only [List.forall_mem_append, List.forall_mem_singleton] at hopen
    obtain ⟨hongoing, hlen⟩ := ih hopen.1
    obtain ⟨e, hm⟩ := hacc
    cases e with
    | some e => exact absurd ⟨room', e, hm⟩ hopen.2
    | none =>
      obtain ⟨m, hacc⟩ := onMove_ok hm
      refine ⟨hongoing.next hm, ?_⟩
      rw [List.length_append, hlen, hacc.moveCtr hongoing.reached]
      rfl

/-! ## The server -/

namespace Server

variable {env : Env} {s t : Server} {p : SessionId} {r : RoomId} {ev : Event}

/-- What an event may do to the list of the rooms. -/
inductive Rearranged (s : Server) : Event → List GameRoom → Prop
  | same {ev : Event} : Rearranged s ev s.rooms
  | opened {ev : Event} (white black : SessionId) : Rearranged s ev (s.rooms ++ [GameRoom.new white black])
  /-- A draw is offered or declined. -/
  | offered {ev : Event} {p : SessionId} {r : RoomId} {room room' : GameRoom} : s.roomOf p = some (r, room) →
      room'.position = room.position → Rearranged s ev (s.rooms.set r room')
  | moved {p : SessionId} {r : RoomId} {room room' : GameRoom} {src dst promotion : String} {e : Option Ending} :
      (s.sessions p).authorized = true → s.roomOf p = some (r, room) →
      room.onMove ⟨p, src, dst, promotion⟩ = .ok (room', e) →
      Rearranged s (.command p (.move src dst promotion)) (s.rooms.set r room')

theorem removeFromQueue_rooms (p : SessionId) (s : Server) : (s.removeFromQueue p).1.rooms = s.rooms := by
  unfold removeFromQueue
  split <;> rfl

theorem roomDisconnect_rooms (env : Env) (r : RoomId) (room : GameRoom) (p : SessionId) (s : Server) :
    (s.roomDisconnect env r room p).1.rooms = s.rooms := by
  rw [roomDisconnect_eq, finish_rooms]

theorem leaveRoom_rooms (env : Env) (p : SessionId) (s : Server) : (s.leaveRoom env p).1.rooms = s.rooms := by
  unfold leaveRoom
  split
  · rfl
  · exact roomDisconnect_rooms ..

theorem tryMatchmake_rooms (env : Env) (s : Server) : (s.tryMatchmake env).1.rooms = s.rooms ∨
    ∃ white black, (s.tryMatchmake env).1.rooms = s.rooms ++ [GameRoom.new white black] := by
  unfold tryMatchmake
  split
  · rename_i white second rest _
    refine .inr ⟨white, s.bestOpponent white second rest, ?_⟩
    show ((s.removeFromQueue white).1.removeFromQueue _).1.rooms ++ [_] = _
    rw [removeFromQueue_rooms, removeFromQueue_rooms]
  · exact .inl rfl

theorem handleAuth_rooms (env : Env) (p : SessionId) (nick password : String) (s : Server) :
    (s.handleAuth env p nick password).1.rooms = s.rooms := by
  unfold handleAuth
  split
  · rfl
  · split <;> rfl

theorem handleQueue_rearranged (env : Env) (p : SessionId) (s : Server) (ev : Event) :
    Rearranged s ev (s.handleQueue env p).1.rooms := by
  by_cases hok : (s.sessions p).authorized = true ∧ (s.sessions p).room = none ∧ (s.sessions p).inQueue = false
  · rw [handleQueue_eq env hok.1 hok.2.1 hok.2.2]
    obtain h | ⟨white, black, h⟩ := tryMatchmake_rooms env (s.enqueued p)
    · rw [h]
      exact .same
    · rw [h]
      exact .opened white black
  · rw [handleQueue_refused env hok]
    exact .same

theorem handleDraw_rearranged (env : Env) (p : SessionId) (action : String) (s : Server) (ev : Event) :
    Rearranged s ev (s.handleDraw env p action).1.rooms := by
  unfold handleDraw
  split
  · exact .same
  cases hr : s.roomOf p with
  | none => exact .same
  | some x =>
    obtain ⟨r, room⟩ := x
    dsimp only
    generalize (if action.isEmpty then "offer" else action) = action
    split
    · refine .offered hr ?_
      unfold GameRoom.onDrawRequest
      split_ifs <;> rfl
    split
    · cases room.onDrawAccept p with
      | none => exact .same
      | some e =>
        dsimp only
        rw [endGame_eq, finish_rooms]
        exact .same
    split
    · cases hd : room.onDrawDecline p with
      | none => exact .same
      | some x =>
        refine .offered hr ?_
        unfold GameRoom.onDrawDecline at hd
        split at hd
        · cases hd
          rfl
        split at hd
        · cases hd
          rfl
        · cases hd
    · exact .same

theorem handleMove_rearranged (env : Env) (p : SessionId) (src dst promotion : String) (s : Server) :
    Rearranged s (.command p (.move src dst promotion)) (s.handleMove env p src dst promotion).1.rooms := by
  obtain hsame | ⟨r, room, room', e, hauth, hr, hm⟩ := handleMove_cases env s p src dst promotion
  · rw [hsame]
    exact .same
  · rw [(handleMove_accepted env hauth hr hm).1]
    exact .moved hauth hr hm

theorem guarded_rearranged {refused : Bool} {texts : Outbox} {handled : Server × Outbox}
    (h : Rearranged s ev handled.1.rooms) : Rearranged s ev (if refused then (s, texts) else handled).1.rooms := by
  cases refused with
  | true => exact .same
  | false => exact h

theorem handleCommand_rearranged (env : Env) (p : SessionId) (cmd : Command) (s : Server) :
    Rearranged s (.command p cmd) (s.handleCommand env p cmd).1.rooms := by
  cases cmd with
  | invalid | ping => exact .same
  | auth nick password =>
    have hrooms := handleAuth_rooms env p nick password s
    unfold handleCommand
    dsimp only
    rw [hrooms]
    exact .same
  | leaderboard =>
    unfold handleCommand handleLeaderboard
    dsimp only
    split <;> exact .same
  | queue => exact guarded_rearranged (handleQueue_rearranged env p s _)
  | leave =>
    refine guarded_rearranged ?_
    have hrooms := (leaveRoom_rooms env p (s.removeFromQueue p).1).trans (removeFromQueue_rooms p s)
    show Rearranged s _ ((s.removeFromQueue p).1.leaveRoom env p).1.rooms
    rw [hrooms]
    exact .same
  | chat text =>
    refine guarded_rearranged ?_
    unfold handleChat
    split
    · exact .same
    · split <;> exact .same
  | move src dst promotion => exact guarded_rearranged (handleMove_rearranged env p src dst promotion s)
  | draw action => exact guarded_rearranged (handleDraw_rearranged env p action s _)
  | unknown => exact guarded_rearranged .same

theorem handle_rearranged (env : Env) (s : Server) (ev : Event) : Rearranged s ev (s.handle env ev).1.rooms := by
  cases ev with
  | connect p => exact .same
  | command p cmd => exact handleCommand_rearranged env p cmd s
  | disconnect p =>
    have hrooms := (leaveRoom_rooms env p (s.removeFromQueue p).1).trans (removeFromQueue_rooms p s)
    show Rearranged s _ ((s.removeFromQueue p).1.leaveRoom env p).1.rooms
    rw [hrooms]
    exact .same

/-! ### The pace of the rooms -/

/-- The rooms keep the pace, and those whose game is not over have moves to spare. -/
structure Unhurried (s : Server) : Prop where
  inPace : ∀ (r : RoomId) (room : GameRoom), s.rooms[r]? = some room →
    InPace room.position ∧ room.position.fiftyMovesCtr ≤ 200
  fifty : ∀ (r : RoomId) (room : GameRoom), s.rooms[r]? = some room → ¬ Over s r → room.position.fiftyMovesCtr < 200

theorem init_unhurried : Unhurried init := ⟨nofun, nofun⟩

theorem Unhurried.seated (h : Unhurried s) (hs : Settled s) (hr : s.roomOf p = some (r, room)) :
    InPace room.position ∧ room.position.fiftyMovesCtr < 200 := by
  obtain ⟨hseat, hroom⟩ := roomOf_eq_some.1 hr
  exact ⟨(h.inPace r room hroom).1, h.fifty r room hroom fun hover => hs.empty r hover p hseat⟩

/-- A game that is over stays over. -/
theorem View.over (hs : Settled s) (hv : View env s ev t) (hover : Over s r) : Over t r := by
  obtain ⟨e, he, hended⟩ := hover
  have hroom : e.room = r := Entry.room_of_isEnded hended
  have hmem : e ∈ s.journal.filter (·.room = r) := List.mem_filter.2 ⟨he, decide_eq_true hroom⟩
  rw [← (hv.spares hs ⟨e, he, hended⟩).entries] at hmem
  exact ⟨e, (List.mem_filter.1 hmem).1, hended⟩

/-- A move with a verdict ends the game. -/
theorem handleMove_over (env : Env) (hauth : (s.sessions p).authorized = true) (hr : s.roomOf p = some (r, room))
    {src dst promotion : String} {e : Ending} (hm : room.onMove ⟨p, src, dst, promotion⟩ = .ok (room', some e)) :
    Over (s.handleMove env p src dst promotion).1 r := by
  unfold handleMove
  rw [if_neg (by simp [hauth]), hr]
  simp only [roomMove, hm]
  rw [endGame_eq]
  unfold Over
  rw [finish_journal]
  exact ⟨_, List.mem_append_right _ (List.mem_cons_of_mem _ (List.mem_singleton_self _)), decide_eq_true rfl⟩

theorem handle_move (env : Env) (hauth : (s.sessions p).authorized = true) (src dst promotion : String) :
    s.handle env (.command p (.move src dst promotion)) = s.handleMove env p src dst promotion := by
  simp [handle, handleCommand, hauth]

/-- Where the room of the new list comes from. -/
theorem Rearranged.origin {rooms : List GameRoom} (h : Rearranged s ev rooms) (hr : rooms[r]? = some room') :
    (∃ room, s.rooms[r]? = some room ∧ room'.position = room.position) ∨
      (s.rooms[r]? = none ∧ room'.position = Position.init) ∨
      ∃ p src dst promotion room e, ev = .command p (.move src dst promotion) ∧ (s.sessions p).authorized = true ∧
        s.roomOf p = some (r, room) ∧ room.onMove ⟨p, src, dst, promotion⟩ = .ok (room', e) := by
  cases h with
  | same => exact .inl ⟨room', hr, rfl⟩
  | opened white black =>
    rw [List.getElem?_append] at hr
    split at hr
    · exact .inl ⟨room', hr, rfl⟩
    · rename_i hge
      rw [List.getElem?_singleton] at hr
      split at hr
      · cases hr
        exact .inr (.inl ⟨List.getElem?_eq_none (by omega), rfl⟩)
      · cases hr
  | @offered _ p r₁ room room₁ hp hpos =>
    by_cases he : r₁ = r
    · subst he
      have hroom := (roomOf_eq_some.1 hp).2
      rw [List.getElem?_set_self (List.getElem?_eq_some_iff.1 hroom).1, Option.some.injEq] at hr
      exact .inl ⟨room, hroom, hr ▸ hpos⟩
    · rw [List.getElem?_set_ne he] at hr
      exact .inl ⟨room', hr, rfl⟩
  | @moved p r₁ room room₁ src dst promotion e hauth hp hm =>
    by_cases he : r₁ = r
    · subst he
      have hroom := (roomOf_eq_some.1 hp).2
      rw [List.getElem?_set_self (List.getElem?_eq_some_iff.1 hroom).1, Option.some.injEq] at hr
      exact .inr (.inr ⟨p, src, dst, promotion, room, e, rfl, hauth, hp, hr ▸ hm⟩)
    · rw [List.getElem?_set_ne he] at hr
      exact .inl ⟨room', hr, rfl⟩

theorem Unhurried.handled (h : Unhurried s) (hs : Reached env s) (hh : Handled env s ev t) : Unhurried t := by
  have hsettled := hs.settled
  have hover : ∀ {r}, ¬ Over t r → ¬ Over s r := fun ht ho => ht ((hh.view hsettled.lobby).over hsettled ho)
  rw [Handled] at hh
  subst hh
  constructor
  · intro r room' hr
    obtain ⟨room, hroom, hpos⟩ | ⟨-, hpos⟩ | ⟨p, src, dst, promotion, room, e, rfl, hauth, hp, hm⟩ :=
      (handle_rearranged env s ev).origin hr
    · rw [hpos]
      exact h.inPace r room hroom
    · rw [hpos]
      exact ⟨init_inPace, Nat.zero_le _⟩
    · obtain ⟨m, hacc⟩ := onMove_ok hm
      obtain ⟨hpace, hfifty⟩ := h.seated hsettled hp
      exact hpace.next (hs.games.seated hp).sound hacc.played hfifty
  · intro r room' hr hopen
    obtain ⟨room, hroom, hpos⟩ | ⟨-, hpos⟩ | ⟨p, src, dst, promotion, room, e, rfl, hauth, hp, hm⟩ :=
      (handle_rearranged env s ev).origin hr
    · rw [hpos]
      exact h.fifty r room hroom (hover hopen)
    · rw [hpos]
      exact Nat.zero_lt_succ _
    · cases e with
      | some e =>
        rw [handle_move env hauth] at hopen
        exact absurd (handleMove_over env hauth hp hm) hopen
      | none =>
        obtain ⟨m, hacc⟩ := onMove_ok hm
        exact fifty_of_no_verdict hacc.ending.symm

theorem Reached.unhurried (h : Reached env s) : Unhurried s := by
  obtain ⟨l, hr⟩ := h
  induction hr with
  | nil => exact init_unhurried
  | snoc hr hh ih => exact ih.handled ⟨_, hr⟩ hh

/-! ### The moves of a room -/

/-- The event is a move that the room accepts. -/
def acceptsMove (r : RoomId) (s : Server) : Event → Bool
  | .command p (.move src dst promotion) => (s.sessions p).authorized && (s.roomOf p).any fun x =>
      x.1 = r && (x.2.onMove ⟨p, src, dst, promotion⟩).toOption.isSome
  | _ => false

theorem acceptsMove_iff : acceptsMove r s ev = true ↔ ∃ p src dst promotion room room' e,
    ev = .command p (.move src dst promotion) ∧ (s.sessions p).authorized = true ∧ s.roomOf p = some (r, room) ∧
      room.onMove ⟨p, src, dst, promotion⟩ = .ok (room', e) := by
  constructor
  · intro h
    unfold acceptsMove at h
    split at h
    · rename_i p src dst promotion
      obtain ⟨hauth, h⟩ := Bool.and_eq_true_iff.1 h
      obtain ⟨⟨r', room⟩, hp, h⟩ := (Option.any_eq_true _ _).1 h
      obtain ⟨hr, h⟩ := Bool.and_eq_true_iff.1 h
      obtain rfl := of_decide_eq_true hr
      cases hm : room.onMove ⟨p, src, dst, promotion⟩ with
      | error text => simp [hm, Except.toOption] at h
      | ok x => exact ⟨p, src, dst, promotion, room, x.1, x.2, rfl, hauth, hp, hm⟩
    · cases h
  · rintro ⟨p, src, dst, promotion, room, room', e, rfl, hauth, hp, hm⟩
    simp [acceptsMove, hauth, hp, hm, Except.toOption]

/-- The accepted moves of a room are counted by its position. -/
structure Counted (r : RoomId) (n : ℕ) (s : Server) : Prop where
  moves : ∀ room : GameRoom, s.rooms[r]? = some room → n ≤ room.position.moveCtr
  unopened : s.rooms[r]? = none → n = 0

theorem Counted.accepted {n : ℕ} (h : Counted r n s) (hs : Reached env s) (hh : Handled env s ev t)
    (ha : acceptsMove r s ev = true) : Counted r (n + 1) t := by
  obtain ⟨p, src, dst, promotion, room, room', e, rfl, hauth, hp, hm⟩ := acceptsMove_iff.1 ha
  obtain ⟨m, hacc⟩ := onMove_ok hm
  have hroom := (roomOf_eq_some.1 hp).2
  have hnew : t.rooms[r]? = some room' := by
    rw [hh, handle_move env hauth, (handleMove_accepted env hauth hp hm).1]
    exact List.getElem?_set_self (List.getElem?_eq_some_iff.1 hroom).1
  constructor
  · intro room₁ hr
    rw [hnew, Option.some.injEq] at hr
    subst hr
    rw [hacc.moveCtr (hs.games.seated hp)]
    exact Nat.succ_le_succ (h.moves room hroom)
  · intro hr
    rw [hnew] at hr
    cases hr

theorem Rearranged.length_le {rooms : List GameRoom} (h : Rearranged s ev rooms) : s.rooms.length ≤ rooms.length := by
  cases h with
  | same => exact le_refl _
  | opened white black => rw [List.length_append]; exact Nat.le_add_right ..
  | offered _ _ | moved _ _ _ => rw [List.length_set]

theorem Counted.other {n : ℕ} (h : Counted r n s) (hh : Handled env s ev t) (ha : acceptsMove r s ev = false) :
    Counted r n t := by
  have hmoved := handle_rearranged env s ev
  rw [Handled] at hh
  subst hh
  constructor
  · intro room' hr
    obtain ⟨room, hroom, hpos⟩ | ⟨hnone, -⟩ | hm := hmoved.origin hr
    · rw [hpos]
      exact h.moves room hroom
    · rw [h.unopened hnone]
      exact Nat.zero_le _
    · obtain ⟨p, src, dst, promotion, room, e, hev, hauth, hp, hm⟩ := hm
      rw [acceptsMove_iff.2 ⟨p, src, dst, promotion, room, room', e, hev, hauth, hp, hm⟩] at ha
      cases ha
  · intro hr
    exact h.unopened (List.getElem?_eq_none ((hmoved.length_le).trans (List.getElem?_eq_none_iff.1 hr)))

theorem counted_run {l : List (Server × Event)} (r : RoomId) (h : Run (Handled env) init l s) :
    Counted r (l.countP fun x => acceptsMove r x.1 x.2) s := by
  induction h with
  | nil => exact ⟨nofun, fun _ => rfl⟩
  | @snoc l s ev t hr hh ih =>
    rw [List.countP_append, List.countP_singleton]
    cases ha : acceptsMove r s ev with
    | true => exact ih.accepted ⟨l, hr⟩ hh ha
    | false => exact ih.other hh ha

theorem accepted_moves_le {l : List (Server × Event)} (r : RoomId) (h : Run (Handled env) init l s) :
    (l.countP fun x => acceptsMove r x.1 x.2) ≤ 26600 := by
  have hcounted := counted_run r h
  cases hr : s.rooms[r]? with
  | none =>
    rw [hcounted.unopened hr]
    exact Nat.zero_le _
  | some room =>
    have hle := hcounted.moves room hr
    obtain ⟨hpace, hfifty⟩ := (Reached.unhurried ⟨l, h⟩).inPace r room hr
    unfold InPace at hpace
    omega

end Server

/-! ## The bound -/

/-- A game in which no move has ended it is shorter than 27000 moves, and no room of the server accepts more. -/
theorem games_finite (env : Env) (events : List Event) (r : RoomId) {white black : SessionId}
    {l : List (GameRoom × MoveCall)} (h : Run Accepted (GameRoom.new white black) l room)
    (hopen : ∀ x ∈ l, ¬ EndsRoom x.1 x.2) :
    l.length < 27000 ∧ ((Server.steps env Server.init events).countP fun x =>
      Server.acceptsMove r x.1 x.2) ≤ 27000 := by
  obtain ⟨hongoing, hlen⟩ := ongoing_run h hopen
  have hmoves := hongoing.moves
  have hserver := Server.accepted_moves_le r (Server.steps_run env events)
  constructor <;> omega

/-- 1.e4 -/
theorem games_finite_pawn_move :
    (∃ l room, Run Accepted (GameRoom.new 0 1) l room ∧ l.map Prod.snd = [⟨0, "e2", "e4", ""⟩] ∧ l.length < 27000) ∧
      ((Server.steps .even Server.init (Server.opening ++ Server.plies true [("e2", "e4")])).countP fun x =>
        Server.acceptsMove 0 x.1 x.2) ≤ 27000 := by
  obtain ⟨room, e, hm, he⟩ := onMove_of_test (GameRoom.new 0 1) ⟨0, "e2", "e4", ""⟩ (fun _ e => e.isNone)
    (by decide +kernel)
  have hrun : Run Accepted (GameRoom.new 0 1) [(GameRoom.new 0 1, ⟨0, "e2", "e4", ""⟩)] room := Run.nil.snoc ⟨e, hm⟩
  have hopen : ∀ x ∈ [(GameRoom.new 0 1, (⟨0, "e2", "e4", ""⟩ : MoveCall))], ¬ EndsRoom x.1 x.2 := by
    intro x hx
    rw [List.mem_singleton.1 hx]
    rintro ⟨room', e', hm'⟩
    rw [hm] at hm'
    cases hm'
    cases he
  have hbound := games_finite .even (Server.opening ++ Server.plies true [("e2", "e4")]) 0 hrun hopen
  exact ⟨⟨_, room, hrun, rfl, hbound.1⟩, hbound.2⟩

end ChessGame
