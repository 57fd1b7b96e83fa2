import ChessGame.Pace
import ChessGame.Tables
/-!
# Draw offers

What the two players of a room do to it, one after the other. `on_draw_request` sets
a flag and `on_draw_decline` clears it, so the flag says that the latest offer has not
been declined. `on_move` leaves it alone. A room of the server has such a history too: what
its players' commands have asked of it.
-/
open Runs

namespace ChessGame

/-- What a player can ask of a room. -/
inductive RoomAct where
  | move (src dst promotion : String)
  | offer
  | accept
  | decline
  deriving DecidableEq, Repr

abbrev RoomCall := SessionId × RoomAct

namespace GameRoom

/-- The room afterwards, if the game goes on. A refused request leaves it as it was. -/
def act (room : GameRoom) (p : SessionId) : RoomAct → Option GameRoom
  | .move src dst promotion =>
    match room.onMove ⟨p, src, dst, promotion⟩ with
    | .error _ => some room
    | .ok (room, none) => some room
    | .ok (_, some _) => none
  | .offer => some (room.onDrawRequest p)
  | .accept =>
    match room.onDrawAccept p with
    | some _ => none
    | none => some room
  | .decline =>
    match room.onDrawDecline p with
    | some (room, _) => some room
    | none => some room

/-- The flag of the player's own offer. -/
def offered (room : GameRoom) (p : SessionId) : Bool :=
  if p = room.white then room.drawOfferWhite else room.drawOfferBlack

end GameRoom

/-- One of the players asks something of the room, and the game goes on. -/
def Acts (room : GameRoom) (call : RoomCall) (room' : GameRoom) : Prop :=
  room.has call.1 = true ∧ room.act call.1 call.2 = some room'

variable {room room' : GameRoom} {p q white black : SessionId} {l : List (GameRoom × RoomCall)}

/-! ## The history of a room -/

def Offers (p : SessionId) (x : GameRoom × RoomCall) : Prop := x.2 = (p, .offer)

def Declines (p : SessionId) (x : GameRoom × RoomCall) : Prop := x.2 = (p, .decline)

/-- The player asks for a move and `on_move` accepts it. -/
def Moves (p : SessionId) (x : GameRoom × RoomCall) : Prop :=
  match x.2 with
  | (p', .move src dst promotion) => p' = p ∧ (x.1.onMove ⟨p', src, dst, promotion⟩).isOk = true
  | _ => False

instance : DecidablePred (Offers p) := fun _ => by unfold Offers; infer_instance

instance : DecidablePred (Declines p) := fun _ => by unfold Declines; infer_instance

instance : DecidablePred (Moves p) := fun x => by unfold Moves; split <;> infer_instance

/-- The opponent has offered a draw, and since the latest offer the player has
neither declined nor made a move. -/
def Standing (p q : SessionId) (l : List (GameRoom × RoomCall)) : Prop :=
  Since (Offers q) (fun x => Declines p x ∨ Moves p x) l

/-- The player has not declined the opponent's latest offer, and has made a move since it. -/
def MovedOn (p q : SessionId) (l : List (GameRoom × RoomCall)) : Prop :=
  Since (Offers q) (Declines p) l ∧ ¬ Since (Offers q) (Moves p) l

instance : Decidable (Standing p q l) := by unfold Standing; infer_instance

instance : Decidable (MovedOn p q l) := by unfold MovedOn; infer_instance

/-! ## The flags -/

/-- The opponent of one player is the other. -/
theorem opponentOf_other (hne : room.white ≠ room.black) (h : room.opponentOf p = some q) :
    (p = room.white ∧ q = room.black) ∨ (p = room.black ∧ q = room.white) := by
  obtain h | h := Server.opponentOf_eq hne h
  · exact .inr ⟨congrArg Prod.snd h, congrArg Prod.fst h⟩
  · exact .inl ⟨congrArg Prod.snd h, congrArg Prod.fst h⟩

/-- A draw is agreed when the opponent's flag is set. -/
theorem onDrawAccept_isSome (hne : room.white ≠ room.black) (h : room.opponentOf p = some q) :
    (room.onDrawAccept p).isSome = room.offered q := by
  unfold GameRoom.onDrawAccept GameRoom.offered
  obtain ⟨rfl, rfl⟩ | ⟨rfl, rfl⟩ := opponentOf_other hne h
  · cases hb : room.drawOfferBlack <;> simp [hne, hne.symm]
  · cases hb : room.drawOfferWhite <;> simp [hne.symm]

/-- What a request does to a room that stays open: offers and declines go to the flags,
the others at most change the position. -/
theorem act_cases {a : RoomAct} (h : room.act p a = some room') :
    (a = .offer ∧ room' = room.onDrawRequest p) ∨
      (a = .decline ∧ room' = ((room.onDrawDecline p).map Prod.fst).getD room) ∨
      (a ≠ .offer ∧ a ≠ .decline ∧ ∃ position, room' = { room with position }) := by
  cases a with
  | move src dst promotion =>
    refine .inr (.inr ⟨nofun, nofun, ?_⟩)
    unfold GameRoom.act at h
    dsimp only at h
    split at h
    · cases h
      exact ⟨room.position, rfl⟩
    · rename_i hm
      cases h
      obtain ⟨m, hacc⟩ := onMove_ok hm
      exact ⟨room'.position, hacc.room⟩
    · cases h
  | offer => exact .inl ⟨rfl, (Option.some.inj h).symm⟩
  | accept =>
    refine .inr (.inr ⟨nofun, nofun, ?_⟩)
    unfold GameRoom.act at h
    dsimp only at h
    split at h
    · cases h
    · cases h
      exact ⟨room.position, rfl⟩
  | decline =>
    refine .inr (.inl ⟨rfl, ?_⟩)
    unfold GameRoom.act at h
    dsimp only at h
    split at h <;> rename_i hd <;> cases h <;> rw [hd] <;> rfl

theorem Acts.players {call : RoomCall} (h : Acts room call room') :
    room'.white = room.white ∧ room'.black = room.black := by
  obtain ⟨-, rfl⟩ | ⟨-, rfl⟩ | ⟨-, -, position, rfl⟩ := act_cases h.2
  · unfold GameRoom.onDrawRequest
    split_ifs <;> exact ⟨rfl, rfl⟩
  · unfold GameRoom.onDrawDecline
    split_ifs <;> exact ⟨rfl, rfl⟩
  · exact ⟨rfl, rfl⟩

theorem Acts.run_players (h : Run Acts (.new white black) l room) : room.white = white ∧ room.black = black := by
  induction h with
  | nil => exact ⟨rfl, rfl⟩
  | snoc _ ha ih =>
    rw [ha.players.1, ha.players.2]
    exact ih

/-- What a request does to a player's flag. -/
theorem Acts.offered {call : RoomCall} (hne : room.white ≠ room.black) (hq : room.opponentOf p = some q)
    (h : Acts room call room') :
    room'.offered q = true ↔ call = (q, .offer) ∨ (room.offered q = true ∧ call ≠ (p, .decline)) := by
  obtain ⟨p', a⟩ := call
  obtain ⟨hhas, h⟩ := h
  have hpq := opponentOf_other hne hq
  have hor : p' = room.white ∨ p' = room.black := by simpa [GameRoom.has] using hhas
  obtain ⟨rfl, rfl⟩ | ⟨rfl, rfl⟩ | ⟨hoffer, hdecline, position, rfl⟩ := act_cases h
  · unfold GameRoom.onDrawRequest GameRoom.offered
    obtain ⟨rfl, rfl⟩ | ⟨rfl, rfl⟩ := hpq <;> obtain rfl | rfl := hor <;> simp [hne, hne.symm]
  · unfold GameRoom.onDrawDecline GameRoom.offered
    obtain ⟨rfl, rfl⟩ | ⟨rfl, rfl⟩ := hpq <;> obtain rfl | rfl := hor <;>
      cases hw : room.drawOfferWhite <;> cases hb : room.drawOfferBlack <;> simp [hne, hne.symm, hw, hb]
  · have hsame : ({ room with position } : GameRoom).offered q = room.offered q := rfl
    simp [hsame, hoffer, hdecline]

theorem opponentOf_congr (hw : room'.white = room.white) (hb : room'.black = room.black) :
    room'.opponentOf p = room.opponentOf p := by
  unfold GameRoom.opponentOf GameRoom.has
  rw [hw, hb]

/-- The flag says whether the latest offer has been declined, whatever was played since. -/
theorem offered_iff (hne : white ≠ black) (h : Run Acts (.new white black) l room) (hq : room.opponentOf p = some q) :
    room.offered q = true ↔ Since (Offers q) (Declines p) l := by
  induction h with
  | nil =>
    have hunset : (GameRoom.new white black).offered q = false := ite_self _
    simp [hunset]
  | @snoc l room call room' hr ha ih =>
    obtain ⟨hw, hb⟩ := Acts.run_players hr
    have hne' : room.white ≠ room.black := by rwa [hw, hb]
    rw [opponentOf_congr ha.players.1 ha.players.2] at hq
    rw [ha.offered hne' hq, since_concat, ih hq]
    rfl

/-- An offer that has not been declined stands, unless the player has made a move since. -/
theorem standing_iff : (Since (Offers q) (Declines p) l ↔ Standing p q l) ↔ ¬ MovedOn p q l := by
  rw [Standing, since_or, MovedOn]
  tauto

/-- A draw can be accepted just when an offer stands, unless the player has passed an
undeclined offer over by making a move. -/
theorem onDrawAccept_iff (hne : white ≠ black) (h : Run Acts (.new white black) l room)
    (hq : room.opponentOf p = some q) :
    ((room.onDrawAccept p).isSome = true ↔ Standing p q l) ↔ ¬ MovedOn p q l := by
  obtain ⟨hw, hb⟩ := Acts.run_players h
  have hne' : room.white ≠ room.black := by rwa [hw, hb]
  rw [onDrawAccept_isSome hne' hq, offered_iff hne h hq]
  exact standing_iff

/-- White offers a draw and Black accepts it. -/
theorem onDrawAccept_offered : (((GameRoom.new 0 1).onDrawRequest 0).onDrawAccept 1).isSome = true ↔
    Standing 1 0 [(GameRoom.new 0 1, (0, .offer))] :=
  (onDrawAccept_iff (by decide) (.snoc .nil ⟨rfl, rfl⟩) rfl).2 fun h => h.2 (by decide)

/-! ## An offer passed over -/

/-- The request with the room after it. -/
def GameRoom.serve (room : GameRoom) (call : RoomCall) : Option (RoomCall × GameRoom) :=
  if room.has call.1 then (room.act call.1 call.2).map fun room => (call, room) else none

theorem GameRoom.serve_acts {call call' : RoomCall} (h : room.serve call = some (call', room')) :
    Acts room call' room' ∧ id call' = call := by
  unfold GameRoom.serve at h
  split at h
  · rename_i hhas
    obtain ⟨room', ha, h⟩ := Option.map_eq_some_iff.1 h
    cases h
    exact ⟨⟨hhas, ha⟩, rfl⟩
  · cases h

/-- White plays 1.e4 and offers a draw, Black plays 1...e5. -/
def passedGame : List RoomCall := [(0, .move "e2" "e4" ""), (0, .offer), (1, .move "e7" "e5" "")]

/-- Black can still accept. -/
theorem onDrawAccept_passed : ∃ l room, Run Acts (.new 0 1) l room ∧ l.map Prod.snd = passedGame ∧
    room.opponentOf 1 = some 0 ∧ (room.onDrawAccept 1).isSome = true ∧ ¬ Standing 1 0 l := by
  have hend : (traced GameRoom.serve (.new 0 1) passedGame).any (fun x => x.2.opponentOf 1 = some 0 ∧
      (x.2.onDrawAccept 1).isSome ∧ ¬ Standing 1 0 x.1) = true := by decide +kernel
  obtain ⟨⟨l, room⟩, hl, htest⟩ := (Option.any_eq_true _ _).1 hend
  rw [decide_eq_true_eq] at htest
  obtain ⟨hr, hcalls⟩ := traced_run Acts id GameRoom.serve_acts .nil hl
  exact ⟨l, room, hr, hcalls, htest⟩

/-! ## The rooms of the server -/

namespace Server

variable {env : Env} {s t : Server} {r : RoomId} {ev : Event} {call : RoomCall}

/-- What a command asks of the player's room. -/
def request : Command → Option RoomAct
  | .move src dst promotion => some (.move src dst promotion)
  | .draw action =>
    let action := if action.isEmpty then "offer" else action
    if action = "offer" then some .offer
    else if action = "accept" then some .accept
    else if action = "decline" then some .decline
    else none
  | _ => none

/-- What an event asks of a room. -/
def asked (r : RoomId) (x : Server × Event) : Option RoomCall :=
  match x.2 with
  | .command p cmd => if (x.1.sessions p).room = some r then (request cmd).map fun a => (p, a) else none
  | _ => none

theorem asked_eq_some : asked r (s, ev) = some call ↔ ∃ p cmd a, ev = .command p cmd ∧
    (s.sessions p).room = some r ∧ request cmd = some a ∧ call = (p, a) := by
  unfold asked
  cases ev with
  | command p cmd => simp only [Option.ite_none_right_eq_some, Option.map_eq_some_iff, Event.command.injEq]; grind
  | _ => simp

theorem request_draw {action : String} {a : RoomAct} (h : request (.draw action) = some a) :
    ((action = "" ∨ action = "offer") ∧ a = .offer) ∨ (action = "accept" ∧ a = .accept) ∨
      (action = "decline" ∧ a = .decline) := by
  unfold request at h
  dsimp only at h
  by_cases hempty : action.isEmpty = true
  · rw [if_pos hempty] at h
    cases h
    exact .inl ⟨.inl (String.isEmpty_iff.1 hempty), rfl⟩
  · rw [if_neg hempty] at h
    split_ifs at h with hoffer haccept hdecline <;> cases h
    · exact .inl ⟨.inr hoffer, rfl⟩
    · exact .inr (.inl ⟨haccept, rfl⟩)
    · exact .inr (.inr ⟨hdecline, rfl⟩)

/-- The accepted ending of a game empties its room. -/
theorem Ends.emptied (env : Env) (h : Lobby s) {e : Ending} (he : Ends s ev r room e) :
    (s.handle env ev).1.rooms = s.rooms.set r room ∧ ¬ InUse (s.handle env ev).1 r := by
  obtain ⟨room₀, hs, hw, hb⟩ := he.seats h
  rw [he.handled h, endGame_eq]
  refine ⟨finish_rooms .., ?_⟩
  rintro ⟨q, hq⟩
  rw [finish_room] at hq
  split at hq
  · cases hq
  · rename_i hno
    apply hno
    rw [hw, hb]
    exact h.seats hs hq

/-- A seated player's request does to the room what `GameRoom.act` says. -/
theorem asked_next (env : Env) (h : Lobby s) (ha : asked r (s, ev) = some call) :
    ∃ room room', s.rooms[r]? = some room ∧ room.has call.1 = true ∧ (s.handle env ev).1.rooms = s.rooms.set r room' ∧
      (room.act call.1 call.2 = some room' ∨ ¬ InUse (s.handle env ev).1 r) := by
  obtain ⟨p, cmd, a, rfl, hp, hreq, rfl⟩ := asked_eq_some.1 ha
  obtain ⟨room, hs, hor⟩ := h.seated p r hp
  have hr : s.roomOf p = some (r, room) := roomOf_eq_some.2 ⟨hp, hs.here⟩
  have hauth := h.signedIn hr
  have hhas : room.has p = true := by simpa [GameRoom.has] using hor
  have hsame : s.rooms = s.rooms.set r room := congrArg Server.rooms (setGame_self hs.here).symm
  cases cmd with
  | move src dst promotion =>
    cases hreq
    cases hm : room.onMove ⟨p, src, dst, promotion⟩ with
    | error text =>
      refine ⟨room, room, hs.here, hhas, ?_, .inl (by simp [GameRoom.act, hm])⟩
      simpa [handle, handleCommand, handleMove, roomMove, hauth, hr, hm] using hsame
    | ok x =>
      obtain ⟨room', e⟩ := x
      cases e with
      | none =>
        refine ⟨room, room', hs.here, hhas, ?_, .inl (by simp [GameRoom.act, hm])⟩
        have hset := (handleMove_accepted env hauth hr hm).1
        simpa [handle, handleCommand, hauth] using hset
      | some e =>
        obtain ⟨hset, hempty⟩ := Ends.emptied env h (.move hr hm)
        exact ⟨room, room', hs.here, hhas, hset, .inr hempty⟩
  | draw action =>
    obtain ⟨rfl | rfl, rfl⟩ | ⟨rfl, rfl⟩ | ⟨rfl, rfl⟩ := request_draw hreq
    · refine ⟨room, room.onDrawRequest p, hs.here, hhas, ?_, .inl rfl⟩
      simp [handle, handleCommand, handleDraw, hauth, hr, setGame]
    · refine ⟨room, room.onDrawRequest p, hs.here, hhas, ?_, .inl rfl⟩
      simp [handle, handleCommand, handleDraw, hauth, hr, setGame]
    · cases he : room.onDrawAccept p with
      | none =>
        refine ⟨room, room, hs.here, hhas, ?_, .inl (by simp [GameRoom.act, he])⟩
        simpa [handle, handleCommand, handleDraw, hauth, hr, he] using hsame
      | some e =>
        obtain ⟨hset, hempty⟩ := Ends.emptied env h (.accept hr he)
        exact ⟨room, room, hs.here, hhas, hset, .inr hempty⟩
    · cases hd : room.onDrawDecline p with
      | none =>
        refine ⟨room, room, hs.here, hhas, ?_, .inl (by simp [GameRoom.act, hd])⟩
        simpa [handle, handleCommand, handleDraw, hauth, hr, hd] using hsame
      | some x =>
        obtain ⟨room', told⟩ := x
        refine ⟨room, room', hs.here, hhas, ?_, .inl (by simp [GameRoom.act, hd])⟩
        simp [handle, handleCommand, handleDraw, hauth, hr, hd, setGame]
  | _ => cases hreq

/-- The rooms are as they were, but for a new one at the end. -/
def Extended (s : Server) (rooms : List GameRoom) : Prop :=
  rooms = s.rooms ∨ ∃ white black, rooms = s.rooms ++ [GameRoom.new white black]

/-- The test for authorization that `handle_command` makes. -/
theorem guarded_extended {refused : Bool} {texts : Outbox} {handled : Server × Outbox}
    (h : Extended s handled.1.rooms) : Extended s (if refused then (s, texts) else handled).1.rooms := by
  cases refused with
  | true => exact .inl rfl
  | false => exact h

theorem handleQueue_extended (env : Env) (s : Server) (p : SessionId) : Extended s (s.handleQueue env p).1.rooms := by
  unfold handleQueue
  split_ifs
  · exact .inl rfl
  · exact .inl rfl
  · exact .inl rfl
  · exact tryMatchmake_rooms env _

theorem handleChat_rooms (s : Server) (p : SessionId) (text : String) : (s.handleChat p text).1.rooms = s.rooms := by
  unfold handleChat
  split
  · rfl
  · split <;> rfl

/-- Without a room nothing is done, nor with an action that is not known. -/
theorem handleDraw_unasked (env : Env) {action : String}
    (h : ∀ a, request (.draw action) = some a → s.roomOf p = none) : (s.handleDraw env p action).1 = s := by
  unfold handleDraw
  split
  · rfl
  cases hr : s.roomOf p with
  | none => rfl
  | some x =>
    have hno : ∀ a, request (.draw action) ≠ some a := by
      intro a hreq
      rw [h a hreq] at hr
      cases hr
    have hempty : action ≠ "" := by
      rintro rfl
      exact hno .offer rfl
    have hoffer : action ≠ "offer" := by
      rintro rfl
      exact hno .offer rfl
    have haccept : action ≠ "accept" := by
      rintro rfl
      exact hno .accept rfl
    have hdecline : action ≠ "decline" := by
      rintro rfl
      exact hno .decline rfl
    simp [hempty, hoffer, haccept, hdecline]

/-- Events that ask nothing of a room. -/
theorem unasked_next (env : Env) (ha : ∀ r, asked r (s, ev) = none) : Extended s (s.handle env ev).1.rooms := by
  cases ev with
  | connect p => exact .inl rfl
  | disconnect p => exact .inl ((leaveRoom_rooms ..).trans (removeFromQueue_rooms ..))
  | command p cmd =>
    have hidle : ∀ a, request cmd = some a → s.roomOf p = none := by
      intro a hreq
      cases hr : s.roomOf p with
      | none => rfl
      | some x =>
        have hnone := ha x.1
        rw [asked_eq_some.2 ⟨p, cmd, a, rfl, (roomOf_eq_some.1 hr).1, hreq, rfl⟩] at hnone
        cases hnone
    cases cmd with
    | invalid | ping => exact .inl rfl
    | auth nick password => exact .inl (handleAuth_rooms env p nick password s)
    | leaderboard => exact guarded_extended (.inl rfl)
    | queue => exact guarded_extended (handleQueue_extended env s p)
    | leave => exact guarded_extended (.inl ((leaveRoom_rooms ..).trans (removeFromQueue_rooms ..)))
    | chat text => exact guarded_extended (.inl (handleChat_rooms s p text))
    | move src dst promotion =>
      have hroom := hidle _ rfl
      have hsame : (s.handleMove env p src dst promotion).1 = s := by
        unfold handleMove
        rw [hroom]
        split <;> rfl
      exact guarded_extended (.inl (congrArg Server.rooms hsame))
    | draw action => exact guarded_extended (.inl (congrArg Server.rooms (handleDraw_unasked env hidle)))
    | unknown => exact guarded_extended (.inl rfl)

/-- Nobody takes a seat in a room that was there before. -/
theorem View.inUse (hv : View env s ev t) (hr : r < s.rooms.length) (h : InUse t r) : InUse s r := by
  obtain ⟨p, hp⟩ := h
  refine ⟨p, ?_⟩
  cases hv with
  | quiet hq => rwa [hq.seat] at hp
  | refused _ => exact hp
  | login _ _ => rwa [login_seat] at hp
  | paired _ _ => exact pair_old_seat hr hp
  | ended _ hc | quit _ hc =>
    rw [hc.seat] at hp
    split at hp
    · cases hp
    · exact hp

/-- The history of a room that the server's events make. -/
structure Ran (r : RoomId) (room : GameRoom) (l : List (Server × Event)) (l' : List (GameRoom × RoomCall)) : Prop where
  run : Run Acts (.new room.white room.black) l' room
  calls : l'.map Prod.snd = l.filterMap (asked r)

/-- What an event does to the list of rooms. -/
theorem handle_rooms (env : Env) (h : Lobby s) (ev : Event) :
    (∃ r call room', asked r (s, ev) = some call ∧ (s.handle env ev).1.rooms = s.rooms.set r room') ∨
      Extended s (s.handle env ev).1.rooms := by
  by_cases hany : ∃ r call, asked r (s, ev) = some call
  · obtain ⟨r, call, hask⟩ := hany
    obtain ⟨_, room', -, -, hset, -⟩ := asked_next env h hask
    exact .inl ⟨r, call, room', hask, hset⟩
  · right
    apply unasked_next
    intro r
    rw [Option.eq_none_iff_forall_ne_some]
    exact fun call hc => hany ⟨r, call, hc⟩

/-- A room that is asked nothing stays as it is. -/
theorem room_kept (env : Env) (h : Lobby s) (hlt : r < s.rooms.length) (hask : asked r (s, ev) = none) :
    (s.handle env ev).1.rooms[r]? = s.rooms[r]? := by
  obtain ⟨r', call, room', hask', hset⟩ | hsame | ⟨white, black, hadd⟩ := handle_rooms env h ev
  · have hne : r' ≠ r := by
      rintro rfl
      rw [hask] at hask'
      cases hask'
    rw [hset, List.getElem?_set_ne hne]
  · rw [hsame]
  · rw [hadd, List.getElem?_append_left hlt]

theorem rooms_grow (env : Env) (h : Lobby s) (ev : Event) : s.rooms.length ≤ (s.handle env ev).1.rooms.length := by
  obtain ⟨_, _, _, -, hset⟩ | hsame | ⟨_, _, hadd⟩ := handle_rooms env h ev
  · rw [hset, List.length_set]
  · rw [hsame]
  · rw [hadd, List.length_append]
    exact Nat.le_add_right ..

/-- A room that was not there has just been made. -/
theorem room_made (env : Env) (h : Lobby s) (hge : s.rooms.length ≤ r)
    (hroom : (s.handle env ev).1.rooms[r]? = some room) : ∃ white black, room = GameRoom.new white black := by
  obtain ⟨r', call, room', -, hset⟩ | hsame | ⟨white, black, hadd⟩ := handle_rooms env h ev
  · rw [hset, List.getElem?_eq_none (by rwa [List.length_set])] at hroom
    cases hroom
  · rw [hsame, List.getElem?_eq_none hge] at hroom
    cases hroom
  · rw [hadd, List.getElem?_append_right hge, List.getElem?_singleton] at hroom
    split at hroom
    · exact ⟨white, black, (Option.some.inj hroom).symm⟩
    · cases hroom

theorem asked_known (h : Lobby s) (hge : s.rooms.length ≤ r) : asked r (s, ev) = none := by
  rw [Option.eq_none_iff_forall_ne_some]
  intro call hask
  obtain ⟨p, _, _, -, hp, -, -⟩ := asked_eq_some.1 hask
  obtain ⟨room, hs, -⟩ := h.seated p r hp
  exact absurd (List.getElem?_eq_some_iff.1 hs.here).1 (not_lt_of_ge hge)

/-- Every room in use stands as its players' requests, one after the other, have left
it; a room that is not there has not been asked anything. -/
theorem room_ran {l : List (Server × Event)} (h : Run (Handled env) init l s) :
    (s.rooms.length ≤ r → l.filterMap (asked r) = []) ∧
      (InUse s r → ∃ room l', s.rooms[r]? = some room ∧ Ran r room l l') := by
  induction h with
  | nil => exact ⟨fun _ => rfl, fun ⟨p, hp⟩ => by cases hp⟩
  | @snoc l s ev t hr hh ih =>
    obtain ⟨hnew, hold⟩ := ih
    have hl : Lobby s := Reached.lobby ⟨l, hr⟩
    have hv := hh.view hl
    have hl' : Lobby t := (hh.change hl).lobby hl
    cases hh
    have hconcat : (l ++ [(s, ev)]).filterMap (asked r) = l.filterMap (asked r) ++ (asked r (s, ev)).toList := by
      rw [List.filterMap_append]
      cases hask : asked r (s, ev) <;> simp [hask]
    rw [hconcat]
    constructor
    · intro hge
      have hge' := (rooms_grow env hl ev).trans hge
      rw [hnew hge', asked_known hl hge']
      rfl
    intro hin
    by_cases hlt : r < s.rooms.length
    · obtain ⟨room, l', hroom, hran⟩ := hold (hv.inUse hlt hin)
      cases hask : asked r (s, ev) with
      | none =>
        refine ⟨room, l', (room_kept env hl hlt hask).trans hroom, hran.run, ?_⟩
        rw [hran.calls, hconcat, hask, Option.toList_none, List.append_nil]
      | some call =>
        obtain ⟨room₀, room', hroom₀, hhas, hset, hact⟩ := asked_next env hl hask
        cases hroom.symm.trans hroom₀
        have hacts : Acts room call room' := ⟨hhas, hact.resolve_right (not_not_intro hin)⟩
        refine ⟨room', l' ++ [(room, call)], ?_, ?_, ?_⟩
        · rw [hset]
          exact List.getElem?_set_self hlt
        · rw [hacts.players.1, hacts.players.2]
          exact hran.run.snoc hacts
        · rw [List.map_append, hran.calls, hconcat, hask]
          rfl
    · obtain ⟨p, hp⟩ := hin
      obtain ⟨room, hs, -⟩ := hl'.seated p r hp
      obtain ⟨white, black, rfl⟩ := room_made env hl (not_lt.1 hlt) hs.here
      refine ⟨_, [], hs.here, .nil, ?_⟩
      rw [hconcat, hnew (not_lt.1 hlt), asked_known hl (not_lt.1 hlt)]
      rfl

/-- The command ends the game when the room agrees to a draw. -/
theorem accept_over (env : Env) (h : Settled s) (hr : s.roomOf p = some (r, room)) :
    Over (s.handle env (.command p (.draw "accept"))).1 r ↔ (room.onDrawAccept p).isSome = true := by
  cases he : room.onDrawAccept p with
  | none =>
    have hauth := h.lobby.signedIn hr
    have hsame : (s.handle env (.command p (.draw "accept"))).1 = s := by
      simp [handle, handleCommand, handleDraw, hauth, hr, he]
    rw [hsame]
    exact iff_of_false (fun hover => h.empty r hover p (roomOf_eq_some.1 hr).1) (by simp)
  | some e =>
    have hends : Ends s (.command p (.draw "accept")) r room e := .accept hr he
    rw [hends.handled h.lobby, endGame_eq]
    refine iff_of_true ?_ rfl
    rw [Over, finish_journal]
    exact ⟨_, List.mem_append_right _ (List.mem_cons_of_mem _ (List.mem_singleton_self _)), decide_eq_true rfl⟩

/-- In a run of the server, a player's `draw accept` ends the game exactly when an offer of the opponent stands by what
the two have asked of their room so far, unless the player has passed an undeclined offer over by making a move. -/
theorem accept_ends_iff {l : List (Server × Event)} (h : Run (Handled env) init l s) (hr : s.roomOf p = some (r, room))
    (hq : room.opponentOf p = some q) : ∃ l', Ran r room l l' ∧
      ((Over (s.handle env (.command p (.draw "accept"))).1 r ↔ Standing p q l') ↔ ¬ MovedOn p q l') := by
  have hs : Settled s := Reached.settled ⟨l, h⟩
  obtain ⟨hseat, hroom⟩ := roomOf_eq_some.1 hr
  obtain ⟨room', l', hroom', hran⟩ := (room_ran h).2 ⟨p, hseat⟩
  obtain rfl := Option.some.inj (hroom.symm.trans hroom')
  have hne : room.white ≠ room.black := (hs.lobby.roomOf hr).1.ne
  refine ⟨l', hran, ?_⟩
  rw [accept_over env hs hr, onDrawAccept_isSome hne hq, offered_iff hne hran.run hq]
  exact standing_iff

/-- Alice offers a draw, and Bob may accept it. -/
theorem accept_ends_offered : ∃ room l',
    (after .even (opening ++ [.command 0 (.draw "offer")])).roomOf 1 = some (0, room) ∧
    Ran 0 room (steps .even init (opening ++ [.command 0 (.draw "offer")])) l' ∧ l'.map Prod.snd = [(0, .offer)] ∧
    ((Over ((after .even (opening ++ [.command 0 (.draw "offer")])).handle .even (.command 1 (.draw "accept"))).1 0 ↔
      Standing 1 0 l') ↔ ¬ MovedOn 1 0 l') := by
  have hroom : ((after .even (opening ++ [.command 0 (.draw "offer")])).roomOf 1).any (fun x =>
      x.1 = 0 ∧ x.2.opponentOf 1 = some 0) = true := by decide +kernel
  have hasked : (steps .even init (opening ++ [.command 0 (.draw "offer")])).filterMap (asked 0) = [(0, .offer)] := by
    decide +kernel
  obtain ⟨⟨r, room⟩, hr, htest⟩ := (Option.any_eq_true _ _).1 hroom
  obtain ⟨rfl, hq⟩ := of_decide_eq_true htest
  obtain ⟨l', hran, hiff⟩ := accept_ends_iff (steps_run ..) hr hq
  exact ⟨room, l', hr, hran, hran.calls.trans hasked, hiff⟩

end Server

end ChessGame
