import ChessGame.Told
/-!
# The score of a game

The moves that a player is told since the game was found can be played from the initial
position: `generate_moves` offers them and `apply_move` accepts them. They lead to the
room's board, and both players are told the same ones.
-/
open Runs

namespace ChessGame

open Rules MoveGen Position

/-- A move as the players are told of it. -/
structure MoveNews where
  «from» : String
  «to» : String
  «by» : String
  fen : String
  deriving DecidableEq, Repr

def Message.isNote : Message → Bool
  | .matchFound .. | .move .. => true
  | _ => false

/-- A `match_found` begins a new game. -/
def note (notes : List MoveNews) : Message → List MoveNews
  | .matchFound .. => []
  | .move src dst nick fen => notes ++ [⟨src, dst, nick, fen⟩]
  | _ => notes

/-- The notes are the score of a game of generated and applied moves that leads to the position. -/
inductive Score : List MoveNews → Position → Prop
  | start : Score [] Position.init
  | move {notes : List MoveNews} {x : MoveNews} {pos next : Position} {m : Move} : Score notes pos → Played pos m next →
      algebraicToIndex x.from = some m.from → algebraicToIndex x.to = some m.to → x.fen = next.getFen →
      Score (notes ++ [x]) next

namespace Server

variable {env : Env} {s t u : Server} {p q : SessionId} {r : RoomId} {room room' : GameRoom} {ev : Event}
  {out out' : Outbox}

/-! ## What an event is to the games -/

/-- Nothing that is noted. -/
def Silent (out : Outbox) : Prop := ∀ x ∈ out, x.2.isNote = false

theorem Silent.append (h : Silent out) (h' : Silent out') : Silent (out ++ out') := List.forall_mem_append.2 ⟨h, h'⟩

theorem silent_one {msg : Message} (h : msg.isNote = false) (p : SessionId) : Silent [(p, msg)] :=
  List.forall_mem_singleton.2 h

theorem silent_broadcast {msg : Message} (h : msg.isNote = false) (room : GameRoom) :
    Silent (broadcast room msg) := (silent_one h room.white).append (silent_one h room.black)

theorem Silent.told (h : Silent out) (q : SessionId) (notes : List MoveNews) :
    (told q out).foldl note notes = notes := by
  induction out with
  | nil => rfl
  | cons x out ih =>
    obtain ⟨p, msg⟩ := x
    obtain ⟨hx, hout⟩ := List.forall_mem_cons.1 h
    rw [told_cons]
    split
    · have hsame : note notes msg = notes := by cases msg <;> first | rfl | cases hx
      rw [List.foldl_cons, hsame, ih hout]
    · exact ih hout

theorem Updates.silent (h : Updates s out) : Silent out := by
  intro x hx
  obtain ⟨-, n, hn⟩ := h x hx
  rw [hn]
  rfl

/-- No game begins, and none goes on. -/
structure Still (s t : Server) (out : Outbox) : Prop where
  games : ∀ q r room', t.roomOf q = some (r, room') → ∃ room, s.roomOf q = some (r, room) ∧
    room'.position = room.position ∧ room'.white = room.white ∧ room'.black = room.black
  silent : Silent out

theorem Still.trans (h : Still s t out) (h' : Still t u out') : Still s u (out ++ out') where
  games q r room₂ hr := by
    obtain ⟨room₁, hr₁, hpos, hw, hb⟩ := h'.games q r room₂ hr
    obtain ⟨room, hr₀, hpos', hw', hb'⟩ := h.games q r room₁ hr₁
    exact ⟨room, hr₀, hpos.trans hpos', hw.trans hw', hb.trans hb'⟩
  silent := h.silent.append h'.silent

theorem still_of_seats (hroom : ∀ q, (t.sessions q).room = (s.sessions q).room ∨ (t.sessions q).room = none)
    (hrooms : t.rooms = s.rooms) (h : Silent out) : Still s t out where
  games q r room hr := by
    obtain ⟨hseat, hhere⟩ := roomOf_eq_some.1 hr
    rcases hroom q with hsame | hnone
    · exact ⟨room, roomOf_eq_some.2 ⟨hsame.symm.trans hseat, hrooms ▸ hhere⟩, rfl, rfl, rfl⟩
    · rw [hnone] at hseat
      cases hseat
  silent := h

theorem still_answer {msg : Message} (h : msg.isNote = false) (p : SessionId) : Still s s [(p, msg)] :=
  still_of_seats (fun _ => .inl rfl) rfl (silent_one h p)

theorem finish_still (env : Env) (r : RoomId) (room : GameRoom) (decided : Option (SessionId × SessionId))
    (write : Database → Database) (entries : List Entry) (s : Server) (h : Silent out) :
    Still s (s.finish env r room decided write entries) out := by
  refine still_of_seats (fun q => ?_) (finish_rooms ..) h
  rw [finish_room]
  split
  · exact .inr rfl
  · exact .inl rfl

theorem ratingUpdates_silent (t : Server) (decided : Option (SessionId × SessionId)) :
    Silent (ratingUpdates t decided) := by
  cases decided with
  | none => exact List.forall_mem_nil _
  | some x => exact (silent_one rfl x.1).append (silent_one rfl x.2)

theorem endGame_still (env : Env) (r : RoomId) (room : GameRoom) (e : Ending) (s : Server) :
    Still s (s.endGame env r room e).1 (s.endGame env r room e).2 := by
  obtain ⟨winner, hout⟩ := endGame_told env r room e s
  rw [hout, endGame_eq]
  exact finish_still env r room _ _ _ s ((ratingUpdates_silent _ _).append (silent_broadcast rfl room))

theorem roomDisconnect_still (env : Env) (h : Lobby s) (hr : s.roomOf p = some (r, room)) :
    Still s (s.roomDisconnect env r room p).1 (s.roomDisconnect env r room p).2 := by
  obtain ⟨hs, hp⟩ := h.roomOf hr
  obtain ⟨other, hother⟩ : ∃ other, room.opponentOf p = some other := by
    obtain rfl | rfl := hp
    · exact ⟨_, opponent_white⟩
    · exact ⟨_, opponent_black hs.ne⟩
  rw [roomDisconnect_told env r room p other s hother, roomDisconnect_eq]
  have hsilent : Silent ((other, .opponentDisconnected) ::
      ratingUpdates (s.rate env r (some (other, p))) (some (other, p))) :=
    List.forall_mem_cons.2 ⟨rfl, ratingUpdates_silent _ _⟩
  exact finish_still env r room _ _ _ s hsilent

theorem setGame_still (hs : Seats s r room) (hw : room'.white = room.white) (hb : room'.black = room.black)
    (hpos : room'.position = room.position) (h : Silent out) : Still s (s.setGame r room') out where
  games q r' room₁ hr := by
    obtain ⟨hseat, hhere⟩ := roomOf_eq_some.1 hr
    have hset : (s.rooms.set r room')[r']? = some room₁ := hhere
    by_cases he : r = r'
    · subst he
      rw [List.getElem?_set_self (List.getElem?_eq_some_iff.1 hs.here).1] at hset
      cases hset
      exact ⟨room, roomOf_eq_some.2 ⟨hseat, hs.here⟩, hpos, hw, hb⟩
    · rw [List.getElem?_set_ne he] at hset
      exact ⟨room₁, roomOf_eq_some.2 ⟨hseat, hset⟩, rfl, rfl, rfl⟩
  silent := h

theorem left_still (env : Env) (h : Lobby s) (p : SessionId) : Still s ((s.removeFromQueue p).1.leaveRoom env p).1
    ((s.removeFromQueue p).2 ++ ((s.removeFromQueue p).1.leaveRoom env p).2) := by
  cases hin : (s.sessions p).inQueue with
  | true =>
    have hupdates : Updates s (s.removeFromQueue p).2 := removeFromQueue_updates fun _ => rfl
    have hroom : ∀ q, ((s.removeFromQueue p).1.sessions q).room = (s.sessions q).room := by
      intro q
      rw [removeFromQueue_waiting hin]
      exact setInQueue_room false
    have hrooms : (s.removeFromQueue p).1.rooms = s.rooms := by
      rw [removeFromQueue_waiting hin]
      rfl
    rw [leaveRoom_none env ((hroom p).trans (h.apart p hin)), List.append_nil]
    exact still_of_seats (fun q => .inl (hroom q)) hrooms hupdates.silent
  | false =>
    have hstay : s.removeFromQueue p = (s, []) := by
      unfold removeFromQueue
      rw [if_neg (by simp [hin])]
    rw [hstay, List.nil_append]
    cases hr : s.roomOf p with
    | none =>
      rw [leaveRoom_none env (h.roomOf_none hr)]
      exact still_of_seats (fun _ => .inl rfl) rfl (List.forall_mem_nil _)
    | some x =>
      unfold leaveRoom
      rw [hr]
      exact roomDisconnect_still env h hr

/-- What is said of the games when an event is handled. -/
inductive Announced (s t : Server) (out : Outbox) : Prop
  | still : Still s t out → Announced s t out
  | paired {u : Server} {white black : SessionId} {first : Outbox} :
      (∀ q, (u.sessions q).room = (s.sessions q).room) → u.rooms = s.rooms → Silent first → white ≠ black →
      t = u.pair white black → out = first ++ u.introductions white black → Announced s t out
  | moved {r : RoomId} {room room' : GameRoom} {src dst nick : String} {m : Move} {rest : Outbox} : Seats s r room →
      room'.white = room.white → room'.black = room.black → Played room.position m room'.position →
      algebraicToIndex src = some m.from → algebraicToIndex dst = some m.to → Still (s.setGame r room') t rest →
      out = broadcast room' (.move src dst nick room'.position.getFen) ++ rest → Announced s t out

theorem announced_answer {msg : Message} (h : msg.isNote = false) (p : SessionId) : Announced s s [(p, msg)] :=
  .still (still_answer h p)

theorem handleAuth_announced (env : Env) (p : SessionId) (nick password : String) (s : Server) :
    Announced s (s.handleAuth env p nick password).1 (s.handleAuth env p nick password).2 := by
  unfold handleAuth
  split
  · exact announced_answer rfl p
  split
  · rename_i info db _
    exact .still (still_of_seats (fun q => .inl (login_seat info db)) rfl
      ((silent_one rfl p).append (silent_one rfl p)))
  · exact .still (still_of_seats (fun _ => .inl rfl) rfl (silent_one rfl p))

theorem handleQueue_announced (env : Env) (h : Lobby s) (p : SessionId) :
    Announced s (s.handleQueue env p).1 (s.handleQueue env p).2 := by
  unfold handleQueue
  split
  · exact announced_answer rfl p
  split
  · exact announced_answer rfl p
  split
  · exact announced_answer rfl p
  rename_i hin
  simp only [Bool.not_eq_true] at hin
  have hroom : ∀ q, ((s.enqueued p).sessions q).room = (s.sessions q).room := fun q => setInQueue_room true
  have hupdates : Updates (s.enqueued p) (s.enqueued p).broadcastQueueSize := broadcastQueueSize_updates fun _ => rfl
  have hfirst : Silent ((p, .ok "queued") :: (s.enqueued p).broadcastQueueSize) :=
    (silent_one rfl p).append hupdates.silent
  show Announced s ((s.enqueued p).tryMatchmake env).1
    (((p, .ok "queued") :: (s.enqueued p).broadcastQueueSize) ++ ((s.enqueued p).tryMatchmake env).2)
  rcases hqueue : s.queue with _ | ⟨p', _ | ⟨p'', rest⟩⟩
  · have hone : (s.enqueued p).queue = [p] := by rw [enqueued, hqueue]; rfl
    have hperm := env.sort_perm (s.enqueued p).rating (s.enqueued p).queue
    unfold tryMatchmake
    rw [hone] at hperm ⊢
    rw [List.perm_singleton.1 hperm, List.append_nil]
    exact .still (still_of_seats (fun q => .inl (hroom q)) rfl hfirst)
  · have htwo : (s.enqueued p).queue = [p', p] := by rw [enqueued, hqueue]; rfl
    have hin' : (s.sessions p').inQueue = true := (h.queued p').1 (by rw [hqueue]; exact List.mem_singleton_self p')
    have hne : p' ≠ p := by
      rintro rfl
      rw [hin] at hin'
      cases hin'
    have hq' : ((s.enqueued p).sessions p').inQueue = true := by rw [enqueued_inQueue, if_neg hne, hin']
    have hp' : ((s.enqueued p).sessions p).inQueue = true := by rw [enqueued_inQueue, if_pos rfl]
    obtain ⟨white, black, updates, hor, hu, he⟩ := tryMatchmake_told env hne hq' hp' htwo
    have hwb : white ≠ black := by
      obtain ⟨rfl, rfl⟩ | ⟨rfl, rfl⟩ := hor
      · exact hne
      · exact hne.symm
    rw [he, ← List.append_assoc]
    exact .paired hroom rfl (hfirst.append hu.silent) hwb rfl rfl
  · have hwaiting := h.waiting
    rw [hqueue] at hwaiting
    simp at hwaiting

theorem handleMove_announced (env : Env) (h : Lobby s) (p : SessionId) (src dst promotion : String) :
    Announced s (s.handleMove env p src dst promotion).1 (s.handleMove env p src dst promotion).2 := by
  unfold handleMove
  split
  · exact announced_answer rfl p
  split
  · exact announced_answer rfl p
  rename_i r room hr
  obtain ⟨hs, -⟩ := h.roomOf hr
  unfold roomMove
  split
  · exact announced_answer rfl p
  rename_i room' ending hm
  obtain ⟨m, hacc⟩ := onMove_ok hm
  obtain ⟨a, b, hsrc, hdst, rfl, rfl, -⟩ := hacc.answers
  have hplayed : Played room.position m room'.position := ⟨hacc.mem, hacc.applied⟩
  have hw : room'.white = room.white := by rw [hacc.room]
  have hb : room'.black = room.black := by rw [hacc.room]
  have hmoved : ∀ {t rest}, Still (s.setGame r room') t rest → Announced s t
      (broadcast room' (.move src dst (s.nick p) room'.position.getFen) ++ rest) := fun hstill =>
    .moved hs hw hb hplayed hsrc hdst hstill rfl
  split
  · exact hmoved (endGame_still env r room' _ _)
  · dsimp only
    split
    · exact hmoved (still_of_seats (fun _ => .inl rfl) rfl (silent_broadcast rfl room'))
    · have hnone := hmoved (still_of_seats (s := s.setGame r room') (fun _ => .inl rfl) rfl (List.forall_mem_nil _))
      rwa [List.append_nil] at hnone

theorem handleDraw_announced (env : Env) (h : Lobby s) (p : SessionId) (action : String) :
    Announced s (s.handleDraw env p action).1 (s.handleDraw env p action).2 := by
  unfold handleDraw
  split
  · exact announced_answer rfl p
  split
  · exact announced_answer rfl p
  rename_i r room hr
  obtain ⟨hs, -⟩ := h.roomOf hr
  dsimp only
  generalize (if action.isEmpty then "offer" else action) = action
  split
  · have hkept : (room.onDrawRequest p).white = room.white ∧ (room.onDrawRequest p).black = room.black ∧
        (room.onDrawRequest p).position = room.position := by
      unfold GameRoom.onDrawRequest
      split_ifs <;> exact ⟨rfl, rfl, rfl⟩
    obtain ⟨hw, hb, hpos⟩ := hkept
    refine .still (setGame_still hs hw hb hpos (Silent.append ?_ (silent_one rfl p)))
    split
    · exact List.forall_mem_nil _
    · exact silent_one rfl _
  split
  · split
    · exact .still ((endGame_still env r room _ s).trans (still_answer rfl p))
    · exact announced_answer rfl p
  split
  · split
    · rename_i room' other hd
      have hkept : room'.white = room.white ∧ room'.black = room.black ∧ room'.position = room.position := by
        unfold GameRoom.onDrawDecline at hd
        split_ifs at hd <;> cases hd <;> exact ⟨rfl, rfl, rfl⟩
      obtain ⟨hw, hb, hpos⟩ := hkept
      exact .still (setGame_still hs hw hb hpos ((silent_one rfl other).append (silent_one rfl p)))
    · exact announced_answer rfl p
  · exact announced_answer rfl p

theorem guarded_announced {refused : Bool} {text : String} {handled : Server × Outbox}
    (h : refused = false → Announced s handled.1 handled.2) :
    Announced s (if refused then (s, [(p, .error text)]) else handled).1
      (if refused then (s, [(p, .error text)]) else handled).2 := by
  cases refused with
  | true => exact announced_answer rfl p
  | false => exact h rfl

theorem handleCommand_announced (env : Env) (h : Lobby s) (p : SessionId) (cmd : Command) :
    Announced s (s.handleCommand env p cmd).1 (s.handleCommand env p cmd).2 := by
  cases cmd with
  | invalid | ping => exact announced_answer rfl p
  | auth nick password => exact handleAuth_announced env p nick password s
  | leaderboard =>
    unfold handleCommand handleLeaderboard
    dsimp only
    split <;> exact announced_answer rfl p
  | queue => exact guarded_announced fun _ => handleQueue_announced env h p
  | leave =>
    refine guarded_announced fun _ => ?_
    have hroom := (left_change env h p ((s.removeFromQueue p).1.leaveRoom env p).1.allPlayers .leave).2
    unfold handleLeave
    dsimp only
    rw [setRoom_self hroom]
    exact .still ((left_still env h p).trans (still_answer rfl p))
  | chat text =>
    refine guarded_announced fun _ => ?_
    unfold handleChat
    split
    · exact announced_answer rfl p
    split
    · exact announced_answer rfl p
    refine .still (still_of_seats (fun _ => .inl rfl) rfl (Silent.append ?_ (silent_one rfl p)))
    split
    · exact List.forall_mem_nil _
    · exact silent_one rfl _
  | move src dst promotion => exact guarded_announced fun _ => handleMove_announced env h p src dst promotion
  | draw action => exact guarded_announced fun _ => handleDraw_announced env h p action
  | unknown => exact guarded_announced fun _ => announced_answer rfl p

theorem handle_announced (env : Env) (h : Lobby s) (ev : Event) :
    Announced s (s.handle env ev).1 (s.handle env ev).2 := by
  cases ev with
  | connect p => exact .still (still_of_seats (fun _ => .inl rfl) rfl (List.forall_mem_nil _))
  | command p cmd => exact handleCommand_announced env h p cmd
  | disconnect p =>
    have hupdates :=
      broadcastQueueSize_updates (s := (s.onDisconnect env p).1) (t := (s.onDisconnect env p).1) fun _ => rfl
    exact .still ((left_still env h p).trans (still_of_seats (fun _ => .inl rfl) rfl hupdates.silent))

/-! ## The score -/

/-- What the sessions have noted fits the games. -/
structure Scored (s : Server) (notes : SessionId → List MoveNews) : Prop where
  score : ∀ {p r room}, s.roomOf p = some (r, room) → Score (notes p) room.position
  alike : ∀ {p r room}, s.roomOf p = some (r, room) → notes room.white = notes room.black

theorem Scored.paired {notes : SessionId → List MoveNews} (hl : Lobby s) (h : Scored s notes)
    (hroom : ∀ q, (u.sessions q).room = (s.sessions q).room) (hrooms : u.rooms = s.rooms) (ht : Lobby (u.pair p q)) :
    Scored (u.pair p q) fun x => if x = p ∨ x = q then [] else notes x := by
  -- who sits in an old room is not one of the two
  have hold : ∀ {x r room}, s.rooms[r]? = some room → ((u.pair p q).sessions x).room = some r → ¬(x = p ∨ x = q) := by
    intro x r room hr hx hor
    rw [pair_seat hor] at hx
    cases hx
    rw [hrooms, List.getElem?_length] at hr
    cases hr
  have hcases : ∀ {x r room}, (u.pair p q).roomOf x = some (r, room) →
      ((x = p ∨ x = q) ∧ room = GameRoom.new p q) ∨ (¬(x = p ∨ x = q) ∧ s.roomOf x = some (r, room)) := by
    intro x r room hr
    obtain ⟨hseat, hhere⟩ := roomOf_eq_some.1 hr
    by_cases hx : x = p ∨ x = q
    · rw [pair_seat hx] at hseat
      cases hseat
      exact .inl ⟨hx, Option.some.inj (hhere.symm.trans pair_new)⟩
    · rw [pair_other hx, hroom] at hseat
      obtain ⟨room₀, hs, -⟩ := hl.seated x r hseat
      have hhere' : (u.pair p q).rooms[r]? = some _ := pair_old (hrooms ▸ hs.here)
      cases hhere.symm.trans hhere'
      exact .inr ⟨hx, roomOf_eq_some.2 ⟨hseat, hs.here⟩⟩
  constructor
  · intro x r room hr
    rcases hcases hr with ⟨hx, rfl⟩ | ⟨hx, hr'⟩
    · rw [if_pos hx]
      exact .start
    · rw [if_neg hx]
      exact h.score hr'
  · intro x r room hr
    obtain ⟨hs, -⟩ := ht.roomOf hr
    rcases hcases hr with ⟨-, rfl⟩ | ⟨-, hr'⟩
    · rw [if_pos (.inl rfl), if_pos (.inr rfl)]
    · have hhere := (roomOf_eq_some.1 hr').2
      rw [if_neg (hold hhere hs.white), if_neg (hold hhere hs.black)]
      exact h.alike hr'

theorem Scored.moved {notes : SessionId → List MoveNews} (hl : Lobby s) (h : Scored s notes) (hs : Seats s r room)
    (hw : room'.white = room.white) (hb : room'.black = room.black) {m : Move}
    (hplayed : Played room.position m room'.position) {x : MoveNews} (hfrom : algebraicToIndex x.from = some m.from)
    (hto : algebraicToIndex x.to = some m.to) (hfen : x.fen = room'.position.getFen) :
    Scored (s.setGame r room') fun q => if q = room.white ∨ q = room.black then notes q ++ [x] else notes q := by
  have hcases : ∀ {q r₁ room₁}, (s.setGame r room').roomOf q = some (r₁, room₁) →
      (r₁ = r ∧ room₁ = room' ∧ s.roomOf q = some (r, room)) ∨ (r₁ ≠ r ∧ s.roomOf q = some (r₁, room₁)) := by
    intro q r₁ room₁ hr
    obtain ⟨hseat, hhere⟩ := roomOf_eq_some.1 hr
    have hset : (s.rooms.set r room')[r₁]? = some room₁ := hhere
    by_cases he : r₁ = r
    · subst he
      rw [List.getElem?_set_self (List.getElem?_eq_some_iff.1 hs.here).1] at hset
      cases hset
      exact .inl ⟨rfl, rfl, roomOf_eq_some.2 ⟨hseat, hs.here⟩⟩
    · rw [List.getElem?_set_ne (Ne.symm he)] at hset
      exact .inr ⟨he, roomOf_eq_some.2 ⟨hseat, hset⟩⟩
  have hother : ∀ {q r₁}, (s.sessions q).room = some r₁ → r₁ ≠ r → ¬(q = room.white ∨ q = room.black) := by
    rintro q r₁ hq hne (rfl | rfl)
    · exact hne (Option.some.inj (hq.symm.trans hs.white))
    · exact hne (Option.some.inj (hq.symm.trans hs.black))
  constructor
  · intro q r₁ room₁ hr
    rcases hcases hr with ⟨rfl, rfl, hr'⟩ | ⟨hne, hr'⟩
    · rw [if_pos (hl.roomOf hr').2]
      exact .move (h.score hr') hplayed hfrom hto hfen
    · rw [if_neg (hother (roomOf_eq_some.1 hr').1 hne)]
      exact h.score hr'
  · intro q r₁ room₁ hr
    rcases hcases hr with ⟨rfl, rfl, hr'⟩ | ⟨hne, hr'⟩
    · rw [hw, hb, if_pos (.inl rfl), if_pos (.inr rfl), h.alike hr']
    · obtain ⟨hs', -⟩ := hl.roomOf hr'
      rw [if_neg (hother hs'.white hne), if_neg (hother hs'.black hne)]
      exact h.alike hr'

theorem Scored.still {notes : SessionId → List MoveNews} (h : Scored s notes) (hstill : Still s t out) :
    Scored t notes where
  score {p r room'} hr := by
    obtain ⟨room, hr', hpos, -, -⟩ := hstill.games p r room' hr
    rw [hpos]
    exact h.score hr'
  alike {p r room'} hr := by
    obtain ⟨room, hr', -, hw, hb⟩ := hstill.games p r room' hr
    rw [hw, hb]
    exact h.alike hr'

theorem Announced.scored {notes : SessionId → List MoveNews} (hl : Lobby s) (ht : Lobby t) (h : Scored s notes)
    (ha : Announced s t out) : Scored t fun q => (told q out).foldl note (notes q) := by
  cases ha with
  | still hstill =>
    rw [show (fun q => (told q out).foldl note (notes q)) = notes from funext fun q => hstill.silent.told q _]
    exact h.still hstill
  | @paired u white black first hroom hrooms hsilent hne heq hout =>
    have hnotes : ∀ q, (told q out).foldl note (notes q) = if q = white ∨ q = black then [] else notes q := by
      intro q
      rw [hout, told_append, List.foldl_append, hsilent.told]
      by_cases hw : q = white
      · subst hw
        simp [introductions, hne.symm, note]
      · by_cases hb : q = black
        · subst hb
          simp [introductions, hne, note]
        · simp [introductions, hw, hb, Ne.symm hw, Ne.symm hb]
    rw [funext hnotes, heq]
    exact h.paired hl hroom hrooms (heq ▸ ht)
  | @moved r room room' src dst nick m rest hs hw hb hplayed hfrom hto hstill hout =>
    have hnotes : ∀ q, (told q out).foldl note (notes q) = if q = room.white ∨ q = room.black then
        notes q ++ [⟨src, dst, nick, room'.position.getFen⟩] else notes q := by
      intro q
      have hne : room'.white ≠ room'.black := by rw [hw, hb]; exact hs.ne
      rw [hout, told_append, List.foldl_append, hstill.silent.told, told_broadcast hne, hw, hb]
      split <;> rfl
    have hmoved := h.moved (x := ⟨src, dst, nick, room'.position.getFen⟩) hl hs hw hb hplayed hfrom hto rfl
    rw [funext hnotes]
    exact hmoved.still hstill

/-- All that a session is told in a run. -/
def messages (env : Env) (p : SessionId) (l : List (Server × Event)) : List Message :=
  l.flatMap fun x => told p (x.1.handle env x.2).2

def transcript (env : Env) (p : SessionId) (l : List (Server × Event)) : List MoveNews :=
  (messages env p l).foldl note []

theorem run_scored {l : List (Server × Event)} (h : Run (Handled env) init l s) :
    Scored s fun p => transcript env p l := by
  induction h with
  | nil =>
    constructor <;> intro p r room hr <;> cases (roomOf_eq_some.1 hr).1
  | @snoc l s ev t hrun hh ih =>
    have hl := Reached.lobby ⟨_, hrun⟩
    rw [Handled] at hh
    have hstep := (handle_announced env hl ev).scored hl (Reached.lobby ⟨_, hrun.snoc rfl⟩) ih
    rw [hh]
    refine cast (congrArg _ (funext fun p => ?_)) hstep
    rw [transcript, transcript, messages, messages, List.flatMap_append, List.foldl_append, List.flatMap_singleton]

/-- Both players of a game have been told the same moves since it began. They are generated and applied one after the
other from the initial position, and lead to the board on which the game stands. -/
theorem transcripts_score {l : List (Server × Event)} (h : Run (Handled env) init l s)
    (hr : s.roomOf p = some (r, room)) :
    transcript env room.white l = transcript env room.black l ∧ Score (transcript env p l) room.position :=
  ⟨(run_scored h).alike hr, (run_scored h).score hr⟩

/-- 1.e4 e5 -/
theorem transcripts_score_opening :
    (transcript .even 0 (steps .even init (opening ++ plies true [("e2", "e4"), ("e7", "e5")]))).length = 2 ∧
      ∃ room, (after .even (opening ++ plies true [("e2", "e4"), ("e7", "e5")])).roomOf 0 = some (0, room) ∧
        transcript .even room.white (steps .even init (opening ++ plies true [("e2", "e4"), ("e7", "e5")])) =
          transcript .even room.black (steps .even init (opening ++ plies true [("e2", "e4"), ("e7", "e5")])) ∧
        Score (transcript .even 0 (steps .even init (opening ++ plies true [("e2", "e4"), ("e7", "e5")])))
          room.position := by
  have hroom : ((after .even (opening ++ plies true [("e2", "e4"), ("e7", "e5")])).roomOf 0).any (·.1 = 0) = true := by
    decide +kernel
  obtain ⟨⟨r, room⟩, hr, he⟩ := (Option.any_eq_true _ _).1 hroom
  obtain rfl : r = 0 := of_decide_eq_true he
  exact ⟨by decide +kernel, room, hr, transcripts_score (steps_run ..) hr⟩

end Server

end ChessGame
