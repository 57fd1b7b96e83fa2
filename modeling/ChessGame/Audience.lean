import ChessGame.Told
/-!
# Who hears of an event

An event concerns the session it comes from, the players of that session's room, and, when
it asks for an opponent, whoever waits. Everyone else hears the size of the queue at most.
-/
open Runs

namespace ChessGame

/-- The session that the event comes from. -/
def Event.player : Event → SessionId
  | .connect p | .command p _ | .disconnect p => p

namespace Server

variable {env : Env} {s t : Server} {p q : SessionId} {r : RoomId} {room : GameRoom} {ev : Event} {out out' : Outbox}

def Concerned (s : Server) (ev : Event) (q : SessionId) : Prop :=
  q = ev.player ∨ (∃ r room, s.roomOf ev.player = some (r, room) ∧ (q = room.white ∨ q = room.black)) ∨
    (ev = .command ev.player .queue ∧ q ∈ s.queue)

/-- Every message is for a session concerned, or tells a session that has signed in the size of the queue. -/
def Addressed (s : Server) (ev : Event) (out : Outbox) : Prop :=
  ∀ x ∈ out, Concerned s ev x.1 ∨ ((s.sessions x.1).authorized = true ∧ ∃ n, x.2 = .queueUpdate n)

theorem Addressed.append (h : Addressed s ev out) (h' : Addressed s ev out') : Addressed s ev (out ++ out') :=
  List.forall_mem_append.2 ⟨h, h'⟩

theorem addressed_nil : Addressed s ev [] := List.forall_mem_nil _

theorem addressed_one {msg : Message} (hq : Concerned s ev q) : Addressed s ev [(q, msg)] :=
  List.forall_mem_singleton.2 (.inl hq)

theorem addressed_player {msg : Message} (hev : ev.player = p) : Addressed s ev [(p, msg)] :=
  addressed_one (.inl hev.symm)

theorem Updates.addressed (h : Updates s out) : Addressed s ev out := fun x hx => .inr (h x hx)

/-- The messages are for the players of the room. -/
def ForPlayers (room : GameRoom) (out : Outbox) : Prop := ∀ x ∈ out, x.1 = room.white ∨ x.1 = room.black

theorem ForPlayers.addressed (h : ForPlayers room out) (hr : s.roomOf ev.player = some (r, room)) :
    Addressed s ev out := fun x hx => .inl (.inr (.inl ⟨r, room, hr, h x hx⟩))

theorem broadcast_forPlayers (room : GameRoom) (msg : Message) : ForPlayers room (broadcast room msg) := by
  simp [ForPlayers, broadcast]

theorem ratingUpdates_forPlayers {decided : Option (SessionId × SessionId)} (hd : Between room decided) (t : Server) :
    ForPlayers room (ratingUpdates t decided) := by
  cases decided with
  | none => exact List.forall_mem_nil _
  | some x =>
    obtain hx | hx := hd x rfl
    · rw [hx]
      simp [ForPlayers, ratingUpdates]
    · rw [hx]
      simp [ForPlayers, ratingUpdates]

theorem endGame_forPlayers (env : Env) (r : RoomId) (hne : room.white ≠ room.black) (e : Ending) (s : Server) :
    ForPlayers room (s.endGame env r room e).2 := by
  obtain ⟨winner, hout⟩ := endGame_told env r room e s
  rw [hout]
  exact List.forall_mem_append.2 ⟨ratingUpdates_forPlayers (between_decides hne e.winner) _, broadcast_forPlayers _ _⟩

theorem roomDisconnect_forPlayers (env : Env) (r : RoomId) (hne : room.white ≠ room.black) (who : SessionId)
    (s : Server) :
    ForPlayers room (s.roomDisconnect env r room who).2 := by
  cases hother : room.opponentOf who with
  | none =>
    have hquiet : (s.roomDisconnect env r room who).2 = [] := by
      unfold roomDisconnect
      rw [hother]
    rw [hquiet]
    exact List.forall_mem_nil _
  | some other =>
    have hd : Between room (some (other, who)) := by
      intro x hx
      cases hx
      exact opponentOf_eq hne hother
    rw [roomDisconnect_told env r room who other s hother]
    exact List.forall_mem_cons.2 ⟨opponentOf_seat hother, ratingUpdates_forPlayers hd _⟩

/-! ## The handlers -/

theorem handleAuth_addressed (env : Env) (hev : ev.player = p) (nick password : String) (s : Server) :
    Addressed s ev (s.handleAuth env p nick password).2 := by
  unfold handleAuth
  split
  · exact addressed_player hev
  split
  · exact (addressed_player hev).append (addressed_player hev)
  · exact addressed_player hev

theorem handleQueue_addressed (env : Env) (h : Lobby s) (p : SessionId) :
    Addressed s (.command p .queue) (s.handleQueue env p).2 := by
  unfold handleQueue
  split
  · exact addressed_player rfl
  split
  · exact addressed_player rfl
  split
  · exact addressed_player rfl
  rename_i hin
  simp only [Bool.not_eq_true] at hin
  have hauth : ∀ q, ((s.enqueued p).sessions q).authorized = (s.sessions q).authorized :=
    fun q => setInQueue_authorized true
  have hupdates : Updates s (s.enqueued p).broadcastQueueSize := broadcastQueueSize_updates hauth
  have hfirst : Addressed s (.command p .queue) ((p, .ok "queued") :: (s.enqueued p).broadcastQueueSize) :=
    (addressed_player rfl).append hupdates.addressed
  refine hfirst.append ?_
  show Addressed s (.command p .queue) ((s.enqueued p).tryMatchmake env).2
  obtain hqueue | ⟨p', hqueue⟩ : s.queue = [] ∨ ∃ p', s.queue = [p'] := by
    obtain hlen | hlen := Nat.le_one_iff_eq_zero_or_eq_one.1 h.waiting
    · exact .inl (List.length_eq_zero_iff.1 hlen)
    · exact .inr (List.length_eq_one_iff.1 hlen)
  · have hone : (s.enqueued p).queue = [p] := by rw [enqueued, hqueue]; rfl
    have hperm := env.sort_perm (s.enqueued p).rating (s.enqueued p).queue
    unfold tryMatchmake
    rw [hone] at hperm ⊢
    rw [List.perm_singleton.1 hperm]
    exact addressed_nil
  · have htwo : (s.enqueued p).queue = [p', p] := by rw [enqueued, hqueue]; rfl
    have hin' : (s.sessions p').inQueue = true := (h.queued p').1 (by rw [hqueue]; exact List.mem_singleton_self p')
    have hne : p' ≠ p := by
      rintro rfl
      rw [hin] at hin'
      cases hin'
    have hq' : ((s.enqueued p).sessions p').inQueue = true := by rw [enqueued_inQueue, if_neg hne, hin']
    have hp' : ((s.enqueued p).sessions p).inQueue = true := by rw [enqueued_inQueue, if_pos rfl]
    obtain ⟨white, black, updates, hor, hu, he⟩ := tryMatchmake_told env hne hq' hp' htwo
    have hconcerned : ∀ q, q = p ∨ q = p' → Concerned s (.command p .queue) q := by
      rintro q (rfl | rfl)
      · exact .inl rfl
      · exact .inr (.inr ⟨rfl, by rw [hqueue]; exact List.mem_singleton_self q⟩)
    have hseats : Concerned s (.command p .queue) white ∧ Concerned s (.command p .queue) black := by
      obtain ⟨rfl, rfl⟩ | ⟨rfl, rfl⟩ := hor
      · exact ⟨hconcerned _ (.inr rfl), hconcerned _ (.inl rfl)⟩
      · exact ⟨hconcerned _ (.inl rfl), hconcerned _ (.inr rfl)⟩
    rw [he]
    have hsame : Updates s updates := fun x hx => ⟨(hauth x.1).symm.trans (hu x hx).1, (hu x hx).2⟩
    exact hsame.addressed.append ((addressed_one hseats.1).append (addressed_one hseats.2))

/-- Leaving the queue and the room. -/
theorem left_addressed (env : Env) (h : Lobby s) (hev : ev.player = p) :
    Addressed s ev ((s.removeFromQueue p).2 ++ ((s.removeFromQueue p).1.leaveRoom env p).2) := by
  have hfirst : Updates s (s.removeFromQueue p).2 := removeFromQueue_updates fun _ => rfl
  refine hfirst.addressed.append ?_
  have hroom : (s.removeFromQueue p).1.roomOf p = s.roomOf p := by
    unfold removeFromQueue
    split
    · unfold roomOf
      rw [setInQueue_room]
      rfl
    · rfl
  unfold leaveRoom
  rw [hroom]
  cases hr : s.roomOf p with
  | none => exact addressed_nil
  | some x =>
    obtain ⟨r, room⟩ := x
    exact (roomDisconnect_forPlayers env r (h.roomOf hr).1.ne p _).addressed (by rwa [hev])

theorem onDisconnect_addressed (env : Env) (h : Lobby s) (p : SessionId) :
    Addressed s (.disconnect p) (s.onDisconnect env p).2 := by
  refine (left_addressed env h rfl).append (Updates.addressed (broadcastQueueSize_updates fun q => ?_))
  have hleave : ∀ (u : Server), ((u.leaveRoom env p).1.sessions q).authorized = (u.sessions q).authorized := by
    intro u
    unfold leaveRoom
    split
    · rfl
    · rw [roomDisconnect_eq, finish_authorized]
  exact (hleave _).trans removeFromQueue_authorized

theorem handleChat_addressed (p : SessionId) (text : String) (s : Server) :
    Addressed s (.command p (.chat text)) (s.handleChat p text).2 := by
  unfold handleChat
  split
  · exact addressed_player rfl
  split
  · exact addressed_player rfl
  rename_i r room hr
  refine Addressed.append ?_ (addressed_player rfl)
  split
  · exact addressed_nil
  · rename_i hother
    exact addressed_one (.inr (.inl ⟨r, room, hr, opponentOf_seat hother⟩))

theorem handleMove_addressed (env : Env) (h : Lobby s) (p : SessionId) (src dst promotion : String) :
    Addressed s (.command p (.move src dst promotion)) (s.handleMove env p src dst promotion).2 := by
  unfold handleMove
  split
  · exact addressed_player rfl
  split
  · exact addressed_player rfl
  rename_i r room hr
  obtain ⟨hs, -⟩ := h.roomOf hr
  unfold roomMove
  split
  · exact addressed_player rfl
  rename_i room' ending hm
  obtain ⟨m, hacc⟩ := onMove_ok hm
  have hw : room'.white = room.white := by rw [hacc.room]
  have hb : room'.black = room.black := by rw [hacc.room]
  -- the players are the same before and after the move
  have hseats : ∀ {out}, ForPlayers room' out → Addressed s (.command p (.move src dst promotion)) out := by
    intro out hout
    refine ForPlayers.addressed (fun x hx => ?_) hr
    rw [← hw, ← hb]
    exact hout x hx
  have hmove := hseats (broadcast_forPlayers room' (.move src dst (s.nick p) room'.position.getFen))
  split
  · have hne : room'.white ≠ room'.black := by rw [hw, hb]; exact hs.ne
    exact hmove.append (hseats (endGame_forPlayers env r hne _ _))
  · dsimp only
    split
    · exact hmove.append (hseats (broadcast_forPlayers _ _))
    · exact hmove

theorem handleDraw_addressed (env : Env) (h : Lobby s) (p : SessionId) (action : String) :
    Addressed s (.command p (.draw action)) (s.handleDraw env p action).2 := by
  unfold handleDraw
  split
  · exact addressed_player rfl
  split
  · exact addressed_player rfl
  rename_i r room hr
  obtain ⟨hs, -⟩ := h.roomOf hr
  dsimp only
  generalize (if action.isEmpty then "offer" else action) = action'
  split
  · refine Addressed.append ?_ (addressed_player rfl)
    split
    · exact addressed_nil
    · rename_i hother
      exact addressed_one (.inr (.inl ⟨r, room, hr, opponentOf_seat hother⟩))
  split
  · split
    · exact ((endGame_forPlayers env r hs.ne _ s).addressed hr).append (addressed_player rfl)
    · exact addressed_player rfl
  split
  · split
    · rename_i room' other hd
      have hor : other = room.white ∨ other = room.black := by
        unfold GameRoom.onDrawDecline at hd
        split_ifs at hd <;> cases hd <;> simp
      exact (addressed_one (.inr (.inl ⟨r, room, hr, hor⟩))).append (addressed_player rfl)
    · exact addressed_player rfl
  · exact addressed_player rfl

/-- The test for authorization that `handle_command` makes. -/
theorem guarded_addressed {refused : Bool} {text : String} {handled : Server × Outbox} (hev : ev.player = p)
    (h : Addressed s ev handled.2) : Addressed s ev (if refused then (s, [(p, .error text)]) else handled).2 := by
  cases refused with
  | true => exact addressed_player hev
  | false => exact h

theorem handle_addressed (env : Env) (h : Lobby s) (ev : Event) : Addressed s ev (s.handle env ev).2 := by
  cases ev with
  | connect p => exact addressed_nil
  | disconnect p => exact onDisconnect_addressed env h p
  | command p cmd =>
    cases cmd with
    | invalid | ping => exact addressed_player rfl
    | auth nick password => exact handleAuth_addressed env rfl nick password s
    | leaderboard =>
      show Addressed s _ (s.handleLeaderboard p).2
      unfold handleLeaderboard
      split <;> exact addressed_player rfl
    | queue => exact guarded_addressed rfl (handleQueue_addressed env h p)
    | leave => exact guarded_addressed rfl ((left_addressed env h rfl).append (addressed_player rfl))
    | chat text => exact guarded_addressed rfl (handleChat_addressed p text s)
    | move src dst promotion => exact guarded_addressed rfl (handleMove_addressed env h p src dst promotion)
    | draw action => exact guarded_addressed rfl (handleDraw_addressed env h p action)
    | unknown => exact guarded_addressed rfl (addressed_player rfl)

/-! ## Every command is answered -/

theorem told_concat_ne (out : Outbox) (p : SessionId) (msg : Message) : told p (out ++ [(p, msg)]) ≠ [] := by simp

theorem handleMove_answered (env : Env) (h : Lobby s) (p : SessionId) (src dst promotion : String) :
    told p (s.handleMove env p src dst promotion).2 ≠ [] := by
  unfold handleMove
  split
  · simp
  split
  · simp
  rename_i r room hr
  obtain ⟨hs, hp⟩ := h.roomOf hr
  unfold roomMove
  split
  · simp
  rename_i room' ending hm
  obtain ⟨m, hacc⟩ := onMove_ok hm
  have hw : room'.white = room.white := by rw [hacc.room]
  have hb : room'.black = room.black := by rw [hacc.room]
  have hne : room'.white ≠ room'.black := by rw [hw, hb]; exact hs.ne
  have hmove : ∀ rest, told p (broadcast room' (.move src dst (s.nick p) room'.position.getFen) ++ rest) ≠ [] := by
    intro rest
    rw [told_append, told_broadcast hne, if_pos (by rwa [hw, hb])]
    exact List.cons_ne_nil _ _
  split
  · exact hmove _
  · dsimp only
    split
    · exact hmove _
    · rw [← List.append_nil (broadcast room' _)]
      exact hmove []

theorem handleDraw_answered (env : Env) (p : SessionId) (action : String) (s : Server) :
    told p (s.handleDraw env p action).2 ≠ [] := by
  unfold handleDraw
  split
  · simp
  split
  · simp
  dsimp only
  generalize (if action.isEmpty then "offer" else action) = action'
  split
  · exact told_concat_ne _ _ _
  split
  · split
    · exact told_concat_ne _ _ _
    · simp
  split
  · split
    · exact told_concat_ne [_] _ _
    · simp
  · simp

theorem guarded_answered {refused : Bool} {text : String} {handled : Server × Outbox} (h : told p handled.2 ≠ []) :
    told p (if refused then (s, [(p, .error text)]) else handled).2 ≠ [] := by
  cases refused with
  | true => simp
  | false => exact h

theorem handleCommand_answered (env : Env) (h : Lobby s) (p : SessionId) (cmd : Command) :
    told p (s.handleCommand env p cmd).2 ≠ [] := by
  cases cmd with
  | invalid | ping => simp [handleCommand]
  | auth nick password =>
    show told p (s.handleAuth env p nick password).2 ≠ []
    unfold handleAuth
    split
    · simp
    · split <;> simp
  | leaderboard =>
    show told p (s.handleLeaderboard p).2 ≠ []
    unfold handleLeaderboard
    split <;> simp
  | queue =>
    refine guarded_answered ?_
    unfold handleQueue
    split
    · simp
    split
    · simp
    split <;> simp
  | leave => exact guarded_answered (told_concat_ne _ _ _)
  | chat text =>
    refine guarded_answered ?_
    unfold handleChat
    split
    · simp
    split
    · simp
    · exact told_concat_ne _ _ _
  | move src dst promotion => exact guarded_answered (handleMove_answered env h p src dst promotion)
  | draw action => exact guarded_answered (handleDraw_answered env p action s)
  | unknown => exact guarded_answered (by simp)

/-! ## Runs -/

end Server

end ChessGame
