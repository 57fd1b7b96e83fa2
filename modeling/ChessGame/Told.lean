import ChessGame.Turns
/-!
# What a session is told

The server keeps a session's seat, its place in the queue and its rating to itself; the
client behind the session has only the messages. An `Account` is what the messages say.
It is the abstract model of a client: which message may come when, and what it changes.
`account_told` says that the server keeps to it, in every run and for every session.
-/
open Runs

namespace ChessGame

inductive Stage where
  | menu
  | waiting
  | playing (youAre fen : String)
  deriving DecidableEq, Repr

structure Account where
  authorized : Bool
  rating : ℤ
  stage : Stage
  deriving DecidableEq, Repr

/-- What happens to a session, as far as its client can see. -/
inductive News where
  | message (msg : Message)
  /-- The connection breaks. -/
  | lost
  deriving DecidableEq, Repr

namespace Account

/-- Before the first message. -/
def new : Account := ⟨false, 1000, .menu⟩

/-- What the message changes; `none` if it does not come at its time. -/
def hear (k : Account) : Message → Option Account
  | .ok text =>
    if text = "authorized" then some { k with authorized := true }
    else if text = "queued" then
      if k.authorized ∧ k.stage = .menu then some { k with stage := .waiting } else none
    else if text = "left" then some { k with stage := .menu }
    else some k
  | .error _ => some k
  | .queueUpdate _ | .leaderboard _ => if k.authorized then some k else none
  | .ratingUpdate rating => if k.authorized then some { k with rating } else none
  | .matchFound _ fen youAre => if k.stage = .waiting then some { k with stage := .playing youAre fen } else none
  | .move _ _ _ fen =>
    match k.stage with
    | .playing youAre _ => some { k with stage := .playing youAre fen }
    | _ => none
  | .chat .. | .check _ | .drawOffer _ | .drawDeclined _ =>
    match k.stage with
    | .playing .. => some k
    | _ => none
  | .gameOver .. | .opponentDisconnected =>
    match k.stage with
    | .playing .. => some { k with stage := .menu }
    | _ => none

def hearAll (k : Account) (msgs : List Message) : Option Account := msgs.foldlM hear k

def learn (k : Account) : News → Option Account
  | .message msg => k.hear msg
  | .lost => some { k with stage := .menu }

def learnAll (k : Account) (news : List News) : Option Account := news.foldlM learn k

variable {k : Account} {msg : Message}

@[simp] theorem hearAll_nil (k : Account) : k.hearAll [] = some k := rfl

@[simp] theorem hearAll_cons (k : Account) (msg : Message) (msgs : List Message) :
    k.hearAll (msg :: msgs) = (k.hear msg).bind (·.hearAll msgs) := List.foldlM_cons

theorem hearAll_append (k : Account) (msgs msgs' : List Message) :
    k.hearAll (msgs ++ msgs') = (k.hearAll msgs).bind (·.hearAll msgs') := List.foldlM_append

theorem learnAll_append (k : Account) (news news' : List News) :
    k.learnAll (news ++ news') = (k.learnAll news).bind (·.learnAll news') := List.foldlM_append

theorem learnAll_messages (k : Account) (msgs : List Message) : k.learnAll (msgs.map .message) = k.hearAll msgs := by
  rw [learnAll, List.foldlM_map]
  rfl

/-- Of the answers that only say yes, three change something. -/
theorem hear_ok {text : String} (h : text ∉ ["authorized", "queued", "left"]) (k : Account) :
    k.hear (.ok text) = some k := by
  simp only [List.mem_cons, List.not_mem_nil, or_false, not_or] at h
  simp [hear, h]

theorem hearAll_rating (h : k.authorized = true) (rating : ℤ) :
    k.hearAll [.ratingUpdate rating] = some { k with rating } := by
  rw [hearAll_cons, hear, if_pos h]
  rfl

theorem hearAll_updates {msgs : List Message} (h : ∀ msg ∈ msgs, k.authorized = true ∧ ∃ n, msg = .queueUpdate n) :
    k.hearAll msgs = some k := by
  induction msgs with
  | nil => rfl
  | cons msg msgs ih =>
    rw [List.forall_mem_cons] at h
    obtain ⟨⟨hauth, n, rfl⟩, hrest⟩ := h
    rw [hearAll_cons, hear, if_pos hauth, Option.bind_some]
    exact ih hrest

end Account

/-- The messages for the session, in their order. -/
def told (p : SessionId) (out : Outbox) : List Message := (out.filter (·.1 = p)).map Prod.snd

section
variable {p q : SessionId} {msg : Message} {out out' : Outbox}

@[simp] theorem told_nil (p : SessionId) : told p [] = [] := rfl

@[simp] theorem told_cons (p q : SessionId) (msg : Message) (out : Outbox) :
    told p ((q, msg) :: out) = if q = p then msg :: told p out else told p out := by
  unfold told
  by_cases h : q = p <;> simp [h]

@[simp] theorem told_append (p : SessionId) (out out' : Outbox) : told p (out ++ out') = told p out ++ told p out' := by
  simp [told]

theorem mem_told : msg ∈ told p out ↔ (p, msg) ∈ out := by
  simp [told]

theorem told_other (h : p ≠ q) : told p [(q, msg)] = [] := by simp [h.symm]

end

namespace Server

variable {env : Env} {s t u : Server} {p q : SessionId} {r : RoomId} {room room' : GameRoom} {ev : Event}

theorem told_broadcast (hne : room.white ≠ room.black) (q : SessionId) (msg : Message) :
    told q (broadcast room msg) = if q = room.white ∨ q = room.black then [msg] else [] := by
  unfold broadcast
  by_cases hw : q = room.white
  · subst hw
    simp [hne.symm]
  · by_cases hb : q = room.black
    · subst hb
      simp [hne]
    · simp [hw, hb, Ne.symm hw, Ne.symm hb]

/-! ## The server's side -/

def stage (s : Server) (p : SessionId) : Stage :=
  match s.roomOf p with
  | some (_, room) => .playing (if p = room.white then "white" else "black") room.position.getFen
  | none => if (s.sessions p).inQueue then .waiting else .menu

/-- What the session should know. -/
def account (s : Server) (p : SessionId) : Account := ⟨(s.sessions p).authorized, s.rating p, s.stage p⟩

/-- The messages take the session's account from the one state to the other. -/
def Tells (s t : Server) (out : Outbox) (q : SessionId) : Prop :=
  (s.account q).hearAll (told q out) = some (t.account q)

theorem Tells.append {out out' : Outbox} (h : Tells s t out q) (h' : Tells t u out' q) : Tells s u (out ++ out') q := by
  rw [Tells, told_append, Account.hearAll_append, h, Option.bind_some, h']

theorem Tells.congr {out : Outbox} (h : Tells s t out q) (ht : u.account q = t.account q) : Tells s u out q := by
  rw [Tells, h, ht]

theorem stage_playing (hr : s.roomOf p = some (r, room)) :
    s.stage p = .playing (if p = room.white then "white" else "black") room.position.getFen := by
  rw [stage, hr]

theorem stage_apart (hr : (s.sessions p).room = none) :
    s.stage p = if (s.sessions p).inQueue then .waiting else .menu := by
  have hnone : s.roomOf p = none := by
    unfold roomOf
    rw [hr]
  rw [stage, hnone]

theorem stage_menu (hr : (s.sessions p).room = none) (hin : (s.sessions p).inQueue = false) : s.stage p = .menu := by
  rw [stage_apart hr, hin]
  rfl

/-- The stage of a session depends on its seat, its flag and the room it sits in. -/
theorem stage_congr (hroom : (t.sessions q).room = (s.sessions q).room)
    (hin : (t.sessions q).inQueue = (s.sessions q).inQueue)
    (hrooms : ∀ r, (s.sessions q).room = some r → t.rooms[r]? = s.rooms[r]?) : t.stage q = s.stage q := by
  have heq : t.roomOf q = s.roomOf q := by
    unfold roomOf
    rw [hroom]
    cases hr : (s.sessions q).room with
    | none => rfl
    | some r => simp only [hrooms r hr]
  rw [stage, stage, heq, hin]

theorem account_congr (hauth : (t.sessions q).authorized = (s.sessions q).authorized)
    (hrating : t.rating q = s.rating q) (hstage : t.stage q = s.stage q) : t.account q = s.account q := by
  rw [account, account, hauth, hrating, hstage]

/-! ## Answers and the size of the queue -/

theorem tells_reply {msg : Message} (hmsg : ∀ k : Account, k.hear msg = some k) (p q : SessionId) :
    Tells s s [(p, msg)] q := by
  unfold Tells
  rw [told_cons]
  split
  · rw [Account.hearAll_cons, hmsg]
    rfl
  · rfl

theorem tells_ok {text : String} (h : text ∉ ["authorized", "queued", "left"]) (p q : SessionId) :
    Tells s s [(p, .ok text)] q := tells_reply (Account.hear_ok h) p q

theorem tells_error (text : String) (p q : SessionId) : Tells s s [(p, .error text)] q := tells_reply (fun _ => rfl) p q

/-- Sessions that have signed in are told how long the queue is. -/
def Updates (s : Server) (out : Outbox) : Prop :=
  ∀ x ∈ out, (s.sessions x.1).authorized = true ∧ ∃ n, x.2 = .queueUpdate n

theorem Updates.append {out out' : Outbox} (h : Updates s out) (h' : Updates s out') : Updates s (out ++ out') :=
  List.forall_mem_append.2 ⟨h, h'⟩

theorem Updates.tells {out : Outbox} (h : Updates s out) (q : SessionId) : Tells s s out q := by
  refine Account.hearAll_updates fun msg hmsg => ?_
  obtain ⟨hauth, n, hn⟩ := h _ (mem_told.1 hmsg)
  exact ⟨hauth, n, hn⟩

theorem broadcastQueueSize_updates (h : ∀ q, (t.sessions q).authorized = (s.sessions q).authorized) :
    Updates s t.broadcastQueueSize := by
  intro x hx
  obtain ⟨p, hp, rfl⟩ := List.mem_map.1 hx
  exact ⟨(h p).symm.trans (List.mem_filter.1 hp).2, t.queue.length, rfl⟩

theorem removeFromQueue_authorized : (((s.removeFromQueue p).1).sessions q).authorized = (s.sessions q).authorized := by
  unfold removeFromQueue
  split
  · exact setInQueue_authorized false
  · rfl

theorem removeFromQueue_updates (h : ∀ q, (t.sessions q).authorized = (s.sessions q).authorized) :
    Updates s (t.removeFromQueue p).2 := by
  unfold removeFromQueue
  split
  · exact broadcastQueueSize_updates fun q => (setInQueue_authorized false).trans (h q)
  · exact List.forall_mem_nil _

/-! ## The queue -/

/-- The two `match_found` messages. -/
def introductions (s : Server) (white black : SessionId) : Outbox :=
  [(white, .matchFound (s.nick black) Position.init.getFen "white"),
    (black, .matchFound (s.nick white) Position.init.getFen "black")]

theorem tells_pair {white black : SessionId} {updates : Outbox} (hne : white ≠ black) (hupdates : Updates s updates)
    (hw : s.stage white = .waiting) (hb : s.stage black = .waiting)
    (hseat : ∀ q r, (s.sessions q).room = some r → ∃ room, s.rooms[r]? = some room) (q : SessionId) :
    Tells s (s.pair white black) (updates ++ s.introductions white black) q := by
  refine (hupdates.tells q).append ?_
  have hroom : ∀ {q}, q = white ∨ q = black →
      (s.pair white black).roomOf q = some (s.rooms.length, GameRoom.new white black) := by
    intro q hq
    refine roomOf_eq_some.2 ⟨?_, pair_new⟩
    rw [pair_seat hq]
  have hknown : ∀ {q}, q = white ∨ q = black → (s.pair white black).account q =
      { s.account q with stage := .playing (if q = white then "white" else "black") Position.init.getFen } := by
    intro q hq
    rw [account, account, pair_authorized, pair_rating, stage_playing (hroom hq)]
    rfl
  unfold Tells
  by_cases hqw : q = white
  · subst hqw
    rw [hknown (.inl rfl), if_pos rfl]
    simp [introductions, hne.symm, Account.hear, account, hw]
  · by_cases hqb : q = black
    · subst hqb
      rw [hknown (.inr rfl), if_neg hqw]
      simp [introductions, hne, Account.hear, account, hb]
    · have hother : ¬ (q = white ∨ q = black) := not_or.2 ⟨hqw, hqb⟩
      have hsame : (s.pair white black).account q = s.account q := by
        refine account_congr (pair_authorized q) (pair_rating q) (stage_congr ?_ ?_ fun r hr => ?_)
        · rw [pair_other hother]
        · rw [pair_other hother]
        · obtain ⟨room, hroom⟩ := hseat q r hr
          rw [hroom, pair_old hroom]
      rw [hsame]
      simp [introductions, Ne.symm hqw, Ne.symm hqb]

theorem pair_nick {white black : SessionId} (q : SessionId) : (s.pair white black).nick q = s.nick q :=
  pair_field Session.nick (fun _ _ _ => by rfl) q

theorem openRoom_told (s : Server) (white black : SessionId) :
    s.openRoom white black = ((s.openRoom white black).1, (s.openRoom white black).1.introductions white black) := rfl

/-- Two sessions in the queue are matched, and told so after the queue's size. -/
theorem tryMatchmake_told (env : Env) (hne : p ≠ q) (hp : (s.sessions p).inQueue = true)
    (hq : (s.sessions q).inQueue = true) (hqueue : s.queue = [p, q]) :
    ∃ white black updates, (white = p ∧ black = q ∨ white = q ∧ black = p) ∧ Updates s updates ∧
      s.tryMatchmake env = (s.pair white black, updates ++ s.introductions white black) := by
  have hperm := env.sort_perm s.rating s.queue
  have hmatch : ∀ {white black}, env.sort s.rating s.queue = [white, black] → white ≠ black →
      (s.sessions white).inQueue = true → (s.sessions black).inQueue = true → s.queue.Perm [white, black] →
      ∃ updates, Updates s updates ∧
        s.tryMatchmake env = (s.pair white black, updates ++ s.introductions white black) := by
    intro white black hsort hne hw hb hperm
    have hfirst : Updates s (s.removeFromQueue white).2 := removeFromQueue_updates fun _ => rfl
    have hsecond : Updates s ((s.removeFromQueue white).1.removeFromQueue black).2 :=
      removeFromQueue_updates fun _ => removeFromQueue_authorized
    refine ⟨_, hfirst.append hsecond, ?_⟩
    unfold tryMatchmake
    rw [hsort]
    dsimp only [bestOpponent, List.foldl_nil]
    rw [openRoom_told, openRoom_eq hne hw hb hperm, introductions, introductions, pair_nick, pair_nick]
  rw [hqueue] at hperm
  obtain hs | hs := List.perm_pair.1 hperm
  · obtain ⟨updates, hu, he⟩ := hmatch (hqueue ▸ hs) hne hp hq (hqueue ▸ .refl _)
    exact ⟨p, q, updates, .inl ⟨rfl, rfl⟩, hu, he⟩
  · obtain ⟨updates, hu, he⟩ := hmatch (hqueue ▸ hs) hne.symm hq hp (hqueue ▸ .swap ..)
    exact ⟨q, p, updates, .inr ⟨rfl, rfl⟩, hu, he⟩

theorem Lobby.seat_room (h : Lobby s) (q : SessionId) (r : RoomId) (hq : (s.sessions q).room = some r) :
    ∃ room, s.rooms[r]? = some room := by
  obtain ⟨room, hs, -⟩ := h.seated q r hq
  exact ⟨room, hs.here⟩

theorem tells_enqueued (hauth : (s.sessions p).authorized = true) (hroom : (s.sessions p).room = none)
    (hin : (s.sessions p).inQueue = false) (q : SessionId) : Tells s (s.enqueued p) [(p, .ok "queued")] q := by
  have hstage : (s.enqueued p).stage p = .waiting := by
    have hroom' : ((s.enqueued p).sessions p).room = none := (setInQueue_room true).trans hroom
    rw [stage_apart hroom', enqueued_inQueue, if_pos rfl]
    rfl
  have hauth' : ((s.enqueued p).sessions q).authorized = (s.sessions q).authorized := setInQueue_authorized true
  have hrating : (s.enqueued p).rating q = s.rating q := setInQueue_rating true
  unfold Tells
  by_cases hq : q = p
  · subst hq
    rw [account, account, hauth', hrating, hstage, stage_menu hroom hin, hauth]
    simp [Account.hear]
  · rw [told_other hq, account_congr hauth' hrating (stage_congr (setInQueue_room true) ?_ fun _ _ => rfl)]
    · rfl
    · rw [enqueued_inQueue, if_neg hq]

theorem handleQueue_tells (env : Env) (h : Lobby s) (p q : SessionId) :
    Tells s (s.handleQueue env p).1 (s.handleQueue env p).2 q := by
  unfold handleQueue
  split
  · exact tells_error _ p q
  rename_i hauth
  split
  · exact tells_error _ p q
  rename_i hroom
  split
  · exact tells_ok (by decide) p q
  rename_i hin
  simp only [Bool.not_eq_true', Bool.not_eq_false] at hauth
  simp only [Bool.not_eq_true] at hin
  have hroom : (s.sessions p).room = none := by simpa using hroom
  have henqueued := tells_enqueued hauth hroom hin q
  have hupdates : Updates (s.enqueued p) (s.enqueued p).broadcastQueueSize := broadcastQueueSize_updates fun _ => rfl
  have hfirst : Tells s (s.enqueued p) ((p, .ok "queued") :: (s.enqueued p).broadcastQueueSize) q :=
    henqueued.append (hupdates.tells q)
  refine hfirst.append ?_
  show Tells (s.enqueued p) ((s.enqueued p).tryMatchmake env).1 ((s.enqueued p).tryMatchmake env).2 q
  match hqueue : s.queue, h.waiting with
  | [], _ =>
    have hone : (s.enqueued p).queue = [p] := by rw [enqueued, hqueue]; rfl
    have hperm := env.sort_perm (s.enqueued p).rating (s.enqueued p).queue
    unfold tryMatchmake
    rw [hone] at hperm ⊢
    rw [List.perm_singleton.1 hperm]
    rfl
  | [p'], _ =>
    have htwo : (s.enqueued p).queue = [p', p] := by rw [enqueued, hqueue]; rfl
    have hin' : (s.sessions p').inQueue = true := (h.queued p').1 (by rw [hqueue]; exact List.mem_singleton_self p')
    have hne : p' ≠ p := by
      rintro rfl
      rw [hin] at hin'
      cases hin'
    have hq' : ((s.enqueued p).sessions p').inQueue = true := by rw [enqueued_inQueue, if_neg hne, hin']
    have hp' : ((s.enqueued p).sessions p).inQueue = true := by rw [enqueued_inQueue, if_pos rfl]
    have hwaits : (s.enqueued p).stage p = .waiting ∧ (s.enqueued p).stage p' = .waiting := by
      have hroom' : ∀ q, ((s.enqueued p).sessions q).room = (s.sessions q).room := fun q => setInQueue_room true
      constructor
      · rw [stage_apart ((hroom' p).trans hroom), hp']
        rfl
      · rw [stage_apart ((hroom' p').trans (h.apart p' hin')), hq']
        rfl
    have hseat : ∀ q r, ((s.enqueued p).sessions q).room = some r → ∃ room, (s.enqueued p).rooms[r]? = some room :=
      fun q r hr => h.seat_room q r ((setInQueue_room true).symm.trans hr)
    obtain ⟨white, black, updates, hor, hu, he⟩ := tryMatchmake_told env hne hq' hp' htwo
    rw [he]
    obtain ⟨rfl, rfl⟩ | ⟨rfl, rfl⟩ := hor
    · exact tells_pair hne hu hwaits.2 hwaits.1 hseat q
    · exact tells_pair hne.symm hu hwaits.1 hwaits.2 hseat q

/-! ## The room -/

theorem stage_seated (hs : Seats s r room) (hq : q = room.white ∨ q = room.black) :
    s.stage q = .playing (if q = room.white then "white" else "black") room.position.getFen := by
  refine stage_playing (roomOf_eq_some.2 ⟨?_, hs.here⟩)
  obtain rfl | rfl := hq
  · exact hs.white
  · exact hs.black

/-- Another game's progress is nothing to the session. -/
theorem setGame_other (h : Lobby s) (hs : Seats s r room) (room' : GameRoom) (hq : ¬(q = room.white ∨ q = room.black)) :
    (s.setGame r room').account q = s.account q := by
  refine account_congr rfl rfl (stage_congr rfl rfl fun r' hr' => List.getElem?_set_ne ?_)
  rintro rfl
  exact hq (h.seats hs hr')

theorem setGame_player (hs : Seats s r room) (hw : room'.white = room.white) (hb : room'.black = room.black)
    (hq : q = room.white ∨ q = room.black) : (s.setGame r room').account q = { s.account q with
      stage := .playing (if q = room.white then "white" else "black") room'.position.getFen } := by
  rw [account, stage_seated (hs.setGame hw hb) (by rwa [hw, hb]), hw]
  rfl

/-- The players are told the move, and nobody else. -/
theorem tells_move (h : Lobby s) (hs : Seats s r room) (hw : room'.white = room.white) (hb : room'.black = room.black)
    (src dst nick : String) (q : SessionId) :
    Tells s (s.setGame r room') (broadcast room' (.move src dst nick room'.position.getFen)) q := by
  have hne : room'.white ≠ room'.black := by rw [hw, hb]; exact hs.ne
  unfold Tells
  rw [told_broadcast hne, hw, hb]
  by_cases hq : q = room.white ∨ q = room.black
  · rw [if_pos hq, setGame_player hs hw hb hq, account, stage_seated hs hq]
    rfl
  · rw [if_neg hq, setGame_other h hs room' hq]
    rfl

/-- A change of the room that leaves the board as it is. -/
theorem tells_kept (h : Lobby s) (hs : Seats s r room) (hw : room'.white = room.white) (hb : room'.black = room.black)
    (hpos : room'.position = room.position) (q : SessionId) : Tells s (s.setGame r room') [] q := by
  by_cases hq : q = room.white ∨ q = room.black
  · have hsame : (s.setGame r room').account q = s.account q := by
      rw [setGame_player hs hw hb hq, hpos, ← stage_seated hs hq]
      rfl
    exact congrArg some hsame.symm
  · exact congrArg some (setGame_other h hs room' hq).symm

/-- A message that may come during a game, and changes nothing. -/
theorem tells_aside (hs : Seats s r room) {msg : Message}
    (hmsg : ∀ authorized rating youAre fen, Account.hear ⟨authorized, rating, .playing youAre fen⟩ msg =
      some ⟨authorized, rating, .playing youAre fen⟩) (hp : p = room.white ∨ p = room.black) (q : SessionId) :
    Tells s s [(p, msg)] q := by
  unfold Tells
  by_cases hq : p = q
  · subst hq
    rw [told_cons, if_pos rfl, Account.hearAll_cons, account, stage_seated hs hp, hmsg]
    rfl
  · rw [told_other (Ne.symm hq)]
    rfl

theorem tells_check (hs : Seats s r room) (side : String) (q : SessionId) :
    Tells s s (broadcast room (.check side)) q := by
  have hmsg : ∀ authorized rating youAre fen, Account.hear ⟨authorized, rating, .playing youAre fen⟩ (.check side) =
      some ⟨authorized, rating, .playing youAre fen⟩ := fun _ _ _ _ => rfl
  exact (tells_aside hs hmsg (.inl rfl) q).append (tells_aside hs hmsg (.inr rfl) q)

/-! ## The end of a game -/

/-- What the winner and the loser are told. -/
def ratingUpdates (t : Server) : Option (SessionId × SessionId) → Outbox
  | none => []
  | some (winner, loser) => [(winner, .ratingUpdate (t.rating winner)), (loser, .ratingUpdate (t.rating loser))]

theorem rateWinner_told (env : Env) (r : RoomId) (room : GameRoom) (winner : Option SessionId) (s : Server) :
    (s.rateWinner env r room winner).2 =
      ratingUpdates (s.rate env r (room.decides winner)) (room.decides winner) := by
  unfold rateWinner GameRoom.decides
  cases winner with
  | none => rfl
  | some w =>
    simp only [Option.bind_some]
    cases room.opponentOf w <;> rfl

/-- Winner and loser of a game are its players. -/
def Between (room : GameRoom) (decided : Option (SessionId × SessionId)) : Prop :=
  ∀ x, decided = some x → x = (room.white, room.black) ∨ x = (room.black, room.white)

theorem between_decides (hne : room.white ≠ room.black) (winner : Option SessionId) :
    Between room (room.decides winner) := by
  intro x hx
  obtain ⟨w, -, hx⟩ := Option.bind_eq_some_iff.1 hx
  obtain ⟨loser, hl, rfl⟩ := Option.map_eq_some_iff.1 hx
  have hor := opponentOf_eq hne hl
  simp only [Prod.mk.injEq] at hor ⊢
  tauto

theorem rate_account (env : Env) (r : RoomId) (decided : Option (SessionId × SessionId)) (s : Server) (q : SessionId) :
    (s.rate env r decided).account q = { s.account q with rating := (s.rate env r decided).rating q } := by
  have hstage : (s.rate env r decided).stage q = s.stage q :=
    stage_congr (rate_room ..) (rate_inQueue ..) fun r' _ => by rw [rate_rooms]
  rw [account, rate_authorized, hstage]
  rfl

theorem told_ratingUpdates {winner loser : SessionId} (hne : winner ≠ loser) (t : Server) (q : SessionId) :
    told q (ratingUpdates t (some (winner, loser))) =
      if q = winner ∨ q = loser then [.ratingUpdate (t.rating q)] else [] := by
  by_cases hw : q = winner
  · subst hw
    simp [ratingUpdates, hne.symm]
  · by_cases hl : q = loser
    · subst hl
      simp [ratingUpdates, hne]
    · simp [ratingUpdates, hw, hl, Ne.symm hw, Ne.symm hl]

theorem Seats.signedIn (h : Lobby s) (hs : Seats s r room) (hq : q = room.white ∨ q = room.black) :
    (s.sessions q).authorized = true := by
  refine h.authorized q (.inr ?_)
  obtain rfl | rfl := hq
  · rw [hs.white]
    exact Option.some_ne_none r
  · rw [hs.black]
    exact Option.some_ne_none r

theorem Between.players {winner loser : SessionId} (hs : Seats s r room) (hd : Between room (some (winner, loser))) :
    winner ≠ loser ∧ ∀ q, q = winner ∨ q = loser ↔ q = room.white ∨ q = room.black := by
  obtain hx | hx := hd _ rfl <;> cases hx
  · exact ⟨hs.ne, fun _ => .rfl⟩
  · exact ⟨hs.ne.symm, fun _ => or_comm⟩

theorem tells_rate (env : Env) (h : Lobby s) (hs : Seats s r room) {decided : Option (SessionId × SessionId)}
    (hd : Between room decided) (q : SessionId) :
    Tells s (s.rate env r decided) (ratingUpdates (s.rate env r decided) decided) q := by
  unfold Tells
  rw [rate_account]
  cases decided with
  | none => rfl
  | some x =>
    obtain ⟨winner, loser⟩ := x
    obtain ⟨hne, hplayers⟩ := hd.players hs
    rw [told_ratingUpdates hne]
    by_cases hq : q = winner ∨ q = loser
    · have hauth : (s.account q).authorized = true := hs.signedIn h ((hplayers q).1 hq)
      rw [if_pos hq]
      exact Account.hearAll_rating hauth _
    · have hsame : (s.rate env r (some (winner, loser))).rating q = s.rating q := by
        refine rate_rating env r _ s fun x hx => ?_
        cases hx
        exact not_or.1 hq
      rw [if_neg hq, hsame]
      rfl

/-- After a game its players are in the menu, and everyone else where they were. -/
theorem finish_account (env : Env) (h : Lobby s) (hs : Seats s r room) (decided : Option (SessionId × SessionId))
    (write : Database → Database) (entries : List Entry) (q : SessionId) :
    (s.finish env r room decided write entries).account q =
      if q = room.white ∨ q = room.black then { (s.rate env r decided).account q with stage := .menu }
      else (s.rate env r decided).account q := by
  have hroom := finish_room env r room decided write entries s q
  have hin := finish_inQueue env r room decided write entries s q
  by_cases hq : q = room.white ∨ q = room.black
  · rw [if_pos hq] at hroom ⊢
    have hidle : (s.sessions q).inQueue = false := by
      cases hin' : (s.sessions q).inQueue with
      | false => rfl
      | true =>
        have hnone := h.apart q hin'
        obtain rfl | rfl := hq
        · rw [hs.white] at hnone; cases hnone
        · rw [hs.black] at hnone; cases hnone
    rw [account, stage_menu hroom (hin.trans hidle), finish_authorized, finish_rating, account, rate_authorized]
  · rw [if_neg hq] at hroom ⊢
    refine account_congr ?_ (finish_rating ..) (stage_congr ?_ ?_ fun r' _ => ?_)
    · rw [finish_authorized, rate_authorized]
    · rw [hroom, rate_room]
    · rw [hin, rate_inQueue]
    · rw [finish_rooms, rate_rooms]

theorem endGame_told (env : Env) (r : RoomId) (room : GameRoom) (e : Ending) (s : Server) :
    ∃ winner, (s.endGame env r room e).2 =
      ratingUpdates (s.rate env r (room.decides e.winner)) (room.decides e.winner) ++
        broadcast room (.gameOver e.result.text winner) := by
  refine ⟨e.winner.map (s.rateWinner env r room e.winner).1.nick, ?_⟩
  rw [← rateWinner_told]
  rfl

theorem endGame_tells (env : Env) (h : Lobby s) (hs : Seats s r room) (e : Ending) (q : SessionId) :
    Tells s (s.endGame env r room e).1 (s.endGame env r room e).2 q := by
  obtain ⟨winner, hout⟩ := endGame_told env r room e s
  rw [hout, endGame_eq]
  refine (tells_rate env h hs (between_decides hs.ne e.winner) q).append ?_
  unfold Tells
  rw [finish_account env h hs, told_broadcast hs.ne]
  by_cases hq : q = room.white ∨ q = room.black
  · rw [if_pos hq, if_pos hq, rate_account, account, stage_seated hs hq]
    rfl
  · rw [if_neg hq, if_neg hq]
    rfl

/-! ## Leaving -/

/-- The one who leaves knows by itself that it is in the menu again. The others are told. -/
def Departs (s t : Server) (out : Outbox) (p : SessionId) : Prop :=
  ∀ q, ∃ k, (s.account q).hearAll (told q out) = some k ∧ t.account q = if q = p then { k with stage := .menu } else k

theorem roomDisconnect_told (env : Env) (r : RoomId) (room : GameRoom) (who other : SessionId) (s : Server)
    (hother : room.opponentOf who = some other) : (s.roomDisconnect env r room who).2 =
      (other, .opponentDisconnected) ::
        ratingUpdates (s.rate env r (some (other, who))) (some (other, who)) := by
  unfold roomDisconnect
  rw [hother]
  rfl

theorem roomDisconnect_departs (env : Env) (h : Lobby s) (hs : Seats s r room) (hp : p = room.white ∨ p = room.black) :
    Departs s (s.roomDisconnect env r room p).1 (s.roomDisconnect env r room p).2 p := by
  obtain ⟨other, hother⟩ : ∃ other, room.opponentOf p = some other := by
    obtain rfl | rfl := hp
    · exact ⟨_, opponent_white⟩
    · exact ⟨_, opponent_black hs.ne⟩
  have hd : Between room (some (other, p)) := by
    intro x hx
    cases hx
    exact opponentOf_eq hs.ne hother
  obtain ⟨hne, hplayers⟩ := hd.players hs
  intro q
  rw [roomDisconnect_told env r room p other s hother, roomDisconnect_eq, hother, Option.map_some,
    finish_account env h hs, rate_account, told_cons, told_ratingUpdates hne]
  by_cases hq : q = other ∨ q = p
  · have hauth : (s.account q).authorized = true := hs.signedIn h ((hplayers q).1 hq)
    rw [if_pos ((hplayers q).1 hq), if_pos hq]
    obtain rfl | rfl := hq
    · -- the opponent hears of both, and is back in the menu with the first message
      rw [if_pos rfl, Account.hearAll_cons, account, stage_seated hs ((hplayers q).1 (.inl rfl))]
      exact ⟨_, Account.hearAll_rating (k := ⟨_, _, .menu⟩) hauth _, (if_neg hne).symm⟩
    · rw [if_neg hne]
      exact ⟨_, Account.hearAll_rating hauth _, (if_pos rfl).symm⟩
  · have hsame : (s.rate env r (some (other, p))).rating q = s.rating q := by
      refine rate_rating env r _ s fun x hx => ?_
      cases hx
      exact not_or.1 hq
    rw [if_neg (fun hor => hq ((hplayers q).2 hor)), if_neg hq, if_neg fun he => hq (.inl he.symm), hsame]
    exact ⟨_, rfl, (if_neg fun he => hq (.inr he)).symm⟩

/-- Leaving the queue and the room. -/
theorem left_departs (env : Env) (h : Lobby s) (p : SessionId) :
    Departs s ((s.removeFromQueue p).1.leaveRoom env p).1
      ((s.removeFromQueue p).2 ++ ((s.removeFromQueue p).1.leaveRoom env p).2) p := by
  cases hin : (s.sessions p).inQueue with
  | true =>
    have hroom := h.apart p hin
    have hroom' : ((s.removeFromQueue p).1.sessions p).room = none := by
      rw [removeFromQueue_waiting hin]
      exact (setInQueue_room false).trans hroom
    rw [leaveRoom_none env hroom', List.append_nil]
    intro q
    have hupdates : Updates s (s.removeFromQueue p).2 := removeFromQueue_updates fun _ => rfl
    refine ⟨s.account q, hupdates.tells q, ?_⟩
    rw [removeFromQueue_waiting hin]
    split
    · rename_i hq
      subst hq
      have hidle : ((s.setInQueue q false).sessions q).inQueue = false := by rw [setInQueue_inQueue, if_pos rfl]
      have hstage := stage_menu (s := { s.setInQueue q false with queue := s.queue.erase q })
        ((setInQueue_room false).trans hroom) hidle
      rw [account, hstage, account]
      exact congrArg₂ (Account.mk · · .menu) (setInQueue_authorized false) (setInQueue_rating false)
    · rename_i hq
      refine account_congr (setInQueue_authorized false) (setInQueue_rating false)
        (stage_congr (setInQueue_room false) ?_ fun _ _ => rfl)
      exact (setInQueue_inQueue false).trans (if_neg hq)
  | false =>
    have hstay : s.removeFromQueue p = (s, []) := by
      unfold removeFromQueue
      rw [if_neg (by simp [hin])]
    rw [hstay, List.nil_append]
    cases hr : s.roomOf p with
    | none =>
      have hroom := h.roomOf_none hr
      rw [leaveRoom_none env hroom]
      intro q
      refine ⟨_, rfl, ?_⟩
      split
      · rename_i hq
        subst hq
        rw [account, stage_menu hroom hin]
      · rfl
    | some x =>
      obtain ⟨hs, hp⟩ := h.roomOf hr
      unfold leaveRoom
      rw [hr]
      exact roomDisconnect_departs env h hs hp

theorem handleLeave_tells (env : Env) (h : Lobby s) (p q : SessionId) :
    Tells s (s.handleLeave env p).1 (s.handleLeave env p).2 q := by
  obtain ⟨k, hk, hq⟩ := left_departs env h p q
  have hroom := (left_change env h p ((s.removeFromQueue p).1.leaveRoom env p).1.allPlayers .leave).2
  unfold handleLeave
  dsimp only
  unfold Tells
  rw [setRoom_self hroom, told_append, Account.hearAll_append, hk, Option.bind_some, hq]
  split
  · rename_i he
    subst he
    rw [told_cons, if_pos rfl]
    rfl
  · rename_i he
    rw [told_other he]
    rfl

/-! ## The other handlers -/

theorem handleAuth_tells (env : Env) (p : SessionId) (nick password : String) (s : Server) (q : SessionId) :
    Tells s (s.handleAuth env p nick password).1 (s.handleAuth env p nick password).2 q := by
  unfold handleAuth
  split
  · exact tells_error _ p q
  split
  · rename_i info db _
    have hsession : ∀ {x}, (setSession { s with db } p (loggedIn info)).sessions x =
        if x = p then loggedIn info (s.sessions p) else s.sessions x := sessions_setSession ..
    have hstage : (setSession { s with db } p (loggedIn info)).stage q = s.stage q := by
      refine stage_congr (login_seat info db) ?_ fun _ _ => rfl
      exact setSession_field (·.inQueue) (fun _ => by rfl) { s with db } p q
    show Tells s (setSession { s with db } p (loggedIn info)) _ q
    unfold Tells
    by_cases hq : q = p
    · subst hq
      rw [account, account, hstage, hsession, if_pos rfl, rating, rating, hsession, if_pos rfl]
      simp [Account.hear, loggedIn, rating, sessions_setSession]
    · rw [account, account, hstage, hsession, if_neg hq, rating, rating, hsession, if_neg hq]
      simp [Ne.symm hq]
  · exact tells_error _ p q

theorem handleLeaderboard_tells (p q : SessionId) :
    Tells s (s.handleLeaderboard p).1 (s.handleLeaderboard p).2 q := by
  unfold handleLeaderboard
  split
  · exact tells_error _ p q
  · rename_i hauth
    have hauth' : (s.sessions p).authorized = true := by simpa using hauth
    have hsigned : (s.account p).authorized = true := hauth'
    unfold Tells
    by_cases hq : p = q
    · subst hq
      rw [told_cons, if_pos rfl, Account.hearAll_cons, Account.hear, if_pos hsigned]
      rfl
    · rw [told_other (Ne.symm hq)]
      rfl

theorem handleChat_tells (h : Lobby s) (p : SessionId) (text : String) (q : SessionId) :
    Tells s (s.handleChat p text).1 (s.handleChat p text).2 q := by
  unfold handleChat
  split
  · exact tells_error _ p q
  split
  · exact tells_error _ p q
  rename_i hr
  obtain ⟨hs, -⟩ := h.roomOf hr
  refine Tells.append (t := s) ?_ (tells_ok (by decide) p q)
  split
  · rfl
  · rename_i hother
    exact tells_aside hs (fun _ _ _ _ => rfl) (opponentOf_seat hother) q

theorem handleMove_tells (env : Env) (h : Lobby s) (p : SessionId) (src dst promotion : String) (q : SessionId) :
    Tells s (s.handleMove env p src dst promotion).1 (s.handleMove env p src dst promotion).2 q := by
  unfold handleMove
  split
  · exact tells_error _ p q
  split
  · exact tells_error _ p q
  rename_i r room hr
  obtain ⟨hs, -⟩ := h.roomOf hr
  unfold roomMove
  split
  · exact tells_error _ p q
  rename_i room' ending hm
  obtain ⟨m, hacc⟩ := onMove_ok hm
  have hw : room'.white = room.white := by rw [hacc.room]
  have hb : room'.black = room.black := by rw [hacc.room]
  have hmove := tells_move h hs hw hb src dst (s.nick p) q
  have hs' := hs.setGame hw hb
  split
  · exact hmove.append (endGame_tells env (h.setGame hs hw hb) hs' _ q)
  · dsimp only
    split
    · exact hmove.append (tells_check hs' _ q)
    · exact hmove

theorem handleDraw_tells (env : Env) (h : Lobby s) (p : SessionId) (action : String) (q : SessionId) :
    Tells s (s.handleDraw env p action).1 (s.handleDraw env p action).2 q := by
  unfold handleDraw
  split
  · exact tells_error _ p q
  split
  · exact tells_error _ p q
  rename_i r room hr
  obtain ⟨hs, -⟩ := h.roomOf hr
  dsimp only
  generalize (if action.isEmpty then "offer" else action) = action
  split
  · -- an offer
    have hkept : (room.onDrawRequest p).white = room.white ∧ (room.onDrawRequest p).black = room.black ∧
        (room.onDrawRequest p).position = room.position := by
      unfold GameRoom.onDrawRequest
      split_ifs <;> exact ⟨rfl, rfl, rfl⟩
    obtain ⟨hw, hb, hpos⟩ := hkept
    refine (tells_kept h hs hw hb hpos q).append (Tells.append (t := s.setGame r (room.onDrawRequest p)) ?_
      (tells_ok (by decide) p q))
    split
    · rfl
    · rename_i hother
      have hor := opponentOf_seat hother
      rw [← hw, ← hb] at hor
      exact tells_aside (hs.setGame hw hb) (fun _ _ _ _ => rfl) hor q
  split
  · split
    · exact (endGame_tells env h hs _ q).append (tells_ok (by decide) p q)
    · exact tells_error _ p q
  split
  · split
    · rename_i room' other hd
      have hkept : room'.white = room.white ∧ room'.black = room.black ∧ room'.position = room.position ∧
          (other = room.white ∨ other = room.black) := by
        unfold GameRoom.onDrawDecline at hd
        split_ifs at hd <;> cases hd <;> simp
      obtain ⟨hw, hb, hpos, hor⟩ := hkept
      rw [← hw, ← hb] at hor
      exact (tells_kept h hs hw hb hpos q).append ((tells_aside (hs.setGame hw hb) (fun _ _ _ _ => rfl) hor q).append
        (tells_ok (by decide) p q))
    · exact tells_error _ p q
  · exact tells_error _ p q

/-- The test for authorization that `handle_command` makes. -/
theorem guarded_tells {refused : Bool} {text : String} {handled : Server × Outbox}
    (h : refused = false → Tells s handled.1 handled.2 q) :
    Tells s (if refused then (s, [(p, .error text)]) else handled).1
      (if refused then (s, [(p, .error text)]) else handled).2 q := by
  cases refused with
  | true => exact tells_error _ p q
  | false => exact h rfl

theorem handleCommand_tells (env : Env) (h : Lobby s) (p : SessionId) (cmd : Command) (q : SessionId) :
    Tells s (s.handleCommand env p cmd).1 (s.handleCommand env p cmd).2 q := by
  cases cmd with
  | invalid => exact tells_error _ p q
  | ping => exact tells_ok (by decide) p q
  | auth nick password => exact handleAuth_tells env p nick password s q
  | leaderboard => exact handleLeaderboard_tells p q
  | queue => exact guarded_tells fun _ => handleQueue_tells env h p q
  | leave => exact guarded_tells fun _ => handleLeave_tells env h p q
  | chat text => exact guarded_tells fun _ => handleChat_tells h p text q
  | move src dst promotion => exact guarded_tells fun _ => handleMove_tells env h p src dst promotion q
  | draw action => exact guarded_tells fun _ => handleDraw_tells env h p action q
  | unknown => exact guarded_tells fun _ => tells_error _ p q

/-! ## Runs -/

/-- What one event is to the session. -/
def newsOf (env : Env) (p : SessionId) (x : Server × Event) : List News :=
  (told p (x.1.handle env x.2).2).map .message ++ if x.2 = .disconnect p then [.lost] else []

/-- All that happens to a session in a run. -/
def news (env : Env) (p : SessionId) (l : List (Server × Event)) : List News := l.flatMap (newsOf env p)

theorem onDisconnect_departs (env : Env) (h : Lobby s) (p : SessionId) :
    Departs s (s.onDisconnect env p).1 (s.onDisconnect env p).2 p := by
  intro q
  obtain ⟨k, hk, hq⟩ := left_departs env h p q
  refine ⟨k, ?_, hq⟩
  have hauth : ((s.onDisconnect env p).1.sessions q).authorized = k.authorized := by
    have heq : ((s.onDisconnect env p).1.account q).authorized = k.authorized := by
      rw [show (s.onDisconnect env p).1.account q = _ from hq]
      split <;> rfl
    exact heq
  show (s.account q).hearAll (told q ((s.removeFromQueue p).2 ++ ((s.removeFromQueue p).1.leaveRoom env p).2 ++
    (s.onDisconnect env p).1.broadcastQueueSize)) = some k
  rw [told_append, Account.hearAll_append, hk, Option.bind_some]
  refine Account.hearAll_updates fun msg hmsg => ?_
  obtain ⟨hsigned, n, hn⟩ := broadcastQueueSize_updates (s := (s.onDisconnect env p).1) (fun _ => rfl) _
      (mem_told.1 hmsg)
  exact ⟨hauth.symm.trans hsigned, n, hn⟩

theorem handle_told (env : Env) (h : Lobby s) (ev : Event) (p : SessionId) :
    (s.account p).learnAll (newsOf env p (s, ev)) = some ((s.handle env ev).1.account p) := by
  unfold newsOf
  rw [Account.learnAll_append, Account.learnAll_messages]
  cases ev with
  | connect q => rfl
  | command q cmd =>
    have hk : (s.account p).hearAll (told p (s.handleCommand env q cmd).2) = _ := handleCommand_tells env h q cmd p
    show ((s.account p).hearAll (told p (s.handleCommand env q cmd).2)).bind _ = _
    rw [hk, if_neg (by simp)]
    rfl
  | disconnect q =>
    obtain ⟨k, hk, hq⟩ := onDisconnect_departs env h q p
    show ((s.account p).hearAll (told p (s.onDisconnect env q).2)).bind _ = some ((s.onDisconnect env q).1.account p)
    rw [hk, hq]
    by_cases he : p = q
    · subst he
      rw [if_pos rfl, if_pos rfl]
      rfl
    · rw [if_neg he, if_neg (by simpa using Ne.symm he)]
      rfl

/-- What a session learns in a run is its account. -/
theorem news_account {l : List (Server × Event)} (h : Run (Handled env) init l s) (p : SessionId) :
    Account.new.learnAll (news env p l) = some (s.account p) := by
  induction h with
  | nil => rfl
  | snoc hrun hh ih =>
    rw [news, List.flatMap_append, Account.learnAll_append, ← news, ih, Option.bind_some, List.flatMap_singleton,
      handle_told env (Reached.lobby ⟨_, hrun⟩), hh]

theorem stage_cases (h : Lobby s) (p : SessionId) :
    (s.stage p = .waiting ↔ p ∈ s.queue) ∧ ∀ youAre fen, s.stage p = .playing youAre fen ↔ ∃ r room,
      s.roomOf p = some (r, room) ∧ youAre = (if p = room.white then "white" else "black") ∧
        fen = room.position.getFen := by
  rw [h.queued]
  cases hr : s.roomOf p with
  | some x =>
    obtain ⟨r, room⟩ := x
    have hidle : (s.sessions p).inQueue ≠ true := by
      intro hin
      have hnone := h.apart p hin
      rw [(roomOf_eq_some.1 hr).1] at hnone
      cases hnone
    rw [stage_playing hr]
    refine ⟨by simp [hidle], fun youAre fen => ?_⟩
    simp only [Stage.playing.injEq, Option.some.injEq, Prod.mk.injEq]
    constructor
    · rintro ⟨rfl, rfl⟩
      exact ⟨r, room, ⟨rfl, rfl⟩, rfl, rfl⟩
    · rintro ⟨r', room', ⟨rfl, rfl⟩, rfl, rfl⟩
      exact ⟨rfl, rfl⟩
  | none =>
    rw [stage_apart (h.roomOf_none hr)]
    cases (s.sessions p).inQueue <;> simp

/-- In every run, every message comes at its time, and from the messages a client knows whether it has signed in, its
rating, whether it waits, and in a game its colour and the board, as the server has them. -/
theorem account_told {l : List (Server × Event)} (h : Run (Handled env) init l s) (p : SessionId) :
    ∃ k, Account.new.learnAll (news env p l) = some k ∧ k.authorized = (s.sessions p).authorized ∧
      k.rating = s.rating p ∧ (k.stage = .waiting ↔ p ∈ s.queue) ∧
      ∀ youAre fen, k.stage = .playing youAre fen ↔ ∃ r room, s.roomOf p = some (r, room) ∧
        youAre = (if p = room.white then "white" else "black") ∧ fen = room.position.getFen := by
  obtain ⟨hwaiting, hplaying⟩ := stage_cases (Reached.lobby ⟨_, h⟩) p
  exact ⟨s.account p, news_account h p, rfl, rfl, hwaiting, hplaying⟩

/-- The second player of the first game, after the first move. -/
theorem account_told_opening : (news .even 1 (steps .even init (opening ++ plies true [("e2", "e4")]))).length = 9 ∧
    ∃ k, Account.new.learnAll (news .even 1 (steps .even init (opening ++ plies true [("e2", "e4")]))) = some k ∧
      k.authorized = true ∧ k.rating = 1000 := by
  obtain ⟨k, hk, hauth, hrating, -⟩ := account_told (steps_run .even (opening ++ plies true [("e2", "e4")])) 1
  exact ⟨by decide +kernel, k, hk, hauth.trans (by decide +kernel), hrating.trans (by decide +kernel)⟩

end Server

end ChessGame
