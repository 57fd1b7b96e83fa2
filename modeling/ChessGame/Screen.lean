import ChessGame.Messages
import ChessGame.Transcripts
/-!
# The console's screen

The main loop of `client.cpp`: what is typed and what comes in are handled as they come.
Whatever is typed in between, a client that has handled the lines of the messages that
the server has sent shows the board of its room.
-/
open Programs Runs

namespace ChessGame

/-! ## What is typed -/

namespace ClientUi

/-- `std::isspace` -/
def isSpace (c : Char) : Bool := c = ' ' || ('\t' ≤ c && c ≤ '\r')

/-- `iss >> word`, and what is left. -/
def readWord (cs : List Char) : String × List Char :=
  let cs := cs.dropWhile isSpace
  (String.ofList (cs.takeWhile (!isSpace ·)), cs.dropWhile (!isSpace ·))

/-- `{{key, text}, …}` -/
def payload (fields : List (String × String)) : Json :=
  .object (fields.foldl (fun members field => Json.set field.1 (.string field.2) members) [])

/-- What a typed line changes, and the payload that is sent for it. `/quit` ends the loop. -/
def enter (ui : ClientUi) (line : String) : ClientUi × Option Json :=
  if line = "/quit" then (ui, none)
  else if line = "/queue" then ({ ui with status := "waiting" }, some (payload [("type", "queue")]))
  else if line = "/leaderboard" then (ui, some (payload [("type", "leaderboard")]))
  else if line = "/leave" then ({ ui with status := "menu" }, some (payload [("type", "leave")]))
  else if "/chat ".toList <+: line.toList then
    let text := String.ofList (line.toList.drop 6)
    (ui.pushFeed ("me: " ++ stdString text), some (payload [("type", "chat"), ("text", text)]))
  else if "/move ".toList <+: line.toList then
    let («from», rest) := readWord (line.toList.drop 6)
    let («to», _) := readWord rest
    if «from».isEmpty || «to».isEmpty then (ui.pushFeed "[hint] usage: /move e2 e4", none)
    else (ui, some (payload [("type", "move"), ("from", «from»), ("to", «to»)]))
  else if line = "/draw" then (ui, some (payload [("type", "draw"), ("action", "offer")]))
  else if line = "/draw accept" then (ui, some (payload [("type", "draw"), ("action", "accept")]))
  else if line = "/draw decline" then (ui, some (payload [("type", "draw"), ("action", "decline")]))
  else (ui.pushFeed "[hint] unknown command", none)

/-- Nothing that is typed changes the board. -/
theorem enter_board (ui : ClientUi) (line : String) : (ui.enter line).1.board = ui.board := by
  unfold enter
  dsimp only
  split_ifs <;> rfl

end ClientUi

/-- What the main loop goes through. -/
inductive Input where
  | typed (line : String)
  /-- A line goes to `process_incoming_line`. -/
  | received (line : List Byte)
  deriving DecidableEq

namespace Input

def line? : Input → Option (List Byte)
  | typed _ => none
  | received line => some line

end Input

/-- `none` if the board is left. -/
def ClientUi.take (toFloat : List Byte → Option String) (toInt : String → ℤ) (ui : ClientUi) : Input → Option ClientUi
  | .typed line => some (ui.enter line).1
  | .received line => (runs (processIncomingLine (Json.parse toFloat) toInt line) ui).map Prod.snd

def ClientUi.takeAll (toFloat : List Byte → Option String) (toInt : String → ℤ) (ui : ClientUi) (inputs : List Input) :
    Option ClientUi := inputs.foldlM (take toFloat toInt) ui

/-! ## The FENs of the server -/

variable {toFloat : List Byte → Option String} {toInt : String → ℤ} {msg : Message} {ui : ClientUi} {pos : Position}
  {fen : String} {last : Option String}

theorem rows_ascii (b : Board) : ∀ ch ∈ rowsChars b 8, ch.toNat < 128 := by
  intro ch hch
  obtain ⟨y, -, hch⟩ := List.mem_flatMap.1 hch
  unfold rowChars at hch
  obtain hch | hch := List.mem_append.1 hch
  · obtain ⟨k, hk, hch⟩ := List.mem_flatMap.1 hch
    cases k with
    | gap n =>
      have hn : 0 < n ∧ n ≤ 8 := by simpa [rowCells] using Gaps.gap_of_encode hk
      rw [tokenChars, digit_chars hn.1 hn.2, List.mem_singleton] at hch
      obtain ⟨hpos, hle⟩ := hn
      interval_cases n <;> rw [hch] <;> decide
    | item ct =>
      obtain ⟨c, t⟩ := ct
      rw [tokenChars, List.mem_singleton] at hch
      cases c <;> cases t <;> rw [hch] <;> decide
  · split at hch
    · rw [List.mem_singleton.1 hch]
      decide
    · cases hch

theorem stdString_append (s t : String) : stdString (s ++ t) = stdString s ++ stdString t := by
  apply String.toList_inj.1
  simp [stdString, chars, utf8]

/-- The placement field is the same in the client's `std::string`. -/
theorem stdString_getFen (h : pos.pieces.Valid) :
    placement (stdString pos.getFen) = placement pos.getFen ∧ stdString pos.getFen ≠ "" := by
  obtain ⟨rest, hfen⟩ := getFen_eq h
  have hrows : stdString (String.ofList (rowsChars pos.pieces.board 8)) =
      String.ofList (rowsChars pos.pieces.board 8) :=
    stdString_ascii (by rw [String.toList_ofList]; exact rows_ascii _)
  have hspace : stdString " " = " " := by rfl
  have hlist : (stdString pos.getFen).toList = rowsChars pos.pieces.board 8 ++ ' ' :: (stdString rest).toList := by
    rw [hfen, stdString_append, stdString_append, hrows, hspace]
    simp
  constructor
  · rw [placement_getFen h, placement, hlist,
      List.takeWhile_append_of_pos fun ch hch => decide_eq_true (rows_no_space _ ch hch)]
    simp
  · intro hempty
    rw [hempty] at hlist
    simp at hlist

theorem load_stdString (h : pos.pieces.Valid) (before : ConsoleBoard) :
    updateBoardFromFen before (stdString pos.getFen) = updateBoardFromFen before pos.getFen := by
  unfold updateBoardFromFen
  rw [(stdString_getFen h).1]

/-- The FEN of a position in order. -/
def Ordered (fen : String) : Prop := ∃ pos : Position, pos.pieces.Valid ∧ fen = pos.getFen

/-- The board as it is after loading the FEN. -/
def Loaded (fen : String) (board : ConsoleBoard) : Prop :=
  ∀ before, updateBoardFromFen before (stdString fen) = some board

/-- The FEN that the message brings, if any, is of a position in order. -/
def Message.InOrder (msg : Message) : Prop := ∀ fen ∈ msg.fen?, Ordered fen

theorem Message.InOrder.brought (h : Ordered fen) (hm : msg.fen? = some fen) : msg.InOrder := by
  intro fen' hfen
  rwa [← Option.some.inj (hm.symm.trans hfen)]

theorem Message.InOrder.none (hm : msg.fen? = none) : msg.InOrder := by
  intro fen hfen
  rw [hm] at hfen
  cases hfen

theorem Ordered.loaded (h : Ordered fen) : ∃ board, Loaded fen board := by
  obtain ⟨pos, hvalid, rfl⟩ := h
  obtain ⟨board, -, hshown⟩ := updateBoardFromFen_getFen hvalid fun _ _ => ""
  refine ⟨board, fun before => ?_⟩
  obtain ⟨board', hboard', hshown'⟩ := updateBoardFromFen_getFen hvalid before
  have hsame : board' = board := by
    funext y x
    rw [hshown, hshown']
  rw [load_stdString hvalid, hboard', hsame]

theorem Loaded.shown {board : ConsoleBoard} (hvalid : pos.pieces.Valid) (h : Loaded pos.getFen board) (y x : Fin 8) :
    board y x = mark (pos.pieces.board (8 * y + x)) := by
  obtain ⟨board', hboard', hshown⟩ := updateBoardFromFen_getFen hvalid board
  have hload := h board
  rw [load_stdString hvalid] at hload
  rw [← Option.some.inj (hboard'.symm.trans hload)]
  exact hshown y x

/-! ## The messages -/

/-- The last FEN that came. -/
def lastFen (last : Option String) (msg : Message) : Option String := msg.fen?.or last

/-- The screen shows the last FEN. -/
def Screen (last : Option String) (ui : ClientUi) : Prop := ∀ fen, last = some fen → Loaded fen ui.board

theorem Screen.hear (h : Screen last ui) (hfen : msg.InOrder) :
    ∃ ui', ui.hear msg = some ui' ∧ Screen (lastFen last msg) ui' := by
  have hboard := (foldl_pushFeed msg.notices ui).1
  cases hm : msg.fen? with
  | none =>
    refine ⟨_, by rw [ClientUi.hear, hm], fun fen hlast => ?_⟩
    rw [lastFen, hm] at hlast
    have hloaded := h fen hlast
    rwa [← hboard] at hloaded
  | some fen =>
    obtain ⟨board, hloaded⟩ := (hfen fen hm).loaded
    have hshown : ui.hear msg = some { msg.notices.foldl ClientUi.pushFeed ui with
        board, status := msg.status?.getD ui.status } := by
      simp only [ClientUi.hear, hm, ClientUi.updateBoardFromFen, hloaded _, Option.map_some]
    refine ⟨_, hshown, fun fen' hlast => ?_⟩
    rw [lastFen, hm] at hlast
    obtain rfl := Option.some.inj hlast
    exact hloaded

theorem Message.InOrder.readable (h : msg.InOrder) : ∀ fen ∈ msg.fen?, stdString fen ≠ "" := by
  intro fen hm
  obtain ⟨pos, hvalid, rfl⟩ := h fen hm
  exact (stdString_getFen hvalid).2

/-- Whatever messages come, with FENs of positions: the client parses every line, throws nothing, stays on its board and
changes what the messages are meant to change. -/
theorem process_lines (hint : ReadsInts toInt) {msgs : List Message} (hfits : ∀ msg ∈ msgs, msg.Fits)
    (hfen : ∀ msg ∈ msgs, msg.InOrder) (ui : ClientUi) : ∃ ui', msgs.foldlM ClientUi.hear ui = some ui' ∧
      runs (forM msgs fun msg => processIncomingLine (Json.parse toFloat) toInt msg.line) ui = some (.ok (), ui') := by
  induction msgs generalizing ui with
  | nil => exact ⟨ui, rfl, rfl⟩
  | cons msg msgs ih =>
    rw [List.forall_mem_cons] at hfits hfen
    have hnone : Screen none ui := by
      intro fen hlast
      cases hlast
    obtain ⟨ui₁, hhear, -⟩ := hnone.hear hfen.1
    obtain ⟨ui', hrest, hruns⟩ := ih hfits.2 hfen.2 ui₁
    refine ⟨ui', ?_, ?_⟩
    · rw [List.foldlM_cons, hhear]
      exact hrest
    · rw [List.forM_cons, runs_bind, hear_line hint hfits.1 hfen.1.readable, hhear]
      exact hruns

/-- A game is found and the first move made; then a new rating and the leaderboard, with a quotation mark in a nickname
and a negative rating. -/
def firstMoves (next : Position) : List Message :=
  [.matchFound "bob" Position.init.getFen "white", .move "e2" "e4" "alice" next.getFen, .ratingUpdate 1016,
    .leaderboard [(1, "a\"b", 1016), (2, "c", -5)]]

theorem process_lines_game : ∃ m next ui', Played Position.init m next ∧ (m.from, m.to) = (12, 28) ∧
    (firstMoves next).foldlM ClientUi.hear blank = some ui' ∧
    runs (forM (firstMoves next) fun msg => processIncomingLine (Json.parse fun _ => none) readInt msg.line) blank =
      some (.ok (), ui') ∧
    ui'.status = "in_game" ∧ ui'.board 3 4 = mark (some (.white, .pawn)) ∧ ui'.feed = ["[match] opponent: bob",
      "[move] alice: e2 -> e4", "[rating] now: 1016", "[leaderboard] top players:", "#1 a\"b (1016)", "#2 c (-5)"] := by
  have hgame : (Position.init.turn (12, 28)).any (fun x => ((firstMoves x.2).foldlM ClientUi.hear blank).any fun ui =>
      ui.status = "in_game" ∧ ui.board 3 4 = mark (some (.white, .pawn)) ∧ ui.feed = ["[match] opponent: bob",
        "[move] alice: e2 -> e4", "[rating] now: 1016", "[leaderboard] top players:", "#1 a\"b (1016)", "#2 c (-5)"]) =
          true := by decide +kernel
  obtain ⟨⟨m, next⟩, hturn, hshown⟩ := (Option.any_eq_true _ _).1 hgame
  obtain ⟨hplayed, hsquares⟩ := Position.turn_played hturn
  have hnext : next.pieces.Valid := (Reached.sound (Reachable.init.next hplayed)).valid
  have hfits : ∀ msg ∈ firstMoves next, msg.Fits := by
    simp only [firstMoves, List.forall_mem_cons]
    exact ⟨List.forall_mem_nil _, List.forall_mem_nil _, by decide, by decide, List.forall_mem_nil _⟩
  have horder : ∀ msg ∈ firstMoves next, msg.InOrder := by
    simp only [firstMoves, List.forall_mem_cons]
    exact ⟨.brought ⟨_, init_valid, rfl⟩ rfl, .brought ⟨_, hnext, rfl⟩ rfl, .none rfl, .none rfl, List.forall_mem_nil _⟩
  have hlines : ∃ ui', (firstMoves next).foldlM ClientUi.hear blank = some ui' ∧
      runs (forM (firstMoves next) fun msg => processIncomingLine (Json.parse fun _ => none) readInt msg.line) blank =
        some (.ok (), ui') := process_lines readInt_reads hfits horder blank
  obtain ⟨ui', hhear, hruns⟩ := hlines
  rw [hhear] at hshown
  exact ⟨m, next, ui', hplayed, hsquares, hhear, hruns, of_decide_eq_true hshown⟩

/-- Whatever is typed between them: the lines of messages are handled without leaving the board, and the last FEN is on
the screen. -/
theorem takeAll_screen (hint : ReadsInts toInt) {msgs : List Message} {inputs : List Input}
    (hlines : inputs.filterMap Input.line? = msgs.map Message.line) (hfits : ∀ msg ∈ msgs, msg.Fits)
    (hfen : ∀ msg ∈ msgs, msg.InOrder) (h : Screen last ui) :
    ∃ ui', ui.takeAll toFloat toInt inputs = some ui' ∧ Screen (msgs.foldl lastFen last) ui' := by
  induction inputs generalizing ui last msgs with
  | nil =>
    cases msgs with
    | nil => exact ⟨ui, rfl, h⟩
    | cons msg msgs => cases hlines
  | cons input inputs ih =>
    rw [ClientUi.takeAll, List.foldlM_cons]
    cases input with
    | typed line =>
      rw [List.filterMap_cons_none rfl] at hlines
      refine ih hlines hfits hfen fun fen hlast => ?_
      rw [ClientUi.enter_board]
      exact h fen hlast
    | received line =>
      have hline : (Input.received line).line? = some line := rfl
      rw [List.filterMap_cons_some hline] at hlines
      obtain ⟨msg, msgs, rfl, rfl, hrest⟩ := List.map_eq_cons_iff.1 hlines.symm
      rw [List.forall_mem_cons] at hfits hfen
      obtain ⟨ui', hhear, hscreen⟩ := h.hear hfen.1
      have htake : ui.take toFloat toInt (.received msg.line) = some ui' := by
        rw [ClientUi.take, hear_line hint hfits.1 hfen.1.readable, hhear]
        rfl
      rw [htake, List.foldl_cons]
      exact ih hrest.symm hfits.2 hfen.2 hscreen

/-! ## A run of the server -/

/-- A session in a game knows its board from the last FEN. -/
def Account.Knows (k : Account) (last : Option String) : Prop :=
  ∀ youAre fen, k.stage = .playing youAre fen → last = some fen

/-- A message without a FEN that leaves the stage as it is, or ends the game. -/
theorem Account.Knows.kept {k k' : Account} (h : k.Knows last) (hfen : msg.fen? = none)
    (hstage : k'.stage = k.stage ∨ ∀ youAre fen, k'.stage ≠ .playing youAre fen) : k'.Knows (lastFen last msg) := by
  intro youAre fen hk
  rw [lastFen, hfen]
  rcases hstage with he | hnone
  · exact h youAre fen (he.symm.trans hk)
  · exact absurd hk (hnone youAre fen)

theorem Account.Knows.hear {k k' : Account} (h : k.Knows last) (hm : k.hear msg = some k') :
    k'.Knows (lastFen last msg) := by
  cases msg with
  | ok text =>
    rw [Account.hear] at hm
    split_ifs at hm <;> cases hm
    · exact h.kept rfl (.inl rfl)
    · exact h.kept rfl (.inr (by simp))
    · exact h.kept rfl (.inr (by simp))
    · exact h.kept rfl (.inl rfl)
  | error text =>
    cases hm
    exact h.kept rfl (.inl rfl)
  | queueUpdate | leaderboard | ratingUpdate =>
    rw [Account.hear] at hm
    split_ifs at hm
    cases hm
    exact h.kept rfl (.inl rfl)
  | matchFound opponent fen youAre =>
    rw [Account.hear] at hm
    split_ifs at hm
    cases hm
    intro youAre' fen' hk
    cases hk
    rfl
  | move «from» «to» «by» fen =>
    rw [Account.hear] at hm
    split at hm <;> cases hm
    intro youAre' fen' hk
    cases hk
    rfl
  | chat | check | drawOffer | drawDeclined =>
    rw [Account.hear] at hm
    split at hm <;> cases hm
    exact h.kept rfl (.inl rfl)
  | gameOver | opponentDisconnected =>
    rw [Account.hear] at hm
    split at hm <;> cases hm
    exact h.kept rfl (.inr (by simp))

namespace Server

variable {env : Env} {s t : Server} {p : SessionId} {r : RoomId} {room : GameRoom} {ev : Event} {out : Outbox}
  {l : List (Server × Event)}

theorem Silent.fens (h : Silent out) : ∀ x ∈ out, x.2.InOrder := by
  intro x hx
  have hnote := h x hx
  generalize x.2 = msg at hnote
  cases msg with
  | matchFound | move => cases hnote
  | _ => exact .none rfl

/-- The FENs that are sent are of positions in order. -/
theorem Announced.fens (hg : Games s) (h : Announced s t out) : ∀ x ∈ out, x.2.InOrder := by
  cases h with
  | still hstill => exact hstill.silent.fens
  | @paired u white black first hroom hrooms hsilent hne heq hout =>
    have hinit : Ordered Position.init.getFen := ⟨Position.init, init_valid, rfl⟩
    rw [hout, List.forall_mem_append]
    exact ⟨hsilent.fens, List.forall_mem_cons.2 ⟨.brought hinit rfl, List.forall_mem_singleton.2 (.brought hinit rfl)⟩⟩
  | @moved r room room' src dst nick m rest hs hw hb hplayed hfrom hto hstill hout =>
    have hreached : ChessGame.Reached room'.position := (hg r room hs.here).next hplayed
    have hnext : Ordered room'.position.getFen := ⟨_, hreached.sound.valid, rfl⟩
    rw [hout, List.forall_mem_append]
    exact ⟨List.forall_mem_cons.2 ⟨.brought hnext rfl, List.forall_mem_singleton.2 (.brought hnext rfl)⟩,
      hstill.silent.fens⟩

theorem messages_fens (h : Run (Handled env) init l s) (p : SessionId) : ∀ msg ∈ messages env p l, msg.InOrder := by
  intro msg hmsg
  obtain ⟨x, hx, hmsg⟩ := List.mem_flatMap.1 hmsg
  have hr : Reached env x.1 := h.visited x hx
  exact (handle_announced env hr.lobby x.2).fens hr.games _ (mem_told.1 hmsg)

/-- The last FEN, as far as the news go. -/
def lastNews (last : Option String) : News → Option String
  | .message msg => lastFen last msg
  | .lost => last

theorem learn_knows {k k' : Account} {x : News} (h : k.Knows last) (hx : k.learn x = some k') :
    k'.Knows (lastNews last x) := by
  cases x with
  | message msg => exact h.hear hx
  | lost =>
    cases hx
    intro youAre fen hk
    cases hk

theorem learnAll_knows {k k' : Account} {xs : List News} (h : k.Knows last) (hk : k.learnAll xs = some k') :
    k'.Knows (xs.foldl lastNews last) := by
  induction xs generalizing k last with
  | nil =>
    cases hk
    exact h
  | cons x xs ih =>
    rw [Account.learnAll, List.foldlM_cons] at hk
    obtain ⟨k₁, hx, hxs⟩ := Option.bind_eq_some_iff.1 hk
    exact ih (learn_knows h hx) hxs

theorem news_lastFen (env : Env) (p : SessionId) (l : List (Server × Event)) :
    (news env p l).foldl lastNews last = (messages env p l).foldl lastFen last := by
  induction l generalizing last with
  | nil => rfl
  | cons x l ih =>
    have hone : (newsOf env p x).foldl lastNews last = (told p (x.1.handle env x.2).2).foldl lastFen last := by
      rw [newsOf, List.foldl_append, List.foldl_map]
      split <;> rfl
    rw [news, messages, List.flatMap_cons, List.flatMap_cons, List.foldl_append, List.foldl_append, hone]
    exact ih

/-- A session in a game was told the FEN of its board last. -/
theorem seated_lastFen (h : Run (Handled env) init l s) (hr : s.roomOf p = some (r, room)) :
    (messages env p l).foldl lastFen none = some room.position.getFen := by
  have hnew : Account.new.Knows none := by
    intro youAre fen hk
    cases hk
  rw [← news_lastFen]
  refine learnAll_knows hnew (news_account h p) (if p = room.white then "white" else "black") _ ?_
  exact stage_playing hr

/-- In every run, a console client that has handled the lines of all messages for its session, typing whatever it likes
in between, has never left its board, and when its session is in a game it shows the game's board. -/
theorem screen_follows (hint : ReadsInts toInt) (h : Run (Handled env) init l s) (p : SessionId)
    (hfits : ∀ msg ∈ messages env p l, msg.Fits) {inputs : List Input}
    (hlines : inputs.filterMap Input.line? = (messages env p l).map Message.line) (ui : ClientUi) :
    ∃ ui', ui.takeAll toFloat toInt inputs = some ui' ∧ ∀ r room, s.roomOf p = some (r, room) →
      ∀ y x : Fin 8, ui'.board y x = mark (room.position.pieces.board (8 * y + x)) := by
  have hnone : Screen none ui := by
    intro fen hlast
    cases hlast
  obtain ⟨ui', htake, hscreen⟩ := takeAll_screen hint hlines hfits (messages_fens h p) hnone
  refine ⟨ui', htake, fun r room hr => ?_⟩
  have hreached : ChessGame.Reached room.position := (Reached.games ⟨_, h⟩).seated hr
  exact (hscreen _ (seated_lastFen h hr)).shown hreached.sound.valid

/-- The second player asks for a game, and gets an answer ready to the first move. -/
theorem screen_follows_opening :
    ((after .even (opening ++ plies true [("e2", "e4")])).roomOf 1).isSome = true ∧
      ∃ ui', blank.takeAll (fun _ => none) readInt ([.typed "/queue"] ++
          (messages .even 1 (steps .even init (opening ++ plies true [("e2", "e4")]))).map (fun msg =>
            .received msg.line) ++
          [.typed "/move e7 e5"]) = some ui' ∧
        ∀ r room, (after .even (opening ++ plies true [("e2", "e4")])).roomOf 1 = some (r, room) →
          ∀ y x : Fin 8, ui'.board y x = mark (room.position.pieces.board (8 * y + x)) := by
  have hfits : ∀ msg ∈ messages .even 1 (steps .even init (opening ++ plies true [("e2", "e4")])), msg.Fits := by
    decide +kernel
  have hreceived : ∀ msgs : List Message, (msgs.map fun msg => Input.received msg.line).filterMap Input.line? =
      msgs.map Message.line := by
    intro msgs
    rw [List.filterMap_map, ← List.filterMap_eq_map]
    rfl
  have htyped : ∀ line, [Input.typed line].filterMap Input.line? = [] := fun _ => rfl
  refine ⟨by decide +kernel, screen_follows readInt_reads (steps_run ..) 1 hfits ?_ blank⟩
  rw [List.filterMap_append, List.filterMap_append, hreceived, htyped, htyped, List.nil_append, List.append_nil]

end Server

end ChessGame
