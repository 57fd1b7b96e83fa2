import ChessGame.Parser
import ChessGame.Incoming
import ChessGame.Server
/-!
# The server's messages

The JSON that the handlers of `server.cpp` and `game_room.cpp` send, and what the
console client makes of it: every message is parsed as the value that was dumped, and
shown by the branch that is meant for it.
-/
open Programs MonadExcept

namespace ChessGame

/-- `StatusResponse::to_json`. The server never gives it data. -/
def statusResponse (status message : String) : Json :=
  .object (Json.set "message" (.string message) (Json.set "status" (.string status) []))

/-- `msg["type"] = "event"`, `msg["event"]` and, member by member, `msg["data"]`. -/
def gameEvent (event : String) (data : List (String × Json)) : Json :=
  .object (Json.set "data" (.object data) (Json.set "event" (.string event) (Json.set "type" (.string "event") [])))

namespace Json

/-- An `int`. -/
def ofInt (x : ℤ) : Json := .number (toString x)

end Json

/-- A row of `get_top_players`. -/
def playerJson (player : ℤ × String × ℤ) : Json :=
  .object (Json.set "rating" (Json.ofInt player.2.2)
    (Json.set "nickname" (.string player.2.1) (Json.set "id" (Json.ofInt player.1) [])))

namespace Message

def toJson : Message → Json
  | .ok message => statusResponse "ok" message
  | .error message => statusResponse "error" message
  | .queueUpdate size => gameEvent "queue_update" (Json.set "size" (Json.ofInt size) [])
  | .matchFound opponent fen youAre =>
    let board := Json.set "you_are" (.string youAre) (Json.set "fen" (.string fen) [])
    gameEvent "match_found" (Json.set "board" (.object board) (Json.set "opponent" (.string opponent) []))
  | .chat «from» text => gameEvent "chat" (Json.set "text" (.string text) (Json.set "from" (.string «from») []))
  | .move «from» «to» «by» fen =>
    let data := Json.set "to" (.string «to») (Json.set "from" (.string «from») [])
    gameEvent "move" (Json.set "fen" (.string fen) (Json.set "by" (.string «by») data))
  | .check side => gameEvent "check" (Json.set "side" (.string side) [])
  | .gameOver result (some winner) =>
    gameEvent "game_over" (Json.set "winner" (.string winner) (Json.set "result" (.string result) []))
  | .gameOver result none => gameEvent "game_over" (Json.set "result" (.string result) [])
  | .ratingUpdate rating => gameEvent "rating_update" (Json.set "rating" (Json.ofInt rating) [])
  | .drawOffer «from» => gameEvent "draw_offer" (Json.set "from" (.string «from») [])
  | .drawDeclined «by» => gameEvent "draw_declined" (Json.set "by" (.string «by») [])
  | .opponentDisconnected =>
    .object (Json.set "event" (.string "opponent_disconnected") (Json.set "type" (.string "event") []))
  | .leaderboard players => gameEvent "leaderboard" (Json.set "players" (.array (players.map playerJson)) [])

/-- The numbers in the message. -/
def ints : Message → List ℤ
  | .queueUpdate size => [size]
  | .ratingUpdate rating => [rating]
  | .leaderboard players => players.flatMap fun player => [player.1, player.2.2]
  | _ => []

/-- They are `int`s. -/
def Fits (msg : Message) : Prop := ∀ x ∈ msg.ints, -2 ^ 31 ≤ x ∧ x < 2 ^ 31

instance (msg : Message) : Decidable msg.Fits := by unfold Fits; infer_instance

/-- The line that `ProtocolParser::serialize_json` makes of the message, without the newline. -/
def line (msg : Message) : List Byte := msg.toJson.dump

end Message

variable {toFloat : List Byte → Option String} {toInt : String → ℤ} {msg : Message} {ui : ClientUi}

/-! ## On the wire -/

namespace Json

theorem canonical_nil : Canonical toFloat (.object []) := .object .nil (List.forall_mem_nil _)

theorem canonical_int {x : ℤ} (h : -2 ^ 31 ≤ x ∧ x < 2 ^ 31) : Canonical toFloat (ofInt x) :=
  .number (number_int (by omega) (by omega))

theorem canonical_string {key s : String} {members : List (String × Json)} (h : Canonical toFloat (.object members)) :
    Canonical toFloat (.object (set key (.string s) members)) := h.set (.string s)

theorem canonical_event {event : String} {data : List (String × Json)} (h : Canonical toFloat (.object data)) :
    Canonical toFloat (gameEvent event data) := (canonical_string (canonical_string canonical_nil)).set h

end Json

open Json

/-- Every message is written so that it is read back. -/
theorem Message.toJson_canonical (h : msg.Fits) : Json.Canonical toFloat msg.toJson := by
  cases msg with
  | ok | error | opponentDisconnected => exact canonical_string (canonical_string canonical_nil)
  | queueUpdate size => exact canonical_event (canonical_nil.set (canonical_int (h size (List.mem_singleton_self _))))
  | matchFound =>
    exact canonical_event ((canonical_string canonical_nil).set (canonical_string (canonical_string canonical_nil)))
  | chat => exact canonical_event (canonical_string (canonical_string canonical_nil))
  | move =>
    exact canonical_event (canonical_string (canonical_string (canonical_string (canonical_string canonical_nil))))
  | drawOffer | drawDeclined | check => exact canonical_event (canonical_string canonical_nil)
  | gameOver result winner =>
    cases winner with
    | none => exact canonical_event (canonical_string canonical_nil)
    | some winner => exact canonical_event (canonical_string (canonical_string canonical_nil))
  | ratingUpdate rating =>
    exact canonical_event (canonical_nil.set (canonical_int (h rating (List.mem_singleton_self _))))
  | leaderboard players =>
    refine canonical_event (canonical_nil.set (.array fun x hx => ?_))
    obtain ⟨player, hp, rfl⟩ := List.mem_map.1 hx
    have hmem : ∀ y ∈ [player.1, player.2.2], y ∈ (Message.leaderboard players).ints := fun y hy =>
      List.mem_flatMap.2 ⟨player, hp, hy⟩
    have hid : Json.Canonical toFloat (.object (Json.set "id" (ofInt player.1) [])) :=
      canonical_nil.set (canonical_int (h player.1 (hmem _ (by simp))))
    exact (canonical_string hid).set (canonical_int (h player.2.2 (hmem _ (by simp))))

theorem Message.parse_line (h : msg.Fits) : Json.parse toFloat msg.line = .ok msg.toJson :=
  Json.parse_dump (toJson_canonical h)

/-! ## On the screen -/

/-- The `std::string` of a text. -/
def stdString (s : String) : String := chars (utf8 s)

/-- Of a text of one-byte characters it is the text. -/
theorem stdString_ascii {s : String} (h : ∀ c ∈ s.toList, c.toNat < 128) : stdString s = s := by
  have hbyte : ∀ c ∈ s.toList, String.utf8EncodeChar c = [UInt8.ofNat c.toNat] := fun c hc =>
    if_pos (Nat.le_of_lt_succ (h c hc))
  have hchar : ∀ c ∈ s.toList, Char.ofNat (UInt8.ofNat c.toNat).toNat = c := by
    intro c hc
    rw [UInt8.toNat_ofNat', Nat.mod_eq_of_lt ((h c hc).trans (by decide)), Char.ofNat_toNat]
  rw [stdString, chars, utf8, List.map_flatMap]
  rw [List.flatMap_congr fun c hc => by rw [hbyte c hc, List.map_singleton, hchar c hc], List.flatMap_singleton',
    String.ofList_toList]

/-- What `game_over` is shown as. -/
def verdictNotice (result winner : String) : String :=
  if result = "checkmate" then "[game] checkmate! " ++ winner ++ " wins!"
  else if result = "stalemate" then "[game] stalemate! Game drawn."
  else if result = "draw_agreed" then "[game] draw agreed!"
  else if result = "threefold_repetition" then "[game] threefold repetition! Game drawn."
  else if result = "fifty_move_rule" then "[game] fifty move rule! Game drawn."
  else "[game] game over: " ++ result

namespace Message

/-- The lines of the feed that the message adds. -/
def notices : Message → List String
  | .ok message => ["[ok] " ++ stdString message]
  | .error message => ["[error] " ++ stdString message]
  | .queueUpdate _ => ["[event] queue_update"]
  | .matchFound opponent _ _ => ["[match] opponent: " ++ stdString opponent]
  | .chat «from» text => [stdString «from» ++ ": " ++ stdString text]
  | .move «from» «to» «by» _ => ["[move] " ++ stdString «by» ++ ": " ++ stdString «from» ++ " -> " ++ stdString «to»]
  | .check side => ["[check] " ++ stdString side ++ " king is in check!"]
  | .gameOver result winner => [verdictNotice (stdString result) (stdString (winner.getD ""))]
  | .ratingUpdate rating => ["[rating] now: " ++ toString rating]
  | .drawOffer «from» => ["[draw] offer from " ++ stdString «from» ++ " (use /draw accept or /draw decline)"]
  | .drawDeclined «by» => ["[draw] declined by " ++ stdString «by»]
  | .opponentDisconnected => ["[game] opponent disconnected, you win"]
  | .leaderboard players => "[leaderboard] top players:" :: (players.zipIdx 1).map fun (player, rank) =>
      "#" ++ toString rank ++ " " ++ stdString player.2.1 ++ " (" ++ toString player.2.2 ++ ")"

/-- The FEN that the message brings. -/
def fen? : Message → Option String
  | .matchFound _ fen _ | .move _ _ _ fen => some fen
  | _ => none

/-- The status that the message brings. -/
def status? : Message → Option String
  | .matchFound .. => some "in_game"
  | .gameOver .. | .opponentDisconnected => some "menu"
  | _ => none

end Message

/-- What a message is meant to change on the screen; `none` if the FEN does not fit on the board. -/
def ClientUi.hear (ui : ClientUi) (msg : Message) : Option ClientUi :=
  let shown := { msg.notices.foldl pushFeed ui with status := msg.status?.getD ui.status }
  match msg.fen? with
  | some fen => shown.updateBoardFromFen (stdString fen)
  | none => some shown

/-- The conversion to an `int` takes a number's text for the number. -/
def ReadsInts (toInt : String → ℤ) : Prop := ∀ x : ℤ, -2 ^ 31 ≤ x → x < 2 ^ 31 → toInt (toString x) = x

/-- The lexer's own conversion. -/
def readInt (text : String) : ℤ := (toInteger .any1 (utf8 text)).getD 0

theorem readInt_reads : ReadsInts readInt := by
  intro x hlow hhigh
  rw [readInt, toInteger_toString rfl (by omega) (by omega), Option.getD_some]

theorem valueAs_set {α : Type} (get : Json → Except JsonError α) (key key' : String) (x : Json)
    (members : List (String × Json)) (default : α) :
    valueAs get (.object (Json.set key x members)) key' default =
      if key' = key then get x else valueAs get (.object members) key' default := by
  unfold valueAs
  simp only [find_set]
  by_cases h : key' = key
  · rw [if_pos h, if_pos h]
  · rw [if_neg h, if_neg h]

theorem text_set (key key' : String) (x : Json) (members : List (String × Json)) (default : String) :
    text (.object (Json.set key x members)) key' default =
      if key' = key then x.getText else text (.object members) key' default := valueAs_set ..

theorem getText_string (s : String) : (Json.string s).getText = .ok (stdString s) := rfl

theorem line_event (raw : String) {name : String} (hname : stdString name = name) (data : List (String × Json)) :
    Handler.line toInt raw (gameEvent name data) = Handler.event toInt name (.object data) := by
  have hline : Handler.line toInt raw (gameEvent name data) = Handler.event toInt (stdString name) (.object data) := rfl
  rw [hline, hname]

@[simp] theorem runs_pushFeed (notice : String) :
    runs (Handler.pushFeed notice) ui = some (.ok (), ui.pushFeed notice) := rfl

@[simp] theorem runs_pushFeed_bind (notice : String) (f : Unit → Handler) :
    runs (Handler.pushFeed notice >>= f) ui = runs (f ()) (ui.pushFeed notice) := runs_modify_bind ..

@[simp] theorem runs_setStatus_bind (status : String) (f : Unit → Handler) :
    runs (Handler.setStatus status >>= f) ui = runs (f ()) { ui with status } := runs_modify_bind ..

/-- The feed is all that changes. -/
theorem foldl_pushFeed (notices : List String) (ui : ClientUi) : (notices.foldl ClientUi.pushFeed ui).board = ui.board ∧
    (notices.foldl ClientUi.pushFeed ui).status = ui.status := by
  induction notices generalizing ui with
  | nil => exact ⟨rfl, rfl⟩
  | cons notice notices ih => exact ih (ui.pushFeed notice)

theorem hear_notices (hfen : msg.fen? = none) (hstatus : msg.status? = none) :
    ui.hear msg = some (msg.notices.foldl ClientUi.pushFeed ui) := by
  unfold ClientUi.hear
  rw [hfen, hstatus]
  exact congrArg (fun status => some { msg.notices.foldl ClientUi.pushFeed ui with status })
    (foldl_pushFeed _ ui).2.symm

theorem hear_notice {notice : String} (hfen : msg.fen? = none) (hstatus : msg.status? = none)
    (hnotice : msg.notices = [notice]) : ui.hear msg = some (ui.pushFeed notice) := by
  rw [hear_notices hfen hstatus, hnotice]
  rfl

/-- The new game's board comes after its status and the notice. -/
theorem runs_matchFound (opponent fen youAre raw : String) :
    runs (Handler.line toInt raw (Message.matchFound opponent fen youAre).toJson) ui =
      (ui.hear (.matchFound opponent fen youAre)).map fun ui => (.ok (), ui) := by
  rw [Message.toJson, line_event raw (by rfl)]
  simp [Handler.event, Handler.matchFound, text_set, getText_string, find_set, ClientUi.hear, Message.fen?,
    Message.status?, Message.notices, ClientUi.pushFeed]

theorem runs_move («from» «to» «by» raw : String) {fen : String} (hfen : stdString fen ≠ "") :
    runs (Handler.line toInt raw (Message.move «from» «to» «by» fen).toJson) ui =
      (ui.hear (.move «from» «to» «by» fen)).map fun ui => (.ok (), ui) := by
  rw [Message.toJson, line_event raw (by rfl)]
  simp [Handler.event, Handler.move, text_set, getText_string, hfen, ClientUi.hear, Message.fen?, Message.status?,
    Message.notices, ClientUi.pushFeed, ClientUi.updateBoardFromFen, Option.map_eq_bind, Option.bind_assoc]

theorem runs_gameOver (result raw : String) (winner : Option String) :
    runs (Handler.line toInt raw (Message.gameOver result winner).toJson) ui =
      (ui.hear (.gameOver result winner)).map fun ui => (.ok (), ui) := by
  have hdata : ∃ data, (Message.gameOver result winner).toJson = gameEvent "game_over" data ∧
      text (.object data) "result" "" = .ok (stdString result) ∧
      text (.object data) "winner" "" = .ok (stdString (winner.getD "")) := by
    cases winner <;> exact ⟨_, rfl, rfl, rfl⟩
  have hhear : ui.hear (.gameOver result winner) = some (ClientUi.pushFeed { ui with status := "menu" }
      (verdictNotice (stdString result) (stdString (winner.getD "")))) := rfl
  obtain ⟨data, hjson, hresult, hwinner⟩ := hdata
  rw [hjson, line_event raw (by rfl), hhear]
  simp only [Handler.event, String.reduceEq, if_false, if_true, Handler.gameOver, hresult, hwinner,
    runs_setStatus_bind, runs_ok_bind]
  unfold verdictNotice
  split_ifs <;> rfl

theorem getInt_ofInt (hint : ReadsInts toInt) {x : ℤ} (h : -2 ^ 31 ≤ x ∧ x < 2 ^ 31) : getInt toInt (ofInt x) = .ok x :=
  congrArg Except.ok (hint x h.1 h.2)

theorem runs_ratingUpdate (hint : ReadsInts toInt) {rating : ℤ} (hfits : (Message.ratingUpdate rating).Fits)
    (raw : String) :
    runs (Handler.line toInt raw (Message.ratingUpdate rating).toJson) ui =
      (ui.hear (.ratingUpdate rating)).map fun ui => (.ok (), ui) := by
  have hread := getInt_ofInt hint (hfits rating (List.mem_singleton_self _))
  rw [Message.toJson, line_event raw (by rfl), hear_notice rfl rfl rfl]
  simp [Handler.event, Handler.ratingUpdate, int, valueAs_set, hread]

/-- The places are counted from one. -/
theorem runs_leaderboard (hint : ReadsInts toInt) {players : List (ℤ × String × ℤ)}
    (hfits : (Message.leaderboard players).Fits) (raw : String) :
    runs (Handler.line toInt raw (Message.leaderboard players).toJson) ui =
      (ui.hear (.leaderboard players)).map fun ui => (.ok (), ui) := by
  have hrow : ∀ x ∈ players.zipIdx 1, ∀ ui, runs (do
      let name ← ofExcept ((playerJson x.1).text "nickname" "?")
      let rating ← ofExcept ((playerJson x.1).int toInt "rating" 0)
      Handler.pushFeed ("#" ++ toString x.2 ++ " " ++ name ++ " (" ++ toString rating ++ ")")) ui =
        some (.ok (),
          ui.pushFeed ("#" ++ toString x.2 ++ " " ++ stdString x.1.2.1 ++ " (" ++ toString x.1.2.2 ++ ")")) := by
    intro x hx ui
    have hmem : x.1.2.2 ∈ (Message.leaderboard players).ints :=
      List.mem_flatMap.2 ⟨x.1, List.fst_mem_of_mem_zipIdx hx, by simp⟩
    have hread := getInt_ofInt hint (hfits _ hmem)
    simp [playerJson, int, valueAs_set, text_set, getText_string, hread]
  rw [Message.toJson, line_event raw (by rfl)]
  simp only [Handler.event, String.reduceEq, if_false, if_true, Handler.leaderboard, member, valueAs_set,
    runs_pushFeed_bind, runs_ok_bind, elements, List.zipIdx_map, List.forM_map, Prod.map_fst, Prod.map_snd, id_eq]
  rw [runs_forM hrow, hear_notices rfl rfl]
  simp [Message.notices, List.foldl_map]

/-- What the client does with the line of a message is what the message is meant to change. -/
theorem handler_line (hint : ReadsInts toInt) (hfits : msg.Fits) (hfen : ∀ fen ∈ msg.fen?, stdString fen ≠ "")
    (raw : String) :
    runs (Handler.line toInt raw msg.toJson) ui = (ui.hear msg).map fun ui => (.ok (), ui) := by
  cases msg with
  | ok message | error message =>
    rw [hear_notice rfl rfl rfl]
    rfl
  | queueUpdate | chat | check | drawOffer | drawDeclined =>
    rw [Message.toJson, line_event raw (by rfl), hear_notice rfl rfl rfl]
    simp [Handler.event, Handler.chat, Handler.check, Handler.drawOffer, Handler.drawDeclined, text_set, getText_string]
  | matchFound opponent fen youAre => exact runs_matchFound opponent fen youAre raw
  | move «from» «to» «by» fen => exact runs_move «from» «to» «by» raw (hfen fen rfl)
  | gameOver result winner => exact runs_gameOver result raw winner
  | ratingUpdate rating => exact runs_ratingUpdate hint hfits raw
  | opponentDisconnected =>
    rfl
  | leaderboard players => exact runs_leaderboard hint hfits raw

/-- The client parses the line of a message and throws nothing on it. -/
theorem hear_line (hint : ReadsInts toInt) (hfits : msg.Fits) (hfen : ∀ fen ∈ msg.fen?, stdString fen ≠ "") :
    runs (processIncomingLine (Json.parse toFloat) toInt msg.line) ui = (ui.hear msg).map fun ui => (.ok (), ui) := by
  have hrun : processIncomingLine (Json.parse toFloat) toInt msg.line =
      tryCatch (Handler.line toInt (chars msg.line) msg.toJson) fun _ =>
        Handler.pushFeed ("[raw] " ++ chars msg.line) := by
    rw [processIncomingLine, Message.parse_line hfits]
    rfl
  rw [hrun, runs_tryCatch, handler_line hint hfits hfen]
  cases ui.hear msg <;> rfl

end ChessGame
