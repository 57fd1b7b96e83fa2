import ChessGame.Lib.Programs
import ChessGame.Client
import ChessGame.Json
/-!
# The console client's lines

`process_incoming_line` of `client.cpp`. What it throws is caught, and the line is shown
as it came. A FEN is loaded as it comes, and one that does not fit on the board makes
the client write outside of it.
-/
open Programs MonadExcept

namespace ChessGame

/-! ## What a FEN describes -/

namespace ConsoleBoard

/-- The squares that a character of the placement field describes, other than a slash. -/
def squares (ch : Char) : ℕ := if ch.isDigit then ch.toNat - '0'.toNat else 1

def width (row : List Char) : ℕ := (row.map squares).sum

/-- The first eight rows of the placement field describe at most eight squares each, the others none. -/
def Fits (fen : String) : Prop :=
  ∀ i row, ((placement fen).toList.splitOn '/')[i]? = some row → width row ≤ if i < 8 then 8 else 0

/-- There are `n` squares from the cursor to the end of its row, or none are asked for. -/
def Room (y x : ℤ) (n : ℕ) : Prop := n = 0 ∨ (0 ≤ y ∧ y < 8 ∧ 0 ≤ x ∧ x + n ≤ 8)

/-- There is room for the rows, the first of them at the cursor. -/
def Inside (y x : ℤ) : List (List Char) → Prop
  | [] => True
  | row :: rows => Room y x (width row) ∧ Inside (y - 1) 0 rows

variable {y x : ℤ}

theorem place_none (mark : String) (n : ℕ) :
    (fun st : Option (ConsoleBoard × ℤ × ℤ) => st.bind (place mark))^[n] none = none :=
  Function.iterate_fixed rfl n

/-- A gap or a piece is written if there is room for it. -/
theorem place_room (mark : String) (n : ℕ) (board : ConsoleBoard) (y x : ℤ) :
    (Room y x n ∧ ∃ board', (fun st => st.bind (place mark))^[n] (some (board, y, x)) = some (board', y, x + n)) ∨
      (¬ Room y x n ∧ (fun st => st.bind (place mark))^[n] (some (board, y, x)) = none) := by
  induction n generalizing board x with
  | zero => exact .inl ⟨.inl rfl, board, by simp⟩
  | succ n ih =>
    rw [Function.iterate_succ_apply, Option.bind_some, place]
    split
    · rename_i hin
      have hroom : Room y x (n + 1) ↔ Room y (x + 1) n := by
        unfold Room
        omega
      have hend : x + ((n + 1 : ℕ) : ℤ) = x + 1 + n := by
        push_cast
        ring
      rw [hroom, hend]
      exact ih _ (x + 1)
    · rename_i hout
      refine .inr ⟨?_, place_none mark n⟩
      unfold Room
      omega

theorem step_none (ch : Char) : step none ch = none := by
  unfold step
  split
  · rfl
  split
  · exact place_none _ _
  · rfl

theorem foldl_step_none (cs : List Char) : cs.foldl step none = none := List.foldl_fixed' step_none cs

/-- A character that is no slash. -/
theorem step_squares {ch : Char} (hch : ch ≠ '/') (board : ConsoleBoard) (y x : ℤ) :
    (Room y x (squares ch) ∧ ∃ board', step (some (board, y, x)) ch = some (board', y, x + squares ch)) ∨
      (¬ Room y x (squares ch) ∧ step (some (board, y, x)) ch = none) := by
  by_cases hdigit : ch.isDigit = true
  · rw [step, if_neg hch, if_pos hdigit, squares, if_pos hdigit]
    exact place_room "·" _ board y x
  · rw [step, if_neg hch, if_neg hdigit, squares, if_neg hdigit]
    exact place_room (glyphOf ch) 1 board y x

theorem inside_modifyHead {ch : Char} {rows : List (List Char)} (hrows : rows ≠ []) :
    Inside y x (rows.modifyHead (ch :: ·)) ↔ Room y x (squares ch) ∧ Inside y (x + squares ch) rows := by
  obtain ⟨row, rows, rfl⟩ := List.exists_cons_of_ne_nil hrows
  have hwidth : width (ch :: row) = squares ch + width row := by simp [width]
  rw [List.modifyHead_cons, Inside, Inside, hwidth, ← and_assoc]
  apply and_congr_left
  intro _
  unfold Room
  omega

/-- The loop stays on the board as long as there is room. -/
theorem foldl_step_isSome (cs : List Char) (board : ConsoleBoard) (y x : ℤ) :
    (cs.foldl step (some (board, y, x))).isSome = true ↔ Inside y x (cs.splitOn '/') := by
  induction cs generalizing board y x with
  | nil => simp [Inside, Room, width]
  | cons ch cs ih =>
    rw [List.foldl_cons, List.splitOn_cons_eq_if_modifyHead]
    by_cases hch : ch = '/'
    · -- the cursor goes to the next row, on the board or not
      subst hch
      have hslash : step (some (board, y, x)) '/' = some (board, y - 1, 0) := rfl
      rw [hslash, ih, if_pos (beq_self_eq_true '/'), Inside]
      exact (and_iff_right (.inl rfl)).symm
    · rw [if_neg (by simpa using hch), inside_modifyHead (List.splitOn_ne_nil '/' cs)]
      rcases step_squares hch board y x with ⟨hroom, board', hstep⟩ | ⟨hroom, hstep⟩
      · rw [hstep, ih, and_iff_right hroom]
      · rw [hstep, foldl_step_none]
        simp [hroom]

/-- The rows from the `k`th on. -/
theorem inside_iff (rows : List (List Char)) (k : ℕ) :
    Inside (7 - k) 0 rows ↔ ∀ i row, rows[i]? = some row → width row ≤ if k + i < 8 then 8 else 0 := by
  induction rows generalizing k with
  | nil => simp [Inside]
  | cons row rows ih =>
    have hnext : (7 : ℤ) - k - 1 = 7 - ((k + 1 : ℕ) : ℤ) := by
      push_cast
      ring
    have hroom : Room (7 - k) 0 (width row) ↔ width row ≤ if k + 0 < 8 then 8 else 0 := by
      unfold Room
      split <;> omega
    rw [Inside, hnext, ih, hroom]
    constructor
    · rintro ⟨hrow, hrows⟩ (_ | i) row' hi
      · cases hi
        exact hrow
      · rw [Nat.add_comm i, ← Nat.add_assoc]
        exact hrows i row' hi
    · refine fun h => ⟨h 0 row rfl, fun i row' hi => ?_⟩
      rw [Nat.add_assoc, Nat.add_comm 1]
      exact h (i + 1) row' hi

/-- Loading a FEN stays on the board exactly when the FEN fits. -/
theorem updateBoardFromFen_isSome (board : ConsoleBoard) (fen : String) :
    (updateBoardFromFen board fen).isSome = true ↔ Fits fen := by
  rw [updateBoardFromFen, Option.isSome_map, foldl_step_isSome]
  simpa [Fits] using inside_iff ((placement fen).toList.splitOn '/') 0

/-- The server's FENs fit. -/
theorem getFen_fits {pos : Position} (h : pos.pieces.Valid) : Fits pos.getFen := by
  obtain ⟨board, hboard, -⟩ := updateBoardFromFen_getFen h fun _ _ => ""
  rw [← updateBoardFromFen_isSome fun _ _ => "", hboard]
  rfl

end ConsoleBoard

/-! ## Reading an event -/

/-- The `std::string` of some bytes. -/
def chars (bytes : List Byte) : String := String.ofList (bytes.map fun b => Char.ofNat b.toNat)

namespace Json

/-- `j.get<std::string>()` -/
def getText (j : Json) : Except JsonError String := j.getString.map fun s => chars (utf8 s)

/-- `j.get<int>()`. `toInt` is the conversion of the number that is written in the text. -/
def getInt (toInt : String → ℤ) : Json → Except JsonError ℤ
  | .number text => .ok (toInt text)
  | .bool b => .ok (if b then 1 else 0)
  | _ => .error .typeError

/-- `j.value(key, default)` -/
def valueAs {α : Type} (get : Json → Except JsonError α) (j : Json) (key : String) (default : α) : Except JsonError α :=
  match j with
  | .object _ =>
    match j.find key with
    | some x => get x
    | none => .ok default
  | _ => .error .typeError

/-- For a `std::string`. -/
def text : Json → String → String → Except JsonError String := valueAs getText

/-- For an `int`. -/
def int (toInt : String → ℤ) : Json → String → ℤ → Except JsonError ℤ := valueAs (getInt toInt)

/-- For any value. -/
def member : Json → String → Json → Except JsonError Json := valueAs Except.ok

/-- What a range-based loop goes through. -/
def elements : Json → List Json
  | .null => []
  | .array items => items
  | .object members => members.map Prod.snd
  | j => [j]

end Json

/-! ## The client's handlers -/

/-- A part of `process_incoming_line`. It goes wrong where it accesses the board outside of its squares. -/
abbrev Handler := Prog ClientUi JsonError Unit

namespace Handler

def pushFeed (msg : String) : Handler := modify (·.pushFeed msg)

def setStatus (status : String) : Handler := modify ({ · with status })

def chat (data : Json) : Handler := do
  let «from» ← ofExcept (data.text "from" "?")
  let text ← ofExcept (data.text "text" "")
  pushFeed («from» ++ ": " ++ text)

def move (data : Json) : Handler := do
  let «from» ← ofExcept (data.text "from" "")
  let «to» ← ofExcept (data.text "to" "")
  let «by» ← ofExcept (data.text "by" "?")
  let fen ← ofExcept (data.text "fen" "")
  change fun ui => if !fen.isEmpty then ui.updateBoardFromFen fen else ui.applyMove «from» «to»
  pushFeed ("[move] " ++ «by» ++ ": " ++ «from» ++ " -> " ++ «to»)

def matchFound (data : Json) : Handler := do
  setStatus "in_game"
  let opponent ← ofExcept (data.text "opponent" "?")
  pushFeed ("[match] opponent: " ++ opponent)
  match (data.find "board").bind (·.find "fen") with
  | some fen => do
    let fen ← ofExcept fen.getText
    change (·.updateBoardFromFen fen)
  | none => pure ()

def gameOver (data : Json) : Handler := do
  setStatus "menu"
  let result ← ofExcept (data.text "result" "")
  if result = "checkmate" then do
    let winner ← ofExcept (data.text "winner" "")
    pushFeed ("[game] checkmate! " ++ winner ++ " wins!")
  else if result = "stalemate" then pushFeed "[game] stalemate! Game drawn."
  else if result = "draw_agreed" then pushFeed "[game] draw agreed!"
  else if result = "threefold_repetition" then pushFeed "[game] threefold repetition! Game drawn."
  else if result = "fifty_move_rule" then pushFeed "[game] fifty move rule! Game drawn."
  else pushFeed ("[game] game over: " ++ result)

def drawOffer (data : Json) : Handler := do
  let «from» ← ofExcept (data.text "from" "?")
  pushFeed ("[draw] offer from " ++ «from» ++ " (use /draw accept or /draw decline)")

def drawDeclined (data : Json) : Handler := do
  let «by» ← ofExcept (data.text "by" "?")
  pushFeed ("[draw] declined by " ++ «by»)

def ratingUpdate (toInt : String → ℤ) (data : Json) : Handler := do
  let rating ← ofExcept (data.int toInt "rating" 0)
  pushFeed ("[rating] now: " ++ toString rating)

def leaderboard (toInt : String → ℤ) (data : Json) : Handler := do
  pushFeed "[leaderboard] top players:"
  let players ← ofExcept (data.member "players" (.array []))
  forM (players.elements.zipIdx 1) fun (p, rank) => do
    let name ← ofExcept (p.text "nickname" "?")
    let rating ← ofExcept (p.int toInt "rating" 0)
    pushFeed ("#" ++ toString rank ++ " " ++ name ++ " (" ++ toString rating ++ ")")

def check (data : Json) : Handler := do
  let side ← ofExcept (data.text "side" "")
  pushFeed ("[check] " ++ side ++ " king is in check!")

def event (toInt : String → ℤ) (event : String) (data : Json) : Handler :=
  if event = "chat" then chat data
  else if event = "move" then move data
  else if event = "match_found" then matchFound data
  else if event = "game_over" then gameOver data
  else if event = "opponent_disconnected" then do
    setStatus "menu"
    pushFeed "[game] opponent disconnected, you win"
  else if event = "draw_offer" then drawOffer data
  else if event = "draw_agreed" then do
    setStatus "menu"
    pushFeed "[game] draw agreed, rating unchanged"
  else if event = "draw_declined" then drawDeclined data
  else if event = "rating_update" then ratingUpdate toInt data
  else if event = "leaderboard" then leaderboard toInt data
  else if event = "check" then check data
  else pushFeed ("[event] " ++ event)

def line (toInt : String → ℤ) (raw : String) (jn : Json) : Handler :=
  if jn.contains "status" && jn.contains "message" then do
    let status ← ofExcept (jn.text "status" "info")
    let message ← ofExcept (jn.text "message" "")
    pushFeed ("[" ++ status ++ "] " ++ message)
  else do
    let type ← ofExcept (jn.text "type" "")
    if type = "event" then do
      let name ← ofExcept (jn.text "event" "")
      let data ← ofExcept (jn.member "data" (.object []))
      event toInt name data
    else pushFeed ("[raw] " ++ raw)

end Handler

def processIncomingLine (parseJson : List Byte → Except JsonError Json) (toInt : String → ℤ) (line : List Byte) :
    Handler :=
  tryCatch (do
    let jn ← ofExcept (parseJson line)
    Handler.line toInt (chars line) jn)
    fun _ => Handler.pushFeed ("[raw] " ++ chars line)

/-! ## Which lines are handled on the board -/

open ConsoleBoard

/-- The line is an event with this name and these data. -/
structure IsEvent (jn : Json) (name : String) (data : Json) : Prop where
  noReply : (jn.contains "status" && jn.contains "message") = false
  type : jn.text "type" "" = .ok "event"
  name : jn.text "event" "" = .ok name
  data : jn.member "data" (.object []) = .ok data

/-- The line is an event that brings a FEN. -/
inductive Brings (jn : Json) (fen : String) : Prop
  | move {data : Json} {«from» «to» «by» : String} : IsEvent jn "move" data → data.text "from" "" = .ok «from» →
      data.text "to" "" = .ok «to» → data.text "by" "?" = .ok «by» → data.text "fen" "" = .ok fen → fen ≠ "" →
      Brings jn fen
  | matchFound {data x : Json} {opponent : String} : IsEvent jn "match_found" data →
      data.text "opponent" "?" = .ok opponent → (data.find "board").bind (·.find "fen") = some x →
      x.getText = .ok fen → Brings jn fen

namespace Handler

variable {ui : ClientUi} {jn data : Json} {toInt : String → ℤ} {msg name : String} {f : Unit → Handler}

@[simp] theorem defined_pushFeed : Defined (pushFeed msg) ui := defined_modify _ _

@[simp] theorem defined_pushFeed_bind : Defined (pushFeed msg >>= f) ui ↔ Defined (f ()) (ui.pushFeed msg) := Iff.rfl

@[simp] theorem defined_setStatus_bind {status : String} :
    Defined (setStatus status >>= f) ui ↔ Defined (f ()) { ui with status } := Iff.rfl

theorem defined_move : Defined (move data) ui ↔ ∀ «from», data.text "from" "" = .ok «from» →
    ∀ «to», data.text "to" "" = .ok «to» → ∀ «by», data.text "by" "?" = .ok «by» →
    ∀ fen, data.text "fen" "" = .ok fen → fen ≠ "" → Fits fen := by
  have hshown : ∀ «from» «to» fen,
      ((if !fen.isEmpty then ui.updateBoardFromFen fen else ui.applyMove «from» «to»).isSome = true ↔
        (fen ≠ "" → Fits fen)) := by
    intro «from» «to» fen
    by_cases hfen : fen = ""
    · simp [hfen, ClientUi.applyMove_isSome]
    · simp [hfen, ClientUi.updateBoardFromFen, updateBoardFromFen_isSome]
  simp only [move, defined_ofExcept_bind, defined_change_bind, defined_pushFeed, and_true, ← Option.isSome_iff_exists,
    hshown]

theorem defined_matchFound : Defined (matchFound data) ui ↔ ∀ opponent, data.text "opponent" "?" = .ok opponent →
    ∀ x, (data.find "board").bind (·.find "fen") = some x → ∀ fen, x.getText = .ok fen → Fits fen := by
  simp only [matchFound, defined_setStatus_bind, defined_ofExcept_bind, defined_pushFeed_bind]
  apply forall_congr'
  intro opponent
  apply imp_congr_right
  intro _
  cases (data.find "board").bind (·.find "fen") with
  | none => simp
  | some x => simp [ClientUi.updateBoardFromFen, updateBoardFromFen_isSome]

/-- The other events do not touch the board. -/
theorem defined_event : Defined (event toInt name data) ui ↔
    (name = "move" → Defined (move data) ui) ∧ (name = "match_found" → Defined (matchFound data) ui) := by
  -- only texts and numbers are read, and what cannot be read is thrown
  have hchat : Defined (chat data) ui := by simp [chat]
  have hover : Defined (gameOver data) ui := by simp [gameOver]
  have hoffer : Defined (drawOffer data) ui := by simp [drawOffer]
  have hdeclined : Defined (drawDeclined data) ui := by simp [drawDeclined]
  have hrating : Defined (ratingUpdate toInt data) ui := by simp [ratingUpdate]
  have hleaders : Defined (leaderboard toInt data) ui := by
    simp only [leaderboard, defined_pushFeed_bind, defined_ofExcept_bind]
    exact fun players _ => defined_forM fun _ _ _ => by simp
  have hcheck : Defined (check data) ui := by simp [check]
  unfold event
  by_cases hmove : name = "move"
  · simp [hmove]
  by_cases hmatch : name = "match_found"
  · simp [hmatch]
  · simp [hmove, hmatch, hchat, hover, hoffer, hdeclined, hrating, hleaders, hcheck]

/-- Only the FEN of an event can lead the client off its board. -/
theorem defined_line {raw : String} : Defined (line toInt raw jn) ui ↔ ∀ fen, Brings jn fen → Fits fen := by
  cases hreply : jn.contains "status" && jn.contains "message" with
  | true =>
    have hnone : ∀ fen, ¬ Brings jn fen := by
      rintro fen (⟨hev, -⟩ | ⟨hev, -⟩) <;> exact absurd hev.noReply (by rw [hreply]; nofun)
    simp [line, hreply, hnone]
  | false =>
    have hevent : Defined (line toInt raw jn) ui ↔ ∀ name data, IsEvent jn name data →
        Defined (event toInt name data) ui := by
      simp only [line, hreply, Bool.false_eq_true, if_false, defined_ofExcept_bind, defined_ite, defined_pushFeed]
      constructor
      · rintro h name data ⟨-, htype, hname, hdata⟩
        exact (if_pos rfl ▸ h _ htype) name hname data hdata
      · intro h type htype
        split
        · rename_i hev
          subst hev
          exact fun name hname data hdata => h name data ⟨hreply, htype, hname, hdata⟩
        · trivial
    rw [hevent]
    simp only [defined_event, defined_move, defined_matchFound]
    constructor
    · rintro h fen (⟨hev, hfrom, hto, hby, hfen, hne⟩ | ⟨hev, hopponent, hx, hfen⟩)
      · exact (h _ _ hev).1 rfl _ hfrom _ hto _ hby _ hfen hne
      · exact (h _ _ hev).2 rfl _ hopponent _ hx _ hfen
    · rintro h name data hev
      constructor
      · rintro rfl «from» hfrom «to» hto «by» hby fen hfen hne
        exact h fen (.move hev hfrom hto hby hfen hne)
      · rintro rfl opponent hopponent x hx fen hfen
        exact h fen (.matchFound hev hopponent hx hfen)

end Handler

/-- Handling a line stays on the board exactly when the FEN it brings, if any, fits. -/
theorem processIncomingLine_defined_iff (parseJson : List Byte → Except JsonError Json) (toInt : String → ℤ)
    (line : List Byte) (ui : ClientUi) : Defined (processIncomingLine parseJson toInt line) ui ↔
      ∀ jn fen, parseJson line = .ok jn → Brings jn fen → Fits fen := by
  rw [processIncomingLine, defined_tryCatch fun _ _ => Handler.defined_pushFeed, defined_ofExcept_bind]
  simp only [Handler.defined_line]
  exact forall_congr' fun jn => imp_forall_iff

/-- A move whose FEN is a row of nine squares. -/
def nineLine : List Byte := utf8 "\x7b\"data\":\x7b\"fen\":\"9\"\x7d,\"event\":\"move\",\"type\":\"event\"\x7d"

def readsNine (line : List Byte) : Except JsonError Json :=
  if line = nineLine then
    .ok (.object [("data", .object [("fen", .string "9")]), ("event", .string "move"), ("type", .string "event")])
  else .error .parseError

/-- The ninth square is not on the board. -/
theorem processIncomingLine_fails : ¬ Defined (processIncomingLine readsNine (fun _ => 0) nineLine) blank := by
  have hwrong : (runs (processIncomingLine readsNine (fun _ => 0) nineLine) blank).isSome = false := by decide +kernel
  rw [Defined, hwrong]
  exact Bool.false_ne_true

end ChessGame
