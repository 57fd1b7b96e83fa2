import ChessGame.Position
/-!
# Game rooms

`game_room.cpp`, as far as it is about the room itself. `onMove` returns the
room after the move and how the game ended, if it did; what `end_game` does to
the sessions and the database is the server's part.
-/

namespace ChessGame

open MoveGen

abbrev SessionId := ℕ

inductive GameResult where
  | checkmate | stalemate | threefoldRepetition | fiftyMoveRule | drawAgreed
  deriving DecidableEq, Repr

def GameResult.text : GameResult → String
  | .checkmate => "checkmate"
  | .stalemate => "stalemate"
  | .threefoldRepetition => "threefold_repetition"
  | .fiftyMoveRule => "fifty_move_rule"
  | .drawAgreed => "draw_agreed"

/-- The arguments of `end_game`. -/
structure Ending where
  result : GameResult
  winner : Option SessionId
  deriving DecidableEq, Repr

structure GameRoom where
  white : SessionId
  black : SessionId
  drawOfferWhite : Bool
  drawOfferBlack : Bool
  position : Position
  deriving DecidableEq

/-- The arguments of `on_move`. -/
structure MoveCall where
  player : SessionId
  fromSq : String
  toSq : String
  promotion : String
  deriving DecidableEq, Repr

/-- The square of its name; `none` is the source's 255. What follows the first two characters is ignored. -/
def algebraicToIndex (sq : String) : Option ℕ :=
  match sq.toList with
  | c0 :: c1 :: _ =>
    let file : ℤ := c0.toNat - 'a'.toNat
    let rank : ℤ := c1.toNat - '1'.toNat
    if file < 0 || file > 7 || rank < 0 || rank > 7 then none else some (rank * 8 + file).toNat
  | _ => none

def promotionMatches (flag : Flag) (promotion : String) : Bool :=
  match flag with
  | .promoteToKnight => promotion = "n"
  | .promoteToBishop => promotion = "b"
  | .promoteToRook => promotion = "r"
  | .promoteToQueen => promotion = "q"
  | _ => false

/-- The loop of `on_move` over the generated moves. -/
def findMove (src dst : ℕ) (promotion : String) : List Move → Except String Move
  | [] => .error "Illegal move"
  | m :: moves =>
    if m.from = src && m.to = dst then
      if m.flag.isPromotion then
        if promotion.isEmpty then .error "Promotion piece required (n/b/r/q)"
        else if !promotionMatches m.flag promotion then findMove src dst promotion moves
        else .ok m
      else .ok m
    else findMove src dst promotion moves

namespace GameRoom

/-- The constructor. -/
def new (white black : SessionId) : GameRoom := ⟨white, black, false, false, Position.init⟩

def has (room : GameRoom) (p : SessionId) : Bool := p = room.white || p = room.black

def opponentOf (room : GameRoom) (p : SessionId) : Option SessionId :=
  if !room.has p then none else some (if p = room.white then room.black else room.white)

/-- Winner and loser, when a game ends with this winner. -/
def decides (room : GameRoom) (winner : Option SessionId) : Option (SessionId × SessionId) :=
  winner.bind fun w => (room.opponentOf w).map fun loser => (w, loser)

/-- How the game stands after a move: the chain of tests at the end of `on_move`. -/
def verdict (room : GameRoom) : Option Ending :=
  if room.position.isCheckmate then
    some ⟨.checkmate, some (if room.position.sideToMove = .white then room.black else room.white)⟩
  else if room.position.isStalemate then some ⟨.stalemate, none⟩
  else if room.position.isThreefoldRepetition then some ⟨.threefoldRepetition, none⟩
  else if room.position.isFiftyMoveRule then some ⟨.fiftyMoveRule, none⟩
  else none

/-- The move `on_move` picks, or the text of its refusal. -/
def chosen (room : GameRoom) (call : MoveCall) : Except String Move :=
  let isWhiteTurn := room.position.sideToMove = .white
  if (call.player = room.white && !isWhiteTurn) || (call.player = room.black && isWhiteTurn) then
    .error "Not your turn"
  else
    match algebraicToIndex call.fromSq, algebraicToIndex call.toSq with
    | some src, some dst => findMove src dst call.promotion room.position.generateMoves.moves
    | _, _ => .error "Invalid square format"

def onMove (room : GameRoom) (call : MoveCall) : Except String (GameRoom × Option Ending) :=
  match room.chosen call with
  | .error text => .error text
  | .ok move =>
    match room.position.applyMove move with
    | (false, _) => .error "Move failed"
    | (true, position) =>
      let room := { room with position }
      .ok (room, room.verdict)

def onDrawRequest (room : GameRoom) (p : SessionId) : GameRoom :=
  if p = room.white then { room with drawOfferWhite := true }
  else if p = room.black then { room with drawOfferBlack := true }
  else room

def onDrawAccept (room : GameRoom) (p : SessionId) : Option Ending :=
  if (p = room.white && room.drawOfferBlack) || (p = room.black && room.drawOfferWhite) then
    some ⟨.drawAgreed, none⟩
  else none

/-- The room after a declined offer, and who is told. -/
def onDrawDecline (room : GameRoom) (p : SessionId) : Option (GameRoom × SessionId) :=
  if p = room.white && room.drawOfferBlack then some ({ room with drawOfferBlack := false }, room.black)
  else if p = room.black && room.drawOfferWhite then some ({ room with drawOfferWhite := false }, room.white)
  else none

end GameRoom

/-! ## The search for the move -/

/-- Whether a generated move answers the request. -/
def Answers (src dst : ℕ) (promotion : String) (m : Move) : Prop :=
  m.from = src ∧ m.to = dst ∧ (m.flag.isPromotion = true → promotionMatches m.flag promotion = true)

instance (src dst : ℕ) (promotion : String) (m : Move) : Decidable (Answers src dst promotion m) := by
  unfold Answers; infer_instance

theorem findMove_ok {src dst : ℕ} {promotion : String} {moves : List Move} {m : Move}
    (h : findMove src dst promotion moves = .ok m) : m ∈ moves ∧ Answers src dst promotion m := by
  induction moves with
  | nil => cases h
  | cons m' moves ih =>
    unfold findMove at h
    split at h
    · rename_i hsq
      simp only [Bool.and_eq_true, decide_eq_true_eq] at hsq
      split at h
      · rename_i hpr
        split at h
        · cases h
        · split at h
          · exact ⟨List.mem_cons_of_mem _ (ih h).1, (ih h).2⟩
          · rename_i hmatch
            cases h
            exact ⟨List.mem_cons_self, hsq.1, hsq.2, fun _ => by simpa using hmatch⟩
      · rename_i hpr
        cases h
        exact ⟨List.mem_cons_self, hsq.1, hsq.2, fun hp => absurd hp hpr⟩
    · exact ⟨List.mem_cons_of_mem _ (ih h).1, (ih h).2⟩

variable {room room' : GameRoom} {call : MoveCall} {e : Option Ending}

/-- The move picked is generated, it answers the request, and it is the player's turn. -/
theorem chosen_ok {m : Move} (h : room.chosen call = .ok m) :
    ((call.player = room.white → room.position.sideToMove = .white) ∧
      (call.player = room.black → room.position.sideToMove = .black)) ∧
    (∃ src dst, algebraicToIndex call.fromSq = some src ∧ algebraicToIndex call.toSq = some dst ∧
      Answers src dst call.promotion m) ∧ m ∈ room.position.generateMoves.moves := by
  unfold GameRoom.chosen at h
  simp only at h
  split at h
  · cases h
  · rename_i hturn
    split at h
    · rename_i src dst hsrc hdst
      obtain ⟨hmem, hans⟩ := findMove_ok h
      refine ⟨?_, ⟨src, dst, hsrc, hdst, hans⟩, hmem⟩
      cases hside : room.position.sideToMove <;> simp [hside] at hturn ⊢ <;> tauto
    · cases h

/-- What an accepted call was. -/
structure Accepts (room : GameRoom) (call : MoveCall) (room' : GameRoom) (e : Option Ending) (m : Move) : Prop where
  chosen : room.chosen call = .ok m
  turn : (call.player = room.white → room.position.sideToMove = .white) ∧
    (call.player = room.black → room.position.sideToMove = .black)
  answers : ∃ src dst, algebraicToIndex call.fromSq = some src ∧ algebraicToIndex call.toSq = some dst ∧
    Answers src dst call.promotion m
  mem : m ∈ room.position.generateMoves.moves
  applied : room.position.applyMove m = (true, room'.position)
  room : room' = { room with position := room'.position }
  ending : e = room'.verdict

theorem onMove_ok (h : room.onMove call = .ok (room', e)) : ∃ m, Accepts room call room' e m := by
  unfold GameRoom.onMove at h
  split at h
  · cases h
  · rename_i m hm
    split at h
    · cases h
    · rename_i position ha
      simp only [Except.ok.injEq, Prod.mk.injEq] at h
      obtain ⟨rfl, rfl⟩ := h
      obtain ⟨hturn, hans, hmem⟩ := chosen_ok hm
      exact ⟨m, hm, hturn, hans, hmem, ha, rfl, rfl⟩

end ChessGame
