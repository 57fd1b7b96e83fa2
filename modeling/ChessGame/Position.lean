import ChessGame.MoveGen
import ChessGame.Zobrist
/-!
# Positions

`position.hpp`, `position.cpp`. The two counters are floats that only ever
grow by 0.5 or go back to 0. Up to 2^23 they are exact half-integers, and here
they are the number of halves; from there on a float grows no more, which the
module `Single` models. A move that leaves the mover in check is rolled back.
-/

namespace ChessGame

open BitboardOps MoveGen

structure Position where
  pieces : Pieces
  /-- `none` is the source's 255. -/
  enPassant : Option ℕ
  rights : CastlingRights
  /-- Half-moves played: `_move_ctr` in halves, as long as there are at most 2^24. -/
  moveCtr : ℕ
  hash : ZobristHash
  /-- `_fifty_moves_ctr` in halves. -/
  fiftyMovesCtr : ℕ
  history : List ZobristHash
  deriving DecidableEq

namespace Position

/-- `Position()`. -/
def init : Position :=
  let pieces := Pieces.ofFen "rnbqkbnr/pppppppp/8/8/8/8/PPPPPPPP/RNBQKBNR"
  let hash := ZobristHash.ofPieces pieces false true true true true
  { pieces, enPassant := none, rights := ⟨true, true, true, true⟩, moveCtr := 0, hash,
    fiftyMovesCtr := 0, history := [hash] }

/-- White moves when `_move_ctr` is a whole number. -/
def sideToMove (pos : Position) : PieceColor :=
  if pos.moveCtr % 2 = 0 then .white else .black

/-! ## Applying a move -/

def addPiece (pos : Position) (square : ℕ) (type : PieceType) (side : PieceColor) : Position :=
  if !getBit (pos.pieces.bb side type) square then
    { pos with
      pieces := pos.pieces.modify side type (set1 · square)
      hash := pos.hash.invertPiece square type side }
  else pos

def removePiece (pos : Position) (square : ℕ) (type : PieceType) (side : PieceColor) : Position :=
  if getBit (pos.pieces.bb side type) square then
    { pos with
      pieces := pos.pieces.modify side type (set0 · square)
      hash := pos.hash.invertPiece square type side }
  else pos

def dropWLCastling (pos : Position) : Position :=
  { pos with hash := pos.hash.invertWLCastling, rights := { pos.rights with wLCastling := false } }

def dropWSCastling (pos : Position) : Position :=
  { pos with hash := pos.hash.invertWSCastling, rights := { pos.rights with wSCastling := false } }

def dropBLCastling (pos : Position) : Position :=
  { pos with hash := pos.hash.invertBLCastling, rights := { pos.rights with bLCastling := false } }

def dropBSCastling (pos : Position) : Position :=
  { pos with hash := pos.hash.invertBSCastling, rights := { pos.rights with bSCastling := false } }

/-- The hash is toggled whether or not the flag was still set. -/
def updateCastlingRights (pos : Position) (src : ℕ) : Position :=
  let pos := if src = 0 then pos.dropWLCastling else pos
  let pos := if src = 4 then pos.dropWLCastling.dropWSCastling else pos
  let pos := if src = 7 then pos.dropWSCastling else pos
  let pos := if src = 56 then pos.dropBLCastling else pos
  let pos := if src = 60 then pos.dropBLCastling.dropBSCastling else pos
  if src = 63 then pos.dropBSCastling else pos

/-- `_remove_piece(move.to, Pawn, side); _add_piece(move.to, type, side)`. -/
def promote (pos : Position) (move : Move) (type : PieceType) : Position :=
  (pos.removePiece move.to .pawn move.attackerSide).addPiece move.to type move.attackerSide

/-- The switch over the special flags. -/
def applyFlag (pos : Position) (move : Move) : Position :=
  match move.flag with
  | .enPassantCapture =>
    match move.attackerSide with
    | .white => pos.removePiece (move.to - 8) .pawn .black
    | .black => pos.removePiece (move.to + 8) .pawn .white
  | .whiteLongCastling => (pos.removePiece 0 .rook .white).addPiece 3 .rook .white
  | .whiteShortCastling => (pos.removePiece 7 .rook .white).addPiece 5 .rook .white
  | .blackLongCastling => (pos.removePiece 56 .rook .black).addPiece 59 .rook .black
  | .blackShortCastling => (pos.removePiece 63 .rook .black).addPiece 61 .rook .black
  | .promoteToKnight => pos.promote move .knight
  | .promoteToBishop => pos.promote move .bishop
  | .promoteToRook => pos.promote move .rook
  | .promoteToQueen => pos.promote move .queen
  | .default | .pawnLongMove => pos

/-- The pieces of the move, then the flags, up to `update_bitboards`. -/
def movePieces (pos : Position) (move : Move) : Position :=
  let pos := pos.removePiece move.from move.attackerType move.attackerSide
  let pos := pos.addPiece move.to move.attackerType move.attackerSide
  let pos := match move.defenderType, move.defenderSide with
    | some type, some side => pos.removePiece move.to type side
    | _, _ => pos
  let pos := pos.applyFlag move
  { pos with pieces := pos.pieces.updateBitboards }

def updateEnPassant (pos : Position) (move : Move) : Position :=
  if move.flag ≠ .pawnLongMove then
    match pos.enPassant with
    | some ep =>
      { pos with hash := pos.hash.invertPiece ep .pawn move.attackerSide.inverse, enPassant := none }
    | none => pos
  else
    let ep := (move.from + move.to) / 2
    { pos with enPassant := some ep, hash := pos.hash.invertPiece ep .pawn move.attackerSide.inverse }

def isIrreversible (move : Move) : Bool := move.attackerType = .pawn || move.defenderType.isSome

/-- The counters and the history. `Single.updateCounters` rounds the counters as the floats are. -/
def updateCounters (pos : Position) (move : Move) : Position :=
  let hash := pos.hash.invertMove
  { pos with
    moveCtr := pos.moveCtr + 1
    hash
    fiftyMovesCtr := if isIrreversible move then 0 else pos.fiftyMovesCtr + 1
    history := (if isIrreversible move then [] else pos.history) ++ [hash] }

/-- Every field is saved before the move and restored when the mover is left in check. -/
def applyMove (pos : Position) (move : Move) : Bool × Position :=
  let next := ((pos.movePieces move).updateCastlingRights move.from).updateEnPassant move |>.updateCounters move
  if isCheck next.pieces move.attackerSide then (false, pos) else (true, next)

/-! ## The end of the game -/

def generateMoves (pos : Position) : MoveList :=
  generateAllMoves pos.pieces pos.sideToMove pos.enPassant pos.rights

def isCheckmate (pos : Position) : Bool :=
  isCheck pos.pieces pos.sideToMove && !hasLegalMoves pos.pieces pos.sideToMove pos.enPassant pos.rights

def isStalemate (pos : Position) : Bool :=
  !isCheck pos.pieces pos.sideToMove && !hasLegalMoves pos.pieces pos.sideToMove pos.enPassant pos.rights

def isThreefoldRepetition (pos : Position) : Bool :=
  match pos.history.getLast? with
  | none => false
  | some current => 3 ≤ pos.history.count current

/-- `_fifty_moves_ctr >= 100.0f`. -/
def isFiftyMoveRule (pos : Position) : Bool := pos.fiftyMovesCtr ≥ 2 * 100

/-! ## FEN -/

def pieceChar : PieceColor → PieceType → Char
  | .white, .pawn => 'P'
  | .white, .knight => 'N'
  | .white, .bishop => 'B'
  | .white, .rook => 'R'
  | .white, .queen => 'Q'
  | .white, .king => 'K'
  | .black, .pawn => 'p'
  | .black, .knight => 'n'
  | .black, .bishop => 'b'
  | .black, .rook => 'r'
  | .black, .queen => 'q'
  | .black, .king => 'k'

/-- One square of a row; `empty` counts the empty squares not yet written. -/
def fenSquare (pieces : Pieces) (st : String × ℕ) (square : ℕ) : String × ℕ :=
  let (fen, empty) := st
  match pieces.colorAt square with
  | none => (fen, empty + 1)
  | some color =>
    let fen := if empty > 0 then fen ++ toString empty else fen
    let c := match pieces.pieceAt square with
      | some type => pieceChar color type
      | none => '?'
    (fen.push c, 0)

def fenRow (pieces : Pieces) (fen : String) (y : ℕ) : String :=
  let (fen, empty) := (List.range 8).foldl (fun st x => fenSquare pieces st (y * 8 + x)) (fen, 0)
  let fen := if empty > 0 then fen ++ toString empty else fen
  if y > 0 then fen.push '/' else fen

/-- `'a' + file`, `'1' + rank`. -/
def squareName (square : ℕ) : String :=
  String.ofList [Char.ofNat ('a'.toNat + square % 8), Char.ofNat ('1'.toNat + square / 8)]

def fenCastling (rights : CastlingRights) : String :=
  if !rights.wLCastling && !rights.wSCastling && !rights.bLCastling && !rights.bSCastling then "-"
  else
    (if rights.wSCastling then "K" else "") ++ (if rights.wLCastling then "Q" else "") ++
      (if rights.bSCastling then "k" else "") ++ (if rights.bLCastling then "q" else "")

def getFen (pos : Position) : String :=
  let fen := [7, 6, 5, 4, 3, 2, 1, 0].foldl (fenRow pos.pieces) ""
  let fen := fen ++ " " ++ (if pos.sideToMove = .white then "w" else "b")
  let fen := fen ++ " " ++ fenCastling pos.rights
  let fen := fen ++ " " ++ (match pos.enPassant with | none => "-" | some ep => squareName ep)
  let fen := fen ++ " " ++ toString (pos.fiftyMovesCtr / 2)
  fen ++ " " ++ toString (pos.moveCtr / 2 + 1)

end Position

end ChessGame
