import ChessGame.Masks
import ChessGame.Move
/-!
# Move generation

`move_gen.cpp`. The generators take the list of moves found so far and push
onto it, as the source does.
-/

namespace ChessGame

open BitboardOps SlidersMasks

namespace MoveGen

/-! ## Attacks -/

def isSquareAttackedByPawns (pieces : Pieces) (square : ℕ) (bySide : PieceColor) : Bool :=
  match bySide with
  | .white =>
    (square % 8 != 0 && square ≥ 8 && getBit (pieces.bb .white .pawn) (square - 9)) ||
    (square % 8 != 7 && square ≥ 8 && getBit (pieces.bb .white .pawn) (square - 7))
  | .black =>
    (square % 8 != 0 && square ≤ 55 && getBit (pieces.bb .black .pawn) (square + 7)) ||
    (square % 8 != 7 && square ≤ 55 && getBit (pieces.bb .black .pawn) (square + 9))

def isSquareAttackedByKnights (pieces : Pieces) (square : ℕ) (bySide : PieceColor) : Bool :=
  (KnightMasks.Masks.getD square 0 &&& pieces.bb bySide .knight) != 0#64

def isSquareAttackedByKing (pieces : Pieces) (square : ℕ) (bySide : PieceColor) : Bool :=
  (KingMasks.Masks.getD square 0 &&& pieces.bb bySide .king) != 0#64

/-- The ray up to its first occupied square; that square itself counts when it
holds a piece of the side opposite to `side`. -/
def calcRay (pieces : Pieces) (p : ℕ) (side : PieceColor) (onlyCaptures : Bool) (d : Direction)
    (bsrFlag : Bool) : Bitboard :=
  let ray := (Masks d).getD p 0
  let blockers := ray &&& pieces.all
  if blockers = 0#64 then
    if onlyCaptures then 0#64 else ray
  else
    let blockingSquare := if bsrFlag then bsr blockers else bsf blockers
    let moves := if onlyCaptures then 0#64 else ray ^^^ (Masks d).getD blockingSquare 0
    if getBit (pieces.sideBitboards.get side.inverse) blockingSquare then set1 moves blockingSquare
    else set0 moves blockingSquare

def generateBishopMask (pieces : Pieces) (p : ℕ) (side : PieceColor) (onlyCaptures : Bool) : Bitboard :=
  let nw := calcRay pieces p side onlyCaptures .northWest false
  let ne := calcRay pieces p side onlyCaptures .northEast false
  let sw := calcRay pieces p side onlyCaptures .southWest true
  let se := calcRay pieces p side onlyCaptures .southEast true
  nw ||| ne ||| sw ||| se

def generateRookMask (pieces : Pieces) (p : ℕ) (side : PieceColor) (onlyCaptures : Bool) : Bitboard :=
  let n := calcRay pieces p side onlyCaptures .north false
  let s := calcRay pieces p side onlyCaptures .south true
  let w := calcRay pieces p side onlyCaptures .west true
  let e := calcRay pieces p side onlyCaptures .east false
  n ||| s ||| w ||| e

def generateQueenMask (pieces : Pieces) (p : ℕ) (side : PieceColor) (onlyCaptures : Bool) : Bitboard :=
  generateBishopMask pieces p side onlyCaptures ||| generateRookMask pieces p side onlyCaptures

def isSquareAttacked (pieces : Pieces) (square : ℕ) (bySide : PieceColor) : Bool :=
  isSquareAttackedByPawns pieces square bySide ||
  isSquareAttackedByKnights pieces square bySide ||
  isSquareAttackedByKing pieces square bySide ||
  (generateBishopMask pieces square bySide true &&&
    (pieces.bb bySide .bishop ||| pieces.bb bySide .queen)) != 0#64 ||
  (generateRookMask pieces square bySide true &&&
    (pieces.bb bySide .rook ||| pieces.bb bySide .queen)) != 0#64

def isCheck (pieces : Pieces) (side : PieceColor) : Bool :=
  let kingBb := pieces.bb side .king
  if kingBb = 0#64 then false
  else isSquareAttacked pieces (bsf kingBb) side.inverse

/-! ## Legality -/

/-- The move on a copy of the bitboards, derived bitboards included. -/
def afterMove (pieces : Pieces) (move : Move) (enPassantCapture : Bool) : Pieces :=
  let pieces := pieces.modify move.attackerSide move.attackerType (set0 · move.from)
  let pieces := pieces.modify move.attackerSide move.attackerType (set1 · move.to)
  let pieces := match move.defenderType, move.defenderSide with
    | some type, some side => pieces.modify side type (set0 · move.to)
    | _, _ => pieces
  let pieces :=
    if enPassantCapture then
      match move.attackerSide with
      | .white => pieces.modify .black .pawn (set0 · (move.to - 8))
      | .black => pieces.modify .white .pawn (set0 · (move.to + 8))
    else pieces
  pieces.updateBitboards

def isLegalAfterMove (pieces : Pieces) (move : Move) (enPassantCapture : Bool) : Bool :=
  let pieces := afterMove pieces move enPassantCapture
  let kingSquare := bsf (pieces.bb move.attackerSide .king)
  !isSquareAttacked pieces kingSquare move.attackerSide.inverse

/-- No square from `lo` to `hi` is attacked. -/
def noneAttacked (pieces : Pieces) (lo hi : ℕ) (bySide : PieceColor) : Bool :=
  (List.range' lo (hi + 1 - lo)).all (fun sq => !isSquareAttacked pieces sq bySide)

def isLegalMove (pieces : Pieces) (move : Move) (rights : CastlingRights) : Bool :=
  match move.flag with
  | .whiteShortCastling =>
    !isCheck pieces .white && rights.wSCastling && noneAttacked pieces 5 6 .black
  | .whiteLongCastling =>
    !isCheck pieces .white && rights.wLCastling && noneAttacked pieces 2 3 .black
  | .blackShortCastling =>
    !isCheck pieces .black && rights.bSCastling && noneAttacked pieces 61 62 .white
  | .blackLongCastling =>
    !isCheck pieces .black && rights.bLCastling && noneAttacked pieces 58 59 .white
  | flag => isLegalAfterMove pieces move (flag = .enPassantCapture)

/-! ## The generators -/

/-- The type loop that looks for the captured piece. -/
def findDefender (pieces : Pieces) (side : PieceColor) (square : ℕ) : Option PieceType :=
  PieceType.all.find? (fun type => getBit (pieces.bb side.inverse type) square)

def pieceMaskToMoves (pieces : Pieces) (mask : Bitboard) (attackerP : ℕ) (attackerType : PieceType)
    (attackerSide : PieceColor) (rights : CastlingRights) (moves : MoveList) : MoveList :=
  forEachBit mask moves fun moves defenderP =>
    let move : Move := ⟨attackerP, defenderP, attackerType, attackerSide,
      findDefender pieces attackerSide defenderP, some attackerSide.inverse, .default⟩
    if isLegalMove pieces move rights then moves.pushBack move else moves

/-- The end of three of the pawn loops: a legal move to the last rank is
pushed once for each promotion. -/
def pushPawnMove (pieces : Pieces) (move : Move) (rights : CastlingRights) (moves : MoveList) : MoveList :=
  if isLegalMove pieces move rights then
    if move.to < 8 || move.to > 55 then
      Flag.promotions.foldl (fun moves flag => moves.pushBack { move with flag }) moves
    else moves.pushBack move
  else moves

def pushIfLegal (pieces : Pieces) (move : Move) (rights : CastlingRights) (moves : MoveList) : MoveList :=
  if isLegalMove pieces move rights then moves.pushBack move else moves

def defaultMask (pieces : Pieces) (side : PieceColor) : Bitboard :=
  let pawns := pieces.bb side .pawn
  match side with
  | .white => (pawns <<< 8) &&& pieces.empty
  | .black => (pawns >>> 8) &&& pieces.empty

def longMask (pieces : Pieces) (side : PieceColor) : Bitboard :=
  match side with
  | .white => ((defaultMask pieces side &&& BitboardRows.Rows 2) <<< 8) &&& pieces.empty
  | .black => ((defaultMask pieces side &&& BitboardRows.Rows 5) >>> 8) &&& pieces.empty

def leftCaptures (pieces : Pieces) (side : PieceColor) : Bitboard :=
  let pawns := pieces.bb side .pawn
  match side with
  | .white => (pawns <<< 7) &&& BitboardColumns.InversionColumns 7 &&& pieces.sideBitboards.get .black
  | .black => (pawns >>> 9) &&& BitboardColumns.InversionColumns 7 &&& pieces.sideBitboards.get .white

def rightCaptures (pieces : Pieces) (side : PieceColor) : Bitboard :=
  let pawns := pieces.bb side .pawn
  match side with
  | .white => (pawns <<< 9) &&& BitboardColumns.InversionColumns 0 &&& pieces.sideBitboards.get .black
  | .black => (pawns >>> 7) &&& BitboardColumns.InversionColumns 0 &&& pieces.sideBitboards.get .white

/-- The en passant branch. It looks for white captures with the square on the
third rank and for black ones with the square on the sixth. -/
def addEnPassant (pieces : Pieces) (side : PieceColor) (enPassant : Option ℕ) (rights : CastlingRights)
    (moves : MoveList) : MoveList :=
  let pawns := pieces.bb side .pawn
  let capture (ep src : ℕ) : Move := ⟨src, ep, .pawn, side, none, none, .enPassantCapture⟩
  match enPassant with
  | none => moves
  | some ep =>
    match side with
    | .white =>
      if ep ≥ 16 && ep ≤ 23 then
        let moves := if ep % 8 != 0 && getBit pawns (ep - 9) then
          pushIfLegal pieces (capture ep (ep - 9)) rights moves else moves
        if ep % 8 != 7 && getBit pawns (ep - 7) then
          pushIfLegal pieces (capture ep (ep - 7)) rights moves else moves
      else moves
    | .black =>
      if ep ≥ 40 && ep ≤ 47 then
        let moves := if ep % 8 != 0 && getBit pawns (ep + 7) then
          pushIfLegal pieces (capture ep (ep + 7)) rights moves else moves
        if ep % 8 != 7 && getBit pawns (ep + 9) then
          pushIfLegal pieces (capture ep (ep + 9)) rights moves else moves
      else moves

def addPawnMoves (pieces : Pieces) (side : PieceColor) (enPassant : Option ℕ) (rights : CastlingRights)
    (moves : MoveList) : MoveList :=
  let white := side = PieceColor.white
  let moves := forEachBit (defaultMask pieces side) moves fun moves dst =>
    let src := if white then dst - 8 else dst + 8
    pushPawnMove pieces ⟨src, dst, .pawn, side, none, none, .default⟩ rights moves
  let moves := forEachBit (longMask pieces side) moves fun moves dst =>
    let src := if white then dst - 16 else dst + 16
    pushIfLegal pieces ⟨src, dst, .pawn, side, none, none, .pawnLongMove⟩ rights moves
  let moves := forEachBit (leftCaptures pieces side) moves fun moves dst =>
    let src := if white then dst - 7 else dst + 9
    pushPawnMove pieces
      ⟨src, dst, .pawn, side, findDefender pieces side dst, some side.inverse, .default⟩ rights moves
  let moves := forEachBit (rightCaptures pieces side) moves fun moves dst =>
    let src := if white then dst - 9 else dst + 7
    pushPawnMove pieces
      ⟨src, dst, .pawn, side, findDefender pieces side dst, some side.inverse, .default⟩ rights moves
  addEnPassant pieces side enPassant rights moves

/-- The loop over the pieces of one type that the five generators share; `mask`
gives the target squares. -/
def addPieceMoves (type : PieceType) (mask : Pieces → ℕ → PieceColor → Bitboard) (pieces : Pieces)
    (side : PieceColor) (rights : CastlingRights) (moves : MoveList) : MoveList :=
  forEachBit (pieces.bb side type) moves fun moves src =>
    pieceMaskToMoves pieces (mask pieces src side) src type side rights moves

def addKnightMoves : Pieces → PieceColor → CastlingRights → MoveList → MoveList :=
  addPieceMoves .knight fun pieces src side =>
    KnightMasks.Masks.getD src 0 &&& pieces.inversionSideBitboards.get side

def addBishopMoves : Pieces → PieceColor → CastlingRights → MoveList → MoveList :=
  addPieceMoves .bishop fun pieces src side => generateBishopMask pieces src side false

def addRookMoves : Pieces → PieceColor → CastlingRights → MoveList → MoveList :=
  addPieceMoves .rook fun pieces src side => generateRookMask pieces src side false

def addQueenMoves : Pieces → PieceColor → CastlingRights → MoveList → MoveList :=
  addPieceMoves .queen fun pieces src side => generateQueenMask pieces src side false

def addKingMoves : Pieces → PieceColor → CastlingRights → MoveList → MoveList :=
  addPieceMoves .king fun pieces src side =>
    KingMasks.Masks.getD src 0 &&& pieces.inversionSideBitboards.get side

/-- Every square from `lo` to `hi` is empty. -/
def emptyBetween (pieces : Pieces) (lo hi : ℕ) : Bool :=
  (List.range' lo (hi + 1 - lo)).all (getBit pieces.empty)

/-- One of the four castling branches: the flag is set, the squares from `lo`
to `hi` are empty, and the move passes `isLegalMove`. -/
def addCastling (pieces : Pieces) (right : Bool) (lo hi : ℕ) (move : Move) (rights : CastlingRights)
    (moves : MoveList) : MoveList :=
  if right then
    if emptyBetween pieces lo hi then pushIfLegal pieces move rights moves else moves
  else moves

def addCastlingMoves (pieces : Pieces) (side : PieceColor) (rights : CastlingRights) (moves : MoveList) :
    MoveList :=
  match side with
  | .white =>
    let moves := addCastling pieces rights.wSCastling 5 6
      ⟨4, 6, .king, .white, none, none, .whiteShortCastling⟩ rights moves
    addCastling pieces rights.wLCastling 1 3 ⟨4, 2, .king, .white, none, none, .whiteLongCastling⟩ rights moves
  | .black =>
    let moves := addCastling pieces rights.bSCastling 61 62
      ⟨60, 62, .king, .black, none, none, .blackShortCastling⟩ rights moves
    addCastling pieces rights.bLCastling 57 59 ⟨60, 58, .king, .black, none, none, .blackLongCastling⟩ rights moves

def generateAllMoves (pieces : Pieces) (side : PieceColor) (enPassant : Option ℕ) (rights : CastlingRights) :
    MoveList :=
  let moves := MoveList.empty
  let moves := addPawnMoves pieces side enPassant rights moves
  let moves := addKnightMoves pieces side rights moves
  let moves := addBishopMoves pieces side rights moves
  let moves := addRookMoves pieces side rights moves
  let moves := addQueenMoves pieces side rights moves
  let moves := addKingMoves pieces side rights moves
  addCastlingMoves pieces side rights moves

def hasLegalMoves (pieces : Pieces) (side : PieceColor) (enPassant : Option ℕ) (rights : CastlingRights) : Bool :=
  (generateAllMoves pieces side enPassant rights).size > 0

end MoveGen

end ChessGame
