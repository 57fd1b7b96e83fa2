import ChessGame.Pieces
/-!
# Zobrist hashing

`zobrist.hpp`, `zobrist.cpp`: a hash is the exclusive or of constants drawn
from a linear congruential generator, one for each piece on its square and one
for each flag of the state.
-/

namespace ChessGame

namespace Zobrist

def Seed : BitVec 64 := 0x98f107#64
def Multiplier : BitVec 64 := 0x71abc9#64
def Summand : BitVec 64 := 0xff1b3f#64

def nextRandom (prev : BitVec 64) : BitVec 64 := Multiplier * prev + Summand

/-- The value of `prev` after `n` rounds. -/
def random : ℕ → BitVec 64
  | 0 => Seed
  | n + 1 => nextRandom (random n)

def colorIndex : PieceColor → ℕ
  | .white => 0
  | .black => 1

def typeIndex : PieceType → ℕ
  | .pawn => 0
  | .knight => 1
  | .bishop => 2
  | .rook => 3
  | .queen => 4
  | .king => 5

/-- The table is filled square by square, side by side, type by type. -/
def Constants (square : ℕ) (side : PieceColor) (type : PieceType) : BitVec 64 :=
  random (square * 12 + colorIndex side * 6 + typeIndex type + 1)

def BlackMove : BitVec 64 := nextRandom (Constants 63 .black .king)
def WhiteLongCastling : BitVec 64 := nextRandom BlackMove
def WhiteShortCastling : BitVec 64 := nextRandom WhiteLongCastling
def BlackLongCastling : BitVec 64 := nextRandom WhiteShortCastling
def BlackShortCastling : BitVec 64 := nextRandom BlackLongCastling

end Zobrist

abbrev ZobristHash := BitVec 64

namespace ZobristHash

def invertPiece (h : ZobristHash) (square : ℕ) (type : PieceType) (side : PieceColor) : ZobristHash :=
  h ^^^ Zobrist.Constants square side type

def invertMove (h : ZobristHash) : ZobristHash := h ^^^ Zobrist.BlackMove
def invertWLCastling (h : ZobristHash) : ZobristHash := h ^^^ Zobrist.WhiteLongCastling
def invertWSCastling (h : ZobristHash) : ZobristHash := h ^^^ Zobrist.WhiteShortCastling
def invertBLCastling (h : ZobristHash) : ZobristHash := h ^^^ Zobrist.BlackLongCastling
def invertBSCastling (h : ZobristHash) : ZobristHash := h ^^^ Zobrist.BlackShortCastling

/-- The hash computed from scratch. -/
def ofPieces (pieces : Pieces) (blackMove wLCastling wSCastling bLCastling bSCastling : Bool) : ZobristHash :=
  let h : ZobristHash := 0#64
  let h := if blackMove then invertMove h else h
  let h := if wLCastling then invertWLCastling h else h
  let h := if wSCastling then invertWSCastling h else h
  let h := if bLCastling then invertBLCastling h else h
  let h := if bSCastling then invertBSCastling h else h
  (List.range 64).foldl (fun h square =>
    match pieces.colorAt square, pieces.pieceAt square with
    | some color, some type => invertPiece h square type color
    | _, _ => h) h

end ZobristHash

end ChessGame
