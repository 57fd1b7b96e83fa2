import ChessGame.Pieces
/-!
# Moves and move lists

`move.hpp`, `move_list.hpp`. A `MoveList` holds at most `MAX_MOVES` moves and
drops the ones pushed past that; `pushAll_moves` sums up any sequence of pushes.
-/

namespace ChessGame

/-- `Move::Flag`. -/
inductive Flag where
  | default | pawnLongMove | enPassantCapture
  | whiteLongCastling | whiteShortCastling | blackLongCastling | blackShortCastling
  | promoteToKnight | promoteToBishop | promoteToRook | promoteToQueen
  deriving DecidableEq, Repr

/-- The codes of the flags; the source compares them. -/
def Flag.code : Flag → ℕ
  | .default => 0
  | .pawnLongMove => 1
  | .enPassantCapture => 2
  | .whiteLongCastling => 3
  | .whiteShortCastling => 4
  | .blackLongCastling => 5
  | .blackShortCastling => 6
  | .promoteToKnight => 7
  | .promoteToBishop => 8
  | .promoteToRook => 9
  | .promoteToQueen => 10

/-- `flag >= WhiteLongCastling && flag <= BlackShortCastling`. -/
def Flag.isCastling (f : Flag) : Bool :=
  Flag.whiteLongCastling.code ≤ f.code && f.code ≤ Flag.blackShortCastling.code

/-- `flag >= PromoteToKnight && flag <= PromoteToQueen`. -/
def Flag.isPromotion (f : Flag) : Bool :=
  Flag.promoteToKnight.code ≤ f.code && f.code ≤ Flag.promoteToQueen.code

/-- The flags of the four moves a promoting pawn move becomes, in their order. -/
def Flag.promotions : List Flag := [.promoteToKnight, .promoteToBishop, .promoteToRook, .promoteToQueen]

theorem Flag.mem_promotions {f : Flag} : f ∈ Flag.promotions ↔ f.isPromotion = true := by
  cases f <;> decide

/-- A type or side of the defender is `none` where the source has 255. -/
structure Move where
  «from» : ℕ
  «to» : ℕ
  attackerType : PieceType
  attackerSide : PieceColor
  defenderType : Option PieceType
  defenderSide : Option PieceColor
  flag : Flag := .default
  deriving DecidableEq, Repr

/-- The four castling flags of a position, passed together. -/
structure CastlingRights where
  wLCastling : Bool
  wSCastling : Bool
  bLCastling : Bool
  bSCastling : Bool
  deriving DecidableEq, Repr

def MAX_MOVES : ℕ := 218

/-- At most `MAX_MOVES` moves. -/
structure MoveList where
  moves : List Move
  size_le : moves.length ≤ MAX_MOVES

namespace MoveList

def empty : MoveList := ⟨[], Nat.zero_le _⟩

def size (l : MoveList) : ℕ := l.moves.length

def pushBack (l : MoveList) (m : Move) : MoveList :=
  if h : l.size < MAX_MOVES then
    ⟨l.moves ++ [m], by simpa [size] using h⟩
  else l

/-- Pushing the moves of a list, one after the other. -/
def pushAll (l : MoveList) (ms : List Move) : MoveList := ms.foldl pushBack l

theorem pushBack_moves (l : MoveList) (m : Move) : (l.pushBack m).moves = (l.moves ++ [m]).take MAX_MOVES := by
  unfold pushBack
  split
  · rename_i h
    rw [List.take_of_length_le]
    simpa [size] using h
  · rename_i h
    have hl : l.moves.length = MAX_MOVES := Nat.le_antisymm l.size_le (by simpa [size] using h)
    rw [List.take_append_of_le_length (by omega), List.take_of_length_le (by omega)]

/-- The list holds the first `MAX_MOVES` of the moves pushed. -/
theorem pushAll_moves (l : MoveList) (ms : List Move) : (l.pushAll ms).moves = (l.moves ++ ms).take MAX_MOVES := by
  induction ms generalizing l with
  | nil => rw [List.append_nil, List.take_of_length_le l.size_le]; rfl
  | cons m ms ih =>
    have h := ih (l.pushBack m)
    simp only [pushAll, List.foldl_cons] at h ⊢
    rw [h, pushBack_moves, List.append_cons l.moves m ms]
    by_cases hl : (l.moves ++ [m]).length ≤ MAX_MOVES
    · rw [List.take_of_length_le hl]
    · have hl' : MAX_MOVES ≤ (l.moves ++ [m]).length := by omega
      rw [List.take_append_of_le_length (by rw [List.length_take]; omega), List.take_append_of_le_length hl',
        List.take_take, Nat.min_self]

theorem ext {l l' : MoveList} (h : l.moves = l'.moves) : l = l' := by
  cases l; cases l'; simpa using h

theorem pushAll_append (l : MoveList) (ms ms' : List Move) :
    (l.pushAll ms).pushAll ms' = l.pushAll (ms ++ ms') := by
  simp [pushAll, List.foldl_append]

/-- A loop whose body pushes `f x` pushes all of them. -/
theorem foldl_pushAll {α : Type} (xs : List α) (f : α → List Move) (l : MoveList) :
    xs.foldl (fun l x => l.pushAll (f x)) l = l.pushAll (xs.flatMap f) := by
  induction xs generalizing l with
  | nil => rfl
  | cons x xs ih => rw [List.foldl_cons, ih, pushAll_append, List.flatMap_cons]

end MoveList

end ChessGame
