import ChessGame.Bitboard
/-!
# Attack masks

`knight_masks.hpp` and `sliders_masks.hpp`: the tables of the squares a knight
or a king reaches from a square, and of the eight rays out of a square.
-/

namespace ChessGame

open BitboardOps

/-- The squares at distances `dx`, `dy` from `p0` that `reaches` accepts; both
step tables are filled by this loop. -/
def stepMask (reaches : ℕ → ℕ → Bool) (p0 : ℕ) : Bitboard :=
  let x0 := p0 % 8
  let y0 := p0 / 8
  (List.range 8).foldl (fun mask x1 =>
    (List.range 8).foldl (fun mask y1 =>
      let dx := if x0 > x1 then x0 - x1 else x1 - x0
      let dy := if y0 > y1 then y0 - y1 else y1 - y0
      if reaches dx dy then set1 mask (y1 * 8 + x1) else mask) mask) 0#64

/-- `calc_masks()`: the table has one mask a square. -/
def calcMasks (reaches : ℕ → ℕ → Bool) : List Bitboard := (List.range 64).map (stepMask reaches)

def KnightMasks.Masks : List Bitboard :=
  calcMasks fun dx dy => (dx == 2 && dy == 1) || (dx == 1 && dy == 2)

def KingMasks.Masks : List Bitboard :=
  calcMasks fun dx dy => dx ≤ 1 && dy ≤ 1 && !(dx == 0 && dy == 0)

namespace SlidersMasks

inductive Direction where
  | north | south | west | east | northWest | northEast | southWest | southEast
  deriving DecidableEq, Repr

/-- The change of `x` and `y` in one step. -/
def Direction.step : Direction → ℤ × ℤ
  | .north => (0, 1)
  | .south => (0, -1)
  | .west => (-1, 0)
  | .east => (1, 0)
  | .northWest => (-1, 1)
  | .northEast => (1, 1)
  | .southWest => (-1, -1)
  | .southEast => (1, -1)

/-- `while (true)`: step, leave the loop off the board, set the bit. Eight
steps leave the board in every direction. -/
def rayLoop (d : Direction) : ℕ → ℤ → ℤ → Bitboard → Bitboard
  | 0, _, _, mask => mask
  | fuel + 1, x, y, mask =>
    let x := x + d.step.1
    let y := y + d.step.2
    if x > 7 || x < 0 || y > 7 || y < 0 then mask
    else rayLoop d fuel x y (set1 mask (y * 8 + x).toNat)

def calcRay (square : ℕ) (d : Direction) : Bitboard :=
  rayLoop d 8 (square % 8 : ℕ) (square / 8 : ℕ) 0#64

/-- `Masks[square][direction]`. -/
def Masks (d : Direction) : List Bitboard := (List.range 64).map (calcRay · d)

end SlidersMasks

end ChessGame
