import ChessGame.Play
import ChessGame.Lib.Significand
/-!
# The counters in single precision

`_move_ctr` and `_fifty_moves_ctr` are floats. Adding a half is exact until a counter
has come to 2^23, and there the sum is rounded back. `Position.applyMove` counts the
halves without end; `Single.applyMove` counts them as the source does. Up to 2^24 moves
the two play the same games (`run_iff`).
-/
open Runs

namespace ChessGame.Single

open MoveGen Position

variable {pos next : Position} {m : Move} {l : List (Position × Move)}

/-- `ctr += 0.5f`, the counter in halves. A float has 24 bits. -/
def addHalf (ctr : ℕ) : ℕ := Significand.increment 24 ctr

/-- The counters and the history. -/
def updateCounters (pos : Position) (move : Move) : Position :=
  let hash := pos.hash.invertMove
  { pos with
    moveCtr := addHalf pos.moveCtr
    hash
    fiftyMovesCtr := if isIrreversible move then 0 else addHalf pos.fiftyMovesCtr
    history := (if isIrreversible move then [] else pos.history) ++ [hash] }

/-- Every field is saved before the move and restored when the mover is left in check. -/
def applyMove (pos : Position) (move : Move) : Bool × Position :=
  let next := updateCounters (((pos.movePieces move).updateCastlingRights move.from).updateEnPassant move) move
  if isCheck next.pieces move.attackerSide then (false, pos) else (true, next)

/-- A generated move, and the position after `apply_move` has accepted it. -/
def Played (pos : Position) (m : Move) (next : Position) : Prop :=
  m ∈ pos.generateMoves.moves ∧ applyMove pos m = (true, next)

/-- The positions reached from `Position()` by generated moves. -/
def Reached (pos : Position) : Prop := Reachable Played Position.init pos

/-! ## A move -/

theorem addHalf_eq {ctr : ℕ} (h : ctr ≤ 2 ^ 24) : addHalf ctr = min (ctr + 1) (2 ^ 24) :=
  Significand.increment_eq (by decide) h

/-- What `apply_move` does before it counts leaves the counters alone. -/
theorem counters_kept (pos : Position) (m : Move) :
    (((pos.movePieces m).updateCastlingRights m.from).updateEnPassant m).moveCtr = pos.moveCtr ∧
      (((pos.movePieces m).updateCastlingRights m.from).updateEnPassant m).fiftyMovesCtr = pos.fiftyMovesCtr := by
  obtain ⟨pieces, hash, hmp⟩ := pos.movePieces_only m
  obtain ⟨hash', hep⟩ := updateEnPassant_eq ((pos.movePieces m).updateCastlingRights m.from) m
  rw [hep, hmp]
  unfold updateCastlingRights
  split_ifs <;> exact ⟨rfl, rfl⟩

/-- Below the limit nothing is rounded. -/
theorem applyMove_eq (hm : pos.moveCtr < 2 ^ 24) (hf : pos.fiftyMovesCtr < 2 ^ 24) :
    applyMove pos m = pos.applyMove m := by
  obtain ⟨hmove, hfifty⟩ := counters_kept pos m
  unfold applyMove Position.applyMove updateCounters Position.updateCounters
  dsimp only
  rw [hmove, hfifty, addHalf_eq hm.le, addHalf_eq hf.le, min_eq_left hm, min_eq_left hf]

/-- The king test does not depend on the counters. -/
theorem applyMove_fst (pos : Position) (m : Move) : (applyMove pos m).1 = (pos.applyMove m).1 := by
  unfold applyMove Position.applyMove updateCounters Position.updateCounters
  dsimp only
  split <;> rfl

theorem applyMove_counts (h : applyMove pos m = (true, next)) :
    next.moveCtr = addHalf pos.moveCtr ∧
      next.fiftyMovesCtr = if isIrreversible m then 0 else addHalf pos.fiftyMovesCtr := by
  obtain ⟨hmove, hfifty⟩ := counters_kept pos m
  unfold applyMove updateCounters at h
  dsimp only at h
  split at h
  · cases h
  · obtain rfl := (Prod.mk.inj h).2
    exact ⟨congrArg addHalf hmove, by rw [hfifty]⟩

/-! ## Games -/

/-- The move counter counts the moves until it stops, and the other one is never ahead of it. -/
theorem run_counters (h : Run Played Position.init l pos) :
    pos.moveCtr = min l.length (2 ^ 24) ∧ pos.fiftyMovesCtr ≤ pos.moveCtr := by
  induction h with
  | nil => exact ⟨rfl, le_refl _⟩
  | @snoc l pos m next hr hp ih =>
    obtain ⟨hmove, hle⟩ := ih
    obtain ⟨hmove', hfifty'⟩ := applyMove_counts hp.2
    have hlimit : pos.moveCtr ≤ 2 ^ 24 := hmove ▸ min_le_right _ _
    rw [hmove', hfifty', addHalf_eq hlimit, addHalf_eq (hle.trans hlimit), List.length_append, List.length_singleton]
    -- both counters stop at the same limit
    constructor
    · omega
    · split <;> omega

theorem run_applyMove (h : Run Played Position.init l pos) (hl : l.length < 2 ^ 24) (m : Move) :
    applyMove pos m = pos.applyMove m := by
  obtain ⟨hmove, hfifty⟩ := run_counters h
  rw [min_eq_left hl.le] at hmove
  exact applyMove_eq (by omega) (by omega)

theorem played_iff (h : Run Played Position.init l pos) (hl : l.length < 2 ^ 24) :
    Played pos m next ↔ ChessGame.Played pos m next := by
  unfold Played ChessGame.Played
  rw [run_applyMove h hl]

/-- Up to the limit the games are those with exact counters. -/
theorem run_iff (hl : l.length ≤ 2 ^ 24) :
    Run Played Position.init l pos ↔ Run ChessGame.Played Position.init l pos := by
  -- what precedes the last move is within the limit too, and there both play it alike
  constructor
  · intro h
    induction h with
    | nil => exact .nil
    | snoc hr hp ih =>
      rw [List.length_append, List.length_singleton] at hl
      exact (ih (by omega)).snoc ((played_iff hr hl).1 hp)
  · intro h
    induction h with
    | nil => exact .nil
    | snoc hr hp ih =>
      rw [List.length_append, List.length_singleton] at hl
      have hr' := ih (by omega)
      exact hr'.snoc ((played_iff hr' hl).2 hp)

/-- A short game given by its squares. -/
theorem run_of_squares {game : List (ℕ × ℕ)} (h : Run ChessGame.Played Position.init l pos)
    (hsq : l.map (fun x => (x.2.from, x.2.to)) = game) (hshort : game.length ≤ 2 ^ 24) :
    Run Played Position.init l pos := by
  refine (run_iff ?_).2 h
  rwa [← hsq, List.length_map] at hshort

end ChessGame.Single
