import ChessGame.Legality
import ChessGame.Single
/-!
# En passant

`apply_move` records the square a double push passes over (`enPassant_iff`). The
generator looks for it on the rank behind the mover's own pawns, where only the
mover's own double pushes put it, so no en passant capture is ever generated.
-/
open Runs

namespace ChessGame

open MoveGen Rules

variable {pos next : Position} {m : Move} {l : List (Position × Move)} {e : ℕ}

/-- The last move was a two-square pawn advance that passed over `e`. -/
def PassedOver (l : List (Position × Move)) (e : ℕ) : Prop :=
  ∃ x, l.getLast? = some x ∧ x.2.attackerType = .pawn ∧ ranks x.2.from x.2.to = 2 ∧
    file e = file x.2.from ∧ rank e = rank x.2.from + forward x.2.attackerSide

/-- The board after the pawn of `s` on `f` has captured the pawn that passed over `e`. -/
def captured (b : Board) (s : PieceColor) (f e : ℕ) : Board :=
  Function.update (Function.update (Function.update b f none) (square (file e) (rank f)) none) e (some (s, .pawn))

/-- The rules allow the capture from `f` to `e`, with the engine's test for "attacked". -/
structure EnPassantAllowed (l : List (Position × Move)) (pos : Position) (f e : ℕ) : Prop where
  passed : PassedOver l e
  pawn : pos.pieces.board f = some (pos.sideToMove, .pawn)
  attacks : PawnAttacks pos.sideToMove f e
  safe : ¬ InCheck Engine (captured pos.pieces.board pos.sideToMove f e) pos.sideToMove

/-- The generator offers the capture from `f` to `e`. -/
def EnPassantOffered (pos : Position) (f e : ℕ) : Prop :=
  ∃ m ∈ pos.generateMoves.moves, m.flag = .enPassantCapture ∧ m.from = f ∧ m.to = e

instance (b : Board) (q : ℕ) (c : PieceColor) : Decidable (Engine b q c) := by
  unfold Engine; infer_instance

instance (p q : ℕ) (c : PieceColor) : Decidable (PawnAttacks c p q) := by
  unfold PawnAttacks; infer_instance

/-! ## The square -/

/-- Only a double push moves a pawn two ranks. -/
theorem Effect.long_iff (h : Effect pos m next) :
    m.flag = .pawnLongMove ↔ m.attackerType = .pawn ∧ ranks m.from m.to = 2 := by
  rcases h.made with ⟨hg, -⟩ | ⟨k, hk, rfl⟩
  · have hflag : m.ply.flag = m.flag := rfl
    obtain ⟨ht, hr, hf⟩ | ⟨ht, hr, hf⟩ | ⟨ht, hf⟩ := hg.1.flag_by <;> rw [hflag] at hf <;> simp only [Move.ply] at ht
    · have hr' : ranks m.from m.to = 1 := hr
      have hne : m.flag ≠ .pawnLongMove := by
        rcases pawnFlag_cases hf with hf | hf
        · simp [hf]
        · rintro he
          simp [he, Flag.promotions] at hf
      simp [hne, hr']
    · exact ⟨fun _ => ⟨ht, hr⟩, fun _ => hf⟩
    · simp [hf, ht]
  · rcases Castling.cases hk.mem with rfl | rfl | rfl | rfl <;> decide

/-- The square in the middle of a double push. -/
theorem Effect.middle_iff (h : Effect pos m next) (hf : m.flag = .pawnLongMove) :
    (m.from + m.to) / 2 = e ↔ file e = file m.from ∧ rank e = rank m.from + forward m.attackerSide := by
  rcases h.made with ⟨hg, -⟩ | ⟨k, hk, rfl⟩
  · obtain ⟨-, hr, hx, hy⟩ := hg.1.long hf
    rw [hg.carries.side]
    generalize pos.sideToMove = s at hr hy
    simp only [Move.ply] at hr hx hy
    cases s <;> simp only [startRank, forward, file, rank] at * <;> omega
  · rcases Castling.cases hk.mem with rfl | rfl | rfl | rfl <;> cases hf

/-- The position remembers the square that its last move passed over. -/
theorem enPassant_iff (h : Run Played Position.init l pos) : pos.enPassant = some e ↔ PassedOver l e := by
  cases h with
  | nil =>
    constructor
    · exact fun h => nomatch h
    · rintro ⟨x, hx, -⟩
      cases hx
  | @snoc l s m _ hr hp =>
    have he := (show Reached s from ⟨l, hr⟩).effect hp
    have hlast : (l ++ [(s, m)]).getLast? = some (s, m) := List.getLast?_concat
    unfold PassedOver
    rw [hlast, he.enPassant]
    simp only [Option.some.injEq, exists_eq_left']
    by_cases hf : m.flag = .pawnLongMove
    · obtain ⟨ht, hr⟩ := he.long_iff.1 hf
      rw [if_pos hf, Option.some.injEq, he.middle_iff hf]
      simp [ht, hr]
    · rw [if_neg hf]
      constructor
      · exact fun h => nomatch h
      · rintro ⟨ht, hr, -⟩
        exact absurd (he.long_iff.2 ⟨ht, hr⟩) hf

/-! ## The captures -/

/-- The generator's range test fails on every square that `apply_move` records. -/
theorem Sound.not_offered (h : Sound pos) (f e : ℕ) : ¬ EnPassantOffered pos f e := by
  rintro ⟨m, hm, hf, -⟩
  rcases h.made hm with ⟨hg, -⟩ | ⟨k, hk, rfl⟩
  · exact hg.1.not_special.2 hf
  · rcases Castling.cases hk.mem with rfl | rfl | rfl | rfl <;> cases hf

/-- After a game of at most 2^24 moves, the generator is right about an en passant capture exactly when the rules
forbid it. -/
theorem enPassant_exact_iff (h : Run Single.Played Position.init l pos) (hl : l.length ≤ 2 ^ 24) (f e : ℕ) :
    (EnPassantOffered pos f e ↔ EnPassantAllowed l pos f e) ↔ ¬ EnPassantAllowed l pos f e := by
  rw [Single.run_iff hl] at h
  have hno := (show Reached pos from ⟨l, h⟩).sound.not_offered f e
  constructor
  · intro hiff ha
    exact hno (hiff.2 ha)
  · intro hn
    exact ⟨fun ho => absurd ho hno, fun ha => absurd ha hn⟩

/-- After 1.e4 no black pawn attacks e3. -/
theorem enPassant_exact_pawn_move :
    ∃ l pos, Run Single.Played Position.init l pos ∧ l.map (fun x => (x.2.from, x.2.to)) = [(12, 28)] ∧
      (EnPassantOffered pos 27 20 ↔ EnPassantAllowed l pos 27 20) := by
  have hend : (lineOf [(12, 28)]).any (fun r => r.2.pieces.board 27 = none) = true := by decide +kernel
  obtain ⟨⟨l, pos⟩, hl, hd4⟩ := (Option.any_eq_true _ _).1 hend
  rw [decide_eq_true_eq] at hd4
  obtain ⟨hr, hsq⟩ := lineOf_run hl
  have hr := Single.run_of_squares hr hsq (by decide)
  have hl : l.length = 1 := by simpa using congrArg List.length hsq
  refine ⟨l, pos, hr, hsq, (enPassant_exact_iff hr (by omega) 27 20).2 fun ha => ?_⟩
  rw [ha.pawn] at hd4
  cases hd4

/-- 1.e4 a6 2.e5 d5: white's pawn on e5 may capture on d6, and the capture is not offered. -/
theorem enPassant_missed :
    ∃ l pos, Run Single.Played Position.init l pos ∧
      l.map (fun x => (x.2.from, x.2.to)) = [(12, 28), (48, 40), (28, 36), (51, 35)] ∧
      EnPassantAllowed l pos 36 43 ∧ ¬ EnPassantOffered pos 36 43 := by
  have hend : (lineOf [(12, 28), (48, 40), (28, 36), (51, 35)]).any (fun r =>
      r.2.enPassant = some 43 && r.2.sideToMove = .white && r.2.pieces.board 36 = some (.white, .pawn) &&
        !decide (InCheck Engine (captured r.2.pieces.board .white 36 43) .white)) = true := by decide +kernel
  obtain ⟨⟨l, pos⟩, hl, htest⟩ := (Option.any_eq_true _ _).1 hend
  simp only [Bool.and_eq_true, decide_eq_true_eq, Bool.not_eq_true', decide_eq_false_iff_not] at htest
  obtain ⟨⟨⟨hep, hside⟩, hpawn⟩, hsafe⟩ := htest
  obtain ⟨hr, hsq⟩ := lineOf_run hl
  have hallowed : EnPassantAllowed l pos 36 43 := by
    refine ⟨(enPassant_iff hr).1 hep, ?_, ?_, ?_⟩
    all_goals rw [hside]
    · exact hpawn
    · decide
    · exact hsafe
  have hno := (show Reached pos from ⟨l, hr⟩).sound.not_offered 36 43
  exact ⟨l, pos, Single.run_of_squares hr hsq (by decide), hsq, hallowed, hno⟩

end ChessGame
