import ChessGame.Play
/-!
# What the bitboards of a game look like

However long the game, no two pieces share a square, the derived bitboards are up
to date, both readers agree on every square, and no pawn stands on an outer rank.
-/
open Runs

namespace ChessGame

open MoveGen Rules

variable {pos next : Position} {m : Move} {p : Pieces} {b : Board} {s : PieceColor} {k : Castling}

/-- Both readers find nothing on the square, or the one piece that is there. -/
def Agrees (p : Pieces) (q : ℕ) : Prop :=
  (p.pieceAt q = none ∧ p.colorAt q = none ∧ ∀ c t, (p.bb c t).getLsbD q = false) ∨
    ∃ c t, p.pieceAt q = some t ∧ p.colorAt q = some c ∧ ∀ c' t', (p.bb c' t').getLsbD q = true ↔ c' = c ∧ t' = t

structure WellFormed (p : Pieces) : Prop where
  disjoint : ∀ {q c t c' t'}, (p.bb c t).getLsbD q = true → (p.bb c' t').getLsbD q = true → c = c' ∧ t = t'
  derived : p.updateBitboards = p
  agrees : ∀ q < 64, Agrees p q
  noPawns : ∀ q < 64, ∀ c, (p.bb c .pawn).getLsbD q = true → rank q ≠ 0 ∧ rank q ≠ 7

/-! ## The readers -/

theorem Pieces.Valid.agrees (hv : p.Valid) (q : ℕ) : Agrees p q := by
  by_cases hb : ∃ c t, (p.bb c t).getLsbD q = true
  · obtain ⟨c, t, hq⟩ := hb
    refine .inr ⟨c, t, hv.pieceAt_eq hq, hv.colorAt_eq hq, fun c' t' => ⟨fun hq' => hv.disjoint hq' hq, ?_⟩⟩
    rintro ⟨rfl, rfl⟩
    exact hq
  · simp only [not_exists, Bool.not_eq_true] at hb
    have hfind : ∀ c, PieceType.all.find? (fun t => BitboardOps.getBit (p.bb c t) q) = none := fun c =>
      Pieces.find_type_none fun t => by rw [BitboardOps.getBit_eq, hb c t]
    have hside : ∀ c, (p.sideUnion c).getLsbD q = false := by
      intro c
      rw [← Bool.not_eq_true, Pieces.getLsbD_sideUnion]
      rintro ⟨t, ht⟩
      rw [hb c t] at ht
      cases ht
    refine .inl ⟨?_, ?_, hb⟩
    · unfold Pieces.pieceAt
      rw [hfind .white]
      exact hfind .black
    · simp [Pieces.colorAt, hv.side_eq, hside]

/-! ## Pawns -/

/-- No pawn on an outer rank. -/
def PawnsInside (b : Board) : Prop := ∀ q c, b q = some (c, .pawn) → rank q ≠ 0 ∧ rank q ≠ 7

theorem Rules.Plays.pawn_target {r : Ply} (h : Plays b s r) (hb : PawnsInside b) (hfrom : r.from < 64)
    (hp : promoted r.flag r.attackerType = .pawn) : rank r.to ≠ 0 ∧ rank r.to ≠ 7 := by
  -- a pawn that does not promote has not reached the last rank
  have hstep : ∀ {src dst : ℕ} {f : Flag}, src < 64 → b src = some (s, .pawn) → dst < 64 →
      rank dst = rank src + forward s →
      PawnFlag s dst f → promoted f .pawn = .pawn → rank dst ≠ 0 ∧ rank dst ≠ 7 := by
    intro src dst f hlt hsrc hdst hr hf hpawn
    have hin := hb src s hsrc
    obtain ⟨-, hf⟩ | ⟨hlast, -⟩ := hf
    · simp only [Flag.promotions, List.mem_cons, List.not_mem_nil, or_false] at hf
      rcases hf with rfl | rfl | rfl | rfl <;> cases hpawn
    · cases s <;> simp only [rank, forward, lastRank] at * <;> omega
  cases h with
  | push hsrc hq _ hr _ hf => exact hstep hfrom hsrc hq hr hf hp
  | double _ hstart _ _ _ hy₁ _ _ hy₂ _ =>
    cases s <;> simp only [startRank, rank, forward] at * <;> omega
  | capture hsrc hq ha _ hf => exact hstep hfrom hsrc hq ha.2 hf hp
  | piece _ hne _ _ _ => exact absurd hp hne

theorem pawnsInside_next (hs : Sound pos) (h : Effect pos m next) (hb : PawnsInside pos.pieces.board) :
    PawnsInside next.pieces.board := by
  intro q c hq
  rw [h.board] at hq
  obtain ⟨hg, -⟩ | ⟨k, hk, rfl⟩ := h.made
  · rw [moved, hg.1.not_special.1] at hq
    dsimp only at hq
    rw [hg.1.after_eq, placed] at hq
    by_cases hto : q = m.to
    · subst hto
      rw [Function.update_self, Option.some.injEq, Prod.mk.injEq] at hq
      exact hg.1.pawn_target hb (hs.valid.lt_of_board hg.carries.start) hq.2
    · rw [Function.update_of_ne hto] at hq
      by_cases hfrom : q = m.from
      · rw [hfrom, Function.update_self] at hq
        cases hq
      · rw [Function.update_of_ne hfrom] at hq
        exact hb q c hq
  · rw [moved_castle _ hk.mem, castled] at hq
    split_ifs at hq
    · simp at hq
    · simp at hq
    · exact hb q c hq

theorem init_pawnsInside : PawnsInside Position.init.pieces.board := by
  intro q c hq
  have hpawns : ∀ q < 64, ∀ c ∈ [PieceColor.white, .black], Position.init.pieces.board q = some (c, .pawn) →
      rank q ≠ 0 ∧ rank q ≠ 7 := by decide +kernel
  exact hpawns q (init_valid.lt_of_board hq) c (by cases c <;> simp) hq

/-! ## Games -/

theorem Reached.pawnsInside (h : Reached pos) : PawnsInside pos.pieces.board := by
  have hinv : Sound pos ∧ PawnsInside pos.pieces.board := by
    refine h.inv (fun pos => Sound pos ∧ PawnsInside pos.pieces.board) ⟨init_sound, init_pawnsInside⟩ ?_
    rintro pos m next ⟨hs, hb⟩ hp
    have he := hp.effect hs
    exact ⟨he.sound, pawnsInside_next hs he hb⟩
  exact hinv.2

/-- The bitboards are well formed in every position that generated moves lead to. -/
theorem reached_wellFormed (h : Reached pos) : WellFormed pos.pieces := by
  have hv := h.sound.valid
  refine ⟨hv.disjoint, hv.derived, fun q _ => hv.agrees q, ?_⟩
  intro q _ c hq
  exact h.pawnsInside q c (hv.board_eq_some.2 hq)

/-- 1.e4 d5 2.exd5 -/
theorem reached_wellFormed_capture : ∃ pos, line [(12, 28), (51, 35), (28, 35)] = some pos ∧ WellFormed pos.pieces := by
  have hsome : (line [(12, 28), (51, 35), (28, 35)]).isSome = true := by decide +kernel
  obtain ⟨pos, hpos⟩ := Option.isSome_iff_exists.1 hsome
  obtain ⟨l, hr, -⟩ := line_run hpos
  exact ⟨pos, hpos, reached_wellFormed ⟨l, hr⟩⟩

end ChessGame
