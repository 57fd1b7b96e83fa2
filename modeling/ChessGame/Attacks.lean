import ChessGame.MoveGen
import ChessGame.Rules
/-!
# What the attack test sees

On valid bitboards `isSquareAttacked` answers whether a pawn, a knight or a
king attacks the square (`isSquareAttacked_iff`). The ray masks it computes
keep only pieces of the side opposite to the attacker and are then intersected
with the attacker's bishops, rooks and queens, so they never contribute.
-/
open Scan

namespace ChessGame

open BitboardOps MoveGen Rules

/-! ## The step tables -/

theorem getLsbD_foldl_if (l : List ℕ) (c : ℕ → Bool) (f : ℕ → ℕ) (bb : Bitboard) (q : ℕ) :
    (l.foldl (fun m i => if c i then set1 m (f i) else m) bb).getLsbD q = true ↔
      bb.getLsbD q = true ∨ ∃ i ∈ l, c i = true ∧ f i = q ∧ q < 64 := by
  induction l generalizing bb with
  | nil => simp
  | cons i l ih =>
    rw [List.foldl_cons, ih]
    by_cases hc : c i = true
    · simp only [hc, if_true, getLsbD_set1, Bool.or_eq_true, decide_eq_true_eq, List.exists_mem_cons_iff,
        true_and, eq_comm (a := q), or_assoc]
    · simp [hc]

theorem getLsbD_foldl_foldl (xs ys : List ℕ) (c : ℕ → ℕ → Bool) (f : ℕ → ℕ → ℕ) (bb : Bitboard) (q : ℕ) :
    (xs.foldl (fun m x => ys.foldl (fun m y => if c x y then set1 m (f x y) else m) m) bb).getLsbD q = true ↔
      bb.getLsbD q = true ∨ ∃ x ∈ xs, ∃ y ∈ ys, c x y = true ∧ f x y = q ∧ q < 64 := by
  induction xs generalizing bb with
  | nil => simp
  | cons x xs ih =>
    rw [List.foldl_cons, ih, getLsbD_foldl_if]
    simp [or_assoc]

theorem files_eq (p q : ℕ) : (if p % 8 > q % 8 then p % 8 - q % 8 else q % 8 - p % 8) = files p q := by
  simp only [files, file]; split <;> omega

theorem ranks_eq (p q : ℕ) : (if p / 8 > q / 8 then p / 8 - q / 8 else q / 8 - p / 8) = ranks p q := by
  simp only [ranks, rank]; split <;> omega

theorem files_comm (p q : ℕ) : files p q = files q p := by simp only [files]; omega

theorem ranks_comm (p q : ℕ) : ranks p q = ranks q p := by simp only [ranks]; omega

theorem getLsbD_stepMask (reaches : ℕ → ℕ → Bool) (p q : ℕ) :
    (stepMask reaches p).getLsbD q = true ↔ q < 64 ∧ reaches (files p q) (ranks p q) = true := by
  rw [stepMask, getLsbD_foldl_foldl (List.range 8) (List.range 8)
    (fun x y => reaches (if p % 8 > x then p % 8 - x else x - p % 8) (if p / 8 > y then p / 8 - y else y - p / 8))
    (fun x y => y * 8 + x), ← files_eq, ← ranks_eq]
  simp only [BitVec.getLsbD_zero, Bool.false_eq_true, false_or, List.mem_range]
  constructor
  · rintro ⟨x, hx, y, hy, hr, rfl, hq⟩
    refine ⟨hq, ?_⟩
    rwa [show (y * 8 + x) % 8 = x by omega, show (y * 8 + x) / 8 = y by omega]
  · rintro ⟨hq, hr⟩
    exact ⟨q % 8, by omega, q / 8, by omega, hr, by omega, hq⟩

theorem calcMasks_getD (reaches : ℕ → ℕ → Bool) {p : ℕ} (hp : p < 64) :
    (calcMasks reaches).getD p 0 = stepMask reaches p := by
  simp [calcMasks, List.getD_eq_getElem?_getD, List.getElem?_map, List.getElem?_range hp]

theorem knightMask_bit {p q : ℕ} (hp : p < 64) :
    (KnightMasks.Masks.getD p 0).getLsbD q = true ↔ q < 64 ∧ KnightAttacks p q := by
  rw [KnightMasks.Masks, calcMasks_getD _ hp, getLsbD_stepMask]
  simp [KnightAttacks]

theorem kingMask_bit {p q : ℕ} (hp : p < 64) :
    (KingMasks.Masks.getD p 0).getLsbD q = true ↔ q < 64 ∧ KingAttacks p q := by
  rw [KingMasks.Masks, calcMasks_getD _ hp, getLsbD_stepMask]
  have hne : p ≠ q ↔ ¬ (files p q = 0 ∧ ranks p q = 0) := by simp only [files, ranks, file, rank]; omega
  simp [KingAttacks, hne, and_assoc, imp_iff_not_or]

theorem knightAttacks_comm {p q : ℕ} : KnightAttacks p q ↔ KnightAttacks q p := by
  rw [KnightAttacks, KnightAttacks, files_comm, ranks_comm]

theorem kingAttacks_comm {p q : ℕ} : KingAttacks p q ↔ KingAttacks q p := by
  rw [KingAttacks, KingAttacks, files_comm, ranks_comm, ne_comm]

/-! ## The attack test -/

theorem and_ne_zero {a b : Bitboard} : ((a &&& b) != 0#64) = true ↔ ∃ q, a.getLsbD q = true ∧ b.getLsbD q = true := by
  constructor
  · intro h
    obtain ⟨q, hq⟩ := exists_bit (b := a &&& b) (by simpa using h)
    rw [BitVec.getLsbD_and, Bool.and_eq_true] at hq
    exact ⟨q, hq⟩
  · rintro ⟨q, ha, hb⟩
    have : (a &&& b).getLsbD q = true := by rw [BitVec.getLsbD_and, ha, hb]; rfl
    simp only [bne_iff_ne, ne_eq]
    intro h0
    simp [h0] at this

variable {p : Pieces} {q : ℕ} {c : PieceColor}

theorem attackedByPawns_iff (hv : p.Valid) (hq : q < 64) :
    isSquareAttackedByPawns p q c = true ↔ ∃ r, p.board r = some (c, .pawn) ∧ PawnAttacks c r q := by
  cases c
  all_goals
    simp only [isSquareAttackedByPawns, Bool.or_eq_true, Bool.and_eq_true, bne_iff_ne, decide_eq_true_eq,
      getBit_eq, ← hv.board_eq_some, PawnAttacks, forward, files, file, rank, ge_iff_le]
    constructor
  · rintro (⟨⟨h0, h8⟩, hb⟩ | ⟨⟨h7, h8⟩, hb⟩)
    · exact ⟨q - 9, hb, by omega, by omega⟩
    · exact ⟨q - 7, hb, by omega, by omega⟩
  · rintro ⟨r, hb, hf, hr⟩
    rcases (show r = q - 9 ∧ 9 ≤ q ∧ q % 8 ≠ 0 ∨ r = q - 7 ∧ 8 ≤ q ∧ q % 8 ≠ 7 by omega) with ⟨rfl, _, h⟩ | ⟨rfl, _, h⟩
    · exact .inl ⟨⟨h, by omega⟩, hb⟩
    · exact .inr ⟨⟨h, by omega⟩, hb⟩
  · rintro (⟨⟨h0, h8⟩, hb⟩ | ⟨⟨h7, h8⟩, hb⟩)
    · exact ⟨q + 7, hb, by omega, by omega⟩
    · exact ⟨q + 9, hb, by omega, by omega⟩
  · rintro ⟨r, hb, hf, hr⟩
    have hr64 := hv.lt_of_board hb
    rcases (show r = q + 7 ∧ q ≤ 55 ∧ q % 8 ≠ 0 ∨ r = q + 9 ∧ q ≤ 55 ∧ q % 8 ≠ 7 by omega) with
      ⟨rfl, h55, h⟩ | ⟨rfl, h55, h⟩
    · exact .inl ⟨⟨h, h55⟩, hb⟩
    · exact .inr ⟨⟨h, h55⟩, hb⟩

theorem attackedByKnights_iff (hv : p.Valid) (hq : q < 64) :
    isSquareAttackedByKnights p q c = true ↔ ∃ r, p.board r = some (c, .knight) ∧ KnightAttacks r q := by
  rw [isSquareAttackedByKnights, and_ne_zero]
  refine exists_congr fun r => ?_
  rw [knightMask_bit hq, ← hv.board_eq_some, knightAttacks_comm]
  exact ⟨fun ⟨⟨_, h⟩, hb⟩ => ⟨hb, h⟩, fun ⟨hb, h⟩ => ⟨⟨hv.lt_of_board hb, h⟩, hb⟩⟩

theorem attackedByKing_iff (hv : p.Valid) (hq : q < 64) :
    isSquareAttackedByKing p q c = true ↔ ∃ r, p.board r = some (c, .king) ∧ KingAttacks r q := by
  rw [isSquareAttackedByKing, and_ne_zero]
  refine exists_congr fun r => ?_
  rw [kingMask_bit hq, ← hv.board_eq_some, kingAttacks_comm]
  exact ⟨fun ⟨⟨_, h⟩, hb⟩ => ⟨hb, h⟩, fun ⟨hb, h⟩ => ⟨⟨hv.lt_of_board hb, h⟩, hb⟩⟩

/-- With captures only, a ray keeps nothing but a piece of the side opposite to `c`. -/
theorem captureRay_bit (d : SlidersMasks.Direction) (flag : Bool) {r : ℕ}
    (h : (calcRay p q c true d flag).getLsbD r = true) : (p.sideBitboards.get c.inverse).getLsbD r = true := by
  simp only [calcRay, if_true] at h
  split at h
  · simp at h
  · generalize (if flag = true then _ else _ : ℕ) = s at h
    split at h
    · rename_i hs
      simp only [getLsbD_set1, BitVec.getLsbD_zero, Bool.false_or, decide_eq_true_eq] at h
      rw [h.1]
      simpa using hs
    · simp at h

theorem captureBishop_bit {r : ℕ} (h : (generateBishopMask p q c true).getLsbD r = true) :
    (p.sideBitboards.get c.inverse).getLsbD r = true := by
  simp only [generateBishopMask, BitVec.getLsbD_or, Bool.or_eq_true] at h
  rcases h with ((h | h) | h) | h <;> exact captureRay_bit _ _ h

theorem captureRook_bit {r : ℕ} (h : (generateRookMask p q c true).getLsbD r = true) :
    (p.sideBitboards.get c.inverse).getLsbD r = true := by
  simp only [generateRookMask, BitVec.getLsbD_or, Bool.or_eq_true] at h
  rcases h with ((h | h) | h) | h <;> exact captureRay_bit _ _ h

/-- Pieces of `c` are not among the pieces of the other side. -/
theorem and_captures (hv : p.Valid) {m : Bitboard} (t t' : PieceType)
    (hm : ∀ r, m.getLsbD r = true → (p.sideBitboards.get c.inverse).getLsbD r = true) :
    ((m &&& (p.bb c t ||| p.bb c t')) != 0#64) = false := by
  rw [← Bool.not_eq_true, and_ne_zero]
  rintro ⟨r, h, hb⟩
  obtain ⟨u, hu⟩ := hv.side_bit.1 (hm r h)
  rw [BitVec.getLsbD_or, Bool.or_eq_true, ← hv.board_eq_some, ← hv.board_eq_some, hu] at hb
  simp at hb

/-- The engine's attack test finds the attacks of pawns, knights and kings, and no others. -/
theorem isSquareAttacked_iff (hv : p.Valid) (hq : q < 64) :
    isSquareAttacked p q c = true ↔ LeaperAttacked p.board q c := by
  rw [isSquareAttacked, and_captures hv _ _ (fun _ => captureBishop_bit),
    and_captures hv _ _ (fun _ => captureRook_bit), Bool.or_false, Bool.or_false, Bool.or_eq_true, Bool.or_eq_true,
    attackedByPawns_iff hv hq, attackedByKnights_iff hv hq, attackedByKing_iff hv hq]
  constructor
  · rintro ((⟨r, hb, h⟩ | ⟨r, hb, h⟩) | ⟨r, hb, h⟩)
    · exact ⟨r, hv.lt_of_board hb, .pawn, by decide, rfl, hb, h⟩
    · exact ⟨r, hv.lt_of_board hb, .knight, by decide, rfl, hb, h⟩
    · exact ⟨r, hv.lt_of_board hb, .king, by decide, rfl, hb, h⟩
  · rintro ⟨r, -, t, -, hs, hb, h⟩
    cases t with
    | pawn => exact .inl (.inl ⟨r, hb, h⟩)
    | knight => exact .inl (.inr ⟨r, hb, h⟩)
    | king => exact .inr ⟨r, hb, h⟩
    | bishop | rook | queen => cases hs

/-- The test is right about a square unless bishops, rooks or queens are its only attackers. -/
theorem isSquareAttacked_exact_iff (hv : p.Valid) (hq : q < 64) (c : PieceColor) :
    (isSquareAttacked p q c = true ↔ Attacked p.board q c) ↔
      (SliderAttacked p.board q c → LeaperAttacked p.board q c) := by
  rw [isSquareAttacked_iff hv hq, attacked_iff]
  constructor
  · intro h hs
    exact h.2 (.inr hs)
  · intro h
    exact ⟨.inl, fun ha => ha.elim id h⟩

/-- A pawn on b2 attacks a3. -/
theorem isSquareAttacked_exact_pawn :
    isSquareAttacked (Pieces.ofFen "8/8/8/8/8/8/1P6/8") 16 .white = true ↔
      Attacked (Pieces.ofFen "8/8/8/8/8/8/1P6/8").board 16 .white := by
  have hp : Pieces.ofFen "8/8/8/8/8/8/1P6/8" = Pieces.ofBoard (Pieces.ofFen "8/8/8/8/8/8/1P6/8").board := by
    decide +kernel
  have hv : (Pieces.ofFen "8/8/8/8/8/8/1P6/8").Valid := hp ▸ Pieces.ofBoard_valid _
  refine (isSquareAttacked_exact_iff hv (by decide) .white).2 fun hs => absurd hs ?_
  decide +kernel

/-- A white rook on e1 and the black king on e8, with nothing between them. -/
theorem isSquareAttacked_misses_rook :
    (Pieces.ofFen "4k3/8/8/8/8/8/8/4RK2").Valid ∧
      isSquareAttacked (Pieces.ofFen "4k3/8/8/8/8/8/8/4RK2") 60 .white = false ∧
      Attacked (Pieces.ofFen "4k3/8/8/8/8/8/8/4RK2").board 60 .white := by
  have hp : Pieces.ofFen "4k3/8/8/8/8/8/8/4RK2" =
      Pieces.ofBoard (Pieces.ofFen "4k3/8/8/8/8/8/8/4RK2").board := by decide +kernel
  refine ⟨hp ▸ Pieces.ofBoard_valid _, ?_, ?_⟩ <;> decide +kernel

/-- The engine's attack test, read on boards. -/
def Engine : AttackTest := fun b q c => isSquareAttacked (Pieces.ofBoard b) q c = true

theorem engine_iff {b : Board} (hq : q < 64) (hb : ∀ r, 64 ≤ r → b r = none) : Engine b q c ↔ LeaperAttacked b q c := by
  have hboard : (Pieces.ofBoard b).board = b := by
    funext r
    by_cases hr : r < 64
    · exact Pieces.board_ofBoard b hr
    · rw [(Pieces.ofBoard_valid b).board_ge (by omega), hb r (by omega)]
  rw [Engine, isSquareAttacked_iff (Pieces.ofBoard_valid b) hq, hboard]

end ChessGame
