import ChessGame.Lib.Reflect
import ChessGame.Play
/-!
# The board turned over

`Pieces.flip` exchanges the colours and reflects the board. The source writes
the white and the black half of every rule down separately, with shifts, offsets
and row numbers of its own. Here the masks and the attack test are compared: on
the flipped bitboards they give the flipped masks and the same answers
(`isSquareAttacked_flip`).
-/
open Scan Walk Reflect

namespace ChessGame

open BitboardOps MoveGen Rules SlidersMasks

/-! ## Flipping -/

/-- The square on the same file and the opposite rank. -/
def flipSquare (q : ℕ) : ℕ := q ^^^ 56

theorem flipSquare_eq {q : ℕ} (hq : q < 64) : flipSquare q = 8 * (7 - q / 8) + q % 8 := by
  revert q
  decide

def vertical : Involution 64 where
  map := flipSquare
  map_map i := by rw [flipSquare, flipSquare, Nat.xor_assoc, Nat.xor_self, Nat.xor_zero]
  map_lt h := Nat.xor_lt_two_pow (n := 6) h (by omega)

@[simp] theorem vertical_map (q : ℕ) : vertical.map q = flipSquare q := rfl

@[simp] theorem flipSquare_flipSquare (q : ℕ) : flipSquare (flipSquare q) = q := vertical.map_map q

theorem flipSquare_lt {q : ℕ} (hq : q < 64) : flipSquare q < 64 := vertical.map_lt hq

def ByType.map {α β : Type} (f : α → β) (a : ByType α) : ByType β :=
  ⟨f a.pawn, f a.knight, f a.bishop, f a.rook, f a.queen, f a.king⟩

/-- Each colour gets the image of the other's value. -/
def ByColor.swap {α β : Type} (f : α → β) (a : ByColor α) : ByColor β := ⟨f a.black, f a.white⟩

theorem ByColor.get_swap {α β : Type} (f : α → β) (a : ByColor α) (c : PieceColor) :
    (a.swap f).get c = f (a.get c.inverse) := by
  cases c <;> rfl

namespace Pieces

def flip (p : Pieces) : Pieces where
  pieceBitboards := p.pieceBitboards.swap (ByType.map (reflect vertical))
  sideBitboards := p.sideBitboards.swap (reflect vertical)
  inversionSideBitboards := p.inversionSideBitboards.swap (reflect vertical)
  all := reflect vertical p.all
  empty := reflect vertical p.empty

variable (p : Pieces) (c : PieceColor) (t : PieceType)

@[simp] theorem bb_flip : p.flip.bb c t = reflect vertical (p.bb c.inverse t) := by
  cases c <;> cases t <;> rfl

@[simp] theorem side_flip : p.flip.sideBitboards.get c = reflect vertical (p.sideBitboards.get c.inverse) :=
  ByColor.get_swap ..

@[simp] theorem inversion_flip :
    p.flip.inversionSideBitboards.get c = reflect vertical (p.inversionSideBitboards.get c.inverse) :=
  ByColor.get_swap ..

theorem ext_bb {p p' : Pieces} (hb : ∀ c t, p.bb c t = p'.bb c t) (hs : p.sideBitboards = p'.sideBitboards)
    (hi : p.inversionSideBitboards = p'.inversionSideBitboards) (ha : p.all = p'.all) (he : p.empty = p'.empty) :
    p = p' := by
  have hp : p.pieceBitboards = p'.pieceBitboards := ByColor.ext_get fun c => ByType.ext_get fun t => hb c t
  cases p; cases p'
  simp_all

/-- Changing one bitboard and flipping. -/
theorem flip_modify {f g : Bitboard → Bitboard} (h : ∀ b, reflect vertical (f b) = g (reflect vertical b)) :
    (p.modify c t f).flip = p.flip.modify c.inverse t g := by
  refine ext_bb (fun c' t' => ?_) rfl rfl rfl rfl
  rw [bb_flip, bb_modify, bb_modify, bb_flip, bb_flip, PieceColor.inverse_inverse, ← h]
  have hc : c'.inverse = c ↔ c' = c.inverse := by cases c <;> cases c' <;> decide
  simp only [hc]
  split <;> rfl

theorem flip_set0 (q : ℕ) : (p.modify c t (set0 · q)).flip = p.flip.modify c.inverse t (set0 · (flipSquare q)) :=
  flip_modify p c t fun b => reflect_clearBit vertical b q

theorem flip_set1 (q : ℕ) : (p.modify c t (set1 · q)).flip = p.flip.modify c.inverse t (set1 · (flipSquare q)) :=
  flip_modify p c t fun b => reflect_setBit vertical b q

theorem sideUnion_flip : p.flip.sideUnion c = reflect vertical (p.sideUnion c.inverse) := by
  simp only [sideUnion, bb_flip, reflect_or]

theorem flip_updateBitboards : p.updateBitboards.flip = p.flip.updateBitboards := by
  have hw : p.flip.sideUnion .white = reflect vertical (p.sideUnion .black) := sideUnion_flip p .white
  have hb : p.flip.sideUnion .black = reflect vertical (p.sideUnion .white) := sideUnion_flip p .black
  refine ext_bb (fun c t => ?_) ?_ ?_ ?_ ?_
  · rw [bb_flip, bb_updateBitboards, bb_updateBitboards, bb_flip]
  · show ByColor.mk (reflect vertical (p.sideUnion .black)) (reflect vertical (p.sideUnion .white)) =
      ⟨p.flip.sideUnion .white, p.flip.sideUnion .black⟩
    rw [hw, hb]
  · show ByColor.mk (reflect vertical (~~~p.sideUnion .black)) (reflect vertical (~~~p.sideUnion .white)) =
      ⟨~~~p.flip.sideUnion .white, ~~~p.flip.sideUnion .black⟩
    rw [hw, hb, reflect_not, reflect_not]
  · show reflect vertical (p.sideUnion .white ||| p.sideUnion .black) =
      p.flip.sideUnion .white ||| p.flip.sideUnion .black
    rw [hw, hb, reflect_or, BitVec.or_comm]
  · show reflect vertical (~~~(p.sideUnion .white ||| p.sideUnion .black)) =
      ~~~(p.flip.sideUnion .white ||| p.flip.sideUnion .black)
    rw [hw, hb, reflect_not, reflect_or, BitVec.or_comm]

end Pieces

/-! ## Masks -/

theorem file_flip {q : ℕ} (hq : q < 64) : file (flipSquare q) = file q := by
  rw [flipSquare_eq hq, file, file]
  omega

theorem rank_flip {q : ℕ} (hq : q < 64) : rank (flipSquare q) = 7 - rank q := by
  rw [flipSquare_eq hq, rank, rank]
  omega

theorem files_flip {p q : ℕ} (hp : p < 64) (hq : q < 64) : files (flipSquare p) (flipSquare q) = files p q := by
  rw [files, files, file_flip hp, file_flip hq]

theorem ranks_flip {p q : ℕ} (hp : p < 64) (hq : q < 64) : ranks (flipSquare p) (flipSquare q) = ranks p q := by
  rw [ranks, ranks, rank_flip hp, rank_flip hq]
  omega

theorem stepMask_flip (reaches : ℕ → ℕ → Bool) {p : ℕ} (hp : p < 64) :
    stepMask reaches (flipSquare p) = reflect vertical (stepMask reaches p) := by
  refine eq_reflect vertical fun q hq => ?_
  rw [Bool.eq_iff_iff, vertical_map, getLsbD_stepMask, getLsbD_stepMask, files_flip hp hq, ranks_flip hp hq]
  simp [hq, flipSquare_lt hq]

theorem calcMasks_flip (reaches : ℕ → ℕ → Bool) {p : ℕ} (hp : p < 64) :
    (calcMasks reaches).getD (flipSquare p) 0 = reflect vertical ((calcMasks reaches).getD p 0) := by
  rw [calcMasks_getD _ hp, calcMasks_getD _ (flipSquare_lt hp), stepMask_flip _ hp]

def SlidersMasks.Direction.flip : Direction → Direction
  | .north => .south
  | .south => .north
  | .west => .west
  | .east => .east
  | .northWest => .southWest
  | .northEast => .southEast
  | .southWest => .northWest
  | .southEast => .northEast

theorem step_flip (d : Direction) : d.flip.step = (d.step.1, -d.step.2) := by cases d <;> rfl

theorem next_flip (d : Direction) {p : ℕ} (hp : p < 64) :
    next d.flip (flipSquare p) = (next d p).map flipSquare := by
  cases hn : next d p with
  | some r =>
    obtain ⟨hx, hy, hr⟩ := next_some hn
    apply next_eq (flipSquare_lt hr)
    · rw [file_flip hr, file_flip hp, step_flip, hx]
    · rw [rank_flip hr, rank_flip hp, step_flip, hy]
      ring
  | none =>
    -- A step back from the flipped board would be a step on the board.
    cases hn' : next d.flip (flipSquare p) with
    | none => rfl
    | some r =>
      obtain ⟨hx, hy, hr⟩ := next_some hn'
      rw [file_flip hp, step_flip] at hx
      rw [rank_flip hp, step_flip] at hy
      have hback : next d p = some (flipSquare r) := by
        apply next_eq (flipSquare_lt hr)
        · rw [file_flip hr, hx]
        · rw [rank_flip hr, hy]
          ring
      rw [hn] at hback
      cases hback

/-- The ray out of the flipped square. -/
theorem cells_flip (d : Direction) (n : ℕ) {p : ℕ} (hp : p < 64) :
    cells d.flip n (flipSquare p) = (cells d n p).map flipSquare := by
  induction n generalizing p with
  | zero => rfl
  | succ n ih =>
    rw [cells, cells, next_flip d hp]
    cases hn : next d p with
    | none => rfl
    | some r => simp [ih (next_some hn).2.2]

theorem rayMask_flip (d : Direction) {p : ℕ} (hp : p < 64) :
    (Masks d.flip).getD (flipSquare p) 0 = reflect vertical ((Masks d).getD p 0) := by
  refine eq_reflect vertical fun q _ => ?_
  rw [Bool.eq_iff_iff, mask_bit (flipSquare_lt hp), mask_bit hp, cells_flip d 8 hp]
  exact List.mem_map_of_injective fun _ _ => vertical.eq_iff.1

variable {p : Pieces} {q : ℕ}

/-- The scan out of the flipped square stops at the flipped blocking square. -/
theorem calcRay_flip (hq : q < 64) (c : PieceColor) (onlyCaptures : Bool) (d : Direction) :
    MoveGen.calcRay p.flip (flipSquare q) c.inverse onlyCaptures d.flip (!upward d.flip) =
      reflect vertical (MoveGen.calcRay p q c onlyCaptures d (!upward d)) := by
  have hblock : (Masks d.flip).getD (flipSquare q) 0 &&& p.flip.all =
      reflect vertical ((Masks d).getD q 0 &&& p.all) := by
    rw [rayMask_flip d hq, reflect_and]
    rfl
  simp only [MoveGen.calcRay]
  by_cases h0 : (Masks d).getD q 0 &&& p.all = 0#64
  · rw [if_pos h0, if_pos (by rw [hblock, h0, reflect_zero])]
    cases onlyCaptures
    · exact rayMask_flip d hq
    · exact (reflect_zero vertical).symm
  · rw [if_neg h0, if_neg (by rw [hblock, reflect_eq_zero]; exact h0)]
    obtain ⟨x, hx⟩ := exists_bit h0
    rw [BitVec.getLsbD_and, Bool.and_eq_true, mask_bit hq] at hx
    obtain ⟨l₁, s, l₂, hl, hf, hs⟩ := first_occupied (fun r => p.all.getLsbD r = true) ⟨x, hx⟩
    have hs64 : s < 64 := cells_lt hq (by rw [hl]; simp)
    have hbit : ∀ r, p.flip.all.getLsbD (flipSquare r) = p.all.getLsbD r := fun r => by
      rw [Pieces.flip, getLsbD_reflect, vertical_map, flipSquare_flipSquare]
    have hl' : cells d.flip 8 (flipSquare q) = l₁.map flipSquare ++ flipSquare s :: l₂.map flipSquare := by
      rw [cells_flip d 8 hq, hl, List.map_append, List.map_cons]
    rw [blocking_eq p.all hq hl hf hs, blocking_eq p.flip.all (flipSquare_lt hq) hl' ?_ ((hbit s).trans hs)]
    · have hside : getBit (p.flip.sideBitboards.get c.inverse.inverse) (flipSquare s) =
          getBit (p.sideBitboards.get c.inverse) s := by simp
      have hmoves : (if onlyCaptures = true then 0#64
            else (Masks d.flip).getD (flipSquare q) 0 ^^^ (Masks d.flip).getD (flipSquare s) 0) =
          reflect vertical (if onlyCaptures = true then 0#64 else (Masks d).getD q 0 ^^^ (Masks d).getD s 0) := by
        rw [rayMask_flip d hq, rayMask_flip d hs64]
        cases onlyCaptures
        · exact (reflect_xor ..).symm
        · exact (reflect_zero vertical).symm
      rw [hside, hmoves]
      split
      · exact (reflect_setBit ..).symm
      · exact (reflect_clearBit ..).symm
    · intro r hr
      obtain ⟨r', hr', rfl⟩ := List.mem_map.1 hr
      rw [hbit]
      exact hf r' hr'

theorem bishopMask_flip (hq : q < 64) (c : PieceColor) (onlyCaptures : Bool) :
    generateBishopMask p.flip (flipSquare q) c.inverse onlyCaptures =
      reflect vertical (generateBishopMask p q c onlyCaptures) := by
  have h := calcRay_flip (p := p) hq c onlyCaptures
  have hnw := h .southWest
  have hne := h .southEast
  have hsw := h .northWest
  have hse := h .northEast
  simp only [Direction.flip, upward, Bool.not_true, Bool.not_false] at hnw hne hsw hse
  simp only [generateBishopMask, hnw, hne, hsw, hse, reflect_or]
  ac_rfl

theorem rookMask_flip (hq : q < 64) (c : PieceColor) (onlyCaptures : Bool) :
    generateRookMask p.flip (flipSquare q) c.inverse onlyCaptures =
      reflect vertical (generateRookMask p q c onlyCaptures) := by
  have h := calcRay_flip (p := p) hq c onlyCaptures
  have hn := h .south
  have hs := h .north
  have hw := h .west
  have he := h .east
  simp only [Direction.flip, upward, Bool.not_true, Bool.not_false] at hn hs hw he
  simp only [generateRookMask, hn, hs, hw, he, reflect_or]
  ac_rfl

/-! ## The attack test -/

theorem and_guard {a a' b b' : Bool} (ha : a = a') (hb : a' = true → b = b') : (a && b) = (a' && b') := by
  subst ha
  cases a
  · rfl
  · exact hb rfl

/-- The two offsets at which the pawns of a side are looked for. -/
theorem attackedByPawns_flip (hq : q < 64) (c : PieceColor) :
    isSquareAttackedByPawns p.flip (flipSquare q) c.inverse = isSquareAttackedByPawns p q c := by
  have hflip := flipSquare_eq hq
  cases c <;>
    simp only [isSquareAttackedByPawns, PieceColor.inverse, getBit_eq, Pieces.bb_flip, getLsbD_reflect, vertical_map]
  all_goals congr 1
  all_goals
    apply and_guard
    · rw [hflip, Bool.eq_iff_iff]
      simp only [Bool.and_eq_true, bne_iff_ne, decide_eq_true_eq]
      omega
    · intro hguard
      simp only [Bool.and_eq_true, bne_iff_ne, decide_eq_true_eq] at hguard
      rw [hflip]
      refine congrArg _ ?_
      rw [flipSquare_eq (by omega)]
      omega

theorem and_flip (a b : Bitboard) :
    ((reflect vertical a &&& reflect vertical b) != 0#64) = ((a &&& b) != 0#64) := by
  rw [← reflect_and, bne, bne, Bool.eq_iff_iff]
  simp [reflect_eq_zero]

theorem attackedByKnights_flip (hq : q < 64) (c : PieceColor) :
    isSquareAttackedByKnights p.flip (flipSquare q) c.inverse = isSquareAttackedByKnights p q c := by
  rw [isSquareAttackedByKnights, isSquareAttackedByKnights, KnightMasks.Masks, calcMasks_flip _ hq, Pieces.bb_flip,
    and_flip, PieceColor.inverse_inverse]

theorem attackedByKing_flip (hq : q < 64) (c : PieceColor) :
    isSquareAttackedByKing p.flip (flipSquare q) c.inverse = isSquareAttackedByKing p q c := by
  rw [isSquareAttackedByKing, isSquareAttackedByKing, KingMasks.Masks, calcMasks_flip _ hq, Pieces.bb_flip,
    and_flip, PieceColor.inverse_inverse]

/-- The attack test gives the same answer on the flipped bitboards. -/
theorem isSquareAttacked_flip (hq : q < 64) (c : PieceColor) :
    isSquareAttacked p.flip (flipSquare q) c.inverse = isSquareAttacked p q c := by
  simp only [isSquareAttacked, attackedByPawns_flip hq, attackedByKnights_flip hq, attackedByKing_flip hq,
    bishopMask_flip hq, rookMask_flip hq, Pieces.bb_flip, PieceColor.inverse_inverse, ← reflect_or, and_flip]

/-- The bitboard of the kings of `c` is the single square `k`. -/
def OneKing (p : Pieces) (c : PieceColor) (k : ℕ) : Prop := ∀ q, (p.bb c .king).getLsbD q = true ↔ q = k

variable {c : PieceColor} {k : ℕ}

theorem OneKing.lt (h : OneKing p c k) : k < 64 := BitVec.lt_of_getLsbD ((h k).2 rfl)

theorem OneKing.ne_zero (h : OneKing p c k) : p.bb c .king ≠ 0#64 := by
  intro h0
  have hk := (h k).2 rfl
  rw [h0] at hk
  simp at hk

theorem OneKing.bsf_eq (h : OneKing p c k) : bsf (p.bb c .king) = k := (h _).1 (bsf_spec h.ne_zero).1

theorem OneKing.flip (h : OneKing p c k) : OneKing p.flip c.inverse (flipSquare k) := by
  intro q
  rw [Pieces.bb_flip, PieceColor.inverse_inverse, getLsbD_reflect, vertical_map, h]
  exact vertical.map_eq_comm

theorem OneKing.of_kingOn (hv : p.Valid) (h : KingOn p.board c k) : OneKing p c k := fun q => by
  rw [← hv.board_eq_some]
  exact h q

theorem OneKing.kingOn (hv : p.Valid) (h : OneKing p c k) : KingOn p.board c k := fun q => by
  rw [hv.board_eq_some]
  exact h q

theorem OneKing.isCheck_eq (h : OneKing p c k) : isCheck p c = isSquareAttacked p k c.inverse := by
  simp only [isCheck, h.bsf_eq]
  rw [if_neg h.ne_zero]

theorem isCheck_flip (h : OneKing p c k) : isCheck p.flip c.inverse = isCheck p c := by
  rw [h.flip.isCheck_eq, h.isCheck_eq, isSquareAttacked_flip h.lt]

end ChessGame
