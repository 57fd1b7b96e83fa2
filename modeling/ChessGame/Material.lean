import ChessGame.CastlingRights
/-!
# Material

A measure of what is left to happen in a game: the pieces, the way the pawns still
have to go, and the castlings, which may add pieces. No turn raises it, and a pawn
move or a capture lowers it.
-/

namespace ChessGame

open MoveGen Rules Position

variable {pos next : Position} {m : Move} {b : Board} {s c : PieceColor} {k : Castling} {rights : CastlingRights}

/-- How many ranks a pawn of `c` on `q` still has to go. -/
def pawnWay (c : PieceColor) (q : ℕ) : ℕ :=
  match c with
  | .white => 7 - q / 8
  | .black => q / 8

/-- What a square adds: one for a piece, and for a pawn the way it has to go. -/
def squareWeight (q : ℕ) : Option (PieceColor × PieceType) → ℕ
  | none => 0
  | some (c, .pawn) => pawnWay c q + 1
  | some _ => 1

def weight (b : Board) : ℕ := ∑ q ∈ Finset.range 64, squareWeight q (b q)

/-- Some castling flag of the side is still set. -/
def mayCastle (rights : CastlingRights) (c : PieceColor) : Bool :=
  Castling.all.any fun k => k.side = c && k.right rights

def castlers (rights : CastlingRights) : ℕ :=
  (if mayCastle rights .white then 1 else 0) + (if mayCastle rights .black then 1 else 0)

/-- A castling may put two pieces on the board that were not there. -/
def potential (pos : Position) : ℕ := weight pos.pieces.board + 2 * castlers pos.rights

/-! ## The weight of a board -/

theorem squareWeight_le (q : ℕ) (c : PieceColor) (t : PieceType) : squareWeight q (some (c, t)) ≤ pawnWay c q + 1 := by
  cases t <;> simp [squareWeight]

theorem squareWeight_pos (q : ℕ) (ct : PieceColor × PieceType) : 0 < squareWeight q (some ct) := by
  obtain ⟨c, t⟩ := ct
  cases t <;> simp [squareWeight]

theorem squareWeight_piece {t : PieceType} (ht : t ≠ .pawn) (q : ℕ) (c : PieceColor) :
    squareWeight q (some (c, t)) = 1 := by
  cases t <;> first | rfl | exact absurd rfl ht

theorem weight_update (b : Board) {q : ℕ} (hq : q < 64) (x : Option (PieceColor × PieceType)) :
    weight (Function.update b q x) + squareWeight q (b q) = weight b + squareWeight q x := by
  have hmem : q ∈ Finset.range 64 := Finset.mem_range.2 hq
  have hrest : ∑ r ∈ (Finset.range 64).erase q, squareWeight r (Function.update b q x r) =
      ∑ r ∈ (Finset.range 64).erase q, squareWeight r (b r) := by
    apply Finset.sum_congr rfl
    intro r hr
    rw [Function.update_of_ne (Finset.ne_of_mem_erase hr)]
  unfold weight
  rw [← Finset.add_sum_erase _ _ hmem, ← Finset.add_sum_erase _ (fun r => squareWeight r (b r)) hmem, hrest,
    Function.update_self]
  omega

theorem weight_placed (h : Carries b s m) (hfrom : m.from < 64) (t : PieceType) :
    weight (placed b m t) + squareWeight m.to (b m.to) + squareWeight m.from (some (s, m.attackerType)) =
      weight b + squareWeight m.to (some (s, t)) := by
  have hclear := weight_update b hfrom none
  have hput := weight_update (Function.update b m.from none) h.target (some (m.attackerSide, t))
  rw [h.start] at hclear
  rw [Function.update_of_ne h.ne, h.side] at hput
  have hnone : squareWeight m.from none = 0 := rfl
  unfold placed
  rw [h.side]
  omega

/-- Pawns go forward. -/
theorem Rules.Plays.pawnWay_lt {r : Ply} (h : Plays b s r) (ht : r.attackerType = .pawn) (hfrom : r.from < 64) :
    pawnWay s r.to < pawnWay s r.from := by
  cases h with
  | push _ hq _ hy _ _ => cases s <;> simp only [pawnWay, rank, forward] at * <;> omega
  | double _ _ _ hq _ hy₁ _ _ hy₂ _ => cases s <;> simp only [pawnWay, rank, forward] at * <;> omega
  | capture _ hq ha _ _ =>
    have hy := ha.2
    cases s <;> simp only [pawnWay, rank, forward] at * <;> omega
  | piece _ hne _ _ _ => exact absurd ht hne

/-- A move of the pieces keeps the weight, or lowers it if it cannot be taken back. -/
theorem weight_after (hg : Generated b s m) (hfrom : m.from < 64) :
    if isIrreversible m then weight (after b m.ply) < weight b else weight (after b m.ply) = weight b := by
  have hc := hg.carries
  have hw := weight_placed hc hfrom (promoted m.flag m.attackerType)
  rw [← hg.1.after_eq] at hw
  by_cases ht : m.attackerType = .pawn
  · have hway := hg.1.pawnWay_lt ht hfrom
    have hle := squareWeight_le m.to s (promoted m.flag m.attackerType)
    have hstart : squareWeight m.from (some (s, m.attackerType)) = pawnWay s m.from + 1 := by rw [ht]; rfl
    have hply : m.ply.to = m.to ∧ m.ply.from = m.from := ⟨rfl, rfl⟩
    rw [if_pos (by simp [isIrreversible, ht])]
    rw [hply.1, hply.2] at hway
    omega
  · have hkind : promoted m.flag m.attackerType = m.attackerType := by
      obtain hf | ⟨-, hp⟩ := hg.1.flags
      · rw [hf]; rfl
      · exact absurd hp ht
    rw [hkind, squareWeight_piece ht, squareWeight_piece ht] at hw
    obtain ⟨hn, hd⟩ | ⟨t, hb, hd, -⟩ := hc.target_cases
    · rw [if_neg (by simp [isIrreversible, ht, hd])]
      rw [hn] at hw
      simp only [squareWeight] at hw
      omega
    · rw [if_pos (by simp [isIrreversible, hd])]
      have hpos := squareWeight_pos m.to (s.inverse, t)
      rw [hb] at hw
      omega

/-- A castling adds a king and a rook at most. -/
theorem weight_castled (hk : k ∈ Castling.all) : weight (castled b k) ≤ weight b + 2 := by
  have hlt := (castling_geometry hk).lt
  have hpoint : ∀ q ∈ Finset.range 64, squareWeight q (castled b k q) ≤
      squareWeight q (b q) + ((if q = k.kingTo then 1 else 0) + (if q = k.rookTo then 1 else 0)) := by
    intro q _
    unfold castled
    by_cases h1 : q = k.kingTo
    · have hking : squareWeight q (some (k.side, .king)) = 1 := rfl
      rw [if_pos h1, if_pos h1]
      omega
    · by_cases h2 : q = k.rookTo
      · have hrook : squareWeight q (some (k.side, .rook)) = 1 := rfl
        rw [if_neg h1, if_pos h2, if_neg h1, if_pos h2]
        omega
      · rw [if_neg h1, if_neg h2, if_neg h1, if_neg h2]
        split
        · simp [squareWeight]
        · exact le_refl _
  have hone : ∀ q < 64, ∑ r ∈ Finset.range 64, (if r = q then 1 else 0) = 1 := by
    intro q hq
    rw [Finset.sum_ite_eq', if_pos (Finset.mem_range.2 hq)]
  have hsum := Finset.sum_le_sum hpoint
  rw [Finset.sum_add_distrib, Finset.sum_add_distrib, hone _ (hlt _ (by simp)), hone _ (hlt _ (by simp))] at hsum
  exact hsum

/-! ## Castlings left -/

theorem mayCastle_iff : mayCastle rights c = true ↔ ∃ k ∈ Castling.all, k.side = c ∧ k.right rights = true := by
  simp [mayCastle]

theorem mayCastle_next (h : Effect pos m next) (hc : mayCastle next.rights c = true) :
    mayCastle pos.rights c = true := by
  obtain ⟨k, hk, hs, hr⟩ := mayCastle_iff.1 hc
  rw [h.right k hk, Bool.and_eq_true] at hr
  exact mayCastle_iff.2 ⟨k, hk, hs, hr.1⟩

/-- A side castles once. -/
theorem mayCastle_castled (hk : k ∈ Castling.all) (h : Effect pos (castleMove k) next) :
    mayCastle next.rights k.side = false := by
  rw [← Bool.not_eq_true, mayCastle_iff]
  rintro ⟨k', hk', hs, hr⟩
  rw [h.right k' hk', Bool.and_eq_true, decide_eq_true_eq] at hr
  exact hr.2.1 (kingFrom_eq hk hk' hs.symm)

theorem castlers_next (h : Effect pos m next) : castlers next.rights ≤ castlers pos.rights := by
  have hside : ∀ c, (if mayCastle next.rights c then 1 else 0) ≤ if mayCastle pos.rights c then 1 else 0 := by
    intro c
    by_cases hc : mayCastle next.rights c = true
    · rw [if_pos hc, if_pos (mayCastle_next h hc)]
    · rw [if_neg hc]; exact Nat.zero_le _
  exact Nat.add_le_add (hside .white) (hside .black)

theorem castlers_castled (hm : CastleMade pos k) (h : Effect pos (castleMove k) next) :
    castlers next.rights < castlers pos.rights := by
  have hbefore : mayCastle pos.rights k.side = true := mayCastle_iff.2 ⟨k, hm.mem, rfl, hm.right⟩
  have hafter := mayCastle_castled hm.mem h
  have hother : ∀ c, (if mayCastle next.rights c then 1 else 0) ≤ if mayCastle pos.rights c then 1 else 0 := by
    intro c
    by_cases hc : mayCastle next.rights c = true
    · rw [if_pos hc, if_pos (mayCastle_next h hc)]
    · rw [if_neg hc]; exact Nat.zero_le _
  have hw := hother .white
  have hb := hother .black
  unfold castlers
  cases hs : k.side <;> rw [hs] at hbefore hafter <;> simp only [hbefore, hafter] at hw hb ⊢ <;> simp at hw hb ⊢ <;>
    omega

/-! ## A turn -/

/-- No turn raises the potential; a pawn move or a capture lowers it. -/
theorem Effect.potential (hs : Sound pos) (h : Effect pos m next) :
    if isIrreversible m then potential next < potential pos else potential next ≤ potential pos := by
  have hcastlers := castlers_next h
  unfold ChessGame.potential
  rw [h.board]
  obtain ⟨hg, -⟩ | ⟨k, hk, rfl⟩ := h.made
  · have hw := weight_after hg (hs.valid.lt_of_board hg.carries.start)
    rw [moved, hg.1.not_special.1]
    dsimp only
    split at hw <;> rename_i hi
    · rw [if_pos hi]; omega
    · rw [if_neg hi]; omega
  · have hw : weight (castled pos.pieces.board k) ≤ weight pos.pieces.board + 2 := weight_castled hk.mem
    have hfewer := castlers_castled hk h
    have hi : isIrreversible (castleMove k) = false := rfl
    rw [moved_castle _ hk.mem, hi]
    simp only [Bool.false_eq_true, if_false]
    omega

theorem init_potential : potential Position.init = 132 := by
  have hsum : (List.range 64).foldl (fun n q => n + squareWeight q (Position.init.pieces.board q)) 0 = 128 := by
    decide +kernel
  have hweight : weight Position.init.pieces.board = 128 := by
    unfold weight
    rw [← hsum]
    rfl
  rw [potential, hweight]
  rfl

end ChessGame
