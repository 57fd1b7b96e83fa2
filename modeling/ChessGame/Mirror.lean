import ChessGame.Flip
import ChessGame.Kings
/-!
# White and black alike

The generators and `apply_move` on the flipped board. A generated move flips to
a generated move (`mem_allMoves_flip`) and does to the flipped position the
flip of what it does to the position (`Mirrored.applyMove`). Both are shown in
one direction only: turning the board over twice gives the other.
-/
open Scan Reflect

namespace ChessGame

open BitboardOps MoveGen Rules Position

/-! ## Flipped moves -/

def Flag.flip : Flag → Flag
  | .whiteLongCastling => .blackLongCastling
  | .whiteShortCastling => .blackShortCastling
  | .blackLongCastling => .whiteLongCastling
  | .blackShortCastling => .whiteShortCastling
  | f => f

@[simp] theorem Flag.flip_flip (f : Flag) : f.flip.flip = f := by cases f <;> rfl

def CastlingRights.flip (r : CastlingRights) : CastlingRights :=
  ⟨r.bLCastling, r.bSCastling, r.wLCastling, r.wSCastling⟩

@[simp] theorem CastlingRights.flip_flip (r : CastlingRights) : r.flip.flip = r := rfl

def Move.flip (m : Move) : Move where
  «from» := flipSquare m.from
  «to» := flipSquare m.to
  attackerType := m.attackerType
  attackerSide := m.attackerSide.inverse
  defenderType := m.defenderType
  defenderSide := m.defenderSide.map PieceColor.inverse
  flag := m.flag.flip

@[simp] theorem Move.flip_flip (m : Move) : m.flip.flip = m := by
  have hside : (m.defenderSide.map PieceColor.inverse).map PieceColor.inverse = m.defenderSide := by
    cases m.defenderSide <;> simp
  simp only [Move.flip, flipSquare_flipSquare, PieceColor.inverse_inverse, Flag.flip_flip, hside]

/-- The squares change sides and the colours of the pieces change. -/
def flipBoard (b : Board) : Board := fun q => (b (flipSquare q)).map (Prod.map PieceColor.inverse id)

variable {p : Pieces} {b : Board} {s c : PieceColor} {t : PieceType} {m : Move} {q k : ℕ} {ep : Option ℕ}
  {rights : CastlingRights} {pos pos' : Position}

theorem flipBoard_flip (b : Board) (q : ℕ) :
    flipBoard b (flipSquare q) = (b q).map (Prod.map PieceColor.inverse id) := by
  rw [flipBoard, flipSquare_flipSquare]

theorem flipBoard_some (h : b q = some (c, t)) : flipBoard b (flipSquare q) = some (c.inverse, t) := by
  rw [flipBoard_flip, h]
  rfl

theorem flipBoard_none (h : b q = none) : flipBoard b (flipSquare q) = none := by
  rw [flipBoard_flip, h]
  rfl

theorem flipBoard_type : (flipBoard b (flipSquare q)).map Prod.snd = (b q).map Prod.snd := by
  rw [flipBoard_flip]
  cases b q <;> rfl

theorem flipBoard_free (h : ∀ t, b q ≠ some (c, t)) (t : PieceType) :
    flipBoard b (flipSquare q) ≠ some (c.inverse, t) := by
  rw [flipBoard_flip]
  intro he
  rw [Option.map_eq_some_iff] at he
  obtain ⟨⟨c', t'⟩, hb, hct⟩ := he
  simp only [Prod.map_apply, id, Prod.mk.injEq] at hct
  have hc : c' = c := by rw [← PieceColor.inverse_inverse c', hct.1, PieceColor.inverse_inverse]
  exact h t' (by rw [hb, hc])

theorem Pieces.Valid.flip (hv : p.Valid) : p.flip.Valid where
  disjoint {q c t c' t'} h h' := by
    rw [Pieces.bb_flip, getLsbD_reflect] at h h'
    obtain ⟨hc, ht⟩ := hv.disjoint h h'
    refine ⟨?_, ht⟩
    rw [← PieceColor.inverse_inverse c, hc, PieceColor.inverse_inverse]
  derived := by rw [← Pieces.flip_updateBitboards, hv.derived]

theorem Pieces.Valid.board_flip (hv : p.Valid) : p.flip.board = flipBoard p.board := by
  funext q
  rw [← flipSquare_flipSquare q, flipBoard_flip]
  cases hb : p.board (flipSquare q) with
  | none =>
    rw [hv.board_eq_none] at hb
    rw [hv.flip.board_eq_none.2 fun c t => ?_]
    · rfl
    · rw [Pieces.bb_flip, getLsbD_reflect, vertical_map, flipSquare_flipSquare]
      exact hb _ _
  | some ct =>
    obtain ⟨c, t⟩ := ct
    rw [hv.board_eq_some] at hb
    refine hv.flip.board_eq_some.2 ?_
    rw [Pieces.bb_flip, getLsbD_reflect, vertical_map, flipSquare_flipSquare, PieceColor.inverse_inverse]
    exact hb

theorem Pieces.flip_flip (p : Pieces) : p.flip.flip = p := by
  refine Pieces.ext_bb (fun c t => ?_) ?_ ?_ ?_ ?_
  · rw [Pieces.bb_flip, Pieces.bb_flip, reflect_reflect, PieceColor.inverse_inverse]
  · exact ByColor.ext_get fun c => by rw [Pieces.side_flip, Pieces.side_flip, reflect_reflect,
      PieceColor.inverse_inverse]
  · refine ByColor.ext_get fun c => ?_
    rw [Pieces.inversion_flip, Pieces.inversion_flip, reflect_reflect, PieceColor.inverse_inverse]
  · exact reflect_reflect ..
  · exact reflect_reflect ..

/-! ## The rules -/

def Rules.Ply.flip (r : Ply) : Ply where
  «from» := flipSquare r.from
  «to» := flipSquare r.to
  attackerType := r.attackerType
  attackerSide := r.attackerSide.inverse
  defenderType := r.defenderType
  flag := r.flag.flip

theorem forward_inverse (s : PieceColor) : forward s.inverse = -forward s := by cases s <;> rfl

theorem startRank_inverse (s : PieceColor) : startRank s.inverse = 7 - startRank s := by cases s <;> rfl

theorem lastRank_inverse (s : PieceColor) : lastRank s.inverse = 7 - lastRank s := by cases s <;> rfl

theorem pawnAttacks_flip (hk : k < 64) (hq : q < 64) (h : PawnAttacks s k q) :
    PawnAttacks s.inverse (flipSquare k) (flipSquare q) := by
  obtain ⟨hf, hr⟩ := h
  refine ⟨by rw [files_flip hk hq, hf], ?_⟩
  rw [rank_flip hk, rank_flip hq, forward_inverse, hr]
  ring

theorem pawnFlag_flip {f : Flag} (hq : q < 64) (h : PawnFlag s q f) : PawnFlag s.inverse (flipSquare q) f.flip := by
  unfold PawnFlag
  rw [rank_flip hq, lastRank_inverse]
  rcases h with ⟨hr, hf⟩ | ⟨hr, rfl⟩
  · refine .inl ⟨by rw [hr], ?_⟩
    rw [Flag.mem_promotions] at hf ⊢
    cases f <;> exact hf
  · exact .inr ⟨by omega, rfl⟩

/-- The squares a line passes over are reflected with it. -/
theorem openLine_flip {d : ℤ × ℤ} (hd : d ∈ diagonals ++ orthogonals) (hk : k < 64) (hq : q < 64)
    (h : OpenLine b d k q) : OpenLine (flipBoard b) (d.1, -d.2) (flipSquare k) (flipSquare q) := by
  obtain ⟨n, hn8, hn, hx, hy, hfree⟩ := h
  refine ⟨n, hn8, hn, by rw [file_flip hk, file_flip hq, hx], ?_, fun i hi hi0 => ?_⟩
  · rw [rank_flip hk, rank_flip hq, hy]
    ring
  · have hbounds : 0 ≤ file k + i * d.1 ∧ file k + i * d.1 ≤ 7 ∧ 0 ≤ rank k + i * d.2 ∧ rank k + i * d.2 ≤ 7 := by
      simp only [diagonals, orthogonals, List.cons_append, List.nil_append, List.mem_cons, List.not_mem_nil,
        or_false] at hd
      simp only [file, rank] at hx hy ⊢
      rcases hd with rfl | rfl | rfl | rfl | rfl | rfl | rfl | rfl <;> dsimp only at hx hy ⊢ <;> omega
    have hsq : square (file (flipSquare k) + i * d.1) (rank (flipSquare k) + i * -d.2) =
        flipSquare (square (file k + i * d.1) (rank k + i * d.2)) := by
      rw [file_flip hk, rank_flip hk, mul_neg]
      generalize file k + i * d.1 = x at hbounds ⊢
      generalize hy' : (i : ℤ) * d.2 = y at hbounds ⊢
      rw [flipSquare_eq (by simp only [square]; omega)]
      simp only [square]
      omega
    dsimp only
    rw [hsq]
    exact flipBoard_none (hfree i hi hi0)

theorem diagonals_flip {d : ℤ × ℤ} (hd : d ∈ diagonals) : (d.1, -d.2) ∈ diagonals := by
  simp only [diagonals, List.mem_cons, List.not_mem_nil, or_false] at hd
  rcases hd with rfl | rfl | rfl | rfl <;> decide

theorem orthogonals_flip {d : ℤ × ℤ} (hd : d ∈ orthogonals) : (d.1, -d.2) ∈ orthogonals := by
  simp only [orthogonals, List.mem_cons, List.not_mem_nil, or_false] at hd
  rcases hd with rfl | rfl | rfl | rfl <;> decide

theorem attacks_flip (hk : k < 64) (hq : q < 64) (h : Attacks b s t k q) :
    Attacks (flipBoard b) s.inverse t (flipSquare k) (flipSquare q) := by
  cases t with
  | pawn => exact pawnAttacks_flip hk hq h
  | knight =>
    simp only [Attacks, KnightAttacks, files_flip hk hq, ranks_flip hk hq]
    exact h
  | king =>
    simp only [Attacks, KingAttacks, files_flip hk hq, ranks_flip hk hq]
    exact ⟨h.1, h.2.1, fun he => h.2.2 (vertical.eq_iff.1 he)⟩
  | bishop =>
    obtain ⟨d, hd, ho⟩ := h
    exact ⟨_, diagonals_flip hd, openLine_flip (List.mem_append_left _ hd) hk hq ho⟩
  | rook =>
    obtain ⟨d, hd, ho⟩ := h
    exact ⟨_, orthogonals_flip hd, openLine_flip (List.mem_append_right _ hd) hk hq ho⟩
  | queen =>
    obtain ⟨d, hd, ho⟩ := h
    refine ⟨_, ?_, openLine_flip hd hk hq ho⟩
    rw [List.mem_append] at hd ⊢
    exact hd.imp diagonals_flip orthogonals_flip

/-- A move of the pieces flips to one. -/
theorem plays_flip {r : Ply} (hb : ∀ q, 64 ≤ q → b q = none) (h : Plays b s r) :
    Plays (flipBoard b) s.inverse r.flip := by
  have hlt : ∀ {q ct}, b q = some ct → q < 64 := fun hq => lt_of_board_ne hb hq
  cases h with
  | push hp hq hx hy he hf =>
    have hk := hlt hp
    refine .push (flipBoard_some hp) (flipSquare_lt hq) ?_ ?_ (flipBoard_none he) (pawnFlag_flip hq hf)
    · rw [file_flip hk, file_flip hq, hx]
    · rw [rank_flip hk, rank_flip hq, forward_inverse, hy]
      ring
  | double hp hr hm hq hx1 hy1 he1 hx2 hy2 he2 =>
    have hk := hlt hp
    refine .double (flipBoard_some hp) ?_ (flipSquare_lt hm) (flipSquare_lt hq) ?_ ?_ (flipBoard_none he1) ?_ ?_
      (flipBoard_none he2)
    · rw [rank_flip hk, startRank_inverse, hr]
    · rw [file_flip hk, file_flip hm, hx1]
    · rw [rank_flip hk, rank_flip hm, forward_inverse, hy1]
      ring
    · rw [file_flip hk, file_flip hq, hx2]
    · rw [rank_flip hm, rank_flip hq, forward_inverse, hy2]
      ring
  | capture hp hq ha ht hf =>
    exact .capture (flipBoard_some hp) (flipSquare_lt hq) (pawnAttacks_flip (hlt hp) hq ha) (flipBoard_some ht)
      (pawnFlag_flip hq hf)
  | piece hp ht hq ha ho =>
    have hpiece := Plays.piece (flipBoard_some hp) ht (flipSquare_lt hq) (attacks_flip (hlt hp) hq ha)
      (flipBoard_free ho)
    rw [flipBoard_type] at hpiece
    exact hpiece

theorem generated_flip (hb : ∀ q, 64 ≤ q → b q = none) (h : Generated b s m) :
    Generated (flipBoard b) s.inverse m.flip := by
  refine ⟨plays_flip hb h.1, ?_⟩
  rw [show m.flip.defenderSide = m.defenderSide.map PieceColor.inverse from rfl, h.2]
  unfold generatedSide
  exact apply_ite ..

/-! ## The legality test -/

/-- What the legality test relies on in a move other than castling. -/
structure Movable (p : Pieces) (s : PieceColor) (m : Move) : Prop where
  side : m.attackerSide = s
  start : (p.bb s m.attackerType).getLsbD m.from = true
  target : m.to < 64
  defender : m.defenderSide ≠ some s
  castling : ∀ k ∈ Castling.all, m.flag ≠ k.flag
  passes : m.flag = .enPassantCapture → 8 ≤ m.to ∧ m.to < 56

/-- The square of the pawn taken en passant, written down once for each colour. -/
theorem behind_flip (hq : 8 ≤ q ∧ q < 56) :
    flipSquare q + 8 = flipSquare (q - 8) ∧ flipSquare q - 8 = flipSquare (q + 8) := by
  rw [flipSquare_eq (q := q) (by omega), flipSquare_eq (q := q - 8) (by omega), flipSquare_eq (q := q + 8) (by omega)]
  omega

theorem afterMove_flip {enPassantCapture : Bool} (h : enPassantCapture = true → 8 ≤ m.to ∧ m.to < 56) :
    afterMove p.flip m.flip enPassantCapture = (afterMove p m enPassantCapture).flip := by
  have hcarry : afterMove p.flip m.flip false = (afterMove p m false).flip := by
    simp only [afterMove, Move.flip, Pieces.flip_updateBitboards]
    cases m.defenderType <;> cases m.defenderSide <;> simp [Pieces.flip_set0, Pieces.flip_set1]
  cases enPassantCapture with
  | false => exact hcarry
  | true =>
    obtain ⟨hadd, hsub⟩ := behind_flip (h rfl)
    simp only [afterMove, Move.flip, Pieces.flip_updateBitboards]
    cases m.defenderType <;> cases m.defenderSide <;> cases m.attackerSide <;>
      simp [Pieces.flip_set0, Pieces.flip_set1, PieceColor.inverse, hadd, hsub]

/-- The king of the mover is alone after the move too. -/
theorem Movable.oneKing (h : Movable p s m) (hk : OneKing p s k) (enPassantCapture : Bool) :
    OneKing (afterMove p m enPassantCapture) s (kingAfter m k) := by
  -- The assignments to the bitboards of the other side leave the king alone.
  have hother : ∀ (p' : Pieces) (c : PieceColor) (t : PieceType) (f : Bitboard → Bitboard), c ≠ s →
      (p'.modify c t f).bb s .king = p'.bb s .king := fun p' c t f hc => by
    rw [Pieces.bb_modify, if_neg fun he => hc he.1.symm]
  have hcarry : (afterMove p m enPassantCapture).bb s .king =
      ((p.modify s m.attackerType (set0 · m.from)).modify s m.attackerType (set1 · m.to)).bb s .king := by
    simp only [afterMove, Pieces.bb_updateBitboards, h.side]
    generalize (p.modify s m.attackerType (set0 · m.from)).modify s m.attackerType (set1 · m.to) = p₂
    have hcapture : ∀ type side, m.defenderSide = some side →
        (p₂.modify side type (set0 · m.to)).bb s .king = p₂.bb s .king := fun type side hside =>
      hother _ _ _ _ fun he => h.defender (he ▸ hside)
    cases enPassantCapture with
    | false =>
      rw [if_neg Bool.false_ne_true]
      split
      · exact hcapture _ _ ‹_›
      · rfl
    | true =>
      -- The pawn passed by is the other side's too.
      cases s
      · refine (hother _ .black .pawn (set0 · (m.to - 8)) (by decide)).trans ?_
        split
        · exact hcapture _ _ ‹_›
        · rfl
      · refine (hother _ .white .pawn (set0 · (m.to + 8)) (by decide)).trans ?_
        split
        · exact hcapture _ _ ‹_›
        · rfl
  intro q
  rw [hcarry, kingAfter]
  simp only [Pieces.bb_modify]
  by_cases hking : m.attackerType = .king
  · -- The king goes from `k`, where it was alone, to its target.
    have hfrom : m.from = k := (hk _).1 (hking ▸ h.start)
    have htarget := h.target
    simp only [hking, and_self, if_true, getLsbD_set1, getLsbD_set0, hfrom, Bool.or_eq_true, Bool.and_eq_true,
      decide_eq_true_eq, hk q]
    omega
  · have hne : PieceType.king ≠ m.attackerType := Ne.symm hking
    simp only [hne, hking, and_false, if_false]
    exact hk q

theorem isLegalMove_movable (h : Movable p s m) (rights : CastlingRights) :
    isLegalMove p m rights = isLegalAfterMove p m (m.flag = .enPassantCapture) := by
  have hc := h.castling
  unfold isLegalMove
  split <;> rename_i hf
  · exact absurd hf (hc .wShort (by simp [Castling.all]))
  · exact absurd hf (hc .wLong (by simp [Castling.all]))
  · exact absurd hf (hc .bShort (by simp [Castling.all]))
  · exact absurd hf (hc .bLong (by simp [Castling.all]))
  · rfl

theorem Movable.flip (h : Movable p s m) : Movable p.flip s.inverse m.flip where
  side := congrArg PieceColor.inverse h.side
  start := by
    rw [Pieces.bb_flip, getLsbD_reflect, PieceColor.inverse_inverse]
    exact (congrArg _ (flipSquare_flipSquare _)).trans h.start
  target := flipSquare_lt h.target
  defender := by
    intro he
    obtain ⟨c, hc, hcs⟩ := Option.map_eq_some_iff.1 he
    refine h.defender (hc.trans (congrArg some ?_))
    rw [← PieceColor.inverse_inverse c, hcs, PieceColor.inverse_inverse]
  castling k hk hf := by
    have hflag : ∃ k' ∈ Castling.all, k'.flag = k.flag.flip := by
      rcases Castling.cases hk with rfl | rfl | rfl | rfl <;> decide
    obtain ⟨k', hk', hf'⟩ := hflag
    refine h.castling k' hk' ?_
    rw [hf', ← hf]
    exact (Flag.flip_flip _).symm
  passes hf := by
    have hep : m.flag = .enPassantCapture := by
      rw [← Flag.flip_flip m.flag, show m.flag.flip = _ from hf]
      rfl
    have hto := h.passes hep
    rw [show m.flip.to = flipSquare m.to from rfl, flipSquare_eq h.target]
    omega

/-- Legality, castling aside. -/
theorem isLegalMove_flip (h : Movable p s m) (hk : OneKing p s k) (rights : CastlingRights) :
    isLegalMove p.flip m.flip rights.flip = isLegalMove p m rights := by
  have hflag : (m.flip.flag = .enPassantCapture) = (m.flag = .enPassantCapture) := by
    simp only [Move.flip]
    cases m.flag <;> simp [Flag.flip]
  have hking := h.oneKing hk (m.flag = .enPassantCapture)
  have hside : m.flip.attackerSide = m.attackerSide.inverse := rfl
  rw [isLegalMove_movable h.flip, isLegalMove_movable h]
  simp only [isLegalAfterMove, hflag]
  rw [afterMove_flip (fun he => h.passes (by simpa using he)), hside, h.side, hking.flip.bsf_eq, hking.bsf_eq,
    isSquareAttacked_flip hking.lt]

/-! ## The generated moves -/

theorem Generated.movable (hv : p.Valid) (hg : Generated p.board s m) : Movable p s m where
  side := hg.carries.side
  start := hv.board_eq_some.1 hg.carries.start
  target := hg.carries.target
  defender he := by
    rw [hg.2, generatedSide] at he
    split at he
    · cases he
    · rw [show m.ply.attackerSide = s from hg.carries.side, Option.some.injEq] at he
      exact PieceColor.inverse_ne s he
  castling k hk hf := by
    have hn := hg.1.not_special.1
    rw [hf, find_castling hk] at hn
    cases hn
  passes hf := absurd hf hg.1.not_special.2

theorem epMove_movable {e src : ℕ} (hr : PassedBy s e) (hb : (p.bb s .pawn).getLsbD src = true) :
    Movable p s (epMove s e src) where
  side := rfl
  start := hb
  target := by
    show e < 64
    cases s <;> simp only [PassedBy] at hr <;> omega
  defender := by simp [epMove]
  castling k hk h := by rcases Castling.cases hk with rfl | rfl | rfl | rfl <;> cases h
  passes _ := by
    show 8 ≤ e ∧ e < 56
    cases s <;> simp only [PassedBy] at hr <;> omega

theorem passedBy_flip {e : ℕ} (h : PassedBy s e) : PassedBy s.inverse (flipSquare e) := by
  cases s <;> simp only [PassedBy, PieceColor.inverse] at h ⊢ <;> rw [flipSquare_eq (by omega)] <;> omega

theorem epMoves_flip (hk : OneKing p s k) (h : m ∈ epMoves p s rights ep) :
    m.flip ∈ epMoves p.flip s.inverse rights.flip (ep.map flipSquare) := by
  obtain ⟨e, src, rfl, hr, hb, ha, rfl, hl⟩ := mem_epMoves.1 h
  have hm := epMove_movable hr hb
  refine mem_epMoves.2 ⟨_, flipSquare src, rfl, passedBy_flip hr, hm.flip.start,
    pawnAttacks_flip (BitVec.lt_of_getLsbD hb) hm.target ha, rfl, ?_⟩
  rw [isLegalMove_flip hm hk, hl]

/-- The castling of the other side on the same wing. -/
def Rules.Castling.flip (k : Castling) : Castling where
  side := k.side.inverse
  flag := k.flag.flip
  right := fun r => k.right r.flip
  kingFrom := flipSquare k.kingFrom
  kingTo := flipSquare k.kingTo
  rookFrom := flipSquare k.rookFrom
  rookTo := flipSquare k.rookTo
  between := k.between.map flipSquare

theorem castling_flip {k : Castling} (hk : k ∈ Castling.all) : k.flip ∈ Castling.all := by
  have hw : Castling.wShort.flip = .bShort ∧ Castling.wLong.flip = .bLong := ⟨rfl, rfl⟩
  have hb : Castling.bShort.flip = .wShort ∧ Castling.bLong.flip = .wLong := ⟨rfl, rfl⟩
  rcases Castling.cases hk with rfl | rfl | rfl | rfl <;> simp [hw, hb, Castling.all]

theorem castling_lt {k : Castling} (hk : k ∈ Castling.all) : k.rookTo < 64 ∧ k.kingTo < 64 :=
  ⟨(castling_geometry hk).lt _ (by simp), (castling_geometry hk).lt _ (by simp)⟩

theorem castleMoves_flip (hv : p.Valid) (hking : OneKing p s k) (h : m ∈ castleMoves p s rights) :
    m.flip ∈ castleMoves p.flip s.inverse rights.flip := by
  obtain ⟨k, hk, rfl, hr, he, hl, rfl⟩ := (mem_castleMoves hv).1 h
  obtain ⟨hcheck, -, hpath⟩ := (isLegalMove_castle hk).1 hl
  refine (mem_castleMoves hv.flip).2 ⟨k.flip, castling_flip hk, rfl, hr, ?_, ?_, rfl⟩
  · intro q hq
    obtain ⟨q', hq', rfl⟩ := List.mem_map.1 hq
    rw [hv.board_flip]
    exact flipBoard_none (he q' hq')
  · refine (isLegalMove_castle (castling_flip hk)).2 ⟨(isCheck_flip hking).trans hcheck, hr, ?_⟩
    simp only [List.mem_cons, List.not_mem_nil, or_false, forall_eq_or_imp, forall_eq] at hpath ⊢
    obtain ⟨hrook, hkingTo⟩ := castling_lt hk
    exact ⟨(isSquareAttacked_flip hrook _).trans hpath.1, (isSquareAttacked_flip hkingTo _).trans hpath.2⟩

/-- A generated move flips to a generated move. -/
theorem mem_allMoves_flip (hv : p.Valid) (hk : OneKing p s k) (h : m ∈ allMoves p s ep rights) :
    m.flip ∈ allMoves p.flip s.inverse (ep.map flipSquare) rights.flip := by
  rw [mem_allMoves hv] at h
  rw [mem_allMoves hv.flip]
  rcases h with ⟨hg, hl⟩ | he | hc
  · refine .inl ⟨?_, ?_⟩
    · rw [hv.board_flip]
      exact generated_flip (fun q hq => hv.board_ge hq) hg
    · rw [isLegalMove_flip (hg.movable hv) hk, hl]
  · exact .inr (.inl (epMoves_flip hk he))
  · exact .inr (.inr (castleMoves_flip hv hk hc))

theorem mem_allMoves_flip_iff (hv : p.Valid) (hk : OneKing p s k) :
    m ∈ allMoves p.flip s.inverse (ep.map flipSquare) rights.flip ↔ ∃ m₀ ∈ allMoves p s ep rights, m = m₀.flip := by
  constructor
  · intro h
    have hback := mem_allMoves_flip hv.flip hk.flip h
    have hep : (ep.map flipSquare).map flipSquare = ep := by cases ep <;> simp
    rw [Pieces.flip_flip, PieceColor.inverse_inverse, hep, CastlingRights.flip_flip] at hback
    exact ⟨m.flip, hback, (Move.flip_flip m).symm⟩
  · rintro ⟨m₀, h, rfl⟩
    exact mem_allMoves_flip hv hk h

theorem Move.flip_injective : Function.Injective Move.flip := fun m m' h => by
  rw [← Move.flip_flip m, h, Move.flip_flip]

/-- The lists differ in their order only. -/
theorem allMoves_flip_perm (hv : p.Valid) (hk : OneKing p s k) :
    (allMoves p.flip s.inverse (ep.map flipSquare) rights.flip).Perm ((allMoves p s ep rights).map Move.flip) := by
  rw [List.perm_ext_iff_of_nodup (allMoves_nodup hv.flip) ((allMoves_nodup hv).map Move.flip_injective)]
  intro m
  rw [mem_allMoves_flip_iff hv hk, List.mem_map]
  exact exists_congr fun m₀ => and_congr_right fun _ => eq_comm

/-- A list that is not cut off loses no move on the flipped board either. -/
theorem mem_generateAllMoves_flip (hv : p.Valid) (hk : OneKing p s k)
    (hn : (allMoves p s ep rights).length ≤ MAX_MOVES) :
    m ∈ (generateAllMoves p.flip s.inverse (ep.map flipSquare) rights.flip).moves ↔
      ∃ m₀ ∈ (generateAllMoves p s ep rights).moves, m = m₀.flip := by
  have hlength : (allMoves p.flip s.inverse (ep.map flipSquare) rights.flip).length =
      (allMoves p s ep rights).length := by
    rw [(allMoves_flip_perm hv hk).length_eq, List.length_map]
  rw [generateAllMoves_moves, generateAllMoves_moves, List.take_of_length_le hn,
    List.take_of_length_le (hlength ▸ hn)]
  exact mem_allMoves_flip_iff hv hk

/-! ## `apply_move` -/

/-- The second position has the flipped bitboards, flags and en passant square of the first. -/
structure Mirrored (pos pos' : Position) : Prop where
  pieces : pos'.pieces = pos.pieces.flip
  enPassant : pos'.enPassant = pos.enPassant.map flipSquare
  rights : pos'.rights = pos.rights.flip

namespace Mirrored

/-- Assignments to the bitboards and the hash leave the rest mirrored. -/
theorem of_only {next next' : Position} (h : Mirrored pos pos') (ho : OnlyPieces pos next) (ho' : OnlyPieces pos' next')
    (hp : next'.pieces = next.pieces.flip) : Mirrored next next' := by
  obtain ⟨_, _, rfl⟩ := ho
  obtain ⟨_, _, rfl⟩ := ho'
  exact ⟨hp, h.enPassant, h.rights⟩

theorem addPiece (h : Mirrored pos pos') (q : ℕ) (t : PieceType) (c : PieceColor) :
    Mirrored (pos.addPiece q t c) (pos'.addPiece (flipSquare q) t c.inverse) := by
  apply h.of_only (addPiece_only ..) (addPiece_only ..)
  rw [addPiece_pieces, addPiece_pieces, Pieces.flip_set1, h.pieces]

theorem removePiece (h : Mirrored pos pos') (q : ℕ) (t : PieceType) (c : PieceColor) :
    Mirrored (pos.removePiece q t c) (pos'.removePiece (flipSquare q) t c.inverse) := by
  apply h.of_only (removePiece_only ..) (removePiece_only ..)
  rw [removePiece_pieces, removePiece_pieces, Pieces.flip_set0, h.pieces]

theorem carry (h : Mirrored pos pos') (m : Move) : Mirrored (pos.carry m) (pos'.carry m.flip) := by
  have hput := (h.removePiece m.from m.attackerType m.attackerSide).addPiece m.to m.attackerType m.attackerSide
  unfold Position.carry
  simp only [Move.flip]
  cases m.defenderType with
  | none => exact hput
  | some type =>
    cases m.defenderSide with
    | none => exact hput
    | some side => exact hput.removePiece m.to type side

theorem promote (h : Mirrored pos pos') (m : Move) (t : PieceType) :
    Mirrored (pos.promote m t) (pos'.promote m.flip t) :=
  (h.removePiece m.to .pawn m.attackerSide).addPiece m.to t m.attackerSide

/-- Each branch of the switch has its counterpart. -/
theorem applyFlag (h : Mirrored pos pos') (hep : m.flag = .enPassantCapture → 8 ≤ m.to ∧ m.to < 56) :
    Mirrored (pos.applyFlag m) (pos'.applyFlag m.flip) := by
  have hflip : m.flip.flag = m.flag.flip := rfl
  have hto : m.flip.to = flipSquare m.to := rfl
  have hside : m.flip.attackerSide = m.attackerSide.inverse := rfl
  unfold Position.applyFlag
  rw [hflip]
  cases hf : m.flag with
  | enPassantCapture =>
    obtain ⟨hadd, hsub⟩ := behind_flip (hep hf)
    simp only [Flag.flip, hside, hto]
    cases m.attackerSide with
    | white =>
      simp only [PieceColor.inverse, hadd]
      exact h.removePiece (m.to - 8) .pawn .black
    | black =>
      simp only [PieceColor.inverse, hsub]
      exact h.removePiece (m.to + 8) .pawn .white
  | whiteLongCastling => exact (h.removePiece 0 .rook .white).addPiece 3 .rook .white
  | whiteShortCastling => exact (h.removePiece 7 .rook .white).addPiece 5 .rook .white
  | blackLongCastling => exact (h.removePiece 56 .rook .black).addPiece 59 .rook .black
  | blackShortCastling => exact (h.removePiece 63 .rook .black).addPiece 61 .rook .black
  | promoteToKnight => exact h.promote m .knight
  | promoteToBishop => exact h.promote m .bishop
  | promoteToRook => exact h.promote m .rook
  | promoteToQueen => exact h.promote m .queen
  | default => exact h
  | pawnLongMove => exact h

theorem movePieces (h : Mirrored pos pos') (hep : m.flag = .enPassantCapture → 8 ≤ m.to ∧ m.to < 56) :
    Mirrored (pos.movePieces m) (pos'.movePieces m.flip) := by
  apply h.of_only (movePieces_only ..) (movePieces_only ..)
  rw [movePieces_eq, movePieces_eq, Pieces.flip_updateBitboards, ((h.carry m).applyFlag hep).pieces]

theorem updateCastlingRights (h : Mirrored pos pos') (q : ℕ) :
    Mirrored (pos.updateCastlingRights q) (pos'.updateCastlingRights (flipSquare q)) where
  pieces := by rw [updateCastlingRights_pieces, updateCastlingRights_pieces, h.pieces]
  enPassant := by rw [updateCastlingRights_enPassant, updateCastlingRights_enPassant, h.enPassant]
  rights := by
    apply rights_ext
    intro k hk
    rw [show k.right (pos.updateCastlingRights q).rights.flip = k.flip.right
      (pos.updateCastlingRights q).rights from rfl,
      updateCastlingRights_right _ _ hk, updateCastlingRights_right _ _ (castling_flip hk), h.rights]
    have hsquares : (flipSquare q ≠ k.kingFrom ∧ flipSquare q ≠ k.rookFrom) ↔
        (q ≠ k.flip.kingFrom ∧ q ≠ k.flip.rookFrom) :=
      and_congr (not_congr vertical.map_eq_comm) (not_congr vertical.map_eq_comm)
    rw [decide_eq_decide.2 hsquares]
    rfl

/-- The square a double push passed over. -/
theorem updateEnPassant (h : Mirrored pos pos')
    (hlong : m.flag = .pawnLongMove → flipSquare ((m.from + m.to) / 2) = (flipSquare m.from + flipSquare m.to) / 2) :
    Mirrored (pos.updateEnPassant m) (pos'.updateEnPassant m.flip) := by
  obtain ⟨_, he⟩ := updateEnPassant_eq pos m
  obtain ⟨_, he'⟩ := updateEnPassant_eq pos' m.flip
  have hflag : m.flip.flag = .pawnLongMove ↔ m.flag = .pawnLongMove := by
    simp only [Move.flip]
    cases m.flag <;> simp [Flag.flip]
  rw [he, he']
  refine ⟨h.pieces, ?_, h.rights⟩
  by_cases hf : m.flag = .pawnLongMove
  · simp only [hf, hflag.2 hf, if_true, Option.map_some, hlong hf]
    rfl
  · simp only [hf, mt hflag.1 hf, if_false, Option.map_none]

/-- The position `apply_move` builds before it looks for check. -/
theorem made (h : Mirrored pos pos') (hep : m.flag = .enPassantCapture → 8 ≤ m.to ∧ m.to < 56)
    (hlong : m.flag = .pawnLongMove → flipSquare ((m.from + m.to) / 2) = (flipSquare m.from + flipSquare m.to) / 2) :
    Mirrored ((((pos.movePieces m).updateCastlingRights m.from).updateEnPassant m).updateCounters m)
      ((((pos'.movePieces m.flip).updateCastlingRights m.flip.from).updateEnPassant m.flip).updateCounters m.flip) := by
  have hmade := ((h.movePieces hep).updateCastlingRights m.from).updateEnPassant hlong
  exact ⟨hmade.pieces, hmade.enPassant, hmade.rights⟩

end Mirrored

/-! ## Check after the move -/

/-- The switch over the flags moves no king, castling aside. -/
theorem applyFlag_king (hc : ∀ k ∈ Castling.all, m.flag ≠ k.flag) (c : PieceColor) :
    (pos.applyFlag m).pieces.bb c .king = pos.pieces.bb c .king := by
  unfold applyFlag
  split
  · split <;> simp [removePiece_pieces]
  · rename_i hf; exact absurd hf (hc .wLong (by simp [Castling.all]))
  · rename_i hf; exact absurd hf (hc .wShort (by simp [Castling.all]))
  · rename_i hf; exact absurd hf (hc .bLong (by simp [Castling.all]))
  · rename_i hf; exact absurd hf (hc .bShort (by simp [Castling.all]))
  all_goals simp [promote, addPiece_pieces, removePiece_pieces]

theorem movePieces_oneKing (h : Movable pos.pieces s m) (hk : OneKing pos.pieces s k) :
    OneKing (pos.movePieces m).pieces s (kingAfter m k) := by
  have hking := h.oneKing hk false
  intro q
  rw [movePieces_eq, Pieces.bb_updateBitboards, applyFlag_king h.castling, ← hking q, afterMove_carry,
    Pieces.bb_updateBitboards]

theorem castleMoves_unchecked (hv : pos.pieces.Valid) (hk : OneKing pos.pieces s k)
    (hm : m ∈ castleMoves pos.pieces s rights) : isCheck (pos.movePieces m).pieces s = false := by
  obtain ⟨c, hc, rfl, -, he, hl, rfl⟩ := (mem_castleMoves hv).1 hm
  obtain ⟨hcheck, -, hpath⟩ := (isLegalMove_castle hc).1 hl
  refine castled_unchecked hv hc he hcheck (hpath _ (by simp)) fun q hq => ?_
  have hking := hk.kingOn hv
  rwa [(hking q).1 hq]

/-- The check test answers the same after a generated move and after its flip. -/
theorem isCheck_made (h : Mirrored pos pos') (hv : pos.pieces.Valid) (hk : OneKing pos.pieces s k)
    (hm : m ∈ allMoves pos.pieces s ep rights) :
    isCheck (pos'.movePieces m.flip).pieces s.inverse = isCheck (pos.movePieces m).pieces s := by
  have hmovable : Movable pos.pieces s m → isCheck (pos'.movePieces m.flip).pieces s.inverse =
      isCheck (pos.movePieces m).pieces s := fun hmv => by
    rw [(h.movePieces hmv.passes).pieces, isCheck_flip (movePieces_oneKing hmv hk)]
  rcases (mem_allMoves hv).1 hm with ⟨hg, -⟩ | he | hc
  · exact hmovable (hg.movable hv)
  · obtain ⟨e, src, -, hr, hb, -, rfl, -⟩ := mem_epMoves.1 he
    exact hmovable (epMove_movable hr hb)
  · have hflip := castleMoves_flip hv hk hc
    rw [← h.pieces] at hflip
    rw [castleMoves_unchecked hv hk hc, castleMoves_unchecked (h.pieces ▸ hv.flip) (h.pieces ▸ hk.flip) hflip]

/-- What `apply_move` looks at in a generated move. -/
theorem allMoves_shape (hv : p.Valid) (hm : m ∈ allMoves p s ep rights) :
    m.attackerSide = s ∧ (m.flag = .enPassantCapture → 8 ≤ m.to ∧ m.to < 56) ∧
      (m.flag = .pawnLongMove → flipSquare ((m.from + m.to) / 2) = (flipSquare m.from + flipSquare m.to) / 2) := by
  rcases (mem_allMoves hv).1 hm with ⟨hg, -⟩ | he | hc
  · refine ⟨hg.carries.side, (hg.movable hv).passes, fun hf => ?_⟩
    obtain ⟨hto, hr, hx, hy⟩ := hg.1.long hf
    have hfrom := hv.lt_of_board hg.carries.start
    simp only [Move.ply] at hto hr hx hy
    rw [flipSquare_eq (by omega), flipSquare_eq hfrom, flipSquare_eq hto]
    cases s <;> simp only [startRank, forward, file, rank] at hr hx hy <;> omega
  · obtain ⟨e, src, -, hr, hb, -, rfl, -⟩ := mem_epMoves.1 he
    exact ⟨rfl, (epMove_movable hr hb).passes, fun h => by cases h⟩
  · obtain ⟨c, hmem, rfl, -, -, -, rfl⟩ := (mem_castleMoves hv).1 hc
    refine ⟨rfl, fun h => ?_, fun h => ?_⟩ <;> rcases Castling.cases hmem with rfl | rfl | rfl | rfl <;> cases h

/-- A generated move is accepted on both boards or on none, and leaves them mirrored. -/
theorem Mirrored.applyMove (h : Mirrored pos pos') (hv : pos.pieces.Valid) (hk : OneKing pos.pieces s k)
    (hm : m ∈ allMoves pos.pieces s ep rights) :
    (pos'.applyMove m.flip).1 = (pos.applyMove m).1 ∧ Mirrored (pos.applyMove m).2 (pos'.applyMove m.flip).2 := by
  obtain ⟨hside, hep, hlong⟩ := allMoves_shape hv hm
  have hcheck := isCheck_made h hv hk hm
  have hmade := h.made hep hlong
  have hsecond : ∀ (pos : Position) (m : Move), (pos.applyMove m).2 = if (pos.applyMove m).1 = true then
      (((pos.movePieces m).updateCastlingRights m.from).updateEnPassant m).updateCounters m else pos := by
    intro pos m
    unfold Position.applyMove
    dsimp only
    split <;> rfl
  have hfirst : (pos'.applyMove m.flip).1 = (pos.applyMove m).1 := by
    rw [applyMove_fst, applyMove_fst, show m.flip.attackerSide = m.attackerSide.inverse from rfl, hside, hcheck]
  refine ⟨hfirst, ?_⟩
  rw [hsecond, hsecond, hfirst]
  split
  · exact hmade
  · exact h

/-- Turning the board over changes nothing but the colours: the attack test
commutes with it, so does the set of generated moves, and so does making one. -/
theorem colours_alike {p : Pieces} (hv : p.Valid) (hkings : ∀ c, ∃ k, KingOn p.board c k) (s : PieceColor)
    (ep : Option ℕ) (rights : CastlingRights) (hn : (allMoves p s ep rights).length ≤ MAX_MOVES) :
    (∀ q < 64, ∀ c, isSquareAttacked p.flip (flipSquare q) c.inverse = isSquareAttacked p q c) ∧
    (∀ m, m ∈ (generateAllMoves p.flip s.inverse (ep.map flipSquare) rights.flip).moves ↔
      ∃ m₀ ∈ (generateAllMoves p s ep rights).moves, m = m₀.flip) ∧
    ∀ m ∈ (generateAllMoves p s ep rights).moves, ∀ pos pos' : Position,
      pos.pieces = p → pos.enPassant = ep → pos.rights = rights → Mirrored pos pos' →
        (pos'.applyMove m.flip).1 = (pos.applyMove m).1 ∧ Mirrored (pos.applyMove m).2 (pos'.applyMove m.flip).2 := by
  obtain ⟨k, hk⟩ := hkings s
  have hking := OneKing.of_kingOn hv hk
  refine ⟨fun q hq c => isSquareAttacked_flip hq c, fun m => mem_generateAllMoves_flip hv hking hn, ?_⟩
  rintro m hm pos pos' rfl rfl rfl h
  rw [generateAllMoves_moves] at hm
  exact h.applyMove hv hking (List.mem_of_mem_take hm)

/-- 1. e4 turned over is 1... e5. -/
theorem colours_alike_init :
    (⟨52, 36, .pawn, .black, none, none, .pawnLongMove⟩ : Move) ∈
        (generateAllMoves Position.init.pieces.flip .black none Position.init.rights.flip).moves ∧
      (({ Position.init with pieces := Position.init.pieces.flip } : Position).applyMove
        ⟨52, 36, .pawn, .black, none, none, .pawnLongMove⟩).2.enPassant = some 44 := by
  obtain ⟨-, hgenerated, happlied⟩ := colours_alike init_valid (fun c => ⟨_, init_king c⟩) .white none
    Position.init.rights (by decide +kernel)
  have hm : (⟨12, 28, .pawn, .white, none, none, .pawnLongMove⟩ : Move) ∈
      (generateAllMoves Position.init.pieces .white none Position.init.rights).moves := by decide +kernel
  have hmirror : Mirrored Position.init { Position.init with pieces := Position.init.pieces.flip } := ⟨rfl, rfl, rfl⟩
  have hep : (Position.init.applyMove ⟨12, 28, .pawn, .white, none, none, .pawnLongMove⟩).2.enPassant = some 20 := by
    decide +kernel
  refine ⟨(hgenerated _).2 ⟨_, hm, rfl⟩, ?_⟩
  rw [show (⟨52, 36, .pawn, .black, none, none, .pawnLongMove⟩ : Move) =
      Move.flip ⟨12, 28, .pawn, .white, none, none, .pawnLongMove⟩ from rfl,
    (happlied _ hm _ _ rfl rfl rfl hmirror).2.enPassant, hep]
  rfl

end ChessGame
