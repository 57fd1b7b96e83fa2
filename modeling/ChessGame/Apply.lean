import ChessGame.Generator
import ChessGame.Position
/-!
# What a move does to the board

`Shows` follows the bitboards through the assignments of `apply_move` and of
the legality test, where the squares of two pieces may overlap for a moment.
`movePieces_plays` and `movePieces_castle` give the board after a move of each kind.
-/
open Scan

namespace ChessGame

open BitboardOps MoveGen Rules

/-! ## Bitboards that show a board -/

/-- The twelve bitboards have the bits of the board. -/
def Shows (p : Pieces) (b : Board) : Prop := ∀ c t q, (p.bb c t).getLsbD q = true ↔ q < 64 ∧ b q = some (c, t)

namespace Shows

variable {p p' : Pieces} {b : Board} {c : PieceColor} {t : PieceType} {q : ℕ}

theorem of_valid (hv : p.Valid) : Shows p p.board := fun c t q => by
  rw [← hv.board_eq_some]
  exact ⟨fun h => ⟨hv.lt_of_board h, h⟩, fun h => h.2⟩

theorem congr (h : Shows p b) (he : ∀ c t, p.bb c t = p'.bb c t) : Shows p' b := fun c t q => by
  rw [← he c t]; exact h c t q

theorem clear (h : Shows p b) (hb : b q = some (c, t)) :
    Shows (p.modify c t (set0 · q)) (Function.update b q none) := by
  intro c' t' r
  rw [Pieces.bb_modify]
  by_cases hr : r = q
  · subst hr
    rw [Function.update_self]
    split
    · simp [getLsbD_set0]
    · rename_i hne
      rw [h, hb]
      simp only [Option.some.injEq, Prod.mk.injEq, reduceCtorEq, and_false, iff_false, not_and]
      exact fun _ hc ht => hne ⟨hc.symm, ht.symm⟩
  · rw [Function.update_of_ne hr]
    split
    · rename_i hct
      obtain ⟨rfl, rfl⟩ := hct
      simp [getLsbD_set0, hr, h c' t' r]
    · exact h c' t' r

/-- Clearing the square of a piece that is not there changes nothing. -/
theorem clear_absent (h : Shows p b) (hb : b q ≠ some (c, t)) : Shows (p.modify c t (set0 · q)) b := by
  intro c' t' r
  rw [Pieces.bb_modify]
  split
  · rename_i hct
    obtain ⟨rfl, rfl⟩ := hct
    by_cases hr : r = q
    · subst hr; simp [getLsbD_set0, hb]
    · simp [getLsbD_set0, hr, h c' t' r]
  · exact h c' t' r

theorem put (h : Shows p b) (hb : b q = none) (hq : q < 64) :
    Shows (p.modify c t (set1 · q)) (Function.update b q (some (c, t))) := by
  intro c' t' r
  rw [Pieces.bb_modify]
  by_cases hr : r = q
  · subst hr
    rw [Function.update_self]
    split
    · rename_i hct
      obtain ⟨rfl, rfl⟩ := hct
      simp [getLsbD_set1, hq]
    · rename_i hne
      rw [h, hb]
      simp only [reduceCtorEq, and_false, Option.some.injEq, Prod.mk.injEq, false_iff, not_and]
      exact fun _ hc ht => hne ⟨hc.symm, ht.symm⟩
  · rw [Function.update_of_ne hr]
    split
    · rename_i hct
      obtain ⟨rfl, rfl⟩ := hct
      simp [getLsbD_set1, hr, h c' t' r]
    · exact h c' t' r

/-- Bringing the derived bitboards up to date. -/
theorem update (h : Shows p b) (hb : ∀ q, 64 ≤ q → b q = none) :
    p.updateBitboards.Valid ∧ p.updateBitboards.board = b := by
  obtain ⟨hv, hq⟩ := Pieces.valid_of_bits (p := p.updateBitboards) (b := b) rfl h
  refine ⟨hv, funext fun q => ?_⟩
  by_cases hlt : q < 64
  · exact hq q hlt
  · rw [hv.board_ge (by omega), hb q (by omega)]

end Shows

variable {p : Pieces} {b : Board} {s : PieceColor} {m : Move} {pos next : Position}

/-! ## The moves of the pieces -/

/-- The board with the piece taken off its square and a piece of type `t` put on the target. -/
def placed (b : Board) (m : Move) (t : PieceType) : Board :=
  Function.update (Function.update b m.from none) m.to (some (m.attackerSide, t))

/-- What the rules say of a move and the generators write down. -/
structure Carries (b : Board) (s : PieceColor) (m : Move) : Prop where
  side : m.attackerSide = s
  start : b m.from = some (s, m.attackerType)
  target : m.to < 64
  free : ∀ t, b m.to ≠ some (s, t)
  defender : m.defenderType = (b m.to).map Prod.snd
  defenderSide : m.defenderType ≠ none → m.defenderSide = some s.inverse

theorem Carries.ne (h : Carries b s m) : m.to ≠ m.from := fun he => h.free m.attackerType (he ▸ h.start)

/-- What stands on the target square. -/
theorem Carries.target_cases (h : Carries b s m) :
    (b m.to = none ∧ m.defenderType = none) ∨
      ∃ t, b m.to = some (s.inverse, t) ∧ m.defenderType = some t ∧ m.defenderSide = some s.inverse := by
  have hd := h.defender
  cases hb : b m.to with
  | none => exact .inl ⟨rfl, by simpa [hb] using hd⟩
  | some ct =>
    obtain ⟨c, t⟩ := ct
    have hc : c = s.inverse := PieceColor.eq_inverse_of_ne fun he => h.free t (he ▸ hb)
    have ht : m.defenderType = some t := by simpa [hb] using hd
    exact .inr ⟨t, by rw [hc], ht, h.defenderSide (by simp [ht])⟩

theorem Rules.Plays.carries (h : Plays b s m.ply) (hd : m.defenderSide = generatedSide m.ply) : Carries b s m := by
  generalize hr : m.ply = r at h hd
  have hm := ply_eq hr hd
  subst hm
  cases h with
  | push hb hq hx hy he hf => exact ⟨rfl, hb, hq, by simp [he], by simp [he], by simp⟩
  | double hb hr hm hq hx1 hy1 he1 hx2 hy2 he2 => exact ⟨rfl, hb, hq, by simp [he2], by simp [he2], by simp⟩
  | capture hb hq ha ht hf =>
    refine ⟨rfl, hb, hq, fun t' hn => ?_, by simp [ht], fun _ => by simp [generatedSide]⟩
    rw [ht] at hn
    simp only [Option.some.injEq, Prod.mk.injEq] at hn
    exact absurd hn.1.symm (by simp)
  | piece hb ht hq ha ho => exact ⟨rfl, hb, hq, ho, rfl, fun _ => by simp [generatedSide, ht]⟩

theorem Generated.carries (h : Generated b s m) : Carries b s m := h.1.carries h.2

theorem bb_modify_comm (p : Pieces) {c c' : PieceColor} {t t' : PieceType} (f g : Bitboard → Bitboard)
    (hne : ¬ (c = c' ∧ t = t')) (d : PieceColor) (u : PieceType) :
    ((p.modify c t f).modify c' t' g).bb d u = ((p.modify c' t' g).modify c t f).bb d u := by
  simp only [Pieces.bb_modify]
  split_ifs <;> simp_all

/-- The bitboards of the legality test: a promoting pawn stays a pawn there. -/
theorem afterMove_shows (hv : p.Valid) (h : Carries p.board s m) :
    (afterMove p m false).Valid ∧ (afterMove p m false).board = placed p.board m m.attackerType := by
  have hs := Shows.of_valid hv
  have hfrom : Shows (p.modify m.attackerSide m.attackerType (set0 · m.from)) (Function.update p.board m.from none) :=
    hs.clear (by rw [h.side]; exact h.start)
  have hto : Function.update p.board m.from none m.to = p.board m.to := Function.update_of_ne h.ne _ _
  have hout : ∀ q, 64 ≤ q → placed p.board m m.attackerType q = none := by
    intro q hq
    have h1 : q ≠ m.to := by have := h.target; omega
    have h2 : q ≠ m.from := by have := hv.lt_of_board h.start; omega
    simp [placed, Function.update_of_ne, h1, h2, hv.board_ge hq]
  rcases h.target_cases with ⟨hn, hd⟩ | ⟨t, hb, hd, hds⟩
  · have hput := hfrom.put (c := m.attackerSide) (t := m.attackerType) (hto.trans hn) h.target
    simp only [afterMove, hd]
    exact hput.update hout
  · -- The two pieces share the target square until the captured one is removed.
    have hclear := hfrom.clear (hto.trans hb)
    have hput := hclear.put (c := m.attackerSide) (t := m.attackerType) (Function.update_self ..) h.target
    rw [Function.update_idem] at hput
    have hne : ¬ (s.inverse = m.attackerSide ∧ t = m.attackerType) := fun hc =>
      PieceColor.inverse_ne s (hc.1.trans h.side)
    have hcomm := hput.congr (bb_modify_comm _ (set0 · m.to) (set1 · m.to) hne)
    simp only [afterMove, hd, hds]
    exact hcomm.update hout

/-! ## Kings -/

/-- The king of `c` stands on `k`, and `c` has no other. -/
def KingOn (b : Board) (c : PieceColor) (k : ℕ) : Prop := ∀ q, b q = some (c, .king) ↔ q = k

theorem KingOn.here {c : PieceColor} {k : ℕ} (h : KingOn b c k) : b k = some (c, .king) := (h k).2 rfl

theorem bsf_king (hv : p.Valid) {c : PieceColor} {k : ℕ} (h : KingOn p.board c k) : bsf (p.bb c .king) = k := by
  have hbit : (p.bb c .king).getLsbD k = true := hv.board_eq_some.1 h.here
  have hne : p.bb c .king ≠ 0 := by
    intro h0
    rw [h0] at hbit
    simp at hbit
  exact (h _).1 (hv.board_eq_some.2 (bsf_spec hne).1)

theorem isCheck_eq (hv : p.Valid) {c : PieceColor} {k : ℕ} (h : KingOn p.board c k) :
    isCheck p c = isSquareAttacked p k c.inverse := by
  have hbit : (p.bb c .king).getLsbD k = true := hv.board_eq_some.1 h.here
  unfold isCheck
  rw [if_neg (fun h0 => by rw [h0] at hbit; simp at hbit), bsf_king hv h]

theorem isCheck_iff (hv : p.Valid) {c : PieceColor} {k : ℕ} (h : KingOn p.board c k) :
    isCheck p c = true ↔ LeaperAttacked p.board k c.inverse := by
  rw [isCheck_eq hv h]
  exact isSquareAttacked_iff hv (hv.lt_of_board h.here)

theorem inCheck_iff {A : AttackTest} {c : PieceColor} {k : ℕ} (h : KingOn b c k) (hk : k < 64) :
    InCheck A b c ↔ A b k c.inverse := by
  constructor
  · rintro ⟨q, -, hq, ha⟩
    rwa [(h q).1 hq] at ha
  · exact fun ha => ⟨k, hk, h.here, ha⟩

/-- The leapers' attacks depend on the squares of their own side only. -/
theorem leaperAttacked_congr {b b' : Board} {c : PieceColor} (h : ∀ q t, b q = some (c, t) ↔ b' q = some (c, t))
    (q : ℕ) : LeaperAttacked b q c ↔ LeaperAttacked b' q c := by
  unfold LeaperAttacked
  refine exists_congr fun r => and_congr_right fun _ => exists_congr fun t => and_congr_right fun _ => ?_
  refine and_congr_right fun ht => ?_
  rw [h r t]
  refine and_congr_right fun _ => ?_
  -- A leaper's attack does not look at the board.
  cases t <;> first | rfl | simp [isSlider] at ht

theorem placed_enemy (h : Carries b s m) {t u : PieceType} {q : ℕ} :
    placed b m t q = some (s.inverse, u) ↔ q ≠ m.to ∧ b q = some (s.inverse, u) := by
  unfold placed
  by_cases hto : q = m.to
  · subst hto
    simp [h.side]
  · rw [Function.update_of_ne hto]
    by_cases hfrom : q = m.from
    · subst hfrom
      simp [h.start]
    · simp [Function.update_of_ne hfrom, hto]

/-- Where the mover's king stands after the move. -/
def kingAfter (m : Move) (k : ℕ) : ℕ := if m.attackerType = .king then m.to else k

theorem placed_king (h : Carries b s m) {t : PieceType} (ht : t = .king ↔ m.attackerType = .king) {k : ℕ}
    (hk : KingOn b s k) : KingOn (placed b m t) s (kingAfter m k) := by
  have hkto : k ≠ m.to := fun he => h.free .king (he ▸ hk.here)
  intro q
  unfold placed kingAfter
  by_cases hto : q = m.to
  · subst hto
    rw [Function.update_self, h.side, Option.some.injEq, Prod.mk.injEq, ht]
    by_cases hkt : m.attackerType = .king
    · simp [hkt]
    · simp [hkt, hkto.symm]
  · rw [Function.update_of_ne hto]
    by_cases hkt : m.attackerType = .king
    · -- The king has left its square.
      have hfrom : m.from = k := (hk _).1 (hkt ▸ h.start)
      rw [if_pos hkt, hfrom]
      by_cases hq : q = k
      · subst hq; simp [hto]
      · rw [Function.update_of_ne hq, hk q]
        simp [hq, hto]
    · have hfrom : q = m.from → q ≠ k := by
        rintro rfl hq
        have hs := h.start
        rw [hq, hk.here] at hs
        simp only [Option.some.injEq, Prod.mk.injEq] at hs
        exact hkt hs.2.symm
      rw [if_neg hkt]
      by_cases hq : q = m.from
      · simp [hq, hq ▸ hfrom hq]
      · rw [Function.update_of_ne hq, hk q]

theorem placed_other_king (h : Carries b s m) {t : PieceType} {k : ℕ} (hk : KingOn b s.inverse k) (hto : m.to ≠ k) :
    KingOn (placed b m t) s.inverse k := by
  intro q
  rw [placed_enemy h, hk q]
  exact ⟨fun h => h.2, fun he => ⟨fun hq => hto (hq ▸ he), he⟩⟩

/-! ## The legality test -/

/-- The flags of the moves of the pieces. -/
theorem Rules.Plays.flag_cases {r : Ply} (h : Plays b s r) :
    r.flag = .default ∨ (r.flag = .pawnLongMove ∨ r.flag ∈ Flag.promotions) ∧ r.attackerType = .pawn := by
  have hpawn : ∀ {q f}, PawnFlag s q f → f = .default ∨ (f = .pawnLongMove ∨ f ∈ Flag.promotions) ∧ True :=
    fun hf => (pawnFlag_cases hf).imp id fun hf => ⟨.inr hf, trivial⟩
  cases h with
  | push _ _ _ _ _ hf => simpa using hpawn hf
  | double => exact .inr ⟨.inl rfl, rfl⟩
  | capture _ _ _ _ hf => simpa using hpawn hf
  | piece => exact .inl rfl

theorem Rules.Plays.flags (h : Plays b s m.ply) : m.flag = .default ∨ (m.flag = .pawnLongMove ∨
    m.flag = .promoteToKnight ∨ m.flag = .promoteToBishop ∨ m.flag = .promoteToRook ∨ m.flag = .promoteToQueen) ∧
      m.attackerType = .pawn := by
  simpa [Flag.promotions, Move.ply] using h.flag_cases

theorem isLegalMove_plays {rights : CastlingRights} (hp : Plays b s m.ply) :
    isLegalMove p m rights = isLegalAfterMove p m false := by
  unfold isLegalMove
  rcases hp.flags with hf | ⟨hf | hf | hf | hf | hf, -⟩ <;> simp [hf]

/-- A move of the pieces promotes pawns only. -/
theorem Rules.Plays.promoted_king (h : Plays b s m.ply) :
    promoted m.flag m.attackerType = .king ↔ m.attackerType = .king := by
  rcases h.flags with hf | ⟨hf | hf | hf | hf | hf, ht⟩
  · simp [promoted, hf]
  all_goals simp [promoted, hf, ht]

theorem Rules.Plays.not_special (h : Plays b s m.ply) :
    Castling.all.find? (·.flag = m.flag) = none ∧ m.flag ≠ .enPassantCapture := by
  rcases h.flags with hf | ⟨hf | hf | hf | hf | hf, -⟩ <;> rw [hf] <;> exact ⟨rfl, by simp⟩

theorem Rules.Plays.after_eq (h : Plays b s m.ply) : after b m.ply = placed b m (promoted m.flag m.attackerType) := by
  funext q
  have hfl : m.ply.flag = m.flag := rfl
  simp only [after, placed, hfl, h.not_special.1, h.not_special.2, false_and, if_false, Function.update_apply]
  rfl

variable {rights : CastlingRights} {k : ℕ}

theorem after_king (hg : Generated b s m) (hk : KingOn b s k) : KingOn (after b m.ply) s (kingAfter m k) := by
  rw [hg.1.after_eq]
  exact placed_king hg.carries hg.1.promoted_king hk

theorem after_none (hv : p.Valid) (hg : Generated p.board s m) {q : ℕ} (hq : 64 ≤ q) :
    after p.board m.ply q = none := by
  have h1 : q ≠ m.to := by have := hg.carries.target; omega
  have h2 : q ≠ m.from := by have := hv.lt_of_board hg.carries.start; omega
  rw [hg.1.after_eq, placed, Function.update_of_ne h1, Function.update_of_ne h2, hv.board_ge hq]

theorem lt_of_board_ne {q : ℕ} {ct : PieceColor × PieceType} (hb : ∀ q, 64 ≤ q → b q = none) (hq : b q = some ct) :
    q < 64 := by
  by_contra hge
  rw [hb q (by omega)] at hq
  cases hq

/-- The legality test of a move of the pieces: the mover's king is not attacked
by a pawn, a knight or a king after it. -/
theorem generated_seen_iff (hv : p.Valid) (hg : Generated p.board s m) (hk : KingOn p.board s k) :
    isLegalMove p m rights = true ↔ ¬ InCheck LeaperAttacked (after p.board m.ply) s := by
  have hc := hg.carries
  obtain ⟨hv', hb'⟩ := afterMove_shows hv hc
  have hk' : KingOn (afterMove p m false).board s (kingAfter m k) := hb' ▸ placed_king hc Iff.rfl hk
  have hk'' := after_king hg hk
  rw [inCheck_iff hk'' (lt_of_board_ne (fun q hq => after_none hv hg hq) hk''.here), isLegalMove_plays hg.1]
  simp only [isLegalAfterMove, hc.side, bsf_king hv' hk', Bool.not_eq_true', ← Bool.not_eq_true]
  rw [isSquareAttacked_iff hv' (hv'.lt_of_board hk'.here), hb', hg.1.after_eq]
  exact not_congr (leaperAttacked_congr (fun q t => by rw [placed_enemy hc, placed_enemy hc]) _)

/-! ## The pieces of `apply_move` -/

namespace Position

theorem modify_self {p : Pieces} {c : PieceColor} {t : PieceType} {f : Bitboard → Bitboard}
    (h : f (p.bb c t) = p.bb c t) :
    p.modify c t f = p := by
  rw [Pieces.modify, h]
  cases c <;> cases t <;> rfl

/-- Guarded or not, the assignment leaves the same bitboards. -/
theorem addPiece_pieces (pos : Position) (q : ℕ) (t : PieceType) (c : PieceColor) :
    (pos.addPiece q t c).pieces = pos.pieces.modify c t (set1 · q) := by
  unfold addPiece
  split
  · rfl
  · rename_i h
    refine (modify_self ?_).symm
    have hbit : (pos.pieces.bb c t).getLsbD q = true := by simpa using h
    apply BitVec.eq_of_getLsbD_eq
    intro r _
    by_cases hr : r = q
    · subst hr; simp [hbit]
    · simp [hr]

theorem removePiece_pieces (pos : Position) (q : ℕ) (t : PieceType) (c : PieceColor) :
    (pos.removePiece q t c).pieces = pos.pieces.modify c t (set0 · q) := by
  unfold removePiece
  split
  · rfl
  · rename_i h
    refine (modify_self ?_).symm
    have hbit : (pos.pieces.bb c t).getLsbD q = false := by simpa using h
    apply BitVec.eq_of_getLsbD_eq
    intro r _
    by_cases hr : r = q
    · subst hr; simp [hbit]
    · simp [hr]

end Position

theorem Shows.addPiece {q : ℕ} {t : PieceType} {c : PieceColor} (h : Shows pos.pieces b) (hb : b q = none)
    (hq : q < 64) : Shows (pos.addPiece q t c).pieces (Function.update b q (some (c, t))) := by
  rw [pos.addPiece_pieces]
  exact h.put hb hq

/-- The board without the piece `ct`, if it is on `q`. -/
def dropped (b : Board) (q : ℕ) (ct : PieceColor × PieceType) : Board :=
  if b q = some ct then Function.update b q none else b

theorem dropped_apply (b : Board) (q r : ℕ) (ct : PieceColor × PieceType) :
    dropped b q ct r = if r = q ∧ b r = some ct then none else b r := by
  unfold dropped
  by_cases hr : r = q
  · subst hr; split <;> simp_all
  · split <;> simp [hr]

theorem dropped_of_ne {q r : ℕ} (h : r ≠ q) (ct : PieceColor × PieceType) : dropped b q ct r = b r := by
  simp [dropped_apply, h]

theorem Shows.removePiece {q : ℕ} {t : PieceType} {c : PieceColor} (h : Shows pos.pieces b) :
    Shows (pos.removePiece q t c).pieces (dropped b q (c, t)) := by
  rw [pos.removePiece_pieces]
  unfold dropped
  split
  · rename_i hb; exact h.clear hb
  · rename_i hb; exact h.clear_absent hb

namespace Position

/-- `movePieces` up to its switch over the flags. -/
def carry (pos : Position) (m : Move) : Position :=
  let pos := pos.removePiece m.from m.attackerType m.attackerSide
  let pos := pos.addPiece m.to m.attackerType m.attackerSide
  match m.defenderType, m.defenderSide with
  | some type, some side => pos.removePiece m.to type side
  | _, _ => pos

theorem movePieces_eq (pos : Position) (m : Move) :
    (pos.movePieces m).pieces = ((pos.carry m).applyFlag m).pieces.updateBitboards := rfl

/-- So far `apply_move` and the legality test do the same to the bitboards. -/
theorem afterMove_carry (pos : Position) (m : Move) :
    afterMove pos.pieces m false = (pos.carry m).pieces.updateBitboards := by
  unfold carry afterMove
  cases m.defenderType with
  | none => simp [addPiece_pieces, removePiece_pieces]
  | some type => cases m.defenderSide <;> simp [addPiece_pieces, removePiece_pieces]

theorem movePieces_plays (hv : pos.pieces.Valid) (hg : Generated pos.pieces.board s m) :
    (pos.movePieces m).pieces.Valid ∧ (pos.movePieces m).pieces.board = after pos.pieces.board m.ply := by
  have hc := hg.carries
  obtain ⟨hv', hb'⟩ := afterMove_shows hv hc
  have hcarry : Shows (pos.carry m).pieces (placed pos.pieces.board m m.attackerType) :=
    (hb' ▸ Shows.of_valid hv').congr fun c t => by rw [afterMove_carry, Pieces.bb_updateBitboards]
  have hout : ∀ t q, 64 ≤ q → placed pos.pieces.board m t q = none := by
    intro t q hq
    have h1 : q ≠ m.to := by have := hc.target; omega
    have h2 : q ≠ m.from := by have := hv.lt_of_board hc.start; omega
    simp [placed, Function.update_of_ne, h1, h2, hv.board_ge hq]
  -- The promotion swaps the pawn on the target square for the new piece.
  have hpromote : ∀ t, m.attackerType = .pawn →
      Shows ((pos.carry m).promote m t).pieces (placed pos.pieces.board m t) := by
    intro t ht
    have hr := hcarry.removePiece (q := m.to) (t := .pawn) (c := m.attackerSide)
    have hd : dropped (placed pos.pieces.board m m.attackerType) m.to (m.attackerSide, .pawn) =
        Function.update (Function.update pos.pieces.board m.from none) m.to none := by
      simp [dropped, placed, ht]
    rw [hd] at hr
    have ha := hr.addPiece (t := t) (c := m.attackerSide) (Function.update_self ..) hc.target
    rwa [Function.update_idem] at ha
  have hflag : Shows ((pos.carry m).applyFlag m).pieces
      (placed pos.pieces.board m (promoted m.flag m.attackerType)) := by
    rcases hg.1.flags with hf | ⟨hf | hf | hf | hf | hf, ht⟩ <;> simp only [applyFlag, hf, promoted]
    · exact hcarry
    · exact hcarry
    all_goals exact hpromote _ ht
  rw [hg.1.after_eq]
  exact hflag.update (hout _)

/-- The other fields are untouched. -/
def OnlyPieces (pos pos' : Position) : Prop := ∃ pieces hash, pos' = { pos with pieces := pieces, hash := hash }

theorem OnlyPieces.trans {pos₁ pos₂ pos₃ : Position} (h : OnlyPieces pos₁ pos₂) (h' : OnlyPieces pos₂ pos₃) :
    OnlyPieces pos₁ pos₃ := by
  obtain ⟨_, _, rfl⟩ := h
  obtain ⟨pieces, hash, rfl⟩ := h'
  exact ⟨pieces, hash, rfl⟩

theorem addPiece_only (pos : Position) (q : ℕ) (t : PieceType) (c : PieceColor) :
    OnlyPieces pos (pos.addPiece q t c) := by
  unfold addPiece
  split <;> exact ⟨_, _, rfl⟩

theorem removePiece_only (pos : Position) (q : ℕ) (t : PieceType) (c : PieceColor) :
    OnlyPieces pos (pos.removePiece q t c) := by
  unfold removePiece
  split <;> exact ⟨_, _, rfl⟩

theorem movePieces_only (pos : Position) (m : Move) : OnlyPieces pos (pos.movePieces m) := by
  have hcarry : OnlyPieces pos (pos.carry m) := by
    have hadd := (pos.removePiece_only m.from m.attackerType m.attackerSide).trans
      (addPiece_only _ m.to m.attackerType m.attackerSide)
    unfold carry
    split
    · exact hadd.trans (removePiece_only ..)
    · exact hadd
  have hflag : OnlyPieces (pos.carry m) ((pos.carry m).applyFlag m) := by
    have hswap : ∀ q r t u c, OnlyPieces (pos.carry m) (((pos.carry m).removePiece q t c).addPiece r u c) :=
      fun q r t u c => (removePiece_only ..).trans (addPiece_only ..)
    unfold applyFlag
    split
    · split <;> exact removePiece_only ..
    all_goals first | exact hswap .. | exact ⟨_, _, rfl⟩
  exact hcarry.trans (hflag.trans ⟨_, _, rfl⟩)

end Position

/-! ## Castling -/

/-- The board after a castling as the engine makes it: king and rook are put on
their squares whether or not they stood at home. -/
def castled (b : Board) (k : Castling) : Board := fun q =>
  if q = k.kingTo then some (k.side, .king)
  else if q = k.rookTo then some (k.side, .rook)
  else if (q = k.kingFrom ∧ b q = some (k.side, .king)) ∨ (q = k.rookFrom ∧ b q = some (k.side, .rook)) then none
  else b q

/-- The squares of a castling are on the board and different, and the king and
the rook go to squares between them. -/
structure Castling.Geometry (k : Castling) : Prop where
  kingTo_between : k.kingTo ∈ k.between
  rookTo_between : k.rookTo ∈ k.between
  nodup : [k.kingFrom, k.kingTo, k.rookFrom, k.rookTo].Nodup
  lt : ∀ q ∈ [k.kingFrom, k.kingTo, k.rookFrom, k.rookTo], q < 64

theorem castling_geometry {k : Castling} (hk : k ∈ Castling.all) : Castling.Geometry k := by
  rcases Castling.cases hk with rfl | rfl | rfl | rfl <;> constructor <;> decide

theorem castling_apart {k : Castling} (hk : k ∈ Castling.all) :
    (k.kingFrom ≠ k.kingTo ∧ k.kingFrom ≠ k.rookFrom ∧ k.kingFrom ≠ k.rookTo) ∧
      (k.kingTo ≠ k.rookFrom ∧ k.kingTo ≠ k.rookTo) ∧ k.rookFrom ≠ k.rookTo := by
  have hnd := (castling_geometry hk).nodup
  simpa only [List.nodup_cons, List.mem_cons, List.not_mem_nil, or_false, not_or, List.nodup_nil, not_false_eq_true,
    and_true] using hnd

/-- A castling touches the squares of the other side nowhere. -/
theorem castled_enemy {k : Castling} (hk : k ∈ Castling.all) (he : ∀ q ∈ k.between, b q = none)
    {q : ℕ} {t : PieceType} :
    castled b k q = some (k.side.inverse, t) ↔ b q = some (k.side.inverse, t) := by
  have hgeo := castling_geometry hk
  unfold castled
  by_cases h1 : q = k.kingTo
  · simp [h1, he _ hgeo.kingTo_between]
  · by_cases h2 : q = k.rookTo
    · rw [if_neg h1, if_pos h2, h2, he _ hgeo.rookTo_between]
      simp
    · rw [if_neg h1, if_neg h2]
      split
      · rename_i h
        rcases h with ⟨-, h⟩ | ⟨-, h⟩ <;> simp [h]
      · rfl

theorem movePieces_castle (hv : pos.pieces.Valid) {k : Castling} (hk : k ∈ Castling.all)
    (he : ∀ q ∈ k.between, pos.pieces.board q = none) :
    (pos.movePieces (castleMove k)).pieces.Valid ∧
      (pos.movePieces (castleMove k)).pieces.board = castled pos.pieces.board k := by
  obtain ⟨hkt, hrt, -, hlt⟩ := castling_geometry hk
  obtain ⟨⟨hkf_kt, hkf_rf, hkf_rt⟩, ⟨hkt_rf, hkt_rt⟩, hrf_rt⟩ := castling_apart hk
  have hlt' : k.kingTo < 64 ∧ k.rookTo < 64 := ⟨hlt _ (by simp), hlt _ (by simp)⟩
  -- The four assignments, in the order of the source.
  have h1 := (Shows.of_valid hv).removePiece (q := k.kingFrom) (t := .king) (c := k.side)
  have h2 := h1.addPiece (q := k.kingTo) (t := .king) (c := k.side)
    (by rw [dropped_of_ne (Ne.symm hkf_kt), he _ hkt]) hlt'.1
  have h3 := h2.removePiece (q := k.rookFrom) (t := .rook) (c := k.side)
  have h4 := h3.addPiece (q := k.rookTo) (t := .rook) (c := k.side)
    (by rw [dropped_of_ne (Ne.symm hrf_rt), Function.update_of_ne (Ne.symm hkt_rt), dropped_of_ne (Ne.symm hkf_rt),
      he _ hrt]) hlt'.2
  have hpieces : (pos.movePieces (castleMove k)).pieces = ((((pos.removePiece k.kingFrom .king k.side).addPiece k.kingTo
      .king k.side).removePiece k.rookFrom .rook k.side).addPiece k.rookTo .rook k.side).pieces.updateBitboards := by
    rcases Castling.cases hk with rfl | rfl | rfl | rfl <;> rfl
  have hboard : Function.update (dropped (Function.update (dropped pos.pieces.board k.kingFrom (k.side, .king)) k.kingTo
      (some (k.side, .king))) k.rookFrom (k.side, .rook)) k.rookTo (some (k.side, .rook)) =
      castled pos.pieces.board k := by
    funext q
    simp only [castled, dropped_apply, Function.update_apply]
    by_cases h1 : q = k.kingTo
    · subst h1; simp [hkt_rt, hkt_rf]
    · by_cases h2 : q = k.rookTo
      · simp [h2, Ne.symm hkt_rt]
      · by_cases h3 : q = k.kingFrom
        · subst h3; simp [h1, h2, hkf_rf]
        · simp [h1, h2, h3]
  rw [hboard] at h4
  have hout : ∀ q, 64 ≤ q → castled pos.pieces.board k q = none := by
    intro q hq
    have h1 : q ≠ k.kingTo := by omega
    have h2 : q ≠ k.rookTo := by omega
    simp [castled, h1, h2, hv.board_ge hq]
  rw [hpieces]
  exact h4.update hout

end ChessGame
