import ChessGame.Kings
/-!
# The verdict of a room

`is_checkmate` and `is_stalemate` combine the attack test and the generator. In
a game whose kings are safe both answer the question of the rules as if
bishops, rooks and queens attacked nothing and en passant did not exist.
-/
open Runs

namespace ChessGame

open MoveGen Rules

variable {pos : Position} {m : Move}

/-- The side to move has no legal move. -/
def NoMoves (pos : Position) : Prop :=
  ∀ m, ¬ Legal Attacked pos.pieces.board pos.sideToMove pos.rights pos.enPassant m

def Checkmated (pos : Position) : Prop := InCheck Attacked pos.pieces.board pos.sideToMove ∧ NoMoves pos

def Stalemated (pos : Position) : Prop := ¬ InCheck Attacked pos.pieces.board pos.sideToMove ∧ NoMoves pos

/-- The side to move has no legal move when bishops, rooks and queens attack
nothing and en passant does not exist. -/
def NoMovesSeen (pos : Position) : Prop :=
  ∀ m, ¬ LegalButEnPassant LeaperAttacked pos.pieces.board pos.sideToMove pos.rights m

/-- What the engine does not see makes no difference to the verdict. -/
def VerdictSeen (pos : Position) : Prop :=
  (NoMovesSeen pos ↔ NoMoves pos) ∧
    (NoMovesSeen pos → InCheck SliderAttacked pos.pieces.board pos.sideToMove →
      InCheck LeaperAttacked pos.pieces.board pos.sideToMove)

/-! ## The parts of the verdict -/

theorem inCheck_attacked {b : Board} {s : PieceColor} :
    InCheck Attacked b s ↔ InCheck LeaperAttacked b s ∨ InCheck SliderAttacked b s := by
  constructor
  · rintro ⟨k, hk, hb, ha⟩
    exact (attacked_iff.1 ha).imp (fun h => ⟨k, hk, hb, h⟩) fun h => ⟨k, hk, hb, h⟩
  · rintro (⟨k, hk, hb, ha⟩ | ⟨k, hk, hb, ha⟩)
    · exact ⟨k, hk, hb, attacked_iff.2 (.inl ha)⟩
    · exact ⟨k, hk, hb, attacked_iff.2 (.inr ha)⟩

theorem hasLegalMoves_iff {p : Pieces} {s : PieceColor} {ep : Option ℕ} {rights : CastlingRights} :
    hasLegalMoves p s ep rights = true ↔ ∃ m, m ∈ allMoves p s ep rights := by
  rw [hasLegalMoves, decide_eq_true_eq, MoveList.size, generateAllMoves_moves, List.length_take, MAX_MOVES,
    ← List.length_pos_iff_exists_mem]
  omega

/-- The position from which the engine judges: two kings, at home while they may castle. -/
structure Judged (pos : Position) : Prop where
  sound : Sound pos
  safe : KingsSafe pos
  home : KingsHome pos

theorem Judged.isCheck_iff (h : Judged pos) :
    isCheck pos.pieces pos.sideToMove = true ↔ InCheck LeaperAttacked pos.pieces.board pos.sideToMove := by
  obtain ⟨k, hk⟩ := h.safe.1 pos.sideToMove
  rw [ChessGame.isCheck_iff h.sound.valid hk, inCheck_iff hk (h.sound.valid.lt_of_board hk.here)]

/-- Legal moves for pawns', knights' and kings' attacks alone are generated. -/
theorem Judged.generated (h : Judged pos) {r : Ply}
    (hr : LegalButEnPassant LeaperAttacked pos.pieces.board pos.sideToMove pos.rights r) :
    ∃ m ∈ allMoves pos.pieces pos.sideToMove pos.enPassant pos.rights, m.ply = r := by
  obtain ⟨k, hk⟩ := h.safe.1 pos.sideToMove
  rcases hr with ⟨hplays, hcheck⟩ | ⟨k', hk', hs, hright, hhome, he, hpath, rfl⟩
  · refine ⟨⟨r.from, r.to, r.attackerType, r.attackerSide, r.defenderType, generatedSide r, r.flag⟩, ?_, rfl⟩
    have hg : Generated pos.pieces.board pos.sideToMove
      ⟨r.from, r.to, r.attackerType, r.attackerSide, r.defenderType, generatedSide r, r.flag⟩ := ⟨hplays, rfl⟩
    exact (mem_allMoves h.sound.valid).2 (.inl ⟨hg, (generated_seen_iff h.sound.valid hg hk).2 hcheck⟩)
  · refine ⟨castleMove k', (mem_allMoves h.sound.valid).2 (.inr (.inr ?_)), rfl⟩
    have hlt : ∀ q ∈ k'.path, q < 64 := by
      rcases Castling.cases hk' with rfl | rfl | rfl | rfl <;> decide
    have hfree : ∀ q ∈ k'.path, isSquareAttacked pos.pieces q k'.side.inverse = false := by
      intro q hq
      rw [← Bool.not_eq_true, isSquareAttacked_iff h.sound.valid (hlt q hq), hs]
      exact hpath q hq
    have hking : KingOn pos.pieces.board k'.side k'.kingFrom := by
      rw [hs]
      exact (hk _).1 (hs ▸ hhome.1) ▸ hk
    refine (mem_castleMoves h.sound.valid).2 ⟨k', hk', hs, hright, he, (isLegalMove_castle hk').2 ⟨?_, hright, ?_⟩, rfl⟩
    · rw [isCheck_eq h.sound.valid hking]
      exact hfree _ (by simp [Castling.path])
    · exact fun q hq => hfree q (List.mem_cons_of_mem _ hq)

/-- Where the engine lets a castling through, the king may also step to the square it passes. -/
theorem Judged.king_step (h : Judged pos) {k : Castling} (hk : CastleMade pos k) :
    LegalButEnPassant LeaperAttacked pos.pieces.board pos.sideToMove pos.rights
      ⟨k.kingFrom, k.rookTo, .king, pos.sideToMove, none, .default⟩ := by
  have hhome := h.home k hk.mem hk.right
  have hgeo := castling_geometry hk.mem
  have hempty := hk.between k.rookTo hgeo.rookTo_between
  have hlt : k.rookTo < 64 := hgeo.lt _ (by simp)
  rw [hk.side] at hhome
  have hatt : KingAttacks k.kingFrom k.rookTo := by
    rcases Castling.cases hk.mem with rfl | rfl | rfl | rfl <;> simp only [KingAttacks] <;> decide
  have hplays : Plays pos.pieces.board pos.sideToMove ⟨k.kingFrom, k.rookTo, .king, pos.sideToMove, none,
      .default⟩ := by
    have := Plays.piece hhome (by simp) hlt hatt (by simp [hempty])
    rwa [hempty] at this
  have hg : Generated pos.pieces.board pos.sideToMove
    ⟨k.kingFrom, k.rookTo, .king, pos.sideToMove, none, some pos.sideToMove.inverse, .default⟩ := ⟨hplays, rfl⟩
  refine .inl ⟨hplays, ?_⟩
  obtain ⟨q, hq⟩ := h.safe.1 pos.sideToMove
  have hking := after_king hg hq
  rw [kingAfter, if_pos rfl] at hking
  have hpath := hk.path k.rookTo (by simp)
  rw [← Bool.not_eq_true, isSquareAttacked_iff h.sound.valid hlt, hk.side] at hpath
  show ¬ InCheck LeaperAttacked (after pos.pieces.board (Move.ply
    ⟨k.kingFrom, k.rookTo, .king, pos.sideToMove, none, some pos.sideToMove.inverse, .default⟩)) _
  rw [inCheck_iff hking hlt]
  refine fun ha => hpath ((leaperAttacked_congr (fun r t => ?_) _).1 ha)
  rw [hplays.after_eq, placed_enemy hg.carries]
  refine ⟨fun h => h.2, fun h => ⟨fun hr => ?_, h⟩⟩
  rw [hr, hempty] at h
  cases h

/-- The generator comes back empty exactly when no move is legal for what the engine sees. -/
theorem Judged.hasLegalMoves_iff (h : Judged pos) :
    hasLegalMoves pos.pieces pos.sideToMove pos.enPassant pos.rights = false ↔ NoMovesSeen pos := by
  rw [← Bool.not_eq_true, ChessGame.hasLegalMoves_iff]
  constructor
  · intro hn r hr
    obtain ⟨m, hm, -⟩ := h.generated hr
    exact hn ⟨m, hm⟩
  · rintro hn ⟨m, hm⟩
    obtain ⟨k, hk⟩ := h.safe.1 pos.sideToMove
    rcases (mem_allMoves h.sound.valid).1 hm with ⟨hg, hl⟩ | he | hc
    · exact hn _ (.inl ⟨hg.1, (generated_seen_iff h.sound.valid hg hk).1 hl⟩)
    · rw [h.sound.epMoves_nil] at he
      cases he
    · obtain ⟨k', hk', hs, hr, he, hl, rfl⟩ := (mem_castleMoves h.sound.valid).1 hc
      obtain ⟨hch, -, hp⟩ := (isLegalMove_castle hk').1 hl
      exact hn _ (h.king_step ⟨hk', hs, hr, he, hch, hp⟩)

/-! ## The verdict -/

/-- The player whose move is accepted. -/
def mover (room : GameRoom) (call : MoveCall) : SessionId :=
  if room.has call.player then call.player
  else if room.position.sideToMove = .white then room.white else room.black

/-- The room ends by checkmate, won by the mover, exactly when the rules say
so, and by stalemate exactly when they do. -/
def VerdictRight (room : GameRoom) (call : MoveCall) (room' : GameRoom) (e : Option Ending) : Prop :=
  ∀ winner, (e = some ⟨.checkmate, winner⟩ ↔ winner = some (mover room call) ∧ Checkmated room'.position) ∧
    (e = some ⟨.stalemate, winner⟩ ↔ winner = none ∧ Stalemated room'.position)

variable {white black : SessionId} {l : List (GameRoom × MoveCall)} {room room' : GameRoom} {call : MoveCall}
  {e : Option Ending}

/-- Two tests that differ in what they overlook give the same verdicts exactly
when what is overlooked decides neither. -/
theorem seen_iff {seen unseen noneSeen none : Prop} :
    ((seen ∧ noneSeen ↔ (seen ∨ unseen) ∧ none) ∧ (¬ seen ∧ noneSeen ↔ ¬ (seen ∨ unseen) ∧ none)) ↔
      ((noneSeen ↔ none) ∧ (noneSeen → unseen → seen)) := by
  by_cases seen <;> by_cases unseen <;> by_cases noneSeen <;> by_cases none <;> simp_all

/-- The winner of a checkmate is the mover. -/
theorem Accepts.winner (h : Accepts room call room' e m)
    (hs : room'.position.sideToMove = room.position.sideToMove.inverse) :
    (if room'.position.sideToMove = .white then room'.black else room'.white) = mover room call := by
  have hseats : room'.white = room.white ∧ room'.black = room.black := by rw [h.room]; exact ⟨rfl, rfl⟩
  rw [hs, hseats.1, hseats.2]
  unfold mover GameRoom.has
  obtain ⟨hw, hb⟩ := h.turn
  cases hside : room.position.sideToMove <;>
    simp only [hside, PieceColor.inverse, reduceCtorEq, if_true, if_false] at hw hb ⊢
  · by_cases hp : call.player = room.white
    · simp [hp]
    · have : ¬ call.player = room.black := fun hp => by cases hb hp
      simp [hp, this]
  · by_cases hp : call.player = room.black
    · simp [hp]
    · have : ¬ call.player = room.white := fun hp => by cases hw hp
      simp [hp, this]

/-- How the endings read off the position. -/
theorem Judged.verdict (h : Judged room.position) (winner : Option SessionId) :
    (room.verdict = some ⟨.checkmate, winner⟩ ↔
      winner = some (if room.position.sideToMove = .white then room.black else room.white) ∧
        InCheck LeaperAttacked room.position.pieces.board room.position.sideToMove ∧ NoMovesSeen room.position) ∧
    (room.verdict = some ⟨.stalemate, winner⟩ ↔
      winner = none ∧
        ¬ InCheck LeaperAttacked room.position.pieces.board room.position.sideToMove ∧ NoMovesSeen room.position) := by
  rw [← h.isCheck_iff, ← h.hasLegalMoves_iff]
  unfold GameRoom.verdict Position.isCheckmate Position.isStalemate
  cases isCheck room.position.pieces room.position.sideToMove <;>
    cases hasLegalMoves room.position.pieces room.position.sideToMove room.position.enPassant room.position.rights <;>
    simp only [Bool.not_true, Bool.not_false, Bool.and_true, Bool.and_false, if_true, Bool.false_eq_true, if_false,
      Option.some.injEq, Ending.mk.injEq, reduceCtorEq, false_and, and_false, not_true, not_false_eq_true, true_and,
      and_true, iff_false, eq_comm] <;>
    split_ifs <;> simp

theorem kingOn_of_bb {p : Pieces} (hv : p.Valid) {c : PieceColor} {k : ℕ} (hk : k < 64)
    (hb : p.bb c .king = BitboardOps.set1 0 k) : KingOn p.board c k := by
  intro q
  rw [hv.board_eq_some, hb]
  simp only [BitboardOps.getLsbD_set1, BitVec.ofNat_eq_ofNat, BitVec.getLsbD_zero, Bool.false_or, decide_eq_true_eq]
  omega

/-- Where every generated move leaves the king in check, there is no legal move. -/
theorem Judged.noMoves (h : Judged pos) (hep : pos.enPassant = none)
    (hall : ∀ m ∈ allMoves pos.pieces pos.sideToMove pos.enPassant pos.rights,
      Castling.all.find? (·.flag = m.flag) = none ∧
        InCheck Attacked (after pos.pieces.board m.ply) pos.sideToMove) : NoMoves pos := by
  have hseen : ∀ b s, ¬ InCheck Attacked b s → ¬ InCheck LeaperAttacked b s := fun b s hn hl =>
    hn (inCheck_attacked.2 (.inl hl))
  rintro r ((⟨hplays, hcheck⟩ | ⟨k, hk, hs, hr, hh, he, hpath, rfl⟩) | ⟨⟨_, e, he, -⟩, -⟩)
  · obtain ⟨m, hm, rfl⟩ := h.generated (.inl ⟨hplays, hseen _ _ hcheck⟩)
    exact hcheck (hall m hm).2
  · have hpath' : ∀ q ∈ k.path, ¬ LeaperAttacked pos.pieces.board q pos.sideToMove.inverse := fun q hq hl =>
      hpath q hq (attacked_iff.2 (.inl hl))
    obtain ⟨m, hm, hply⟩ := h.generated (.inr ⟨k, hk, hs, hr, hh, he, hpath', rfl⟩)
    have hflag : m.flag = k.flag := congrArg Ply.flag hply
    have hnone := (hall m hm).1
    rw [hflag, find_castling hk] at hnone
    cases hnone
  · rw [hep] at he
    cases he

/-- What the checks below look at: both kings, the castling flags, and every move of white. -/
def mateTest (pos : Position) : Bool :=
  pos.sideToMove = .white && pos.enPassant = none && pos.pieces.bb .white .king = BitboardOps.set1 0 4 &&
    pos.pieces.bb .black .king = BitboardOps.set1 0 60 && !decide (InCheck Attacked pos.pieces.board .black) &&
    decide (InCheck Attacked pos.pieces.board .white) &&
    (allMoves pos.pieces .white none pos.rights).all fun m =>
      (Castling.all.find? (·.flag = m.flag)).isNone && decide (InCheck Attacked (after pos.pieces.board m.ply) .white)

theorem checkmated_of_test (hs : Sound pos) (h : mateTest pos = true) : Checkmated pos := by
  simp only [mateTest, Bool.and_eq_true, decide_eq_true_eq, Bool.not_eq_true', decide_eq_false_iff_not,
    List.all_eq_true, Option.isNone_iff_eq_none] at h
  obtain ⟨⟨⟨⟨⟨⟨hside, hep⟩, hw⟩, hb⟩, hblack⟩, hwhite⟩, hall⟩ := h
  have hkw : KingOn pos.pieces.board .white 4 := kingOn_of_bb hs.valid (by decide) hw
  have hkb : KingOn pos.pieces.board .black 60 := kingOn_of_bb hs.valid (by decide) hb
  have hhome : KingsHome pos := by
    intro k hk _
    rcases Castling.cases hk with rfl | rfl | rfl | rfl
    · exact hkw.here
    · exact hkw.here
    · exact hkb.here
    · exact hkb.here
  have hsafe : KingsSafe pos := by
    refine ⟨fun c => ?_, by rw [hside]; exact hblack⟩
    cases c
    · exact ⟨4, hkw⟩
    · exact ⟨60, hkb⟩
  have hj : Judged pos := ⟨hs, hsafe, hhome⟩
  refine ⟨by rw [hside]; exact hwhite, hj.noMoves hep fun m hm => ?_⟩
  rw [hside, hep] at hm
  rw [hside]
  exact hall m hm

end ChessGame