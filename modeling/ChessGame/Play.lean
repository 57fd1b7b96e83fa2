import ChessGame.Apply
import ChessGame.Lib.Runs
/-!
# Positions reached by play

`Played` is one turn of the game loop: a generated move that `apply_move`
accepts. `Effect` says once what a turn does, and every result about the
positions reached is a case analysis over it.
-/
open Scan Runs

namespace ChessGame

open BitboardOps MoveGen Rules Position

/-- A generated move, and the position after `apply_move` has accepted it. -/
def Played (pos : Position) (m : Move) (next : Position) : Prop :=
  m ∈ pos.generateMoves.moves ∧ pos.applyMove m = (true, next)

/-- The positions reached from `Position()` by generated moves. -/
def Reached (pos : Position) : Prop := Reachable Played Position.init pos

/-- What holds in every position reached: the bitboards stand for a board, and
an en passant square lies before the pawn that was just moved. -/
structure Sound (pos : Position) : Prop where
  valid : pos.pieces.Valid
  enPassant : ∀ e, pos.enPassant = some e → PassedBy pos.sideToMove.inverse e

/-- The board after a generated move other than en passant. -/
def moved (b : Board) (m : Move) : Board :=
  match Castling.all.find? (·.flag = m.flag) with
  | some k => castled b k
  | none => after b m.ply

/-- The castling `k` as the generator lets it through. -/
structure CastleMade (pos : Position) (k : Castling) : Prop where
  mem : k ∈ Castling.all
  side : k.side = pos.sideToMove
  right : k.right pos.rights = true
  between : ∀ q ∈ k.between, pos.pieces.board q = none
  unchecked : isCheck pos.pieces k.side = false
  path : ∀ q ∈ [k.rookTo, k.kingTo], isSquareAttacked pos.pieces q k.side.inverse = false

/-- What a turn does. -/
structure Effect (pos : Position) (m : Move) (next : Position) : Prop where
  made : (Generated pos.pieces.board pos.sideToMove m ∧ isLegalMove pos.pieces m pos.rights = true) ∨
    ∃ k, CastleMade pos k ∧ m = castleMove k
  valid : next.pieces.Valid
  board : next.pieces.board = moved pos.pieces.board m
  right : ∀ k ∈ Castling.all,
    k.right next.rights = (k.right pos.rights && decide (m.from ≠ k.kingFrom ∧ m.from ≠ k.rookFrom))
  enPassant : next.enPassant = if m.flag = .pawnLongMove then some ((m.from + m.to) / 2) else none
  moveCtr : next.moveCtr = pos.moveCtr + 1
  unchecked : isCheck next.pieces pos.sideToMove = false

variable {pos next : Position} {m : Move}

/-! ## The parts of `apply_move` -/

theorem find_castling {k : Castling} (hk : k ∈ Castling.all) : Castling.all.find? (·.flag = k.flag) = some k := by
  rcases Castling.cases hk with rfl | rfl | rfl | rfl <;> rfl

/-- The four flags determine each other's record. -/
theorem rights_ext {r r' : CastlingRights} (h : ∀ k ∈ Castling.all, k.right r = k.right r') : r = r' := by
  have hall := h
  simp only [Castling.all, List.mem_cons, List.not_mem_nil, or_false, forall_eq_or_imp, forall_eq, Castling.wShort,
    Castling.wLong, Castling.bShort, Castling.bLong] at hall
  cases r; cases r'
  simp_all

theorem moved_castle (b : Board) {k : Castling} (hk : k ∈ Castling.all) : moved b (castleMove k) = castled b k := by
  unfold moved
  rw [show (castleMove k).flag = k.flag from rfl, find_castling hk]

theorem updateCastlingRights_pieces (pos : Position) (q : ℕ) : (pos.updateCastlingRights q).pieces = pos.pieces := by
  unfold updateCastlingRights
  split_ifs <;> rfl

theorem updateCastlingRights_moveCtr (pos : Position) (q : ℕ) :
    (pos.updateCastlingRights q).moveCtr = pos.moveCtr := by
  unfold updateCastlingRights
  split_ifs <;> rfl

theorem updateCastlingRights_enPassant (pos : Position) (q : ℕ) :
    (pos.updateCastlingRights q).enPassant = pos.enPassant := by
  unfold updateCastlingRights
  split_ifs <;> rfl

/-- A castling loses its flag when a move starts on the home square of its king or its rook. -/
theorem updateCastlingRights_right (pos : Position) (q : ℕ) {k : Castling} (hk : k ∈ Castling.all) :
    k.right (pos.updateCastlingRights q).rights =
      (k.right pos.rights && decide (q ≠ k.kingFrom ∧ q ≠ k.rookFrom)) := by
  by_cases hq : q ∈ [0, 4, 7, 56, 60, 63]
  · simp only [List.mem_cons, List.not_mem_nil, or_false] at hq
    rcases hq with rfl | rfl | rfl | rfl | rfl | rfl <;> rcases Castling.cases hk with rfl | rfl | rfl | rfl <;>
      simp [updateCastlingRights, Castling.wShort, Castling.wLong, Castling.bShort, Castling.bLong, dropWLCastling,
        dropWSCastling, dropBLCastling, dropBSCastling]
  · simp only [List.mem_cons, List.not_mem_nil, or_false, not_or] at hq
    obtain ⟨h0, h4, h7, h56, h60, h63⟩ := hq
    rcases Castling.cases hk with rfl | rfl | rfl | rfl <;>
      simp [updateCastlingRights, Castling.wShort, Castling.wLong, Castling.bShort, Castling.bLong, h0, h4, h7,
        h56, h60, h63]

theorem updateEnPassant_eq (pos : Position) (m : Move) : ∃ hash, pos.updateEnPassant m = { pos with
    enPassant := if m.flag = .pawnLongMove then some ((m.from + m.to) / 2) else none
    hash := hash } := by
  unfold updateEnPassant
  by_cases hf : m.flag = .pawnLongMove
  · simp only [hf, ne_eq, not_true_eq_false, if_false, if_true]
    exact ⟨_, rfl⟩
  · simp only [ne_eq, hf, not_false_eq_true, if_true, if_false]
    cases pos with
    | mk pieces ep =>
      cases ep
      · exact ⟨_, rfl⟩
      · exact ⟨_, rfl⟩

/-- An accepted move is the four updates in a row. -/
theorem applyMove_eq (h : pos.applyMove m = (true, next)) :
    next = (((pos.movePieces m).updateCastlingRights m.from).updateEnPassant m).updateCounters m := by
  simp only [applyMove] at h
  split at h
  · simp at h
  · exact (Prod.mk.inj h).2.symm

theorem applyMove_fst (pos : Position) (m : Move) :
    (pos.applyMove m).1 = !isCheck (pos.movePieces m).pieces m.attackerSide := by
  obtain ⟨hash, hep⟩ := updateEnPassant_eq ((pos.movePieces m).updateCastlingRights m.from) m
  unfold Position.applyMove
  rw [hep]
  simp only [Position.updateCounters, updateCastlingRights_pieces]
  split
  · rename_i h; rw [h]; rfl
  · rename_i h; simp [h]

/-- The counter and the history, which a pawn move or a capture starts anew. -/
theorem applyMove_counts (h : pos.applyMove m = (true, next)) :
    next.fiftyMovesCtr = (if isIrreversible m then 0 else pos.fiftyMovesCtr + 1) ∧
    next.history = (if isIrreversible m then [] else pos.history) ++ [next.hash] := by
  obtain ⟨pieces, hash, hmp⟩ := pos.movePieces_only m
  obtain ⟨hash', hep⟩ := updateEnPassant_eq ((pos.movePieces m).updateCastlingRights m.from) m
  have hkept : ((pos.movePieces m).updateCastlingRights m.from).fiftyMovesCtr = pos.fiftyMovesCtr ∧
      ((pos.movePieces m).updateCastlingRights m.from).history = pos.history := by
    rw [hmp]
    unfold updateCastlingRights
    split_ifs <;> exact ⟨rfl, rfl⟩
  rw [applyMove_eq h, hep, updateCounters]
  dsimp only
  rw [hkept.1, hkept.2]
  exact ⟨rfl, rfl⟩

/-- An accepted move, part by part. -/
theorem applyMove_true (h : pos.applyMove m = (true, next)) :
    next.pieces = (pos.movePieces m).pieces ∧
    (∀ k ∈ Castling.all,
      k.right next.rights = (k.right pos.rights && decide (m.from ≠ k.kingFrom ∧ m.from ≠ k.rookFrom))) ∧
    next.enPassant = (if m.flag = .pawnLongMove then some ((m.from + m.to) / 2) else none) ∧
    next.moveCtr = pos.moveCtr + 1 ∧
    isCheck next.pieces m.attackerSide = false := by
  obtain ⟨pieces, hash, hmp⟩ := pos.movePieces_only m
  obtain ⟨hash', hep⟩ := updateEnPassant_eq ((pos.movePieces m).updateCastlingRights m.from) m
  simp only [applyMove] at h
  generalize hn : (((pos.movePieces m).updateCastlingRights m.from).updateEnPassant m).updateCounters m = n at h
  rw [hep] at hn
  split at h
  · simp at h
  · rename_i hcheck
    rw [Prod.mk.injEq] at h
    obtain ⟨-, rfl⟩ := h
    subst hn
    have hpieces := updateCastlingRights_pieces (pos.movePieces m) m.from
    have hctr := updateCastlingRights_moveCtr (pos.movePieces m) m.from
    refine ⟨hpieces, fun k hk => ?_, rfl, ?_, by simpa using hcheck⟩
    · have hr := updateCastlingRights_right (pos.movePieces m) m.from hk
      simpa only [updateCounters, hmp] using hr
    · rw [hmp] at hctr
      simp only [updateCounters, hmp, hctr]

/-! ## A turn -/

theorem Sound.epMoves_nil (h : Sound pos) (rights : CastlingRights) :
    epMoves pos.pieces pos.sideToMove rights pos.enPassant = [] := by
  rw [List.eq_nil_iff_forall_not_mem]
  intro m hm
  obtain ⟨e, he, -, -, hr⟩ := epMoves_shape hm
  have hep := h.enPassant e he
  generalize pos.sideToMove = s at hep hr
  cases s <;> simp only [PassedBy, PieceColor.inverse] at hep hr <;> omega

theorem Sound.made (h : Sound pos) (hm : m ∈ pos.generateMoves.moves) :
    (Generated pos.pieces.board pos.sideToMove m ∧ isLegalMove pos.pieces m pos.rights = true) ∨
      ∃ k, CastleMade pos k ∧ m = castleMove k := by
  unfold generateMoves at hm
  rw [generateAllMoves_moves] at hm
  rcases (mem_allMoves h.valid).1 (List.mem_of_mem_take hm) with hg | he | hc
  · exact .inl hg
  · rw [h.epMoves_nil] at he; simp at he
  · obtain ⟨k, hk, hs, hr, he, hl, rfl⟩ := (mem_castleMoves h.valid).1 hc
    obtain ⟨hch, -, hp⟩ := (isLegalMove_castle hk).1 hl
    exact .inr ⟨k, ⟨hk, hs, hr, he, hch, hp⟩, rfl⟩

theorem Played.effect (h : Sound pos) (hp : Played pos m next) : Effect pos m next := by
  obtain ⟨hm, ha⟩ := hp
  have hmade := h.made hm
  have hside : m.attackerSide = pos.sideToMove := by
    rcases hmade with ⟨hg, -⟩ | ⟨k, hk, rfl⟩
    · exact hg.carries.side
    · exact hk.side
  have hpieces : (pos.movePieces m).pieces.Valid ∧
      (pos.movePieces m).pieces.board = moved pos.pieces.board m := by
    rcases hmade with ⟨hg, -⟩ | ⟨k, hk, rfl⟩
    · rw [moved, hg.1.not_special.1]
      exact movePieces_plays h.valid hg
    · rw [moved_castle _ hk.mem]
      exact movePieces_castle h.valid hk.mem hk.between
  obtain ⟨hp, hr, he, hc, hu⟩ := applyMove_true ha
  exact ⟨hmade, hp ▸ hpieces.1, hp ▸ hpieces.2, hr, he, hc, hside ▸ hu⟩

theorem Effect.sideToMove (h : Effect pos m next) : next.sideToMove = pos.sideToMove.inverse := by
  unfold Position.sideToMove
  rw [h.moveCtr]
  by_cases hc : pos.moveCtr % 2 = 0
  · rw [if_pos hc, if_neg (by omega)]; rfl
  · rw [if_neg hc, if_pos (by omega)]; rfl

/-- The squares of a double push. -/
theorem Rules.Plays.long {b : Board} {s : PieceColor} {r : Ply} (h : Plays b s r) (hf : r.flag = .pawnLongMove) :
    r.to < 64 ∧ rank r.from = startRank s ∧ file r.to = file r.from ∧ rank r.to = rank r.from + 2 * forward s := by
  cases h with
  | push _ _ _ _ _ hpf => rcases pawnFlag_cases hpf with rfl | hpf <;> simp_all [Flag.promotions]
  | double _ hr _ hq hx1 hy1 _ hx2 hy2 _ => exact ⟨hq, hr, hx2, by rw [hy2, hy1]; ring⟩
  | capture _ _ _ _ hpf => rcases pawnFlag_cases hpf with rfl | hpf <;> simp_all [Flag.promotions]
  | piece => simp at hf

/-- The squares leave the flag of a move only the choice between the promotions. -/
theorem Rules.Plays.flag_by {b : Board} {s : PieceColor} {r : Ply} (h : Plays b s r) :
    (r.attackerType = .pawn ∧ ranks r.from r.to = 1 ∧ PawnFlag s r.to r.flag) ∨
      (r.attackerType = .pawn ∧ ranks r.from r.to = 2 ∧ r.flag = .pawnLongMove) ∨
      (r.attackerType ≠ .pawn ∧ r.flag = .default) := by
  have hf : forward s = 1 ∨ forward s = -1 := by cases s <;> simp [forward]
  cases h with
  | push _ _ _ hy _ hpf => exact .inl ⟨rfl, by simp only [ranks]; omega, hpf⟩
  | double _ _ _ _ _ hy _ _ hy' _ => exact .inr (.inl ⟨rfl, by simp only [ranks]; omega, rfl⟩)
  | capture _ _ ha _ hpf => exact .inl ⟨rfl, by have := ha.2; simp only [ranks]; omega, hpf⟩
  | piece _ ht _ _ _ => exact .inr (.inr ⟨ht, rfl⟩)

/-- A double push passes over a square of its own side. -/
theorem Effect.passed (h : Effect pos m next) (hf : m.flag = .pawnLongMove) :
    PassedBy pos.sideToMove ((m.from + m.to) / 2) := by
  rcases h.made with ⟨⟨hp, -⟩, -⟩ | ⟨k, hk, rfl⟩
  · obtain ⟨-, hr, hx, hy⟩ := hp.long hf
    generalize pos.sideToMove = s at hr hy
    simp only [Move.ply] at hr hx hy
    cases s <;> simp only [PassedBy, startRank, forward, file, rank] at * <;> omega
  · rcases Castling.cases hk.mem with rfl | rfl | rfl | rfl <;> cases hf

theorem Effect.sound (h : Effect pos m next) : Sound next where
  valid := h.valid
  enPassant e he := by
    rw [h.enPassant] at he
    split at he
    · rename_i hf
      rw [Option.some.injEq] at he
      rw [h.sideToMove, PieceColor.inverse_inverse, ← he]
      exact h.passed hf
    · cases he

/-! ## A generated move is never turned down -/

/-- `apply_move` accepts what the generator lets through, castling aside. -/
theorem applyMove_generated (hs : Sound pos) (hg : Generated pos.pieces.board pos.sideToMove m)
    (hl : isLegalMove pos.pieces m pos.rights = true) : (pos.applyMove m).1 = true := by
  have hc := hg.carries
  obtain ⟨hv, hb⟩ := movePieces_plays hs.valid hg
  obtain ⟨hv', hb'⟩ := afterMove_shows hs.valid hc
  rw [hg.1.after_eq] at hb
  rw [isLegalMove_plays hg.1, isLegalAfterMove, hc.side, Bool.not_eq_true'] at hl
  rw [applyMove_fst, hc.side, Bool.not_eq_true']
  generalize (pos.movePieces m).pieces = p at hv hb
  generalize afterMove pos.pieces m false = p' at hv' hb' hl
  -- a promotion changes neither the kings nor what the leapers of the other side attack
  have hking : p.bb pos.sideToMove .king = p'.bb pos.sideToMove .king := by
    apply BitVec.eq_of_getLsbD_eq
    intro q hq
    rw [Bool.eq_iff_iff, ← hv.board_eq_some, ← hv'.board_eq_some, hb, hb']
    unfold placed
    by_cases hto : q = m.to
    · subst hto
      simp [hg.1.promoted_king]
    · rw [Function.update_of_ne hto, Function.update_of_ne hto]
  unfold isCheck
  simp only
  split
  · rfl
  · rename_i hne
    have hlt : bsf (p.bb pos.sideToMove .king) < 64 := BitVec.lt_of_getLsbD (bsf_spec hne).1
    rw [← hking, ← Bool.not_eq_true, isSquareAttacked_iff hv' hlt, hb'] at hl
    rw [← Bool.not_eq_true, isSquareAttacked_iff hv hlt, hb]
    refine fun ha => hl ((leaperAttacked_congr (fun q t => ?_) _).1 ha)
    rw [placed_enemy hc, placed_enemy hc]

/-- A castling can leave two kings, one where the king stood and one on its
target. The generator has seen that neither square is attacked. -/
theorem castled_unchecked (hv : pos.pieces.Valid) {k : Castling} (hk : k ∈ Castling.all)
    (he : ∀ q ∈ k.between, pos.pieces.board q = none) (hcheck : isCheck pos.pieces k.side = false)
    (hto : isSquareAttacked pos.pieces k.kingTo k.side.inverse = false)
    (hone : ∀ q, pos.pieces.board q = some (k.side, .king) → KingOn pos.pieces.board k.side q) :
    isCheck (pos.movePieces (castleMove k)).pieces k.side = false := by
  obtain ⟨hv', hb'⟩ := movePieces_castle hv hk he
  have hsame : ∀ q < 64, isSquareAttacked (pos.movePieces (castleMove k)).pieces q k.side.inverse =
      isSquareAttacked pos.pieces q k.side.inverse := by
    intro q hq
    rw [Bool.eq_iff_iff, isSquareAttacked_iff hv' hq, isSquareAttacked_iff hv hq, hb']
    exact leaperAttacked_congr (fun r t => castled_enemy hk he) q
  unfold isCheck
  dsimp only
  split
  · rfl
  · rename_i hne
    have hbit := (bsf_spec hne).1
    generalize bsf ((pos.movePieces (castleMove k)).pieces.bb k.side .king) = r at hbit
    rw [hsame r (BitVec.lt_of_getLsbD hbit)]
    have hking : r = k.kingTo ∨ pos.pieces.board r = some (k.side, .king) := by
      rw [← hv'.board_eq_some, hb'] at hbit
      unfold castled at hbit
      split at hbit
      · rename_i hr; exact .inl hr
      · split at hbit
        · simp at hbit
        · split at hbit
          · cases hbit
          · exact .inr hbit
    rcases hking with rfl | hr
    · exact hto
    · rw [← isCheck_eq hv (hone r hr), hcheck]

/-! ## The start -/

theorem init_pieces : Position.init.pieces = Pieces.ofBoard Position.init.pieces.board := by decide +kernel

theorem init_valid : Position.init.pieces.Valid := by
  rw [init_pieces]
  exact Pieces.ofBoard_valid _

theorem init_sound : Sound Position.init where
  valid := init_valid
  enPassant e he := by cases he

theorem Reached.sound (h : Reached pos) : Sound pos :=
  h.inv Sound init_sound fun hs hp => (hp.effect hs).sound

theorem Reached.effect (h : Reached pos) (hp : Played pos m next) : Effect pos m next := hp.effect h.sound

/-! ## Games by their squares -/

/-- The first generated move with these squares, played. -/
def Position.turn (pos : Position) (squares : ℕ × ℕ) : Option (Move × Position) :=
  match pos.generateMoves.moves.find? (fun m => m.from = squares.1 && m.to = squares.2) with
  | none => none
  | some m =>
    match pos.applyMove m with
    | (true, next) => some (m, next)
    | (false, _) => none

/-- The position after a game given by its squares. -/
def line (game : List (ℕ × ℕ)) : Option Position := follow Position.turn Position.init game

theorem Position.turn_played {squares : ℕ × ℕ} (h : pos.turn squares = some (m, next)) :
    Played pos m next ∧ (m.from, m.to) = squares := by
  unfold Position.turn at h
  split at h
  · cases h
  · rename_i m' hm
    split at h
    · rename_i next' ha
      simp only [Option.some.injEq, Prod.mk.injEq] at h
      obtain ⟨rfl, rfl⟩ := h
      have hsq := List.find?_some hm
      simp only [Bool.and_eq_true, decide_eq_true_eq] at hsq
      exact ⟨⟨List.mem_of_find?_eq_some hm, ha⟩, Prod.ext hsq.1 hsq.2⟩
    · cases h

theorem line_run {game : List (ℕ × ℕ)} (h : line game = some pos) :
    ∃ l, Run Played Position.init l pos ∧ l.map (fun x => (x.2.from, x.2.to)) = game := by
  obtain ⟨l, hr, hl⟩ := follow_run Played (fun m => (m.from, m.to)) (fun ht => Position.turn_played ht) .nil h
  exact ⟨l, by simpa using hr, hl⟩

/-- The positions and moves of a game given by its squares, and the position after it. -/
def lineOf (game : List (ℕ × ℕ)) : Option (List (Position × Move) × Position) := traced Position.turn Position.init game

theorem lineOf_run {l : List (Position × Move)} {game : List (ℕ × ℕ)} (h : lineOf game = some (l, pos)) :
    Run Played Position.init l pos ∧ l.map (fun x => (x.2.from, x.2.to)) = game := by
  have hr := traced_run Played (fun m => (m.from, m.to)) (fun ht => Position.turn_played ht) .nil h
  rwa [List.nil_append] at hr

/-- The position after a game given by its squares, if all its moves pass the test. -/
def lineIf (test : Position → Move → Bool) (game : List (ℕ × ℕ)) : Option Position :=
  follow (fun pos squares => (pos.turn squares).filter fun x => test pos x.1) Position.init game

theorem lineIf_run {test : Position → Move → Bool} {game : List (ℕ × ℕ)} (h : lineIf test game = some pos) :
    ∃ l, Run Played Position.init l pos ∧ l.map (fun x => (x.2.from, x.2.to)) = game ∧
      ∀ x ∈ l, test x.1 x.2 = true := by
  obtain ⟨l, hr, hl⟩ := follow_run (fun pos m next => Played pos m next ∧ test pos m = true) (fun m => (m.from, m.to))
    (fun {pos squares m next} ht => by
      obtain ⟨ht, htest⟩ := Option.filter_eq_some_iff.1 ht
      obtain ⟨hp, hsq⟩ := Position.turn_played ht
      exact ⟨⟨hp, htest⟩, hsq⟩) .nil h
  rw [List.nil_append] at hr
  exact ⟨l, hr.all.1, hl, hr.all.2⟩

end ChessGame
