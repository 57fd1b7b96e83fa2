import ChessGame.Apply
/-!
# The generator against the rules

With its own attack test for "attacked", the engine generates the legal moves
of the rules, each once, as long as the list has room.
-/
open Scan

namespace ChessGame

open MoveGen Rules

variable {p : Pieces} {b : Board} {s : PieceColor} {rights : CastlingRights} {ep : Option ℕ} {m : Move}

/-- The positions in which the generator is asked for moves. -/
structure Playable (p : Pieces) (s : PieceColor) (rights : CastlingRights) : Prop where
  valid : p.Valid
  noPawns : ∀ q c, p.board q = some (c, .pawn) → rank q ≠ 0 ∧ rank q ≠ 7
  king : ∃ k, KingOn p.board s k
  flags : ∀ k ∈ Castling.all, k.right rights = true → k.AtHome p.board

/-- The legal moves, en passant aside, for the engine's attack test. -/
def legalMoves (p : Pieces) (s : PieceColor) (rights : CastlingRights) : Set Ply :=
  {m | LegalButEnPassant Engine p.board s rights m}

/-- Every legal move is generated exactly once, and nothing else but en passant is generated. -/
def GeneratesLegal (p : Pieces) (s : PieceColor) (ep : Option ℕ) (rights : CastlingRights) : Prop :=
  (∀ m ∈ legalMoves p s rights, ((generateAllMoves p s ep rights).moves.map Move.ply).count m = 1) ∧
    ∀ m ∈ (generateAllMoves p s ep rights).moves, m.flag ≠ .enPassantCapture → m.ply ∈ legalMoves p s rights

/-! ## One move -/

theorem engine_eq (hv : p.Valid) (q : ℕ) (c : PieceColor) : Engine p.board q c ↔ isSquareAttacked p q c = true := by
  unfold Engine
  rw [hv.ofBoard_board]

theorem generated_legal_iff (hv : p.Valid) (hg : Generated p.board s m) {k : ℕ} (hk : KingOn p.board s k) :
    isLegalMove p m rights = true ↔ ¬ InCheck Engine (after p.board m.ply) s := by
  have hk' := after_king hg hk
  have h64 := lt_of_board_ne (fun q hq => after_none hv hg hq) hk'.here
  rw [generated_seen_iff hv hg hk, inCheck_iff hk' h64, inCheck_iff hk' h64,
    engine_iff h64 fun q hq => after_none hv hg hq]

theorem castle_legal_iff (hp : Playable p s rights) {k : Castling} (hk : k ∈ Castling.all) (hs : k.side = s)
    (hr : k.right rights = true) :
    isLegalMove p (castleMove k) rights = true ↔ ∀ q ∈ k.path, ¬ Engine p.board q k.side.inverse := by
  obtain ⟨q, hq⟩ := hp.king
  -- The flag says where the king is.
  have hking : k.kingFrom = q := (hq _).1 (hs ▸ (hp.flags k hk hr).1)
  rw [isLegalMove_castle hk, isCheck_eq hp.valid (hs ▸ hking ▸ hq)]
  simp [Castling.path, engine_eq hp.valid, hr]

/-! ## All moves -/

/-- What the generators write into `defenderSide`. -/
def writtenSide (m : Ply) : Option PieceColor :=
  match m.flag with
  | .enPassantCapture => none
  | .whiteLongCastling | .whiteShortCastling | .blackLongCastling | .blackShortCastling => none
  | _ => generatedSide m

theorem epMoves_side (h : m ∈ epMoves p s rights ep) : m.flag = .enPassantCapture ∧ m.defenderSide = none := by
  cases ep with
  | none => simp [epMoves] at h
  | some e =>
    have hpush : ∀ (c : Bool) (src : ℕ), m ∈ (if c = true then legalPushed p rights (epMove s e src) else []) →
        m.flag = .enPassantCapture ∧ m.defenderSide = none := by
      intro c src hm
      cases c
      · simp at hm
      · obtain ⟨rfl, -⟩ := mem_legalPushed.1 hm
        exact ⟨rfl, rfl⟩
    cases s <;> simp only [epMoves] at h <;> split at h <;>
      first | exact (List.mem_append.1 h).elim (hpush _ _) (hpush _ _) | simp at h

theorem allMoves_side (hv : p.Valid) (h : m ∈ allMoves p s ep rights) : m.defenderSide = writtenSide m.ply := by
  rcases (mem_allMoves hv).1 h with ⟨⟨hp, hd⟩, -⟩ | he | hc
  · have hfl : m.ply.flag = m.flag := rfl
    rw [hd, writtenSide, hfl]
    rcases hp.flags with hf | ⟨hf | hf | hf | hf | hf, -⟩ <;> rw [hf]
  · obtain ⟨hf, hd⟩ := epMoves_side he
    simp [writtenSide, Move.ply, hf, hd]
  · obtain ⟨k, hk, -, -, -, -, rfl⟩ := (mem_castleMoves hv).1 hc
    rcases Castling.cases hk with rfl | rfl | rfl | rfl <;> rfl

/-- Different generated moves are different on the board. -/
theorem allMoves_ply_nodup (hv : p.Valid) : ((allMoves p s ep rights).map Move.ply).Nodup := by
  refine List.Nodup.map_on (fun m hm m' hm' he => ?_) (allMoves_nodup hv)
  rw [ply_eq rfl (allMoves_side hv hm), ply_eq rfl (allMoves_side hv hm'), he]

/-- The moves of the rules are the generated ones, en passant aside. -/
theorem mem_legalMoves (hp : Playable p s rights) (ep : Option ℕ) {r : Ply} :
    r ∈ legalMoves p s rights ↔ ∃ m ∈ allMoves p s ep rights, m.flag ≠ .enPassantCapture ∧ m.ply = r := by
  obtain ⟨k, hk⟩ := hp.king
  constructor
  · rintro (⟨hplays, hcheck⟩ | ⟨k', hk', hs, hr, -, he, hpath, rfl⟩)
    · refine ⟨⟨r.from, r.to, r.attackerType, r.attackerSide, r.defenderType, generatedSide r, r.flag⟩, ?_, ?_, rfl⟩
      · have hg : Generated p.board s ⟨r.from, r.to, r.attackerType, r.attackerSide, r.defenderType, generatedSide r,
          r.flag⟩ := ⟨hplays, rfl⟩
        exact (mem_allMoves hp.valid).2 (.inl ⟨hg, (generated_legal_iff hp.valid hg hk).2 hcheck⟩)
      · intro hf
        rcases hplays.flag_cases with h | ⟨h | h, -⟩ <;> rw [show r.flag = _ from hf] at h <;>
          simp [Flag.promotions] at h
    · refine ⟨castleMove k', ?_, ?_, rfl⟩
      · have hl := (castle_legal_iff hp hk' hs hr).2 (hs ▸ hpath)
        exact (mem_allMoves hp.valid).2 (.inr (.inr ((mem_castleMoves hp.valid).2 ⟨k', hk', hs, hr, he, hl, rfl⟩)))
      · intro h
        rcases Castling.cases hk' with rfl | rfl | rfl | rfl <;> cases h
  · rintro ⟨m, hm, hf, rfl⟩
    rcases (mem_allMoves hp.valid).1 hm with ⟨hg, hl⟩ | he | hc
    · exact .inl ⟨hg.1, (generated_legal_iff hp.valid hg hk).1 hl⟩
    · exact absurd (epMoves_side he).1 hf
    · obtain ⟨k', hk', hs, hr, he, hl, rfl⟩ := (mem_castleMoves hp.valid).1 hc
      exact .inr ⟨k', hk', hs, hr, hp.flags k' hk' hr, he, hs ▸ (castle_legal_iff hp hk' hs hr).1 hl, rfl⟩

/-! ## The room in the list -/

/-- The generated moves other than en passant. -/
def ordinaryMoves (p : Pieces) (s : PieceColor) (ep : Option ℕ) (rights : CastlingRights) : List Move :=
  (allMoves p s ep rights).filter (·.flag ≠ .enPassantCapture)

theorem legalMoves_encard (hp : Playable p s rights) (ep : Option ℕ) :
    (legalMoves p s rights).encard = (ordinaryMoves p s ep rights).length := by
  have hset : legalMoves p s rights = (((ordinaryMoves p s ep rights).map Move.ply).toFinset : Set Ply) := by
    ext r
    rw [mem_legalMoves hp ep]
    simp [ordinaryMoves, and_assoc]
  have hnd : ((ordinaryMoves p s ep rights).map Move.ply).Nodup :=
    (allMoves_ply_nodup hp.valid).sublist (List.filter_sublist.map _)
  rw [hset, Set.encard_coe_eq_coe_finsetCard, List.toFinset_card_of_nodup hnd, List.length_map]

theorem epMoves_length : (epMoves p s rights ep).length ≤ 2 := by
  cases ep with
  | none => simp [epMoves]
  | some e =>
    have hpush : ∀ (c : Bool) (src : ℕ),
        (if c = true then legalPushed p rights (epMove s e src) else []).length ≤ 1 := by
      intro c src
      cases c
      · simp
      · simp only [if_true, legalPushed]
        split <;> simp
    have happ : ∀ (c c' : Bool) (i j : ℕ), ((if c = true then legalPushed p rights (epMove s e i) else []) ++
        (if c' = true then legalPushed p rights (epMove s e j) else [])).length ≤ 2 := by
      intro c c' i j
      rw [List.length_append]
      have h1 := hpush c i
      have h2 := hpush c' j
      omega
    cases s <;> simp only [epMoves] <;> split <;> first | exact happ .. | simp

theorem addEnPassant_size : (addEnPassant p s ep rights .empty).size = (epMoves p s rights ep).length := by
  have : (epMoves p s rights ep).length ≤ 2 := epMoves_length
  rw [addEnPassant_eq, MoveList.size, MoveList.pushAll_moves, MoveList.empty, List.nil_append, List.length_take,
    MAX_MOVES]
  omega

theorem allMoves_length (hv : p.Valid) :
    (allMoves p s ep rights).length = (ordinaryMoves p s ep rights).length + (epMoves p s rights ep).length := by
  have hperm : ((allMoves p s ep rights).filter (fun m => !decide (m.flag ≠ .enPassantCapture))).Perm
      (epMoves p s rights ep) := by
    refine (List.perm_ext_iff_of_nodup ((allMoves_nodup hv).filter _) epMoves_nodup).2 fun m => ?_
    rw [List.mem_filter, mem_allMoves hv]
    constructor
    · rintro ⟨⟨hg, -⟩ | he | hc, hf⟩
      · simp only [ne_eq, decide_not, Bool.not_not, decide_eq_true_eq] at hf
        exact absurd hf hg.1.not_special.2
      · exact he
      · obtain ⟨k, hk, -, -, -, -, rfl⟩ := (mem_castleMoves hv).1 hc
        rcases Castling.cases hk with rfl | rfl | rfl | rfl <;> simp [castleMove, Castling.wShort, Castling.wLong,
          Castling.bShort, Castling.bLong] at hf
    · exact fun he => ⟨.inr (.inl he), by simp [(epMoves_side he).1]⟩
  rw [← hperm.length_eq, ordinaryMoves, ← List.countP_eq_length_filter, ← List.countP_eq_length_filter]
  rw [List.length_eq_countP_add_countP fun m : Move => decide (m.flag ≠ .enPassantCapture)]
  simp

/-- The generator against the rules: where the legal moves and the en passant
captures fit into the list, each legal move is generated exactly once, and
nothing else but en passant. -/
theorem generateAllMoves_legal (hp : Playable p s rights)
    (hroom : (legalMoves p s rights).encard + (addEnPassant p s ep rights .empty).size ≤ MAX_MOVES) :
    GeneratesLegal p s ep rights := by
  have hlen : (allMoves p s ep rights).length ≤ MAX_MOVES := by
    rw [legalMoves_encard hp ep, addEnPassant_size] at hroom
    rw [allMoves_length hp.valid]
    exact_mod_cast hroom
  have hall : (generateAllMoves p s ep rights).moves = allMoves p s ep rights := by
    rw [generateAllMoves_moves, List.take_of_length_le hlen]
  unfold GeneratesLegal
  rw [hall]
  constructor
  · intro m hm
    obtain ⟨m', hm', -, rfl⟩ := (mem_legalMoves hp ep).1 hm
    exact List.count_eq_one_of_mem (allMoves_ply_nodup hp.valid) (List.mem_map_of_mem hm')
  · exact fun m hm hf => (mem_legalMoves hp ep).2 ⟨m, hm, hf, rfl⟩

/-! ### A full list -/

/-- Ten queens, a king on a2 and a pawn on h2: 218 legal moves. -/
def fullBoard : Pieces := Pieces.ofFen "2Q4Q/5Q2/3Q4/1Q4Q1/4Q3/2Q4Q/K4Q1P/3Q4"

def noRights : CastlingRights := ⟨false, false, false, false⟩

theorem fullBoard_playable : Playable fullBoard .white noRights := by
  have hv : fullBoard.Valid := by
    rw [show fullBoard = Pieces.ofBoard fullBoard.board by decide +kernel]
    exact Pieces.ofBoard_valid _
  have hking : ∀ q < 64, fullBoard.board q = some (.white, .king) ↔ q = 8 := by decide +kernel
  have hpawn : ∀ q < 64, ∀ c ∈ [PieceColor.white, .black], fullBoard.board q = some (c, .pawn) → q = 15 := by
    decide +kernel
  refine ⟨hv, fun q c hb => ?_, ⟨8, fun q => ?_⟩, fun k hk hr => ?_⟩
  · rw [hpawn q (hv.lt_of_board hb) c (by cases c <;> simp) hb]
    decide
  · by_cases hq : q < 64
    · exact hking q hq
    · rw [hv.board_ge (by omega)]
      exact ⟨fun h => (nomatch h), fun h => by omega⟩
  · rcases Castling.cases hk with rfl | rfl | rfl | rfl <;> cases hr

theorem fullBoard_moves : (ordinaryMoves fullBoard .white none noRights).length = 218 := by decide +kernel

theorem fullBoard_encard : (legalMoves fullBoard .white noRights).encard = 218 := by
  rw [legalMoves_encard fullBoard_playable none, fullBoard_moves]
  rfl

/-- Without an en passant square the list of `fullBoard` just has room. -/
theorem generateAllMoves_legal_full : GeneratesLegal fullBoard .white none noRights := by
  refine generateAllMoves_legal fullBoard_playable ?_
  rw [fullBoard_encard, addEnPassant_size]
  decide

/-- With the en passant square g3 the capture h2g3 takes the room of the king's move a2b3. -/
theorem generateAllMoves_overflow :
    Playable fullBoard .white noRights ∧ (legalMoves fullBoard .white noRights).encard ≤ MAX_MOVES ∧
      ¬ GeneratesLegal fullBoard .white (some 22) noRights := by
  refine ⟨fullBoard_playable, by rw [fullBoard_encard]; rfl, fun h => ?_⟩
  have hlegal : (ordinaryMoves fullBoard .white none noRights).any
      (fun m => m.ply = ⟨8, 17, .king, .white, none, .default⟩) = true := by decide +kernel
  have hlost : (generateAllMoves fullBoard .white (some 22) noRights).moves.all
      (fun m => m.ply ≠ ⟨8, 17, .king, .white, none, .default⟩) = true := by decide +kernel
  obtain ⟨m, hm, hply⟩ := List.any_eq_true.1 hlegal
  obtain ⟨hall, hf⟩ := List.mem_filter.1 hm
  have hone := h.1 m.ply ((mem_legalMoves fullBoard_playable none).2 ⟨m, hall, by simpa using hf, rfl⟩)
  have hmem : m.ply ∈ (generateAllMoves fullBoard .white (some 22) noRights).moves.map Move.ply :=
    List.count_pos_iff.1 (by omega)
  obtain ⟨m', hm', he⟩ := List.mem_map.1 hmem
  have := List.all_eq_true.1 hlost m' hm'
  rw [he, of_decide_eq_true hply] at this
  simp at this

end ChessGame
