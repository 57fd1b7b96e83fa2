import ChessGame.Rays
/-!
# What the generators push

`allMoves` is the list the generators push onto the move list, in order
(`generateAllMoves_moves`): the moves of each family that pass `isLegalMove`.
`mem_allMoves` reads the families off the board, so the shifts, masks and
loops are looked at here only.
-/
open Scan Walk

namespace ChessGame

open BitboardOps MoveGen Rules

variable {p : Pieces} {s : PieceColor} {rights : CastlingRights} {ep : Option ℕ}

/-! ## The generators as lists -/

/-- What `pushPawnMove` pushes. -/
def pawnPushed (p : Pieces) (rights : CastlingRights) (m : Move) : List Move :=
  if isLegalMove p m rights then
    if m.to < 8 || m.to > 55 then Flag.promotions.map (fun flag => { m with flag }) else [m]
  else []

/-- What `pushIfLegal` pushes. -/
def legalPushed (p : Pieces) (rights : CastlingRights) (m : Move) : List Move :=
  if isLegalMove p m rights then [m] else []

/-- A pawn move: `mask` holds the targets, `src` finds the pawn. -/
def singleMove (s : PieceColor) (dst : ℕ) : Move :=
  ⟨if s = .white then dst - 8 else dst + 8, dst, .pawn, s, none, none, .default⟩

def longMove (s : PieceColor) (dst : ℕ) : Move :=
  ⟨if s = .white then dst - 16 else dst + 16, dst, .pawn, s, none, none, .pawnLongMove⟩

def leftMove (p : Pieces) (s : PieceColor) (dst : ℕ) : Move :=
  ⟨if s = .white then dst - 7 else dst + 9, dst, .pawn, s, findDefender p s dst, some s.inverse, .default⟩

def rightMove (p : Pieces) (s : PieceColor) (dst : ℕ) : Move :=
  ⟨if s = .white then dst - 9 else dst + 7, dst, .pawn, s, findDefender p s dst, some s.inverse, .default⟩

def pieceMove (p : Pieces) (s : PieceColor) (t : PieceType) (src dst : ℕ) : Move :=
  ⟨src, dst, t, s, findDefender p s dst, some s.inverse, .default⟩

def pieceMoves (p : Pieces) (s : PieceColor) (rights : CastlingRights) (t : PieceType)
    (mask : Pieces → ℕ → PieceColor → Bitboard) : List Move :=
  (indices (p.bb s t)).flatMap fun src =>
    (indices (mask p src s)).flatMap fun dst => legalPushed p rights (pieceMove p s t src dst)

def epMove (s : PieceColor) (e src : ℕ) : Move := ⟨src, e, .pawn, s, none, none, .enPassantCapture⟩

def epMoves (p : Pieces) (s : PieceColor) (rights : CastlingRights) (ep : Option ℕ) : List Move :=
  match ep with
  | none => []
  | some e =>
    match s with
    | .white =>
      if e ≥ 16 && e ≤ 23 then
        (if e % 8 != 0 && getBit (p.bb s .pawn) (e - 9) then legalPushed p rights (epMove s e (e - 9)) else []) ++
        (if e % 8 != 7 && getBit (p.bb s .pawn) (e - 7) then legalPushed p rights (epMove s e (e - 7)) else [])
      else []
    | .black =>
      if e ≥ 40 && e ≤ 47 then
        (if e % 8 != 0 && getBit (p.bb s .pawn) (e + 7) then legalPushed p rights (epMove s e (e + 7)) else []) ++
        (if e % 8 != 7 && getBit (p.bb s .pawn) (e + 9) then legalPushed p rights (epMove s e (e + 9)) else [])
      else []

/-- The move of a castling, as the generator builds it. -/
def castleMove (k : Castling) : Move := ⟨k.kingFrom, k.kingTo, .king, k.side, none, none, k.flag⟩

/-- What one castling branch pushes. -/
def castlePushed (p : Pieces) (rights : CastlingRights) (k : Castling) : List Move :=
  if k.right rights && k.between.all (getBit p.empty) then legalPushed p rights (castleMove k) else []

def castleMoves (p : Pieces) (s : PieceColor) (rights : CastlingRights) : List Move :=
  (Castling.all.filter (·.side = s)).flatMap (castlePushed p rights)

/-- The families in the order in which they are pushed. -/
def families (p : Pieces) (s : PieceColor) (ep : Option ℕ) (rights : CastlingRights) : List (List Move) := [
  (indices (defaultMask p s)).flatMap fun dst => pawnPushed p rights (singleMove s dst),
  (indices (longMask p s)).flatMap fun dst => legalPushed p rights (longMove s dst),
  (indices (leftCaptures p s)).flatMap fun dst => pawnPushed p rights (leftMove p s dst),
  (indices (rightCaptures p s)).flatMap fun dst => pawnPushed p rights (rightMove p s dst),
  epMoves p s rights ep,
  pieceMoves p s rights .knight fun p src s => KnightMasks.Masks.getD src 0 &&& p.inversionSideBitboards.get s,
  pieceMoves p s rights .bishop fun p src s => generateBishopMask p src s false,
  pieceMoves p s rights .rook fun p src s => generateRookMask p src s false,
  pieceMoves p s rights .queen fun p src s => generateQueenMask p src s false,
  pieceMoves p s rights .king fun p src s => KingMasks.Masks.getD src 0 &&& p.inversionSideBitboards.get s,
  castleMoves p s rights]

def allMoves (p : Pieces) (s : PieceColor) (ep : Option ℕ) (rights : CastlingRights) : List Move :=
  (families p s ep rights).flatten

theorem pushPawnMove_eq (m : Move) (l : MoveList) : pushPawnMove p m rights l = l.pushAll (pawnPushed p rights m) := by
  simp only [pushPawnMove, pawnPushed]
  split
  · split
    · rw [MoveList.pushAll, List.foldl_map]
    · rfl
  · rfl

theorem pushIfLegal_eq (m : Move) (l : MoveList) : pushIfLegal p m rights l = l.pushAll (legalPushed p rights m) := by
  simp only [pushIfLegal, legalPushed]
  split <;> rfl

/-- A loop over the bits of a mask whose body pushes `f dst` pushes all of them. -/
theorem forEachBit_push {mask : Bitboard} {l : MoveList} {body : MoveList → ℕ → MoveList} {f : ℕ → List Move}
    (h : ∀ l dst, body l dst = l.pushAll (f dst)) :
    forEachBit mask l body = l.pushAll ((indices mask).flatMap f) := by
  rw [forEachBit_eq, ← MoveList.foldl_pushAll]
  congr 1
  funext l dst
  exact h l dst

theorem addPieceMoves_eq (t : PieceType) (mask : Pieces → ℕ → PieceColor → Bitboard) (l : MoveList) :
    addPieceMoves t mask p s rights l = l.pushAll (pieceMoves p s rights t mask) := by
  refine forEachBit_push fun l src => ?_
  exact forEachBit_push fun l dst => pushIfLegal_eq _ l

theorem push_ite (b : Bool) (m : Move) (l : MoveList) :
    (if b = true then pushIfLegal p m rights l else l) =
      l.pushAll (if b = true then legalPushed p rights m else []) := by
  cases b
  · rfl
  · exact pushIfLegal_eq m l

theorem addEnPassant_eq (l : MoveList) : addEnPassant p s ep rights l = l.pushAll (epMoves p s rights ep) := by
  cases ep with
  | none => rfl
  | some e =>
    cases s <;> simp only [addEnPassant, epMoves, epMove] <;> split
    · rw [← MoveList.pushAll_append, ← push_ite, ← push_ite]
    · rfl
    · rw [← MoveList.pushAll_append, ← push_ite, ← push_ite]
    · rfl

theorem addCastling_eq (p : Pieces) (rights : CastlingRights) (k : Castling) (lo hi : ℕ)
    (hk : k.between = List.range' lo (hi + 1 - lo)) (l : MoveList) :
    addCastling p (k.right rights) lo hi (castleMove k) rights l = l.pushAll (castlePushed p rights k) := by
  simp only [addCastling, castlePushed, emptyBetween, ← hk, pushIfLegal_eq]
  cases k.right rights <;> cases k.between.all (getBit p.empty) <;> rfl

theorem addCastlingMoves_eq (l : MoveList) : addCastlingMoves p s rights l = l.pushAll (castleMoves p s rights) := by
  cases s
  · have h1 := addCastling_eq p rights .wShort 5 6 rfl l
    have h2 := addCastling_eq p rights .wLong 1 3 rfl (l.pushAll (castlePushed p rights .wShort))
    rw [MoveList.pushAll_append, ← h1] at h2
    rw [show castleMoves p .white rights = castlePushed p rights .wShort ++ castlePushed p rights .wLong by
      simp [castleMoves, Castling.all, Castling.wShort, Castling.wLong, Castling.bShort, Castling.bLong]]
    exact h2
  · have h1 := addCastling_eq p rights .bShort 61 62 rfl l
    have h2 := addCastling_eq p rights .bLong 57 59 rfl (l.pushAll (castlePushed p rights .bShort))
    rw [MoveList.pushAll_append, ← h1] at h2
    rw [show castleMoves p .black rights = castlePushed p rights .bShort ++ castlePushed p rights .bLong by
      simp [castleMoves, Castling.all, Castling.wShort, Castling.wLong, Castling.bShort, Castling.bLong]]
    exact h2

theorem addPawnMoves_eq (l : MoveList) : addPawnMoves p s ep rights l =
    (((((l.pushAll ((indices (defaultMask p s)).flatMap fun dst => pawnPushed p rights (singleMove s dst))).pushAll
      ((indices (longMask p s)).flatMap fun dst => legalPushed p rights (longMove s dst))).pushAll
      ((indices (leftCaptures p s)).flatMap fun dst => pawnPushed p rights (leftMove p s dst))).pushAll
      ((indices (rightCaptures p s)).flatMap fun dst => pawnPushed p rights (rightMove p s dst))).pushAll
      (epMoves p s rights ep)) := by
  simp only [addPawnMoves]
  rw [addEnPassant_eq]
  congr 1
  rw [forEachBit_push (f := fun dst => pawnPushed p rights (rightMove p s dst)) (fun l dst => ?_)]
  · congr 1
    rw [forEachBit_push (f := fun dst => pawnPushed p rights (leftMove p s dst)) (fun l dst => ?_)]
    · congr 1
      rw [forEachBit_push (f := fun dst => legalPushed p rights (longMove s dst)) (fun l dst => ?_)]
      · congr 1
        exact forEachBit_push fun l dst => pushPawnMove_eq _ l
      · exact pushIfLegal_eq _ l
    · exact pushPawnMove_eq _ l
  · exact pushPawnMove_eq _ l

/-- The generator returns the first `MAX_MOVES` of `allMoves`. -/
theorem generateAllMoves_moves :
    (generateAllMoves p s ep rights).moves = (allMoves p s ep rights).take MAX_MOVES := by
  have h : generateAllMoves p s ep rights = MoveList.empty.pushAll (allMoves p s ep rights) := by
    simp only [generateAllMoves, addCastlingMoves_eq, addKingMoves, addQueenMoves, addRookMoves, addBishopMoves,
      addKnightMoves, addPieceMoves_eq, addPawnMoves_eq, MoveList.pushAll_append, allMoves, families,
      List.flatten_cons, List.flatten_nil, List.append_nil, List.append_assoc]
  rw [h, MoveList.pushAll_moves, MoveList.empty, List.nil_append]

/-! ## The families, read off the board -/

theorem findDefender_eq (hv : p.Valid) {q : ℕ} (hown : ∀ t, p.board q ≠ some (s, t)) :
    findDefender p s q = (p.board q).map Prod.snd := by
  cases hb : p.board q with
  | none => exact Pieces.find_type_none fun t => by simpa using (hv.board_eq_none.1 hb) s.inverse t
  | some ct =>
    obtain ⟨c, t⟩ := ct
    have hc : c = s.inverse := by
      rcases eq_or_ne c s with rfl | h
      · exact absurd hb (hown t)
      · exact PieceColor.eq_inverse_of_ne h
    subst hc
    exact hv.find_eq (hv.board_eq_some.1 hb)

/-- The legality test looks at the flag only to recognise castling and en passant. -/
theorem isLegalMove_flag (m : Move) {f : Flag} (hf : f = .default ∨ f ∈ Flag.promotions) :
    isLegalMove p { m with flag := f } rights = isLegalAfterMove p m false := by
  rcases hf with rfl | hf
  · rfl
  · simp only [Flag.promotions, List.mem_cons, List.not_mem_nil, or_false] at hf
    rcases hf with rfl | rfl | rfl | rfl <;> rfl

theorem pawnFlag_cases {q : ℕ} {f : Flag} (h : PawnFlag s q f) : f = .default ∨ f ∈ Flag.promotions :=
  h.elim (fun h => .inr h.2) (fun h => .inl h.2)

/-- A pawn that moves a rank forward is on the last rank exactly when its
target is on one of the two outer ranks. -/
theorem outer_iff {src dst : ℕ} (hs : src < 64) (hd : dst < 64) (hr : rank dst = rank src + forward s) :
    (dst < 8 || dst > 55) = true ↔ rank dst = lastRank s := by
  simp only [Bool.or_eq_true, decide_eq_true_eq]
  cases s <;> simp only [rank, forward, lastRank] at * <;> omega

theorem mem_pawnPushed (m₀ : Move) {m : Move} (hf : m₀.flag = .default) {src : ℕ} (hs : src < 64) (hd : m₀.to < 64)
    (hr : rank m₀.to = rank src + forward s) :
    m ∈ pawnPushed p rights m₀ ↔
      ∃ f, PawnFlag s m₀.to f ∧ m = { m₀ with flag := f } ∧ isLegalMove p m rights = true := by
  have hm₀ : m₀ = { m₀ with flag := .default } := by rw [← hf]
  have hl : isLegalMove p m₀ rights = isLegalAfterMove p m₀ false := by
    conv_lhs => rw [hm₀]
    exact isLegalMove_flag m₀ (.inl rfl)
  unfold pawnPushed
  rw [hl]
  by_cases hlast : rank m₀.to = lastRank s
  · rw [if_pos ((outer_iff hs hd hr).2 hlast)]
    constructor
    · intro h
      split at h
      · rename_i hleg
        obtain ⟨f, hfp, rfl⟩ := List.mem_map.1 h
        exact ⟨f, .inl ⟨hlast, hfp⟩, rfl, by rw [isLegalMove_flag m₀ (.inr hfp)]; exact hleg⟩
      · simp at h
    · rintro ⟨f, hfl, rfl, hleg⟩
      rw [isLegalMove_flag m₀ (pawnFlag_cases hfl)] at hleg
      rw [if_pos hleg]
      rcases hfl with ⟨-, hfp⟩ | ⟨hn, -⟩
      · exact List.mem_map.2 ⟨f, hfp, rfl⟩
      · exact absurd hlast hn
  · rw [if_neg (fun h => hlast ((outer_iff hs hd hr).1 h))]
    constructor
    · intro h
      split at h
      · rename_i hleg
        rw [List.mem_singleton] at h
        subst h
        exact ⟨.default, .inr ⟨hlast, rfl⟩, hm₀, by rw [hl]; exact hleg⟩
      · simp at h
    · rintro ⟨f, hfl, rfl, hleg⟩
      rw [isLegalMove_flag m₀ (pawnFlag_cases hfl)] at hleg
      rw [if_pos hleg, List.mem_singleton]
      rcases hfl with ⟨h, -⟩ | ⟨-, rfl⟩
      · exact absurd h hlast
      · exact hm₀.symm

theorem mem_legalPushed {m m₀ : Move} : m ∈ legalPushed p rights m₀ ↔ m = m₀ ∧ isLegalMove p m rights = true := by
  unfold legalPushed
  split
  · rename_i h
    rw [List.mem_singleton]
    exact ⟨fun hm => ⟨hm, hm ▸ h⟩, fun hm => hm.1⟩
  · rename_i h
    simp only [List.not_mem_nil, false_iff, not_and]
    rintro rfl; exact h

/-- `dst` is one step ahead of `src`. -/
def Ahead (s : PieceColor) (src dst : ℕ) : Prop := file dst = file src ∧ rank dst = rank src + forward s

theorem defaultMask_bit (hv : p.Valid) {dst : ℕ} :
    (defaultMask p s).getLsbD dst = true ↔
      dst < 64 ∧ p.board dst = none ∧ p.board (singleMove s dst).from = some (s, .pawn) ∧
        Ahead s (singleMove s dst).from dst := by
  by_cases hd : dst < 64
  · cases s <;>
      simp only [defaultMask, singleMove, BitVec.getLsbD_and, BitVec.getLsbD_shiftLeft, BitVec.getLsbD_ushiftRight,
        Bool.and_eq_true, decide_eq_true_eq, Bool.not_eq_true', decide_eq_false_iff_not, hv.empty_bit hd,
        ← hv.board_eq_some, Ahead, forward, if_true, reduceCtorEq, if_false, file, rank]
    · constructor
      · rintro ⟨⟨⟨_, h8⟩, hb⟩, he⟩; exact ⟨hd, he, hb, by omega, by omega⟩
      · rintro ⟨_, he, hb, hf, hr⟩; exact ⟨⟨⟨hd, by omega⟩, hb⟩, he⟩
    · rw [Nat.add_comm 8 dst]
      constructor
      · rintro ⟨hb, he⟩; exact ⟨hd, he, hb, by omega, by omega⟩
      · rintro ⟨_, he, hb, -, -⟩; exact ⟨hb, he⟩
  · constructor
    · intro h; exact absurd (BitVec.lt_of_getLsbD h) hd
    · exact fun h => absurd h.1 hd

theorem longMask_bit (hv : p.Valid) {dst : ℕ} :
    (longMask p s).getLsbD dst = true ↔
      dst < 64 ∧ p.board dst = none ∧ p.board (longMove s dst).from = some (s, .pawn) ∧
        rank (longMove s dst).from = startRank s ∧
        p.board (singleMove s dst).from = none ∧ (singleMove s dst).from < 64 ∧
        Ahead s (singleMove s dst).from dst ∧ Ahead s (longMove s dst).from (singleMove s dst).from := by
  by_cases hd : dst < 64
  · cases s <;>
      simp only [longMask, longMove, BitVec.getLsbD_and, BitVec.getLsbD_shiftLeft, BitVec.getLsbD_ushiftRight,
        Bool.and_eq_true, decide_eq_true_eq, Bool.not_eq_true', decide_eq_false_iff_not, hv.empty_bit hd,
        defaultMask_bit hv, getLsbD_Rows, startRank]
    · simp only [singleMove, Ahead, forward, if_true, file, rank]
      constructor
      · rintro ⟨⟨⟨_, h8⟩, ⟨h64, he', hb, hf, hr⟩, hrow, _⟩, he⟩
        exact ⟨hd, he, by rwa [show dst - 16 = dst - 8 - 8 by omega], by omega, he', h64, by omega, by omega⟩
      · rintro ⟨_, he, hb, hr, he', h64, hf1, hf2⟩
        refine ⟨⟨⟨hd, by omega⟩, ⟨h64, he', by rwa [show dst - 8 - 8 = dst - 16 by omega], by omega, by omega⟩,
          by omega, h64⟩, he⟩
    · simp only [singleMove, Ahead, forward, reduceCtorEq, if_false, file, rank]
      rw [Nat.add_comm 8 dst]
      constructor
      · rintro ⟨⟨⟨h64, he', hb, hf, hr⟩, hrow, _⟩, he⟩
        exact ⟨hd, he, hb, by omega, he', h64, by omega, by omega⟩
      · rintro ⟨_, he, hb, hr, he', h64, hf1, hf2⟩
        exact ⟨⟨⟨h64, he', hb, by omega, by omega⟩, by omega, h64⟩, he⟩
  · constructor
    · intro h; exact absurd (BitVec.lt_of_getLsbD h) hd
    · exact fun h => absurd h.1 hd

theorem leftCaptures_bit (hv : p.Valid) {dst : ℕ} :
    (leftCaptures p s).getLsbD dst = true ↔
      dst < 64 ∧ (∃ t, p.board dst = some (s.inverse, t)) ∧ p.board (leftMove p s dst).from = some (s, .pawn) ∧
        file dst = file (leftMove p s dst).from - 1 ∧ rank dst = rank (leftMove p s dst).from + forward s := by
  by_cases hd : dst < 64
  · cases s <;>
      simp only [leftCaptures, leftMove, BitVec.getLsbD_and, BitVec.getLsbD_shiftLeft, BitVec.getLsbD_ushiftRight,
        Bool.and_eq_true, decide_eq_true_eq, Bool.not_eq_true', decide_eq_false_iff_not, PieceColor.inverse,
        getLsbD_InversionColumns (show 7 < 8 by omega), hv.side_bit, ← hv.board_eq_some, forward, if_true,
        reduceCtorEq, if_false, file, rank]
    · constructor
      · rintro ⟨⟨⟨⟨_, h7⟩, hb⟩, hc, _⟩, he⟩; exact ⟨hd, he, hb, by omega, by omega⟩
      · rintro ⟨_, he, hb, hf, hr⟩; exact ⟨⟨⟨⟨hd, by omega⟩, hb⟩, by omega, hd⟩, he⟩
    · rw [Nat.add_comm 9 dst]
      constructor
      · rintro ⟨⟨hb, hc, _⟩, he⟩; exact ⟨hd, he, hb, by omega, by omega⟩
      · rintro ⟨_, he, hb, hf, hr⟩; exact ⟨⟨hb, by omega, hd⟩, he⟩
  · constructor
    · intro h; exact absurd (BitVec.lt_of_getLsbD h) hd
    · exact fun h => absurd h.1 hd

theorem rightCaptures_bit (hv : p.Valid) {dst : ℕ} :
    (rightCaptures p s).getLsbD dst = true ↔
      dst < 64 ∧ (∃ t, p.board dst = some (s.inverse, t)) ∧ p.board (rightMove p s dst).from = some (s, .pawn) ∧
        file dst = file (rightMove p s dst).from + 1 ∧ rank dst = rank (rightMove p s dst).from + forward s := by
  by_cases hd : dst < 64
  · cases s <;>
      simp only [rightCaptures, rightMove, BitVec.getLsbD_and, BitVec.getLsbD_shiftLeft, BitVec.getLsbD_ushiftRight,
        Bool.and_eq_true, decide_eq_true_eq, Bool.not_eq_true', decide_eq_false_iff_not, PieceColor.inverse,
        getLsbD_InversionColumns (show 0 < 8 by omega), hv.side_bit, ← hv.board_eq_some, forward, if_true,
        reduceCtorEq, if_false, file, rank]
    · constructor
      · rintro ⟨⟨⟨⟨_, h9⟩, hb⟩, hc, _⟩, he⟩; exact ⟨hd, he, hb, by omega, by omega⟩
      · rintro ⟨_, he, hb, hf, hr⟩; exact ⟨⟨⟨⟨hd, by omega⟩, hb⟩, by omega, hd⟩, he⟩
    · rw [Nat.add_comm 7 dst]
      constructor
      · rintro ⟨⟨hb, hc, _⟩, he⟩; exact ⟨hd, he, hb, by omega, by omega⟩
      · rintro ⟨_, he, hb, hf, hr⟩; exact ⟨⟨hb, by omega, hd⟩, he⟩
  · constructor
    · intro h; exact absurd (BitVec.lt_of_getLsbD h) hd
    · exact fun h => absurd h.1 hd

/-- The side the generators write down for the captured piece: pawn pushes and
castling leave it at 255, the others fill it in whether or not they capture. -/
def generatedSide (m : Ply) : Option PieceColor :=
  if m.attackerType = .pawn ∧ m.defenderType = none then none else some m.attackerSide.inverse

/-- A move of the pieces as the generators write it down. -/
def Generated (b : Board) (s : PieceColor) (m : Move) : Prop :=
  Plays b s m.ply ∧ m.defenderSide = generatedSide m.ply

theorem mem_singles (hv : p.Valid) {m : Move} :
    m ∈ (indices (defaultMask p s)).flatMap (fun dst => pawnPushed p rights (singleMove s dst)) ↔
      ∃ src dst f, p.board src = some (s, .pawn) ∧ dst < 64 ∧ Ahead s src dst ∧ p.board dst = none ∧
        PawnFlag s dst f ∧ m = ⟨src, dst, .pawn, s, none, none, f⟩ ∧ isLegalMove p m rights = true := by
  simp only [List.mem_flatMap, mem_indices, defaultMask_bit hv]
  constructor
  · rintro ⟨dst, ⟨hd, he, hb, ha⟩, hm⟩
    obtain ⟨f, hf, rfl, hl⟩ := (mem_pawnPushed (singleMove s dst) rfl (hv.lt_of_board hb) hd ha.2).1 hm
    exact ⟨_, dst, f, hb, hd, ha, he, hf, rfl, hl⟩
  · rintro ⟨src, dst, f, hb, hd, ha, he, hf, rfl, hl⟩
    have hsrc : (singleMove s dst).from = src := by
      have := hv.lt_of_board hb
      cases s <;> simp only [singleMove, Ahead, forward, file, rank, if_true, reduceCtorEq, if_false] at * <;> omega
    refine ⟨dst, ⟨hd, he, hsrc ▸ hb, hsrc ▸ ha⟩, ?_⟩
    refine (mem_pawnPushed (singleMove s dst) rfl (hv.lt_of_board hb) hd ha.2).2 ⟨f, hf, ?_, hl⟩
    rw [← hsrc]; rfl

theorem mem_longs (hv : p.Valid) {m : Move} :
    m ∈ (indices (longMask p s)).flatMap (fun dst => legalPushed p rights (longMove s dst)) ↔
      ∃ src mid dst, p.board src = some (s, .pawn) ∧ rank src = startRank s ∧ mid < 64 ∧ dst < 64 ∧
        Ahead s src mid ∧ p.board mid = none ∧ Ahead s mid dst ∧ p.board dst = none ∧
        m = ⟨src, dst, .pawn, s, none, none, .pawnLongMove⟩ ∧ isLegalMove p m rights = true := by
  simp only [List.mem_flatMap, mem_indices, longMask_bit hv, mem_legalPushed]
  constructor
  · rintro ⟨dst, ⟨hd, he, hb, hr, he', hm64, ha2, ha1⟩, hm, hl⟩
    exact ⟨_, _, dst, hb, hr, hm64, hd, ha1, he', ha2, he, hm, hl⟩
  · rintro ⟨src, mid, dst, hb, hr, hm64, hd, ha1, he', ha2, he, rfl, hl⟩
    have hs64 := hv.lt_of_board hb
    have hsrc : (longMove s dst).from = src := by
      cases s <;> simp only [longMove, Ahead, forward, file, rank, if_true, reduceCtorEq, if_false] at * <;> omega
    have hmid : (singleMove s dst).from = mid := by
      cases s <;> simp only [singleMove, Ahead, forward, file, rank, if_true, reduceCtorEq, if_false] at * <;> omega
    refine ⟨dst, ⟨hd, he, hsrc ▸ hb, hsrc ▸ hr, hmid ▸ he', hmid ▸ hm64, hmid ▸ ha2, hsrc ▸ hmid ▸ ha1⟩, ?_, hl⟩
    rw [← hsrc]; rfl

theorem mem_lefts (hv : p.Valid) {m : Move} :
    m ∈ (indices (leftCaptures p s)).flatMap (fun dst => pawnPushed p rights (leftMove p s dst)) ↔
      ∃ src dst t f, p.board src = some (s, .pawn) ∧ dst < 64 ∧ file dst = file src - 1 ∧
        rank dst = rank src + forward s ∧ p.board dst = some (s.inverse, t) ∧ PawnFlag s dst f ∧
        m = ⟨src, dst, .pawn, s, some t, some s.inverse, f⟩ ∧ isLegalMove p m rights = true := by
  simp only [List.mem_flatMap, mem_indices, leftCaptures_bit hv]
  constructor
  · rintro ⟨dst, ⟨hd, ⟨t, ht⟩, hb, hfile, hr⟩, hm⟩
    have hdef : findDefender p s dst = some t := hv.find_eq (hv.board_eq_some.1 ht)
    obtain ⟨f, hf, rfl, hl⟩ := (mem_pawnPushed (leftMove p s dst) rfl (hv.lt_of_board hb) hd hr).1 hm
    exact ⟨_, dst, t, f, hb, hd, hfile, hr, ht, hf, by simp [leftMove, hdef], hl⟩
  · rintro ⟨src, dst, t, f, hb, hd, hfile, hr, ht, hf, rfl, hl⟩
    have hs64 := hv.lt_of_board hb
    have hdef : findDefender p s dst = some t := hv.find_eq (hv.board_eq_some.1 ht)
    have hsrc : (leftMove p s dst).from = src := by
      cases s <;> simp only [leftMove, forward, file, rank, if_true, reduceCtorEq, if_false] at * <;> omega
    refine ⟨dst, ⟨hd, ⟨t, ht⟩, hsrc ▸ hb, hsrc ▸ hfile, hsrc ▸ hr⟩, ?_⟩
    refine (mem_pawnPushed (leftMove p s dst) rfl hs64 hd hr).2 ⟨f, hf, ?_, hl⟩
    rw [← hsrc]; simp [leftMove, hdef]

theorem mem_rights (hv : p.Valid) {m : Move} :
    m ∈ (indices (rightCaptures p s)).flatMap (fun dst => pawnPushed p rights (rightMove p s dst)) ↔
      ∃ src dst t f, p.board src = some (s, .pawn) ∧ dst < 64 ∧ file dst = file src + 1 ∧
        rank dst = rank src + forward s ∧ p.board dst = some (s.inverse, t) ∧ PawnFlag s dst f ∧
        m = ⟨src, dst, .pawn, s, some t, some s.inverse, f⟩ ∧ isLegalMove p m rights = true := by
  simp only [List.mem_flatMap, mem_indices, rightCaptures_bit hv]
  constructor
  · rintro ⟨dst, ⟨hd, ⟨t, ht⟩, hb, hfile, hr⟩, hm⟩
    have hdef : findDefender p s dst = some t := hv.find_eq (hv.board_eq_some.1 ht)
    obtain ⟨f, hf, rfl, hl⟩ := (mem_pawnPushed (rightMove p s dst) rfl (hv.lt_of_board hb) hd hr).1 hm
    exact ⟨_, dst, t, f, hb, hd, hfile, hr, ht, hf, by simp [rightMove, hdef], hl⟩
  · rintro ⟨src, dst, t, f, hb, hd, hfile, hr, ht, hf, rfl, hl⟩
    have hs64 := hv.lt_of_board hb
    have hdef : findDefender p s dst = some t := hv.find_eq (hv.board_eq_some.1 ht)
    have hsrc : (rightMove p s dst).from = src := by
      cases s <;> simp only [rightMove, forward, file, rank, if_true, reduceCtorEq, if_false] at * <;> omega
    refine ⟨dst, ⟨hd, ⟨t, ht⟩, hsrc ▸ hb, hsrc ▸ hfile, hsrc ▸ hr⟩, ?_⟩
    refine (mem_pawnPushed (rightMove p s dst) rfl hs64 hd hr).2 ⟨f, hf, ?_, hl⟩
    rw [← hsrc]; simp [rightMove, hdef]

/-! ### Pieces -/

/-- The mask of a piece holds the squares it attacks that its own side does not occupy. -/
def MaskSpec (p : Pieces) (s : PieceColor) (t : PieceType) (mask : Pieces → ℕ → PieceColor → Bitboard) : Prop :=
  ∀ src < 64, ∀ dst, (mask p src s).getLsbD dst = true ↔
    dst < 64 ∧ Attacks p.board s t src dst ∧ ∀ t', p.board dst ≠ some (s, t')

theorem knight_mask (hv : p.Valid) : MaskSpec p s .knight
    (fun p src s => KnightMasks.Masks.getD src 0 &&& p.inversionSideBitboards.get s) := by
  intro src hs dst
  rw [BitVec.getLsbD_and, Bool.and_eq_true, knightMask_bit hs]
  constructor
  · rintro ⟨⟨hd, ha⟩, hi⟩; exact ⟨hd, ha, (hv.inversion_bit hd).1 hi⟩
  · rintro ⟨hd, ha, hi⟩; exact ⟨⟨hd, ha⟩, (hv.inversion_bit hd).2 hi⟩

theorem king_mask (hv : p.Valid) : MaskSpec p s .king
    (fun p src s => KingMasks.Masks.getD src 0 &&& p.inversionSideBitboards.get s) := by
  intro src hs dst
  rw [BitVec.getLsbD_and, Bool.and_eq_true, kingMask_bit hs]
  constructor
  · rintro ⟨⟨hd, ha⟩, hi⟩; exact ⟨hd, ha, (hv.inversion_bit hd).1 hi⟩
  · rintro ⟨hd, ha, hi⟩; exact ⟨⟨hd, ha⟩, (hv.inversion_bit hd).2 hi⟩

theorem calcRay_open (hv : p.Valid) {src : ℕ} (hs : src < 64) (dst : ℕ) (d : SlidersMasks.Direction) :
    (MoveGen.calcRay p src s false d (!upward d)).getLsbD dst = true ↔
      dst < 64 ∧ OpenLine p.board d.step src dst ∧ ∀ t, p.board dst ≠ some (s, t) := by
  rw [calcRay_bit hv hs]
  constructor
  · rintro ⟨hsee, hown⟩
    have hd : dst < 64 := by
      cases hsee with
      | step h => exact (next_some h).2.2
      | walk h _ h' =>
        have hl := cells_line (d := d) (next_some h).2.2
        obtain ⟨l₁, l₂, hl', -⟩ := (sees_iff hl).1 h'
        exact cells_lt (d := d) (next_some h).2.2 (by rw [hl']; simp)
    exact ⟨hd, (openLine_iff hs hd).2 hsee, hown⟩
  · rintro ⟨hd, ho, hown⟩
    exact ⟨(openLine_iff hs hd).1 ho, hown⟩

theorem four_rays {D O a b c e : Prop} :
    ((D ∧ a ∧ O ∨ D ∧ b ∧ O) ∨ D ∧ c ∧ O) ∨ D ∧ e ∧ O ↔ D ∧ (a ∨ b ∨ c ∨ e) ∧ O := by tauto

theorem bishop_mask (hv : p.Valid) : MaskSpec p s .bishop (fun p src s => generateBishopMask p src s false) := by
  intro src hs dst
  have h := fun d => calcRay_open (s := s) hv hs dst d
  have hnw := h .northWest
  have hne := h .northEast
  have hsw := h .southWest
  have hse := h .southEast
  simp only [upward, Bool.not_true, Bool.not_false] at hnw hne hsw hse
  simp only [generateBishopMask, BitVec.getLsbD_or, Bool.or_eq_true, hnw, hne, hsw, hse, four_rays]
  simp only [Attacks, diagonals, List.exists_mem_cons_iff, SlidersMasks.Direction.step, List.not_mem_nil, false_and,
    exists_false, or_false]

theorem rook_mask (hv : p.Valid) : MaskSpec p s .rook (fun p src s => generateRookMask p src s false) := by
  intro src hs dst
  have h := fun d => calcRay_open (s := s) hv hs dst d
  have hn := h .north
  have hso := h .south
  have hw := h .west
  have he := h .east
  simp only [upward, Bool.not_true, Bool.not_false] at hn hso hw he
  simp only [generateRookMask, BitVec.getLsbD_or, Bool.or_eq_true, hn, hso, hw, he, four_rays]
  simp only [Attacks, orthogonals, List.exists_mem_cons_iff, SlidersMasks.Direction.step, List.not_mem_nil, false_and,
    exists_false, or_false]

theorem queen_mask (hv : p.Valid) : MaskSpec p s .queen (fun p src s => generateQueenMask p src s false) := by
  intro src hs dst
  have hb := bishop_mask (s := s) hv src hs dst
  have hr := rook_mask (s := s) hv src hs dst
  simp only [Attacks] at hb hr
  simp only [generateQueenMask, BitVec.getLsbD_or, Bool.or_eq_true, hb, hr, Attacks, List.mem_append, or_and_right,
    exists_or]
  exact and_or_left.symm

theorem mem_pieceMoves (hv : p.Valid) {t : PieceType} {mask : Pieces → ℕ → PieceColor → Bitboard}
    (hm : MaskSpec p s t mask) {m : Move} :
    m ∈ pieceMoves p s rights t mask ↔
      ∃ src dst, p.board src = some (s, t) ∧ dst < 64 ∧ Attacks p.board s t src dst ∧
        (∀ t', p.board dst ≠ some (s, t')) ∧
        m = ⟨src, dst, t, s, (p.board dst).map Prod.snd, some s.inverse, .default⟩ ∧
        isLegalMove p m rights = true := by
  simp only [pieceMoves, List.mem_flatMap, mem_indices, mem_legalPushed]
  constructor
  · rintro ⟨src, hsrc, dst, hdst, hmv, hl⟩
    obtain ⟨hd, ha, hown⟩ := (hm src (BitVec.lt_of_getLsbD hsrc) dst).1 hdst
    exact ⟨src, dst, hv.board_eq_some.2 hsrc, hd, ha, hown, by rw [hmv, pieceMove, findDefender_eq hv hown], hl⟩
  · rintro ⟨src, dst, hb, hd, ha, hown, hmv, hl⟩
    refine ⟨src, hv.board_eq_some.1 hb, dst, (hm src (hv.lt_of_board hb) dst).2 ⟨hd, ha, hown⟩, ?_, hl⟩
    rw [hmv, pieceMove, findDefender_eq hv hown]

/-! ### Castling and en passant -/

theorem mem_castleMoves (hv : p.Valid) {m : Move} :
    m ∈ castleMoves p s rights ↔
      ∃ k ∈ Castling.all, k.side = s ∧ k.right rights = true ∧ (∀ q ∈ k.between, p.board q = none) ∧
        isLegalMove p (castleMove k) rights = true ∧ m = castleMove k := by
  simp only [castleMoves, List.mem_flatMap, List.mem_filter, decide_eq_true_eq, castlePushed]
  have hempty : ∀ k ∈ Castling.all, k.between.all (getBit p.empty) = true ↔ ∀ q ∈ k.between, p.board q = none := by
    intro k hk
    have h64 : ∀ q ∈ k.between, q < 64 := by
      have : ∀ k ∈ Castling.all, ∀ q ∈ k.between, q < 64 := by decide
      exact this k hk
    rw [List.all_eq_true]
    exact forall₂_congr fun q hq => by rw [getBit_eq, hv.empty_bit (h64 q hq)]
  constructor
  · rintro ⟨k, ⟨hk, hs⟩, hm⟩
    split at hm
    · rename_i hc
      rw [Bool.and_eq_true, hempty k hk] at hc
      obtain ⟨rfl, hl⟩ := mem_legalPushed.1 hm
      exact ⟨k, hk, hs, hc.1, hc.2, hl, rfl⟩
    · simp at hm
  · rintro ⟨k, hk, hs, hr, he, hl, rfl⟩
    refine ⟨k, ⟨hk, hs⟩, ?_⟩
    rw [if_pos (by rw [Bool.and_eq_true, hempty k hk]; exact ⟨hr, he⟩)]
    exact mem_legalPushed.2 ⟨rfl, hl⟩

/-- `isLegalMove` on a castling: no check, the flag, and the two squares the king passes. -/
theorem isLegalMove_castle {k : Castling} (hk : k ∈ Castling.all) :
    isLegalMove p (castleMove k) rights = true ↔
      isCheck p k.side = false ∧ k.right rights = true ∧
        ∀ q ∈ [k.rookTo, k.kingTo], isSquareAttacked p q k.side.inverse = false := by
  rcases Castling.cases hk with rfl | rfl | rfl | rfl <;>
    simp [castleMove, isLegalMove, Castling.wShort, Castling.wLong, Castling.bShort, Castling.bLong, noneAttacked,
      PieceColor.inverse, List.range', and_assoc] <;>
    tauto

/-- The squares that a double push of `s` passes over. -/
def PassedBy (s : PieceColor) (e : ℕ) : Prop :=
  match s with
  | .white => 16 ≤ e ∧ e ≤ 23
  | .black => 40 ≤ e ∧ e ≤ 47

/-- Both en passant branches have this form. -/
theorem mem_epBranch {r a b : Bool} {m m₁ m₂ : Move} :
    m ∈ (if r = true then
        (if a = true then legalPushed p rights m₁ else []) ++ (if b = true then legalPushed p rights m₂ else [])
      else []) ↔
      r = true ∧ isLegalMove p m rights = true ∧ ((a = true ∧ m = m₁) ∨ (b = true ∧ m = m₂)) := by
  cases r <;> cases a <;> cases b <;> simp only [if_true, Bool.false_eq_true, if_false, List.mem_append,
    List.not_mem_nil, mem_legalPushed, false_and, true_and, false_or, or_false, and_false]
  all_goals tauto

/-- The generator looks for the en passant square behind the mover's own pawns. -/
theorem mem_epMoves {m : Move} :
    m ∈ epMoves p s rights ep ↔
      ∃ e src, ep = some e ∧ PassedBy s e ∧ (p.bb s .pawn).getLsbD src = true ∧ PawnAttacks s src e ∧
        m = epMove s e src ∧ isLegalMove p m rights = true := by
  cases ep with
  | none => simp [epMoves]
  | some e =>
    cases s
    all_goals
      unfold epMoves
      rw [mem_epBranch]
      simp only [getBit_eq, Bool.and_eq_true, decide_eq_true_eq, bne_iff_ne, PassedBy, PawnAttacks, files, file, rank,
        forward, Option.some.injEq]
      constructor
    · rintro ⟨hr, hl, ⟨⟨h0, hb⟩, hm⟩ | ⟨⟨h7, hb⟩, hm⟩⟩
      · exact ⟨e, e - 9, rfl, hr, hb, by omega, hm, hl⟩
      · exact ⟨e, e - 7, rfl, hr, hb, by omega, hm, hl⟩
    · rintro ⟨_, src, rfl, hr, hb, ha, hm, hl⟩
      refine ⟨hr, hl, ?_⟩
      rcases (show src = e - 9 ∧ e % 8 ≠ 0 ∨ src = e - 7 ∧ e % 8 ≠ 7 by omega) with ⟨rfl, h⟩ | ⟨rfl, h⟩
      · exact .inl ⟨⟨h, hb⟩, hm⟩
      · exact .inr ⟨⟨h, hb⟩, hm⟩
    · rintro ⟨hr, hl, ⟨⟨h0, hb⟩, hm⟩ | ⟨⟨h7, hb⟩, hm⟩⟩
      · exact ⟨e, e + 7, rfl, hr, hb, by omega, hm, hl⟩
      · exact ⟨e, e + 9, rfl, hr, hb, by omega, hm, hl⟩
    · rintro ⟨_, src, rfl, hr, hb, ha, hm, hl⟩
      refine ⟨hr, hl, ?_⟩
      rcases (show src = e + 7 ∧ e % 8 ≠ 0 ∨ src = e + 9 ∧ e % 8 ≠ 7 by omega) with ⟨rfl, h⟩ | ⟨rfl, h⟩
      · exact .inl ⟨⟨h, hb⟩, hm⟩
      · exact .inr ⟨⟨h, hb⟩, hm⟩

theorem epMoves_shape {m : Move} (h : m ∈ epMoves p s rights ep) :
    ∃ e, ep = some e ∧ m.flag = .enPassantCapture ∧ m.to = e ∧ PassedBy s e := by
  obtain ⟨e, src, he, hr, -, -, rfl, -⟩ := mem_epMoves.1 h
  exact ⟨e, he, rfl, rfl, hr⟩

/-! ### All families -/

theorem ply_eq {m : Move} {r : Ply} {ds : Option PieceColor} (h : m.ply = r) (hd : m.defenderSide = ds) :
    m = ⟨r.from, r.to, r.attackerType, r.attackerSide, r.defenderType, ds, r.flag⟩ := by
  subst h hd; rfl

/-- The moves of the pieces: all that the rules know, written down and tested. -/
theorem mem_allMoves (hv : p.Valid) {m : Move} :
    m ∈ allMoves p s ep rights ↔
      (Generated p.board s m ∧ isLegalMove p m rights = true) ∨
        m ∈ epMoves p s rights ep ∨ m ∈ castleMoves p s rights := by
  simp only [allMoves, families, List.flatten_cons, List.flatten_nil, List.append_nil, List.mem_append, mem_singles hv,
    mem_longs hv, mem_lefts hv, mem_rights hv, mem_pieceMoves hv (knight_mask hv), mem_pieceMoves hv (bishop_mask hv),
    mem_pieceMoves hv (rook_mask hv), mem_pieceMoves hv (queen_mask hv), mem_pieceMoves hv (king_mask hv)]
  constructor
  · rintro (⟨src, dst, f, hb, hd, ha, he, hf, rfl, hl⟩ | ⟨src, mid, dst, hb, hr, hm, hd, ha1, he1, ha2, he2, rfl, hl⟩ |
      ⟨src, dst, t, f, hb, hd, hx, hy, ht, hf, rfl, hl⟩ | ⟨src, dst, t, f, hb, hd, hx, hy, ht, hf, rfl, hl⟩ | h |
      ⟨src, dst, hb, hd, ha, ho, rfl, hl⟩ | ⟨src, dst, hb, hd, ha, ho, rfl, hl⟩ | ⟨src, dst, hb, hd, ha, ho, rfl, hl⟩ |
      ⟨src, dst, hb, hd, ha, ho, rfl, hl⟩ | ⟨src, dst, hb, hd, ha, ho, rfl, hl⟩ | h)
    · exact .inl ⟨⟨.push hb hd ha.1 ha.2 he hf, rfl⟩, hl⟩
    · exact .inl ⟨⟨.double hb hr hm hd ha1.1 ha1.2 he1 (ha2.1.trans ha1.1) ha2.2 he2, rfl⟩, hl⟩
    · refine .inl ⟨⟨.capture hb hd ⟨?_, hy⟩ ht hf, rfl⟩, hl⟩
      simp only [files]; omega
    · refine .inl ⟨⟨.capture hb hd ⟨?_, hy⟩ ht hf, rfl⟩, hl⟩
      simp only [files]; omega
    · exact .inr (.inl h)
    · exact .inl ⟨⟨.piece hb (by simp) hd ha ho, rfl⟩, hl⟩
    · exact .inl ⟨⟨.piece hb (by simp) hd ha ho, rfl⟩, hl⟩
    · exact .inl ⟨⟨.piece hb (by simp) hd ha ho, rfl⟩, hl⟩
    · exact .inl ⟨⟨.piece hb (by simp) hd ha ho, rfl⟩, hl⟩
    · exact .inl ⟨⟨.piece hb (by simp) hd ha ho, rfl⟩, hl⟩
    · exact .inr (.inr h)
  · -- a pawn's capture to the left and one to the right are two families
    rintro (⟨⟨hp, hside⟩, hl⟩ | h | h)
    · generalize hply : m.ply = r at hp hside
      have hm := ply_eq hply hside
      subst hm
      cases hp with
      | @push src dst f hb hd hx hy he hf => exact .inl ⟨src, dst, f, hb, hd, ⟨hx, hy⟩, he, hf, rfl, hl⟩
      | @double src mid dst hb hr hm hd hx1 hy1 he1 hx2 hy2 he2 =>
        exact .inr (.inl ⟨src, mid, dst, hb, hr, hm, hd, ⟨hx1, hy1⟩, he1, ⟨hx2.trans hx1.symm, hy2⟩, he2, rfl, hl⟩)
      | @capture src dst t f hb hd ha ht hf =>
        have hx : file dst = file src - 1 ∨ file dst = file src + 1 := by
          have := ha.1; simp only [files] at this; omega
        rcases hx with hx | hx
        · exact .inr (.inr (.inl ⟨src, dst, t, f, hb, hd, hx, ha.2, ht, hf, rfl, hl⟩))
        · exact .inr (.inr (.inr (.inl ⟨src, dst, t, f, hb, hd, hx, ha.2, ht, hf, rfl, hl⟩)))
      | @piece src dst t hb ht hd ha ho =>
        have hgs : generatedSide ⟨src, dst, t, s, (p.board dst).map Prod.snd, .default⟩ = some s.inverse := by
          simp [generatedSide, ht]
        rw [hgs] at hl ⊢
        cases t with
        | pawn => exact absurd rfl ht
        | knight => exact .inr (.inr (.inr (.inr (.inr (.inl ⟨src, dst, hb, hd, ha, ho, rfl, hl⟩)))))
        | bishop => exact .inr (.inr (.inr (.inr (.inr (.inr (.inl ⟨src, dst, hb, hd, ha, ho, rfl, hl⟩))))))
        | rook => exact .inr (.inr (.inr (.inr (.inr (.inr (.inr (.inl ⟨src, dst, hb, hd, ha, ho, rfl, hl⟩)))))))
        | queen =>
          exact .inr (.inr (.inr (.inr (.inr (.inr (.inr (.inr (.inl ⟨src, dst, hb, hd, ha, ho, rfl, hl⟩))))))))
        | king =>
          exact .inr (.inr (.inr (.inr (.inr (.inr (.inr (.inr (.inr (.inl ⟨src, dst, hb, hd, ha, ho, rfl, hl⟩)))))))))
    · exact .inr (.inr (.inr (.inr (.inl h))))
    · exact .inr (.inr (.inr (.inr (.inr (.inr (.inr (.inr (.inr (.inr h)))))))))

/-! ## No move twice -/

/-- The number of the family a move belongs to. -/
def family (m : Move) : ℕ :=
  match m.flag with
  | .pawnLongMove => 1
  | .enPassantCapture => 4
  | .whiteLongCastling | .whiteShortCastling | .blackLongCastling | .blackShortCastling => 10
  | _ =>
    match m.attackerType with
    | .pawn => if m.defenderType = none then 0 else if file m.to < file m.from then 2 else 3
    | .knight => 5
    | .bishop => 6
    | .rook => 7
    | .queen => 8
    | .king => 9

/-- Lists whose elements are told apart by `key` share nothing. -/
theorem nodup_flatten {α : Type} (key : α → ℕ) {parts : List (List α)} {keys : List ℕ} (hk : keys.Nodup)
    (h : List.Forall₂ (fun l i => l.Nodup ∧ ∀ a ∈ l, key a = i) parts keys) :
    parts.flatten.Nodup ∧ ∀ a ∈ parts.flatten, key a ∈ keys := by
  induction h with
  | nil => simp
  | @cons l i parts keys hl _ ih =>
    obtain ⟨hi, hk⟩ := List.nodup_cons.1 hk
    obtain ⟨hn, hmem⟩ := ih hk
    rw [List.flatten_cons]
    constructor
    · refine List.nodup_append.2 ⟨hl.1, hn, ?_⟩
      rintro a ha b hb rfl
      exact hi (hl.2 a ha ▸ hmem a hb)
    · intro a ha
      rcases List.mem_append.1 ha with ha | ha
      · rw [hl.2 a ha]; exact List.mem_cons_self
      · exact List.mem_cons_of_mem _ (hmem a ha)

theorem pawnPushed_nodup (m : Move) : (pawnPushed p rights m).Nodup := by
  unfold pawnPushed
  split
  · split
    · refine List.Nodup.map (fun f g h => ?_) (by decide)
      simpa using h
    · simp
  · simp

theorem mem_pawnPushed_to {m m₀ : Move} (h : m ∈ pawnPushed p rights m₀) : m.to = m₀.to := by
  unfold pawnPushed at h
  split at h
  · split at h
    · obtain ⟨f, -, rfl⟩ := List.mem_map.1 h; rfl
    · rw [List.mem_singleton] at h; rw [h]
  · simp at h

theorem legalPushed_nodup (m : Move) : (legalPushed p rights m).Nodup := by
  unfold legalPushed; split <;> simp

/-- A loop over targets pushes no move twice. -/
theorem nodup_targets {mask : Bitboard} {f : ℕ → List Move} (hn : ∀ i, (f i).Nodup) (ht : ∀ i, ∀ m ∈ f i, m.to = i) :
    ((indices mask).flatMap f).Nodup := by
  rw [List.nodup_flatMap]
  refine ⟨fun i _ => hn i, (indices_nodup mask).imp fun {i j} hij m hi hj => hij ?_⟩
  rw [← ht i m hi, ht j m hj]

theorem pieceMoves_nodup (t : PieceType) (mask : Pieces → ℕ → PieceColor → Bitboard) :
    (pieceMoves p s rights t mask).Nodup := by
  have hto : ∀ src dst, ∀ m ∈ legalPushed p rights (pieceMove p s t src dst), m.to = dst ∧ m.from = src := by
    intro src dst m hm
    obtain ⟨rfl, -⟩ := mem_legalPushed.1 hm
    exact ⟨rfl, rfl⟩
  rw [pieceMoves, List.nodup_flatMap]
  constructor
  · intro src _
    exact nodup_targets (fun _ => legalPushed_nodup _) fun dst m hm => (hto src dst m hm).1
  · refine (indices_nodup _).imp fun {i j} hij m hi hj => hij ?_
    obtain ⟨d, -, hd⟩ := List.mem_flatMap.1 hi
    obtain ⟨d', -, hd'⟩ := List.mem_flatMap.1 hj
    rw [← (hto i d m hd).2, (hto j d' m hd').2]

theorem epMoves_nodup : (epMoves p s rights ep).Nodup := by
  cases ep with
  | none => simp [epMoves]
  | some e =>
    have hpush : ∀ (c : Bool) (src : ℕ), ∀ m ∈ (if c = true then legalPushed p rights (epMove s e src) else []),
        m.from = src := by
      intro c src m hm
      cases c
      · simp at hm
      · obtain ⟨rfl, -⟩ := mem_legalPushed.1 hm; rfl
    have hnd : ∀ (c : Bool) (src : ℕ), (if c = true then legalPushed p rights (epMove s e src) else []).Nodup := by
      intro c src
      cases c
      · simp
      · exact legalPushed_nodup _
    have happ : ∀ (c c' : Bool) (i j : ℕ), i ≠ j →
        ((if c = true then legalPushed p rights (epMove s e i) else []) ++
          (if c' = true then legalPushed p rights (epMove s e j) else [])).Nodup := by
      intro c c' i j hij
      refine List.nodup_append.2 ⟨hnd c i, hnd c' j, fun m hm m' hm' he => hij ?_⟩
      rw [← hpush c i m hm, he, hpush c' j m' hm']
    cases s <;> simp only [epMoves] <;> split
    · rename_i hr
      simp only [Bool.and_eq_true, decide_eq_true_eq] at hr
      exact happ _ _ _ _ (by omega)
    · simp
    · exact happ _ _ _ _ (by omega)
    · simp

theorem castleMoves_nodup : (castleMoves p s rights).Nodup := by
  rw [castleMoves, List.nodup_flatMap]
  constructor
  · intro k _
    unfold castlePushed
    split
    · exact legalPushed_nodup _
    · simp
  · have hall : Castling.all.Pairwise (fun k k' => k.flag ≠ k'.flag) := by decide
    refine (hall.filter _).imp fun {k k'} hne m hm hm' => hne ?_
    have hflag : ∀ k, m ∈ castlePushed p rights k → m.flag = k.flag := by
      intro k hm
      unfold castlePushed at hm
      split at hm
      · obtain ⟨rfl, -⟩ := mem_legalPushed.1 hm; rfl
      · simp at hm
    rw [← hflag k hm, hflag k' hm']

theorem family_pawn {m : Move} {q : ℕ} (ht : m.attackerType = .pawn) (hf : PawnFlag s q m.flag) :
    family m = if m.defenderType = none then 0 else if file m.to < file m.from then 2 else 3 := by
  have hc := pawnFlag_cases hf
  rw [Flag.promotions] at hc
  simp only [List.mem_cons, List.not_mem_nil, or_false] at hc
  unfold family
  rcases hc with h | h | h | h | h <;> rw [h, ht]

theorem family_castle {k : Castling} (hk : k ∈ Castling.all) : family (castleMove k) = 10 := by
  rcases Castling.cases hk with rfl | rfl | rfl | rfl <;> rfl

theorem family_pieceMoves (hv : p.Valid) {t : PieceType} {mask : Pieces → ℕ → PieceColor → Bitboard}
    (hm : MaskSpec p s t mask) {m : Move} (h : m ∈ pieceMoves p s rights t mask) :
    family m = family (pieceMove p s t 0 0) ∨ t = .pawn := by
  obtain ⟨_, _, -, -, -, -, rfl, -⟩ := (mem_pieceMoves hv hm).1 h
  cases t <;> simp [family, pieceMove]

/-- No move is generated twice. -/
theorem allMoves_nodup (hv : p.Valid) : (allMoves p s ep rights).Nodup := by
  have hpiece : ∀ {t : PieceType} {mask}, MaskSpec p s t mask → t ≠ .pawn →
      (pieceMoves p s rights t mask).Nodup ∧
        ∀ m ∈ pieceMoves p s rights t mask, family m = family (pieceMove p s t 0 0) :=
    fun hm ht => ⟨pieceMoves_nodup _ _, fun m h => (family_pieceMoves hv hm h).resolve_right ht⟩
  refine (nodup_flatten family (by decide : [0, 1, 2, 3, 4, 5, 6, 7, 8, 9, 10].Nodup) ?_).1
  refine .cons ⟨?_, ?_⟩ (.cons ⟨?_, ?_⟩ (.cons ⟨?_, ?_⟩ (.cons ⟨?_, ?_⟩ (.cons ⟨?_, ?_⟩
    (.cons (hpiece (knight_mask hv) (by decide)) (.cons (hpiece (bishop_mask hv) (by decide))
    (.cons (hpiece (rook_mask hv) (by decide)) (.cons (hpiece (queen_mask hv) (by decide))
    (.cons (hpiece (king_mask hv) (by decide)) (.cons ⟨?_, ?_⟩ .nil))))))))))
  · exact nodup_targets (fun _ => pawnPushed_nodup _) fun _ _ hm => mem_pawnPushed_to hm
  · intro m hm
    obtain ⟨src, dst, f, hb, hd, ha, he, hf, rfl, -⟩ := (mem_singles hv).1 hm
    rw [family_pawn rfl hf]; rfl
  · exact nodup_targets (fun _ => legalPushed_nodup _) fun _ _ hm => by rw [(mem_legalPushed.1 hm).1]; rfl
  · intro m hm
    obtain ⟨src, mid, dst, -, -, -, -, -, -, -, -, rfl, -⟩ := (mem_longs hv).1 hm
    rfl
  · exact nodup_targets (fun _ => pawnPushed_nodup _) fun _ _ hm => mem_pawnPushed_to hm
  · intro m hm
    obtain ⟨src, dst, t, f, -, -, hx, -, -, hf, rfl, -⟩ := (mem_lefts hv).1 hm
    rw [family_pawn rfl hf]
    simp [hx]
  · exact nodup_targets (fun _ => pawnPushed_nodup _) fun _ _ hm => mem_pawnPushed_to hm
  · intro m hm
    obtain ⟨src, dst, t, f, -, -, hx, -, -, hf, rfl, -⟩ := (mem_rights hv).1 hm
    rw [family_pawn rfl hf]
    simp [hx]
  · exact epMoves_nodup
  · intro m hm
    obtain ⟨e, -, hf, -⟩ := epMoves_shape hm
    simp [family, hf]
  · exact castleMoves_nodup
  · intro m hm
    obtain ⟨k, hk, -, -, -, -, rfl⟩ := (mem_castleMoves hv).1 hm
    exact family_castle hk

end ChessGame
