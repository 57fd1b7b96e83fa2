import ChessGame.Single
import ChessGame.Lib.Toggle
/-!
# The hash of a position

`apply_move` keeps `_hash` up to date by toggling. The pieces and the side to move
are toggled in step with the position. A castling flag is toggled whenever a move
starts on the home square of its king or its rook, also when it is down already,
and the square of a double push is set and cleared with the words of different sides.
-/
open Runs Toggle

namespace ChessGame

open BitboardOps MoveGen Rules Position

variable {pos next : Position} {m : Move} {p p' : Pieces} {rights : CastlingRights} {k : Castling}

/-! ## The words of a position -/

def kinds : List (PieceColor × PieceType) :=
  [.white, .black].flatMap fun c => PieceType.all.map fun t => (c, t)

/-- Every piece on every square. -/
def hashCells : List (ℕ × PieceColor × PieceType) := (List.range 64).flatMap fun q => kinds.map fun ct => (q, ct)

def cellWord (p : Pieces) (x : ℕ × PieceColor × PieceType) : ZobristHash :=
  if (p.bb x.2.1 x.2.2).getLsbD x.1 then Zobrist.Constants x.1 x.2.1 x.2.2 else 0#64

def piecesHash (p : Pieces) : ZobristHash := total (cellWord p) hashCells

/-- The constant that is toggled for the castling's flag. -/
def Rules.Castling.word (k : Castling) : ZobristHash :=
  match k.flag with
  | .whiteLongCastling => Zobrist.WhiteLongCastling
  | .whiteShortCastling => Zobrist.WhiteShortCastling
  | .blackLongCastling => Zobrist.BlackLongCastling
  | .blackShortCastling => Zobrist.BlackShortCastling
  | _ => 0#64

def rightsHash (rights : CastlingRights) : ZobristHash :=
  total (fun k => if k.right rights then k.word else 0#64) Castling.all

def sideHash (side : PieceColor) : ZobristHash := if side = .black then Zobrist.BlackMove else 0#64

/-- The hash of the pieces, the flags and the side to move. -/
def scratch (pos : Position) : ZobristHash :=
  piecesHash pos.pieces ^^^ (rightsHash pos.rights ^^^ sideHash pos.sideToMove)

/-- What `_hash` holds besides. -/
def stray (pos : Position) : ZobristHash := pos.hash ^^^ scratch pos

/-- A square set or cleared by the side that moves. -/
def passedWord (s : PieceColor) (e : ℕ) : ZobristHash := Zobrist.Constants e s.inverse .pawn

/-- What the en passant square adds right after a double push: it was set by the other side. -/
def passedHash (pos : Position) : ZobristHash :=
  match pos.enPassant with
  | some e => passedWord pos.sideToMove.inverse e
  | none => 0#64

/-- `_hash` is what the position makes it. -/
def Canonical (pos : Position) : Prop := stray pos = passedHash pos

/-- The square is the home square of the castling's king or rook. -/
def HomeOf (k : Castling) (q : ℕ) : Prop := q = k.kingFrom ∨ q = k.rookFrom

instance (k : Castling) (q : ℕ) : Decidable (HomeOf k q) := by unfold HomeOf; infer_instance

/-- The flags that the move toggles although they are down. -/
def staleHash (pos : Position) (m : Move) : ZobristHash :=
  total (fun k => if HomeOf k m.from ∧ k.right pos.rights = false then k.word else 0#64) Castling.all

/-- What the move toggles for en passant squares. -/
def passingHash (pos : Position) (m : Move) : ZobristHash :=
  if m.flag = .pawnLongMove then passedWord m.attackerSide ((m.from + m.to) / 2)
  else match pos.enPassant with
    | some e => passedWord m.attackerSide e
    | none => 0#64

/-! ## Pieces -/

theorem kinds_nodup : kinds.Nodup := by decide

theorem mem_kinds (ct : PieceColor × PieceType) : ct ∈ kinds := by
  obtain ⟨c, t⟩ := ct
  cases c <;> cases t <;> decide

theorem mem_hashCells {q : ℕ} {c : PieceColor} {t : PieceType} : (q, c, t) ∈ hashCells ↔ q < 64 := by
  unfold hashCells
  simp [mem_kinds]

theorem hashCells_nodup : hashCells.Nodup := by
  unfold hashCells
  rw [List.nodup_flatMap]
  constructor
  · intro q _
    exact kinds_nodup.map (Prod.mk_right_injective q)
  · refine List.nodup_range.imp ?_
    intro q r hne x hx hx'
    obtain ⟨ct, -, rfl⟩ := List.mem_map.1 hx
    obtain ⟨ct', -, he⟩ := List.mem_map.1 hx'
    exact hne (congrArg Prod.fst he).symm

/-- Flipping one bit of one bitboard toggles the word of that cell. -/
theorem piecesHash_flip {q : ℕ} {c : PieceColor} {t : PieceType} (hq : q < 64)
    (hbit : (p'.bb c t).getLsbD q = !(p.bb c t).getLsbD q)
    (hrest : ∀ q' c' t', (q', c', t') ≠ (q, c, t) → (p'.bb c' t').getLsbD q' = (p.bb c' t').getLsbD q') :
    piecesHash p' = piecesHash p ^^^ Zobrist.Constants q c t := by
  have hchange := total_change (f := cellWord p) (g := cellWord p') hashCells_nodup
      (mem_hashCells.2 hq : (q, c, t) ∈ hashCells) <| by
    rintro ⟨q', c', t'⟩ - hne
    unfold cellWord
    rw [hrest q' c' t' hne]
  have hword : cellWord p (q, c, t) ^^^ cellWord p' (q, c, t) = Zobrist.Constants q c t := by
    unfold cellWord
    rw [hbit]
    cases (p.bb c t).getLsbD q <;> simp
  rw [piecesHash, hchange, hword, piecesHash]

theorem addPiece_hash (pos : Position) {q : ℕ} (hq : q < 64) (t : PieceType) (c : PieceColor) :
    (pos.addPiece q t c).hash ^^^ piecesHash (pos.addPiece q t c).pieces = pos.hash ^^^ piecesHash pos.pieces := by
  unfold addPiece
  split
  · rename_i hbit
    have hflip : piecesHash (pos.pieces.modify c t (set1 · q)) =
        piecesHash pos.pieces ^^^ Zobrist.Constants q c t := by
      refine piecesHash_flip hq ?_ ?_
      · have hoff : (pos.pieces.bb c t).getLsbD q = false := by simpa using hbit
        rw [Pieces.bb_modify, if_pos ⟨rfl, rfl⟩, getLsbD_set1, hoff]
        simp [hq]
      · intro q' c' t' hne
        rw [Pieces.bb_modify]
        split
        · rename_i hct
          obtain ⟨rfl, rfl⟩ := hct
          have hq' : q' ≠ q := fun he => hne (by rw [he])
          simp [hq']
        · rfl
    dsimp only
    rw [hflip, ZobristHash.invertPiece]
    rw [BitVec.xor_assoc, xor_left_comm (Zobrist.Constants q c t), BitVec.xor_self, BitVec.xor_zero]
  · rfl

theorem removePiece_hash (pos : Position) (q : ℕ) (t : PieceType) (c : PieceColor) :
    (pos.removePiece q t c).hash ^^^ piecesHash (pos.removePiece q t c).pieces =
      pos.hash ^^^ piecesHash pos.pieces := by
  unfold removePiece
  split
  · rename_i hbit
    rw [getBit_eq] at hbit
    have hflip : piecesHash (pos.pieces.modify c t (set0 · q)) =
        piecesHash pos.pieces ^^^ Zobrist.Constants q c t := by
      refine piecesHash_flip (BitVec.lt_of_getLsbD hbit) ?_ ?_
      · rw [Pieces.bb_modify, if_pos ⟨rfl, rfl⟩, getLsbD_set0, hbit]
        simp
      · intro q' c' t' hne
        rw [Pieces.bb_modify]
        split
        · rename_i hct
          obtain ⟨rfl, rfl⟩ := hct
          have hq' : q' ≠ q := fun he => hne (by rw [he])
          simp [hq']
        · rfl
    dsimp only
    rw [hflip, ZobristHash.invertPiece]
    rw [BitVec.xor_assoc, xor_left_comm (Zobrist.Constants q c t), BitVec.xor_self, BitVec.xor_zero]
  · rfl

/-- Whatever the flags, the pieces are toggled in step with the bitboards. -/
theorem movePieces_hash (pos : Position) (hto : m.to < 64) :
    (pos.movePieces m).hash ^^^ piecesHash (pos.movePieces m).pieces = pos.hash ^^^ piecesHash pos.pieces := by
  have hcarry : (pos.carry m).hash ^^^ piecesHash (pos.carry m).pieces = pos.hash ^^^ piecesHash pos.pieces := by
    unfold carry
    dsimp only
    split <;> simp only [removePiece_hash, addPiece_hash _ hto]
  have hswap : ∀ (pos : Position) (q r : ℕ) (t u : PieceType) (c : PieceColor), r < 64 →
      ((pos.removePiece q t c).addPiece r u c).hash ^^^ piecesHash ((pos.removePiece q t c).addPiece r u c).pieces =
        pos.hash ^^^ piecesHash pos.pieces := by
    intro pos q r t u c hr
    rw [addPiece_hash _ hr, removePiece_hash]
  rw [← hcarry]
  show ((pos.carry m).applyFlag m).hash ^^^ piecesHash ((pos.carry m).applyFlag m).pieces = _
  unfold applyFlag
  cases m.flag with
  | enPassantCapture => cases m.attackerSide <;> exact removePiece_hash ..
  | whiteLongCastling | whiteShortCastling | blackLongCastling | blackShortCastling =>
    exact hswap _ _ _ _ _ _ (by decide)
  | promoteToKnight | promoteToBishop | promoteToRook | promoteToQueen => exact hswap _ _ _ _ _ _ hto
  | default | pawnLongMove => rfl

/-- On valid bitboards the words of the cells are those that the readers find. -/
theorem piecesHash_eq (hv : p.Valid) : piecesHash p = total (fun q =>
    match p.board q with
    | some (c, t) => Zobrist.Constants q c t
    | none => 0#64) (List.range 64) := by
  rw [piecesHash, hashCells, total_flatMap]
  refine total_congr fun q _ => ?_
  rw [total_map]
  cases hb : p.board q with
  | none =>
    refine total_zero fun ct _ => ?_
    simp [cellWord, hv.board_eq_none.1 hb ct.1 ct.2]
  | some ct =>
    have hbit := hv.board_eq_some.1 hb
    rw [total_single kinds_nodup (mem_kinds ct)]
    · simp [cellWord, hbit]
    · intro ct' _ hne
      have hoff : (p.bb ct'.1 ct'.2).getLsbD q = false := by
        rw [← Bool.not_eq_true]
        intro hon
        obtain ⟨h1, h2⟩ := hv.disjoint hon hbit
        exact hne (Prod.ext h1 h2)
      simp [cellWord, hoff]

theorem if_invert (b : Bool) (h x : ZobristHash) : (if b then h ^^^ x else h) = h ^^^ if b then x else 0#64 := by
  cases b
  · exact BitVec.xor_zero.symm
  · rfl

theorem rightsHash_eq (rights : CastlingRights) :
    rightsHash rights = (if rights.wSCastling then Zobrist.WhiteShortCastling else 0#64) ^^^
      ((if rights.wLCastling then Zobrist.WhiteLongCastling else 0#64) ^^^
        ((if rights.bSCastling then Zobrist.BlackShortCastling else 0#64) ^^^
          (if rights.bLCastling then Zobrist.BlackLongCastling else 0#64))) := by
  simp [rightsHash, Castling.all, Castling.word, Castling.wShort, Castling.wLong, Castling.bShort, Castling.bLong]

/-- The hash computed from scratch is made of the same words. -/
theorem ofPieces_eq (hv : p.Valid) (side : PieceColor) (rights : CastlingRights) :
    ZobristHash.ofPieces p (side = .black) rights.wLCastling rights.wSCastling rights.bLCastling rights.bSCastling =
      piecesHash p ^^^ (rightsHash rights ^^^ sideHash side) := by
  unfold ZobristHash.ofPieces
  refine (List.foldl_ext _ (fun h q => h ^^^ match p.board q with
    | some (c, t) => Zobrist.Constants q c t
    | none => 0#64) _ ?_).trans ?_
  · intro h q _
    unfold Pieces.board
    cases p.colorAt q <;> cases p.pieceAt q <;> simp [ZobristHash.invertPiece]
  · rw [foldl_total, ← piecesHash_eq hv, rightsHash_eq]
    simp only [ZobristHash.invertMove, ZobristHash.invertWLCastling, ZobristHash.invertWSCastling,
      ZobristHash.invertBLCastling, ZobristHash.invertBSCastling, if_invert, sideHash, decide_eq_true_eq,
      BitVec.zero_xor]
    simp only [BitVec.xor_comm, xor_left_comm]

/-! ## Castling flags -/

theorem updateCastlingRights_toggles (pos : Position) (q : ℕ) :
    (pos.updateCastlingRights q).hash = pos.hash ^^^
      total (fun k => if HomeOf k q then k.word else 0#64) Castling.all := by
  by_cases hq : q ∈ [0, 4, 7, 56, 60, 63]
  · simp only [List.mem_cons, List.not_mem_nil, or_false] at hq
    rcases hq with rfl | rfl | rfl | rfl | rfl | rfl <;>
      simp [HomeOf, updateCastlingRights, Castling.all, Castling.word, Castling.wShort, Castling.wLong, Castling.bShort,
        Castling.bLong, dropWLCastling, dropWSCastling, dropBLCastling, dropBSCastling, ZobristHash.invertWLCastling,
        ZobristHash.invertWSCastling, ZobristHash.invertBLCastling, ZobristHash.invertBSCastling, BitVec.xor_comm,
        xor_left_comm]
  · simp only [List.mem_cons, List.not_mem_nil, or_false, not_or] at hq
    obtain ⟨h0, h4, h7, h56, h60, h63⟩ := hq
    simp [HomeOf, updateCastlingRights, Castling.all, Castling.wShort, Castling.wLong, Castling.bShort,
      Castling.bLong, h0, h4, h7, h56, h60, h63]

/-- The flags are toggled in step with the position, except those that were down. -/
theorem updateCastlingRights_hash (pos : Position) (m : Move) :
    (pos.updateCastlingRights m.from).hash ^^^ rightsHash (pos.updateCastlingRights m.from).rights =
      pos.hash ^^^ rightsHash pos.rights ^^^ staleHash pos m := by
  have hwords : ∀ k ∈ Castling.all, ((if HomeOf k m.from then k.word else 0#64) ^^^
      if k.right (pos.updateCastlingRights m.from).rights then k.word else 0#64) =
      (if k.right pos.rights then k.word else 0#64) ^^^
        if HomeOf k m.from ∧ k.right pos.rights = false then k.word else 0#64 := by
    intro k hk
    have hright := updateCastlingRights_right pos m.from hk
    by_cases ht : HomeOf k m.from
    · have hoff : k.right (pos.updateCastlingRights m.from).rights = false := by
        rw [hright, Bool.and_eq_false_iff, decide_eq_false_iff_not]
        exact .inr fun hn => ht.elim hn.1 hn.2
      cases hr : k.right pos.rights <;> simp [ht, hoff]
    · have hsame : k.right (pos.updateCastlingRights m.from).rights = k.right pos.rights := by
        rw [hright, decide_eq_true (not_or.1 ht), Bool.and_true]
      rw [hsame]
      simp [ht]
  rw [updateCastlingRights_toggles, rightsHash, rightsHash, staleHash, BitVec.xor_assoc, BitVec.xor_assoc, ← total_xor,
    ← total_xor, total_congr hwords]

/-! ## A move -/

theorem updateEnPassant_hash (pos : Position) (m : Move) :
    (pos.updateEnPassant m).hash = pos.hash ^^^ passingHash pos m := by
  unfold updateEnPassant passingHash
  by_cases hf : m.flag = .pawnLongMove
  · simp [hf, ZobristHash.invertPiece, passedWord]
  · cases pos.enPassant <;> simp [hf, ZobristHash.invertPiece, passedWord]

theorem sideHash_inverse (s : PieceColor) : sideHash s.inverse = sideHash s ^^^ Zobrist.BlackMove := by
  cases s <;> simp [sideHash, PieceColor.inverse]

theorem target_lt (h : Effect pos m next) : m.to < 64 := by
  obtain ⟨hg, -⟩ | ⟨k, hk, rfl⟩ := h.made
  · exact hg.carries.target
  · exact (castling_geometry hk.mem).lt _ (by simp [castleMove])

/-- What a turn does to the part of the hash that the position does not account for. -/
theorem stray_next (hs : Sound pos) (hp : Played pos m next) :
    stray next = stray pos ^^^ (staleHash pos m ^^^ passingHash pos m) := by
  have he := hp.effect hs
  have hside := he.sideToMove
  have hpieces := movePieces_hash pos (target_lt he)
  have hrights := updateCastlingRights_hash (pos.movePieces m) m
  obtain ⟨pieces, hash, hmp⟩ := pos.movePieces_only m
  -- the fields that the later updates find as the move found them
  have hstale : staleHash (pos.movePieces m) m = staleHash pos m := by rw [hmp]; rfl
  have hflags : rightsHash (pos.movePieces m).rights = rightsHash pos.rights := by rw [hmp]
  have hpassing : passingHash ((pos.movePieces m).updateCastlingRights m.from) m = passingHash pos m := by
    unfold passingHash
    rw [updateCastlingRights_enPassant, hmp]
  have hhash : next.hash = ((pos.movePieces m).updateCastlingRights m.from).hash ^^^ passingHash pos m ^^^
      Zobrist.BlackMove := by
    rw [applyMove_eq hp.2, ← hpassing, ← updateEnPassant_hash]
    rfl
  obtain ⟨hash', hep⟩ := updateEnPassant_eq ((pos.movePieces m).updateCastlingRights m.from) m
  have hscratch : scratch next = piecesHash (pos.movePieces m).pieces ^^^
      (rightsHash ((pos.movePieces m).updateCastlingRights m.from).rights ^^^
        (sideHash pos.sideToMove ^^^ Zobrist.BlackMove)) := by
    rw [scratch, hside, sideHash_inverse, applyMove_eq hp.2, hep,
      ← updateCastlingRights_pieces (pos.movePieces m) m.from]
    rfl
  rw [hstale, hflags, xor_eq_iff] at hrights
  rw [xor_eq_iff] at hpieces
  rw [stray, stray, hhash, hscratch, hrights, hpieces, scratch]
  simp only [BitVec.xor_assoc, BitVec.xor_comm, xor_left_comm, xor_self_left, BitVec.xor_self, BitVec.zero_xor]

/-! ## Moves that toggle in step -/

/-- The flags that the move takes down are still up. -/
def Fresh (pos : Position) (m : Move) : Prop := ∀ k ∈ Castling.all, HomeOf k m.from → k.right pos.rights = true

instance (pos : Position) (m : Move) : Decidable (Fresh pos m) := by unfold Fresh; infer_instance

/-- The move follows no double push and takes down no flag a second time. -/
def Clean (pos : Position) (m : Move) : Prop := pos.enPassant = none ∧ Fresh pos m

instance (pos : Position) (m : Move) : Decidable (Clean pos m) := by unfold Clean; infer_instance

/-- What a move that is not fresh may toggle. -/
def staleWords : List ZobristHash :=
  [Zobrist.WhiteLongCastling, Zobrist.WhiteShortCastling, Zobrist.WhiteShortCastling ^^^ Zobrist.WhiteLongCastling,
    Zobrist.BlackLongCastling, Zobrist.BlackShortCastling, Zobrist.BlackShortCastling ^^^ Zobrist.BlackLongCastling]

theorem staleWords_ne {x : ZobristHash} (h : x ∈ staleWords) : x ≠ 0#64 := by
  have hall : staleWords.all (· ≠ 0#64) = true := by decide +kernel
  exact of_decide_eq_true (List.all_eq_true.1 hall x h)

theorem staleHash_fresh (h : Fresh pos m) : staleHash pos m = 0#64 := by
  refine total_zero fun k hk => if_neg ?_
  rintro ⟨hhome, hdown⟩
  rw [h k hk hhome] at hdown
  cases hdown

theorem staleHash_stale (h : ¬ Fresh pos m) : staleHash pos m ∈ staleWords := by
  unfold Fresh at h
  unfold staleHash
  generalize pos.rights = rights at h ⊢
  generalize m.from = q at h ⊢
  obtain ⟨wl, ws, bl, bs⟩ := rights
  by_cases hq : q ∈ [0, 4, 7, 56, 60, 63]
  · simp only [List.mem_cons, List.not_mem_nil, or_false] at hq
    rcases hq with rfl | rfl | rfl | rfl | rfl | rfl <;>
      simp only [HomeOf, Castling.all, Castling.word, Castling.wShort, Castling.wLong, Castling.bShort, Castling.bLong,
        List.forall_mem_cons, total_cons, total_nil] at h ⊢
    · cases wl <;> simp [staleWords] at h ⊢
    · cases wl <;> cases ws <;> simp [staleWords] at h ⊢
    · cases ws <;> simp [staleWords] at h ⊢
    · cases bl <;> simp [staleWords] at h ⊢
    · cases bl <;> cases bs <;> simp [staleWords] at h ⊢
    · cases bs <;> simp [staleWords] at h ⊢
  · -- no castling starts there
    exfalso
    apply h
    intro k hk hhome
    simp only [List.mem_cons, List.not_mem_nil, or_false, not_or] at hq
    rcases Castling.cases hk with rfl | rfl | rfl | rfl <;>
      simp only [HomeOf, Castling.wShort, Castling.wLong, Castling.bShort, Castling.bLong] at hhome <;> omega

/-- The word of a square passed over is not that of the other side, whatever castling words are stale. -/
theorem passedWords_ne {s : PieceColor} {e : ℕ} (he : PassedBy s e) :
    passedWord s e ≠ 0#64 ∧ passedWord s e ^^^ passedWord s.inverse e ≠ 0#64 ∧
      ∀ x ∈ staleWords, passedWord s e ^^^ passedWord s.inverse e ≠ x := by
  have hall : ∀ e ∈ List.range' 16 8 ++ List.range' 40 8, passedWord .white e ≠ 0#64 ∧ passedWord .black e ≠ 0#64 ∧
      passedWord .white e ^^^ passedWord .black e ≠ 0#64 ∧
        staleWords.all (passedWord .white e ^^^ passedWord .black e ≠ ·) = true := by decide +kernel
  have hmem : e ∈ List.range' 16 8 ++ List.range' 40 8 := by
    simp only [List.mem_append, List.mem_range'_1]
    cases s <;> simp only [PassedBy] at he <;> omega
  obtain ⟨hw, hb, hne, hstale⟩ := hall e hmem
  have hstale : ∀ x ∈ staleWords, passedWord .white e ^^^ passedWord .black e ≠ x := fun x hx =>
    of_decide_eq_true (List.all_eq_true.1 hstale x hx)
  cases s
  · exact ⟨hw, hne, hstale⟩
  · refine ⟨hb, ?_, ?_⟩
    · rwa [BitVec.xor_comm]
    · rw [BitVec.xor_comm]; exact hstale

theorem long_plays (h : Effect pos m next) (hf : m.flag = .pawnLongMove) (k : Castling) (hk : k ∈ Castling.all) :
    ¬ HomeOf k m.from := by
  obtain ⟨⟨hp, -⟩, -⟩ | ⟨k', hk', rfl⟩ := h.made
  · generalize pos.sideToMove = s at hp
    generalize hr : m.ply = r at hp
    have hm : m.flag = r.flag ∧ m.from = r.from := by rw [← hr]; exact ⟨rfl, rfl⟩
    rw [hm.1] at hf
    rw [hm.2]
    have hstart : rank r.from = startRank s := by
      cases hp with
      | push _ _ _ _ _ hpf => rcases pawnFlag_cases hpf with rfl | hpf <;> simp_all [Flag.promotions]
      | double _ hstart _ _ _ _ _ _ _ _ => exact hstart
      | capture _ _ _ _ hpf => rcases pawnFlag_cases hpf with rfl | hpf <;> simp_all [Flag.promotions]
      | piece => simp at hf
    intro hhome
    rcases Castling.cases hk with rfl | rfl | rfl | rfl <;> cases s <;>
      simp only [HomeOf, Castling.wShort, Castling.wLong, Castling.bShort, Castling.bLong, rank, startRank] at * <;>
        omega
  · rcases Castling.cases hk'.mem with rfl | rfl | rfl | rfl <;> cases hf

/-- A turn keeps the hash canonical exactly when it toggles in step. -/
theorem canonical_next (hs : Sound pos) (hp : Played pos m next) (hc : Canonical pos) :
    Canonical next ↔ Clean pos m := by
  have he := hp.effect hs
  have hstray := stray_next hs hp
  have hmover : m.attackerSide = pos.sideToMove := by
    obtain ⟨hg, -⟩ | ⟨k, hk, rfl⟩ := he.made
    · exact hg.carries.side
    · exact hk.side
  unfold Canonical at hc ⊢
  rw [hstray, hc]
  unfold Clean
  by_cases hf : m.flag = .pawnLongMove
  · -- a double push sets its own square and forgets the old one
    have hfresh : Fresh pos m := fun k hk hhome => absurd hhome (long_plays he hf k hk)
    have hnew : passedHash next = passingHash pos m := by
      unfold passedHash passingHash
      rw [he.enPassant, if_pos hf, if_pos hf, he.sideToMove, PieceColor.inverse_inverse, hmover]
    rw [staleHash_fresh hfresh, BitVec.zero_xor, hnew, xor_eq_iff, BitVec.xor_self]
    cases hep : pos.enPassant with
    | none => simp [passedHash, hep, hfresh]
    | some e => simp [passedHash, hep, (passedWords_ne (hs.enPassant e hep)).1]
  · have hnone : passedHash next = 0#64 := by
      unfold passedHash
      rw [he.enPassant, if_neg hf]
    rw [hnone]
    cases hep : pos.enPassant with
    | none =>
      have h0 : passedHash pos = 0#64 := by simp [passedHash, hep]
      have h1 : passingHash pos m = 0#64 := by simp [passingHash, hep, hf]
      rw [h0, h1, BitVec.zero_xor, BitVec.xor_zero]
      simp only [true_and]
      exact ⟨fun h0 => by_contra fun hn => staleWords_ne (staleHash_stale hn) h0, staleHash_fresh⟩
    | some e =>
      -- the square is cleared with the word of the other side
      obtain ⟨-, hne, hstale⟩ := passedWords_ne (hs.enPassant e hep)
      have h0 : passedHash pos = passedWord pos.sideToMove.inverse e := by simp [passedHash, hep]
      have h1 : passingHash pos m = passedWord pos.sideToMove e := by simp [passingHash, hep, hf, hmover]
      rw [PieceColor.inverse_inverse] at hne hstale
      simp only [reduceCtorEq, false_and, iff_false]
      rw [h0, h1, xor_left_comm, xor_eq_iff, BitVec.zero_xor]
      intro heq
      by_cases hfresh : Fresh pos m
      · exact hne (heq ▸ staleHash_fresh hfresh)
      · exact hstale _ (staleHash_stale hfresh) heq.symm

theorem init_canonical : Canonical Position.init := by
  have hscratch : Position.init.hash = scratch Position.init := ofPieces_eq init_valid .white ⟨true, true, true, true⟩
  unfold Canonical stray
  rw [hscratch, BitVec.xor_self]
  rfl

/-! ## Games -/

/-- The hash is canonical throughout a game exactly when every move toggles in step. -/
theorem canonical_iff {l : List (Position × Move)} (h : Run Played Position.init l pos) :
    ((∀ x ∈ l, Canonical x.1) ∧ Canonical pos) ↔ ∀ x ∈ l, Clean x.1 x.2 :=
  (h.always_iff Canonical (fun _ => True) Clean init_canonical trivial fun hr hc _ hp =>
    ⟨trivial, canonical_next (Reached.sound hr) hp hc⟩).1

/-- The same pieces on the same squares, the same side to move, flags and en passant square. -/
structure SamePosition (pos pos' : Position) : Prop where
  pieces : ∀ q < 64, pos.pieces.board q = pos'.pieces.board q
  side : pos.sideToMove = pos'.sideToMove
  rights : pos.rights = pos'.rights
  enPassant : pos.enPassant = pos'.enPassant

instance (pos pos' : Position) : Decidable (SamePosition pos pos') :=
  decidable_of_iff ((∀ q < 64, pos.pieces.board q = pos'.pieces.board q) ∧ pos.sideToMove = pos'.sideToMove ∧
    pos.rights = pos'.rights ∧ pos.enPassant = pos'.enPassant)
    ⟨fun ⟨h1, h2, h3, h4⟩ => ⟨h1, h2, h3, h4⟩, fun ⟨h1, h2, h3, h4⟩ => ⟨h1, h2, h3, h4⟩⟩

theorem SamePosition.board_eq {pos' : Position} (h : SamePosition pos pos') (hs : Sound pos) (hs' : Sound pos') :
    pos.pieces.board = pos'.pieces.board := by
  funext q
  by_cases hq : q < 64
  · exact h.pieces q hq
  · rw [hs.valid.board_ge (by omega), hs'.valid.board_ge (by omega)]

theorem SamePosition.scratch_eq {pos' : Position} (h : SamePosition pos pos') (hs : Sound pos) (hs' : Sound pos') :
    scratch pos = scratch pos' := by
  have hb := h.board_eq hs hs'
  have hp : pos.pieces = pos'.pieces := hs.valid.eq_of_board hs'.valid fun q => congrFun hb q
  rw [scratch, scratch, hp, h.rights, h.side]

/-- In games whose moves toggle in step, equal positions have equal hashes, and without an en passant square the
hash is the one computed from scratch. From 2^24 moves on the side to move is toggled and does not change. -/
theorem hash_of_position {l l' : List (Position × Move)} {pos' : Position} (h : Run Single.Played Position.init l pos)
    (h' : Run Single.Played Position.init l' pos') (hl : l.length ≤ 2 ^ 24) (hl' : l'.length ≤ 2 ^ 24)
    (hc : ∀ x ∈ l, Clean x.1 x.2) (hc' : ∀ x ∈ l', Clean x.1 x.2) :
    (SamePosition pos pos' → pos.hash = pos'.hash) ∧
      (pos.enPassant = none → pos.hash = ZobristHash.ofPieces pos.pieces (pos.sideToMove = .black)
        pos.rights.wLCastling pos.rights.wSCastling pos.rights.bLCastling pos.rights.bSCastling) := by
  rw [Single.run_iff hl] at h
  rw [Single.run_iff hl'] at h'
  have hs : Sound pos := Reached.sound ⟨l, h⟩
  have hs' : Sound pos' := Reached.sound ⟨l', h'⟩
  have hcan : stray pos = passedHash pos := ((canonical_iff h).2 hc).2
  have hcan' : stray pos' = passedHash pos' := ((canonical_iff h').2 hc').2
  rw [stray, xor_eq_iff] at hcan hcan'
  constructor
  · intro hsame
    have hpassed : passedHash pos = passedHash pos' := by
      unfold passedHash
      rw [hsame.enPassant, hsame.side]
    rw [hcan, hcan', hpassed, hsame.scratch_eq hs hs']
  · intro hnone
    have hpassed : passedHash pos = 0#64 := by simp [passedHash, hnone]
    rw [hcan, hpassed, BitVec.zero_xor, ofPieces_eq hs.valid]
    rfl

/-- 1.Nf3 Nf6 2.Nc3 and 1.Nc3 Nf6 2.Nf3 -/
theorem hash_of_position_knights :
    ∃ pos pos', lineIf (fun pos m => Clean pos m) [(6, 21), (62, 45), (1, 18)] = some pos ∧
      lineIf (fun pos m => Clean pos m) [(1, 18), (62, 45), (6, 21)] = some pos' ∧ SamePosition pos pos' ∧
        pos.hash = pos'.hash := by
  have hsame : (lineIf (fun pos m => Clean pos m) [(6, 21), (62, 45), (1, 18)]).any (fun pos =>
      (lineIf (fun pos m => Clean pos m) [(1, 18), (62, 45), (6, 21)]).any fun pos' =>
        SamePosition pos pos') = true := by
    decide +kernel
  obtain ⟨pos, hpos, hsame⟩ := (Option.any_eq_true _ _).1 hsame
  obtain ⟨pos', hpos', hsame⟩ := (Option.any_eq_true _ _).1 hsame
  have hsame := of_decide_eq_true hsame
  obtain ⟨l, hr, hsq, hc⟩ := lineIf_run hpos
  obtain ⟨l', hr', hsq', hc'⟩ := lineIf_run hpos'
  have hc : ∀ x ∈ l, Clean x.1 x.2 := fun x hx => of_decide_eq_true (hc x hx)
  have hc' : ∀ x ∈ l', Clean x.1 x.2 := fun x hx => of_decide_eq_true (hc' x hx)
  have hl : l.length = 3 := by simpa using congrArg List.length hsq
  have hl' : l'.length = 3 := by simpa using congrArg List.length hsq'
  have hshort : l.length ≤ 2 ^ 24 := by omega
  have hshort' : l'.length ≤ 2 ^ 24 := by omega
  refine ⟨pos, pos', hpos, hpos', hsame, ?_⟩
  exact (hash_of_position ((Single.run_iff hshort).2 hr) ((Single.run_iff hshort').2 hr') hshort hshort' hc hc').1 hsame

/-- 1.e4 a5 2.Nf3 and 1.e3 a6 2.e4 a5 3.Nf3: the same position with two hashes, of which the first is not the one
computed from scratch. -/
theorem hash_of_position_fails :
    ∃ l pos l' pos', Run Single.Played Position.init l pos ∧ Run Single.Played Position.init l' pos' ∧
      l.map (fun x => (x.2.from, x.2.to)) = [(12, 28), (48, 32), (6, 21)] ∧
      l'.map (fun x => (x.2.from, x.2.to)) = [(12, 20), (48, 40), (20, 28), (40, 32), (6, 21)] ∧
      SamePosition pos pos' ∧ pos.enPassant = none ∧ pos.hash ≠ pos'.hash ∧
      pos.hash ≠ ZobristHash.ofPieces pos.pieces (pos.sideToMove = .black) pos.rights.wLCastling pos.rights.wSCastling
        pos.rights.bLCastling pos.rights.bSCastling := by
  have hend : (line [(12, 28), (48, 32), (6, 21)]).any (fun pos =>
      (line [(12, 20), (48, 40), (20, 28), (40, 32), (6, 21)]).any fun pos' => SamePosition pos pos' ∧
        pos.enPassant = none ∧ pos.hash ≠ pos'.hash ∧
        pos.hash ≠ ZobristHash.ofPieces pos.pieces (pos.sideToMove = .black) pos.rights.wLCastling pos.rights.wSCastling
          pos.rights.bLCastling pos.rights.bSCastling) = true := by decide +kernel
  obtain ⟨pos, hpos, hend⟩ := (Option.any_eq_true _ _).1 hend
  obtain ⟨pos', hpos', hend⟩ := (Option.any_eq_true _ _).1 hend
  obtain ⟨l, hr, hl⟩ := line_run hpos
  obtain ⟨l', hr', hl'⟩ := line_run hpos'
  have hr := Single.run_of_squares hr hl (by decide)
  have hr' := Single.run_of_squares hr' hl' (by decide)
  exact ⟨l, pos, l', pos', hr, hr', hl, hl', of_decide_eq_true hend⟩

end ChessGame
