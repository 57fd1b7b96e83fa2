import ChessGame.Bitboard
/-!
# Pieces

`pieces.hpp`, `pieces.cpp`: twelve bitboards, one a colour and a piece type,
and the derived bitboards `update_bitboards` computes from them. A `Board` is
what the bitboards stand for, a square to what stands on it; `Valid` bitboards
and boards determine each other (`board_eq_some`, `eq_of_board`).
-/
open Scan

namespace ChessGame

open BitboardOps

inductive PieceType where
  | pawn | knight | bishop | rook | queen | king
  deriving DecidableEq, Repr

inductive PieceColor where
  | white | black
  deriving DecidableEq, Repr

def PieceColor.inverse : PieceColor → PieceColor
  | .white => .black
  | .black => .white

@[simp] theorem PieceColor.inverse_inverse (c : PieceColor) : c.inverse.inverse = c := by cases c <;> rfl

@[simp] theorem PieceColor.inverse_ne (c : PieceColor) : c.inverse ≠ c := by cases c <;> decide

@[simp] theorem PieceColor.ne_inverse (c : PieceColor) : c ≠ c.inverse := by cases c <;> decide

theorem PieceColor.eq_inverse_of_ne {c d : PieceColor} (h : c ≠ d) : c = d.inverse := by
  cases c <;> cases d <;> first | rfl | exact absurd rfl h

/-- The types in the order of their codes, in which the source loops over them. -/
def PieceType.all : List PieceType := [.pawn, .knight, .bishop, .rook, .queen, .king]

theorem PieceType.mem_all (t : PieceType) : t ∈ PieceType.all := by cases t <;> decide

/-- `std::array<T, 6>` indexed by piece type. -/
structure ByType (α : Type) where
  pawn : α
  knight : α
  bishop : α
  rook : α
  queen : α
  king : α
  deriving DecidableEq

/-- `std::array<T, 2>` indexed by colour. -/
structure ByColor (α : Type) where
  white : α
  black : α
  deriving DecidableEq

namespace ByType
variable {α : Type}

def get (a : ByType α) : PieceType → α
  | .pawn => a.pawn
  | .knight => a.knight
  | .bishop => a.bishop
  | .rook => a.rook
  | .queen => a.queen
  | .king => a.king

def set (a : ByType α) (t : PieceType) (x : α) : ByType α :=
  match t with
  | .pawn => { a with pawn := x }
  | .knight => { a with knight := x }
  | .bishop => { a with bishop := x }
  | .rook => { a with rook := x }
  | .queen => { a with queen := x }
  | .king => { a with king := x }

theorem get_set (a : ByType α) (t t' : PieceType) (x : α) :
    (a.set t x).get t' = if t' = t then x else a.get t' := by
  cases t <;> cases t' <;> rfl

theorem ext_get {a b : ByType α} (h : ∀ t, a.get t = b.get t) : a = b := by
  cases a; cases b
  simp only [mk.injEq]
  exact ⟨h .pawn, h .knight, h .bishop, h .rook, h .queen, h .king⟩

end ByType

namespace ByColor
variable {α : Type}

def get (a : ByColor α) : PieceColor → α
  | .white => a.white
  | .black => a.black

def set (a : ByColor α) (c : PieceColor) (x : α) : ByColor α :=
  match c with
  | .white => { a with white := x }
  | .black => { a with black := x }

theorem get_set (a : ByColor α) (c c' : PieceColor) (x : α) :
    (a.set c x).get c' = if c' = c then x else a.get c' := by
  cases c <;> cases c' <;> rfl

theorem ext_get {a b : ByColor α} (h : ∀ c, a.get c = b.get c) : a = b := by
  cases a; cases b
  simp only [mk.injEq]
  exact ⟨h .white, h .black⟩

end ByColor

structure Pieces where
  pieceBitboards : ByColor (ByType Bitboard)
  sideBitboards : ByColor Bitboard
  inversionSideBitboards : ByColor Bitboard
  all : Bitboard
  empty : Bitboard
  deriving DecidableEq

namespace Pieces

/-- `piece_bitboards[side][type]`. -/
def bb (p : Pieces) (side : PieceColor) (type : PieceType) : Bitboard := (p.pieceBitboards.get side).get type

/-- An assignment to `piece_bitboards[side][type]`. -/
def modify (p : Pieces) (side : PieceColor) (type : PieceType) (f : Bitboard → Bitboard) : Pieces :=
  { p with pieceBitboards :=
      p.pieceBitboards.set side ((p.pieceBitboards.get side).set type (f (p.bb side type))) }

/-- The union of the six bitboards of a side. -/
def sideUnion (p : Pieces) (side : PieceColor) : Bitboard :=
  p.bb side .pawn ||| p.bb side .knight ||| p.bb side .bishop ||| p.bb side .rook |||
    p.bb side .queen ||| p.bb side .king

def updateBitboards (p : Pieces) : Pieces :=
  let white := p.sideUnion .white
  let black := p.sideUnion .black
  { p with
    sideBitboards := ⟨white, black⟩
    inversionSideBitboards := ⟨~~~white, ~~~black⟩
    all := white ||| black
    empty := ~~~(white ||| black) }

/-- The first type whose bitboard of either side has the square, 255 (`none`) if there is none. -/
def pieceAt (p : Pieces) (square : ℕ) : Option PieceType :=
  match PieceType.all.find? (fun t => getBit (p.bb .white t) square) with
  | some t => some t
  | none => PieceType.all.find? (fun t => getBit (p.bb .black t) square)

def colorAt (p : Pieces) (square : ℕ) : Option PieceColor :=
  if getBit (p.sideBitboards.get .white) square then some .white
  else if getBit (p.sideBitboards.get .black) square then some .black
  else none

/-! ### The FEN constructor -/

def typeOfChar : Char → Option PieceType
  | 'p' => some .pawn
  | 'n' => some .knight
  | 'b' => some .bishop
  | 'r' => some .rook
  | 'q' => some .queen
  | 'k' => some .king
  | _ => none

def noPieces : Pieces :=
  let none := (⟨0, 0, 0, 0, 0, 0⟩ : ByType Bitboard)
  ⟨⟨none, none⟩, ⟨0, 0⟩, ⟨0, 0⟩, 0, 0⟩

/-- One character of the placement field; `x`, `y` and the square are `uint8_t`. -/
def fenStep (st : Pieces × ℕ × ℕ) (ch : Char) : Pieces × ℕ × ℕ :=
  let (p, x, y) := st
  if ch = '/' then (p, 0, (y + 255) % 256)
  else if ch.isDigit then (p, (x + (ch.toNat - '0'.toNat)) % 256, y)
  else
    let side := if ch.isUpper then PieceColor.white else PieceColor.black
    let square := (y * 8 + x) % 256
    let p := match typeOfChar ch.toLower with
      | some t => p.modify side t (set1 · square)
      | none => p
    (p, (x + 1) % 256, y)

def ofFen (fen : String) : Pieces :=
  (fen.toList.foldl fenStep (noPieces, 0, 7)).1.updateBitboards

/-! ### Reading the bitboards -/

@[simp] theorem bb_modify (p : Pieces) (c c' : PieceColor) (t t' : PieceType) (f : Bitboard → Bitboard) :
    (p.modify c t f).bb c' t' = if c' = c ∧ t' = t then f (p.bb c t) else p.bb c' t' := by
  simp only [modify, bb, ByColor.get_set]
  by_cases hc : c' = c
  · subst hc; simp [ByType.get_set]
  · simp [hc]

@[simp] theorem bb_updateBitboards (p : Pieces) (c : PieceColor) (t : PieceType) :
    p.updateBitboards.bb c t = p.bb c t := rfl

@[simp] theorem updateBitboards_updateBitboards (p : Pieces) :
    p.updateBitboards.updateBitboards = p.updateBitboards := rfl

theorem getLsbD_sideUnion (p : Pieces) (c : PieceColor) (q : ℕ) :
    (p.sideUnion c).getLsbD q = true ↔ ∃ t, (p.bb c t).getLsbD q = true := by
  simp only [sideUnion, BitVec.getLsbD_or, Bool.or_eq_true]
  constructor
  · rintro (((((h | h) | h) | h) | h) | h) <;> exact ⟨_, h⟩
  · rintro ⟨t, h⟩; cases t <;> simp [h]

/-- `update_bitboards` depends on the twelve bitboards only. -/
theorem updateBitboards_congr {p p' : Pieces} (h : ∀ c t, p.bb c t = p'.bb c t) :
    p.updateBitboards = p'.updateBitboards := by
  have hb : p.pieceBitboards = p'.pieceBitboards :=
    ByColor.ext_get fun c => ByType.ext_get fun t => h c t
  simp only [updateBitboards, sideUnion, bb, hb]

end Pieces

/-! ## Boards -/

/-- What stands on each square. -/
abbrev Board := ℕ → Option (PieceColor × PieceType)

namespace Pieces

/-- Pairwise disjoint bitboards with up-to-date derived bitboards. -/
structure Valid (p : Pieces) : Prop where
  disjoint : ∀ {q c t c' t'}, (p.bb c t).getLsbD q = true → (p.bb c' t').getLsbD q = true → c = c' ∧ t = t'
  derived : p.updateBitboards = p

/-- The board the bitboards stand for. -/
def board (p : Pieces) : Board := fun q =>
  match p.colorAt q, p.pieceAt q with
  | some c, some t => some (c, t)
  | _, _ => none

variable {p p' : Pieces}

theorem Valid.side_eq (h : p.Valid) (c : PieceColor) : p.sideBitboards.get c = p.sideUnion c := by
  conv_lhs => rw [← h.derived]
  cases c <;> rfl

theorem Valid.inversion_eq (h : p.Valid) (c : PieceColor) :
    p.inversionSideBitboards.get c = ~~~p.sideUnion c := by
  conv_lhs => rw [← h.derived]
  cases c <;> rfl

theorem Valid.all_eq (h : p.Valid) : p.all = p.sideUnion .white ||| p.sideUnion .black := by
  conv_lhs => rw [← h.derived]
  rfl

theorem Valid.empty_eq (h : p.Valid) : p.empty = ~~~p.all := by
  rw [h.all_eq]
  conv_lhs => rw [← h.derived]
  rfl

theorem find_type {f : PieceType → Bool} {t : PieceType} (ht : f t = true) (hu : ∀ t', f t' = true → t' = t) :
    PieceType.all.find? f = some t := by
  cases hf : PieceType.all.find? f with
  | none => exact absurd ht (by simpa using List.find?_eq_none.1 hf t (PieceType.mem_all t))
  | some t' => rw [hu t' (List.find?_some hf)]

theorem find_type_none {f : PieceType → Bool} (h : ∀ t, f t = false) : PieceType.all.find? f = none :=
  List.find?_eq_none.2 fun t _ => by simp [h t]

/-- The type loops of the source find the type of the piece on a square. -/
theorem Valid.find_eq (h : p.Valid) {c : PieceColor} {t : PieceType} {q : ℕ} (hq : (p.bb c t).getLsbD q = true) :
    PieceType.all.find? (fun t => getBit (p.bb c t) q) = some t :=
  find_type (by simpa using hq) fun _ ht' => (h.disjoint (by simpa using ht') hq).2

theorem Valid.colorAt_eq (h : p.Valid) {c : PieceColor} {t : PieceType} {q : ℕ}
    (hq : (p.bb c t).getLsbD q = true) : p.colorAt q = some c := by
  have hs : ∀ c', (p.sideUnion c').getLsbD q = true ↔ c' = c := by
    intro c'
    rw [getLsbD_sideUnion]
    constructor
    · rintro ⟨t', ht'⟩; exact (h.disjoint ht' hq).1
    · rintro rfl; exact ⟨t, hq⟩
  simp only [colorAt, getBit_eq, h.side_eq, hs]
  cases c <;> simp

theorem Valid.pieceAt_eq (h : p.Valid) {c : PieceColor} {t : PieceType} {q : ℕ}
    (hq : (p.bb c t).getLsbD q = true) : p.pieceAt q = some t := by
  unfold pieceAt
  cases c with
  | white => rw [h.find_eq hq]
  | black =>
    rw [find_type_none, h.find_eq hq]
    intro t'
    cases ht' : (p.bb .white t').getLsbD q with
    | false => simp [ht']
    | true => exact absurd (h.disjoint ht' hq).1 (by decide)

theorem Valid.board_eq_some (h : p.Valid) {q : ℕ} {c : PieceColor} {t : PieceType} :
    p.board q = some (c, t) ↔ (p.bb c t).getLsbD q = true := by
  constructor
  · intro hb
    have hc : ∃ c', p.colorAt q = some c' := by
      cases hc : p.colorAt q with
      | none => simp [board, hc] at hb
      | some c' => exact ⟨c', rfl⟩
    obtain ⟨c', hc'⟩ := hc
    have hex : ∃ t', (p.bb c' t').getLsbD q = true := by
      rw [← getLsbD_sideUnion, ← h.side_eq]
      unfold colorAt at hc'
      split at hc'
      · rename_i hw; cases hc'; simpa using hw
      · split at hc'
        · rename_i hw; cases hc'; simpa using hw
        · cases hc'
    obtain ⟨t', ht'⟩ := hex
    simp only [board, h.colorAt_eq ht', h.pieceAt_eq ht', Option.some.injEq, Prod.mk.injEq] at hb
    obtain ⟨rfl, rfl⟩ := hb
    exact ht'
  · intro hq
    simp only [board, h.colorAt_eq hq, h.pieceAt_eq hq]

theorem Valid.board_eq_none (h : p.Valid) {q : ℕ} :
    p.board q = none ↔ ∀ c t, (p.bb c t).getLsbD q = false := by
  constructor
  · intro hb c t
    by_contra hq
    rw [(h.board_eq_some).2 (by simpa using hq)] at hb
    cases hb
  · intro hq
    cases hb : p.board q with
    | none => rfl
    | some ct => exact absurd ((h.board_eq_some).1 hb) (by simp [hq])

theorem Valid.lt_of_board (h : p.Valid) {q : ℕ} {ct : PieceColor × PieceType} (hb : p.board q = some ct) :
    q < 64 :=
  BitVec.lt_of_getLsbD ((h.board_eq_some (c := ct.1) (t := ct.2)).1 hb)

theorem Valid.board_ge (h : p.Valid) {q : ℕ} (hq : 64 ≤ q) : p.board q = none := by
  cases hb : p.board q with
  | none => rfl
  | some ct => exact absurd (h.lt_of_board hb) (by omega)

theorem Valid.side_bit (h : p.Valid) {q : ℕ} {c : PieceColor} :
    (p.sideBitboards.get c).getLsbD q = true ↔ ∃ t, p.board q = some (c, t) := by
  rw [h.side_eq, getLsbD_sideUnion]
  exact exists_congr fun t => (h.board_eq_some).symm

theorem Valid.inversion_bit (h : p.Valid) {q : ℕ} {c : PieceColor} (hq : q < 64) :
    (p.inversionSideBitboards.get c).getLsbD q = true ↔ ∀ t, p.board q ≠ some (c, t) := by
  have := h.side_bit (q := q) (c := c)
  rw [h.side_eq] at this
  rw [h.inversion_eq, BitVec.getLsbD_not]
  simp only [hq, decide_true, Bool.true_and, Bool.not_eq_true']
  rw [← Bool.not_eq_true, this]
  simp

theorem Valid.all_bit (h : p.Valid) {q : ℕ} : p.all.getLsbD q = true ↔ p.board q ≠ none := by
  rw [h.all_eq, BitVec.getLsbD_or, Bool.or_eq_true, getLsbD_sideUnion, getLsbD_sideUnion, ne_eq, h.board_eq_none]
  constructor
  · rintro (⟨t, ht⟩ | ⟨t, ht⟩) hn <;> simp [hn] at ht
  · intro hn
    by_contra hc
    apply hn
    intro c t
    by_contra ht
    cases c
    · exact hc (.inl ⟨t, by simpa using ht⟩)
    · exact hc (.inr ⟨t, by simpa using ht⟩)

theorem Valid.empty_bit (h : p.Valid) {q : ℕ} (hq : q < 64) : p.empty.getLsbD q = true ↔ p.board q = none := by
  rw [h.empty_eq, BitVec.getLsbD_not]
  simp only [hq, decide_true, Bool.true_and, Bool.not_eq_true']
  rw [← Bool.not_eq_true, h.all_bit, not_not]

/-- Valid bitboards that stand for the same board are the same. -/
theorem Valid.eq_of_board (h : p.Valid) (h' : p'.Valid) (hb : ∀ q, p.board q = p'.board q) : p = p' := by
  rw [← h.derived, ← h'.derived]
  apply updateBitboards_congr
  intro c t
  apply BitVec.eq_of_getLsbD_eq
  intro q _
  rw [Bool.eq_iff_iff, ← h.board_eq_some, ← h'.board_eq_some, hb]

/-! ### From boards to bitboards -/

/-- The bitboards of a board. -/
def ofBoard (b : Board) : Pieces :=
  let squares (c : PieceColor) (t : PieceType) : Bitboard :=
    collect 0#64 ((List.range 64).filter (fun q => b q = some (c, t)))
  let side (c : PieceColor) : ByType Bitboard :=
    ⟨squares c .pawn, squares c .knight, squares c .bishop, squares c .rook, squares c .queen, squares c .king⟩
  { noPieces with pieceBitboards := ⟨side .white, side .black⟩ }.updateBitboards

theorem getLsbD_ofBoard (b : Board) (c : PieceColor) (t : PieceType) (q : ℕ) :
    ((ofBoard b).bb c t).getLsbD q = decide (q < 64 ∧ b q = some (c, t)) := by
  have hsq : (collect 0#64 ((List.range 64).filter (fun q => b q = some (c, t)))).getLsbD q =
      decide (q < 64 ∧ b q = some (c, t)) := by
    rw [getLsbD_collect]
    by_cases hq : q < 64 <;> simp [hq]
  rw [← hsq]
  cases c <;> cases t <;> rfl

theorem ofBoard_valid (b : Board) : (ofBoard b).Valid where
  disjoint {q c t c' t'} h h' := by
    simp only [getLsbD_ofBoard, decide_eq_true_eq] at h h'
    simpa using h.2.symm.trans h'.2
  derived := rfl

theorem board_ofBoard (b : Board) {q : ℕ} (hq : q < 64) : (ofBoard b).board q = b q := by
  cases hb : b q with
  | none =>
    rw [(ofBoard_valid b).board_eq_none]
    intro c t
    simp [getLsbD_ofBoard, hb]
  | some ct =>
    rw [(ofBoard_valid b).board_eq_some (c := ct.1) (t := ct.2)]
    simp [getLsbD_ofBoard, hb, hq]

theorem Valid.ofBoard_board (h : p.Valid) : ofBoard p.board = p := by
  refine (ofBoard_valid _).eq_of_board h fun q => ?_
  by_cases hq : q < 64
  · exact board_ofBoard _ hq
  · rw [(ofBoard_valid _).board_ge (by omega), h.board_ge (by omega)]

/-- The bitboards with the given bits, square by square. -/
theorem valid_of_bits {p : Pieces} {b : Board} (hd : p.updateBitboards = p)
    (hb : ∀ c t q, (p.bb c t).getLsbD q = true ↔ q < 64 ∧ b q = some (c, t)) :
    p.Valid ∧ ∀ q < 64, p.board q = b q := by
  have hp : p = ofBoard b := by
    rw [← hd, ← (ofBoard_valid b).derived]
    apply updateBitboards_congr
    intro c t
    apply BitVec.eq_of_getLsbD_eq
    intro q _
    rw [Bool.eq_iff_iff, hb, getLsbD_ofBoard, decide_eq_true_eq]
  rw [hp]
  exact ⟨ofBoard_valid b, fun q hq => board_ofBoard b hq⟩

end Pieces

end ChessGame
