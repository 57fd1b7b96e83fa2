import ChessGame.Move
/-!
# The rules of chess

What the engine is for, stated on boards and coordinates and independently of
the bitboards. `Attacked` is the attack relation of the rules. `Legal` takes
the attack relation as a parameter, so that the same rules can be read with
the attack relation of chess and with the engine's own attack test.
-/

namespace ChessGame

namespace Rules

/-! ## Geometry -/

def file (q : ℕ) : ℤ := (q % 8 : ℕ)

def rank (q : ℕ) : ℤ := (q / 8 : ℕ)

/-- The square on file `x` and rank `y`. -/
def square (x y : ℤ) : ℕ := (8 * y + x).toNat

/-- The distance between two squares in files. -/
def files (p q : ℕ) : ℕ := (file q - file p).natAbs

/-- The distance between two squares in ranks. -/
def ranks (p q : ℕ) : ℕ := (rank q - rank p).natAbs

/-- The direction in which the pawns of a side move. -/
def forward : PieceColor → ℤ
  | .white => 1
  | .black => -1

def startRank : PieceColor → ℤ
  | .white => 1
  | .black => 6

def lastRank : PieceColor → ℤ
  | .white => 7
  | .black => 0

def diagonals : List (ℤ × ℤ) := [(-1, 1), (1, 1), (-1, -1), (1, -1)]

def orthogonals : List (ℤ × ℤ) := [(0, 1), (0, -1), (-1, 0), (1, 0)]

/-! ## Attacks -/

def PawnAttacks (c : PieceColor) (p q : ℕ) : Prop := files p q = 1 ∧ rank q = rank p + forward c

def KnightAttacks (p q : ℕ) : Prop := (files p q = 2 ∧ ranks p q = 1) ∨ (files p q = 1 ∧ ranks p q = 2)

def KingAttacks (p q : ℕ) : Prop := files p q ≤ 1 ∧ ranks p q ≤ 1 ∧ p ≠ q

/-- `q` is `n` steps in the direction `d` from `p`, and every square strictly
between them is empty. -/
def OpenLine (b : Board) (d : ℤ × ℤ) (p q : ℕ) : Prop :=
  ∃ n : ℕ, n < 8 ∧ 0 < n ∧ file q = file p + n * d.1 ∧ rank q = rank p + n * d.2 ∧
    ∀ k : ℕ, k < n → 0 < k → b (square (file p + k * d.1) (rank p + k * d.2)) = none

/-- A piece of type `t` and colour `c` on `p` attacks `q`. -/
def Attacks (b : Board) (c : PieceColor) (t : PieceType) (p q : ℕ) : Prop :=
  match t with
  | .pawn => PawnAttacks c p q
  | .knight => KnightAttacks p q
  | .king => KingAttacks p q
  | .bishop => ∃ d ∈ diagonals, OpenLine b d p q
  | .rook => ∃ d ∈ orthogonals, OpenLine b d p q
  | .queen => ∃ d ∈ diagonals ++ orthogonals, OpenLine b d p q

def isSlider : PieceType → Bool
  | .bishop | .rook | .queen => true
  | _ => false

/-- Some piece of colour `c` attacks `q`. -/
def Attacked (b : Board) (q : ℕ) (c : PieceColor) : Prop :=
  ∃ p < 64, ∃ t ∈ PieceType.all, b p = some (c, t) ∧ Attacks b c t p q

/-- Some bishop, rook or queen of colour `c` attacks `q`. -/
def SliderAttacked (b : Board) (q : ℕ) (c : PieceColor) : Prop :=
  ∃ p < 64, ∃ t ∈ PieceType.all, isSlider t = true ∧ b p = some (c, t) ∧ Attacks b c t p q

/-- Some pawn, knight or king of colour `c` attacks `q`. -/
def LeaperAttacked (b : Board) (q : ℕ) (c : PieceColor) : Prop :=
  ∃ p < 64, ∃ t ∈ PieceType.all, isSlider t = false ∧ b p = some (c, t) ∧ Attacks b c t p q

theorem attacked_iff {b : Board} {q : ℕ} {c : PieceColor} :
    Attacked b q c ↔ LeaperAttacked b q c ∨ SliderAttacked b q c := by
  constructor
  · rintro ⟨p, hp, t, ht, hb, ha⟩
    cases hs : isSlider t with
    | true => exact .inr ⟨p, hp, t, ht, hs, hb, ha⟩
    | false => exact .inl ⟨p, hp, t, ht, hs, hb, ha⟩
  · rintro (⟨p, hp, t, ht, -, hb, ha⟩ | ⟨p, hp, t, ht, -, hb, ha⟩) <;> exact ⟨p, hp, t, ht, hb, ha⟩

instance (b : Board) (d : ℤ × ℤ) (p q : ℕ) : Decidable (OpenLine b d p q) := by
  unfold OpenLine; infer_instance

instance (b : Board) (c : PieceColor) (t : PieceType) (p q : ℕ) : Decidable (Attacks b c t p q) := by
  cases t <;> (simp only [Attacks, PawnAttacks, KnightAttacks, KingAttacks]; infer_instance)

instance (b : Board) (q : ℕ) (c : PieceColor) : Decidable (Attacked b q c) := by
  unfold Attacked; infer_instance

instance (b : Board) (q : ℕ) (c : PieceColor) : Decidable (SliderAttacked b q c) := by
  unfold SliderAttacked; infer_instance

/-! ## Moves -/

/-- What a move does on the board: a `Move` less its `defenderSide`. -/
structure Ply where
  «from» : ℕ
  «to» : ℕ
  attackerType : PieceType
  attackerSide : PieceColor
  defenderType : Option PieceType
  flag : Flag
  deriving DecidableEq, Repr

/-- The type of the piece that ends up on the target square. -/
def promoted : Flag → PieceType → PieceType
  | .promoteToKnight, _ => .knight
  | .promoteToBishop, _ => .bishop
  | .promoteToRook, _ => .rook
  | .promoteToQueen, _ => .queen
  | _, t => t

/-- The flags of a pawn move to `q`. -/
def PawnFlag (s : PieceColor) (q : ℕ) (f : Flag) : Prop :=
  (rank q = lastRank s ∧ f ∈ Flag.promotions) ∨ (rank q ≠ lastRank s ∧ f = .default)

/-- The moves of the pieces other than castling and en passant, before the
safety of the king is looked at. -/
inductive Plays (b : Board) (s : PieceColor) : Ply → Prop
  | push {p q : ℕ} {f : Flag} : b p = some (s, .pawn) → q < 64 → file q = file p → rank q = rank p + forward s →
      b q = none → PawnFlag s q f → Plays b s ⟨p, q, .pawn, s, none, f⟩
  | double {p r q : ℕ} : b p = some (s, .pawn) → rank p = startRank s → r < 64 → q < 64 →
      file r = file p → rank r = rank p + forward s → b r = none →
      file q = file p → rank q = rank r + forward s → b q = none → Plays b s ⟨p, q, .pawn, s, none, .pawnLongMove⟩
  | capture {p q : ℕ} {t : PieceType} {f : Flag} : b p = some (s, .pawn) → q < 64 → PawnAttacks s p q →
      b q = some (s.inverse, t) → PawnFlag s q f → Plays b s ⟨p, q, .pawn, s, some t, f⟩
  | piece {p q : ℕ} {t : PieceType} : b p = some (s, t) → t ≠ .pawn → q < 64 → Attacks b s t p q →
      (∀ t', b q ≠ some (s, t')) → Plays b s ⟨p, q, t, s, (b q).map Prod.snd, .default⟩

/-- One of the four castling moves. -/
structure Castling where
  side : PieceColor
  flag : Flag
  right : CastlingRights → Bool
  kingFrom : ℕ
  kingTo : ℕ
  rookFrom : ℕ
  rookTo : ℕ
  /-- The squares between the king and the rook. -/
  between : List ℕ

namespace Castling

def wShort : Castling := ⟨.white, .whiteShortCastling, (·.wSCastling), 4, 6, 7, 5, [5, 6]⟩
def wLong : Castling := ⟨.white, .whiteLongCastling, (·.wLCastling), 4, 2, 0, 3, [1, 2, 3]⟩
def bShort : Castling := ⟨.black, .blackShortCastling, (·.bSCastling), 60, 62, 63, 61, [61, 62]⟩
def bLong : Castling := ⟨.black, .blackLongCastling, (·.bLCastling), 60, 58, 56, 59, [57, 58, 59]⟩

def all : List Castling := [wShort, wLong, bShort, bLong]

theorem cases {k : Castling} (hk : k ∈ all) : k = wShort ∨ k = wLong ∨ k = bShort ∨ k = bLong := by
  simpa [all] using hk

/-- The king's start, transit and target squares. -/
def path (k : Castling) : List ℕ := [k.kingFrom, k.rookTo, k.kingTo]

def ply (k : Castling) : Ply := ⟨k.kingFrom, k.kingTo, .king, k.side, none, k.flag⟩

/-- King and rook stand on their home squares. -/
def AtHome (b : Board) (k : Castling) : Prop :=
  b k.kingFrom = some (k.side, .king) ∧ b k.rookFrom = some (k.side, .rook)

end Castling

/-- The board after a move. -/
def after (b : Board) (m : Ply) : Board := fun q =>
  if q = m.to then some (m.attackerSide, promoted m.flag m.attackerType)
  else if q = m.from then none
  else match Castling.all.find? (·.flag = m.flag) with
    | some k => if q = k.rookTo then some (k.side, .rook) else if q = k.rookFrom then none else b q
    | none =>
      -- The pawn taken en passant stands beside the capturing one.
      if m.flag = .enPassantCapture ∧ q = square (file m.to) (rank m.from) then none else b q

/-- An attack relation: the square `q` of the board is attacked by the side `c`. -/
abbrev AttackTest := Board → ℕ → PieceColor → Prop

section
variable (A : AttackTest) (b : Board) (s : PieceColor)

/-- The king of `s` is attacked. -/
def InCheck : Prop := ∃ k < 64, b k = some (s, .king) ∧ A b k s.inverse

instance [∀ b q c, Decidable (A b q c)] : Decidable (InCheck A b s) := by
  unfold InCheck; infer_instance

def Castles (rights : CastlingRights) (m : Ply) : Prop :=
  ∃ k ∈ Castling.all, k.side = s ∧ k.right rights = true ∧ k.AtHome b ∧ (∀ q ∈ k.between, b q = none) ∧
    (∀ q ∈ k.path, ¬ A b q s.inverse) ∧ m = k.ply

/-- A pawn captures on the square the last double push passed over. -/
def EnPassant (enPassant : Option ℕ) (m : Ply) : Prop :=
  ∃ p e, enPassant = some e ∧ b p = some (s, .pawn) ∧ PawnAttacks s p e ∧ b e = none ∧
    b (square (file e) (rank p)) = some (s.inverse, .pawn) ∧ m = ⟨p, e, .pawn, s, none, .enPassantCapture⟩

/-- Legal moves, en passant aside. -/
def LegalButEnPassant (rights : CastlingRights) (m : Ply) : Prop :=
  (Plays b s m ∧ ¬ InCheck A (after b m) s) ∨ Castles A b s rights m

def Legal (rights : CastlingRights) (enPassant : Option ℕ) (m : Ply) : Prop :=
  LegalButEnPassant A b s rights m ∨ (EnPassant b s enPassant m ∧ ¬ InCheck A (after b m) s)

end

end Rules

def Move.ply (m : Move) : Rules.Ply :=
  ⟨m.from, m.to, m.attackerType, m.attackerSide, m.defenderType, m.flag⟩

end ChessGame
