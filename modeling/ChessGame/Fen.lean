import ChessGame.Lib.Gaps
import ChessGame.Play
/-!
# The placement field

`get_fen` writes the board, and two readers take it up: the constructor of `Pieces`
and the console client's `update_board_from_fen`. Both read the cells that were
written, each with its own cursor.
-/
open Gaps

namespace ChessGame

open BitboardOps Position

/-! ## The console client's board -/

/-- `std::array<std::array<std::string, 8>, 8>`: row, column. -/
abbrev ConsoleBoard := Fin 8 → Fin 8 → String

namespace ConsoleBoard

/-- What is drawn for a character of the placement field. -/
def glyphOf : Char → String
  | 'P' => "♙"
  | 'N' => "♘"
  | 'B' => "♗"
  | 'R' => "♖"
  | 'Q' => "♕"
  | 'K' => "♔"
  | 'p' => "♟"
  | 'n' => "♞"
  | 'b' => "♝"
  | 'r' => "♜"
  | 'q' => "♛"
  | 'k' => "♚"
  | _ => "·"

/-- `board[y][x] = mark; x++;`, undefined (`none`) outside of the board. -/
def place (mark : String) (st : ConsoleBoard × ℤ × ℤ) : Option (ConsoleBoard × ℤ × ℤ) :=
  let (board, y, x) := st
  if 0 ≤ y ∧ y < 8 ∧ 0 ≤ x ∧ x < 8 then
    some (fun y' x' => if (y' : ℤ) = y ∧ (x' : ℤ) = x then mark else board y' x', y, x + 1)
  else none

/-- One character of the placement field. -/
def step (st : Option (ConsoleBoard × ℤ × ℤ)) (ch : Char) : Option (ConsoleBoard × ℤ × ℤ) :=
  if ch = '/' then st.map fun (board, y, _) => (board, y - 1, 0)
  else if ch.isDigit then (fun st => st.bind (place "·"))^[ch.toNat - '0'.toNat] st
  else st.bind (place (glyphOf ch))

end ConsoleBoard

/-- `fen.substr(0, fen.find(' '))`, the whole text if it has no space. -/
def placement (fen : String) : String := String.ofList (fen.toList.takeWhile (· ≠ ' '))

/-- `update_board_from_fen`. -/
def updateBoardFromFen (board : ConsoleBoard) (fen : String) : Option ConsoleBoard :=
  ((placement fen).toList.foldl ConsoleBoard.step (some (board, 7, 0))).map Prod.fst

/-- What a piece looks like on the console, white's hollow and black's filled in. -/
def glyph : PieceColor → PieceType → String
  | .white, .pawn => "♙"
  | .white, .knight => "♘"
  | .white, .bishop => "♗"
  | .white, .rook => "♖"
  | .white, .queen => "♕"
  | .white, .king => "♔"
  | .black, .pawn => "♟"
  | .black, .knight => "♞"
  | .black, .bishop => "♝"
  | .black, .rook => "♜"
  | .black, .queen => "♛"
  | .black, .king => "♚"

/-- What a cell looks like. -/
def mark : Option (PieceColor × PieceType) → String
  | none => "·"
  | some (c, t) => glyph c t

theorem mark_empty {x : Option (PieceColor × PieceType)} : mark x = "·" ↔ x = none := by
  rcases x with _ | ⟨c, t⟩
  · simp [mark]
  · cases c <;> cases t <;> decide

/-! ## What is written -/

variable {p : Pieces} {pos : Position}

/-- The characters of a token. -/
def tokenChars : Token (PieceColor × PieceType) → List Char
  | .gap n => (toString n).toList
  | .item (c, t) => [pieceChar c t]

/-- A row of the board, from the file a. -/
def rowCells (b : Board) (y : ℕ) : List (Option (PieceColor × PieceType)) := (List.range 8).map fun x => b (y * 8 + x)

def rowChars (b : Board) (y : ℕ) : List Char :=
  (encode (rowCells b y)).flatMap tokenChars ++ if y > 0 then ['/'] else []

/-- The text before a row, and what the loop has written of the row. -/
def rowText (fen : String) (st : List (Token (PieceColor × PieceType)) × ℕ) : String × ℕ :=
  (fen ++ String.ofList (st.1.flatMap tokenChars), st.2)

theorem colorAt_none (h : p.Valid) {q : ℕ} (hb : p.board q = none) : p.colorAt q = none := by
  have hside : ∀ c, (p.sideUnion c).getLsbD q = false := by
    intro c
    rw [← Bool.not_eq_true, Pieces.getLsbD_sideUnion]
    rintro ⟨t, ht⟩
    rw [h.board_eq_none.1 hb c t] at ht
    cases ht
  simp [Pieces.colorAt, h.side_eq, hside]

theorem flush_text (fen : String) (gap : ℕ) :
    (if gap > 0 then fen ++ toString gap else fen) = fen ++ String.ofList ((flush gap).flatMap tokenChars) := by
  unfold flush
  split
  · rw [List.flatMap_singleton, tokenChars, String.ofList_toList]
  · simp

theorem fenSquare_write (h : p.Valid) (fen : String) (st : List (Token (PieceColor × PieceType)) × ℕ) (q : ℕ) :
    fenSquare p (rowText fen st) q = rowText fen (write st (p.board q)) := by
  obtain ⟨out, gap⟩ := st
  cases hb : p.board q with
  | none =>
    have hc := colorAt_none h hb
    simp [fenSquare, hc, rowText, write]
  | some ct =>
    obtain ⟨c, t⟩ := ct
    have hbit := h.board_eq_some.1 hb
    have hfen : (fenSquare p (rowText fen (out, gap)) q).1 =
        (if gap > 0 then fen ++ String.ofList (out.flatMap tokenChars) ++ toString gap
          else fen ++ String.ofList (out.flatMap tokenChars)).push (pieceChar c t) := by
      simp only [fenSquare, h.colorAt_eq hbit, h.pieceAt_eq hbit]
      rfl
    have hempty : (fenSquare p (rowText fen (out, gap)) q).2 = 0 := by
      simp only [fenSquare, h.colorAt_eq hbit]
    refine Prod.ext ?_ hempty
    rw [hfen, flush_text]
    apply String.toList_inj.1
    simp [rowText, write, tokenChars]

theorem fenRow_eq (h : p.Valid) (fen : String) (y : ℕ) :
    fenRow p fen y = fen ++ String.ofList (rowChars p.board y) := by
  have hrow : (List.range 8).foldl (fun st x => fenSquare p st (y * 8 + x)) (fen, 0) =
      rowText fen ((rowCells p.board y).foldl write ([], 0)) := by
    have hstart : (fen, 0) = rowText fen (([], 0) : List (Token (PieceColor × PieceType)) × ℕ) := by simp [rowText]
    rw [hstart, rowCells, List.foldl_map]
    refine List.foldl_hom (rowText fen) fun st x => ?_
    exact fenSquare_write h fen st (y * 8 + x)
  unfold fenRow
  rw [hrow]
  unfold rowChars encode
  generalize (rowCells p.board y).foldl write ([], 0) = st
  obtain ⟨out, gap⟩ := st
  show (if y > 0 then (if gap > 0 then fen ++ String.ofList (out.flatMap tokenChars) ++ toString gap
      else fen ++ String.ofList (out.flatMap tokenChars)).push '/' else
      if gap > 0 then fen ++ String.ofList (out.flatMap tokenChars) ++ toString gap
      else fen ++ String.ofList (out.flatMap tokenChars)) = _
  rw [flush_text]
  apply String.toList_inj.1
  split <;> simp

/-- The rows of the board from row `n - 1` down. -/
def rowsChars (b : Board) (n : ℕ) : List Char := (List.range n).reverse.flatMap (rowChars b)

theorem foldl_fenRow (h : p.Valid) (rows : List ℕ) (fen : String) :
    rows.foldl (fenRow p) fen = fen ++ String.ofList (rows.flatMap (rowChars p.board)) := by
  induction rows generalizing fen with
  | nil => simp
  | cons y rows ih =>
    rw [List.foldl_cons, ih, fenRow_eq h, List.flatMap_cons, String.ofList_append, String.append_assoc]

/-- The FEN is the board's rows, a space and the rest. -/
theorem getFen_eq (h : pos.pieces.Valid) :
    ∃ rest : String, pos.getFen = String.ofList (rowsChars pos.pieces.board 8) ++ " " ++ rest := by
  unfold getFen
  dsimp only
  rw [foldl_fenRow h, String.empty_append]
  simp only [String.append_assoc]
  exact ⟨_, rfl⟩

/-! ## What a reader reads -/

/-- The squares before the cursor: higher rows, and the row of the cursor up to its column. -/
def Passed (y x q : ℕ) : Prop := y < q / 8 ∨ (q / 8 = y ∧ q % 8 < x)

instance (y x q : ℕ) : Decidable (Passed y x q) := by unfold Passed; infer_instance

theorem passed_cell {y x q : ℕ} (hx : x < 8) : Passed y (x + 1) q ↔ Passed y x q ∨ q = y * 8 + x := by
  unfold Passed
  omega

theorem passed_row {y q : ℕ} : Passed y 0 q ↔ Passed (y + 1) 8 q := by
  unfold Passed
  omega

theorem not_passed_start {q : ℕ} (hq : q < 64) : ¬ Passed 7 0 q := by
  unfold Passed
  omega

theorem passed_end (q : ℕ) : Passed 0 8 q := by
  unfold Passed
  omega

theorem digit_chars {n : ℕ} (hpos : 0 < n) (hle : n ≤ 8) : (toString n).toList = [Char.ofNat (48 + n)] := by
  interval_cases n <;> decide

/-- A token that stands in a row. -/
def Short : Token (PieceColor × PieceType) → Prop
  | .gap n => 0 < n ∧ n ≤ 8
  | .item _ => True

section
variable {σ : Type} {b : Board} {r : Reader σ (PieceColor × PieceType)} {step : σ → Char → σ}

/-- The row, read by its characters and by its cells. -/
theorem read_row (htoken : ∀ st k, Short k → (tokenChars k).foldl step st = r.read st k) (y : ℕ) (st : σ) :
    ((encode (rowCells b y)).flatMap tokenChars).foldl step st = (rowCells b y).foldl r.cell st := by
  rw [List.foldl_flatMap, ← r.read_encode]
  refine List.foldl_ext _ _ _ fun st k hk => htoken st k ?_
  cases k with
  | gap n => simpa [rowCells, Short] using gap_of_encode hk
  | item ct => trivial

theorem read_cells (P : σ → ℕ → ℕ → Prop)
    (hcell : ∀ st y x, y < 8 → x < 8 → P st y x → P (r.cell st (b (y * 8 + x))) y (x + 1)) {y : ℕ} (hy : y < 8)
    {st : σ} (h : P st y 0) : P ((rowCells b y).foldl r.cell st) y 8 := by
  have hupto : ∀ x ≤ 8, P (((List.range x).map fun x => b (y * 8 + x)).foldl r.cell st) y x := by
    intro x hx
    induction x with
    | zero => exact h
    | succ x ih =>
      rw [List.range_succ, List.map_append, List.map_singleton, List.foldl_concat]
      exact hcell _ y x hy hx (ih (by omega))
  exact hupto 8 (le_refl 8)

theorem rowsChars_succ (b : Board) (n : ℕ) : rowsChars b (n + 1) = rowChars b n ++ rowsChars b n := by
  simp [rowsChars, List.range_succ]

/-- What holds of the state as the cursor passes the cells and the ends of the rows holds after the last cell. -/
theorem read_rows (P : σ → ℕ → ℕ → Prop) (htoken : ∀ st k, Short k → (tokenChars k).foldl step st = r.read st k)
    (hcell : ∀ st y x, y < 8 → x < 8 → P st y x → P (r.cell st (b (y * 8 + x))) y (x + 1))
    (hslash : ∀ st y, y < 7 → P st (y + 1) 8 → P (step st '/') y 0) {n : ℕ} (hn : n < 8) {st : σ} (h : P st n 0) :
    P ((rowsChars b (n + 1)).foldl step st) 0 8 := by
  induction n generalizing st with
  | zero =>
    rw [rowsChars_succ, List.foldl_append, rowChars, if_neg (lt_irrefl 0), List.append_nil, read_row htoken]
    exact read_cells P hcell hn h
  | succ n ih =>
    rw [rowsChars_succ, List.foldl_append, rowChars, if_pos (Nat.succ_pos n), List.foldl_concat, read_row htoken]
    apply ih (by omega)
    apply hslash _ n (by omega)
    exact read_cells P hcell hn h

end

/-! ## The constructor of `Pieces` -/

/-- Gaps and pieces as the constructor takes them. -/
def piecesReader : Reader (Pieces × ℕ × ℕ) (PieceColor × PieceType) where
  skip n st := (st.1, (st.2.1 + n) % 256, st.2.2)
  put ct st := (st.1.modify ct.1 ct.2 (set1 · ((st.2.2 * 8 + st.2.1) % 256)), (st.2.1 + 1) % 256, st.2.2)
  skip_skip m n st := by
    dsimp only
    rw [Nat.mod_add_mod, Nat.add_assoc]

theorem fenStep_token (st : Pieces × ℕ × ℕ) (k : Token (PieceColor × PieceType)) (h : Short k) :
    (tokenChars k).foldl Pieces.fenStep st = piecesReader.read st k := by
  cases k with
  | gap n =>
    rw [tokenChars, digit_chars h.1 h.2, List.foldl_cons, List.foldl_nil]
    obtain ⟨hpos, hle⟩ := h
    interval_cases n <;> rfl
  | item ct =>
    obtain ⟨c, t⟩ := ct
    cases c <;> cases t <;> rfl

/-- The pieces on the passed squares are set. -/
def PiecesRead (b : Board) (st : Pieces × ℕ × ℕ) (y x : ℕ) : Prop :=
  st.2 = (x, y) ∧ ∀ c t q, q < 64 → ((st.1.bb c t).getLsbD q = true ↔ Passed y x q ∧ b q = some (c, t))

theorem piecesRead_cell {b : Board} {st : Pieces × ℕ × ℕ} {y x : ℕ} (hy : y < 8) (hx : x < 8)
    (h : PiecesRead b st y x) :
    PiecesRead b (piecesReader.cell st (b (y * 8 + x))) y (x + 1) := by
  obtain ⟨p, st⟩ := st
  obtain ⟨rfl, hbits⟩ := h
  have hx' : (x + 1) % 256 = x + 1 := Nat.mod_eq_of_lt (by omega)
  have hsquare : (y * 8 + x) % 256 = y * 8 + x := Nat.mod_eq_of_lt (by omega)
  cases hcell : b (y * 8 + x) with
  | none =>
    refine ⟨by rw [Reader.cell, piecesReader]; dsimp only; rw [hx'], fun c t q hq => ?_⟩
    refine (hbits c t q hq).trans (and_congr_left fun hb => ?_)
    rw [passed_cell hx, or_iff_left]
    rintro rfl
    rw [hcell] at hb
    cases hb
  | some ct =>
    obtain ⟨c, t⟩ := ct
    refine ⟨by rw [Reader.cell, piecesReader]; dsimp only; rw [hx'], fun c' t' q hq => ?_⟩
    rw [passed_cell hx, or_and_right, ← hbits c' t' q hq]
    show ((p.modify c t (set1 · ((y * 8 + x) % 256))).bb c' t').getLsbD q = true ↔ _
    rw [hsquare, Pieces.bb_modify]
    by_cases hct : c' = c ∧ t' = t
    · obtain ⟨rfl, rfl⟩ := hct
      rw [if_pos ⟨rfl, rfl⟩, getLsbD_set1, Bool.or_eq_true, decide_eq_true_eq]
      refine or_congr_right ⟨fun h => ⟨h.1, h.1 ▸ hcell⟩, fun h => ⟨h.1, hq⟩⟩
    · rw [if_neg hct, or_iff_left]
      rintro ⟨rfl, hb⟩
      rw [hcell] at hb
      cases hb
      exact hct ⟨rfl, rfl⟩

theorem piecesRead_slash {b : Board} {st : Pieces × ℕ × ℕ} {y : ℕ} (hy : y < 7) (h : PiecesRead b st (y + 1) 8) :
    PiecesRead b (Pieces.fenStep st '/') y 0 := by
  obtain ⟨p, st⟩ := st
  obtain ⟨rfl, hbits⟩ := h
  have hrow : (y + 1 + 255) % 256 = y := by omega
  constructor
  · show (0, (y + 1 + 255) % 256) = (0, y)
    rw [hrow]
  · intro c t q hq
    rw [passed_row]
    exact hbits c t q hq

/-- The constructor rebuilds the pieces. -/
theorem ofFen_rows (h : p.Valid) : Pieces.ofFen (String.ofList (rowsChars p.board 8)) = p := by
  have hstart : PiecesRead p.board (Pieces.noPieces, 0, 7) 7 0 := by
    refine ⟨rfl, fun c t q hq => ⟨fun hbit => ?_, fun hpassed => absurd hpassed.1 (not_passed_start hq)⟩⟩
    cases c <;> cases t <;> simp [Pieces.noPieces, Pieces.bb, ByColor.get, ByType.get] at hbit
  have hread := read_rows (PiecesRead p.board) fenStep_token (fun _ _ _ => piecesRead_cell)
    (fun _ _ => piecesRead_slash) (by decide) hstart
  unfold Pieces.ofFen
  rw [String.toList_ofList]
  generalize (rowsChars p.board 8).foldl Pieces.fenStep (Pieces.noPieces, 0, 7) = st at hread
  rw [← h.derived]
  apply Pieces.updateBitboards_congr
  intro c t
  apply BitVec.eq_of_getLsbD_eq
  intro q hq
  rw [Bool.eq_iff_iff, hread.2 c t q hq, and_iff_right (passed_end q), h.board_eq_some]

/-! ## The console's reader -/

open ConsoleBoard

/-- Gaps and pieces as the console takes them. -/
def consoleReader : Reader (Option (ConsoleBoard × ℤ × ℤ)) (PieceColor × PieceType) where
  skip n := (fun st => st.bind (place "·"))^[n]
  put ct st := st.bind (place (glyph ct.1 ct.2))
  skip_skip m n st := by rw [Nat.add_comm m n, Function.iterate_add_apply]

theorem consoleReader_cell (st : Option (ConsoleBoard × ℤ × ℤ)) (x : Option (PieceColor × PieceType)) :
    consoleReader.cell st x = st.bind (place (mark x)) := by
  cases x <;> rfl

theorem step_token (st : Option (ConsoleBoard × ℤ × ℤ)) (k : Token (PieceColor × PieceType)) (h : Short k) :
    (tokenChars k).foldl ConsoleBoard.step st = consoleReader.read st k := by
  cases k with
  | gap n =>
    rw [tokenChars, digit_chars h.1 h.2, List.foldl_cons, List.foldl_nil]
    obtain ⟨hpos, hle⟩ := h
    interval_cases n <;> rfl
  | item ct =>
    obtain ⟨c, t⟩ := ct
    cases c <;> cases t <;> rfl

/-- The passed squares show the board, the others what they showed before. -/
def ConsoleRead (b : Board) (before : ConsoleBoard) (st : Option (ConsoleBoard × ℤ × ℤ)) (y x : ℕ) : Prop :=
  ∃ board, st = some (board, (y : ℤ), (x : ℤ)) ∧ ∀ y' x' : Fin 8,
    board y' x' = if Passed y x (8 * y' + x') then mark (b (8 * y' + x')) else before y' x'

theorem consoleRead_cell {b : Board} {before : ConsoleBoard} {st : Option (ConsoleBoard × ℤ × ℤ)} {y x : ℕ} (hy : y < 8)
    (hx : x < 8) (h : ConsoleRead b before st y x) :
    ConsoleRead b before (consoleReader.cell st (b (y * 8 + x))) y (x + 1) := by
  obtain ⟨board, rfl, hshown⟩ := h
  rw [consoleReader_cell, Option.bind_some, place, if_pos (by omega)]
  refine ⟨_, rfl, fun y' x' => ?_⟩
  have hsame : ((y' : ℤ) = y ∧ (x' : ℤ) = x) ↔ 8 * (y' : ℕ) + x' = y * 8 + x := by omega
  rw [hshown, if_congr hsame rfl rfl, if_congr (passed_cell hx) rfl rfl]
  by_cases hq : 8 * (y' : ℕ) + x' = y * 8 + x
  · rw [if_pos hq, if_pos (.inr hq), hq]
  · rw [if_neg hq, if_congr (or_iff_left hq) rfl rfl]

theorem consoleRead_slash {b : Board} {before : ConsoleBoard} {st : Option (ConsoleBoard × ℤ × ℤ)} {y : ℕ}
    (h : ConsoleRead b before st (y + 1) 8) : ConsoleRead b before (ConsoleBoard.step st '/') y 0 := by
  obtain ⟨board, rfl, hshown⟩ := h
  refine ⟨board, ?_, fun y' x' => ?_⟩
  · rw [ConsoleBoard.step, if_pos rfl, Option.map_some]
    simp
  · rw [hshown, if_congr passed_row rfl rfl]

/-! ## Both readers of one FEN -/

/-- No space in the rows. -/
theorem rows_no_space (b : Board) : ∀ ch ∈ rowsChars b 8, ch ≠ ' ' := by
  intro ch hch
  obtain ⟨y, -, hch⟩ := List.mem_flatMap.1 hch
  unfold rowChars at hch
  obtain hch | hch := List.mem_append.1 hch
  · obtain ⟨k, hk, hch⟩ := List.mem_flatMap.1 hch
    cases k with
    | gap n =>
      have hn : 0 < n ∧ n ≤ 8 := by simpa [rowCells] using gap_of_encode hk
      rw [tokenChars, digit_chars hn.1 hn.2, List.mem_singleton] at hch
      obtain ⟨hpos, hle⟩ := hn
      interval_cases n <;> rw [hch] <;> decide
    | item ct =>
      obtain ⟨c, t⟩ := ct
      rw [tokenChars, List.mem_singleton] at hch
      cases c <;> cases t <;> rw [hch] <;> decide
  · split at hch
    · rw [List.mem_singleton.1 hch]
      decide
    · cases hch

theorem placement_getFen (h : pos.pieces.Valid) :
    placement pos.getFen = String.ofList (rowsChars pos.pieces.board 8) := by
  obtain ⟨rest, hfen⟩ := getFen_eq h
  have hlist : pos.getFen.toList = rowsChars pos.pieces.board 8 ++ ' ' :: rest.toList := by simp [hfen]
  rw [placement, hlist, List.takeWhile_append_of_pos fun ch hch => decide_eq_true (rows_no_space _ ch hch)]
  simp

theorem updateBoardFromFen_getFen (h : pos.pieces.Valid) (before : ConsoleBoard) :
    ∃ board, updateBoardFromFen before pos.getFen = some board ∧
      ∀ y x : Fin 8, board y x = mark (pos.pieces.board (8 * y + x)) := by
  have hstart : ConsoleRead pos.pieces.board before (some (before, 7, 0)) 7 0 :=
    ⟨before, rfl, fun y x => by rw [if_neg (not_passed_start (by omega))]⟩
  obtain ⟨board, hboard, hshown⟩ := read_rows (ConsoleRead pos.pieces.board before) step_token
    (fun _ _ _ => consoleRead_cell) (fun _ _ _ => consoleRead_slash) (by decide) hstart
  refine ⟨board, ?_, fun y x => by rw [hshown, if_pos (passed_end _)]⟩
  rw [updateBoardFromFen, placement_getFen h, String.toList_ofList, hboard, Option.map_some]

/-- The placement field gives back the pieces, and from any board the console draws the glyph of each square's piece and
the empty mark on the empty squares. -/
theorem getFen_read (pos : Position) (before : ConsoleBoard) (h : pos.pieces.Valid) :
    Pieces.ofFen (placement pos.getFen) = pos.pieces ∧ ∃ board, updateBoardFromFen before pos.getFen = some board ∧
      ∀ y x : Fin 8, board y x = mark (pos.pieces.board (8 * y + x)) ∧
        (board y x = "·" ↔ pos.pieces.board (8 * y + x) = none) := by
  constructor
  · rw [placement_getFen h, ofFen_rows h]
  · obtain ⟨board, hboard, hshown⟩ := updateBoardFromFen_getFen h before
    exact ⟨board, hboard, fun y x => ⟨hshown y x, by rw [hshown, mark_empty]⟩⟩

/-- The start, drawn over a board of rooks. -/
theorem getFen_read_init : Pieces.ofFen (placement Position.init.getFen) = Position.init.pieces ∧
    ∃ board, updateBoardFromFen (fun _ _ => "♜") Position.init.getFen = some board ∧
      ∀ y x : Fin 8, board y x = mark (Position.init.pieces.board (8 * y + x)) ∧
        (board y x = "·" ↔ Position.init.pieces.board (8 * y + x) = none) :=
  getFen_read Position.init (fun _ _ => "♜") init_valid

end ChessGame
