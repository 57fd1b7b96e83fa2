import ChessGame.Fen
import ChessGame.Flip
import ChessGame.Mailbox
/-!
# The console client's moves

`ClientUi` of `client.cpp`. A move that comes with a FEN is shown by loading the FEN. One
that comes without is made on the board that is shown (`apply_move`). Loading puts the
first rank into row 0, and `apply_move` looks for it in row 7.

A `std::string` of the client is a `String` with a character for each byte.
-/

namespace ChessGame

open MoveGen Rules Position ConsoleBoard

structure ClientUi where
  board : ConsoleBoard
  feed : List String
  status : String

/-! ## The board -/

namespace ConsoleBoard

/-- `board[y][x]`, undefined outside of the board. -/
def get (board : ConsoleBoard) (y x : ℤ) : Option String :=
  if h : 0 ≤ y ∧ y < 8 ∧ 0 ≤ x ∧ x < 8 then some (board ⟨y.toNat, by omega⟩ ⟨x.toNat, by omega⟩) else none

/-- `board[y][x] = mark`, undefined outside of the board. -/
def set (board : ConsoleBoard) (y x : ℤ) (mark : String) : Option ConsoleBoard :=
  (place mark (board, y, x)).map Prod.fst

/-- What the board shows where `update_board_from_fen` puts a square. -/
def shown (board : ConsoleBoard) (q : ℕ) : String := board (Fin.ofNat 8 (q / 8)) (Fin.ofNat 8 (q % 8))

end ConsoleBoard

namespace ClientUi

def kFeedMax : ℕ := 18

def pushFeed (ui : ClientUi) (msg : String) : ClientUi :=
  let feed := ui.feed ++ [msg]
  { ui with feed := feed.drop (feed.length - kFeedMax) }

/-- `none` outside of the board. -/
def updateBoardFromFen (ui : ClientUi) (fen : String) : Option ClientUi :=
  (ChessGame.updateBoardFromFen ui.board fen).map fun board => { ui with board }

/-- The row and the column of a square, `none` if the text is no square. -/
def sqToIdx (sq : String) : Option (ℤ × ℤ) :=
  match sq.toList with
  | [file, rank] =>
    let file := file.toLower
    if file < 'a' ∨ file > 'h' ∨ rank < '1' ∨ rank > '8' then none
    else some (8 - ((rank.toNat : ℤ) - '0'.toNat), (file.toNat : ℤ) - 'a'.toNat)
  | _ => none

/-- `none` outside of the board. -/
def applyMove (ui : ClientUi) («from» «to» : String) : Option ClientUi :=
  match sqToIdx «from», sqToIdx «to» with
  | some (r1, c1), some (r2, c2) => do
    let mark ← ui.board.get r1 c1
    let board ← ui.board.set r2 c2 mark
    let board ← board.set r1 c1 "·"
    some { ui with board }
  | _, _ => some (ui.pushFeed ("[warn] bad move coords: " ++ «from» ++ " -> " ++ «to»))

end ClientUi

variable {board : ConsoleBoard} {ui : ClientUi} {p q r : ℕ}

namespace ConsoleBoard

theorem get_shown (hq : q < 64) : board.get ((q / 8 : ℕ) : ℤ) ((q % 8 : ℕ) : ℤ) = some (board.shown q) := by
  rw [get, dif_pos (by omega), shown]
  refine congrArg some (congrArg₂ board (Fin.ext ?_) (Fin.ext ?_))
  · simp only [Int.toNat_natCast, Fin.ofNat]
    omega
  · simp only [Int.toNat_natCast, Fin.ofNat]
    omega

theorem set_shown (board : ConsoleBoard) (hq : q < 64) (mark : String) :
    ∃ board', board.set ((q / 8 : ℕ) : ℤ) ((q % 8 : ℕ) : ℤ) mark = some board' ∧
      ∀ r < 64, board'.shown r = if r = q then mark else board.shown r := by
  rw [set, place, if_pos (by omega)]
  refine ⟨_, rfl, fun r hr => ?_⟩
  refine if_congr ?_ rfl rfl
  simp only [Fin.ofNat]
  omega

end ConsoleBoard

namespace ClientUi

/-- `apply_move` counts the rows from the other end. -/
theorem sqToIdx_squareName (hq : q < 64) :
    sqToIdx (squareName q) = some (((flipSquare q / 8 : ℕ) : ℤ), ((flipSquare q % 8 : ℕ) : ℤ)) := by
  have hall : ∀ q < 64, sqToIdx (squareName q) = some (((flipSquare q / 8 : ℕ) : ℤ), ((flipSquare q % 8 : ℕ) : ℤ)) := by
    decide +kernel
  exact hall q hq

/-- The ranges are checked before the board is accessed. -/
theorem sqToIdx_inside {sq : String} {y x : ℤ} (h : sqToIdx sq = some (y, x)) : 0 ≤ y ∧ y < 8 ∧ 0 ≤ x ∧ x < 8 := by
  unfold sqToIdx at h
  split at h
  · rename_i file rank _
    dsimp only at h
    split at h
    · cases h
    · rename_i hin
      simp only [not_or, not_lt, gt_iff_lt, Char.le_def, UInt32.le_iff_toNat_le] at hin
      simp only [Option.some.injEq, Prod.mk.injEq] at h
      obtain ⟨⟨hfile, hfile', hrank, hrank'⟩, rfl, rfl⟩ := And.intro hin h
      have ha : 'a'.toNat = 97 ∧ 'a'.val.toNat = 97 ∧ 'h'.val.toNat = 104 := ⟨rfl, rfl, rfl⟩
      have h0 : '0'.toNat = 48 ∧ '1'.val.toNat = 49 ∧ '8'.val.toNat = 56 := ⟨rfl, rfl, rfl⟩
      have hchar : file.toLower.toNat = file.toLower.val.toNat ∧ rank.toNat = rank.val.toNat := ⟨rfl, rfl⟩
      omega
  · cases h

/-- `apply_move` stays on the board. -/
theorem applyMove_isSome (ui : ClientUi) («from» «to» : String) : (ui.applyMove «from» «to»).isSome = true := by
  unfold applyMove
  split
  · rename_i r1 c1 r2 c2 hfrom hto
    have hfrom := sqToIdx_inside hfrom
    have hto := sqToIdx_inside hto
    simp [ConsoleBoard.get, ConsoleBoard.set, place, hfrom, hto]
  · rfl

/-- A move is made between the mirrored squares. -/
theorem applyMove_shown (ui : ClientUi) (hp : p < 64) (hq : q < 64) :
    ∃ ui', ui.applyMove (squareName p) (squareName q) = some ui' ∧ ∀ r < 64, ui'.board.shown r =
      if r = flipSquare p then "·" else
      if r = flipSquare q then ui.board.shown (flipSquare p) else ui.board.shown r := by
  obtain ⟨board, hset, hshown⟩ := set_shown ui.board (flipSquare_lt hq) (ui.board.shown (flipSquare p))
  obtain ⟨board', hset', hshown'⟩ := set_shown board (flipSquare_lt hp) "·"
  refine ⟨{ ui with board := board' }, ?_, fun r hr => ?_⟩
  · unfold applyMove
    rw [sqToIdx_squareName hp, sqToIdx_squareName hq]
    simp only [Option.bind_eq_bind, get_shown (flipSquare_lt hp), Option.bind_some, hset, hset']
  · rw [hshown' r hr, hshown r hr]

end ClientUi

/-! ## Without a FEN -/

variable {pos next : Position} {m : Move}

/-- Not castling, en passant or promotion. -/
def Ordinary (m : Move) : Prop := m.flag.isCastling = false ∧ m.flag ≠ .enPassantCapture ∧ m.flag.isPromotion = false

instance (m : Move) : Decidable (Ordinary m) := by unfold Ordinary; infer_instance

/-- Loading a FEN shows the position's board. -/
theorem updateBoardFromFen_shown (h : pos.pieces.Valid) (before : ConsoleBoard) :
    ∃ board, updateBoardFromFen before pos.getFen = some board ∧
      ∀ q < 64, board.shown q = mark (pos.pieces.board q) := by
  obtain ⟨board, hboard, hmark⟩ := updateBoardFromFen_getFen h before
  refine ⟨board, hboard, fun q hq => ?_⟩
  rw [shown, hmark]
  apply congrArg fun q => mark (pos.pieces.board q)
  simp only [Fin.ofNat]
  omega

/-- An ordinary move takes its piece from one square to another. -/
theorem Effect.leaves (h : Effect pos m next) (hordinary : Ordinary m) :
    pos.pieces.board m.from ≠ none ∧ m.to < 64 ∧ next.pieces.board m.from = none := by
  rcases h.made with ⟨hg, -⟩ | ⟨k, hk, rfl⟩
  · have hc := hg.carries
    refine ⟨by rw [hc.start]; nofun, hc.target, ?_⟩
    rw [h.board, moved, hg.1.not_special.1]
    show after pos.pieces.board m.ply m.from = _
    rw [hg.1.after_eq, placed, Function.update_of_ne hc.ne.symm, Function.update_self]
  · obtain ⟨hcastling, -⟩ := hordinary
    rcases Castling.cases hk.mem with rfl | rfl | rfl | rfl <;> cases hcastling

/-- Whatever is played, the board with the move made on it is not the board of the next FEN: the piece still stands
where it came from, or it does not stand where it went to. -/
theorem fallback_differs (h : Reached pos) (hm : m ∈ pos.generateMoves.moves) (hordinary : Ordinary m) (ui : ClientUi)
    (before : ConsoleBoard) : ∃ loaded moved after, ui.updateBoardFromFen pos.getFen = some loaded ∧
      loaded.applyMove (squareName m.from) (squareName m.to) = some moved ∧
      updateBoardFromFen before (pos.applyMove m).2.getFen = some after ∧ moved.board ≠ after := by
  have hplayed : Played pos m (pos.applyMove m).2 := ⟨hm, Prod.ext (h.accepts hm) rfl⟩
  have he := h.effect hplayed
  obtain ⟨hstart, hto, hleft⟩ := he.leaves hordinary
  obtain ⟨t, hlanded⟩ := landed he
  have hfrom : m.from < 64 := by
    obtain ⟨ct, hct⟩ := Option.ne_none_iff_exists'.1 hstart
    exact h.sound.valid.lt_of_board hct
  obtain ⟨board, hboard, hshown⟩ := updateBoardFromFen_shown h.sound.valid ui.board
  obtain ⟨after, hafter, hshown'⟩ := updateBoardFromFen_shown he.valid before
  obtain ⟨moved, hmoved, hmove⟩ := ClientUi.applyMove_shown { ui with board } hfrom hto
  refine ⟨{ ui with board }, moved, after, ?_, hmoved, hafter, fun heq => ?_⟩
  · rw [ClientUi.updateBoardFromFen, hboard, Option.map_some]
  · have hrow : m.from ≠ flipSquare m.from := by
      rw [flipSquare_eq hfrom]
      omega
    by_cases hmirror : m.from = flipSquare m.to
    · -- the square the piece went to was emptied
      have hto' : m.to = flipSquare m.from := by rw [hmirror, flipSquare_flipSquare]
      have hempty : after.shown m.to = "·" := by rw [← heq, hmove _ hto, if_pos hto']
      rw [hshown' _ hto, mark_empty, hlanded] at hempty
      cases hempty
    · have hkept : after.shown m.from = mark (pos.pieces.board m.from) := by
        rw [← heq, hmove _ hfrom, if_neg hrow, if_neg hmirror]
        exact hshown _ hfrom
      have hempty : mark (pos.pieces.board m.from) = "·" := by rw [← hkept, hshown' _ hfrom, hleft]; rfl
      exact hstart (mark_empty.1 hempty)

/-- A client that shows nothing yet. -/
def blank : ClientUi := ⟨fun _ _ => "·", [], "connected"⟩

/-- 1.Nf3 -/
theorem fallback_differs_knight : ∃ m ∈ Position.init.generateMoves.moves, (m.from, m.to) = (6, 21) ∧
    ∃ loaded moved after, blank.updateBoardFromFen Position.init.getFen = some loaded ∧
      loaded.applyMove (squareName m.from) (squareName m.to) = some moved ∧
      updateBoardFromFen blank.board (Position.init.applyMove m).2.getFen = some after ∧ moved.board ≠ after := by
  have hgame : (Position.init.turn (6, 21)).any (fun x => Ordinary x.1) = true := by decide +kernel
  obtain ⟨⟨m, next⟩, hturn, hordinary⟩ := (Option.any_eq_true _ _).1 hgame
  obtain ⟨⟨hm, -⟩, hsquares⟩ := Position.turn_played hturn
  exact ⟨m, hm, hsquares, fallback_differs .init hm (of_decide_eq_true hordinary) blank blank.board⟩

/-- After 1.e4 the black king's pawn has moved, and e4 is empty. -/
theorem fallback_fails : ∃ m next loaded moved after, Played Position.init m next ∧ (m.from, m.to) = (12, 28) ∧
    Ordinary m ∧ blank.updateBoardFromFen Position.init.getFen = some loaded ∧
    loaded.applyMove (squareName m.from) (squareName m.to) = some moved ∧
    updateBoardFromFen blank.board next.getFen = some after ∧ moved.board ≠ after := by
  have hgame : (Position.init.turn (12, 28)).any (fun x => Ordinary x.1 ∧
      (blank.updateBoardFromFen Position.init.getFen).any (fun loaded =>
        (loaded.applyMove (squareName x.1.from) (squareName x.1.to)).any fun moved =>
          (updateBoardFromFen blank.board x.2.getFen).any fun after => moved.board 3 4 ≠ after 3 4)) = true := by
    decide +kernel
  obtain ⟨⟨m, next⟩, hturn, htest⟩ := (Option.any_eq_true _ _).1 hgame
  obtain ⟨hordinary, hboards⟩ := of_decide_eq_true htest
  obtain ⟨loaded, hloaded, hboards⟩ := (Option.any_eq_true _ _).1 hboards
  obtain ⟨moved, hmoved, hboards⟩ := (Option.any_eq_true _ _).1 hboards
  obtain ⟨after, hafter, hne⟩ := (Option.any_eq_true _ _).1 hboards
  obtain ⟨hplayed, hsquares⟩ := Position.turn_played hturn
  refine ⟨m, next, loaded, moved, after, hplayed, hsquares, hordinary, hloaded, hmoved, hafter, ?_⟩
  rintro rfl
  exact of_decide_eq_true hne rfl

end ChessGame
