import ChessGame.CastlingRights
import ChessGame.Kings
import ChessGame.Representation
/-!
# The engine as a mailbox

A `Mailbox` is a board of squares with the castling flags, the en passant square
and the side to move; `play` makes a move of the rules on it. `apply_move` accepts
every generated move (`generated_accepted`) and then plays it on the mailbox that
`piece_at` and `color_at` show (`mailbox_next`, `mailbox_run`).
-/
open Runs

namespace ChessGame

open MoveGen Rules Position

variable {pos next : Position} {m : Move} {b : Board} {s : PieceColor}

structure Mailbox where
  squares : Board
  rights : CastlingRights
  enPassant : Option ℕ
  toMove : PieceColor

/-- A flag is lost when a move starts on the home square of its king or its rook. -/
def keepRights (rights : CastlingRights) (src : ℕ) : CastlingRights where
  wLCastling := rights.wLCastling && decide (src ≠ 4 ∧ src ≠ 0)
  wSCastling := rights.wSCastling && decide (src ≠ 4 ∧ src ≠ 7)
  bLCastling := rights.bLCastling && decide (src ≠ 60 ∧ src ≠ 56)
  bSCastling := rights.bSCastling && decide (src ≠ 60 ∧ src ≠ 63)

def Mailbox.play (b : Mailbox) (m : Ply) : Mailbox where
  squares := after b.squares m
  rights := keepRights b.rights m.from
  enPassant := if m.flag = .pawnLongMove then some ((m.from + m.to) / 2) else none
  toMove := b.toMove.inverse

/-- What the position shows through `color_at` and `piece_at`. -/
def Position.mailbox (pos : Position) : Mailbox := ⟨pos.pieces.board, pos.rights, pos.enPassant, pos.sideToMove⟩

theorem keepRights_right (rights : CastlingRights) (src : ℕ) {k : Castling} (hk : k ∈ Castling.all) :
    k.right (keepRights rights src) = (k.right rights && decide (src ≠ k.kingFrom ∧ src ≠ k.rookFrom)) := by
  rcases Castling.cases hk with rfl | rfl | rfl | rfl <;> rfl

/-! ## A generated move is accepted -/

/-- A side has at most one king, and a castling flag that is set says where it is. -/
structure KingsTraced (pos : Position) : Prop where
  one : ∀ c q, pos.pieces.board q = some (c, .king) → KingOn pos.pieces.board c q
  home : ∀ k ∈ Castling.all, k.right pos.rights = true → ∀ q, pos.pieces.board q = some (k.side, .king) → q = k.kingFrom

/-- Where a king of the mover comes from. -/
theorem placed_king_origin (h : Carries b s m) {t : PieceType} (ht : t = .king ↔ m.attackerType = .king) {q : ℕ}
    (hq : placed b m t q = some (s, .king)) :
    (q = m.to ∧ b m.from = some (s, .king)) ∨ (q ≠ m.to ∧ q ≠ m.from ∧ b q = some (s, .king)) := by
  unfold placed at hq
  by_cases hto : q = m.to
  · subst hto
    rw [Function.update_self, Option.some.injEq, Prod.mk.injEq] at hq
    exact .inl ⟨rfl, by rw [h.start, ht.1 hq.2]⟩
  · rw [Function.update_of_ne hto] at hq
    by_cases hfrom : q = m.from
    · rw [hfrom, Function.update_self] at hq
      cases hq
    · rw [Function.update_of_ne hfrom] at hq
      exact .inr ⟨hto, hfrom, hq⟩

theorem kingsTraced_next (h : KingsTraced pos) (he : Effect pos m next) : KingsTraced next := by
  rcases he.made with ⟨hg, -⟩ | ⟨k, hk, rfl⟩
  · have hc := hg.carries
    have hking := hg.1.promoted_king
    have hboard : next.pieces.board = placed pos.pieces.board m (promoted m.flag m.attackerType) := by
      rw [he.board, moved, hg.1.not_special.1]
      exact hg.1.after_eq
    constructor
    · -- the mover's king has moved or stayed, the other one was not captured
      intro c q hq
      rw [hboard] at hq ⊢
      by_cases hside : c = pos.sideToMove
      · subst hside
        have hold : ∃ r, pos.pieces.board r = some (pos.sideToMove, .king) := by
          rcases placed_king_origin hc hking hq with ⟨-, hr⟩ | ⟨-, -, hr⟩ <;> exact ⟨_, hr⟩
        obtain ⟨r, hr⟩ := hold
        have hnew := placed_king hc hking (h.one _ r hr)
        rwa [(hnew q).1 hq]
      · obtain rfl := PieceColor.eq_inverse_of_ne hside
        obtain ⟨hto, hold⟩ := (placed_enemy hc).1 hq
        exact placed_other_king hc (h.one _ q hold) hto.symm
    · intro k hk hright q hq
      rw [he.right k hk, Bool.and_eq_true, decide_eq_true_eq] at hright
      rw [hboard] at hq
      by_cases hside : k.side = pos.sideToMove
      · rw [hside] at hq
        rcases placed_king_origin hc hking hq with ⟨-, hr⟩ | ⟨-, -, hr⟩ <;> rw [← hside] at hr
        · exact absurd (h.home k hk hright.1 _ hr) hright.2.1
        · exact h.home k hk hright.1 q hr
      · have hinv := PieceColor.eq_inverse_of_ne hside
        rw [hinv] at hq
        exact h.home k hk hright.1 q (hinv ▸ ((placed_enemy hc).1 hq).2)
  · have hboard : next.pieces.board = castled pos.pieces.board k := by rw [he.board, moved_castle _ hk.mem]
    constructor
    · intro c q hq
      rw [hboard] at hq ⊢
      by_cases hside : c = k.side
      · subst hside
        have hnew := castled_king (h.home k hk.mem hk.right)
        rwa [(hnew q).1 hq]
      · obtain rfl := PieceColor.eq_inverse_of_ne hside
        have hold := (castled_enemy hk.mem hk.between).1 hq
        intro r
        rw [castled_enemy hk.mem hk.between]
        exact h.one _ q hold r
    · intro k' hk' hright q hq
      rw [he.right k' hk', Bool.and_eq_true, decide_eq_true_eq] at hright
      rw [hboard] at hq
      by_cases hside : k'.side = k.side
      · exact absurd (kingFrom_eq hk.mem hk' hside.symm) hright.2.1
      · have hinv := PieceColor.eq_inverse_of_ne hside
        rw [hinv] at hq
        exact h.home k' hk' hright.1 q (hinv ▸ (castled_enemy hk.mem hk.between).1 hq)

theorem init_kingsTraced : KingsTraced Position.init where
  one c q hq := by
    have hking := init_king c
    rwa [(hking q).1 hq]
  home k hk hright q hq := (init_king _ q).1 hq |>.trans ((init_king _ _).1 (init_kingsHome k hk hright)).symm

theorem Reached.kingsTraced (h : Reached pos) : KingsTraced pos := by
  have hinv : Sound pos ∧ KingsTraced pos := by
    refine h.inv (fun pos => Sound pos ∧ KingsTraced pos) ⟨init_sound, init_kingsTraced⟩ ?_
    rintro pos m next ⟨hs, hk⟩ hp
    have he := hp.effect hs
    exact ⟨he.sound, kingsTraced_next hk he⟩
  exact hinv.2

/-- The legality test of the generator and the check after the move agree. -/
theorem Reached.accepts (h : Reached pos) (hm : m ∈ pos.generateMoves.moves) : (pos.applyMove m).1 = true := by
  rcases h.sound.made hm with ⟨hg, hl⟩ | ⟨k, hk, rfl⟩
  · exact applyMove_generated h.sound hg hl
  · rw [applyMove_fst]
    have hone : ∀ q, pos.pieces.board q = some (k.side, .king) → KingOn pos.pieces.board k.side q := h.kingsTraced.one _
    have hcheck := castled_unchecked h.sound.valid hk.mem hk.between hk.unchecked (hk.path _ (by simp)) hone
    rw [show (castleMove k).attackerSide = k.side from rfl, hcheck]
    rfl

/-- A refusal before the move is made has another text. -/
theorem chosen_ne_failed (room : GameRoom) (call : MoveCall) : room.chosen call ≠ .error "Move failed" := by
  have hfind : ∀ src dst l, findMove src dst call.promotion l ≠ .error "Move failed" := by
    intro src dst l
    induction l with
    | nil => simp [findMove]
    | cons m l ih =>
      unfold findMove
      split
      · split
        · split
          · simp
          · split
            · exact ih
            · simp
        · simp
      · exact ih
  unfold GameRoom.chosen
  dsimp only
  split
  · simp
  · split
    · exact hfind _ _ _
    · simp

/-- In a position reached by play every generated move is accepted, so a room that
shows the position never answers that the move failed. -/
theorem generated_accepted (h : Reached pos) :
    (∀ m ∈ pos.generateMoves.moves, (pos.applyMove m).1 = true) ∧
      ∀ room : GameRoom, room.position = pos → ∀ call, room.onMove call ≠ .error "Move failed" := by
  refine ⟨fun m hm => h.accepts hm, ?_⟩
  rintro room rfl call hfail
  unfold GameRoom.onMove at hfail
  split at hfail
  · rename_i text htext
    exact chosen_ne_failed room call (htext.trans (by cases hfail; rfl))
  · rename_i m hm
    have hacc := h.accepts (chosen_ok hm).2.2
    split at hfail
    · rename_i ha
      rw [ha] at hacc
      cases hacc
    · cases hfail

/-- 1.e4 e5 2.Nf3 Nc6 3.Be2 Nf6 -/
def openGame : List (ℕ × ℕ) := [(12, 28), (52, 36), (6, 21), (57, 42), (5, 12), (62, 45)]

theorem generated_accepted_castling :
    ∃ pos, line openGame = some pos ∧ castleMove .wShort ∈ pos.generateMoves.moves ∧
      (pos.applyMove (castleMove .wShort)).1 = true := by
  have hend : (line openGame).any (fun pos => castleMove .wShort ∈ pos.generateMoves.moves) = true := by decide +kernel
  obtain ⟨pos, hpos, hm⟩ := (Option.any_eq_true _ _).1 hend
  rw [decide_eq_true_eq] at hm
  obtain ⟨l, hr, -⟩ := line_run hpos
  exact ⟨pos, hpos, hm, (generated_accepted ⟨l, hr⟩).1 _ hm⟩

/-! ## What it does to the mailbox -/

/-- With king and rook at home, a castling is the plain update of the rules. -/
theorem castled_eq_after {k : Castling} (hk : k ∈ Castling.all) (hh : k.AtHome b) :
    castled b k = after b (castleMove k).ply := by
  have hfind : Castling.all.find? (·.flag = (castleMove k).ply.flag) = some k := find_castling hk
  obtain ⟨⟨-, -, hkf_rt⟩, -⟩ := castling_apart hk
  have hking : promoted k.flag .king = .king := by rcases Castling.cases hk with rfl | rfl | rfl | rfl <;> rfl
  have hafter : ∀ q, after b (castleMove k).ply q = if q = k.kingTo then some (k.side, promoted k.flag .king)
      else if q = k.kingFrom then none else if q = k.rookTo then some (k.side, .rook)
      else if q = k.rookFrom then none else b q := by
    intro q
    unfold after
    rw [hfind]
    rfl
  funext q
  rw [hafter, hking, castled]
  by_cases h1 : q = k.kingTo
  · rw [if_pos h1, if_pos h1]
  · rw [if_neg h1, if_neg h1]
    by_cases h2 : q = k.kingFrom
    · rw [if_pos h2, h2, if_neg hkf_rt, if_pos (.inl ⟨rfl, hh.1⟩)]
    · rw [if_neg h2]
      by_cases h3 : q = k.rookTo
      · rw [if_pos h3, if_pos h3]
      · rw [if_neg h3, if_neg h3]
        by_cases h4 : q = k.rookFrom
        · rw [if_pos h4, if_pos (.inr ⟨h4, h4 ▸ hh.2⟩)]
        · rw [if_neg h4, if_neg (by simp [h2, h4])]

/-- A castling is made with the king and the rook on their home squares. -/
def FromHome (pos : Position) (m : Move) : Prop :=
  ∀ k ∈ Castling.all, m.flag = k.flag → k.AtHome pos.pieces.board

theorem Effect.board_after (h : Effect pos m next) (hh : FromHome pos m) :
    next.pieces.board = after pos.pieces.board m.ply := by
  rw [h.board]
  rcases h.made with ⟨hg, -⟩ | ⟨k, hk, rfl⟩
  · rw [moved, hg.1.not_special.1]
  · rw [moved_castle _ hk.mem]
    exact castled_eq_after hk.mem (hh k hk.mem rfl)

/-- A turn of the engine is a move on the mailbox. -/
theorem mailbox_next (h : Effect pos m next) (hh : FromHome pos m) : next.mailbox = pos.mailbox.play m.ply := by
  have hrights : next.rights = keepRights pos.rights m.from := by
    apply rights_ext
    intro k hk
    rw [h.right k hk, keepRights_right _ _ hk]
  unfold Position.mailbox Mailbox.play
  rw [h.board_after hh, hrights, h.enPassant, h.sideToMove]
  rfl

/-- A game of the engine is the same game on the mailbox. -/
theorem mailbox_run {l : List (Position × Move)} (h : Run Played Position.init l pos) (hh : ∀ x ∈ l, FromHome x.1 x.2) :
    pos.mailbox = (l.map fun x => x.2.ply).foldl Mailbox.play Position.init.mailbox := by
  induction h with
  | nil => rfl
  | @snoc l s m t hr hp ih =>
    simp only [List.forall_mem_append, List.forall_mem_singleton] at hh
    rw [List.map_append, List.foldl_append, ← ih hh.1]
    exact mailbox_next ((show Reached s from ⟨l, hr⟩).effect hp) hh.2

/-! ## What is read from the squares -/

/-- The square shows nothing. -/
def Bare (pos : Position) (q : ℕ) : Prop := pos.pieces.colorAt q = none ∧ pos.pieces.pieceAt q = none

/-- The square shows a piece. -/
def Holds (pos : Position) (q : ℕ) (c : PieceColor) (t : PieceType) : Prop :=
  pos.pieces.colorAt q = some c ∧ pos.pieces.pieceAt q = some t

/-- The plain update of a board by the move `m`. -/
structure Updates (pos : Position) (m : Move) (next : Position) : Prop where
  start : Bare next m.from
  target : Holds next m.to pos.sideToMove (promoted m.flag m.attackerType)
  /-- Nothing of the other side is left on the target. -/
  taken : ∀ t, (next.pieces.bb pos.sideToMove.inverse t).getLsbD m.to = false
  passant : m.flag = .enPassantCapture → Bare next (square (file m.to) (rank m.from))
  rook : ∀ k ∈ Castling.all, m.flag = k.flag → Bare next k.rookFrom ∧ Holds next k.rookTo k.side .rook
  others : ∀ q, q ≠ m.from → q ≠ m.to → (m.flag = .enPassantCapture → q ≠ square (file m.to) (rank m.from)) →
    (∀ k ∈ Castling.all, m.flag = k.flag → q ≠ k.rookFrom ∧ q ≠ k.rookTo) →
    next.pieces.colorAt q = pos.pieces.colorAt q ∧ next.pieces.pieceAt q = pos.pieces.pieceAt q
  enPassant : next.enPassant = if m.flag = .pawnLongMove then some ((m.from + m.to) / 2) else none
  cleared : ∀ k ∈ Castling.all, k.right next.rights = true → k.right pos.rights = true
  turn : next.sideToMove = pos.sideToMove.inverse

theorem Pieces.Valid.readers {p : Pieces} (hv : p.Valid) (q : ℕ) :
    p.colorAt q = (p.board q).map Prod.fst ∧ p.pieceAt q = (p.board q).map Prod.snd := by
  rcases hv.agrees q with ⟨hp, hc, hb⟩ | ⟨c, t, hp, hc, hb⟩
  · rw [hp, hc, hv.board_eq_none.2 hb]
    exact ⟨rfl, rfl⟩
  · rw [hp, hc, hv.board_eq_some.2 ((hb c t).2 ⟨rfl, rfl⟩)]
    exact ⟨rfl, rfl⟩

theorem Effect.bare (h : Effect pos m next) {q : ℕ} (hq : next.pieces.board q = none) : Bare next q := by
  obtain ⟨hc, hp⟩ := h.valid.readers q
  rw [Bare, hc, hp, hq]
  exact ⟨rfl, rfl⟩

theorem Effect.holds (h : Effect pos m next) {q : ℕ} {c : PieceColor} {t : PieceType}
    (hq : next.pieces.board q = some (c, t)) : Holds next q c t := by
  obtain ⟨hc, hp⟩ := h.valid.readers q
  rw [Holds, hc, hp, hq]
  exact ⟨rfl, rfl⟩

theorem Effect.not_passant (h : Effect pos m next) : m.flag ≠ .enPassantCapture := by
  rcases h.made with ⟨hg, -⟩ | ⟨k, hk, rfl⟩
  · exact hg.1.not_special.2
  · rcases Castling.cases hk.mem with rfl | rfl | rfl | rfl <;> exact nofun

/-- A move with the flag of a castling is that castling. -/
theorem Effect.castling (h : Effect pos m next) {k : Castling} (hk : k ∈ Castling.all) (hf : m.flag = k.flag) :
    m = castleMove k := by
  rcases h.made with ⟨hg, -⟩ | ⟨k', hk', rfl⟩
  · have hspecial := hg.1.not_special.1
    rw [hf, find_castling hk] at hspecial
    cases hspecial
  · have hsame : k'.flag = k.flag := hf
    have hfind := find_castling hk'.mem
    rw [hsame, find_castling hk] at hfind
    rw [Option.some.inj hfind]

theorem Effect.squares (h : Effect pos m next) : m.to ≠ m.from ∧ m.attackerSide = pos.sideToMove := by
  rcases h.made with ⟨hg, -⟩ | ⟨k, hk, rfl⟩
  · exact ⟨hg.carries.ne, hg.carries.side⟩
  · refine ⟨?_, hk.side⟩
    rcases Castling.cases hk.mem with rfl | rfl | rfl | rfl <;> decide

theorem Effect.updates (h : Effect pos m next) (hs : Sound pos) (hh : FromHome pos m) : Updates pos m next := by
  have hboard := h.board_after hh
  obtain ⟨hne, hside⟩ := h.squares
  have htarget : next.pieces.board m.to = some (pos.sideToMove, promoted m.flag m.attackerType) := by
    rw [hboard, ← hside]
    exact if_pos rfl
  constructor
  · -- the square the move starts on
    apply h.bare
    rw [hboard]
    exact (if_neg hne.symm).trans (if_pos rfl)
  · exact h.holds htarget
  · intro t
    by_contra hbit
    rw [Bool.not_eq_false, ← h.valid.board_eq_some, htarget, Option.some.injEq, Prod.mk.injEq] at hbit
    exact PieceColor.ne_inverse _ hbit.1
  · exact fun hf => absurd hf h.not_passant
  · -- the rook of a castling
    intro k hk hf
    obtain rfl := h.castling hk hf
    obtain ⟨-, ⟨hkt_rf, hkt_rt⟩, hrf_rt⟩ := castling_apart hk
    rw [castled_eq_after hk (hh k hk rfl) |>.symm] at hboard
    constructor
    · apply h.bare
      rw [hboard, castled, if_neg (Ne.symm hkt_rf), if_neg hrf_rt, if_pos (.inr ⟨rfl, (hh k hk rfl).2⟩)]
    · apply h.holds
      rw [hboard, castled, if_neg (Ne.symm hkt_rt), if_pos rfl]
  · -- all other squares
    intro q hfrom hto hep hrook
    have hsame : next.pieces.board q = pos.pieces.board q := by
      have hto' : q ≠ m.ply.to := hto
      have hfrom' : q ≠ m.ply.from := hfrom
      rw [hboard, after, if_neg hto', if_neg hfrom']
      split
      · rename_i k hk
        have hflag : k.flag = m.ply.flag := by simpa using List.find?_some hk
        obtain ⟨h1, h2⟩ := hrook k (List.mem_of_find?_eq_some hk) hflag.symm
        rw [if_neg h2, if_neg h1]
      · exact if_neg fun hc => hep hc.1 hc.2
    obtain ⟨hc, hp⟩ := h.valid.readers q
    obtain ⟨hc', hp'⟩ := hs.valid.readers q
    rw [hc, hp, hc', hp', hsame]
    exact ⟨rfl, rfl⟩
  · exact h.enPassant
  · intro k hk hr
    rw [h.right k hk, Bool.and_eq_true] at hr
    exact hr.1
  · exact h.sideToMove

/-- `apply_move` does to the position what the plain update does to a board. -/
theorem Reached.updates (hr : Reached pos) (hm : m ∈ pos.generateMoves.moves) (hh : FromHome pos m) :
    ∃ next, pos.applyMove m = (true, next) ∧ Updates pos m next := by
  have happly : pos.applyMove m = (true, (pos.applyMove m).2) := Prod.ext (hr.accepts hm) rfl
  exact ⟨_, happly, (hr.effect ⟨hm, happly⟩).updates hr.sound hh⟩

end ChessGame
