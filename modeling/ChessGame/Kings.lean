import ChessGame.CastlingRights
import ChessGame.Room
/-!
# The kings of a game

The engine's attack test does not see bishops, rooks and queens, so a move may
leave the mover's king on an open line of one of them. As long as no move does,
both kings stay on the board and out of reach.
-/
open Runs

namespace ChessGame

open MoveGen Rules

variable {pos next : Position} {m : Move} {b : Board} {s : PieceColor} {k : ℕ}

/-- Each side has exactly one king, and that of the side that has just moved is not attacked. -/
def KingsSafe (pos : Position) : Prop :=
  (∀ c, ∃ k, KingOn pos.pieces.board c k) ∧ ¬ InCheck Attacked pos.pieces.board pos.sideToMove.inverse

/-- The move leaves the mover's king on an open line of an enemy bishop, rook or queen. -/
def Exposes (pos : Position) (m : Move) : Prop :=
  InCheck SliderAttacked (moved pos.pieces.board m) pos.sideToMove

/-- A castling whose flag is set has its king at home. -/
def KingsHome (pos : Position) : Prop :=
  ∀ k ∈ Castling.all, k.right pos.rights = true → pos.pieces.board k.kingFrom = some (k.side, .king)

/-! ## A turn -/

/-- A piece that is captured was attacked. -/
theorem Rules.Plays.attacked (h : Plays b s m.ply) (hlt : ∀ q, b q ≠ none → q < 64) {ct : PieceColor × PieceType}
    (hto : b m.to = some ct) : Attacked b m.to s := by
  generalize hr : m.ply = r at h
  have hm : m.to = r.to := by rw [← hr]; rfl
  rw [hm] at hto ⊢
  cases h with
  | push _ _ _ _ he => rw [he] at hto; cases hto
  | double _ _ _ _ _ _ _ _ _ he => rw [he] at hto; cases hto
  | @capture p q t f hb _ ha _ _ => exact ⟨p, hlt p (by simp [hb]), .pawn, PieceType.mem_all _, hb, ha⟩
  | @piece p q t hb _ _ ha _ => exact ⟨p, hlt p (by simp [hb]), t, PieceType.mem_all _, hb, ha⟩

/-- A castling whose king stands nowhere else leaves the side one king, on its target. -/
theorem castled_king {k : Castling} (hhome : ∀ q, b q = some (k.side, .king) → q = k.kingFrom) :
    KingOn (castled b k) k.side k.kingTo := by
  intro q
  constructor
  · intro hq
    unfold castled at hq
    by_contra hne
    rw [if_neg hne] at hq
    split at hq
    · simp at hq
    · split at hq
      · cases hq
      · rename_i hkept
        exact hkept (.inl ⟨hhome q hq, hq⟩)
  · rintro rfl
    exact if_pos rfl

/-- The mover keeps its one king. -/
theorem mover_king (h : Effect pos m next) (hh : KingsHome pos) (hk : ∃ k, KingOn pos.pieces.board pos.sideToMove k) :
    ∃ k, KingOn next.pieces.board pos.sideToMove k := by
  obtain ⟨k, hk⟩ := hk
  rw [h.board]
  rcases h.made with ⟨hg, -⟩ | ⟨k', hk', rfl⟩
  · refine ⟨kingAfter m k, ?_⟩
    rw [moved, hg.1.not_special.1]
    show KingOn (after pos.pieces.board m.ply) _ _
    rw [hg.1.after_eq]
    exact placed_king hg.carries hg.1.promoted_king hk
  · have hhome := hh k' hk'.mem hk'.right
    rw [hk'.side] at hhome
    refine ⟨k'.kingTo, ?_⟩
    rw [moved_castle _ hk'.mem, ← hk'.side]
    exact castled_king fun q hq => ((hk q).1 (hk'.side ▸ hq)).trans ((hk _).1 hhome).symm

/-- A king that is not attacked is not captured. -/
theorem other_king (hs : Sound pos) (h : Effect pos m next) (hk : KingOn pos.pieces.board pos.sideToMove.inverse k)
    (hn : ¬ Attacked pos.pieces.board k pos.sideToMove) : KingOn next.pieces.board pos.sideToMove.inverse k := by
  rw [h.board]
  rcases h.made with ⟨hg, -⟩ | ⟨k', hk', rfl⟩
  · rw [moved, hg.1.not_special.1]
    show KingOn (after pos.pieces.board m.ply) _ _
    rw [hg.1.after_eq]
    refine placed_other_king hg.carries hk fun he => hn ?_
    rw [← he]
    refine hg.1.attacked (fun q hq => ?_) (he ▸ hk.here)
    obtain ⟨ct, hct⟩ := Option.ne_none_iff_exists'.1 hq
    exact hs.valid.lt_of_board hct
  · intro q
    rw [moved_castle _ hk'.mem, ← hk'.side, castled_enemy hk'.mem hk'.between, hk'.side]
    exact hk q

theorem not_attacked (hs : Sound pos) (hsafe : KingsSafe pos) (hk : KingOn pos.pieces.board pos.sideToMove.inverse k) :
    ¬ Attacked pos.pieces.board k pos.sideToMove := fun ha =>
  hsafe.2 ⟨k, hs.valid.lt_of_board hk.here, hk.here, by rwa [PieceColor.inverse_inverse]⟩

theorem kingsHome_next (hs : Sound pos) (h : Effect pos m next) (hsafe : KingsSafe pos) (hh : KingsHome pos) :
    KingsHome next := by
  intro k hk hright
  rw [h.right k hk, Bool.and_eq_true, decide_eq_true_eq] at hright
  obtain ⟨hright, hfrom⟩ := hright
  have hhome := hh k hk hright
  by_cases hside : k.side = pos.sideToMove
  · rw [h.board]
    rcases h.made with ⟨hg, -⟩ | ⟨k', hk', rfl⟩
    · have hto : k.kingFrom ≠ m.to := fun he => hg.carries.free .king (he ▸ hside ▸ hhome)
      rw [moved, hg.1.not_special.1]
      show after pos.pieces.board m.ply _ = _
      rw [hg.1.after_eq, placed, Function.update_of_ne hto, Function.update_of_ne hfrom.1.symm]
      exact hhome
    · exact absurd (kingFrom_eq hk'.mem hk (hk'.side.trans hside.symm)) hfrom.1
  · have hside := PieceColor.eq_inverse_of_ne hside
    obtain ⟨q, hq⟩ := hsafe.1 pos.sideToMove.inverse
    rw [hside] at hhome ⊢
    have hkq : k.kingFrom = q := (hq _).1 hhome
    rw [hkq]
    exact (other_king hs h hq (not_attacked hs hsafe hq)).here

/-- The kings stay safe exactly when the move does not expose the mover's king. -/
theorem kingsSafe_next (hs : Sound pos) (h : Effect pos m next) (hsafe : KingsSafe pos) (hh : KingsHome pos) :
    KingsSafe next ↔ ¬ Exposes pos m := by
  obtain ⟨q, hq⟩ := mover_king h hh (hsafe.1 _)
  obtain ⟨r, hr⟩ := hsafe.1 pos.sideToMove.inverse
  have hr' := other_king hs h hr (not_attacked hs hsafe hr)
  have hkings : ∀ c, ∃ k, KingOn next.pieces.board c k := by
    intro c
    by_cases hc : c = pos.sideToMove
    · exact hc ▸ ⟨q, hq⟩
    · exact PieceColor.eq_inverse_of_ne hc ▸ ⟨r, hr'⟩
  have hq64 : q < 64 := h.valid.lt_of_board hq.here
  -- The engine's own test has seen to the pawns, knights and kings.
  have hleap : ¬ LeaperAttacked next.pieces.board q pos.sideToMove.inverse := by
    rw [← isCheck_iff h.valid hq, h.unchecked]
    simp
  unfold KingsSafe Exposes
  rw [h.sideToMove, PieceColor.inverse_inverse, ← h.board, inCheck_iff hq hq64, inCheck_iff hq hq64, attacked_iff]
  exact ⟨fun hn hsl => hn.2 (.inr hsl), fun hn => ⟨hkings, fun ha => ha.elim hleap hn⟩⟩

theorem init_king (c : PieceColor) : KingOn Position.init.pieces.board c (if c = .white then 4 else 60) := by
  have hking : ∀ q < 64, ∀ c ∈ [PieceColor.white, .black],
      Position.init.pieces.board q = some (c, .king) ↔ q = if c = .white then 4 else 60 := by decide +kernel
  intro q
  by_cases hq : q < 64
  · exact hking q hq c (by cases c <;> simp)
  · rw [init_valid.board_ge (by omega)]
    refine ⟨fun h => (nomatch h), fun h => ?_⟩
    split at h <;> omega

theorem init_kingsSafe : KingsSafe Position.init := by
  refine ⟨fun c => ⟨_, init_king c⟩, ?_⟩
  rw [inCheck_iff (init_king _) (by decide)]
  decide +kernel

theorem init_kingsHome : KingsHome Position.init := fun k hk hr => (init_truthful k hk hr).1

/-! ## The games of a room -/

/-- A call of `on_move` that is accepted. -/
def Accepted (room : GameRoom) (call : MoveCall) (room' : GameRoom) : Prop := ∃ e, room.onMove call = .ok (room', e)

theorem Accepted.played {room room' : GameRoom} {call : MoveCall} (h : Accepted room call room') :
    ∃ m, room.chosen call = .ok m ∧ Played room.position m room'.position := by
  obtain ⟨e, he⟩ := h
  obtain ⟨m, ha⟩ := onMove_ok he
  exact ⟨m, ha.chosen, ha.mem, ha.applied⟩

variable {white black : SessionId} {l : List (GameRoom × MoveCall)} {room : GameRoom}

theorem new_position : (GameRoom.new white black).position = Position.init := rfl

theorem room_reached (h : Reachable Accepted (GameRoom.new white black) room) : Reached room.position := by
  refine h.inv (fun room : GameRoom => Reached room.position) ?_ fun hr hs => ?_
  · rw [new_position]
    exact Reachable.init
  · obtain ⟨m, -, hp⟩ := hs.played
    exact hr.next hp

/-- The accepted call exposes the mover's king. -/
def ExposesKing (room : GameRoom) (call : MoveCall) : Prop := ∃ m, room.chosen call = .ok m ∧ Exposes room.position m

instance (pos : Position) (m : Move) : Decidable (Exposes pos m) := by
  unfold Exposes; infer_instance

instance (room : GameRoom) (call : MoveCall) : Decidable (ExposesKing room call) :=
  match h : room.chosen call with
  | .ok m => decidable_of_iff (Exposes room.position m)
    ⟨fun hx => ⟨m, h, hx⟩, fun ⟨m', hm', hx⟩ => by cases h.symm.trans hm'; exact hx⟩
  | .error _ => isFalse fun ⟨_, hm', _⟩ => by cases h.symm.trans hm'

theorem kings_run (h : Run Accepted (GameRoom.new white black) l room) :
    (((∀ x ∈ l, KingsSafe x.1.position) ∧ KingsSafe room.position) ↔ ∀ x ∈ l, ¬ ExposesKing x.1 x.2) ∧
      ((∀ x ∈ l, KingsSafe x.1.position) → KingsSafe room.position → KingsHome room.position) := by
  refine h.always_iff (fun room : GameRoom => KingsSafe room.position) (fun room => KingsHome room.position)
    (fun room call => ¬ ExposesKing room call) (new_position ▸ init_kingsSafe) (new_position ▸ init_kingsHome)
    fun {room call room'} hr hsafe hhome hacc => ?_
  have hpos := room_reached hr
  obtain ⟨m, hm, hp⟩ := hacc.played
  have he := hpos.effect hp
  refine ⟨kingsHome_next hpos.sound he hsafe hhome, (kingsSafe_next hpos.sound he hsafe hhome).trans (not_congr ?_)⟩
  constructor
  · exact fun hx => ⟨m, hm, hx⟩
  · rintro ⟨m', hm', hx⟩
    rw [hm] at hm'
    cases hm'
    exact hx

/-- The room after the calls, if all are accepted. -/
def game (white black : SessionId) (calls : List MoveCall) : Option GameRoom :=
  follow (fun room call => match room.onMove call with
    | .ok (room', _) => some (call, room')
    | .error _ => none) (GameRoom.new white black) calls

theorem game_run {calls : List MoveCall} (h : game white black calls = some room) :
    ∃ l, Run Accepted (GameRoom.new white black) l room ∧ l.map Prod.snd = calls := by
  obtain ⟨l, hr, hl⟩ := follow_run Accepted id (fun {room call call' room'} hf => by
    split at hf
    · rename_i room' e he
      simp only [Option.some.injEq, Prod.mk.injEq] at hf
      obtain ⟨rfl, rfl⟩ := hf
      exact ⟨⟨e, he⟩, rfl⟩
    · cases hf) .nil h
  exact ⟨l, by simpa using hr, by simpa using hl⟩

/-- Is the call accepted, with an outcome that passes the test? -/
def GameRoom.tests (room : GameRoom) (call : MoveCall) (test : GameRoom → Option Ending → Bool) : Bool :=
  match room.onMove call with
  | .ok (room', e) => test room' e
  | .error _ => false

theorem onMove_of_test (room : GameRoom) (call : MoveCall) (test : GameRoom → Option Ending → Bool)
    (h : room.tests call test = true) : ∃ room' e, room.onMove call = .ok (room', e) ∧ test room' e = true := by
  unfold GameRoom.tests at h
  split at h
  · rename_i room' e he
    exact ⟨room', e, he, h⟩
  · cases h

end ChessGame