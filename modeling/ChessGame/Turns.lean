import ChessGame.Endings
import ChessGame.Kings
/-!
# Move commands

A move command changes a game only when it comes from the player to move and names
one generated move. The move list may hold a castling and a move of a rook or a
queen with the same squares: a castling keeps its flag when the king is captured
on its home square, and the piece that recaptures there can go where the king would.
-/

namespace ChessGame

open Rules MoveGen BitboardOps Position

/-! ## Which moves have the same squares -/

variable {pos : Position} {m m' : Move} {b : Board} {c : PieceColor} {src dst : ℕ} {promotion : String}

/-- A castling is offered, and a rook or a queen on the king's home square is offered the same squares. -/
def Clash (pos : Position) (src dst : ℕ) : Prop :=
  ∃ k ∈ Castling.all, castleMove k ∈ pos.generateMoves.moves ∧ k.kingFrom = src ∧ k.kingTo = dst ∧
    ∃ m ∈ pos.generateMoves.moves, m.from = src ∧ m.to = dst ∧ (m.attackerType = .rook ∨ m.attackerType = .queen)

instance (pos : Position) (src dst : ℕ) : Decidable (Clash pos src dst) := by
  unfold Clash; infer_instance

/-- The promotions are told apart by the letter. -/
theorem promotionMatches_inj {f f' : Flag} (h : promotionMatches f promotion = true)
    (h' : promotionMatches f' promotion = true) : f = f' := by
  cases f <;> cases f' <;> simp_all [promotionMatches]

/-- The squares and the board say everything about a move but its flag. -/
theorem Rules.Plays.fields {r : Ply} (h : Plays b c r) :
    b r.from = some (c, r.attackerType) ∧ r.attackerSide = c ∧ r.defenderType = (b r.to).map Prod.snd := by
  cases h with
  | push hb _ _ _ he _ => exact ⟨hb, rfl, by rw [he]; rfl⟩
  | double hb _ _ _ _ _ _ _ _ he => exact ⟨hb, rfl, by rw [he]; rfl⟩
  | capture hb _ _ ht _ => exact ⟨hb, rfl, by rw [ht]; rfl⟩
  | piece hb _ _ _ _ => exact ⟨hb, rfl, rfl⟩

/-- Two moves of the pieces with the same squares differ in the promotion only. -/
theorem plays_same {r r' : Ply} (h : Plays b c r) (h' : Plays b c r') (hfrom : r.from = r'.from) (hto : r.to = r'.to)
    (hflag : r.flag ∈ Flag.promotions → r'.flag ∈ Flag.promotions → r.flag = r'.flag) : r = r' := by
  obtain ⟨hb, hs, hd⟩ := h.fields
  obtain ⟨hb', hs', hd'⟩ := h'.fields
  have ht : r.attackerType = r'.attackerType := by
    rw [← hfrom, hb] at hb'
    simpa using hb'
  have hf : r.flag = r'.flag := by
    have hby := h.flag_by
    have hby' := h'.flag_by
    rw [← hfrom, ← hto, ← ht] at hby'
    obtain ⟨hp, hr, hf⟩ | ⟨hp, hr, hf⟩ | ⟨hp, hf⟩ := hby <;>
      obtain ⟨hp', hr', hf'⟩ | ⟨hp', hr', hf'⟩ | ⟨hp', hf'⟩ := hby'
    · obtain ⟨hl, hf⟩ | ⟨hl, hf⟩ := hf <;> obtain ⟨hl', hf'⟩ | ⟨hl', hf'⟩ := hf'
      · exact hflag hf hf'
      · exact absurd hl hl'
      · exact absurd hl' hl
      · rw [hf, hf']
    all_goals first | omega | exact absurd hp hp' | exact absurd hp' hp | rw [hf, hf']
  cases r
  cases r'
  simp only at hfrom hto ht hs hs' hd hd' hf
  subst hfrom hto ht hf
  rw [hs, hs', hd, hd']

/-- Only rooks and queens reach the square to which the king would castle. -/
theorem plays_castle {r : Ply} (h : Plays b c r) {k : Castling} (hk : k ∈ Castling.all) (hfrom : r.from = k.kingFrom)
    (hto : r.to = k.kingTo) : r.attackerType = .rook ∨ r.attackerType = .queen := by
  have hsquares : files r.from r.to = 2 ∧ ranks r.from r.to = 0 := by
    rw [hfrom, hto]
    rcases Castling.cases hk with rfl | rfl | rfl | rfl <;> decide
  obtain ⟨hx, hy⟩ := hsquares
  obtain ⟨-, hr, -⟩ | ⟨-, hr, -⟩ | ⟨hne, -⟩ := h.flag_by
  · omega
  · omega
  cases h with
  | @piece p q t _ ht _ ha _ =>
    simp only at hx hy hne ⊢
    cases t with
    | pawn => exact absurd rfl hne
    | knight => simp only [Attacks, KnightAttacks] at ha; omega
    | king => simp only [Attacks, KingAttacks] at ha; omega
    | rook => exact .inl rfl
    | queen => exact .inr rfl
    | bishop =>
      obtain ⟨d, hd, n, -, h0, hfile, hrank, -⟩ := ha
      simp only [diagonals, List.mem_cons, List.not_mem_nil, or_false] at hd
      simp only [files, ranks] at hx hy
      rcases hd with rfl | rfl | rfl | rfl <;> simp only at hfile hrank <;> omega
  | _ => exact absurd rfl hne

/-- Two generated moves that answer one request are equal, or the request is for a clash. -/
theorem answers_unique (hs : Sound pos) (hm : m ∈ pos.generateMoves.moves) (hm' : m' ∈ pos.generateMoves.moves)
    (ha : Answers src dst promotion m) (ha' : Answers src dst promotion m') (hclash : ¬ Clash pos src dst) :
    m = m' := by
  obtain ⟨hfrom, hto, hpr⟩ := ha
  obtain ⟨hfrom', hto', hpr'⟩ := ha'
  have hmixed : ∀ {m k}, m ∈ pos.generateMoves.moves → m.from = src → m.to = dst →
      Generated pos.pieces.board pos.sideToMove m → CastleMade pos k → castleMove k ∈ pos.generateMoves.moves →
      k.kingFrom = src → k.kingTo = dst → False := by
    intro m k hm hfrom hto hg hk hmem hkf hkt
    exact hclash ⟨k, hk.mem, hmem, hkf, hkt, m, hm, hfrom, hto,
      plays_castle hg.1 hk.mem (hfrom.trans hkf.symm) (hto.trans hkt.symm)⟩
  obtain ⟨hg, -⟩ | ⟨k, hk, rfl⟩ := hs.made hm <;> obtain ⟨hg', -⟩ | ⟨k', hk', rfl⟩ := hs.made hm'
  · have hply : m.ply = m'.ply := by
      refine plays_same hg.1 hg'.1 (hfrom.trans hfrom'.symm) (hto.trans hto'.symm) fun hf hf' => ?_
      exact promotionMatches_inj (hpr (Flag.mem_promotions.1 hf)) (hpr' (Flag.mem_promotions.1 hf'))
    have hside : m.defenderSide = m'.defenderSide := by rw [hg.2, hg'.2, hply]
    cases m
    cases m'
    simp_all [Move.ply]
  · exact absurd (hmixed hm hfrom hto hg hk' hm' hfrom' hto') id
  · exact absurd (hmixed hm' hfrom' hto' hg' hk hm hfrom hto) id
  · have hsame : k = k' := by
      have h1 : k.kingFrom = k'.kingFrom := hfrom.trans hfrom'.symm
      have h2 : k.kingTo = k'.kingTo := hto.trans hto'.symm
      rcases Castling.cases hk.mem with rfl | rfl | rfl | rfl <;>
        rcases Castling.cases hk'.mem with rfl | rfl | rfl | rfl <;>
        first | rfl | exact absurd h1 (by decide) | exact absurd h2 (by decide)
    rw [hsame]

/-! ## The list that is searched -/

theorem generateMoves_nodup (hs : Sound pos) : pos.generateMoves.moves.Nodup := by
  unfold Position.generateMoves
  rw [generateAllMoves_moves]
  exact (allMoves_nodup hs.valid).sublist (List.take_sublist ..)

/-- The search stops at a move with these squares, if none of them is a promotion. -/
theorem findMove_left {l l' : List Move} (h : ∃ m ∈ l, m.from = src ∧ m.to = dst)
    (hp : ∀ m ∈ l, m.from = src → m.to = dst → m.flag.isPromotion = false) :
    ∃ m ∈ l, findMove src dst promotion (l ++ l') = .ok m := by
  induction l with
  | nil =>
    obtain ⟨m, hm, -⟩ := h
    cases hm
  | cons m l ih =>
    rw [List.cons_append]
    unfold findMove
    by_cases hsq : m.from = src ∧ m.to = dst
    · refine ⟨m, List.mem_cons_self, ?_⟩
      rw [if_pos (by simpa using hsq), hp m List.mem_cons_self hsq.1 hsq.2]
      rfl
    · rw [if_neg (by simpa using hsq)]
      obtain ⟨m', hm', hsq'⟩ := h
      obtain rfl | hm' := List.mem_cons.1 hm'
      · exact absurd hsq' hsq
      · obtain ⟨m'', hm'', hf⟩ := ih ⟨m', hm', hsq'⟩ fun m hm => hp m (List.mem_cons_of_mem _ hm)
        exact ⟨m'', List.mem_cons_of_mem _ hm'', hf⟩

/-- The castlings are generated last. -/
theorem allMoves_castling (p : Pieces) (s : PieceColor) (ep : Option ℕ) (rights : CastlingRights) :
    allMoves p s ep rights = (families p s ep rights).dropLast.flatten ++ castleMoves p s rights := by
  simp [allMoves, families]

/-- No pawn is promoted on the way of a castling king. -/
theorem castling_squares_plain (hs : Sound pos) {k : Castling} (hk : k ∈ Castling.all)
    (hm : m ∈ pos.generateMoves.moves) (hfrom : m.from = k.kingFrom) (hto : m.to = k.kingTo) :
    m.flag.isPromotion = false := by
  obtain ⟨hg, -⟩ | ⟨k', hk', rfl⟩ := hs.made hm
  · have ht := plays_castle hg.1 hk hfrom hto
    obtain ⟨hp, -⟩ | ⟨hp, -⟩ | ⟨-, hflag⟩ := hg.1.flag_by
    · simp [hp] at ht
    · simp [hp] at ht
    · rw [show m.flag = .default from hflag]
      rfl
  · rcases Castling.cases hk'.mem with rfl | rfl | rfl | rfl <;> rfl

/-- In a clash, `on_move` picks the move of the rook or queen. -/
theorem clash_chosen (promotion : String) (hs : Sound pos) (h : Clash pos src dst) :
    ∃ m, findMove src dst promotion pos.generateMoves.moves = .ok m ∧ Generated pos.pieces.board pos.sideToMove m ∧
      isLegalMove pos.pieces m pos.rights = true := by
  obtain ⟨k, hk, hkm, rfl, rfl, m, hm, hfrom, hto, ht⟩ := h
  have hnd : (allMoves pos.pieces pos.sideToMove pos.enPassant pos.rights).Nodup := allMoves_nodup hs.valid
  have hmoves : pos.generateMoves.moves =
      (allMoves pos.pieces pos.sideToMove pos.enPassant pos.rights).take MAX_MOVES :=
    generateAllMoves_moves
  rw [allMoves_castling] at hnd hmoves
  rw [List.take_append] at hmoves
  generalize (families pos.pieces pos.sideToMove pos.enPassant pos.rights).dropLast.flatten = l at hnd hmoves
  have hmem : ∀ {m}, m ∈ l.take MAX_MOVES → m ∈ pos.generateMoves.moves :=
    fun hm => hmoves ▸ List.mem_append_left _ hm
  -- the moves before the castlings are none
  have hpieces : ∀ {m}, m ∈ l.take MAX_MOVES →
      Generated pos.pieces.board pos.sideToMove m ∧ isLegalMove pos.pieces m pos.rights = true := by
    intro m hm
    obtain hg | ⟨k', hk', rfl⟩ := hs.made (hmem hm)
    · exact hg
    · have hlegal : isLegalMove pos.pieces (castleMove k') pos.rights = true :=
        (isLegalMove_castle hk'.mem).2 ⟨hk'.unchecked, hk'.right, hk'.path⟩
      have hcastle : castleMove k' ∈ castleMoves pos.pieces pos.sideToMove pos.rights :=
        (mem_castleMoves hs.valid).2 ⟨k', hk'.mem, hk'.side, hk'.right, hk'.between, hlegal, rfl⟩
      exact absurd rfl ((List.nodup_append.1 hnd).2.2 _ (List.mem_of_mem_take hm) _ hcastle)
  have hfirst : ∃ m ∈ l.take MAX_MOVES, m.from = k.kingFrom ∧ m.to = k.kingTo := by
    refine ⟨m, ?_, hfrom, hto⟩
    rw [hmoves, List.mem_append] at hm
    refine hm.resolve_right fun hm => ?_
    obtain ⟨_, -, -, -, -, -, rfl⟩ := (mem_castleMoves hs.valid).1 (List.mem_of_mem_take hm)
    simp [castleMove] at ht
  have hplain : ∀ m ∈ l.take MAX_MOVES, m.from = k.kingFrom → m.to = k.kingTo → m.flag.isPromotion = false :=
    fun m hm => castling_squares_plain hs hk (hmem hm)
  rw [hmoves]
  obtain ⟨m', hm', hf⟩ := findMove_left hfirst hplain
  exact ⟨m', hf, hpieces hm'⟩

/-! ## The command -/

namespace Server

open Runs

variable {env : Env} {s t : Server} {p : SessionId} {r : RoomId} {room room' : GameRoom} {ev : Event}

/-- Every room shows a position that generated moves lead to. -/
def Games (s : Server) : Prop :=
  ∀ (r : RoomId) (room : GameRoom), s.rooms[r]? = some room → ChessGame.Reached room.position

theorem Games.setGame (h : Games s) (hr : ChessGame.Reached room.position) : Games (s.setGame r room) := by
  intro r' room' hr'
  have hset : (s.rooms.set r room)[r']? = some room' := hr'
  rw [List.getElem?_set] at hset
  split at hset
  · split at hset
    · cases hset
      exact hr
    · cases hset
  · exact h r' room' hset

theorem Games.seated (h : Games s) (hr : s.roomOf p = some (r, room)) : ChessGame.Reached room.position :=
  h r room (roomOf_eq_some.1 hr).2

theorem Ends.reached {e : Ending} (h : Games s) (he : Ends s ev r room e) : ChessGame.Reached room.position := by
  cases he with
  | move hr hm =>
    obtain ⟨m, hacc⟩ := onMove_ok hm
    exact (h.seated hr).next ⟨hacc.mem, hacc.applied⟩
  | accept hr _ => exact h.seated hr

theorem Change.games (h : Games s) (hc : Change env s ev t) : Games t := by
  cases hc with
  | idle _ | refused _ | login _ _ | queued _ _ _ | unqueued _ _ => exact h
  | @paired _ _ white black _ _ _ _ _ =>
    intro r' room' hr'
    have hadd : (s.rooms ++ [GameRoom.new white black])[r']? = some room' := hr'
    rw [List.getElem?_append] at hadd
    split at hadd
    · exact h r' room' hadd
    · rw [List.getElem?_singleton] at hadd
      split at hadd
      · cases hadd
        exact Reachable.init
      · cases hadd
  | changed hr _ _ hpos =>
    obtain hpos | ⟨m, hp⟩ := hpos
    · exact h.setGame (hpos ▸ h.seated hr)
    · exact h.setGame ((h.seated hr).next hp)
  | ended he =>
    intro r' room' hr'
    rw [endGame_eq, finish_rooms] at hr'
    exact h.setGame (he.reached h) r' room' hr'
  | quit _ _ =>
    intro r' room' hr'
    have hr'' : (roomDisconnect env _ _ _ s).1.rooms[r']? = some room' := hr'
    rw [roomDisconnect_eq, finish_rooms] at hr''
    exact h r' room' hr''

theorem Reached.games (h : Reached env s) : Games s := by
  have hinv : Lobby s ∧ Games s := by
    refine h.inv (fun s => Lobby s ∧ Games s) ⟨init_lobby, nofun⟩ ?_
    rintro s ev t ⟨hl, hg⟩ hh
    have hc := hh.change hl
    exact ⟨hc.lobby hl, hc.games hg⟩
  exact hinv.2

/-- The player whose turn it is. -/
def toMove (room : GameRoom) : SessionId := if room.position.sideToMove = .white then room.white else room.black

/-- The change of a room that the command may make. -/
structure Moved (s : Server) (p : SessionId) (src dst promotion : String) (r : RoomId) (room room' : GameRoom) :
    Prop where
  seat : (s.sessions p).room = some r
  turn : p = toMove room
  move : ∃ a b m, algebraicToIndex src = some a ∧ algebraicToIndex dst = some b ∧
    room.position.generateMoves.moves.filter (Answers a b promotion) = [m] ∧
    room.position.applyMove m = (true, room'.position)

/-- What `handle_move` may do. -/
structure MoveRight (env : Env) (s : Server) (p : SessionId) (src dst promotion : String) : Prop where
  changed : ∀ r room room', s.rooms[r]? = some room →
    (s.handleMove env p src dst promotion).1.rooms[r]? = some room' → room'.position ≠ room.position →
    Moved s p src dst promotion r room room'
  others : ∀ r, (s.sessions p).room ≠ some r → (s.handleMove env p src dst promotion).1.rooms[r]? = s.rooms[r]?
  refused : (∃ text, (p, .error text) ∈ (s.handleMove env p src dst promotion).2) →
    (s.handleMove env p src dst promotion).1 = s

/-- The session is to move, and asks for squares on which moves clash. -/
def Ambiguous (s : Server) (p : SessionId) (src dst : String) : Prop :=
  ∃ r room a b, s.roomOf p = some (r, room) ∧ p = toMove room ∧ algebraicToIndex src = some a ∧
    algebraicToIndex dst = some b ∧ Clash room.position a b

theorem endGame_polite (env : Env) (r : RoomId) (room : GameRoom) (e : Ending) (s : Server) (text : String) :
    (p, .error text) ∉ (s.endGame env r room e).2 := by
  unfold endGame rateWinner
  cases e.winner with
  | none => simp [broadcast]
  | some w =>
    cases hl : room.opponentOf w with
    | none => simp [hl, broadcast]
    | some loser => simp [hl, broadcast, updateRating]

/-- An accepted move replaces the room, and no error is reported. -/
theorem handleMove_accepted (env : Env) (hauth : (s.sessions p).authorized = true) (hr : s.roomOf p = some (r, room))
    {src dst promotion : String} {e : Option Ending} (hm : room.onMove ⟨p, src, dst, promotion⟩ = .ok (room', e)) :
    (s.handleMove env p src dst promotion).1.rooms = s.rooms.set r room' ∧
      ∀ text, (p, .error text) ∉ (s.handleMove env p src dst promotion).2 := by
  unfold handleMove
  rw [if_neg (by simp [hauth]), hr]
  simp only [roomMove, hm]
  cases e with
  | none =>
    constructor
    · dsimp only
      split <;> rfl
    · intro text
      dsimp only
      split <;> simp [broadcast]
  | some e =>
    constructor
    · dsimp only
      rw [endGame_eq, finish_rooms]
      rfl
    · intro text
      dsimp only
      rw [List.mem_append, not_or]
      exact ⟨by simp [broadcast], endGame_polite env r room' e _ text⟩

theorem handleMove_cases (env : Env) (s : Server) (p : SessionId) (src dst promotion : String) :
    (s.handleMove env p src dst promotion).1 = s ∨ ∃ r room room' e, (s.sessions p).authorized = true ∧
      s.roomOf p = some (r, room) ∧ room.onMove ⟨p, src, dst, promotion⟩ = .ok (room', e) := by
  unfold handleMove
  split
  · exact .inl rfl
  rename_i hauth
  cases hr : s.roomOf p with
  | none => exact .inl rfl
  | some x =>
    obtain ⟨r, room⟩ := x
    cases hm : room.onMove ⟨p, src, dst, promotion⟩ with
    | error text =>
      simp only [roomMove, hm]
      exact .inl trivial
    | ok x => exact .inr ⟨r, room, x.1, x.2, by simpa using hauth, rfl, hm⟩

/-- The sender of an accepted move is the player to move. -/
theorem accepted_turn (hl : Lobby s) (hr : s.roomOf p = some (r, room)) {call : MoveCall} (hp : call.player = p)
    {e : Option Ending} {m : Move} (ha : Accepts room call room' e m) : p = toMove room := by
  subst hp
  obtain ⟨hw, hb⟩ := ha.turn
  unfold toMove
  obtain hor | hor := (hl.roomOf hr).2
  · rw [if_pos (hw hor)]
    exact hor
  · rw [if_neg (by rw [hb hor]; decide)]
    exact hor

/-- Without a clash, the one move that answers is made. -/
theorem moved_of_accepted (h : Reached env s) {src dst promotion : String} (hamb : ¬ Ambiguous s p src dst)
    (hr : s.roomOf p = some (r, room)) {e : Option Ending} {m : Move}
    (ha : Accepts room ⟨p, src, dst, promotion⟩ room' e m) : Moved s p src dst promotion r room room' where
  seat := (roomOf_eq_some.1 hr).1
  turn := accepted_turn h.lobby hr rfl ha
  move := by
    obtain ⟨a, b, hsrc, hdst, hans⟩ := ha.answers
    have hs := (h.games.seated hr).sound
    have hclash : ¬ Clash room.position a b := fun hc =>
      hamb ⟨r, room, a, b, hr, accepted_turn h.lobby hr rfl ha, hsrc, hdst, hc⟩
    refine ⟨a, b, m, hsrc, hdst, List.perm_singleton.1 ?_, ha.applied⟩
    rw [List.perm_ext_iff_of_nodup ((generateMoves_nodup hs).filter _) (List.nodup_singleton m)]
    intro m'
    rw [List.mem_filter, List.mem_singleton, decide_eq_true_eq]
    constructor
    · rintro ⟨hm', ha'⟩
      exact answers_unique hs hm' ha.mem ha' hans hclash
    · rintro rfl
      exact ⟨ha.mem, hans⟩

/-- In a clash the command is accepted. -/
theorem accepted_of_ambiguous (h : Reached env s) {src dst : String} (promotion : String)
    (hamb : Ambiguous s p src dst) :
    ∃ r room room' e a b, s.roomOf p = some (r, room) ∧ algebraicToIndex src = some a ∧
      algebraicToIndex dst = some b ∧ Clash room.position a b ∧
      room.onMove ⟨p, src, dst, promotion⟩ = .ok (room', e) ∧ room'.position ≠ room.position := by
  obtain ⟨r, room, a, b, hr, hturn, hsrc, hdst, hclash⟩ := hamb
  have hpos := h.games.seated hr
  obtain ⟨m, hfind, hg, hl⟩ := clash_chosen promotion hpos.sound hclash
  obtain ⟨next, happly⟩ : ∃ next, room.position.applyMove m = (true, next) :=
    ⟨_, Prod.ext (applyMove_generated hpos.sound hg hl) rfl⟩
  have hne := (h.lobby.roomOf hr).1.ne
  have hchosen : room.chosen ⟨p, src, dst, promotion⟩ = .ok m := by
    unfold GameRoom.chosen
    simp only [hsrc, hdst, hfind, hturn, toMove]
    cases hside : room.position.sideToMove <;> simp [hne, hne.symm]
  refine ⟨r, room, { room with position := next }, GameRoom.verdict { room with position := next }, a, b, hr, hsrc,
      hdst, hclash, ?_, fun heq => ?_⟩
  · unfold GameRoom.onMove
    rw [hchosen]
    dsimp only
    rw [happly]
  · have hctr := (hpos.effect ⟨(findMove_ok hfind).1, happly⟩).moveCtr
    rw [show next = room.position from heq] at hctr
    omega

theorem Ambiguous.not_moveRight (h : Reached env s) {src dst promotion : String} (hamb : Ambiguous s p src dst) :
    ¬ MoveRight env s p src dst promotion := by
  intro hright
  obtain ⟨r, room, room', e, a, b, hr, hsrc, hdst, hclash, hm, hne⟩ := accepted_of_ambiguous h promotion hamb
  have hroom := (roomOf_eq_some.1 hr).2
  have hauth := h.lobby.signedIn hr
  have hnew : (s.handleMove env p src dst promotion).1.rooms[r]? = some room' := by
    rw [(handleMove_accepted env hauth hr hm).1]
    exact List.getElem?_set_self (List.getElem?_eq_some_iff.1 hroom).1
  obtain ⟨a', b', m, hsrc', hdst', hone, -⟩ := (hright.changed r room room' hroom hnew hne).move
  cases hsrc.symm.trans hsrc'
  cases hdst.symm.trans hdst'
  obtain ⟨k, hk, hkm, rfl, rfl, m', hm', hfrom, hto, ht⟩ := hclash
  have hs := (h.games.seated hr).sound
  -- both the castling and the other move pass the filter
  have hking : castleMove k ∈ room.position.generateMoves.moves.filter
      (fun m => Answers k.kingFrom k.kingTo promotion m) := by
    refine List.mem_filter.2 ⟨hkm, decide_eq_true ⟨rfl, rfl, fun hp => ?_⟩⟩
    rw [castling_squares_plain hs hk hkm rfl rfl] at hp
    cases hp
  have hother : m' ∈ room.position.generateMoves.moves.filter (fun m => Answers k.kingFrom k.kingTo promotion m) := by
    refine List.mem_filter.2 ⟨hm', decide_eq_true ⟨hfrom, hto, fun hp => ?_⟩⟩
    rw [castling_squares_plain hs hk hm' hfrom hto] at hp
    cases hp
  rw [hone, List.mem_singleton] at hking hother
  rw [hother, ← hking] at ht
  simp [castleMove] at ht

/-- In every state reached: a move command changes one game at most, that of the player
to move and by the one generated move it names, and changes nothing when it is
refused, exactly when it does not name the squares of a clash. -/
theorem handleMove_iff (h : Reached env s) (p : SessionId) (src dst promotion : String) :
    MoveRight env s p src dst promotion ↔ ¬ Ambiguous s p src dst := by
  constructor
  · exact fun hright hamb => hamb.not_moveRight h hright
  · intro hamb
    obtain hsame | ⟨r, room, room', e, hauth, hr, hm⟩ := handleMove_cases env s p src dst promotion
    · refine ⟨fun r room room' hr hr' hne => ?_, fun _ _ => by rw [hsame], fun _ => hsame⟩
      rw [hsame, hr] at hr'
      cases hr'
      exact absurd rfl hne
    · obtain ⟨m, ha⟩ := onMove_ok hm
      obtain ⟨hrooms, hpolite⟩ := handleMove_accepted env hauth hr hm
      refine ⟨fun r' room₁ room₂ hr₁ hr₂ hne => ?_, fun r' hseat => ?_, fun ⟨text, htext⟩ =>
        absurd htext (hpolite text)⟩
      · rw [hrooms] at hr₂
        by_cases he : r = r'
        · subst he
          have hroom := (roomOf_eq_some.1 hr).2
          cases hr₁.symm.trans hroom
          rw [List.getElem?_set_self (List.getElem?_eq_some_iff.1 hroom).1] at hr₂
          cases hr₂
          exact moved_of_accepted h hamb hr ha
        · rw [List.getElem?_set_ne he, hr₁] at hr₂
          cases hr₂
          exact absurd rfl hne
      · rw [hrooms]
        refine List.getElem?_set_ne ?_
        rintro rfl
        exact hseat (roomOf_eq_some.1 hr).1

/-! ### A clash -/

/-- Two players sign in and queue up. -/
def opening : List Event := [.connect 0, .connect 1, .command 0 (.auth "alice" "a"), .command 1 (.auth "bob" "b"),
  .command 0 .queue, .command 1 .queue]

/-- The moves of a game between the sessions 0 and 1. -/
def plies (white : Bool) : List (String × String) → List Event
  | [] => []
  | (src, dst) :: rest => .command (if white then 0 else 1) (.move src dst "") :: plies (!white) rest

/-- 1.e4 d5 2.exd5 Qxd5 3.Nf3 Qe6 4.Bc4 Qxe1 5.Qxe1 a6 -/
def clashGame : List Event := opening ++ plies true [("e2", "e4"), ("d7", "d5"), ("e4", "d5"), ("d8", "d5"),
  ("g1", "f3"), ("d5", "e6"), ("f1", "c4"), ("e6", "e1"), ("d1", "e1"), ("a7", "a6")]

theorem ambiguous_of_test {src dst : String} {a b : ℕ} (hsrc : algebraicToIndex src = some a)
    (hdst : algebraicToIndex dst = some b)
    (h : (s.roomOf p).any (fun x => p = toMove x.2 ∧ Clash x.2.position a b) = true) : Ambiguous s p src dst := by
  obtain ⟨⟨r, room⟩, hr, hx⟩ := (Option.any_eq_true _ _).1 h
  obtain ⟨hturn, hclash⟩ := of_decide_eq_true hx
  exact ⟨r, room, a, b, hr, hturn, hsrc, hdst, hclash⟩

/-- 1.e4 -/
theorem handleMove_pawn_move : MoveRight .even (after .even opening) 0 "e2" "e4" "" := by
  refine (handleMove_iff (after_reached .even opening) 0 "e2" "e4" "").2 ?_
  rintro ⟨r, room, a, b, hr, -, hsrc, -, k, hk, -, hfrom, -⟩
  -- the king's home square is not e2
  have hsrc' : algebraicToIndex "e2" = some 12 := by decide +kernel
  rw [hsrc'] at hsrc
  cases hsrc
  rcases Castling.cases hk with rfl | rfl | rfl | rfl <;> exact absurd hfrom (by decide)

/-- The queen on the king's home square and the castling both answer "e1 g1". -/
theorem handleMove_clash : ¬ MoveRight .even (after .even clashGame) 0 "e1" "g1" "" :=
  have hamb : Ambiguous (after .even clashGame) 0 "e1" "g1" :=
    ambiguous_of_test (a := 4) (b := 6) (by decide +kernel) (by decide +kernel) (by decide +kernel)
  hamb.not_moveRight (after_reached .even clashGame)

end Server

end ChessGame
