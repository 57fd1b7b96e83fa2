import ChessGame.Screen
import ChessGame.Dispatch
import ChessGame.Wire
/-!
# What is typed and what is asked

From the line at the console's prompt to the command in the server: the payload, its
dump, and the factory. A move never carries a promotion, and the leaderboard cannot be
asked for.
-/

namespace ChessGame

open ClientUi

/-- Not empty, and no space in it. -/
def Word (cs : List Char) : Prop := cs ≠ [] ∧ ∀ c ∈ cs, isSpace c = false

def Blank (cs : List Char) : Prop := ∀ c ∈ cs, isSpace c = true

/-- The command that a line at the prompt spells, as it reaches the server. -/
inductive Spells : String → Command → Prop
  | queue : Spells "/queue" .queue
  /-- The factory has no class for it. -/
  | leaderboard : Spells "/leaderboard" .invalid
  | leave : Spells "/leave" .leave
  | chat (text : String) : Spells ("/chat " ++ text) (.chat text)
  | move {gap «from» gap' «to» rest : List Char} : Blank gap → Word «from» → Blank gap' → gap' ≠ [] → Word «to» →
      (∀ c ∈ rest.head?, isSpace c = true) → Spells ("/move " ++ String.ofList (gap ++ «from» ++ gap' ++ «to» ++ rest))
        (.move (String.ofList «from») (String.ofList «to») "")
  | draw : Spells "/draw" (.draw "offer")
  | accept : Spells "/draw accept" (.draw "accept")
  | decline : Spells "/draw decline" (.draw "decline")

variable {toFloat : List Byte → Option String} {ui : ClientUi} {line : String} {cmd : Command} {cs rest : List Char}

/-! ## Words -/

theorem readWord_word {gap word : List Char} (hgap : Blank gap) (hword : Word word)
    (hrest : ∀ c ∈ rest.head?, isSpace c = true) : readWord (gap ++ word ++ rest) = (String.ofList word, rest) := by
  obtain ⟨hne, hword⟩ := hword
  have hstart : (word ++ rest).dropWhile isSpace = word ++ rest := by
    obtain ⟨c, word, rfl⟩ := List.exists_cons_of_ne_nil hne
    exact List.dropWhile_cons_of_neg (by simp [hword c List.mem_cons_self])
  have hend : rest.takeWhile (!isSpace ·) = [] ∧ rest.dropWhile (!isSpace ·) = rest := by
    cases rest with
    | nil => exact ⟨rfl, rfl⟩
    | cons c rest => simp [hrest c rfl]
  unfold readWord
  rw [List.append_assoc, List.dropWhile_append_of_pos hgap, hstart]
  dsimp only
  rw [List.takeWhile_append_of_pos (by simpa using hword), List.dropWhile_append_of_pos (by simpa using hword),
    hend.1, hend.2, List.append_nil]

/-- What `>>` took, as it stood. -/
theorem readWord_split (cs : List Char) : ∃ gap word rest, cs = gap ++ word ++ rest ∧ Blank gap ∧
    (∀ c ∈ word, isSpace c = false) ∧ (∀ c ∈ rest.head?, isSpace c = true) ∧
      readWord cs = (String.ofList word, rest) := by
  refine ⟨cs.takeWhile isSpace, (cs.dropWhile isSpace).takeWhile (!isSpace ·),
      (cs.dropWhile isSpace).dropWhile (!isSpace ·),
    ?_, ?_, ?_, ?_, rfl⟩
  · rw [List.append_assoc, List.takeWhile_append_dropWhile, List.takeWhile_append_dropWhile]
  · exact fun c hc => List.mem_takeWhile_imp hc
  · intro c hc
    simpa using List.mem_takeWhile_imp hc
  · intro c hc
    have hhead := List.head?_dropWhile_not (!isSpace ·) (cs.dropWhile isSpace)
    rw [Option.mem_def.1 hc] at hhead
    simpa using hhead

/-! ## Payloads -/

/-- The command that the line of the payload is for the server. -/
def arrives (toFloat : List Byte → Option String) (x : Json) : Command :=
  (ProtocolParser.parse (Json.parse toFloat) x.dump).command

theorem payload_canonical (toFloat : List Byte → Option String) (fields : List (String × String)) :
    Json.Canonical toFloat (payload fields) := by
  have hfold : ∀ members, Json.Canonical toFloat (.object members) → Json.Canonical toFloat
      (.object (fields.foldl (fun members field => Json.set field.1 (.string field.2) members) members)) := by
    induction fields with
    | nil => exact fun members h => h
    | cons field fields ih => exact fun members h => ih _ (Json.canonical_string h)
  exact hfold [] Json.canonical_nil

/-- A payload that is a request's object arrives as the request. -/
theorem arrives_request (toFloat : List Byte → Option String) (fields : List (String × String)) (m : Protocol.Message)
    (h : payload fields = m.toJson) : ∃ cmd : GameCommand, cmd.isValid = true ∧ Conveys m cmd ∧
      arrives toFloat (payload fields) = cmd.command := by
  obtain ⟨hvalid, hconveys⟩ := parse_dump (Json.parse_dump (h ▸ payload_canonical toFloat fields))
  exact ⟨_, hvalid, hconveys, by rw [arrives, h]⟩

theorem arrives_queue : arrives toFloat (payload [("type", "queue")]) = .queue := by
  obtain ⟨cmd, hvalid, htype, he⟩ := arrives_request toFloat [("type", "queue")] .queue rfl
  rw [he, GameCommand.command, hvalid, htype]
  rfl

theorem arrives_leave : arrives toFloat (payload [("type", "leave")]) = .leave := by
  obtain ⟨cmd, hvalid, htype, he⟩ := arrives_request toFloat [("type", "leave")] .leave rfl
  rw [he, GameCommand.command, hvalid, htype]
  rfl

theorem arrives_chat (text : String) : arrives toFloat (payload [("type", "chat"), ("text", text)]) = .chat text := by
  obtain ⟨cmd, hvalid, ⟨htype, rfl⟩, he⟩ := arrives_request toFloat [("type", "chat"), ("text", text)] (.chat ⟨text⟩)
      (by simp [payload]; rfl)
  rw [he, GameCommand.command, hvalid, htype]
  rfl

theorem arrives_draw (action : String) :
    arrives toFloat (payload [("type", "draw"), ("action", action)]) = .draw action := by
  obtain ⟨cmd, hvalid, ⟨htype, rfl⟩, he⟩ := arrives_request toFloat [("type", "draw"), ("action", action)]
      (.draw ⟨action⟩) (by simp [payload]; rfl)
  rw [he, GameCommand.command, hvalid, htype]
  rfl

theorem arrives_move («from» «to» : String) :
    arrives toFloat (payload [("type", "move"), ("from", «from»), ("to", «to»)]) = .move «from» «to» "" := by
  obtain ⟨cmd, hvalid, ⟨htype, rfl, rfl, hpromotion⟩, he⟩ :=
    arrives_request toFloat [("type", "move"), ("from", «from»), ("to", «to»)] (.move ⟨«from», «to», ""⟩)
      (by simp [payload]; rfl)
  rw [he, GameCommand.command, hvalid, htype, hpromotion]
  rfl

theorem arrives_leaderboard : arrives toFloat (payload [("type", "leaderboard")]) = .invalid := by
  have hparse := Json.parse_dump (payload_canonical toFloat [("type", "leaderboard")])
  have htrim : ProtocolParser.trim (payload [("type", "leaderboard")]).dump =
      (payload [("type", "leaderboard")]).dump :=
    trim_dump _
  rw [arrives, ProtocolParser.parse, ProtocolParser.tryParse, htrim, hparse]
  rfl

/-! ## Lines -/

theorem ne_of_start {start t : String} (h : start.toList <+: line.toList) (ht : ¬ start.toList <+: t.toList) :
    line ≠ t := by
  rintro rfl
  exact ht h

theorem enter_chat (ui : ClientUi) (text : String) :
    (ui.enter ("/chat " ++ text)).2 = some (payload [("type", "chat"), ("text", text)]) := by
  have hlist : ("/chat " ++ text).toList = "/chat ".toList ++ text.toList := String.toList_append
  have hstart : "/chat ".toList <+: ("/chat " ++ text).toList := hlist ▸ List.prefix_append _ _
  have hdrop : String.ofList (("/chat " ++ text).toList.drop 6) = text := by
    rw [hlist]
    show String.ofList text.toList = text
    rw [String.ofList_toList]
  unfold enter
  rw [if_neg (ne_of_start hstart (by decide)), if_neg (ne_of_start hstart (by decide)),
    if_neg (ne_of_start hstart (by decide)), if_neg (ne_of_start hstart (by decide)), if_pos hstart]
  dsimp only
  rw [hdrop]

/-- A move, with what `>>` makes of the rest of the line. -/
theorem enter_move (ui : ClientUi) {«from» «to» : String} {rest' : List Char}
    (hline : line = "/move " ++ String.ofList cs)
    (hfrom : readWord cs = («from», rest)) (hto : readWord rest = («to», rest')) :
    (ui.enter line).2 = if «from».isEmpty || «to».isEmpty then none
      else some (payload [("type", "move"), ("from", «from»), ("to", «to»)]) := by
  have hlist : line.toList = "/move ".toList ++ cs := by
    rw [hline, String.toList_append]
    exact congrArg _ String.toList_ofList
  have hstart : "/move ".toList <+: line.toList := hlist ▸ List.prefix_append _ _
  have hdrop : line.toList.drop 6 = cs := by rw [hlist]; rfl
  have hchat : ¬ "/chat ".toList <+: line.toList := by
    rw [hlist]
    rintro ⟨t, ht⟩
    simp at ht
  unfold enter
  rw [if_neg (ne_of_start hstart (by decide)), if_neg (ne_of_start hstart (by decide)),
    if_neg (ne_of_start hstart (by decide)), if_neg (ne_of_start hstart (by decide)), if_neg hchat,
    if_pos hstart, hdrop, hfrom]
  dsimp only
  rw [hto]
  dsimp only
  split <;> rfl

theorem Word.isEmpty (h : Word cs) : (String.ofList cs).isEmpty = false := by
  obtain ⟨c, cs, rfl⟩ := List.exists_cons_of_ne_nil h.1
  simp

/-- What is spelled is sent, and arrives. -/
theorem Spells.arrives (h : Spells line cmd) (toFloat : List Byte → Option String) (ui : ClientUi) :
    ∃ x, (ui.enter line).2 = some x ∧ arrives toFloat x = cmd := by
  cases h with
  | queue => exact ⟨_, rfl, arrives_queue⟩
  | leaderboard => exact ⟨_, rfl, arrives_leaderboard⟩
  | leave => exact ⟨_, rfl, arrives_leave⟩
  | chat text => exact ⟨_, enter_chat ui text, arrives_chat text⟩
  | @move gap «from» gap' «to» rest hgap hfrom hgap' hne hto hrest =>
    have hhead : ∀ c ∈ (gap' ++ «to» ++ rest).head?, isSpace c = true := by
      obtain ⟨c, gap', rfl⟩ := List.exists_cons_of_ne_nil hne
      intro c' hc
      cases hc
      exact hgap' c List.mem_cons_self
    have hline : "/move " ++ String.ofList (gap ++ «from» ++ gap' ++ «to» ++ rest) =
        "/move " ++ String.ofList (gap ++ «from» ++ (gap' ++ «to» ++ rest)) := by simp
    refine ⟨_, ?_, arrives_move _ _⟩
    rw [enter_move ui hline (readWord_word hgap hfrom hhead) (readWord_word hgap' hto hrest), hfrom.isEmpty,
      hto.isEmpty]
    rfl
  | draw => exact ⟨_, rfl, arrives_draw _⟩
  | accept => exact ⟨_, rfl, arrives_draw _⟩
  | decline => exact ⟨_, rfl, arrives_draw _⟩

theorem line_of_start {start : String} (h : start.toList <+: line.toList) :
    line = start ++ String.ofList (line.toList.drop start.toList.length) := by
  obtain ⟨t, ht⟩ := h
  apply String.toList_inj.1
  rw [String.toList_append, String.toList_ofList, ← ht, List.drop_left]

/-- Only what is spelled is sent. -/
theorem spells_of_enter {x : Json} (h : (ui.enter line).2 = some x) : ∃ cmd, Spells line cmd := by
  unfold enter at h
  by_cases hquit : line = "/quit"
  · rw [if_pos hquit] at h
    cases h
  rw [if_neg hquit] at h
  by_cases hqueue : line = "/queue"
  · subst hqueue
    exact ⟨_, .queue⟩
  rw [if_neg hqueue] at h
  by_cases hleaders : line = "/leaderboard"
  · subst hleaders
    exact ⟨_, .leaderboard⟩
  rw [if_neg hleaders] at h
  by_cases hleave : line = "/leave"
  · subst hleave
    exact ⟨_, .leave⟩
  rw [if_neg hleave] at h
  by_cases hchat : "/chat ".toList <+: line.toList
  · rw [line_of_start hchat]
    exact ⟨_, .chat _⟩
  rw [if_neg hchat] at h
  by_cases hmove : "/move ".toList <+: line.toList
  · obtain ⟨gap, «from», rest, hcs, hgap, hfrom, hrest, hread⟩ := readWord_split (line.toList.drop 6)
    obtain ⟨gap', «to», rest', hcs', hgap', hto, hrest', hread'⟩ := readWord_split rest
    rw [if_pos hmove, hread] at h
    dsimp only at h
    rw [hread'] at h
    dsimp only at h
    split_ifs at h with hempty
    rw [Bool.or_eq_true, not_or] at hempty
    have hfrom' : «from» ≠ [] := by
      rintro rfl
      exact hempty.1 rfl
    have hto' : «to» ≠ [] := by
      rintro rfl
      exact hempty.2 rfl
    have hgap'' : gap' ≠ [] := by
      rintro rfl
      obtain ⟨c, «to», rfl⟩ := List.exists_cons_of_ne_nil hto'
      have hspace := hrest c (by rw [hcs']; rfl)
      rw [hto c List.mem_cons_self] at hspace
      cases hspace
    have hline : line = "/move " ++ String.ofList (gap ++ «from» ++ gap' ++ «to» ++ rest') := by
      rw [line_of_start hmove]
      show "/move " ++ String.ofList (line.toList.drop 6) = _
      rw [hcs, hcs']
      simp
    rw [hline]
    exact ⟨_, .move hgap ⟨hfrom', hfrom⟩ hgap' hgap'' ⟨hto', hto⟩ hrest'⟩
  rw [if_neg hmove] at h
  by_cases hdraw : line = "/draw"
  · subst hdraw
    exact ⟨_, .draw⟩
  rw [if_neg hdraw] at h
  by_cases haccept : line = "/draw accept"
  · subst haccept
    exact ⟨_, .accept⟩
  rw [if_neg haccept] at h
  by_cases hdecline : line = "/draw decline"
  · subst hdecline
    exact ⟨_, .decline⟩
  rw [if_neg hdecline] at h
  cases h

/-- What the server gets from the line at the prompt is the command that it spells, and a line that spells none sends
nothing. The line is valid UTF-8: `dump` throws on any other text. -/
theorem asked_iff (toFloat : List Byte → Option String) (ui : ClientUi) (line : String) (cmd : Command) :
    (∃ x, (ui.enter line).2 = some x ∧ arrives toFloat x = cmd) ↔ Spells line cmd := by
  constructor
  · rintro ⟨x, hx, rfl⟩
    obtain ⟨cmd, hspells⟩ := spells_of_enter hx
    obtain ⟨x', hx', harrives⟩ := hspells.arrives toFloat ui
    cases hx.symm.trans hx'
    rwa [harrives]
  · exact fun h => h.arrives toFloat ui

end ChessGame
