import ChessGame.Json
/-!
# Requests

`protocol.hpp`, the request classes and the factory, and `command.cpp`. The library's
`parse` is a parameter: the value of a text, or the exception.

The factory calls `from_json` and does not look at what it returns, so a request
without its required fields becomes a command all the same.
-/

namespace ChessGame

/-! ## The request classes -/

namespace Protocol

/-- `j.contains("type") && j["type"] == type` -/
def hasType (j : Json) (type : String) : Bool := (j.find "type").any (·.equals type)

structure AuthRequest where
  nick : String
  password : String
  deriving DecidableEq, Repr

structure MoveRequest where
  «from» : String
  «to» : String
  promotion : String
  deriving DecidableEq, Repr

structure ChatRequest where
  text : String
  deriving DecidableEq, Repr

structure DrawRequest where
  action : String
  deriving DecidableEq, Repr

inductive Message where
  | auth (m : AuthRequest)
  | move (m : MoveRequest)
  | chat (m : ChatRequest)
  | draw (m : DrawRequest)
  | queue
  | leave
  | ping
  deriving DecidableEq, Repr

def AuthRequest.toJson (m : AuthRequest) : Json :=
  let j := Json.set "type" (.string "auth") []
  let j := Json.set "nick" (.string m.nick) j
  let j := if !m.password.isEmpty then Json.set "password" (.string m.password) j else j
  .object j

def MoveRequest.toJson (m : MoveRequest) : Json :=
  let j := Json.set "type" (.string "move") []
  let j := Json.set "from" (.string m.from) j
  let j := Json.set "to" (.string m.to) j
  let j := if !m.promotion.isEmpty then Json.set "promotion" (.string m.promotion) j else j
  .object j

def ChatRequest.toJson (m : ChatRequest) : Json :=
  .object (Json.set "text" (.string m.text) (Json.set "type" (.string "chat") []))

def DrawRequest.toJson (m : DrawRequest) : Json :=
  .object (Json.set "action" (.string m.action) (Json.set "type" (.string "draw") []))

def Message.toJson : Message → Json
  | .auth m => m.toJson
  | .move m => m.toJson
  | .chat m => m.toJson
  | .draw m => m.toJson
  | .queue => .object (Json.set "type" (.string "queue") [])
  | .leave => .object (Json.set "type" (.string "leave") [])
  | .ping => .object (Json.set "type" (.string "ping") [])

/-- The request as `from_json` leaves it, and what `from_json` returns. -/
def AuthRequest.fromJson (j : Json) : Except JsonError (AuthRequest × Bool) :=
  if !hasType j "auth" then .ok (⟨"", ""⟩, false)
  else do
    let nick ← j.value "nick" ""
    let password ← j.value "password" ""
    .ok (⟨nick, password⟩, !nick.isEmpty)

def MoveRequest.fromJson (j : Json) : Except JsonError (MoveRequest × Bool) :=
  if !hasType j "move" then .ok (⟨"", "", ""⟩, false)
  else do
    let src ← j.value "from" ""
    let dst ← j.value "to" ""
    let promotion ← j.value "promotion" ""
    .ok (⟨src, dst, promotion⟩, !src.isEmpty && !dst.isEmpty)

def ChatRequest.fromJson (j : Json) : Except JsonError (ChatRequest × Bool) :=
  if !hasType j "chat" then .ok (⟨""⟩, false)
  else do
    let text ← j.value "text" ""
    .ok (⟨text⟩, !text.isEmpty)

def DrawRequest.fromJson (j : Json) : Except JsonError (DrawRequest × Bool) :=
  if !hasType j "draw" then .ok (⟨""⟩, false)
  else do
    let action ← j.value "action" ""
    .ok (⟨action⟩, !action.isEmpty)

/-- The classes `create` knows. -/
inductive RequestClass where
  | auth | move | chat | draw | queue | leave | ping
  deriving DecidableEq, Repr

namespace RequestClass

def name : RequestClass → String
  | .auth => "auth"
  | .move => "move"
  | .chat => "chat"
  | .draw => "draw"
  | .queue => "queue"
  | .leave => "leave"
  | .ping => "ping"

/-- `from_json` of the class. -/
def fromJson (k : RequestClass) (j : Json) : Except JsonError (Message × Bool) :=
  match k with
  | .auth => (AuthRequest.fromJson j).map fun r => (.auth r.1, r.2)
  | .move => (MoveRequest.fromJson j).map fun r => (.move r.1, r.2)
  | .chat => (ChatRequest.fromJson j).map fun r => (.chat r.1, r.2)
  | .draw => (DrawRequest.fromJson j).map fun r => (.draw r.1, r.2)
  | .queue => .ok (.queue, hasType j "queue")
  | .leave => .ok (.leave, hasType j "leave")
  | .ping => .ok (.ping, hasType j "ping")

end RequestClass

/-- `MessageFactory::create`; `none` is `nullptr`. -/
def MessageFactory.create (j : Json) : Except JsonError (Option Message) :=
  match j.find "type" with
  | none => .ok none
  | some t => do
    let type ← t.getString
    if type = "auth" then
      let (msg, _) ← AuthRequest.fromJson j
      .ok (some (.auth msg))
    else if type = "move" then
      let (msg, _) ← MoveRequest.fromJson j
      .ok (some (.move msg))
    else if type = "chat" then
      let (msg, _) ← ChatRequest.fromJson j
      .ok (some (.chat msg))
    else if type = "draw" then
      let (msg, _) ← DrawRequest.fromJson j
      .ok (some (.draw msg))
    else if type = "queue" then .ok (some .queue)
    else if type = "leave" then .ok (some .leave)
    else if type = "ping" then .ok (some .ping)
    else .ok none

end Protocol

/-! ## Commands -/

structure GameCommand where
  type : String
  «from» : String
  «to» : String
  nick : String
  password : String
  text : String
  action : String
  promotion : String
  isValid : Bool
  deriving DecidableEq, Repr

namespace GameCommand

open Protocol

/-- The default member values. -/
def empty : GameCommand := ⟨"", "", "", "", "", "", "", "", false⟩

def fromProtocolMessage : Message → GameCommand
  | .auth m => { empty with type := "auth", nick := m.nick, password := m.password, isValid := true }
  | .move m => { empty with type := "move", «from» := m.from, «to» := m.to, promotion := m.promotion, isValid := true }
  | .chat m => { empty with type := "chat", text := m.text, isValid := true }
  | .draw m => { empty with type := "draw", action := m.action, isValid := true }
  | .queue => { empty with type := "queue", isValid := true }
  | .leave => { empty with type := "leave", isValid := true }
  | .ping => { empty with type := "ping", isValid := true }

end GameCommand

namespace ProtocolParser

open Protocol

/-- `'\n'`, `'\r'`, `' '` -/
def isBlank (b : Byte) : Bool := b = newline || b = 13 || b = 32

/-- The two loops at the start of `parse`. -/
def trim (data : List Byte) : List Byte := (data.reverse.dropWhile isBlank).reverse.dropWhile isBlank

/-- What `parse` does inside its `try`. -/
def tryParse (parseJson : List Byte → Except JsonError Json) (data : List Byte) :
    Except JsonError (Option Message) := do
  let j ← parseJson data
  MessageFactory.create j

def parse (parseJson : List Byte → Except JsonError Json) (raw : List Byte) : GameCommand :=
  match tryParse parseJson (trim raw) with
  | .ok (some msg) => GameCommand.fromProtocolMessage msg
  | .ok none | .error _ => GameCommand.empty

def serializeJson (j : Json) : List Byte := j.dump ++ [newline]

end ProtocolParser

/-! ## What the classes read -/

namespace Protocol

namespace RequestClass

/-- The members without which `from_json` returns false. -/
def required : RequestClass → List String
  | .auth => ["nick"]
  | .move => ["from", "to"]
  | .chat => ["text"]
  | .draw => ["action"]
  | .queue | .leave | .ping => []

def optional : RequestClass → List String
  | .auth => ["password"]
  | .move => ["promotion"]
  | .chat | .draw | .queue | .leave | .ping => []

def fields (k : RequestClass) : List String := k.required ++ k.optional

theorem name_inj {k k' : RequestClass} (h : k.name = k'.name) : k = k' := by
  cases k <;> cases k' <;> first | rfl | exact absurd h (by decide)

end RequestClass

variable {j : Json} {k : RequestClass} {key type : String} {m : Message} {b : Bool}

/-- The member is a text, or absent and read as the empty text. -/
def Reads (j : Json) (key s : String) : Prop := j.find key = some (.string s) ∨ (j.find key = none ∧ s = "")

/-- An object of the class's type whose members are absent or texts. -/
structure Readable (k : RequestClass) (j : Json) : Prop where
  type : j.find "type" = some (.string k.name)
  fields : ∀ key ∈ k.fields, ∃ s, Reads j key s

/-- An object of the class's type with all that the class requires. -/
structure Suits (k : RequestClass) (j : Json) : Prop where
  type : j.find "type" = some (.string k.name)
  required : ∀ key ∈ k.required, ∃ s, s ≠ "" ∧ j.find key = some (.string s)
  optional : ∀ key ∈ k.optional, ∃ s, Reads j key s

/-- An object of the class's type that lacks a member, or has the empty text for it, and is no worse than that. -/
structure Lacks (k : RequestClass) (j : Json) : Prop where
  readable : Readable k j
  lacking : ∃ key ∈ k.required, j.find key = none ∨ j.find key = some (.string "")

theorem Reads.unique {s t : String} (h : Reads j key s) (h' : Reads j key t) : s = t := by
  obtain h | ⟨h, rfl⟩ := h <;> obtain h' | ⟨h', rfl⟩ := h' <;> rw [h] at h' <;> cases h'
  all_goals rfl

theorem object_of_find {x : Json} (h : j.find key = some x) : ∃ members, j = .object members := by
  cases j with
  | object members => exact ⟨members, rfl⟩
  | _ => cases h

/-- `value` reads what is readable and throws at anything else. -/
theorem value_eq (ht : j.find "type" = some (.string type)) (key : String) :
    (∃ s, Reads j key s ∧ j.value key "" = .ok s) ∨
      (¬ (∃ s, Reads j key s) ∧ j.value key "" = .error .typeError) := by
  obtain ⟨members, rfl⟩ := object_of_find ht
  unfold Json.value Reads
  cases hfind : (Json.object members).find key with
  | none => exact .inl ⟨"", .inr ⟨rfl, rfl⟩, rfl⟩
  | some x =>
    cases x with
    | string s => exact .inl ⟨s, .inl rfl, rfl⟩
    | _ => exact .inr ⟨by simp, rfl⟩

theorem hasType_iff : hasType j type = true ↔ j.find "type" = some (.string type) := by
  unfold hasType
  cases j.find "type" with
  | none => simp
  | some t => cases t <;> simp [Json.equals]

end Protocol

/-- The member that goes by this name in the message. -/
def GameCommand.field (cmd : GameCommand) : String → String
  | "nick" => cmd.nick
  | "password" => cmd.password
  | "from" => cmd.from
  | "to" => cmd.to
  | "promotion" => cmd.promotion
  | "text" => cmd.text
  | "action" => cmd.action
  | _ => ""

namespace Protocol

variable {j : Json} {k : RequestClass} {key type : String} {m : Message} {b : Bool}

/-- What `from_json` of a class makes of a readable message of its type. -/
structure Made (k : RequestClass) (j : Json) (m : Message) (b : Bool) : Prop where
  valid : (GameCommand.fromProtocolMessage m).isValid = true
  type : (GameCommand.fromProtocolMessage m).type = k.name
  fields : ∀ key ∈ k.fields, Reads j key ((GameCommand.fromProtocolMessage m).field key)
  accepted : b = true ↔ ∀ key ∈ k.required, (GameCommand.fromProtocolMessage m).field key ≠ ""

/-- A member that cannot be read makes `from_json` throw. -/
theorem fromJson_refused (hkey : key ∈ k.fields) (hno : ¬ ∃ s, Reads j key s) (he : k.fromJson j = .error .typeError) :
    ¬ Readable k j ∧ ∃ e, k.fromJson j = .error e :=
  ⟨fun h => hno (h.fields key hkey), .typeError, he⟩

theorem fromJson_cases (ht : j.find "type" = some (.string k.name)) :
    (∃ m b, k.fromJson j = .ok (m, b) ∧ Made k j m b) ∨ (¬ Readable k j ∧ ∃ e, k.fromJson j = .error e) := by
  have hread := value_eq ht
  have htype : hasType j k.name = true := hasType_iff.2 ht
  cases k with
  | auth =>
    simp only [RequestClass.name] at htype
    obtain ⟨nick, hnick, hn⟩ | ⟨hno, hn⟩ := hread "nick"
    · obtain ⟨password, hpassword, hp⟩ | ⟨hno, hp⟩ := hread "password"
      · refine .inl ⟨.auth ⟨nick, password⟩, !nick.isEmpty, ?_, rfl, rfl, ?_, ?_⟩
        · simp [RequestClass.fromJson, AuthRequest.fromJson, htype, hn, hp, bind, Except.bind, Except.map]
        · simpa [RequestClass.fields, RequestClass.required, RequestClass.optional] using ⟨hnick, hpassword⟩
        · simp [RequestClass.required, GameCommand.fromProtocolMessage, GameCommand.field]
      · refine .inr (fromJson_refused (show "password" ∈ _ by decide) hno ?_)
        simp [RequestClass.fromJson, AuthRequest.fromJson, htype, hn, hp, bind, Except.bind, Except.map]
    · refine .inr (fromJson_refused (show "nick" ∈ _ by decide) hno ?_)
      simp [RequestClass.fromJson, AuthRequest.fromJson, htype, hn, bind, Except.bind, Except.map]
  | move =>
    simp only [RequestClass.name] at htype
    obtain ⟨src, hsrc, hf⟩ | ⟨hno, hf⟩ := hread "from"
    · obtain ⟨dst, hdst, hd⟩ | ⟨hno, hd⟩ := hread "to"
      · obtain ⟨promotion, hpromotion, hp⟩ | ⟨hno, hp⟩ := hread "promotion"
        · refine .inl ⟨.move ⟨src, dst, promotion⟩, !src.isEmpty && !dst.isEmpty, ?_, rfl, rfl, ?_, ?_⟩
          · simp [RequestClass.fromJson, MoveRequest.fromJson, htype, hf, hd, hp, bind, Except.bind, Except.map]
          · simpa [RequestClass.fields, RequestClass.required, RequestClass.optional] using ⟨hsrc, hdst, hpromotion⟩
          · simp [RequestClass.required, GameCommand.fromProtocolMessage, GameCommand.field]
        · refine .inr (fromJson_refused (show "promotion" ∈ _ by decide) hno ?_)
          simp [RequestClass.fromJson, MoveRequest.fromJson, htype, hf, hd, hp, bind, Except.bind, Except.map]
      · refine .inr (fromJson_refused (show "to" ∈ _ by decide) hno ?_)
        simp [RequestClass.fromJson, MoveRequest.fromJson, htype, hf, hd, bind, Except.bind, Except.map]
    · refine .inr (fromJson_refused (show "from" ∈ _ by decide) hno ?_)
      simp [RequestClass.fromJson, MoveRequest.fromJson, htype, hf, bind, Except.bind, Except.map]
  | chat =>
    simp only [RequestClass.name] at htype
    obtain ⟨text, htext, hx⟩ | ⟨hno, hx⟩ := hread "text"
    · refine .inl ⟨.chat ⟨text⟩, !text.isEmpty, ?_, rfl, rfl, ?_, ?_⟩
      · simp [RequestClass.fromJson, ChatRequest.fromJson, htype, hx, bind, Except.bind, Except.map]
      · intro key hkey
        rw [List.mem_singleton.1 hkey]
        exact htext
      · simp [RequestClass.required, GameCommand.fromProtocolMessage, GameCommand.field]
    · refine .inr (fromJson_refused (show "text" ∈ _ by decide) hno ?_)
      simp [RequestClass.fromJson, ChatRequest.fromJson, htype, hx, bind, Except.bind, Except.map]
  | draw =>
    simp only [RequestClass.name] at htype
    obtain ⟨action, haction, ha⟩ | ⟨hno, ha⟩ := hread "action"
    · refine .inl ⟨.draw ⟨action⟩, !action.isEmpty, ?_, rfl, rfl, ?_, ?_⟩
      · simp [RequestClass.fromJson, DrawRequest.fromJson, htype, ha, bind, Except.bind, Except.map]
      · intro key hkey
        rw [List.mem_singleton.1 hkey]
        exact haction
      · simp [RequestClass.required, GameCommand.fromProtocolMessage, GameCommand.field]
    · refine .inr (fromJson_refused (show "action" ∈ _ by decide) hno ?_)
      simp [RequestClass.fromJson, DrawRequest.fromJson, htype, ha, bind, Except.bind, Except.map]
  | queue | leave | ping =>
    refine .inl ⟨_, _, rfl, rfl, rfl, by simp [RequestClass.fields, RequestClass.required, RequestClass.optional], ?_⟩
    exact iff_of_true htype (by simp [RequestClass.required])

theorem create_class {α : Type} (made : Except JsonError (α × Bool)) (message : α → Message) :
    (made >>= fun r => .ok (some (message r.1))) =
      (made.map fun r => (message r.1, r.2)).map fun r => some r.1 := by
  cases made <;> rfl

/-- The factory hands on what `from_json` made, whatever `from_json` returned. -/
theorem create_of_type (ht : j.find "type" = some (.string k.name)) :
    MessageFactory.create j = (k.fromJson j).map fun r => some r.1 := by
  rw [MessageFactory.create, ht]
  cases k with
  | auth => exact create_class (AuthRequest.fromJson j) .auth
  | move => exact create_class (MoveRequest.fromJson j) .move
  | chat => exact create_class (ChatRequest.fromJson j) .chat
  | draw => exact create_class (DrawRequest.fromJson j) .draw
  | queue | leave | ping => rfl

/-- Nothing is made of other values. -/
theorem create_other (h : ∀ k : RequestClass, j.find "type" ≠ some (.string k.name)) (m : Message) :
    MessageFactory.create j ≠ .ok (some m) := by
  unfold MessageFactory.create
  cases ht : j.find "type" with
  | none => simp
  | some t =>
    cases t with
    | string type =>
      have hne : ∀ k : RequestClass, type ≠ k.name := fun k he => h k (by rw [ht, he])
      have hauth := hne .auth
      have hmove := hne .move
      have hchat := hne .chat
      have hdraw := hne .draw
      have hqueue := hne .queue
      have hleave := hne .leave
      have hping := hne .ping
      simp only [RequestClass.name] at hauth hmove hchat hdraw hqueue hleave hping
      simp [Json.getString, bind, Except.bind, hauth, hmove, hchat, hdraw, hqueue, hleave, hping]
    | _ => simp [Json.getString, bind, Except.bind]

/-- `from_json` returns true exactly on what suits the class. -/
theorem Made.suits_iff (h : Made k j m b) (ht : j.find "type" = some (.string k.name)) : Suits k j ↔ b = true := by
  rw [h.accepted]
  constructor
  · intro hs key hkey
    obtain ⟨s, hne, hfind⟩ := hs.required key hkey
    rwa [(h.fields key (List.mem_append_left _ hkey)).unique (.inl hfind)]
  · intro hne
    refine ⟨ht, fun key hkey => ?_, fun key hkey => ⟨_, h.fields key (List.mem_append_right _ hkey)⟩⟩
    obtain hfind | ⟨-, hempty⟩ := h.fields key (List.mem_append_left _ hkey)
    · exact ⟨_, hne key hkey, hfind⟩
    · exact absurd hempty (hne key hkey)

theorem Suits.readable (h : Suits k j) : Readable k j := by
  refine ⟨h.type, fun key hkey => ?_⟩
  obtain hkey | hkey := List.mem_append.1 hkey
  · obtain ⟨s, -, hfind⟩ := h.required key hkey
    exact ⟨s, .inl hfind⟩
  · exact h.optional key hkey

theorem Made.readable (h : Made k j m b) (ht : j.find "type" = some (.string k.name)) : Readable k j :=
  ⟨ht, fun key hkey => ⟨_, h.fields key hkey⟩⟩

theorem fromJson_true (ht : j.find "type" = some (.string k.name)) :
    (∃ m, k.fromJson j = .ok (m, true)) ↔ Suits k j := by
  obtain ⟨m, b, hmade, h⟩ | ⟨hno, e, herror⟩ := fromJson_cases ht
  · rw [h.suits_iff ht, hmade]
    constructor
    · rintro ⟨m', heq⟩
      cases heq
      rfl
    · rintro rfl
      exact ⟨m, rfl⟩
  · rw [herror]
    refine iff_of_false ?_ fun h => hno h.readable
    rintro ⟨m, heq⟩
    cases heq

/-- What is readable and does not suit the class lacks something. -/
theorem lacks_iff : Lacks k j ↔ Readable k j ∧ ¬ Suits k j := by
  constructor
  · rintro ⟨hread, key, hkey, hlack⟩
    refine ⟨hread, fun hs => ?_⟩
    obtain ⟨s, hne, hfind⟩ := hs.required key hkey
    rw [hfind] at hlack
    obtain hlack | hlack := hlack <;> cases hlack
    exact hne rfl
  · rintro ⟨hread, hsuits⟩
    refine ⟨hread, ?_⟩
    by_contra hall
    refine hsuits ⟨hread.type, fun key hkey => ?_, fun key hkey => hread.fields key (List.mem_append_right _ hkey)⟩
    obtain ⟨s, hs⟩ := hread.fields key (List.mem_append_left _ hkey)
    obtain hfind | ⟨hnone, -⟩ := hs
    · refine ⟨s, ?_, hfind⟩
      rintro rfl
      exact hall ⟨key, hkey, .inr hfind⟩
    · exact absurd ⟨key, hkey, .inl hnone⟩ hall

end Protocol

/-! ## What the parser accepts -/

namespace ProtocolParser

open Protocol

variable {parseJson : List Byte → Except JsonError Json} {raw : List Byte} {j : Json} {k : RequestClass}

/-- The line is a request: its class's `from_json` returns true. -/
def WellFormed (parseJson : List Byte → Except JsonError Json) (raw : List Byte) : Prop :=
  ∃ j k m, parseJson (trim raw) = .ok j ∧ j.find "type" = some (.string k.name) ∧
    RequestClass.fromJson k j = .ok (m, true)

/-- The line is a request that lacks a member it needs, or has the empty text for it. -/
def Incomplete (parseJson : List Byte → Except JsonError Json) (raw : List Byte) : Prop :=
  ∃ j k, parseJson (trim raw) = .ok j ∧ Lacks k j

theorem wellFormed_iff : WellFormed parseJson raw ↔ ∃ j k, parseJson (trim raw) = .ok j ∧ Suits k j := by
  constructor
  · rintro ⟨j, k, m, hj, ht, hm⟩
    exact ⟨j, k, hj, (fromJson_true ht).1 ⟨m, hm⟩⟩
  · rintro ⟨j, k, hj, hs⟩
    obtain ⟨m, hm⟩ := (fromJson_true hs.type).2 hs
    exact ⟨j, k, m, hj, hs.type, hm⟩

/-- The command of a readable message is the one that was made. -/
theorem parse_readable (hj : parseJson (trim raw) = .ok j) (h : Readable k j) :
    ∃ m b, parse parseJson raw = GameCommand.fromProtocolMessage m ∧ Made k j m b := by
  obtain ⟨m, b, hmade, hm⟩ | ⟨hno, -⟩ := fromJson_cases h.type
  · refine ⟨m, b, ?_, hm⟩
    have htry : tryParse parseJson (trim raw) = .ok (some m) := by
      rw [tryParse, hj]
      show MessageFactory.create j = _
      rw [create_of_type h.type, hmade]
      rfl
    rw [parse, htry]
  · exact absurd h hno

/-- A valid command is made of a readable message. -/
theorem parse_valid : (parse parseJson raw).isValid = true ↔ ∃ j k, parseJson (trim raw) = .ok j ∧ Readable k j := by
  constructor
  · intro hvalid
    cases hj : parseJson (trim raw) with
    | error e =>
      have htry : tryParse parseJson (trim raw) = .error e := by rw [tryParse, hj]; rfl
      rw [parse, htry] at hvalid
      cases hvalid
    | ok j =>
      have htry : tryParse parseJson (trim raw) = MessageFactory.create j := by rw [tryParse, hj]; rfl
      rw [parse, htry] at hvalid
      by_cases hk : ∃ k : RequestClass, j.find "type" = some (.string k.name)
      · obtain ⟨k, ht⟩ := hk
        obtain ⟨m, b, -, hm⟩ | ⟨-, e, herror⟩ := fromJson_cases ht
        · exact ⟨j, k, rfl, hm.readable ht⟩
        · rw [create_of_type ht, herror] at hvalid
          cases hvalid
      · have hother := create_other (not_exists.1 hk)
        cases hc : MessageFactory.create j with
        | error e =>
          rw [hc] at hvalid
          cases hvalid
        | ok x =>
          cases x with
          | none =>
            rw [hc] at hvalid
            cases hvalid
          | some m => exact absurd hc (hother m)
  · rintro ⟨j, k, hj, hread⟩
    obtain ⟨m, b, hm, hmade⟩ := parse_readable hj hread
    rw [hm]
    exact hmade.valid

/-- The parser accepts exactly the well-formed requests, but for the incomplete ones, which it accepts as well. -/
theorem parse_wellFormed_iff (parseJson : List Byte → Except JsonError Json) (raw : List Byte) :
    ((parse parseJson raw).isValid = true ↔ WellFormed parseJson raw) ↔ ¬ Incomplete parseJson raw := by
  rw [parse_valid, wellFormed_iff]
  constructor
  · rintro hiff ⟨j, k, hj, hlacks⟩
    obtain ⟨hread, hno⟩ := lacks_iff.1 hlacks
    obtain ⟨j', k', hj', hs⟩ := hiff.1 ⟨j, k, hj, hread⟩
    cases hj.symm.trans hj'
    have ht := hread.type.symm.trans hs.type
    rw [Option.some.injEq, Json.string.injEq] at ht
    exact hno (RequestClass.name_inj ht ▸ hs)
  · intro hcomplete
    constructor
    · rintro ⟨j, k, hj, hread⟩
      by_contra hno
      exact hcomplete ⟨j, k, hj, lacks_iff.2 ⟨hread, fun hs => hno ⟨j, k, hj, hs⟩⟩⟩
    · rintro ⟨j, k, hj, hs⟩
      exact ⟨j, k, hj, hs.readable⟩

/-- `parse` of the library on one text. -/
def parsesOnly (text : List Byte) (j : Json) (data : List Byte) : Except JsonError Json :=
  if data = text then .ok j else .error .parseError

/-- A move without squares -/
theorem parse_accepts_incomplete :
    (parse (parsesOnly (utf8 "\x7b\"type\":\"move\"\x7d") (.object [("type", .string "move")]))
      (utf8 "\x7b\"type\":\"move\"\x7d")).isValid = true ∧
    ¬ WellFormed (parsesOnly (utf8 "\x7b\"type\":\"move\"\x7d") (.object [("type", .string "move")]))
      (utf8 "\x7b\"type\":\"move\"\x7d") := by
  have htrim : trim (utf8 "\x7b\"type\":\"move\"\x7d") = utf8 "\x7b\"type\":\"move\"\x7d" := by decide +kernel
  generalize utf8 "\x7b\"type\":\"move\"\x7d" = raw at htrim
  have hj : parsesOnly raw (.object [("type", .string "move")]) (trim raw) =
      .ok (.object [("type", .string "move")]) := by
    rw [htrim, parsesOnly, if_pos rfl]
  constructor
  · refine parse_valid.2 ⟨_, .move, hj, rfl, fun key hkey => ⟨"", .inr ⟨?_, rfl⟩⟩⟩
    simp only [RequestClass.fields, RequestClass.required, RequestClass.optional, List.cons_append, List.nil_append,
      List.mem_cons, List.not_mem_nil, or_false] at hkey
    rcases hkey with rfl | rfl | rfl <;> rfl
  · rw [wellFormed_iff]
    rintro ⟨j, k, hj', hs⟩
    cases hj.symm.trans hj'
    have ht : some (Json.string "move") = some (.string k.name) := hs.type
    rw [Option.some.injEq, Json.string.injEq] at ht
    obtain rfl : RequestClass.move = k := RequestClass.name_inj ht
    obtain ⟨src, -, hfind⟩ := hs.required "from" (by decide)
    cases hfind

end ProtocolParser

end ChessGame
