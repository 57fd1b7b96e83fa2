import ChessGame.Lib.Frames
import ChessGame.Protocol
/-!
# Requests on the wire

A client writes requests one after the other, each dumped and ended by a newline. Read
line by line they give the commands that were meant: a dump is one line that begins
and ends with a brace, so neither the newlines nor the trimming get in its way.
-/
open Frames

namespace ChessGame

open Protocol ProtocolParser

variable {m : Message} {key : String} {parseJson : List Byte → Except JsonError Json}

def Protocol.Message.requestClass : Message → RequestClass
  | .auth _ => .auth
  | .move _ => .move
  | .chat _ => .chat
  | .draw _ => .draw
  | .queue => .queue
  | .leave => .leave
  | .ping => .ping

/-- The command has the request's type and its fields. -/
def Conveys : Message → GameCommand → Prop
  | .auth m, cmd => cmd.type = "auth" ∧ cmd.nick = m.nick ∧ cmd.password = m.password
  | .move m, cmd => cmd.type = "move" ∧ cmd.from = m.from ∧ cmd.to = m.to ∧ cmd.promotion = m.promotion
  | .chat m, cmd => cmd.type = "chat" ∧ cmd.text = m.text
  | .draw m, cmd => cmd.type = "draw" ∧ cmd.action = m.action
  | .queue, cmd => cmd.type = "queue"
  | .leave, cmd => cmd.type = "leave"
  | .ping, cmd => cmd.type = "ping"

/-! ## One request -/

/-- The members are texts. -/
def Texts (members : List (String × Json)) : Prop := ∀ x ∈ members, ∃ s, x.2 = .string s

theorem Texts.set {members : List (String × Json)} (h : Texts members) (key s : String) :
    Texts (Json.set key (.string s) members) := by
  intro x hx
  obtain rfl | hx := Json.mem_set hx
  · exact ⟨s, rfl⟩
  · exact h x hx

theorem Texts.optional {members : List (String × Json)} (h : Texts members) (key s : String) :
    Texts (if !s.isEmpty then Json.set key (.string s) members else members) := by
  split
  · exact h.set key s
  · exact h

theorem texts_nil : Texts [] := nofun

theorem toJson_object (m : Message) : ∃ members, m.toJson = .object members ∧ Texts members := by
  cases m with
  | auth m => exact ⟨_, rfl, ((texts_nil.set "type" "auth").set "nick" m.nick).optional "password" m.password⟩
  | move m =>
    exact ⟨_, rfl, (((texts_nil.set "type" "move").set "from" m.from).set "to" m.to).optional "promotion" m.promotion⟩
  | chat m => exact ⟨_, rfl, (texts_nil.set "type" "chat").set "text" m.text⟩
  | draw m => exact ⟨_, rfl, (texts_nil.set "type" "draw").set "action" m.action⟩
  | queue => exact ⟨_, rfl, texts_nil.set "type" "queue"⟩
  | leave => exact ⟨_, rfl, texts_nil.set "type" "leave"⟩
  | ping => exact ⟨_, rfl, texts_nil.set "type" "ping"⟩

theorem find_empty (key : String) : (Json.object []).find key = none := rfl

/-- An optional member does not stand in the way of the others. -/
theorem find_optional {key' : String} (hne : key' ≠ key) (s : String) (members : List (String × Json)) :
    (Json.object (if !s.isEmpty then Json.set key (.string s) members else members)).find key' =
      (Json.object members).find key' := by
  split
  · rw [Json.find_set, if_neg hne]
  · rfl

/-- And it is read as it was, left out or not. -/
theorem reads_optional {members : List (String × Json)} (hnone : (Json.object members).find key = none) (s : String) :
    Reads (.object (if !s.isEmpty then Json.set key (.string s) members else members)) key s := by
  split
  · exact .inl (by rw [Json.find_set, if_pos rfl])
  · rename_i hempty
    exact .inr ⟨hnone, by simpa using hempty⟩

theorem toJson_type (m : Message) : m.toJson.find "type" = some (.string m.requestClass.name) := by
  cases m with
  | auth m =>
    refine (find_optional (by decide) m.password _).trans ?_
    simp [Json.find_set, Message.requestClass, RequestClass.name]
  | move m =>
    refine (find_optional (by decide) m.promotion _).trans ?_
    simp [Json.find_set, Message.requestClass, RequestClass.name]
  | chat m => simp [Message.toJson, ChatRequest.toJson, Json.find_set, Message.requestClass, RequestClass.name]
  | draw m => simp [Message.toJson, DrawRequest.toJson, Json.find_set, Message.requestClass, RequestClass.name]
  | queue | leave | ping => rfl

/-- What a class reads of the request's object are the request's fields. -/
theorem toJson_reads (m : Message) (hkey : key ∈ m.requestClass.fields) :
    Reads m.toJson key ((GameCommand.fromProtocolMessage m).field key) := by
  cases m with
  | auth m =>
    have hkey : key ∈ ["nick", "password"] := hkey
    simp only [List.mem_cons, List.not_mem_nil, or_false] at hkey
    obtain rfl | rfl := hkey
    · refine .inl ((find_optional (by decide) m.password _).trans ?_)
      simp [Json.find_set, GameCommand.fromProtocolMessage, GameCommand.field]
    · exact reads_optional (by simp [Json.find_set, find_empty]) m.password
  | move m =>
    have hkey : key ∈ ["from", "to", "promotion"] := hkey
    simp only [List.mem_cons, List.not_mem_nil, or_false] at hkey
    obtain rfl | rfl | rfl := hkey
    · refine .inl ((find_optional (by decide) m.promotion _).trans ?_)
      simp [Json.find_set, GameCommand.fromProtocolMessage, GameCommand.field]
    · refine .inl ((find_optional (by decide) m.promotion _).trans ?_)
      simp [Json.find_set, GameCommand.fromProtocolMessage, GameCommand.field]
    · exact reads_optional (by simp [Json.find_set, find_empty]) m.promotion
  | chat m =>
    rw [List.mem_singleton.1 (show key ∈ ["text"] from hkey)]
    simp [Reads, Message.toJson, ChatRequest.toJson, Json.find_set, GameCommand.fromProtocolMessage, GameCommand.field]
  | draw m =>
    rw [List.mem_singleton.1 (show key ∈ ["action"] from hkey)]
    simp [Reads, Message.toJson, DrawRequest.toJson, Json.find_set, GameCommand.fromProtocolMessage, GameCommand.field]
  | queue | leave | ping => cases hkey

theorem toJson_readable (m : Message) : Readable m.requestClass m.toJson :=
  ⟨toJson_type m, fun _ hkey => ⟨_, toJson_reads m hkey⟩⟩

/-- A command that was made of the request's object conveys the request. -/
theorem conveys_of_made {cmd : GameCommand} (ht : cmd.type = m.requestClass.name)
    (hfields : ∀ key ∈ m.requestClass.fields, Reads m.toJson key (cmd.field key)) : Conveys m cmd := by
  have hfield : ∀ key ∈ m.requestClass.fields, cmd.field key = (GameCommand.fromProtocolMessage m).field key :=
    fun key hkey => (hfields key hkey).unique (toJson_reads m hkey)
  cases m with
  | auth m =>
    have hfield : ∀ key ∈ RequestClass.auth.fields, _ := hfield
    exact ⟨ht, hfield "nick" (by decide), hfield "password" (by decide)⟩
  | move m =>
    have hfield : ∀ key ∈ RequestClass.move.fields, _ := hfield
    exact ⟨ht, hfield "from" (by decide), hfield "to" (by decide), hfield "promotion" (by decide)⟩
  | chat m => exact ⟨ht, hfield "text" (List.mem_singleton_self _)⟩
  | draw m => exact ⟨ht, hfield "action" (List.mem_singleton_self _)⟩
  | queue | leave | ping => exact ht

/-! ## Lines -/

theorem trim_kept {a z : Byte} (ha : isBlank a = false) (hz : isBlank z = false) (l : List Byte) :
    trim (a :: (l ++ [z])) = a :: (l ++ [z]) := by
  unfold trim
  have hreverse : (a :: (l ++ [z])).reverse = z :: (a :: l).reverse := by simp
  rw [hreverse, List.dropWhile_cons_of_neg (by simp [hz]), ← hreverse, List.reverse_reverse,
    List.dropWhile_cons_of_neg (by simp [ha])]

theorem trim_dump (members : List (String × Json)) : trim (Json.object members).dump = (Json.object members).dump :=
  trim_kept (a := 0x7b) (z := 0x7d) (by decide) (by decide) (Json.dumpMembers members)

theorem dump_one_line (m : Message) : newline ∉ m.toJson.dump := by
  obtain ⟨members, hm, htexts⟩ := toJson_object m
  rw [hm]
  apply Json.dump_object_newline
  intro x hx
  obtain ⟨s, hs⟩ := htexts x hx
  rw [hs]
  exact Json.dump_string_newline s

/-- The line of one request gives its command. -/
theorem parse_dump (h : parseJson m.toJson.dump = .ok m.toJson) :
    (parse parseJson m.toJson.dump).isValid = true ∧ Conveys m (parse parseJson m.toJson.dump) := by
  obtain ⟨members, hm, -⟩ := toJson_object m
  have htrim : trim m.toJson.dump = m.toJson.dump := by rw [hm, trim_dump]
  obtain ⟨m', b, hparse, hmade⟩ := parse_readable (htrim.symm ▸ h) (toJson_readable m)
  rw [hparse]
  exact ⟨hmade.valid, conveys_of_made hmade.type hmade.fields⟩

/-- Requests written one after the other are read as one valid command each, in order and with the same type and fields,
if the library parses their dumps. -/
theorem requests_survive (messages : List Message) (h : ∀ m ∈ messages, parseJson m.toJson.dump = .ok m.toJson) :
    List.Forall₂ (fun m cmd => cmd.isValid = true ∧ Conveys m cmd) messages
      ((split newline (messages.flatMap fun m => serializeJson m.toJson)).map (parse parseJson)) := by
  have hlines : messages.flatMap (fun m => serializeJson m.toJson) =
      join newline (messages.map fun m => m.toJson.dump) := by
    rw [join, List.flatMap_map]
    rfl
  have hone : ∀ line ∈ messages.map (fun m => m.toJson.dump), newline ∉ line := by
    intro line hline
    obtain ⟨m, -, rfl⟩ := List.mem_map.1 hline
    exact dump_one_line m
  rw [hlines, split_join hone, List.map_map, List.forall₂_map_right_iff]
  refine List.forall₂_same.2 fun m hm => ?_
  exact parse_dump (h m hm)

/-- A text of two lines with quotes, and a ping -/
theorem requests_survive_two_lines :
    ∃ parseJson : List Byte → Except JsonError Json,
      List.Forall₂ (fun m cmd => cmd.isValid = true ∧ Conveys m cmd) [.chat ⟨"so \"it\" goes\n on"⟩, .ping]
        ((split newline ([Message.chat ⟨"so \"it\" goes\n on"⟩, .ping].flatMap fun m => serializeJson m.toJson)).map
          (parse parseJson)) := by
  have hne : Message.ping.toJson.dump ≠ (Message.chat ⟨"so \"it\" goes\n on"⟩).toJson.dump := by decide +kernel
  refine ⟨fun data => if data = (Message.chat ⟨"so \"it\" goes\n on"⟩).toJson.dump then
    .ok (Message.chat ⟨"so \"it\" goes\n on"⟩).toJson else
    parsesOnly Message.ping.toJson.dump Message.ping.toJson data, requests_survive _ ?_⟩
  intro m hm
  simp only [List.mem_cons, List.not_mem_nil, or_false] at hm
  obtain rfl | rfl := hm
  · rw [if_pos rfl]
  · rw [if_neg hne, parsesOnly, if_pos rfl]

end ChessGame
