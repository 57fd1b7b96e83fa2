import ChessGame.Lib.Frames
import ChessGame.Lib.Runs
import ChessGame.Json
/-!
# The console client's reads

`drain_incoming` and `send_and_process_one` of `client.cpp`. Every read has a buffer
of its own: `read_until` may put more into it than the line that `getline` takes out,
and the rest is lost with the buffer.
-/
open Frames Runs

namespace ChessGame

structure Console where
  /-- What the reads to come deliver, piece by piece. -/
  unread : List (List Byte)
  /-- How many of these pieces have arrived. -/
  arrived : ℕ
  /-- The loop of `drain_incoming` is running. -/
  draining : Bool
  /-- What `process_incoming_line` was called with. -/
  seen : List (List Byte)
  deriving DecidableEq

namespace Console

def start (pieces : List (List Byte)) : Console := ⟨pieces, 0, false, []⟩

/-- `sock.available()` -/
def available (s : Console) : ℕ := (s.unread.take s.arrived).flatten.length

/-- `read_until` into a new buffer, which waits for pieces that have not arrived, and the line that is processed. -/
def readLine (s : Console) : Option Console :=
  (readUntil newline s.unread).map fun (bytes, left) =>
    { s with
      unread := left
      arrived := s.arrived - (s.unread.length - left.length)
      seen := s.seen ++ keep (firstLine newline bytes) }

inductive Act where
  /-- A piece arrives. -/
  | arrive
  /-- `drain_incoming` is called. -/
  | drain
  /-- `send_and_process_one` up to its call of `drain_incoming`. -/
  | send
  /-- One turn of the loop of `drain_incoming`. -/
  | loop
  deriving DecidableEq, Repr

def act (s : Console) : Act → Option Console
  | .arrive => if s.arrived < s.unread.length then some { s with arrived := s.arrived + 1 } else none
  | .drain => if s.draining then none else some { s with draining := true }
  | .send => if s.draining then none else s.readLine.map fun s => { s with draining := true }
  | .loop =>
    if !s.draining then none
    else if s.available > 0 then s.readLine
    else some { s with draining := false }

/-- The turns of the loop until it ends. -/
def loops : ℕ → Console → Option Console
  | 0, _ => none
  | n + 1, s =>
    match s.act .loop with
    | some t => if t.draining then loops n t else some t
    | none => none

/-- `drain_incoming` while nothing arrives. -/
def drainIncoming (s : Console) : Option Console := loops (s.unread.length + 1) { s with draining := true }

/-- The client acts. -/
def Acts (s : Console) (a : Act) (t : Console) : Prop := s.act a = some t

variable {s t : Console} {a : Act} {pieces messages : List (List Byte)} {l : List (Console × Act)}

theorem readLine_eq_some (h : s.readLine = some t) : ∃ bytes left, readUntil newline s.unread = some (bytes, left) ∧
    t = { s with
      unread := left
      arrived := s.arrived - (s.unread.length - left.length)
      seen := s.seen ++ keep (firstLine newline bytes) } := by
  obtain ⟨⟨bytes, left⟩, hread, rfl⟩ := Option.map_eq_some_iff.1 h
  exact ⟨bytes, left, hread, rfl⟩

/-- What holds however the client acts: which lines come out was settled by the pieces. -/
structure Follows (pieces : List (List Byte)) (s : Console) : Prop where
  suffix : ∃ taken, pieces = taken ++ s.unread
  received : s.seen ++ received newline [] s.unread = received newline [] pieces

theorem start_follows (pieces : List (List Byte)) : Follows pieces (start pieces) := ⟨⟨[], rfl⟩, rfl⟩

theorem Follows.readLine (h : Follows pieces s) (hr : s.readLine = some t) : Follows pieces t := by
  obtain ⟨bytes, left, hread, rfl⟩ := readLine_eq_some hr
  obtain ⟨before, hbefore⟩ := h.suffix
  obtain ⟨taken, htaken, -⟩ := readUntil_suffix hread
  constructor
  · exact ⟨before ++ taken, by rw [hbefore, htaken, List.append_assoc]⟩
  · rw [← h.received, received_read hread, List.append_assoc]
    rfl

theorem Follows.acts (h : Follows pieces s) (hs : Acts s a t) : Follows pieces t := by
  unfold Acts act at hs
  cases a with
  | arrive | drain =>
    dsimp only at hs
    split at hs
    all_goals first | cases hs; exact ⟨h.suffix, h.received⟩ | cases hs
  | send =>
    dsimp only at hs
    split at hs
    · cases hs
    · obtain ⟨u, hu, rfl⟩ := Option.map_eq_some_iff.1 hs
      obtain ⟨hsuffix, hreceived⟩ := h.readLine hu
      exact ⟨hsuffix, hreceived⟩
  | loop =>
    dsimp only at hs
    split at hs
    · cases hs
    split at hs
    · exact h.readLine hs
    · cases hs
      exact ⟨h.suffix, h.received⟩

theorem run_follows (h : Run Acts (start pieces) l s) : Follows pieces s := by
  induction h with
  | nil => exact start_follows pieces
  | snoc _ hs ih => exact ih.acts hs

/-- Nothing is left but empty pieces, or a read comes back. -/
theorem Follows.reads (h : Follows pieces s) (hcut : pieces.flatten = join newline messages)
    (hne : s.unread.flatten ≠ []) : ∃ t, s.readLine = some t := by
  obtain ⟨taken, htaken⟩ := h.suffix
  rw [htaken, List.flatten_append] at hcut
  obtain ⟨bytes, left, hread⟩ := readUntil_isSome (mem_of_suffix hcut hne)
  exact ⟨_, by rw [Console.readLine, hread]; rfl⟩

theorem received_nil {pieces : List (List Byte)} (h : pieces.flatten = []) (taken : List Byte) :
    received newline taken pieces = [] := by
  induction pieces generalizing taken with
  | nil => rfl
  | cons piece pieces ih =>
    obtain ⟨rfl, hpieces⟩ := List.append_eq_nil_iff.1 (List.flatten_cons ▸ h)
    rw [received, if_neg List.not_mem_nil]
    exact ih hpieces _

theorem available_all (h : s.arrived = s.unread.length) : s.available = s.unread.flatten.length := by
  rw [available, h, List.take_length]

/-- Once everything has arrived, the loop ends and leaves nothing. -/
theorem loops_end {n : ℕ} (hn : s.unread.length < n) (h : Follows pieces s)
    (hcut : pieces.flatten = join newline messages)
    (harrived : s.arrived = s.unread.length) (hdraining : s.draining = true) :
    ∃ t, loops n s = some t ∧ Follows pieces t ∧ t.unread.flatten = [] := by
  induction n generalizing s with
  | zero => exact absurd hn (Nat.not_lt_zero _)
  | succ n ih =>
    unfold loops
    simp only [act, hdraining, available_all harrived]
    by_cases hempty : s.unread.flatten = []
    · exact ⟨{ s with draining := false }, by simp [hempty], ⟨h.suffix, h.received⟩, hempty⟩
    · obtain ⟨t, ht⟩ := h.reads hcut hempty
      obtain ⟨bytes, left, hread, rfl⟩ := readLine_eq_some ht
      obtain ⟨taken, htaken, hne, -⟩ := readUntil_suffix hread
      have hlen : s.unread.length = taken.length + left.length := by rw [htaken, List.length_append]
      have hpos := List.length_pos_iff.2 hne
      obtain ⟨u, hu, hrest⟩ := ih (s := { s with
        unread := left
        arrived := s.arrived - (s.unread.length - left.length)
        seen := s.seen ++ keep (firstLine newline bytes) }) (by dsimp only; omega) (h.readLine ht)
          (by dsimp only; omega)
        hdraining
      refine ⟨u, ?_, hrest⟩
      rw [Bool.not_true, if_neg Bool.false_ne_true, if_pos (List.length_pos_iff.2 hempty), ht]
      simpa [hdraining] using hu

/-- However the stream is cut and the client acts: once all pieces have arrived, `drain_incoming` comes to an end with
nothing left to read, and the lines processed are the messages exactly when no piece goes on after a newline. -/
theorem lines_seen_iff (hmessages : ∀ m ∈ messages, m ≠ [] ∧ newline ∉ m)
    (hcut : pieces.flatten = join newline messages)
    (h : Run Acts (start pieces) l s) (harrived : s.arrived = s.unread.length) :
    ∃ t, s.drainIncoming = some t ∧ t.unread.flatten = [] ∧
      (t.seen = messages ↔ ∀ piece ∈ pieces, Whole newline piece) := by
  have hfollows := run_follows h
  obtain ⟨t, ht, hfollows, hempty⟩ := loops_end (s := { s with draining := true }) (Nat.lt_succ_self _)
    ⟨hfollows.suffix, hfollows.received⟩ hcut harrived rfl
  refine ⟨t, ht, hempty, ?_⟩
  rw [← received_iff hmessages hcut, ← hfollows.received, received_nil hempty, List.append_nil]

/-! ## The answer to a login -/

/-- The client after the acts. -/
def after (pieces : List (List Byte)) (acts : List Act) : Option Console :=
  follow (fun s a => (s.act a).map fun t => (a, t)) (start pieces) acts

theorem after_run {acts : List Act} (h : after pieces acts = some s) :
    ∃ l, Run Acts (start pieces) l s ∧ l.map Prod.snd = acts := by
  obtain ⟨l, hr, hl⟩ := follow_run Acts id (fun {s a a' t} hf => by
    obtain ⟨u, hu, heq⟩ := Option.map_eq_some_iff.1 hf
    cases heq
    exact ⟨hu, rfl⟩) .nil h
  exact ⟨l, by simpa using hr, by simpa using hl⟩

def authorized : List Byte := (Json.object [("message", .string "authorized"), ("status", .string "ok")]).dump

def ratingUpdate : List Byte :=
  (Json.object [("data", .object [("rating", .number "1000")]), ("event", .string "rating_update"),
    ("type", .string "event")]).dump

/-- The two lines arrive one after the other. -/
theorem lines_seen_apart : ∃ l s t, Run Acts (start [authorized ++ [newline], ratingUpdate ++ [newline]]) l s ∧
    l.map Prod.snd = [.arrive, .send, .arrive] ∧ s.drainIncoming = some t ∧ t.seen = [authorized, ratingUpdate] := by
  have hacts : (after [authorized ++ [newline], ratingUpdate ++ [newline]] [.arrive, .send, .arrive]).any (fun s =>
      s.arrived = s.unread.length) = true := by decide +kernel
  obtain ⟨s, hs, harrived⟩ := (Option.any_eq_true _ _).1 hacts
  obtain ⟨l, hr, hl⟩ := after_run hs
  have hmessages : ∀ m ∈ [authorized, ratingUpdate], m ≠ [] ∧ newline ∉ m := by decide +kernel
  have hwhole : ∀ piece ∈ [authorized ++ [newline], ratingUpdate ++ [newline]], Whole newline piece := by decide +kernel
  obtain ⟨t, ht, -, hseen⟩ := lines_seen_iff hmessages rfl hr (of_decide_eq_true harrived)
  exact ⟨l, s, t, hr, hl, ht, hseen.2 hwhole⟩

/-- The two lines arrive together, and the second is lost. -/
theorem lines_seen_together : ∃ l s t, Run Acts (start [authorized ++ [newline] ++ ratingUpdate ++ [newline]]) l s ∧
    l.map Prod.snd = [.arrive, .send] ∧ s.arrived = s.unread.length ∧ s.drainIncoming = some t ∧ t.unread = [] ∧
    t.seen = [authorized] ∧ t.seen ≠ [authorized, ratingUpdate] := by
  have hacts : (after [authorized ++ [newline] ++ ratingUpdate ++ [newline]] [.arrive, .send]).any (fun s =>
      s.arrived = s.unread.length && s.drainIncoming.any fun t => t.unread = [] ∧ t.seen = [authorized]) = true := by
    decide +kernel
  obtain ⟨s, hs, hacts⟩ := (Option.any_eq_true _ _).1 hacts
  obtain ⟨l, hr, hl⟩ := after_run hs
  obtain ⟨harrived, hdrain⟩ := Bool.and_eq_true_iff.1 hacts
  obtain ⟨t, ht, htest⟩ := (Option.any_eq_true _ _).1 hdrain
  obtain ⟨hunread, hseen⟩ := of_decide_eq_true htest
  exact ⟨l, s, t, hr, hl, of_decide_eq_true harrived, ht, hunread, hseen, by rw [hseen]; simp⟩

end Console

end ChessGame
