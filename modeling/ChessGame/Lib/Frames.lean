import Mathlib
/-!
# Lines in a stream

Lines end with a delimiter. The stream of the lines is cut into pieces, and a reader
takes pieces until it has seen a delimiter. A reader that keeps one line of what it took
and forgets the rest gets all lines exactly when no piece goes on after a delimiter.
-/

namespace Frames

variable {α : Type} (nl : α)

/-- The lines, each with its delimiter. -/
def join (lines : List (List α)) : List α := lines.flatMap (· ++ [nl])

/-- An empty line is not passed on. -/
def keep (line : List α) : List (List α) := if line.isEmpty then [] else [line]

/-- A piece that does not go on after a delimiter. -/
def Whole (piece : List α) : Prop := nl ∉ piece.dropLast

variable {nl} {line bytes taken : List α} {lines pieces left : List (List α)}

theorem keep_line (h : line ≠ []) : keep line = [line] := by
  simp [keep, h]

theorem length_keep (line : List α) : (join nl (keep line)).length ≤ line.length + 1 := by
  cases line <;> simp [keep, join]

theorem length_join_append (lines lines' : List (List α)) :
    (join nl (lines ++ lines')).length = (join nl lines).length + (join nl lines').length := by
  simp [join]

/-- What is left of a stream of lines ends with a delimiter. -/
theorem mem_of_suffix {before after : List α} (h : before ++ after = join nl lines) (hne : after ≠ []) :
    nl ∈ after := by
  obtain rfl | ⟨lines, line, rfl⟩ := List.eq_nil_or_concat lines
  · exact absurd (List.append_eq_nil_iff.1 h).2 hne
  obtain rfl | ⟨after, x, rfl⟩ := List.eq_nil_or_concat after
  · exact absurd rfl hne
  have hconcat : (before ++ after) ++ [x] = (join nl lines ++ line) ++ [nl] := by simpa [join] using h
  obtain ⟨-, hlast⟩ := List.append_inj' hconcat rfl
  rw [(List.cons.inj hlast).1]
  simp

theorem whole_of_mem {piece : List α} (h : nl ∈ piece) : Whole nl piece ↔ ∃ q, nl ∉ q ∧ piece = q ++ [nl] := by
  constructor
  · intro hw
    have hne : piece ≠ [] := List.ne_nil_of_mem h
    have hlast : nl = piece.getLast hne := by
      rw [← List.dropLast_append_getLast hne, List.mem_append, List.mem_singleton] at h
      exact h.resolve_left hw
    exact ⟨piece.dropLast, hw, by rw [hlast]; exact (List.dropLast_append_getLast hne).symm⟩
  · rintro ⟨q, hq, rfl⟩
    rwa [Whole, List.dropLast_concat]

theorem whole_of_not_mem {piece : List α} (h : nl ∉ piece) : Whole nl piece := fun hm => h (List.dropLast_subset _ hm)

variable [DecidableEq α] (nl)

instance (piece : List α) : Decidable (Whole nl piece) := by unfold Whole; infer_instance

/-! ## Texts -/

/-- What `getline` takes. -/
def firstLine (bytes : List α) : List α := bytes.takeWhile (· ≠ nl)

/-- The lines of a text that ends with its last delimiter; `line` is what was read of the next one. -/
def splitFrom (line : List α) : List α → List (List α)
  | [] => []
  | x :: xs => if x = nl then line :: splitFrom [] xs else splitFrom (line ++ [x]) xs

def split (bytes : List α) : List (List α) := splitFrom nl [] bytes

variable {nl}

theorem splitFrom_append (h : nl ∉ bytes) (line more : List α) :
    splitFrom nl line (bytes ++ more) = splitFrom nl (line ++ bytes) more := by
  induction bytes generalizing line with
  | nil => rw [List.append_nil, List.nil_append]
  | cons x xs ih =>
    rw [List.mem_cons, not_or] at h
    rw [List.cons_append, splitFrom, if_neg (Ne.symm h.1), ih h.2, List.append_assoc, List.singleton_append]

/-- Some lines in front of a text are split off. -/
theorem split_join_append (h : ∀ line ∈ lines, nl ∉ line) (more : List α) :
    split nl (join nl lines ++ more) = lines ++ split nl more := by
  induction lines with
  | nil => rfl
  | cons line lines ih =>
    rw [List.forall_mem_cons] at h
    rw [split, join, List.flatMap_cons, List.append_assoc, List.append_assoc, splitFrom_append h.1,
      List.singleton_append, splitFrom, if_pos rfl, List.nil_append]
    exact congrArg (line :: ·) (ih h.2)

/-- The text of some lines is split into these lines. -/
theorem split_join (h : ∀ line ∈ lines, nl ∉ line) : split nl (join nl lines) = lines := by
  have hnil : split nl ([] : List α) = [] := rfl
  rw [← List.append_nil (join nl lines), split_join_append h, hnil, List.append_nil]

theorem split_of_not_mem (h : nl ∉ bytes) : split nl bytes = [] := by
  have hend : splitFrom nl bytes [] = [] := rfl
  rw [split, ← List.append_nil bytes, splitFrom_append h, List.nil_append, hend]

theorem firstLine_append (h : nl ∉ line) (more : List α) : firstLine nl (line ++ nl :: more) = line := by
  have hline : ∀ x ∈ line, decide (x ≠ nl) = true := fun x hx => decide_eq_true fun he => h (he ▸ hx)
  rw [firstLine, List.takeWhile_append_of_pos hline]
  simp

/-- What `getline` takes, the delimiter, and what it leaves. -/
theorem firstLine_eq (h : nl ∈ bytes) :
    nl ∉ firstLine nl bytes ∧ bytes = firstLine nl bytes ++ nl :: bytes.drop ((firstLine nl bytes).length + 1) := by
  obtain ⟨line, more, rfl, hline⟩ := List.eq_append_cons_of_mem h
  rw [firstLine_append hline]
  refine ⟨hline, ?_⟩
  rw [← List.drop_drop, List.drop_left, List.drop_one, List.tail_cons]

/-- Lines are told apart by the first delimiter. -/
theorem append_cons_inj {line' more more' : List α} (h : nl ∉ line) (h' : nl ∉ line')
    (heq : line ++ nl :: more = line' ++ nl :: more') : line = line' ∧ more = more' := by
  have hline : line = line' := by rw [← firstLine_append h more, heq, firstLine_append h']
  subst hline
  exact ⟨rfl, (List.cons.inj (List.append_cancel_left heq)).2⟩

/-! ## Pieces -/

variable (nl)

/-- Pieces are taken up to the first with a delimiter: what was taken and the pieces left. Without a delimiter the
reader is still waiting. -/
def readUntil : List (List α) → Option (List α × List (List α))
  | [] => none
  | piece :: pieces =>
    if nl ∈ piece then some (piece, pieces) else (readUntil pieces).map fun r => (piece ++ r.1, r.2)

/-- The lines passed on by reads that each keep one line of what they take; `taken` is what the read that is going on
has taken. -/
def received (taken : List α) : List (List α) → List (List α)
  | [] => []
  | piece :: pieces =>
    if nl ∈ piece then keep (firstLine nl (taken ++ piece)) ++ received [] pieces else received (taken ++ piece) pieces

variable {nl}

theorem received_read (h : readUntil nl pieces = some (bytes, left)) :
    received nl taken pieces = keep (firstLine nl (taken ++ bytes)) ++ received nl [] left := by
  induction pieces generalizing taken bytes with
  | nil => cases h
  | cons piece pieces ih =>
    unfold readUntil at h
    rw [received]
    split at h
    · rename_i hnl
      cases h
      rw [if_pos hnl]
    · rename_i hnl
      obtain ⟨⟨bytes', left'⟩, hread, heq⟩ := Option.map_eq_some_iff.1 h
      cases heq
      rw [if_neg hnl, ih hread, List.append_assoc]

theorem readUntil_suffix (h : readUntil nl pieces = some (bytes, left)) :
    ∃ taken, pieces = taken ++ left ∧ taken ≠ [] ∧ bytes = taken.flatten := by
  induction pieces generalizing bytes with
  | nil => cases h
  | cons piece pieces ih =>
    unfold readUntil at h
    split at h
    · cases h
      exact ⟨[piece], rfl, by simp, by simp⟩
    · obtain ⟨⟨bytes', left'⟩, hread, heq⟩ := Option.map_eq_some_iff.1 h
      cases heq
      obtain ⟨taken, rfl, -, hbytes⟩ := ih hread
      exact ⟨piece :: taken, rfl, by simp, by rw [List.flatten_cons, ← hbytes]⟩

/-- A read comes back when a delimiter is among the pieces. -/
theorem readUntil_isSome (h : nl ∈ pieces.flatten) : ∃ bytes left, readUntil nl pieces = some (bytes, left) := by
  induction pieces with
  | nil => cases h
  | cons piece pieces ih =>
    unfold readUntil
    split
    · exact ⟨_, _, rfl⟩
    · rename_i hnl
      rw [List.flatten_cons, List.mem_append, or_iff_right hnl] at h
      obtain ⟨bytes, left, hread⟩ := ih h
      exact ⟨piece ++ bytes, left, by rw [hread]; rfl⟩

/-! ## When nothing is lost -/

/-- Of whole pieces every line is received. -/
theorem received_whole (hwhole : ∀ piece ∈ pieces, Whole nl piece) (htaken : nl ∉ taken)
    (hlines : ∀ line ∈ lines, line ≠ [] ∧ nl ∉ line) (heq : taken ++ pieces.flatten = join nl lines) :
    received nl taken pieces = lines := by
  induction pieces generalizing taken lines with
  | nil =>
    cases lines with
    | nil => rfl
    | cons line lines =>
      rw [List.flatten_nil, List.append_nil] at heq
      exact absurd (heq ▸ by simp [join]) htaken
  | cons piece pieces ih =>
    rw [List.forall_mem_cons] at hwhole
    rw [List.flatten_cons] at heq
    unfold received
    split
    · rename_i hnl
      obtain ⟨q, hq, rfl⟩ := (whole_of_mem hnl).1 hwhole.1
      cases lines with
      | nil => simp [join] at heq
      | cons line lines =>
        rw [List.forall_mem_cons] at hlines
        have hq' : nl ∉ taken ++ q := by simp [htaken, hq]
        have hsplit : (taken ++ q) ++ nl :: pieces.flatten = line ++ nl :: join nl lines := by
          simpa [join] using heq
        obtain ⟨hline, hmore⟩ := append_cons_inj hq' hlines.1.2 hsplit
        rw [← List.append_assoc, firstLine_append hq' [], hline, keep_line hlines.1.1,
          ih hwhole.2 List.not_mem_nil hlines.2 hmore]
        rfl
    · rename_i hnl
      refine ih hwhole.2 ?_ hlines (by rw [List.append_assoc, heq])
      rw [List.mem_append, not_or]
      exact ⟨htaken, hnl⟩

/-- What is taken holds the line that is kept, its delimiter and what is forgotten. -/
theorem taken_eq {piece : List α} (htaken : nl ∉ taken) (h : nl ∈ piece) :
    ∃ forgotten, taken ++ piece = firstLine nl (taken ++ piece) ++ nl :: forgotten ∧
      (¬ Whole nl piece → forgotten ≠ []) := by
  obtain ⟨q, forgotten, rfl, hq⟩ := List.eq_append_cons_of_mem h
  have hline : nl ∉ taken ++ q := by simp [htaken, hq]
  refine ⟨forgotten, ?_, ?_⟩
  · rw [← List.append_assoc, firstLine_append hline]
  · rintro hw rfl
    exact hw ((whole_of_mem h).2 ⟨q, hq, rfl⟩)

/-- The lines received are no longer than the pieces, and shorter if something is forgotten. -/
theorem length_received (htaken : nl ∉ taken) :
    (join nl (received nl taken pieces)).length ≤ taken.length + pieces.flatten.length ∧
      ((∃ piece ∈ pieces, ¬ Whole nl piece) →
        (join nl (received nl taken pieces)).length < taken.length + pieces.flatten.length) := by
  induction pieces generalizing taken with
  | nil => exact ⟨Nat.zero_le _, by simp⟩
  | cons piece pieces ih =>
    rw [List.flatten_cons, List.length_append]
    simp only [List.mem_cons, exists_eq_or_imp]
    unfold received
    split
    · rename_i hnl
      obtain ⟨forgotten, heq, hforgotten⟩ := taken_eq htaken hnl
      have hlen := congrArg List.length heq
      rw [List.length_append, List.length_append, List.length_cons] at hlen
      have hkeep :
          (join nl (keep (firstLine nl (taken ++ piece)))).length ≤ (firstLine nl (taken ++ piece)).length + 1 :=
        length_keep _
      obtain ⟨hle, hlt⟩ := ih (show nl ∉ [] from List.not_mem_nil)
      rw [List.length_nil] at hle hlt
      rw [length_join_append]
      refine ⟨by omega, fun h => ?_⟩
      obtain hw | hw := h
      · have hpos := List.length_pos_iff.2 (hforgotten hw)
        omega
      · have := hlt hw
        omega
    · rename_i hnl
      have htaken' : nl ∉ taken ++ piece := by simp [htaken, hnl]
      obtain ⟨hle, hlt⟩ := ih htaken'
      rw [List.length_append] at hle hlt
      refine ⟨by omega, fun h => ?_⟩
      obtain hw | hw := h
      · exact absurd (whole_of_not_mem hnl) hw
      · have := hlt hw
        omega

/-- The lines of a stream are received, complete and in order, exactly when its pieces are whole. -/
theorem received_iff (hlines : ∀ line ∈ lines, line ≠ [] ∧ nl ∉ line) (heq : pieces.flatten = join nl lines) :
    received nl [] pieces = lines ↔ ∀ piece ∈ pieces, Whole nl piece := by
  constructor
  · intro hrec piece hpiece
    by_contra hw
    have hnil : nl ∉ [] := List.not_mem_nil
    have hlt := (length_received hnil).2 ⟨piece, hpiece, hw⟩
    rw [hrec, heq, List.length_nil] at hlt
    omega
  · intro hw
    exact received_whole hw List.not_mem_nil hlines heq

end Frames
