import Mathlib
/-!
# Cells written with gaps

A row of cells is written as its items and, in their places, how many cells in a row
are empty. A reader for which a gap of `m + n` cells is one of `m` and then one of
`n` reads the text as it would read the cells one by one.
-/

namespace Gaps

variable {α σ : Type}

inductive Token (α : Type) where
  | gap (n : ℕ)
  | item (a : α)
  deriving DecidableEq, Repr

/-- The gap in front of what comes next, if there is one. -/
def flush (gap : ℕ) : List (Token α) := if gap > 0 then [.gap gap] else []

/-- One cell: the tokens written and the empty cells not yet written. -/
def write (st : List (Token α) × ℕ) : Option α → List (Token α) × ℕ
  | none => (st.1, st.2 + 1)
  | some a => (st.1 ++ flush st.2 ++ [.item a], 0)

def encode (cells : List (Option α)) : List (Token α) :=
  let st := cells.foldl write ([], 0)
  st.1 ++ flush st.2

structure Reader (σ α : Type) where
  skip : ℕ → σ → σ
  put : α → σ → σ
  skip_skip : ∀ m n s, skip n (skip m s) = skip (m + n) s

namespace Reader

def read (r : Reader σ α) (s : σ) : Token α → σ
  | .gap n => r.skip n s
  | .item a => r.put a s

/-- One cell that is not written as part of a gap. -/
def cell (r : Reader σ α) (s : σ) : Option α → σ
  | none => r.skip 1 s
  | some a => r.put a s

theorem read_write (r : Reader σ α) (s : σ) (st : List (Token α) × ℕ) (c : Option α) :
    ((write st c).1 ++ flush (write st c).2).foldl r.read s = r.cell ((st.1 ++ flush st.2).foldl r.read s) c := by
  obtain ⟨out, gap⟩ := st
  cases c with
  | none =>
    simp only [write, cell, List.foldl_append]
    cases gap with
    | zero => rfl
    | succ gap => exact (r.skip_skip (gap + 1) 1 _).symm
  | some a => simp [write, cell, flush, read]

/-- The text is read as the cells. -/
theorem read_encode (r : Reader σ α) (cells : List (Option α)) (s : σ) :
    (encode cells).foldl r.read s = cells.foldl r.cell s := by
  induction cells using List.reverseRecOn with
  | nil => rfl
  | append_singleton cells c ih =>
    rw [List.foldl_concat, ← ih, encode, List.foldl_concat]
    exact r.read_write s _ c

end Reader

theorem gap_of_flush {n gap : ℕ} (h : (Token.gap n : Token α) ∈ flush gap) : n = gap ∧ 0 < gap := by
  unfold flush at h
  split at h
  · rename_i hpos
    cases List.mem_singleton.1 h
    exact ⟨rfl, hpos⟩
  · cases h

theorem write_gaps (cells : List (Option α)) :
    (∀ n, Token.gap n ∈ (cells.foldl write ([], 0)).1 → 0 < n ∧ n ≤ cells.length) ∧
      (cells.foldl write ([], 0)).2 ≤ cells.length := by
  induction cells using List.reverseRecOn with
  | nil => exact ⟨nofun, le_refl 0⟩
  | append_singleton cells c ih =>
    obtain ⟨hout, hgap⟩ := ih
    rw [List.foldl_concat, List.length_append, List.length_singleton]
    generalize cells.foldl write ([], 0) = st at hout hgap
    have hout' : ∀ n, Token.gap n ∈ st.1 → 0 < n ∧ n ≤ cells.length + 1 :=
      fun n hn => ⟨(hout n hn).1, (hout n hn).2.trans (Nat.le_succ _)⟩
    cases c with
    | none => exact ⟨hout', Nat.succ_le_succ hgap⟩
    | some a =>
      refine ⟨fun n hn => ?_, Nat.zero_le _⟩
      simp only [write, List.mem_append, List.mem_singleton, reduceCtorEq, or_false] at hn
      obtain hn | hn := hn
      · exact hout' n hn
      · obtain ⟨rfl, hpos⟩ := gap_of_flush hn
        exact ⟨hpos, hgap.trans (Nat.le_succ _)⟩

/-- Every gap that is written consists of some of the cells. -/
theorem gap_of_encode {cells : List (Option α)} {n : ℕ} (h : Token.gap n ∈ encode cells) :
    0 < n ∧ n ≤ cells.length := by
  obtain ⟨hout, hgap⟩ := write_gaps cells
  obtain h | h := List.mem_append.1 h
  · exact hout n h
  · obtain ⟨rfl, hpos⟩ := gap_of_flush h
    exact ⟨hpos, hgap⟩

end Gaps
