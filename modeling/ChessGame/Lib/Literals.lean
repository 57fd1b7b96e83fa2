import Mathlib
/-!
# Quoted literals

Reading a text in which a quote opens a literal, the next quote that is not doubled
closes it, and a doubled quote inside stands for one. What was read can be written
down again, so a value spliced between two quotes comes back as that value exactly
when it has no quote in it.
-/

namespace Literals

variable {α : Type}

inductive Token (α : Type) where
  | plain (c : α)
  | literal (value : List α)
  /-- A literal that the text ends in. -/
  | broken (value : List α)
  deriving DecidableEq, Repr

/-- Where the reader is, and what it has of the literal it is in. -/
inductive Mode (α : Type) where
  | outside
  | inside (value : List α)
  /-- After a quote inside a literal. -/
  | closing (value : List α)

section
variable [DecidableEq α] (q : α)

def scan : Mode α → List α → List (Token α)
  | .outside, [] => []
  | .inside value, [] => [.broken value]
  | .closing value, [] => [.literal value]
  | .outside, c :: cs => if c = q then scan (.inside []) cs else .plain c :: scan .outside cs
  | .inside value, c :: cs => if c = q then scan (.closing value) cs else scan (.inside (value ++ [c])) cs
  | .closing value, c :: cs =>
    if c = q then scan (.inside (value ++ [q])) cs else .literal value :: .plain c :: scan .outside cs

/-- The tokens of a text. -/
def lex (text : List α) : List (Token α) := scan q .outside text

/-! ## Writing -/

/-- The value as it stands between its quotes. -/
def double (value : List α) : List α := value.flatMap fun c => if c = q then [q, q] else [c]

def Token.render : Token α → List α
  | plain c => [c]
  | literal value => q :: double q value ++ [q]
  | broken value => q :: double q value

/-- What has been read of a literal. -/
def Mode.pending : Mode α → List α
  | outside => []
  | inside value => q :: double q value
  | closing value => q :: double q value ++ [q]

end

variable [DecidableEq α] {q : α} {xs ys value : List α}

theorem double_concat (q c : α) (value : List α) :
    double q (value ++ [c]) = double q value ++ if c = q then [q, q] else [c] := by
  simp [double]

theorem double_plain (h : q ∉ xs) : double q xs = xs := by
  induction xs with
  | nil => rfl
  | cons c xs ih =>
    rw [List.mem_cons, not_or] at h
    have hcons : double q (c :: xs) = (if c = q then [q, q] else [c]) ++ double q xs := List.flatMap_cons
    rw [hcons, if_neg (Ne.symm h.1), ih h.2]
    rfl

theorem length_double (q : α) (xs : List α) : (double q xs).length = xs.length + xs.count q := by
  induction xs with
  | nil => rfl
  | cons c xs ih =>
    have hcons : double q (c :: xs) = (if c = q then [q, q] else [c]) ++ double q xs := List.flatMap_cons
    rw [hcons, List.length_append, ih, List.length_cons, List.count_cons]
    by_cases hc : c = q
    · simp [hc]
      omega
    · simp [hc]
      omega

theorem double_eq_self : double q xs = xs ↔ q ∉ xs := by
  refine ⟨fun h => ?_, double_plain⟩
  have hlen := length_double q xs
  rw [h] at hlen
  exact List.count_eq_zero.1 (by omega)

theorem mem_double {c : α} (h : c ∈ xs) : c ∈ double q xs := by
  refine List.mem_flatMap.2 ⟨c, h, ?_⟩
  split
  · rename_i hc
    simp [hc]
  · simp

/-- Reading loses nothing: the tokens written down are the text. -/
theorem render_scan (m : Mode α) (xs : List α) :
    (scan q m xs).flatMap (Token.render q) = m.pending q ++ xs := by
  induction xs generalizing m with
  | nil => cases m <;> simp [scan, Mode.pending, Token.render]
  | cons c xs ih =>
    cases m with
    | outside =>
      unfold scan
      split
      · rename_i hc
        rw [ih, hc]
        rfl
      · rw [List.flatMap_cons, ih]
        rfl
    | inside value =>
      unfold scan
      split
      · rename_i hc
        rw [ih, hc]
        simp [Mode.pending]
      · rename_i hc
        rw [ih, Mode.pending, double_concat, if_neg hc]
        simp [Mode.pending]
    | closing value =>
      unfold scan
      split
      · rename_i hc
        rw [ih, Mode.pending, double_concat, if_pos rfl, hc]
        simp [Mode.pending]
      · rw [List.flatMap_cons, List.flatMap_cons, ih]
        simp [Mode.pending, Token.render]

theorem render_lex (q : α) (text : List α) : (lex q text).flatMap (Token.render q) = text := render_scan .outside text

/-! ## Reading -/

theorem lex_plain (h : q ∉ xs) (ys : List α) : lex q (xs ++ ys) = xs.map .plain ++ lex q ys := by
  induction xs with
  | nil => rfl
  | cons c xs ih =>
    rw [List.mem_cons, not_or] at h
    have hcons : lex q (c :: (xs ++ ys)) = .plain c :: lex q (xs ++ ys) := if_neg (Ne.symm h.1)
    rw [List.cons_append, hcons, ih h.2]
    rfl

theorem scan_inside (h : q ∉ xs) (value ys : List α) :
    scan q (.inside value) (xs ++ q :: ys) = scan q (.closing (value ++ xs)) ys := by
  induction xs generalizing value with
  | nil =>
    rw [List.append_nil]
    exact if_pos rfl
  | cons c xs ih =>
    rw [List.mem_cons, not_or] at h
    have hcons : scan q (.inside value) (c :: (xs ++ q :: ys)) = scan q (.inside (value ++ [c])) (xs ++ q :: ys) :=
      if_neg (Ne.symm h.1)
    rw [List.cons_append, hcons, ih h.2, List.append_assoc]
    rfl

theorem scan_closing (h : ys.head? ≠ some q) : scan q (.closing value) ys = .literal value :: lex q ys := by
  cases ys with
  | nil => rfl
  | cons c ys =>
    have hc : c ≠ q := fun hc => h (congrArg some hc)
    have hclosing : scan q (.closing value) (c :: ys) = .literal value :: .plain c :: scan q .outside ys := if_neg hc
    have houtside : lex q (c :: ys) = .plain c :: scan q .outside ys := if_neg hc
    rw [hclosing, houtside]

/-- A value spliced between quotes is read as itself exactly when it has no quote in it. -/
theorem lex_splice (hx : q ∉ xs) (hy : ys.head? ≠ some q) :
    lex q (xs ++ q :: (value ++ q :: ys)) = xs.map .plain ++ .literal value :: lex q ys ↔ q ∉ value := by
  constructor
  · intro h
    have htext := congrArg (List.flatMap (Token.render q)) h
    have hplain : (xs.map Token.plain).flatMap (Token.render q) = xs := by simp [List.flatMap_map, Token.render]
    rw [render_lex, List.flatMap_append, hplain, List.flatMap_cons, render_lex] at htext
    have hvalue : value ++ q :: ys = double q value ++ q :: ys := by
      simpa [Token.render] using htext
    exact double_eq_self.1 (List.append_cancel_right hvalue).symm
  · intro h
    have hopen : lex q (q :: (value ++ q :: ys)) = scan q (.inside []) (value ++ q :: ys) := if_pos rfl
    rw [lex_plain hx, hopen, scan_inside h, scan_closing hy, List.nil_append]

end Literals
