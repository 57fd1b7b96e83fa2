import Mathlib
/-!
# Walking along a line up to the first obstacle

`next` takes one step, if there is room. `Line next a l` lists the cells
reached from `a` one step after the other until there is no room, and
`Sees next occ a q` says that a walk from `a` over free cells reaches `q`. On
a line both are the same thing: `q` is on the list and the cells before it
are free (`sees_iff`), and the first occupied cell is the last one seen
(`sees_upto`).
-/

namespace Walk

variable {α : Type} {next : α → Option α} {occ : α → Prop}

/-- The cells reached from `a`, in order. -/
inductive Line (next : α → Option α) : α → List α → Prop
  | stop {a : α} : next a = none → Line next a []
  | go {a r : α} {l : List α} : next a = some r → Line next r l → Line next a (r :: l)

/-- A walk from `a` over free cells reaches `q`, which may be occupied. -/
inductive Sees (next : α → Option α) (occ : α → Prop) : α → α → Prop
  | step {a r : α} : next a = some r → Sees next occ a r
  | walk {a r q : α} : next a = some r → ¬ occ r → Sees next occ r q → Sees next occ a q

/-- `Line` as a check. -/
def isLine [DecidableEq α] (next : α → Option α) : α → List α → Bool
  | a, [] => next a = none
  | a, r :: l => next a = some r && isLine next r l

theorem line_of_isLine [DecidableEq α] {a : α} {l : List α} (h : isLine next a l = true) : Line next a l := by
  induction l generalizing a with
  | nil => exact .stop (by simpa [isLine] using h)
  | cons r l ih =>
    simp only [isLine, Bool.and_eq_true, decide_eq_true_eq] at h
    exact .go h.1 (ih h.2)

theorem Line.unique {a : α} {l l' : List α} (h : Line next a l) (h' : Line next a l') : l = l' := by
  induction h generalizing l' with
  | stop hn =>
    cases h' with
    | stop => rfl
    | go hs => rw [hn] at hs; cases hs
  | go hs _ ih =>
    cases h' with
    | stop hn => rw [hn] at hs; cases hs
    | go hs' hl' =>
      rw [hs] at hs'
      cases hs'
      rw [ih hl']

/-- The line from a cell of a line is the rest of it. -/
theorem Line.tail {a s : α} {l₁ l₂ : List α} (h : Line next a (l₁ ++ s :: l₂)) : Line next s l₂ := by
  induction l₁ generalizing a with
  | nil => cases h with | go _ hl => exact hl
  | cons r l₁ ih => cases h with | go _ hl => exact ih hl

/-- A line runs along any transitive relation its steps follow. -/
theorem Line.pairwise {R : α → α → Prop} (htrans : ∀ {a b c}, R a b → R b c → R a c)
    (hstep : ∀ {a r}, next a = some r → R a r) {a : α} {l : List α} (h : Line next a l) :
    (a :: l).Pairwise R := by
  induction h with
  | stop _ => simp
  | go hs _ ih =>
    refine List.pairwise_cons.2 ⟨fun x hx => ?_, ih⟩
    rcases List.mem_cons.1 hx with rfl | hx
    · exact hstep hs
    · exact htrans (hstep hs) ((List.pairwise_cons.1 ih).1 x hx)

/-- What is seen from `a`: cells of the line with only free cells before them. -/
theorem sees_iff {a q : α} {l : List α} (h : Line next a l) :
    Sees next occ a q ↔ ∃ l₁ l₂, l = l₁ ++ q :: l₂ ∧ ∀ x ∈ l₁, ¬ occ x := by
  constructor
  · intro hs
    induction hs generalizing l with
    | step hr =>
      cases h with
      | stop hn => rw [hn] at hr; cases hr
      | go hr' _ => rw [hr] at hr'; cases hr'; exact ⟨[], _, rfl, by simp⟩
    | walk hr hfree _ ih =>
      cases h with
      | stop hn => rw [hn] at hr; cases hr
      | go hr' hl =>
        rw [hr] at hr'
        cases hr'
        obtain ⟨l₁, l₂, rfl, hf⟩ := ih hl
        refine ⟨_ :: l₁, l₂, rfl, fun x hx => ?_⟩
        rcases List.mem_cons.1 hx with rfl | hx
        · exact hfree
        · exact hf x hx
  · rintro ⟨l₁, l₂, rfl, hf⟩
    induction l₁ generalizing a with
    | nil => cases h with | go hr _ => exact .step hr
    | cons r l₁ ih =>
      cases h with
      | go hr hl => exact .walk hr (hf r (by simp)) (ih (fun x hx => hf x (by simp [hx])) hl)

/-- The cells seen end with the first occupied one. -/
theorem sees_upto {a s q : α} {l₁ l₂ : List α} (h : Line next a (l₁ ++ s :: l₂)) (hf : ∀ x ∈ l₁, ¬ occ x)
    (hs : occ s) : Sees next occ a q ↔ q ∈ l₁ ∨ q = s := by
  rw [sees_iff h]
  constructor
  · rintro ⟨m₁, m₂, hm, hfree⟩
    rcases List.append_eq_append_iff.1 hm with ⟨k, rfl, hk⟩ | ⟨k, rfl, hk⟩
    · cases k with
      | nil => simp only [List.nil_append, List.cons.injEq] at hk; exact .inr hk.1.symm
      | cons x k =>
        simp only [List.cons_append, List.cons.injEq] at hk
        exact absurd hs (hfree s (by simp [hk.1]))
    · cases k with
      | nil => simp only [List.nil_append, List.cons.injEq] at hk; exact .inr hk.1
      | cons x k =>
        simp only [List.cons_append, List.cons.injEq] at hk
        exact .inl (by simp [hk.1])
  · rintro (hq | rfl)
    · obtain ⟨m₁, m₂, rfl⟩ := List.append_of_mem hq
      exact ⟨m₁, m₂ ++ s :: l₂, by simp, fun x hx => hf x (by simp [hx])⟩
    · exact ⟨l₁, l₂, rfl, hf⟩

/-- On a line of free cells everything is seen. -/
theorem sees_all {a q : α} {l : List α} (h : Line next a l) (hf : ∀ x ∈ l, ¬ occ x) :
    Sees next occ a q ↔ q ∈ l := by
  rw [sees_iff h]
  constructor
  · rintro ⟨l₁, l₂, rfl, -⟩; simp
  · intro hq
    obtain ⟨m₁, m₂, rfl⟩ := List.append_of_mem hq
    exact ⟨m₁, m₂, rfl, fun x hx => hf x (by simp [hx])⟩

/-- A list with an occupied cell splits at the first one. -/
theorem first_occupied (occ : α → Prop) {l : List α} (h : ∃ x ∈ l, occ x) :
    ∃ l₁ s l₂, l = l₁ ++ s :: l₂ ∧ (∀ x ∈ l₁, ¬ occ x) ∧ occ s := by
  classical
  induction l with
  | nil => simp at h
  | cons y l ih =>
    by_cases hy : occ y
    · exact ⟨[], y, l, rfl, by simp, hy⟩
    · obtain ⟨x, hx, ho⟩ := h
      rcases List.mem_cons.1 hx with rfl | hx
      · exact absurd ho hy
      · obtain ⟨l₁, s, l₂, rfl, hf, hs⟩ := ih ⟨x, hx, ho⟩
        refine ⟨y :: l₁, s, l₂, rfl, fun z hz => ?_, hs⟩
        rcases List.mem_cons.1 hz with rfl | hz
        · exact hy
        · exact hf z hz

end Walk
