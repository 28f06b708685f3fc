import Mathlib.Data.List.Infix

set_option autoImplicit false

/-!
# Lines that end with a terminator of two different symbols
-/
namespace ESPressioSystem.LineFraming

section
variable {α : Type}

def extend (b : α) : List (List α) × List α → List (List α) × List α
  | ([], rest) => ([], b :: rest)
  | (line :: lines, rest) => ((b :: line) :: lines, rest)

theorem extend_prefix (b : α) {early late : List (List α) × List α} (h : early.1 <+: late.1) :
    (extend b early).1 <+: (extend b late).1 := by
  obtain ⟨lines, rest⟩ := early
  obtain ⟨lines', rest'⟩ := late
  cases lines with
  | nil => exact List.nil_prefix
  | cons line lines =>
    obtain ⟨more, rfl⟩ := h
    exact ⟨more, rfl⟩

def framed (cr lf : α) (lines : List (List α)) : List α := lines.flatMap (· ++ [cr, lf])

def Unbroken (cr lf : α) (line : List α) : Prop := ¬ [cr, lf] <:+: line

theorem Unbroken.tail {cr lf b : α} {line : List α} (h : Unbroken cr lf (b :: line)) :
    Unbroken cr lf line :=
  fun inside => h (inside.trans (List.suffix_cons b line).isInfix)

end

section
variable {α : Type} [DecidableEq α]

/-- The lines of a stream that have been ended, and what follows the last of them. -/
def readLines (cr lf : α) : List α → List (List α) × List α
  | [] => ([], [])
  | [b] => ([], [b])
  | b :: c :: stream =>
    if b = cr ∧ c = lf then ([] :: (readLines cr lf stream).1, (readLines cr lf stream).2)
    else extend b (readLines cr lf (c :: stream))

instance (cr lf : α) (line : List α) : Decidable (Unbroken cr lf line) :=
  inferInstanceAs (Decidable (¬ _))

variable {cr lf : α}

theorem readLines_break (cr lf : α) (stream : List α) :
    readLines cr lf (cr :: lf :: stream) =
      ([] :: (readLines cr lf stream).1, (readLines cr lf stream).2) := by
  rw [readLines, if_pos ⟨rfl, rfl⟩]

theorem readLines_symbol {b c : α} (h : ¬ (b = cr ∧ c = lf)) (stream : List α) :
    readLines cr lf (b :: c :: stream) = extend b (readLines cr lf (c :: stream)) := by
  rw [readLines, if_neg h]

theorem readLines_line (different : cr ≠ lf) {line : List α} (h : Unbroken cr lf line)
    (stream : List α) :
    readLines cr lf (line ++ cr :: lf :: stream) =
      (line :: (readLines cr lf stream).1, (readLines cr lf stream).2) := by
  induction line with
  | nil => exact readLines_break cr lf stream
  | cons b line ih =>
    have later := ih h.tail
    cases line with
    | nil =>
      have other : ¬ (b = cr ∧ cr = lf) := fun both => different both.2
      rw [List.singleton_append, readLines_symbol other]
      rw [List.nil_append] at later
      rw [later]
      rfl
    | cons c line =>
      have other : ¬ (b = cr ∧ c = lf) := by
        rintro ⟨rfl, rfl⟩
        exact h ⟨[], line, rfl⟩
      rw [List.cons_append, List.cons_append, readLines_symbol other]
      rw [List.cons_append] at later
      rw [later]
      rfl

theorem readLines_framed (different : cr ≠ lf) (lines : List (List α))
    (h : ∀ line ∈ lines, Unbroken cr lf line) (stream : List α) :
    readLines cr lf (framed cr lf lines ++ stream) =
      (lines ++ (readLines cr lf stream).1, (readLines cr lf stream).2) := by
  induction lines with
  | nil => rfl
  | cons line lines ih =>
    have split : framed cr lf (line :: lines) ++ stream =
        line ++ cr :: lf :: (framed cr lf lines ++ stream) := by
      simp [framed]
    rw [split, readLines_line different (h line List.mem_cons_self),
      ih fun l hl => h l (List.mem_cons_of_mem line hl)]
    rfl

theorem first_symbol {c : α} {stream line : List α} {lines : List (List α)}
    (h : (readLines cr lf (c :: stream)).1 = line :: lines) : line = [] ∨ ∃ l, line = c :: l := by
  cases stream with
  | nil => cases h
  | cons d stream =>
    by_cases both : c = cr ∧ d = lf
    · rw [readLines, if_pos both] at h
      exact .inl (List.cons.inj h).1.symm
    · rw [readLines, if_neg both] at h
      generalize readLines cr lf (d :: stream) = read at h
      obtain ⟨later, rest⟩ := read
      cases later with
      | nil => cases h
      | cons l later => exact .inr ⟨l, (List.cons.inj h).1.symm⟩

theorem readLines_unbroken (stream : List α) :
    ∀ line ∈ (readLines cr lf stream).1, Unbroken cr lf line := by
  fun_induction readLines cr lf stream with
  | case1 | case2 => simp
  | case3 b c stream both ih =>
    intro line hline
    rcases List.mem_cons.mp hline with rfl | hline
    · simp [Unbroken]
    · exact ih line hline
  | case4 b c stream other ih =>
    have first := @first_symbol α _ cr lf c stream
    generalize readLines cr lf (c :: stream) = read at ih first ⊢
    obtain ⟨lines, rest⟩ := read
    cases lines with
    | nil => simp [extend]
    | cons l lines =>
      intro line hline
      rcases List.mem_cons.mp hline with rfl | hline
      · intro inside
        rcases List.infix_cons_iff.mp inside with starts | inside
        · obtain ⟨hb, starts⟩ := List.cons_prefix_cons.mp starts
          rcases first rfl with rfl | ⟨l, rfl⟩
          · simp at starts
          · exact other ⟨hb.symm, (List.cons_prefix_cons.mp starts).1.symm⟩
        · exact ih l List.mem_cons_self inside
      · exact ih line (List.mem_cons_of_mem _ hline)

/-- Lines survive the framing if, and only if, none of them has a terminator inside. -/
theorem readLines_framed_iff (different : cr ≠ lf) (lines : List (List α)) :
    readLines cr lf (framed cr lf lines) = (lines, []) ↔ ∀ line ∈ lines, Unbroken cr lf line := by
  constructor
  · intro same line hline
    have read := @readLines_unbroken α _ cr lf (framed cr lf lines)
    rw [same] at read
    exact read line hline
  · intro h
    have read := readLines_framed different lines h []
    rw [List.append_nil] at read
    rw [read]
    exact congrArg (·, []) (List.append_nil lines)

theorem readLines_prefix (cr lf : α) {early late : List α} (h : early <+: late) :
    (readLines cr lf early).1 <+: (readLines cr lf late).1 := by
  obtain ⟨more, rfl⟩ := h
  fun_induction readLines cr lf early with
  | case1 | case2 => exact List.nil_prefix
  | case3 b c stream both ih =>
    obtain ⟨rfl, rfl⟩ := both
    rw [List.cons_append, List.cons_append, readLines_break]
    exact List.prefix_cons_inj _ |>.mpr ih
  | case4 b c stream other ih =>
    rw [List.cons_append, List.cons_append, readLines_symbol other]
    exact extend_prefix b ih

/-- Of a stream that ends within a line, the reader sees the lines before it, and at most that
line as well. -/
theorem readLines_between (different : cr ≠ lf) {lines : List (List α)}
    (h : ∀ line ∈ lines, Unbroken cr lf line) {n : ℕ} (hn : n ≤ lines.length) {stream : List α}
    (least : framed cr lf (lines.take n) <+: stream)
    (most : stream <+: framed cr lf (lines.take (n + 1))) :
    (readLines cr lf stream).1 <+: lines ∧ n ≤ (readLines cr lf stream).1.length ∧
      (readLines cr lf stream).1.length ≤ n + 1 := by
  have whole : ∀ m, (readLines cr lf (framed cr lf (lines.take m))).1 = lines.take m := by
    intro m
    have read := readLines_framed different (lines.take m)
      (fun l hl => h l (List.mem_of_mem_take hl)) []
    rw [List.append_nil] at read
    rw [read]
    exact List.append_nil _
  have low := readLines_prefix cr lf least
  have high := readLines_prefix cr lf most
  rw [whole] at low high
  have low_le := low.length_le
  have le_high := high.length_le
  simp only [List.length_take] at low_le le_high
  exact ⟨high.trans (List.take_prefix _ _), by omega, by omega⟩

end

end ESPressioSystem.LineFraming
