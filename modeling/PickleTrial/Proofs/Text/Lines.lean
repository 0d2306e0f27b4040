import PickleTrial.Text.Lines

/-! The lines of a text, one after the other: the first one ends at the first line feed, and the
others are the lines of what follows. -/

namespace PickleTrial.Lines

/-- A line as it is written in front of a line feed, which a carriage return belongs to. -/
inductive Ended : (written line : List Char) → Prop
  | plain {line : List Char} (other : line.getLast? ≠ some '\r') : Ended line line
  | afterReturn {line : List Char} : Ended (line ++ ['\r']) line

theorem ended_iff {written line : List Char} :
    Ended written line ↔ withoutReturn written = line := by
  rw [withoutReturn]
  constructor
  · intro ended
    cases ended with
    | plain other => exact if_neg other
    | afterReturn => rw [if_pos List.getLast?_concat, List.dropLast_concat]
  · intro equal
    subst equal
    by_cases ends : written.getLast? = some '\r'
    · rcases List.getLast?_eq_some_iff.1 ends with ⟨line, rfl⟩
      rw [if_pos ends, List.dropLast_concat]
      exact .afterReturn
    · rw [if_neg ends]
      exact .plain ends

/-- A text is one line that does not end, or the first line that ends and what follows. -/
theorem exists_first (text : List Char) :
    '\n' ∉ text ∨ ∃ line rest, '\n' ∉ line ∧ text = line ++ '\n' :: rest := by
  by_cases member : '\n' ∈ text
  · rcases List.eq_append_cons_of_mem member with ⟨line, rest, split, first⟩
    exact Or.inr ⟨line, rest, first, split⟩
  · exact Or.inl member

variable {line : List Char}

private theorem pieces_of_notMem (unended : '\n' ∉ line) : pieces line = ([], line) := by
  induction line with
  | nil => rfl
  | cons head tail induction =>
      rw [List.mem_cons, not_or] at unended
      simp only [pieces, induction unended.2, if_neg (Ne.symm unended.1)]

private theorem pieces_append (unended : '\n' ∉ line) (rest : List Char) :
    pieces (line ++ '\n' :: rest) = (line :: (pieces rest).1, (pieces rest).2) := by
  induction line with
  | nil => simp only [List.nil_append, pieces, if_pos]
  | cons head tail induction =>
      rw [List.mem_cons, not_or] at unended
      simp only [List.cons_append, pieces, induction unended.2, if_neg (Ne.symm unended.1)]

theorem split_of_notMem (unended : '\n' ∉ line) :
    split line = if line = [] then [] else [line] := by
  simp only [split, pieces_of_notMem unended, List.map_nil, List.nil_append]

theorem split_append (unended : '\n' ∉ line) (rest : List Char) :
    split (line ++ '\n' :: rest) = withoutReturn line :: split rest := by
  simp only [split, pieces_append unended, List.map_cons, List.cons_append]

theorem split_eq_nil_iff {text : List Char} : split text = [] ↔ text = [] := by
  rcases exists_first text with unended | ⟨line, rest, unended, rfl⟩
  · rw [split_of_notMem unended]
    split <;> simp [*]
  · simp [split_append unended]

/-- How many lines a text has: as many as line feeds, and one more if something follows the last. -/
def count (text : List Char) : Nat :=
  text.count '\n' + if text.getLast?.all (· = '\n') then 0 else 1

theorem length_split (text : List Char) : (split text).length = count text := by
  rcases exists_first text with unended | ⟨line, rest, unended, split⟩
  · rw [split_of_notMem unended, count, List.count_eq_zero_of_not_mem unended, Nat.zero_add]
    rcases List.eq_nil_or_concat text with rfl | ⟨start, last, rfl⟩
    · rfl
    · have different : last ≠ '\n' := by
        rintro rfl
        simp at unended
      simp [different]
  · have shorter : rest.length < text.length := by
      rw [split]
      simp
      omega
    have induction := length_split rest
    rw [split, split_append unended, List.length_cons, induction, count, count,
      List.count_append, List.count_eq_zero_of_not_mem unended, List.count_cons_self,
      List.getLast?_append, List.getLast?_cons]
    cases rest.getLast? with
    | none => simp
    | some last => simp; omega
termination_by text.length

end PickleTrial.Lines
