import Mathlib.Data.List.Perm.Basic
import PickleTrial.Proofs.Text.LineEscaped
import PickleTrial.Proofs.Text.Lines
import PickleTrial.Trial.HandOff

/-! Verdicts by reports. The verdict on a case follows from what stands in the report file: whether
there is a file, whether it holds text, whether the text has two lines, and what they say. -/

namespace PickleTrial

/-! ## Texts that are reports -/

/-- A text is a report if it has two lines. The second line may end or not, but is not empty where
it does not. -/
inductive Report.IsWritten (report : Report) : (text : List Char) → Prop
  | ended {first second : List Char} (firstLine : '\n' ∉ first) (secondLine : '\n' ∉ second)
      (type : Lines.Ended first report.typeLine.toList)
      (shown : Lines.Ended second report.textLine.toList) :
      IsWritten report (first ++ '\n' :: (second ++ ['\n']))
  | unended {first : List Char} (firstLine : '\n' ∉ first)
      (secondLine : '\n' ∉ report.textLine.toList) (nonempty : report.textLine.toList ≠ [])
      (type : Lines.Ended first report.typeLine.toList) :
      IsWritten report (first ++ '\n' :: report.textLine.toList)

private theorem Report.isWritten_iff {report : Report} {text : List Char} :
    report.IsWritten text ↔
      Lines.split text = [report.typeLine.toList, report.textLine.toList] := by
  constructor
  · intro written
    cases written with
    | ended firstLine secondLine type shown =>
        rw [Lines.split_append firstLine, Lines.split_append secondLine,
          Lines.ended_iff.1 type, Lines.ended_iff.1 shown]
        rfl
    | unended firstLine secondLine nonempty type =>
        rw [Lines.split_append firstLine, Lines.split_of_notMem secondLine, if_neg nonempty,
          Lines.ended_iff.1 type]
  · intro lines
    rcases Lines.exists_first text with unended | ⟨first, rest, firstLine, rfl⟩
    · rw [Lines.split_of_notMem unended] at lines
      split at lines <;> cases lines
    rw [Lines.split_append firstLine, List.cons.injEq] at lines
    rcases lines with ⟨type, lines⟩
    rcases Lines.exists_first rest with secondLine | ⟨second, rest, secondLine, rfl⟩
    · rw [Lines.split_of_notMem secondLine] at lines
      split at lines
      · cases lines
      · rename_i nonempty
        cases lines
        exact .unended firstLine secondLine nonempty (Lines.ended_iff.2 type)
    · rw [Lines.split_append secondLine, List.cons.injEq, Lines.split_eq_nil_iff] at lines
      rcases lines with ⟨shown, rfl⟩
      exact .ended firstLine secondLine (Lines.ended_iff.2 type) (Lines.ended_iff.2 shown)

private theorem Report.ofText_eq_ok_iff {text : String} {report : Report} :
    Report.ofText text = .ok report ↔ report.IsWritten text.toList := by
  rw [isWritten_iff, ofText]
  split
  · rename_i typeLine textLine lines
    rw [lines, Except.ok.injEq]
    constructor
    · rintro rfl
      simp
    · intro same
      cases report
      simp_all
  · rename_i other
    refine iff_of_false (fun impossible => nomatch impossible) fun lines => ?_
    exact other _ _ lines

/-- A text that is no report is told by how many lines it has. -/
private theorem Report.ofText_eq_error_iff {text : String} {lines : Nat} :
    Report.ofText text = .error lines ↔
      (∀ report : Report, ¬report.IsWritten text.toList) ∧ lines = Lines.count text.toList := by
  have written (report : Report) : Report.ofText text = .ok report ↔
      report.IsWritten text.toList := ofText_eq_ok_iff
  simp only [← written, ← Lines.length_split]
  rw [ofText]
  split <;> simp [eq_comm]

/-! ## Answers in a file -/

/-- What the bytes in a file, if there is one, tell. -/
inductive Answer.IsTold : (contents : Option Bytes) → Answer → Prop
  | nothing : IsTold none (.failed .noReport)
  | noText {bytes : Bytes} (other : ∀ text, Utf8.encode text ≠ bytes) :
      IsTold (some bytes) (.failed .notUtf8)
  | malformed {text : String} (other : ∀ report : Report, ¬report.IsWritten text.toList) :
      IsTold (some (Utf8.encode text)) (.failed (.malformed (Lines.count text.toList)))
  | report {text : String} {report : Report} (written : report.IsWritten text.toList) :
      IsTold (some (Utf8.encode text)) (.report report)

theorem Answer.ofBytes_eq_iff {bytes : Bytes} {answer : Answer} :
    Answer.ofBytes bytes = answer ↔ answer.IsTold (some bytes) := by
  rw [ofBytes]
  cases decoded : Utf8.decode? bytes with
  | none =>
      have other (text : String) : Utf8.encode text ≠ bytes := fun same => by
        rw [Utf8.decode?_eq_some_iff.2 same] at decoded
        cases decoded
      constructor
      · rintro rfl
        exact .noText other
      · intro told
        cases told with
        | noText => rfl
        | malformed => exact absurd rfl (other _)
        | report => exact absurd rfl (other _)
  | some text =>
      cases Utf8.decode?_eq_some_iff.1 decoded
      constructor
      · intro same
        cases parsed : Report.ofText text with
        | ok report =>
            simp only [parsed] at same
            exact same ▸ .report (Report.ofText_eq_ok_iff.1 parsed)
        | error lines =>
            simp only [parsed] at same
            rcases Report.ofText_eq_error_iff.1 parsed with ⟨other, rfl⟩
            exact same ▸ .malformed other
      · intro told
        generalize same : some (Utf8.encode text) = contents at told
        cases told with
        | nothing => cases same
        | noText other => exact absurd (Option.some.inj same) (other text)
        | malformed other =>
            cases Utf8.encode_injective (Option.some.inj same)
            simp only [Report.ofText_eq_error_iff.2 ⟨other, rfl⟩]
        | report written =>
            cases Utf8.encode_injective (Option.some.inj same)
            simp only [Report.ofText_eq_ok_iff.2 written]

/-! ## Verdicts on answers -/

/-- The label that a type line names, behind the word that may introduce it. -/
def Names (typeLine label : String) : Prop :=
  typeLine = "class " ++ label ∨ typeLine = label ∧ ¬"class ".toList <+: label.toList

private theorem normalizeLabel_eq_iff {typeLine label : String} :
    normalizeLabel typeLine = label ↔ Names typeLine label := by
  have introduced (rest : List Char) (given : typeLine.toList = "class ".toList ++ rest) :
      typeLine = "class " ++ String.ofList rest := by
    rw [← String.toList_inj, given]
    simp
  rw [normalizeLabel, Names]
  split
  · rename_i rest given
    have whole := introduced rest given
    constructor
    · rintro rfl
      exact Or.inl whole
    · rintro (same | ⟨rfl, plain⟩)
      · rw [whole, String.append_right_inj] at same
        exact same
      · rw [given] at plain
        exact absurd (List.prefix_append _ _) plain
  · rename_i plain
    constructor
    · rintro rfl
      refine Or.inr ⟨rfl, fun ⟨rest, given⟩ => ?_⟩
      exact plain rest given.symm
    · rintro (same | ⟨same, -⟩)
      · refine absurd ?_ (plain label.toList)
        rw [same, String.toList_append]
        rfl
      · exact same

namespace TrialCase

/-- The verdict that is due on an answer. -/
inductive Due (case : TrialCase) : Answer → Verdict → Prop
  | failed (failure : Failure) : Due case (.failed failure) (.failed failure)
  | pass {report : Report} (type : Names report.typeLine case.label)
      (shown : report.textLine = case.text) : Due case (.report report) .pass
  /-- The differences are in the type or in the text or in both, and in this order. -/
  | differs {report : Report} {label : String} {differences : List Difference}
      (named : Names report.typeLine label)
      (order : differences.Sublist
        [.type label case.label, .text report.textLine case.text])
      (type : .type label case.label ∈ differences ↔ label ≠ case.label)
      (shown : .text report.textLine case.text ∈ differences ↔ report.textLine ≠ case.text)
      (nonempty : differences ≠ []) : Due case (.report report) (.differs differences)

variable {case : TrialCase} {report : Report}

private theorem mem_differences (case : TrialCase) (report : Report) :
    (case.differences report).Sublist [.type (normalizeLabel report.typeLine) case.label,
        .text report.textLine case.text] ∧
      (.type (normalizeLabel report.typeLine) case.label ∈ case.differences report ↔
        normalizeLabel report.typeLine ≠ case.label) ∧
      (.text report.textLine case.text ∈ case.differences report ↔
        report.textLine ≠ case.text) := by
  rw [differences]
  by_cases label : normalizeLabel report.typeLine = case.label <;>
    by_cases text : report.textLine = case.text <;> simp [label, text]

/-- Parts of a list in its order are told by what is in them, if nothing in it is repeated. -/
private theorem eq_of_sublist {α : Type} {whole left right : List α} (nodup : whole.Nodup)
    (leftOrder : left.Sublist whole) (rightOrder : right.Sublist whole)
    (members : ∀ item ∈ whole, item ∈ left ↔ item ∈ right) : left = right := by
  apply (nodup.perm_iff_eq_of_sublist leftOrder rightOrder).1
  apply (List.perm_ext_iff_of_nodup (nodup.sublist leftOrder) (nodup.sublist rightOrder)).2
  intro item
  constructor
  · intro member
    exact (members item (leftOrder.subset member)).1 member
  · intro member
    exact (members item (rightOrder.subset member)).2 member

private theorem due_judge (case : TrialCase) (answer : Answer) :
    case.Due answer (case.judge answer) := by
  cases answer with
  | failed failure => exact .failed failure
  | report report =>
      have named := normalizeLabel_eq_iff.1 (rfl : normalizeLabel report.typeLine = _)
      rcases mem_differences case report with ⟨order, type, shown⟩
      rw [judge, compare]
      split
      · rename_i none
        rw [none] at type shown
        have label := not_not.1 fun different => List.not_mem_nil (type.2 different)
        have text := not_not.1 fun different => List.not_mem_nil (shown.2 different)
        exact .pass (normalizeLabel_eq_iff.1 label) text
      · rename_i nonempty
        exact .differs named order type shown nonempty

/-- No other verdict is due. -/
private theorem judge_eq_of_due {answer : Answer} {verdict : Verdict}
    (due : case.Due answer verdict) : case.judge answer = verdict := by
  cases due with
  | failed => rfl
  | @pass report type shown =>
      have none : case.differences report = [] := by
        rw [differences, if_pos (normalizeLabel_eq_iff.2 type), if_pos shown, List.append_nil]
      rw [judge, compare, if_pos none]
  | @differs report label found named order type shown nonempty =>
      have normal := normalizeLabel_eq_iff.2 named
      subst normal
      rcases mem_differences case report with ⟨sameOrder, sameType, sameShown⟩
      have same : case.differences report = found := by
        apply eq_of_sublist _ sameOrder order
        · intro difference listed
          rcases List.mem_pair.1 listed with rfl | rfl
          · exact sameType.trans type.symm
          · exact sameShown.trans shown.symm
        · simp
      rw [judge, compare, same, if_neg nonempty]

end TrialCase

/-- Whatever stands in a report file, there is one answer in it, and one verdict on a case. -/
theorem Files.exists_answer_and_verdict (files : Files) (path : String) (case : TrialCase)
    (contents : Option Bytes) (stands : files.read path = contents.elim (.error .missing) .ok) :
    ∃ answer, files.readReport path = .ok answer ∧
      (∀ other : Answer, answer = other ↔ other.IsTold contents) ∧
      ∀ verdict, case.judge answer = verdict ↔ case.Due answer verdict := by
  have due (answer : Answer) (verdict : Verdict) :
      case.judge answer = verdict ↔ case.Due answer verdict :=
    ⟨fun same => same ▸ case.due_judge answer, TrialCase.judge_eq_of_due⟩
  cases contents with
  | none =>
      refine ⟨.failed .noReport, ?_, fun other => ?_, due _⟩
      · rw [readReport, stands]
        rfl
      · constructor
        · rintro rfl
          exact .nothing
        · intro told
          cases told
          rfl
  | some bytes =>
      refine ⟨.ofBytes bytes, ?_, fun other => Answer.ofBytes_eq_iff, due _⟩
      rw [readReport, stands]
      rfl

/-- A report with a carriage return in front of each line end, where the type is introduced and the
last line does not end. -/
theorem Files.exists_answer_and_verdict_returns :
    let files : Files := { entries := [(["report"], .file (Utf8.encode "class a\r\nb\r"))] }
    let case : TrialCase := ⟨{}, 0, "a", "b\r"⟩
    files.read "report" = .ok (Utf8.encode "class a\r\nb\r") ∧
      ∃ answer, files.readReport "report" = .ok answer ∧
        answer.IsTold (some (Utf8.encode "class a\r\nb\r")) ∧ case.judge answer = .pass := by
  intro files case
  have stands : files.read "report" = .ok (Utf8.encode "class a\r\nb\r") := by decide +kernel
  rcases files.exists_answer_and_verdict "report" case (some (Utf8.encode "class a\r\nb\r"))
    stands with ⟨answer, read, told, verdict⟩
  refine ⟨stands, answer, read, (told answer).1 rfl, ?_⟩
  cases (read.symm.trans (by decide +kernel : files.readReport "report" =
    .ok (.report ⟨"class a", "b\r"⟩)) : Except.ok answer = _)
  exact (verdict .pass).2 (.pass (Or.inl rfl) rfl)

end PickleTrial
