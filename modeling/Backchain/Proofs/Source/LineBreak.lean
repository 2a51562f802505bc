import Backchain.Proofs.Source.ErrorPlace

/-!
Programs on top of each other.

A line end after a program closes its last comment and touches nothing else of it, so what comes after
is read as it would be alone, or is stuck at the same place. Main statement: with a program and a line
end before it, source is read as the program and its own, and its error moves down by their lines.
-/
set_option autoImplicit false

namespace Backchain.Source

variable {first second unread : List Char} {program more : Program}

theorem ProgramAt.append_line (derived : ProgramAt program first) (later : ProgramAt more second) :
    ProgramAt (program ++ more) (first ++ '\n' :: second) := by
  induction derived with
  | done skips => exact (skips.append_lineEnd second).programAt later
  | more clause _ ih => exact .more (clause.append _) ih

theorem StuckAt.after_line (derived : ProgramAt program first) (stuck : StuckAt more second unread) :
    StuckAt (program ++ more) (first ++ '\n' :: second) unread := by
  induction derived with
  | done skips => exact (skips.append_lineEnd second).stuckAt stuck
  | more clause _ ih => exact .more (clause.append _) ih

/-- Whole lines before the place change the line only. -/
theorem unreadable_after_line (before consumed unread : List Char) :
    ∃ line column found, unreadable consumed unread = .unreadable line column found ∧
      unreadable (before ++ '\n' :: consumed) unread =
        .unreadable (line + before.count '\n' + 1) column found := by
  refine ⟨_, _, _, rfl, ?_⟩
  have lines : (before ++ '\n' :: consumed).count '\n' + 1 =
      consumed.count '\n' + 1 + before.count '\n' + 1 := by
    rw [List.count_append, List.count_cons_self]
    omega
  have column : (before ++ '\n' :: consumed).reverse.takeWhile (· != '\n') =
      consumed.reverse.takeWhile (· != '\n') := by
    rw [List.reverse_append, List.reverse_cons, List.append_assoc, List.takeWhile_append]
    split
    next whole =>
      rw [List.singleton_append, List.takeWhile_cons_of_neg (by simp), List.append_nil]
      exact ((List.takeWhile_prefix _).eq_of_length whole).symm
    next => rfl
  rw [unreadable, lines, column]

/-- After a program and a line end, source is read as the program and its own clauses, and an error in
it keeps its column and what it found and moves down by the lines before it. -/
theorem program_append_line (first second : String) (program : Program)
    (read : Source.program first = .ok program) :
    (∀ more, Source.program second = .ok more →
      Source.program (first ++ "\n" ++ second) = .ok (program ++ more)) ∧
    ∀ cause, Source.program second = .error cause → ∃ line column found,
      cause = .unreadable line column found ∧
      Source.program (first ++ "\n" ++ second) =
        .error (.unreadable (line + first.toList.count '\n' + 1) column found) := by
  have derived := program_eq_ok.mp read
  have whole : (first ++ "\n" ++ second).toList = first.toList ++ '\n' :: second.toList := by
    simp
  constructor
  · intro more readMore
    rw [program_eq_ok, whole]
    exact derived.append_line (program_eq_ok.mp readMore)
  · intro cause failed
    obtain ⟨more, unread, stuck, rfl⟩ := program_eq_error.mp failed
    obtain ⟨consumed, same, -⟩ := stuck.exists_consumed
    have place : (first ++ "\n" ++ second).toList = first.toList ++ '\n' :: consumed ++ unread := by
      rw [whole, same, List.append_assoc, List.cons_append]
    obtain ⟨line, column, found, alone, moved⟩ := unreadable_after_line first.toList consumed unread
    refine ⟨line, column, found, (errorAt_eq same).trans alone, program_eq_error.mpr ?_⟩
    exact ⟨program ++ more, unread, whole ▸ stuck.after_line derived,
      ((errorAt_eq place).trans moved).symm⟩

/-- A comment, and a rule with an open comment after it. -/
def commented : String :=
  "% a\nd :- a(X). % e"

theorem program_append_line_commented :
    let above := [Clause.rule ⟨"d", []⟩ (.compound "a" [.var "X"])]
    Source.program commented = .ok above ∧
      Source.program (commented ++ "\n" ++ "a(\"é\").\n") =
        .ok (above ++ [.fact ⟨"a", [.string "é"]⟩]) ∧
      Source.program (commented ++ "\n" ++ unclosed) =
        .error (.unreadable 5 3 "b(X) :- c(X, \"ö is n") := by
  intro above
  have read : Source.program commented = .ok above := by rfl
  have readMore : Source.program "a(\"é\").\n" = .ok [.fact ⟨"a", [.string "é"]⟩] := by rfl
  have failed : Source.program unclosed = .error (.unreadable 3 3 "b(X) :- c(X, \"ö is n") := by rfl
  have lines : commented.toList.count '\n' = 1 := by rfl
  obtain ⟨line, column, found, same, moved⟩ :=
    (program_append_line commented unclosed above read).2 _ failed
  cases same
  rw [lines] at moved
  exact ⟨read, (program_append_line commented _ above read).1 _ readMore, moved⟩

end Backchain.Source
