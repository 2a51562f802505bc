import Mathlib.Data.String.Basic
import Backchain.Proofs.Source.Locality

/-!
Where reading stops.

Source that is no program is stuck at a place: clauses are read up to there, and no clause is there. No
front of the source that goes further is a program, since its clauses would be read from the whole
source just so. Main statement: the error names this place, by line and column, and shows what is there.
-/
set_option autoImplicit false

namespace Backchain.Source

/-- These clauses are read from the source, and where they end and blanks and comments are skipped there
is something that no clause can be read from. -/
inductive StuckAt : Program → List Char → List Char → Prop where
  | here {c source unread} (kept : IsKept c) (skips : Skips source (c :: unread))
      (none : ∀ other rest, ¬ ClauseAt other (c :: unread) rest) : StuckAt [] source (c :: unread)
  | more {first program source rest unread} (clause : ClauseAt first source rest)
      (later : StuckAt program rest unread) : StuckAt (first :: program) source unread

variable {source unread : List Char} {program : Program}

theorem Skips.stuckAt {start : List Char} (skips : Skips start source)
    (stuck : StuckAt program source unread) : StuckAt program start unread := by
  cases stuck with
  | here kept later none => exact .here kept (skips.trans later) none
  | more first later => exact .more (skips.clauseAt_iff.mpr first) later

theorem StuckAt.exists_cons (stuck : StuckAt program source unread) :
    ∃ c tail, unread = c :: tail ∧ IsKept c ∧ ∀ other rest, ¬ ClauseAt other unread rest := by
  induction stuck with
  | here kept _ none => exact ⟨_, _, rfl, kept, none⟩
  | more _ _ ih => exact ih

/-! ## The reader stops where the source is stuck -/

/-- Source is a program or is stuck somewhere. -/
theorem programAt_or_stuckAt (source : List Char) : (∃ program, ProgramAt program source) ∨
    ∃ program unread, StuckAt program source unread := by
  induction size : source.length using Nat.strongRecOn generalizing source with
  | ind size ih =>
    have skips := skips_skip source
    cases start : skip source with
    | nil => exact .inl ⟨[], .done (start ▸ skips)⟩
    | cons c tail =>
      by_cases read : ∃ first rest, ClauseAt first source rest
      · obtain ⟨first, rest, clause⟩ := read
        rcases ih rest.length (size ▸ clause.length_lt) rest rfl with
          ⟨program, later⟩ | ⟨program, unread, later⟩
        · exact .inl ⟨first :: program, .more clause later⟩
        · exact .inr ⟨first :: program, unread, .more clause later⟩
      · rw [start] at skips
        refine .inr ⟨[], c :: tail, .here (isKept_of_skip_eq start) skips ?_⟩
        exact fun other rest derived => read ⟨other, rest, skips.clauseAt_iff.mpr derived⟩

theorem StuckAt.clauses_eq {fuel : Nat} (stuck : StuckAt program source unread)
    (enough : source.length < fuel) : clauses fuel source = .error unread := by
  induction stuck generalizing fuel with
  | @here c source unread kept skips none =>
    cases fuel with
    | zero => omega
    | succ fuel =>
      have start := (skips_cons_iff kept).mp skips
      cases read : clause (c :: unread).length (c :: unread) with
      | none => simp only [clauses, start, read]
      | some outcome => exact absurd (clauseAt_of_clause read) (none outcome.1 outcome.2)
  | more first later ih =>
    have shorter := first.length_lt
    cases fuel with
    | zero => omega
    | succ fuel =>
      rw [first.clauses_eq, ih (by omega)]
      rfl

theorem program_eq_error {source : String} {cause : Error} :
    Source.program source = .error cause ↔
      ∃ program unread, StuckAt program source.toList unread ∧
        cause = errorAt source (String.ofList unread) := by
  have stuck_eq {program : Program} {unread : List Char}
      (stuck : StuckAt program source.toList unread) :
      Source.program source = .error (errorAt source (String.ofList unread)) := by
    simp only [Source.program]
    rw [stuck.clauses_eq (Nat.lt_succ_self _)]
  constructor
  · intro failed
    rcases programAt_or_stuckAt source.toList with ⟨program, derived⟩ | ⟨program, unread, stuck⟩
    · rw [program_eq_ok.mpr derived] at failed
      cases failed
    · rw [stuck_eq stuck, Except.error.injEq] at failed
      exact ⟨program, unread, stuck, failed.symm⟩
  · rintro ⟨program, unread, stuck, rfl⟩
    exact stuck_eq stuck

/-! ## The longest front that is a program -/

theorem StuckAt.exists_consumed (stuck : StuckAt program source unread) :
    ∃ consumed, source = consumed ++ unread ∧ ProgramAt program consumed := by
  induction stuck with
  | here _ skips _ =>
    obtain ⟨taken, same, all, -⟩ := skips.exists_taken
    exact ⟨taken, same, .done all⟩
  | more derived _ ih =>
    obtain ⟨consumed, rfl, read⟩ := ih
    obtain ⟨taken, rfl, moves⟩ := local_clauseAt _ _ _ derived
    exact ⟨taken ++ consumed, (List.append_assoc ..).symm, .more (moves consumed) read⟩

/-- No front that is a program leaves less than what is not read. -/
theorem StuckAt.length_le {front after : List Char} {read : Program}
    (stuck : StuckAt program source unread) (whole : source = front ++ after)
    (derived : ProgramAt read front) : unread.length ≤ after.length := by
  induction stuck generalizing front read with
  | here kept skips none =>
    cases derived with
    | done skipped =>
      have within := skipped.length_skip_append_le after
      rwa [← whole, (skips_cons_iff kept).mp skips] at within
    | more first =>
      have read := first.append after
      rw [← whole, skips.clauseAt_iff] at read
      exact absurd read (none _ _)
  | @more c program source rest unread clause later ih =>
    cases derived with
    | done skipped =>
      have within := skipped.length_skip_append_le after
      have shorter := takesSome_clauseAt c _ _ clause
      obtain ⟨consumed, rfl, -⟩ := later.exists_consumed
      rw [← whole] at within
      rw [List.length_append] at shorter
      omega
    | more first others =>
      have read := first.append after
      rw [← whole] at read
      exact ih (clause.unique read).2 others

/-! ## Lines and columns -/

/-- The difference of the octets ends where the characters that are not read begin. -/
theorem errorAt_eq {source : String} {consumed : List Char}
    (whole : source.toList = consumed ++ unread) :
    errorAt source (String.ofList unread) = unreadable consumed unread := by
  obtain rfl : source = String.ofList consumed ++ String.ofList unread := by
    rw [← String.ofList_append, ← whole, String.ofList_toList]
  have offset : (String.ofList consumed ++ String.ofList unread).utf8ByteSize -
      (String.ofList unread).utf8ByteSize = String.utf8Len consumed := by
    rw [String.utf8ByteSize_append, Nat.add_sub_cancel, String.utf8ByteSize_ofList]
  have front := String.extract_of_valid [] consumed unread
  simp only [List.nil_append, String.utf8Len, Nat.zero_add, String.ofList_append] at front
  rw [errorAt, offset]
  refine Eq.trans (congrArg (fun before => unreadable before.toList _) front) ?_
  rw [String.toList_ofList, String.toList_ofList]

/-- What comes after the last line end of some text, and what comes before. -/
theorem exists_last_line (text : List Char) :
    ∃ before line, text = before ++ line ∧ '\n' ∉ line ∧
      (before = [] ∨ before.getLast? = some '\n') ∧
      (text.reverse.takeWhile (· != '\n')).length = line.length := by
  refine ⟨(text.reverse.dropWhile (· != '\n')).reverse,
    (text.reverse.takeWhile (· != '\n')).reverse, ?_, ?_, ?_, List.length_reverse.symm⟩
  · rw [← List.reverse_append, List.takeWhile_append_dropWhile, List.reverse_reverse]
  · intro member
    simpa using List.mem_takeWhile_imp (List.mem_reverse.mp member)
  · rw [List.reverse_eq_nil_iff, List.getLast?_reverse]
    cases first : (text.reverse.dropWhile (· != '\n')).head? with
    | none => exact .inl (List.head?_eq_none_iff.mp first)
    | some c => exact .inr (congrArg some (ends_dropWhile text.reverse c first))

/-! ## The place of an error -/

/-- The source is one text and then the other, and the first is the longest front that is a program. -/
structure IsLongestFront (source consumed unread : String) : Prop where
  whole : source = consumed ++ unread
  reads : ∃ program, Source.program consumed = .ok program
  longest : ∀ front after : String, source = front ++ after →
    (∃ program, Source.program front = .ok program) → front.length ≤ consumed.length

theorem StuckAt.isLongestFront {source : String} (stuck : StuckAt program source.toList unread) :
    ∃ consumed, IsLongestFront source consumed (String.ofList unread) := by
  obtain ⟨consumed, same, read⟩ := stuck.exists_consumed
  have whole : source = String.ofList consumed ++ String.ofList unread := by
    rw [← String.ofList_append, ← same, String.ofList_toList]
  refine ⟨String.ofList consumed, whole, ⟨program, ?_⟩, ?_⟩
  · rwa [program_eq_ok, String.toList_ofList]
  · rintro front after split ⟨other, derived⟩
    have within := stuck.length_le (split ▸ String.toList_append) (program_eq_ok.mp derived)
    have sizes := congrArg String.length (split.symm.trans whole)
    simp only [String.length_append, String.length_ofList] at sizes
    rw [String.length_toList] at within
    rw [String.length_ofList]
    omega

/-- Source that is no program is a longest front that is one and something more, which starts with
neither a blank nor a comment and of which no clause can be read. The error counts the lines before this
place and the characters before it in its line, and shows at most twenty characters from there on. The
octets that come before it are as many as the difference says, and end where a character ends. -/
theorem error_after_longest_front (source : String) (cause : Error)
    (failed : Source.program source = .error cause) :
    ∃ consumed unread : String, IsLongestFront source consumed unread ∧
      (∃ c tail, unread.toList = c :: tail ∧ c ∉ [' ', '\t', '\r', '\n', '%']) ∧
      (∀ fuel, clause fuel unread.toList = none) ∧
      (∃ before line, consumed.toList = before ++ line ∧ '\n' ∉ line ∧
        (before = [] ∨ before.getLast? = some '\n') ∧
        cause = .unreadable (1 + consumed.toList.count '\n') (1 + line.length)
          (String.ofList (unread.toList.take 20))) ∧
      unread.utf8ByteSize ≤ source.utf8ByteSize ∧
      source.utf8ByteSize - unread.utf8ByteSize = consumed.utf8ByteSize ∧
      String.Pos.Raw.IsValid source ⟨source.utf8ByteSize - unread.utf8ByteSize⟩ := by
  obtain ⟨program, rest, stuck, rfl⟩ := program_eq_error.mp failed
  obtain ⟨c, tail, start, ⟨notBlank, notPercent⟩, none⟩ := stuck.exists_cons
  obtain ⟨consumed, front⟩ := stuck.isLongestFront
  obtain ⟨before, line, whole, inLine, ends, column⟩ := exists_last_line consumed.toList
  have sizes : source.utf8ByteSize = consumed.utf8ByteSize + (String.ofList rest).utf8ByteSize := by
    rw [front.whole, String.utf8ByteSize_append]
  refine ⟨consumed, String.ofList rest, front, ⟨c, tail, ?_, ?_⟩, ?_,
    ⟨before, line, whole, inLine, ends, ?_⟩, ?_, ?_, ?_⟩
  · rw [String.toList_ofList, start]
  · simpa [isBlank, notPercent, and_assoc] using notBlank
  · intro fuel
    rw [String.toList_ofList]
    cases read : clause fuel rest with
    | none => rfl
    | some outcome => exact absurd (clauseAt_of_clause read) (none outcome.1 outcome.2)
  · have some : rest ≠ [] := start ▸ List.cons_ne_nil c tail
    have place : source.toList = consumed.toList ++ rest := by
      rw [front.whole, String.toList_append, String.toList_ofList]
    rw [errorAt_eq place, unreadable, String.toList_ofList, if_neg some, column, Nat.add_comm 1,
      Nat.add_comm 1]
  · omega
  · omega
  · rw [sizes, Nat.add_sub_cancel]
    exact String.Pos.Raw.isValid_iff_exists_append.mpr ⟨consumed, _, front.whole, rfl⟩

/-- A rule whose string is not closed, after a comment and a fact with a wide character. -/
def unclosed : String :=
  "a(\"é\").\n% ü: b.\n  b(X) :- c(X, \"ö is not closed)."

theorem error_after_longest_front_unclosed :
    let cause := Error.unreadable 3 3 "b(X) :- c(X, \"ö is n"
    Source.program unclosed = .error cause ∧
      ∃ consumed unread : String, IsLongestFront unclosed consumed unread ∧
        (∀ fuel, clause fuel unread.toList = none) ∧ consumed.toList.count '\n' = 2 ∧
        unclosed.utf8ByteSize - unread.utf8ByteSize = consumed.utf8ByteSize := by
  intro cause
  have failed : Source.program unclosed = .error cause := by rfl
  obtain ⟨consumed, unread, front, -, none, ⟨_, _, -, -, -, same⟩, -, offset, -⟩ :=
    error_after_longest_front unclosed cause failed
  injection same with lines
  exact ⟨failed, consumed, unread, front, none, by omega, offset⟩

end Backchain.Source
