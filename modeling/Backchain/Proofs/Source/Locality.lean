import Mathlib.Logic.Relation
import Backchain.Proofs.Source.Reading

/-!
Reading does not depend on what comes later.

Whatever the grammar derives from the front of some source takes that front and nothing else: with any
other source after the front, it is derived again. Together with the reader, which comes to one result
only, this fixes where every clause of a source ends. A comment is the one thing that what follows can
make longer, and a line end after it stops it.
-/
set_option autoImplicit false

namespace Backchain.Source

open Relation

variable {source middle rest : List Char}

/-! ## Skipping -/

/-- What is skipped is a front of the source that could be all of it. It is skipped wherever the same
character comes next: only a line end may come after a comment. -/
theorem Skips.exists_taken (skips : Skips source rest) :
    ∃ taken, source = taken ++ rest ∧ Skips taken [] ∧
      ∀ tail : List Char, tail.head? = rest.head? → Skips (taken ++ tail) tail := by
  induction skips with
  | nothing => exact ⟨[], rfl, .nothing, fun _ _ => .nothing⟩
  | @blank c source rest blank _ ih =>
    obtain ⟨taken, rfl, all, moves⟩ := ih
    exact ⟨c :: taken, rfl, .blank blank all, fun tail same => .blank blank (moves tail same)⟩
  | @comment body source rest inLine ends _ ih =>
    obtain ⟨taken, rfl, all, moves⟩ := ih
    refine ⟨'%' :: (body ++ taken), by simp, .comment inLine ?_ all, ?_⟩
    · intro c first
      exact ends c (by rw [List.head?_append, first, Option.some_or, Option.mem_some_iff])
    · intro tail same
      rw [List.cons_append, List.append_assoc]
      refine .comment inLine ?_ (moves tail same)
      rw [List.head?_append, same, ← List.head?_append]
      exact ends

/-- Skipping stops at a character that is kept. -/
theorem isKept_of_skip_eq {c : Char} (start : skip source = c :: rest) : IsKept c := by
  have again : skip (c :: rest) = c :: rest := by rw [← start, skip_skip]
  have within := length_skip_le rest
  constructor
  · by_contra blank
    rw [Bool.not_eq_false] at blank
    rw [skip, if_pos blank] at again
    rw [again, List.length_cons] at within
    omega
  · rintro rfl
    rw [(skips_comment rest).skip_eq] at again
    have shorter := (length_skip_le _).trans (List.length_dropWhile_le (· != '\n') rest)
    rw [again, List.length_cons] at shorter
    omega

/-- A line end closes an open comment. -/
theorem Skips.append_lineEnd (skips : Skips source []) (after : List Char) :
    Skips (source ++ '\n' :: after) after := by
  generalize nothing : ([] : List Char) = rest at skips
  induction skips with
  | nothing =>
    subst nothing
    exact .blank (by decide) .nothing
  | blank blank _ ih => exact .blank blank (ih nothing)
  | @comment body source _ inLine ends _ ih =>
    rw [List.cons_append, List.append_assoc]
    refine .comment inLine ?_ (ih nothing)
    cases source with
    | nil => exact fun c first => (Option.mem_some_iff.mp first).symm
    | cons => exact ends

/-- All that could be skipped is skipped, whatever follows it, and perhaps more. -/
theorem Skips.length_skip_append_le (skips : Skips source []) (after : List Char) :
    (skip (source ++ after)).length ≤ after.length := by
  generalize nothing : ([] : List Char) = rest at skips
  induction skips with
  | nothing =>
    subst nothing
    exact length_skip_le after
  | blank blank _ ih =>
    rw [List.cons_append, skip, if_pos blank]
    exact ih nothing
  | @comment body source _ inLine ends _ ih =>
    cases source with
    | nil =>
      have line : ∀ c ∈ body, (c != '\n') = true := by simpa using inLine
      rw [List.append_nil, List.cons_append, (skips_comment _).skip_eq,
        List.dropWhile_append_of_pos line]
      exact (length_skip_le _).trans (List.length_dropWhile_le _ after)
    | cons c source =>
      have comment : Skips ('%' :: (body ++ (c :: source ++ after))) (c :: source ++ after) :=
        .comment inLine ends .nothing
      rw [List.cons_append, List.append_assoc, comment.skip_eq]
      exact ih nothing

/-! ## What is taken -/

/-- Reading takes a front of the source, whatever follows it. -/
def Local (reads : List Char → List Char → Prop) : Prop :=
  ∀ source rest, reads source rest →
    ∃ taken, source = taken ++ rest ∧ ∀ tail, reads (taken ++ tail) tail

section

variable {reads later whole : List Char → List Char → Prop}

theorem Local.comp (first : Local reads) (second : Local later) : Local (Comp reads later) := by
  rintro source rest ⟨middle, read, readLater⟩
  obtain ⟨taken, rfl, moves⟩ := first source middle read
  obtain ⟨others, rfl, movesLater⟩ := second middle rest readLater
  refine ⟨taken ++ others, (List.append_assoc ..).symm, fun tail => ?_⟩
  rw [List.append_assoc]
  exact ⟨others ++ tail, moves _, movesLater tail⟩

/-- What is derived from local reading is derived wherever the same is taken. -/
theorem Local.map (local_ : Local reads)
    (derives : ∀ {source rest}, reads source rest → whole source rest) (read : reads source rest) :
    ∃ taken, source = taken ++ rest ∧ ∀ tail, whole (taken ++ tail) tail := by
  obtain ⟨taken, same, moves⟩ := local_ source rest read
  exact ⟨taken, same, fun tail => derives (moves tail)⟩

end

/-- Skipping up to some word and taking the word. -/
theorem local_word (c : Char) (word : List Char) :
    Local fun source rest => Skips source (c :: (word ++ rest)) := by
  intro source rest skips
  obtain ⟨taken, rfl, -, moves⟩ := skips.exists_taken
  refine ⟨taken ++ c :: word, by simp, fun tail => ?_⟩
  rw [List.append_assoc]
  exact moves _ rfl

theorem local_nameAt (first : Char → Bool) (name : String) : Local (NameAt first name) := by
  rintro source rest ⟨skips, starts, parts⟩
  exact (local_word _ _).map (fun skips => .name skips starts parts) skips

theorem local_numberAt (value : Int64) : Local (NumberAt value) := by
  rintro source rest ⟨skips, some, all, small⟩
  obtain ⟨d, digits, rfl⟩ := List.exists_cons_of_ne_nil some
  exact (local_word d digits).map (fun skips => .number skips some all small) skips

theorem local_quotedAt (text : String) : Local (QuotedAt text) := by
  rintro source rest ⟨skips, inside⟩
  rename_i text
  have closed : ∀ rest, text ++ '"' :: rest = text ++ ['"'] ++ rest := by simp
  rw [closed] at skips
  refine (local_word '"' (text ++ ['"'])).map (fun skips => ?_) skips
  rw [← closed] at skips
  exact .quoted skips inside

section

variable {α : Type} {item : α → List Char → List Char → Prop}

theorem local_listedAt {items : List α} (each : ∀ x ∈ items, Local (item x)) :
    Local (ListedAt item items) := by
  induction items with
  | nil => exact fun source rest listed => nomatch listed
  | cons x items ih =>
    obtain ⟨one, others⟩ := List.forall_mem_cons.mp each
    intro source rest listed
    cases listed with
    | last first => exact one.map .last first
    | more first comma later =>
      exact ((one.comp (local_word ',' [])).comp (ih others)).map
        (fun ⟨_, ⟨_, first, comma⟩, later⟩ => .more first comma later) ⟨_, ⟨_, first, comma⟩, later⟩

theorem local_argumentsAt {args : List α} (each : ∀ arg ∈ args, Local (item arg)) :
    Local (ArgumentsAt item args) := by
  intro source rest applied
  cases applied with
  | empty opens closes =>
    exact ((local_word '(' []).comp (local_word ')' [])).map
      (fun ⟨_, opens, closes⟩ => .empty opens closes) ⟨_, opens, closes⟩
  | listed opens items closes =>
    exact (((local_word '(' []).comp (local_listedAt each)).comp (local_word ')' [])).map
      (fun ⟨_, ⟨_, opens, items⟩, closes⟩ => .listed opens items closes)
      ⟨_, ⟨_, opens, items⟩, closes⟩

end

theorem local_termAt (t : Term) : Local (TermAt t) := by
  induction t with
  | compound name args ih =>
    rintro source rest (_ | ⟨named, applied⟩)
    exact ((local_nameAt _ name).comp (local_argumentsAt ih)).map
      (fun ⟨_, named, applied⟩ => .compound named applied) ⟨_, named, applied⟩
  | atom name =>
    rintro source rest (named | _)
    exact (local_nameAt _ name).map .atom named
  | var name =>
    rintro source rest (_ | _ | named | _)
    exact (local_nameAt _ name).map .var named
  | number value =>
    rintro source rest (_ | _ | _ | written | _)
    exact (local_numberAt value).map .number written
  | string text =>
    rintro source rest (_ | _ | _ | _ | written)
    exact (local_quotedAt text).map .string written
  | conj left right => exact fun source rest derived => nomatch derived

theorem local_predicateAt (goal : Predicate) : Local (PredicateAt goal) := by
  intro source rest derived
  cases derived with
  | alone named => exact (local_nameAt _ _).map .alone named
  | applied named applied =>
    exact ((local_nameAt _ _).comp (local_argumentsAt fun arg _ => local_termAt arg)).map
      (fun ⟨_, named, applied⟩ => .applied named applied) ⟨_, named, applied⟩

theorem local_conjunctionAt (goal : Term) : Local (ConjunctionAt goal) := by
  intro source rest derived
  obtain ⟨goals, listed, nested⟩ := conjunctionAt_iff.mp derived
  exact (local_listedAt fun goal _ => local_predicateAt goal).map
    (fun listed => conjunctionAt_iff.mpr ⟨goals, listed, nested⟩) listed

theorem local_clauseAt (c : Clause) : Local (ClauseAt c) := by
  intro source rest derived
  cases derived with
  | query asks goals dot =>
    exact (((local_word '?' ['-']).comp (local_conjunctionAt _)).comp (local_word '.' [])).map
      (fun ⟨_, ⟨_, asks, goals⟩, dot⟩ => .query asks goals dot) ⟨_, ⟨_, asks, goals⟩, dot⟩
  | fact states dot =>
    exact ((local_predicateAt _).comp (local_word '.' [])).map
      (fun ⟨_, states, dot⟩ => .fact states dot) ⟨_, states, dot⟩
  | rule states neck goals dot =>
    exact ((((local_predicateAt _).comp (local_word ':' ['-'])).comp (local_conjunctionAt _)).comp
      (local_word '.' [])).map
      (fun ⟨_, ⟨_, ⟨_, states, neck⟩, goals⟩, dot⟩ => .rule states neck goals dot)
      ⟨_, ⟨_, ⟨_, states, neck⟩, goals⟩, dot⟩

/-! ## Clauses and programs -/

variable {c : Clause}

theorem ClauseAt.append (derived : ClauseAt c source rest) (after : List Char) :
    ClauseAt c (source ++ after) (rest ++ after) := by
  obtain ⟨taken, rfl, moves⟩ := local_clauseAt c source rest derived
  rw [List.append_assoc]
  exact moves (rest ++ after)

/-- One clause at most can be read at a place, and it ends at one place. -/
theorem ClauseAt.unique {other : Clause} {last : List Char} (derived : ClauseAt c source rest)
    (derivedOther : ClauseAt other source last) : c = other ∧ rest = last := by
  have read := derived.clause_eq (Nat.le_refl _)
  rw [derivedOther.clause_eq (Nat.le_refl _), Option.some.injEq, Prod.mk.injEq] at read
  exact ⟨read.1.symm, read.2.symm⟩

/-- Where a clause is read does not depend on what is skipped before it. -/
theorem Skips.clauseAt_iff (skips : Skips source middle) :
    ClauseAt c source rest ↔ ClauseAt c middle rest := by
  have same (fuel : Nat) : clause fuel source = clause fuel middle := by
    rw [← clause_skip fuel source, skips.skip_eq, clause_skip]
  constructor
  · intro derived
    exact clauseAt_of_clause ((same _).symm.trans (derived.clause_eq (Nat.le_refl _)))
  · intro derived
    exact clauseAt_of_clause ((same _).trans (derived.clause_eq (Nat.le_refl _)))

theorem Skips.programAt {program : Program} (skips : Skips source middle)
    (derived : ProgramAt program middle) : ProgramAt program source := by
  cases derived with
  | done later => exact .done (skips.trans later)
  | more first later => exact .more (skips.clauseAt_iff.mpr first) later

end Backchain.Source
