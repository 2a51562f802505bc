import Mathlib.Data.List.TakeWhile
import Backchain.Source.Program

/-!
The grammar of programs.

Each relation holds between something, source whose front is read as that, and the rest of the
source. The grammar does not say how far a name or a number goes: any part of the characters that
may belong to it will do, as long as the rest of the source fits. Only a comment must go up to the
end of its line or of the source.
-/
set_option autoImplicit false

namespace Backchain.Source

/-- Blanks and comments in any order. -/
inductive Skips : List Char → List Char → Prop where
  | nothing {source} : Skips source source
  | blank {c source rest} (blank : isBlank c = true) (later : Skips source rest) :
      Skips (c :: source) rest
  | comment {body source rest} (inLine : ∀ c ∈ body, c ≠ '\n')
      (ends : ∀ c ∈ source.head?, c = '\n') (later : Skips source rest) :
      Skips ('%' :: (body ++ source)) rest

/-- A name whose first character passes a test. -/
inductive NameAt (first : Char → Bool) : String → List Char → List Char → Prop where
  | name {c body source rest} (skips : Skips source (c :: (body ++ rest)))
      (starts : first c = true) (parts : ∀ d ∈ body, isNamePart d = true) :
      NameAt first (String.ofList (c :: body)) source rest

/-- Digits that denote a number of at most `2 ^ 63 - 1`. -/
inductive NumberAt : Int64 → List Char → List Char → Prop where
  | number {digits source rest} (skips : Skips source (digits ++ rest)) (some : digits ≠ [])
      (all : ∀ d ∈ digits, d.isDigit = true) (small : Decimal.value digits ≤ 9223372036854775807) :
      NumberAt (Int64.ofNat (Decimal.value digits)) source rest

/-- Anything without double quotes, between double quotes. -/
inductive QuotedAt : String → List Char → List Char → Prop where
  | quoted {text source rest} (skips : Skips source ('"' :: (text ++ '"' :: rest)))
      (inside : ∀ c ∈ text, c ≠ '"') : QuotedAt (String.ofList text) source rest

section

variable {α : Type}

/-- One item or more, with commas between them. -/
inductive ListedAt (item : α → List Char → List Char → Prop) :
    List α → List Char → List Char → Prop where
  | last {x source rest} (first : item x source rest) : ListedAt item [x] source rest
  | more {x items source middle after rest} (first : item x source middle)
      (comma : Skips middle (',' :: after)) (later : ListedAt item items after rest) :
      ListedAt item (x :: items) source rest

/-- Arguments in parentheses, possibly none. -/
inductive ArgumentsAt (item : α → List Char → List Char → Prop) :
    List α → List Char → List Char → Prop where
  | empty {source inside rest} (opens : Skips source ('(' :: inside))
      (closes : Skips inside (')' :: rest)) : ArgumentsAt item [] source rest
  | listed {args source inside last rest} (opens : Skips source ('(' :: inside))
      (items : ListedAt item args inside last) (closes : Skips last (')' :: rest)) :
      ArgumentsAt item args source rest

end

/-- A term in argument position. A name with parentheses, even if nothing is in them, is a compound,
and a name without is an atom. -/
inductive TermAt : Term → List Char → List Char → Prop where
  | atom {name source rest} (named : NameAt Char.isLower name source rest) :
      TermAt (.atom name) source rest
  | compound {name args source middle rest} (named : NameAt Char.isLower name source middle)
      (applied : ArgumentsAt TermAt args middle rest) : TermAt (.compound name args) source rest
  | var {name source rest} (named : NameAt Char.isUpper name source rest) :
      TermAt (.var name) source rest
  | number {value source rest} (written : NumberAt value source rest) :
      TermAt (.number value) source rest
  | string {text source rest} (written : QuotedAt text source rest) :
      TermAt (.string text) source rest

/-- A predicate as a goal or a head, where a name without parentheses has no arguments. -/
inductive PredicateAt : Predicate → List Char → List Char → Prop where
  | alone {name source rest} (named : NameAt Char.isLower name source rest) :
      PredicateAt ⟨name, []⟩ source rest
  | applied {name args source middle rest} (named : NameAt Char.isLower name source middle)
      (applied : ArgumentsAt TermAt args middle rest) : PredicateAt ⟨name, args⟩ source rest

/-- Predicates with commas between them, as a conjunction that is nested to the right. -/
inductive ConjunctionAt : Term → List Char → List Char → Prop where
  | last {goal source rest} (first : PredicateAt goal source rest) :
      ConjunctionAt goal.toTerm source rest
  | more {goal goals source middle after rest} (first : PredicateAt goal source middle)
      (comma : Skips middle (',' :: after)) (later : ConjunctionAt goals after rest) :
      ConjunctionAt (.conj goal.toTerm goals) source rest

inductive ClauseAt : Clause → List Char → List Char → Prop where
  | query {goal source start last rest} (asks : Skips source ('?' :: '-' :: start))
      (goals : ConjunctionAt goal start last) (dot : Skips last ('.' :: rest)) :
      ClauseAt (.query goal) source rest
  | fact {head source last rest} (states : PredicateAt head source last)
      (dot : Skips last ('.' :: rest)) : ClauseAt (.fact head) source rest
  | rule {head body source middle start last rest} (states : PredicateAt head source middle)
      (neck : Skips middle (':' :: '-' :: start)) (goals : ConjunctionAt body start last)
      (dot : Skips last ('.' :: rest)) : ClauseAt (.rule head body) source rest

/-- Clauses up to the end of the source. -/
inductive ProgramAt : Program → List Char → Prop where
  | done {source} (skips : Skips source []) : ProgramAt [] source
  | more {first program source rest} (clause : ClauseAt first source rest)
      (later : ProgramAt program rest) : ProgramAt (first :: program) source

variable {source rest : List Char}

/-! ## Skipping -/

theorem Skips.length_le (skips : Skips source rest) : rest.length ≤ source.length := by
  induction skips with
  | nothing => exact Nat.le_refl _
  | blank _ _ ih => exact Nat.le_succ_of_le ih
  | comment _ _ _ ih =>
    rw [List.length_cons, List.length_append]
    omega

theorem Skips.trans {middle : List Char} (before : Skips source middle)
    (after : Skips middle rest) : Skips source rest := by
  induction before with
  | nothing => exact after
  | blank blank _ ih => exact .blank blank (ih after)
  | comment inLine ends _ ih => exact .comment inLine ends (ih after)

/-- A comment is dropped up to the end of its line. -/
theorem skipComment_append {body : List Char} (inLine : ∀ c ∈ body, c ≠ '\n')
    (ends : ∀ c ∈ source.head?, c = '\n') : skipComment (body ++ source) = skip source := by
  induction body with
  | nil =>
    cases source with
    | nil => rw [List.nil_append, skipComment, skip]
    | cons c source =>
      obtain rfl : c = '\n' := ends c rfl
      have blank : isBlank '\n' = true := by decide
      rw [List.nil_append, skipComment, if_pos rfl, skip, if_pos blank]
  | cons c body ih =>
    obtain ⟨first, others⟩ := List.forall_mem_cons.mp inLine
    rw [List.cons_append, skipComment, if_neg first, ih others]

/-- However a derivation skips, the reader comes to the same place if it skips on from there. -/
theorem Skips.skip_eq (skips : Skips source rest) : skip source = skip rest := by
  induction skips with
  | nothing => rfl
  | blank blank _ ih => rw [skip, if_pos blank, ih]
  | comment inLine ends _ ih =>
    have word : ¬ isBlank '%' = true := by decide
    rw [skip, if_neg word, if_pos rfl, skipComment_append inLine ends, ih]

theorem ends_dropWhile (source : List Char) :
    ∀ c ∈ (source.dropWhile (· != '\n')).head?, c = '\n' := by
  intro c first
  have kept := List.head?_dropWhile_not (· != '\n') source
  rw [Option.mem_def.mp first] at kept
  simpa using kept

/-- A comment goes up to the end of its line. -/
theorem skips_comment (source : List Char) :
    Skips ('%' :: source) (source.dropWhile (· != '\n')) := by
  have inLine : ∀ c ∈ source.takeWhile (· != '\n'), c ≠ '\n' := by
    intro c member
    simpa using List.mem_takeWhile_imp member
  have comment := Skips.comment inLine (ends_dropWhile source) .nothing
  rwa [List.takeWhile_append_dropWhile] at comment

theorem skips_skip (source : List Char) : Skips source (skip source) := by
  induction size : source.length using Nat.strongRecOn generalizing source with
  | ind size ih =>
    cases source with
    | nil =>
      rw [skip]
      exact .nothing
    | cons c source =>
      rw [skip]
      split
      next blank => exact .blank blank (ih _ (by simp [← size]) source rfl)
      next =>
        split
        next percent =>
          subst percent
          have comment := skips_comment source
          have word : ¬ isBlank '%' = true := by decide
          have dropped := comment.skip_eq
          rw [skip, if_neg word, if_pos rfl] at dropped
          have shorter := List.length_dropWhile_le (· != '\n') source
          rw [dropped]
          exact comment.trans (ih _ (by rw [← size, List.length_cons]; omega) _ rfl)
        next => exact .nothing

theorem skip_skip (source : List Char) : skip (skip source) = skip source :=
  (skips_skip source).skip_eq.symm

theorem length_skip_le (source : List Char) : (skip source).length ≤ source.length :=
  (skips_skip source).length_le

theorem Skips.length_skip_lt {c : Char} (skips : Skips source (c :: rest)) :
    (skip rest).length < source.length :=
  Nat.lt_of_le_of_lt (length_skip_le rest) skips.length_le

/-- A character at which skipping stops. -/
def IsKept (c : Char) : Prop :=
  isBlank c = false ∧ c ≠ '%'

instance (c : Char) : Decidable (IsKept c) :=
  inferInstanceAs (Decidable (_ ∧ _))

theorem skips_cons_iff {c : Char} (kept : IsKept c) :
    Skips source (c :: rest) ↔ skip source = c :: rest := by
  constructor
  · intro skips
    rw [skips.skip_eq, skip, if_neg (by simp [kept.1]), if_neg kept.2]
  · intro same
    rw [← same]
    exact skips_skip source

theorem isKept_of_isNamePart {c : Char} (part : isNamePart c = true) : IsKept c := by
  constructor
  · rw [isBlank]
    by_contra blank
    simp only [Bool.not_eq_false, Bool.or_eq_true, beq_iff_eq] at blank
    rcases blank with ((rfl | rfl) | rfl) | rfl <;> revert part <;> decide
  · rintro rfl
    revert part
    decide

/-! ## Nothing is read without a character -/

theorem isNamePart_eq (c : Char) :
    isNamePart c = (c.isUpper || c.isLower || c.isDigit || c == '_') :=
  rfl

theorem isNamePart_of_isLower (c : Char) (lower : c.isLower = true) : isNamePart c = true := by
  simp [isNamePart_eq, lower]

theorem isNamePart_of_isUpper (c : Char) (upper : c.isUpper = true) : isNamePart c = true := by
  simp [isNamePart_eq, upper]

theorem isNamePart_of_isDigit (c : Char) (digit : c.isDigit = true) : isNamePart c = true := by
  simp [isNamePart_eq, digit]

section

variable {α : Type} {item : α → List Char → List Char → Prop}

/-- What is read leaves less than there is after skipping. -/
def TakesSome (item : α → List Char → List Char → Prop) (x : α) : Prop :=
  ∀ source rest, item x source rest → rest.length < (skip source).length

theorem NameAt.exists_skip_eq {first : Char → Bool} {name : String}
    (narrow : ∀ c, first c = true → isNamePart c = true) (named : NameAt first name source rest) :
    ∃ c body, skip source = c :: (body ++ rest) ∧ first c = true ∧
      (∀ d ∈ body, isNamePart d = true) ∧ name = String.ofList (c :: body) := by
  obtain ⟨skips, starts, parts⟩ := named
  have kept := isKept_of_isNamePart (narrow _ starts)
  exact ⟨_, _, (skips_cons_iff kept).mp skips, starts, parts, rfl⟩

theorem NameAt.length_lt {first : Char → Bool} {name : String}
    (narrow : ∀ c, first c = true → isNamePart c = true) (named : NameAt first name source rest) :
    rest.length < (skip source).length := by
  obtain ⟨c, body, same, -⟩ := named.exists_skip_eq narrow
  rw [same, List.length_cons, List.length_append]
  omega

theorem NameAt.length_skip_lt {first : Char → Bool} {name : String}
    (narrow : ∀ c, first c = true → isNamePart c = true) (named : NameAt first name source rest) :
    (skip rest).length < (skip source).length :=
  Nat.lt_of_le_of_lt (length_skip_le rest) (named.length_lt narrow)

theorem NumberAt.exists_skip_eq {value : Int64} (written : NumberAt value source rest) :
    ∃ digits, skip source = digits ++ rest ∧ digits ≠ [] ∧
      (∀ d ∈ digits, d.isDigit = true) ∧ Decimal.value digits ≤ 9223372036854775807 ∧
      value = Int64.ofNat (Decimal.value digits) := by
  obtain @⟨digits, _, _, skips, some, all, small⟩ := written
  cases digits with
  | nil => exact absurd rfl some
  | cons d digits =>
    have kept := isKept_of_isNamePart (isNamePart_of_isDigit d (all d List.mem_cons_self))
    exact ⟨d :: digits, (skips_cons_iff kept).mp skips, some, all, small, rfl⟩

theorem NumberAt.length_lt {value : Int64} (written : NumberAt value source rest) :
    rest.length < (skip source).length := by
  obtain ⟨digits, same, some, -⟩ := written.exists_skip_eq
  rw [same, List.length_append]
  have := List.length_pos_iff.mpr some
  omega

theorem QuotedAt.exists_skip_eq {text : String} (written : QuotedAt text source rest) :
    ∃ body, skip source = '"' :: (body ++ '"' :: rest) ∧ (∀ c ∈ body, c ≠ '"') ∧
      text = String.ofList body := by
  obtain ⟨skips, inside⟩ := written
  exact ⟨_, (skips_cons_iff (by decide)).mp skips, inside, rfl⟩

theorem QuotedAt.length_lt {text : String} (written : QuotedAt text source rest) :
    rest.length < (skip source).length := by
  obtain ⟨body, same, -⟩ := written.exists_skip_eq
  rw [same, List.length_cons, List.length_append, List.length_cons]
  omega

theorem ListedAt.length_lt {items : List α} (listed : ListedAt item items source rest)
    (takes : ∀ x ∈ items, TakesSome item x) : rest.length < (skip source).length := by
  induction listed with
  | last first => exact takes _ List.mem_cons_self _ _ first
  | more first comma later ih =>
    have here := takes _ List.mem_cons_self _ _ first
    have there := ih fun x member => takes x (List.mem_cons_of_mem _ member)
    have between := comma.length_skip_lt
    omega

theorem ArgumentsAt.length_lt {args : List α} (applied : ArgumentsAt item args source rest)
    (takes : ∀ x ∈ args, TakesSome item x) : rest.length < (skip source).length := by
  cases applied with
  | empty opens closes =>
    have inside := closes.length_le
    rw [(skips_cons_iff (by decide)).mp opens]
    exact Nat.le_succ_of_le inside
  | @listed _ _ inside last _ opens items closes =>
    have items_lt := items.length_lt takes
    have inside_le := length_skip_le inside
    have closes_le := closes.length_le
    rw [(skips_cons_iff (by decide)).mp opens, List.length_cons]
    rw [List.length_cons] at closes_le
    omega

end

theorem takesSome_termAt (term : Term) : TakesSome TermAt term := by
  induction term with
  | atom name =>
    rintro source rest (named | _)
    exact named.length_lt isNamePart_of_isLower
  | number value =>
    rintro source rest (_ | _ | _ | written | _)
    exact written.length_lt
  | string text =>
    rintro source rest (_ | _ | _ | _ | written)
    exact written.length_lt
  | var name =>
    rintro source rest (_ | _ | named | _)
    exact named.length_lt isNamePart_of_isUpper
  | compound name args ih =>
    rintro source rest at_
    cases at_ with
    | compound named applied =>
      exact Nat.lt_trans (applied.length_lt ih) (named.length_skip_lt isNamePart_of_isLower)
  | conj left right =>
    intro source rest at_
    cases at_

theorem takesSome_predicateAt (goal : Predicate) : TakesSome PredicateAt goal := by
  intro source rest derived
  cases derived with
  | alone named => exact named.length_lt isNamePart_of_isLower
  | applied named applied =>
    have inside := applied.length_lt fun arg _ => takesSome_termAt arg
    exact Nat.lt_trans inside (named.length_skip_lt isNamePart_of_isLower)

theorem takesSome_conjunctionAt (goal : Term) : TakesSome ConjunctionAt goal := by
  intro source rest derived
  induction derived with
  | last first => exact takesSome_predicateAt _ _ _ first
  | more first comma _ ih =>
    have here := takesSome_predicateAt _ _ _ first
    have between := comma.length_skip_lt
    omega

theorem takesSome_clauseAt (c : Clause) : TakesSome ClauseAt c := by
  intro source rest derived
  cases derived with
  | @query _ _ start last _ asks goals dot =>
    have inside := takesSome_conjunctionAt _ _ _ goals
    have start_le := length_skip_le start
    have dot_le := dot.length_le
    rw [(skips_cons_iff (by decide)).mp asks, List.length_cons, List.length_cons]
    rw [List.length_cons] at dot_le
    omega
  | fact states dot =>
    have head := takesSome_predicateAt _ _ _ states
    have dot_le := dot.length_le
    rw [List.length_cons] at dot_le
    omega
  | @rule _ _ _ middle start last _ states neck goals dot =>
    have head := takesSome_predicateAt _ _ _ states
    have neck_le := neck.length_le
    have body := takesSome_conjunctionAt _ _ _ goals
    have start_le := length_skip_le start
    have dot_le := dot.length_le
    rw [List.length_cons, List.length_cons] at neck_le
    rw [List.length_cons] at dot_le
    omega

end Backchain.Source
