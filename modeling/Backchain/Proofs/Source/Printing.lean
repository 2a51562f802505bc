import Backchain.Proofs.Source.Reading

/-!
Reading what was written.

The text of a printable program is read as that program: the grammar derives each part from its text,
wherever the source skips to that text, and so it does not matter which blanks stand between clauses.
Everything that can be read is printable but for one thing. A compound without arguments is written
without parentheses, and where an argument is read that is an atom. With such atoms in place of the
compounds, a program that was read is printable, and its text is the same.
-/
set_option autoImplicit false

namespace Backchain

/-! ## What can be printed -/

/-- A first character that passes a test, and then letters, digits and underscores. -/
def isName (first : Char → Bool) (name : String) : Bool :=
  match name.toList with
  | [] => false
  | c :: rest => first c && rest.all Source.isNamePart

namespace Term

mutual

/-- Terms whose text is read as the term where an argument is read. -/
def isPrintable : Term → Bool
  | .atom name => isName Char.isLower name
  | .number value => decide (0 ≤ value)
  | .string text => text.toList.all (· != '"')
  | .var name => isName Char.isUpper name
  | .compound name args => isName Char.isLower name && !args.isEmpty && arePrintable args
  | .conj _ _ => false

def arePrintable : List Term → Bool
  | [] => true
  | arg :: args => isPrintable arg && arePrintable args

end

theorem arePrintable_eq_all (args : List Term) : arePrintable args = args.all isPrintable := by
  induction args with
  | nil => rfl
  | cons arg args ih => simp [arePrintable, ih]

theorem isPrintable_compound {name : String} {args : List Term} :
    (Term.compound name args).isPrintable = true ↔
      isName Char.isLower name = true ∧ args ≠ [] ∧ ∀ arg ∈ args, arg.isPrintable = true := by
  simp [isPrintable, arePrintable_eq_all, and_assoc]

end Term

def Predicate.IsPrintable (p : Predicate) : Prop :=
  isName Char.isLower p.name = true ∧ ∀ arg ∈ p.args, arg.isPrintable = true

instance (p : Predicate) : Decidable p.IsPrintable :=
  inferInstanceAs (Decidable (_ ∧ _))

/-- Conjunctions of printable predicates that are nested to the right. -/
def Term.IsPrintableGoal (goal : Term) : Prop :=
  ∃ goals, Term.ofGoals? goals = some goal ∧ ∀ p ∈ goals, p.IsPrintable

def Clause.IsPrintable : Clause → Prop
  | .fact p => p.IsPrintable
  | .rule head body => head.IsPrintable ∧ body.IsPrintableGoal
  | .query goal => goal.IsPrintableGoal

namespace Source

/-- The texts of some clauses in order, with blanks before, between and after them as one likes. -/
inductive Spread : Program → List Char → Prop where
  | done {blanks} (blank : ∀ c ∈ blanks, isBlank c = true) : Spread [] blanks
  | more {blanks first program source} (blank : ∀ c ∈ blanks, isBlank c = true)
      (later : Spread program source) :
      Spread (first :: program) (blanks ++ (first.text.toList ++ source))

/-! ## What is printed is read -/

/-- Wherever the source skips to this text, the grammar derives this from it. -/
def Reads {α : Type} (item : α → List Char → List Char → Prop) (x : α) (text : String) : Prop :=
  ∀ source rest, Skips source (text.toList ++ rest) → item x source rest

theorem skips_blanks {blanks : List Char} (blank : ∀ c ∈ blanks, isBlank c = true)
    (source : List Char) : Skips (blanks ++ source) source := by
  induction blanks with
  | nil => exact .nothing
  | cons c blanks ih =>
    obtain ⟨first, others⟩ := List.forall_mem_cons.mp blank
    exact .blank first (ih others)

theorem skips_space (source : List Char) : Skips (' ' :: source) source :=
  .blank (by decide) .nothing

theorem isName_iff {first : Char → Bool} {name : String} : isName first name = true ↔
    ∃ c body, name = String.ofList (c :: body) ∧ first c = true ∧
      ∀ d ∈ body, isNamePart d = true := by
  constructor
  · intro named
    rw [isName] at named
    split at named
    next => cases named
    next c body chars =>
      rw [Bool.and_eq_true, List.all_eq_true] at named
      exact ⟨c, body, by rw [← chars, String.ofList_toList], named⟩
  · rintro ⟨c, body, rfl, starts, parts⟩
    rw [isName, String.toList_ofList]
    simp only [Bool.and_eq_true, List.all_eq_true]
    exact ⟨starts, parts⟩

theorem reads_name {first : Char → Bool} {name : String} (named : isName first name = true) :
    Reads (NameAt first) name name := by
  obtain ⟨c, body, rfl, starts, parts⟩ := isName_iff.mp named
  intro source rest skips
  rw [String.toList_ofList] at skips
  exact .name skips starts parts

theorem reads_number {value : Int64} (positive : 0 ≤ value) :
    Reads NumberAt value (toString value.toInt) := by
  obtain ⟨n, same⟩ := Int.eq_ofNat_of_zero_le (Int64.le_iff_toInt_le.mp positive)
  have small : n ≤ 9223372036854775807 := by
    have most := value.toInt_le
    rw [same] at most
    exact Int.ofNat_le.mp most
  have digits : Decimal.value (Nat.toDigits 10 n) = n :=
    Nat.ofDigitChars_toDigits (by decide) (by decide)
  have back : Int64.ofNat (Decimal.value (Nat.toDigits 10 n)) = value := by
    rw [digits, ← Int64.ofInt_eq_ofNat, ← same, Int64.ofInt_toInt]
  intro source rest skips
  have chars : (toString value.toInt).toList = Nat.toDigits 10 n := by
    rw [same]
    exact Nat.toList_repr
  rw [chars] at skips
  rw [← back]
  refine .number skips Nat.toDigits_ne_nil ?_ (by rwa [digits])
  exact fun d member => Nat.isDigit_of_mem_toDigits (by decide) (by decide) member

theorem reads_quoted {text : String} (inside : ∀ c ∈ text.toList, c ≠ '"') :
    Reads QuotedAt text ("\"" ++ text ++ "\"") := by
  intro source rest skips
  have quoted : QuotedAt (String.ofList text.toList) source rest := by
    refine .quoted ?_ inside
    simpa using skips
  rwa [String.ofList_toList] at quoted

section

variable {α : Type} {item : α → List Char → List Char → Prop} {text : α → String}

theorem reads_listed {items : List α} (some : items ≠ [])
    (each : ∀ x ∈ items, Reads item x (text x)) :
    Reads (ListedAt item) items (", ".intercalate (items.map text)) := by
  induction items with
  | nil => exact absurd rfl some
  | cons x items ih =>
    obtain ⟨first, others⟩ := List.forall_mem_cons.mp each
    intro source rest skips
    cases items with
    | nil =>
      rw [List.map_singleton, String.intercalate_singleton] at skips
      exact .last (first source rest skips)
    | cons y items =>
      -- The space after the comma is skipped before the next item.
      have later := ih (by simp) others
      rw [List.map_cons, List.map_cons, String.intercalate_cons_cons, String.toList_append,
        String.toList_append, List.append_assoc, List.append_assoc] at skips
      exact .more (first source _ skips) .nothing (later _ rest (skips_space _))

theorem reads_arguments {args : List α} (some : args ≠ [])
    (each : ∀ x ∈ args, Reads item x (text x)) :
    Reads (ArgumentsAt item) args ("(" ++ ", ".intercalate (args.map text) ++ ")") := by
  intro source rest skips
  rw [String.toList_append, String.toList_append, List.append_assoc, List.append_assoc] at skips
  exact .listed skips (reads_listed some each _ _ .nothing) .nothing

end

theorem applied_of_ne_nil {name : String} {texts : List String} (some : texts ≠ []) :
    applied name texts = name ++ ("(" ++ ", ".intercalate texts ++ ")") := by
  cases texts with
  | nil => exact absurd rfl some
  | cons first texts => simp [applied, String.append_assoc]

theorem reads_term {t : Term} (printable : t.isPrintable = true) : Reads TermAt t t.text := by
  induction t with
  | atom name => exact fun _ _ skips => .atom (reads_name printable _ _ skips)
  | number value =>
    rw [Term.isPrintable, decide_eq_true_eq] at printable
    exact fun _ _ skips => .number (reads_number printable _ _ skips)
  | string chars =>
    have inside : ∀ c ∈ chars.toList, c ≠ '"' := by simpa [Term.isPrintable] using printable
    exact fun _ _ skips => .string (reads_quoted inside _ _ skips)
  | var name => exact fun _ _ skips => .var (reads_name printable _ _ skips)
  | compound name args ih =>
    obtain ⟨named, some, each⟩ := Term.isPrintable_compound.mp printable
    intro source rest skips
    rw [Term.text, Term.texts_eq_map, applied_of_ne_nil (by simpa using some), String.toList_append,
      List.append_assoc] at skips
    have inParens := reads_arguments some fun arg member => ih arg member (each arg member)
    exact .compound (reads_name named _ _ skips) (inParens _ _ .nothing)
  | conj left right => cases printable

theorem reads_predicate {p : Predicate} (printable : p.IsPrintable) :
    Reads PredicateAt p p.text := by
  obtain ⟨name, args⟩ := p
  obtain ⟨named, each⟩ := printable
  intro source rest skips
  by_cases none : args = []
  · subst none
    exact .alone (reads_name named _ _ skips)
  · rw [Predicate.text, applied_of_ne_nil (by simpa using none), String.toList_append,
      List.append_assoc] at skips
    have inParens := reads_arguments none fun arg member => reads_term (each arg member)
    exact .applied (reads_name named _ _ skips) (inParens _ _ .nothing)

theorem text_ofGoals? {goals : List Predicate} {goal : Term}
    (nested : Term.ofGoals? goals = some goal) :
    goal.text = ", ".intercalate (goals.map Predicate.text) := by
  induction goals generalizing goal with
  | nil => cases nested
  | cons p goals ih =>
    cases goals with
    | nil =>
      cases nested
      rw [Predicate.text_toTerm, List.map_singleton, String.intercalate_singleton]
    | cons q goals =>
      obtain ⟨others, nestedOthers, rfl⟩ := Option.map_eq_some_iff.mp nested
      rw [Term.text, Predicate.text_toTerm, ih nestedOthers]
      simp only [List.map_cons, String.intercalate_cons_cons]

theorem reads_goal {goal : Term} (printable : goal.IsPrintableGoal) :
    Reads ConjunctionAt goal goal.text := by
  obtain ⟨goals, nested, each⟩ := printable
  have some : goals ≠ [] := by
    rintro rfl
    cases nested
  intro source rest skips
  rw [text_ofGoals? nested] at skips
  have listed := reads_listed some (fun p member => reads_predicate (each p member)) _ _ skips
  exact conjunctionAt_iff.mpr ⟨goals, listed, nested⟩

theorem reads_clause {c : Clause} (printable : c.IsPrintable) : Reads ClauseAt c c.text := by
  intro source rest skips
  cases c with
  | fact p =>
    rw [Clause.text, String.toList_append, List.append_assoc] at skips
    exact .fact (reads_predicate printable _ _ skips) .nothing
  | rule head body =>
    obtain ⟨onHead, onBody⟩ := printable
    simp only [Clause.text, String.toList_append, List.append_assoc] at skips
    exact .rule (reads_predicate onHead _ _ skips) (skips_space _)
      (reads_goal onBody _ _ (skips_space _)) .nothing
  | query goal =>
    simp only [Clause.text, String.toList_append, List.append_assoc] at skips
    exact .query skips (reads_goal printable _ _ (skips_space _)) .nothing

theorem Spread.programAt {program : Program} {source : List Char} (spread : Spread program source)
    (printable : ∀ c ∈ program, c.IsPrintable) : ProgramAt program source := by
  induction spread with
  | done blank =>
    have skips := skips_blanks blank []
    rw [List.append_nil] at skips
    exact .done skips
  | more blank _ ih =>
    obtain ⟨first, others⟩ := List.forall_mem_cons.mp printable
    exact .more (reads_clause first _ _ (skips_blanks blank _)) (ih others)

end Source

/-! ## What was read is printable, nearly -/

namespace Term

mutual

/-- The term with atoms in place of compounds without arguments. -/
def reread : Term → Term
  | .compound name [] => .atom name
  | .compound name (arg :: args) => .compound name (reread arg :: rereadAll args)
  | other => other

def rereadAll : List Term → List Term
  | [] => []
  | arg :: args => reread arg :: rereadAll args

end

theorem rereadAll_eq_map (args : List Term) : rereadAll args = args.map reread := by
  induction args with
  | nil => rfl
  | cons arg args ih => simp [rereadAll, ih]

theorem reread_compound {args : List Term} (some : args ≠ []) (name : String) :
    (Term.compound name args).reread = .compound name (args.map reread) := by
  cases args with
  | nil => exact absurd rfl some
  | cons arg args => rw [reread, rereadAll_eq_map, List.map_cons]

theorem text_reread (term : Term) : term.reread.text = term.text := by
  induction term with
  | compound name args ih =>
    by_cases none : args = []
    · subst none
      rfl
    · have same : (args.map reread).map text = args.map text := by
        rw [List.map_map]
        exact List.map_congr_left ih
      rw [reread_compound none, text, text, texts_eq_map, texts_eq_map, same]
  | _ => rfl

end Term

def Predicate.reread (p : Predicate) : Predicate :=
  ⟨p.name, p.args.map Term.reread⟩

/-- The goals of a conjunction have no atoms in place of predicates, but their arguments do. -/
def Term.rereadGoal : Term → Term
  | .compound name args => .compound name (args.map Term.reread)
  | .conj left right => .conj (rereadGoal left) (rereadGoal right)
  | other => other

/-- The clause with atoms in place of compounds without arguments, where these are arguments. -/
def Clause.reread : Clause → Clause
  | .fact p => .fact p.reread
  | .rule head body => .rule head.reread body.rereadGoal
  | .query goal => .query goal.rereadGoal

theorem Predicate.text_reread (p : Predicate) : p.reread.text = p.text := by
  have same : (p.args.map Term.reread).map Term.text = p.args.map Term.text := by
    rw [List.map_map]
    exact List.map_congr_left fun arg _ => arg.text_reread
  rw [text, reread, same, text]

theorem Term.text_rereadGoal (goal : Term) : goal.rereadGoal.text = goal.text := by
  induction goal with
  | compound name args =>
    have same := (Predicate.mk name args).text_reread
    rwa [← Predicate.text_toTerm, ← Predicate.text_toTerm] at same
  | conj left right ihLeft ihRight => rw [rereadGoal, text, text, ihLeft, ihRight]
  | _ => rfl

theorem Clause.text_reread (c : Clause) : c.reread.text = c.text := by
  cases c <;> simp only [reread, text, Predicate.text_reread, Term.text_rereadGoal]

theorem Term.ofGoals?_reread {goals : List Predicate} {goal : Term}
    (nested : Term.ofGoals? goals = some goal) :
    Term.ofGoals? (goals.map Predicate.reread) = some goal.rereadGoal := by
  induction goals generalizing goal with
  | nil => cases nested
  | cons p goals ih =>
    cases goals with
    | nil =>
      cases nested
      rfl
    | cons q goals =>
      obtain ⟨others, nestedOthers, rfl⟩ := Option.map_eq_some_iff.mp nested
      exact Option.map_eq_some_iff.mpr ⟨_, ih nestedOthers, rfl⟩

namespace Source

variable {source rest : List Char}

theorem NameAt.isName {first : Char → Bool} {name : String}
    (named : NameAt first name source rest) : isName first name = true := by
  obtain ⟨-, starts, parts⟩ := named
  exact isName_iff.mpr ⟨_, _, rfl, starts, parts⟩

theorem NumberAt.nonneg {value : Int64} (written : NumberAt value source rest) : 0 ≤ value := by
  obtain ⟨-, -, -, small⟩ := written
  rw [Int64.le_iff_toInt_le, Int64.toInt_ofNat_of_lt (by omega)]
  exact Int.natCast_nonneg _

theorem QuotedAt.inside {text : String} (written : QuotedAt text source rest) :
    ∀ c ∈ text.toList, c ≠ '"' := by
  obtain ⟨-, inside⟩ := written
  rwa [String.toList_ofList]

section

variable {α : Type} {item : α → List Char → List Char → Prop}

theorem ListedAt.exists_item {items : List α} (listed : ListedAt item items source rest) :
    ∀ x ∈ items, ∃ source rest, item x source rest := by
  induction listed with
  | last first => exact List.forall_mem_singleton.mpr ⟨_, _, first⟩
  | more first _ _ ih => exact List.forall_mem_cons.mpr ⟨⟨_, _, first⟩, ih⟩

theorem ArgumentsAt.exists_item {args : List α} (applied : ArgumentsAt item args source rest) :
    ∀ x ∈ args, ∃ source rest, item x source rest := by
  cases applied with
  | empty => exact fun _ absent => absurd absent List.not_mem_nil
  | listed _ items _ => exact items.exists_item

end

theorem TermAt.isPrintable_reread {t : Term} (derived : TermAt t source rest) :
    t.reread.isPrintable = true := by
  induction t generalizing source rest with
  | compound name args ih =>
    cases derived with
    | compound named applied =>
      by_cases none : args = []
      · subst none
        exact named.isName
      · rw [Term.reread_compound none, Term.isPrintable_compound, List.forall_mem_map]
        refine ⟨named.isName, by simpa using none, ?_⟩
        intro arg member
        obtain ⟨_, _, here⟩ := applied.exists_item arg member
        exact ih arg member here
  | atom name =>
    cases derived with
    | atom named => exact named.isName
  | var name =>
    cases derived with
    | var named => exact named.isName
  | number value =>
    cases derived with
    | number written => exact decide_eq_true written.nonneg
  | string text =>
    cases derived with
    | string written => simpa [Term.reread, Term.isPrintable] using written.inside
  | conj left right => cases derived

theorem PredicateAt.isPrintable_reread {p : Predicate} (derived : PredicateAt p source rest) :
    p.reread.IsPrintable := by
  cases derived with
  | alone named => exact ⟨named.isName, fun _ absent => absurd absent List.not_mem_nil⟩
  | applied named applied =>
    refine ⟨named.isName, List.forall_mem_map.mpr ?_⟩
    intro arg member
    obtain ⟨_, _, here⟩ := applied.exists_item arg member
    exact here.isPrintable_reread

theorem ConjunctionAt.isPrintable_reread {goal : Term}
    (derived : ConjunctionAt goal source rest) : goal.rereadGoal.IsPrintableGoal := by
  obtain ⟨goals, listed, nested⟩ := conjunctionAt_iff.mp derived
  refine ⟨goals.map Predicate.reread, Term.ofGoals?_reread nested, List.forall_mem_map.mpr ?_⟩
  intro p member
  obtain ⟨_, _, here⟩ := listed.exists_item p member
  exact here.isPrintable_reread

theorem ClauseAt.isPrintable_reread {c : Clause} (derived : ClauseAt c source rest) :
    c.reread.IsPrintable := by
  cases derived with
  | query _ goals _ => exact goals.isPrintable_reread
  | fact states _ => exact states.isPrintable_reread
  | rule states _ goals _ => exact ⟨states.isPrintable_reread, goals.isPrintable_reread⟩

theorem ProgramAt.isPrintable_reread {program : Program} (derived : ProgramAt program source) :
    ∀ c ∈ program.map Clause.reread, c.IsPrintable := by
  induction derived with
  | done => exact fun _ absent => absurd absent List.not_mem_nil
  | more first _ ih => exact List.forall_mem_cons.mpr ⟨first.isPrintable_reread, ih⟩

theorem Spread.reread {program : Program} (spread : Spread program source) :
    Spread (program.map Clause.reread) source := by
  induction spread with
  | done blank => exact .done blank
  | @more _ first _ _ blank _ ih =>
    rw [← first.text_reread]
    exact .more blank ih

/-- The texts of printable clauses, with blanks between them as one likes, are read as these clauses.
The texts of clauses that were read are read again, with atoms in place of the compounds without
arguments that stand as arguments, and the clauses with these atoms have the same texts. -/
theorem program_spread :
    (∀ (program : Program) (printed : String), (∀ c ∈ program, c.IsPrintable) →
      Spread program printed.toList → Source.program printed = .ok program) ∧
    ∀ (source : String) (program : Program), Source.program source = .ok program →
      (∀ printed : String, Spread program printed.toList →
        Source.program printed = .ok (program.map Clause.reread)) ∧
      (program.map Clause.reread).map Clause.text = program.map Clause.text := by
  refine ⟨?printable, ?read⟩
  case printable =>
    intro program printed printable spread
    exact program_eq_ok.mpr (spread.programAt printable)
  case read =>
    intro source program read
    constructor
    · intro printed spread
      have printable := (program_eq_ok.mp read).isPrintable_reread
      exact program_eq_ok.mpr (spread.reread.programAt printable)
    · rw [List.map_map]
      exact List.map_congr_left fun c _ => c.text_reread

/-- The texts of clauses with the same blanks before each. -/
theorem spread_join {blanks : List Char} (blank : ∀ c ∈ blanks, isBlank c = true)
    (program : Program) :
    Spread program (String.join (program.map fun c => String.ofList blanks ++ c.text)).toList := by
  induction program with
  | nil => exact .done (by simp [String.join])
  | cons c program ih =>
    rw [List.map_cons, String.toList_join, List.flatMap_cons, ← String.toList_join,
      String.toList_append, String.toList_ofList, List.append_assoc]
    exact .more blank ih

namespace Notes

/-- A string with a dot, a line end and a percent sign, and a compound without arguments as an
argument. -/
def clauses : Program :=
  let note : Predicate :=
    ⟨"note", [.string "1, 2.\n% 3", .compound "f" [.compound "g" []], .number 70]⟩
  let seen : Predicate := ⟨"seen", [.var "X"]⟩
  let done : Predicate := ⟨"done", []⟩
  [.fact note, .rule done (.conj seen.toTerm done.toTerm)]

/-- Source that is read as the clauses. -/
def draft : String :=
  "note( \"1, 2.\n% 3\",f(g ()),070).% seen\ndone():-seen(X) ,done ."

end Notes

theorem program_spread_notes :
    let again := Notes.clauses.map Clause.reread
    Source.program Notes.draft = .ok Notes.clauses ∧ again ≠ Notes.clauses ∧
      Source.program (String.join (Notes.clauses.map fun c => String.ofList ['\r', '\n'] ++ c.text)) =
        .ok again ∧
      Source.program (String.join (again.map fun c => String.ofList [] ++ c.text)) = .ok again := by
  intro again
  have read : Source.program Notes.draft = .ok Notes.clauses := by rfl
  have lineEnd : ∀ c ∈ ['\r', '\n'], isBlank c = true := by simp [isBlank]
  have note : Predicate.IsPrintable
      ⟨"note", [.string "1, 2.\n% 3", .compound "f" [.atom "g"], .number 70]⟩ := by decide
  have printable : ∀ c ∈ again, c.IsPrintable := by
    refine List.forall_mem_cons.mpr ⟨note, List.forall_mem_singleton.mpr ⟨by decide, ?_⟩⟩
    exact ⟨[⟨"seen", [.var "X"]⟩, ⟨"done", []⟩], rfl, by decide⟩
  exact ⟨read, by decide,
    (program_spread.2 Notes.draft Notes.clauses read).1 _ (spread_join lineEnd Notes.clauses),
    program_spread.1 again _ printable (spread_join (List.forall_mem_nil _) again)⟩

end Source

end Backchain
