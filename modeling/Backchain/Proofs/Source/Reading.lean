import Backchain.Proofs.Source.Grammar

/-!
The readers accept exactly the grammar.

What a reader gives is derived by the grammar, by the recursion of the reader. The other direction
needs to know what comes next: where the source goes on with a character that stops a term, a name
or a number was read as far as it goes, and a name that was read without parentheses has none.
Everything that the grammar derives inside a program is followed by such a character.
-/
set_option autoImplicit false

namespace Backchain.Source

variable {source rest : List Char}

/-- The first character that is not skipped. -/
def next? (source : List Char) : Option Char :=
  (skip source).head?

theorem Skips.next?_eq {c : Char} (skips : Skips source (c :: rest)) (kept : IsKept c) :
    next? source = some c := by
  rw [next?, (skips_cons_iff kept).mp skips, List.head?_cons]

/-- The characters that stop a term or a predicate. -/
def stopChars : List Char :=
  [',', ')', ':', '.']

theorem forall_stopChars {holds : Char → Prop} :
    (∀ c ∈ stopChars, holds c) ↔ holds ',' ∧ holds ')' ∧ holds ':' ∧ holds '.' := by
  simp [stopChars]

/-- The source goes on with a character that stops a term or a predicate. -/
def Stops (source : List Char) : Prop :=
  ∃ c ∈ stopChars, next? source = some c

theorem Skips.stops {c : Char} (skips : Skips source (c :: rest)) (stop : c ∈ stopChars) :
    Stops source := by
  have kept : ∀ c ∈ stopChars, IsKept c := forall_stopChars.mpr (by decide)
  exact ⟨c, stop, skips.next?_eq (kept c stop)⟩

theorem Stops.next?_ne (stops : Stops source) : next? source ≠ some '(' := by
  have apart : ∀ c ∈ stopChars, some c ≠ some '(' := forall_stopChars.mpr (by decide)
  obtain ⟨c, stop, same⟩ := stops
  rw [same]
  exact apart c stop

/-- A name or a number does not go on where the next character cannot belong to it. -/
theorem not_part_of_next? {c : Char} (next : next? source = some c)
    (apart : isNamePart c = false) : ∀ d ∈ source.head?, isNamePart d = false := by
  intro d first
  by_contra part
  rw [Bool.not_eq_false] at part
  obtain ⟨tail, rfl⟩ := List.head?_eq_some_iff.mp first
  have kept : Skips (d :: tail) (d :: tail) := .nothing
  rw [kept.next?_eq (isKept_of_isNamePart part), Option.some.injEq] at next
  rw [next, apart] at part
  cases part

theorem Stops.not_part (stops : Stops source) : ∀ c ∈ source.head?, isNamePart c = false := by
  have apart : ∀ c ∈ stopChars, isNamePart c = false := forall_stopChars.mpr (by decide)
  obtain ⟨c, stop, next⟩ := stops
  exact not_part_of_next? next (apart c stop)

/-! ## Words -/

theorem takeWhile_append_eq {test : Char → Bool} {body : List Char}
    (all : ∀ c ∈ body, test c = true) (ends : ∀ c ∈ rest.head?, test c = false) :
    (body ++ rest).takeWhile test = body ∧ (body ++ rest).dropWhile test = rest := by
  rw [List.takeWhile_append_of_pos all, List.dropWhile_append_of_pos all]
  cases rest with
  | nil => simp
  | cons c rest => simp [ends c rfl]

section

variable {first : Char → Bool} {name : String}

theorem nameAt_of_name? (read : name? first (skip source) = some (name, rest)) :
    NameAt first name source rest := by
  have skips := skips_skip source
  cases start : skip source with
  | nil =>
    rw [start] at read
    cases read
  | cons c tail =>
    rw [start] at read skips
    rw [name?] at read
    split at read
    next starts =>
      cases read
      refine .name ?_ starts fun d member => List.mem_takeWhile_imp member
      rwa [List.takeWhile_append_dropWhile]
    next => cases read

theorem NameAt.name?_eq (narrow : ∀ c, first c = true → isNamePart c = true)
    (named : NameAt first name source rest) (ends : ∀ c ∈ rest.head?, isNamePart c = false) :
    name? first (skip source) = some (name, rest) := by
  obtain ⟨c, body, same, starts, parts, rfl⟩ := named.exists_skip_eq narrow
  obtain ⟨taken, dropped⟩ := takeWhile_append_eq parts ends
  rw [same, name?, if_pos starts, taken, dropped]

theorem name?_eq_none {c : Char} (next : next? source = some c) (other : first c = false) :
    name? first (skip source) = none := by
  obtain ⟨tail, start⟩ := List.head?_eq_some_iff.mp next
  rw [start, name?, if_neg (by simp [other])]

end

theorem number?_eq_some_iff {value : Int64} :
    number? source = some (value, rest) ↔ source.takeWhile Char.isDigit ≠ [] ∧
      Decimal.value (source.takeWhile Char.isDigit) ≤ 9223372036854775807 ∧
      Int64.ofNat (Decimal.value (source.takeWhile Char.isDigit)) = value ∧
      source.dropWhile Char.isDigit = rest := by
  have most : Int64.maxValue.toNatClampNeg = 9223372036854775807 := by decide
  simp only [number?, most]
  split
  next fits =>
    rw [Option.some.injEq, Prod.mk.injEq]
    exact ⟨fun same => ⟨fits.1, fits.2, same⟩, fun read => read.2.2⟩
  next unfit =>
    refine iff_of_false (by simp) ?_
    rintro ⟨some, small, -⟩
    exact unfit ⟨some, small⟩

theorem numberAt_of_number? {value : Int64}
    (read : number? (skip source) = some (value, rest)) : NumberAt value source rest := by
  obtain ⟨some, small, rfl, rfl⟩ := number?_eq_some_iff.mp read
  refine .number ?_ some (fun d member => List.mem_takeWhile_imp member) small
  rw [List.takeWhile_append_dropWhile]
  exact skips_skip source

theorem NumberAt.number?_eq {value : Int64} (written : NumberAt value source rest)
    (ends : ∀ c ∈ rest.head?, c.isDigit = false) :
    number? (skip source) = some (value, rest) := by
  obtain ⟨digits, same, some, all, small, rfl⟩ := written.exists_skip_eq
  obtain ⟨taken, dropped⟩ := takeWhile_append_eq all ends
  rw [number?_eq_some_iff, same, taken, dropped]
  exact ⟨some, small, rfl, rfl⟩

theorem quotedAt_of_quoted? {text : String} (read : quoted? (skip source) = some (text, rest)) :
    QuotedAt text source rest := by
  have skips := skips_skip source
  unfold quoted? at read
  split at read
  next tail start =>
    split at read
    next after closing =>
      cases read
      refine .quoted ?_ fun c member => by simpa using List.mem_takeWhile_imp member
      rwa [← closing, List.takeWhile_append_dropWhile, ← start]
    next => cases read
  next => cases read

theorem QuotedAt.quoted?_eq {text : String} (written : QuotedAt text source rest) :
    quoted? (skip source) = some (text, rest) := by
  obtain ⟨body, same, inside, rfl⟩ := written.exists_skip_eq
  have all : ∀ c ∈ body, (c != '"') = true := by simpa using inside
  have ends : ∀ c ∈ ('"' :: rest).head?, (c != '"') = false := by simp
  obtain ⟨taken, dropped⟩ := takeWhile_append_eq all ends
  rw [same, quoted?, dropped, taken]
  rfl

/-! ## What a reader gives is derived -/

section

variable {α : Type} {reader : List Char → Option (α × List Char)}
  {item : α → List Char → List Char → Prop}

theorem listedAt_of_separated
    (each : ∀ source x rest, reader source = some (x, rest) → item x source rest)
    {fuel : Nat} {items : List α}
    (read : separated reader fuel source = some (items, rest)) :
    ListedAt item items source rest := by
  induction fuel generalizing source items with
  | zero => cases read
  | succ fuel ih =>
    rw [separated] at read
    split at read
    next => cases read
    next x middle first =>
      split at read
      next after comma =>
        split at read
        next => cases read
        next others last later =>
          cases read
          exact .more (each _ _ _ first) ((skips_cons_iff (by decide)).mpr comma) (ih later)
      next =>
        cases read
        exact .last (each _ _ _ first)

end

theorem argumentsAt_of_arguments {reader : List Char → Option (Term × List Char)} {fuel : Nat}
    {args : List Term}
    (each : ∀ source term rest, reader source = some (term, rest) → TermAt term source rest)
    (read : arguments reader fuel source = some (some args, rest)) :
    ArgumentsAt TermAt args source rest := by
  rw [arguments] at read
  split at read
  next inside opens =>
    rw [← skips_cons_iff (by decide)] at opens
    split at read
    next after closes =>
      cases read
      exact .empty opens ((skips_cons_iff (by decide)).mpr closes)
    next =>
      split at read
      next => cases read
      next listed last items =>
        split at read
        next after closes =>
          cases read
          exact .listed opens (listedAt_of_separated each items)
            ((skips_cons_iff (by decide)).mpr closes)
        next => cases read
  next => cases read

/-- Without parentheses, nothing was read after a name. -/
theorem eq_of_arguments_none {reader : List Char → Option (Term × List Char)} {fuel : Nat}
    (read : arguments reader fuel source = some (none, rest)) : rest = source := by
  rw [arguments] at read
  split at read
  next =>
    split at read
    next => cases read
    next =>
      split at read
      next => cases read
      next => split at read <;> cases read
  next =>
    cases read
    rfl

theorem termAt_of_term {fuel : Nat} {t : Term} (read : term fuel source = some (t, rest)) :
    TermAt t source rest := by
  induction fuel generalizing source t rest with
  | zero => cases read
  | succ fuel ih =>
    simp only [term] at read
    split at read
    next name middle named =>
      split at read
      next => cases read
      next last alone =>
        cases read
        rw [eq_of_arguments_none alone]
        exact .atom (nameAt_of_name? named)
      next args last applied =>
        cases read
        exact .compound (nameAt_of_name? named) (argumentsAt_of_arguments (fun _ _ _ => ih) applied)
    next =>
      split at read
      next name middle named =>
        cases read
        exact .var (nameAt_of_name? named)
      next =>
        split at read
        next value middle written =>
          cases read
          exact .number (numberAt_of_number? written)
        next =>
          obtain ⟨⟨text, last⟩, written, same⟩ := Option.map_eq_some_iff.mp read
          cases same
          exact .string (quotedAt_of_quoted? written)

theorem predicateAt_of_predicate {fuel : Nat} {goal : Predicate}
    (read : predicate fuel source = some (goal, rest)) : PredicateAt goal source rest := by
  unfold predicate at read
  split at read
  next => cases read
  next name middle named =>
    split at read
    next => cases read
    next args last applied =>
      cases read
      cases args with
      | none =>
        rw [eq_of_arguments_none applied]
        exact .alone (nameAt_of_name? named)
      | some args =>
        exact .applied (nameAt_of_name? named)
          (argumentsAt_of_arguments (fun _ _ _ => termAt_of_term) applied)

theorem ListedAt.ne_nil {α : Type} {item : α → List Char → List Char → Prop} {items : List α}
    (listed : ListedAt item items source rest) : items ≠ [] := by
  cases listed <;> simp

/-- A conjunction is what the predicates in it make when they are nested to the right. -/
theorem conjunctionAt_iff {goal : Term} : ConjunctionAt goal source rest ↔
    ∃ goals, ListedAt PredicateAt goals source rest ∧ Term.ofGoals? goals = some goal := by
  constructor
  · intro conjunction
    induction conjunction with
    | @last goal _ _ first => exact ⟨[goal], .last first, rfl⟩
    | @more goal _ _ _ _ _ first comma _ ih =>
      obtain ⟨goals, listed, nested⟩ := ih
      refine ⟨goal :: goals, .more first comma listed, ?_⟩
      rw [Term.ofGoals?, nested]
      · rfl
      · exact listed.ne_nil
  · rintro ⟨goals, listed, nested⟩
    induction listed generalizing goal with
    | last first =>
      cases nested
      exact .last first
    | more first comma listed ih =>
      rw [Term.ofGoals?] at nested
      · obtain ⟨others, nestedOthers, rfl⟩ := Option.map_eq_some_iff.mp nested
        exact .more first comma (ih nestedOthers)
      · exact listed.ne_nil

theorem conjunctionAt_of_conjunction {fuel : Nat} {goal : Term}
    (read : conjunction fuel source = some (goal, rest)) : ConjunctionAt goal source rest := by
  rw [conjunction] at read
  split at read
  next => cases read
  next goals last listed =>
    obtain ⟨term, nested, same⟩ := Option.map_eq_some_iff.mp read
    cases same
    exact conjunctionAt_iff.mpr
      ⟨goals, listedAt_of_separated (fun _ _ _ => predicateAt_of_predicate) listed, nested⟩

/-- The dot that ends a clause. -/
theorem ended_eq_some_iff {first read : Clause} :
    ended first source = some (read, rest) ↔ first = read ∧ Skips source ('.' :: rest) := by
  rw [skips_cons_iff (by decide), ended]
  split
  next after dot => simp [dot]
  next none =>
    refine iff_of_false (by simp) ?_
    rintro ⟨-, dot⟩
    exact none _ dot

theorem predicate_skip (fuel : Nat) (source : List Char) :
    predicate fuel (skip source) = predicate fuel source := by
  rw [predicate, predicate, skip_skip]

theorem clauseAt_of_clause {fuel : Nat} {c : Clause}
    (read : clause fuel source = some (c, rest)) : ClauseAt c source rest := by
  unfold clause at read
  split at read
  next start asks =>
    split at read
    next => cases read
    next goal last goals =>
      obtain ⟨rfl, dot⟩ := ended_eq_some_iff.mp read
      exact .query ((skips_cons_iff (by decide)).mpr asks) (conjunctionAt_of_conjunction goals) dot
  next =>
    rw [predicate_skip] at read
    split at read
    next => cases read
    next head middle states =>
      split at read
      next start neck =>
        split at read
        next => cases read
        next body last goals =>
          obtain ⟨rfl, dot⟩ := ended_eq_some_iff.mp read
          exact .rule (predicateAt_of_predicate states) ((skips_cons_iff (by decide)).mpr neck)
            (conjunctionAt_of_conjunction goals) dot
      next =>
        obtain ⟨rfl, dot⟩ := ended_eq_some_iff.mp read
        exact .fact (predicateAt_of_predicate states) ((skips_skip middle).trans dot)

theorem clause_skip (fuel : Nat) (source : List Char) :
    clause fuel (skip source) = clause fuel source := by
  rw [clause, clause, skip_skip]

theorem programAt_of_clauses {fuel : Nat} {program : Program}
    (read : clauses fuel source = .ok program) : ProgramAt program source := by
  induction fuel generalizing source program with
  | zero => cases read
  | succ fuel ih =>
    rw [clauses] at read
    split at read
    next none =>
      cases read
      apply ProgramAt.done
      rw [← none]
      exact skips_skip source
    next =>
      rw [clause_skip] at read
      split at read
      next => cases read
      next c rest first =>
        split at read
        next => cases read
        next later program =>
          cases read
          exact .more (clauseAt_of_clause first) (ih program)

/-! ## What is derived is read -/

section

variable {α : Type} {reader : List Char → Option (α × List Char)}
  {item : α → List Char → List Char → Prop}

/-- The reader reads this item wherever the grammar derives it, if something follows that stops it
and no more characters than this are left after skipping. -/
def IsRead (reader : List Char → Option (α × List Char))
    (item : α → List Char → List Char → Prop) (most : Nat) (x : α) : Prop :=
  ∀ source rest, item x source rest → Stops rest → (skip source).length ≤ most →
    reader source = some (x, rest)

theorem ListedAt.separated_eq {items : List α} {most fuel : Nat}
    (listed : ListedAt item items source rest) (takes : ∀ x ∈ items, TakesSome item x)
    (each : ∀ x ∈ items, IsRead reader item most x) (ends : Stops rest)
    (noComma : next? rest ≠ some ',') (enough : (skip source).length ≤ fuel)
    (within : fuel ≤ most) : separated reader fuel source = some (items, rest) := by
  induction listed generalizing fuel with
  | last first =>
    have shorter := takes _ List.mem_cons_self _ _ first
    cases fuel with
    | zero => omega
    | succ fuel =>
      have read := each _ List.mem_cons_self _ _ first ends (Nat.le_trans enough within)
      rw [separated, read]
      dsimp only
      split
      next after comma => exact absurd (by rw [next?, comma, List.head?_cons]) noComma
      next => rfl
  | more first comma later ih =>
    have shorter := takes _ List.mem_cons_self _ _ first
    have shorterAfter := comma.length_skip_lt
    cases fuel with
    | zero => omega
    | succ fuel =>
      have read := each _ List.mem_cons_self _ _ first (comma.stops (by decide))
        (Nat.le_trans enough within)
      have others := ih (fun x member => takes x (List.mem_cons_of_mem _ member))
        (fun x member => each x (List.mem_cons_of_mem _ member)) ends noComma
        (Nat.le_of_lt_succ (by omega)) (Nat.le_of_succ_le within)
      simp only [separated, read, (skips_cons_iff (by decide)).mp comma, others]

end

theorem NameAt.exists_next? {first : Char → Bool} {name : String}
    (narrow : ∀ c, first c = true → isNamePart c = true) (named : NameAt first name source rest) :
    ∃ c, next? source = some c ∧ first c = true := by
  obtain ⟨c, body, same, starts, -⟩ := named.exists_skip_eq narrow
  exact ⟨c, by rw [next?, same, List.head?_cons], starts⟩

theorem NumberAt.exists_next? {value : Int64} (written : NumberAt value source rest) :
    ∃ c, next? source = some c ∧ c.isDigit = true := by
  obtain ⟨digits, same, some, all, -⟩ := written.exists_skip_eq
  cases digits with
  | nil => exact absurd rfl some
  | cons d digits =>
    exact ⟨d, by rw [next?, same, List.cons_append, List.head?_cons], all d List.mem_cons_self⟩

theorem QuotedAt.next?_eq {text : String} (written : QuotedAt text source rest) :
    next? source = some '"' := by
  obtain ⟨body, same, -⟩ := written.exists_skip_eq
  rw [next?, same, List.head?_cons]

theorem TermAt.exists_next? {t : Term} (derived : TermAt t source rest) :
    ∃ c, next? source = some c ∧ (isNamePart c = true ∨ c = '"') := by
  cases derived with
  | atom named | compound named =>
    obtain ⟨c, next, starts⟩ := named.exists_next? isNamePart_of_isLower
    exact ⟨c, next, .inl (isNamePart_of_isLower c starts)⟩
  | var named =>
    obtain ⟨c, next, starts⟩ := named.exists_next? isNamePart_of_isUpper
    exact ⟨c, next, .inl (isNamePart_of_isUpper c starts)⟩
  | number written =>
    obtain ⟨c, next, digit⟩ := written.exists_next?
    exact ⟨c, next, .inl (isNamePart_of_isDigit c digit)⟩
  | string written => exact ⟨'"', written.next?_eq, .inr rfl⟩

/-- No parenthesis closes where there is a term to read. -/
theorem ListedAt.next?_ne {args : List Term} (listed : ListedAt TermAt args source rest) :
    next? source ≠ some ')' := by
  have start : ∃ t middle, TermAt t source middle := by
    cases listed with
    | last first | more first => exact ⟨_, _, first⟩
  obtain ⟨t, middle, first⟩ := start
  obtain ⟨c, next, part | quote⟩ := first.exists_next?
  · rw [next]
    rintro ⟨⟩
    revert part
    decide
  · rw [next, quote]
    decide

theorem ArgumentsAt.next?_eq {args : List Term} (applied : ArgumentsAt TermAt args source rest) :
    next? source = some '(' := by
  cases applied with
  | empty opens | listed opens => exact opens.next?_eq (by decide)

theorem ArgumentsAt.arguments_eq {reader : List Char → Option (Term × List Char)}
    {args : List Term} {fuel : Nat} (applied : ArgumentsAt TermAt args source rest)
    (each : ∀ arg ∈ args, IsRead reader TermAt fuel arg) (enough : (skip source).length ≤ fuel) :
    arguments reader fuel source = some (some args, rest) := by
  cases applied with
  | empty opens closes =>
    simp only [arguments, (skips_cons_iff (by decide)).mp opens,
      (skips_cons_iff (by decide)).mp closes]
  | @listed _ _ inside last _ opens items closes =>
    have start := (skips_cons_iff (by decide)).mp opens
    have closed := (skips_cons_iff (by decide)).mp closes
    have shorter : (skip inside).length ≤ fuel := by
      have inside_le := length_skip_le inside
      rw [start, List.length_cons] at enough
      omega
    have noComma : next? last ≠ some ',' := by
      rw [closes.next?_eq (by decide)]
      decide
    have read := items.separated_eq (fun arg _ => takesSome_termAt arg) each
      (closes.stops (by decide)) noComma shorter (Nat.le_refl fuel)
    simp only [arguments, start]
    split
    next after nothing => exact absurd (by rw [next?, nothing, List.head?_cons]) items.next?_ne
    next => simp only [read, closed]

/-- Where a term stops after a name, no parentheses belong to it. -/
theorem arguments_eq_none {reader : List Char → Option (Term × List Char)} {fuel : Nat}
    (ends : Stops source) : arguments reader fuel source = some (none, source) := by
  rw [arguments]
  split
  next inside opens => exact absurd (by rw [next?, opens, List.head?_cons]) ends.next?_ne
  next => rfl

theorem isLower_eq (c : Char) : c.isLower = (decide (97 ≤ c.val) && decide (c.val ≤ 122)) :=
  rfl

theorem isUpper_eq (c : Char) : c.isUpper = decide (65 ≤ c.val ∧ c.val ≤ 90) :=
  rfl

theorem isDigit_eq (c : Char) : c.isDigit = (decide (48 ≤ c.val) && decide (c.val ≤ 57)) :=
  rfl

theorem not_isLower_of_isUpper {c : Char} (upper : c.isUpper = true) : c.isLower = false := by
  grind [isUpper_eq, isLower_eq]

theorem not_isLower_of_isDigit {c : Char} (digit : c.isDigit = true) : c.isLower = false := by
  grind [isDigit_eq, isLower_eq]

theorem not_isUpper_of_isDigit {c : Char} (digit : c.isDigit = true) : c.isUpper = false := by
  grind [isDigit_eq, isUpper_eq]

theorem number?_eq_none {c : Char} (next : next? source = some c) (other : c.isDigit = false) :
    number? (skip source) = none := by
  obtain ⟨tail, start⟩ := List.head?_eq_some_iff.mp next
  rw [start, number?, List.takeWhile_cons_of_neg (by simp [other])]
  rfl

/-- Every term is read as it is derived. The fuel need not exceed what there is to read, since the
arguments of a compound come after its name. -/
theorem isRead_termAt (fuel : Nat) (t : Term) : IsRead (term fuel) TermAt fuel t := by
  induction fuel generalizing t with
  | zero =>
    intro source rest derived _ enough
    have shorter := takesSome_termAt t source rest derived
    omega
  | succ fuel ih =>
    intro source rest derived ends enough
    cases derived with
    | atom named =>
      have read := named.name?_eq isNamePart_of_isLower ends.not_part
      simp only [term, read, arguments_eq_none ends]
    | compound named applied =>
      have opens := not_part_of_next? applied.next?_eq (by decide)
      have read := named.name?_eq isNamePart_of_isLower opens
      have shorter := named.length_skip_lt isNamePart_of_isLower
      have readArgs := applied.arguments_eq (fun arg _ => ih arg) (by omega)
      simp only [term, read, readArgs]
    | var named =>
      obtain ⟨c, next, upper⟩ := named.exists_next? isNamePart_of_isUpper
      have read := named.name?_eq isNamePart_of_isUpper ends.not_part
      have lower := name?_eq_none next (not_isLower_of_isUpper upper)
      simp only [term, lower, read]
    | number written =>
      obtain ⟨c, next, digit⟩ := written.exists_next?
      have read := written.number?_eq fun d first => by
        have apart := ends.not_part d first
        by_contra more
        rw [isNamePart_of_isDigit d (by simpa using more)] at apart
        cases apart
      have lower := name?_eq_none next (not_isLower_of_isDigit digit)
      have upper := name?_eq_none next (not_isUpper_of_isDigit digit)
      simp only [term, lower, upper, read]
    | string written =>
      have next := written.next?_eq
      have lower := name?_eq_none next (show Char.isLower '"' = false by decide)
      have upper := name?_eq_none next (show Char.isUpper '"' = false by decide)
      have number := number?_eq_none next (by decide)
      simp only [term, lower, upper, number, written.quoted?_eq, Option.map_some]

theorem isRead_predicateAt (fuel : Nat) (goal : Predicate) :
    IsRead (predicate fuel) PredicateAt fuel goal := by
  intro source rest derived ends enough
  cases derived with
  | alone named =>
    have read := named.name?_eq isNamePart_of_isLower ends.not_part
    simp only [predicate, read, arguments_eq_none ends, Option.getD_none]
  | applied named applied =>
    have opens := not_part_of_next? applied.next?_eq (by decide)
    have read := named.name?_eq isNamePart_of_isLower opens
    have shorter := named.length_skip_lt isNamePart_of_isLower
    have readArgs := applied.arguments_eq (fun arg _ => isRead_termAt fuel arg) (by omega)
    simp only [predicate, read, readArgs, Option.getD_some]

theorem ConjunctionAt.conjunction_eq {fuel : Nat} {goal : Term} {after : List Char}
    (derived : ConjunctionAt goal source rest) (dot : Skips rest ('.' :: after))
    (enough : (skip source).length ≤ fuel) :
    conjunction fuel source = some (goal, rest) := by
  obtain ⟨goals, listed, nested⟩ := conjunctionAt_iff.mp derived
  have noComma : next? rest ≠ some ',' := by
    rw [dot.next?_eq (by decide)]
    decide
  have read := listed.separated_eq (fun goal _ => takesSome_predicateAt goal)
    (fun goal _ => isRead_predicateAt fuel goal) (dot.stops (by decide)) noComma enough
    (Nat.le_refl fuel)
  simp only [conjunction, read, nested, Option.map_some]

/-- No query begins where there is a predicate to read. -/
theorem PredicateAt.next?_ne {goal : Predicate} (derived : PredicateAt goal source rest) :
    next? source ≠ some '?' := by
  have named : ∃ name middle, NameAt Char.isLower name source middle := by
    cases derived with
    | alone named | applied named => exact ⟨_, _, named⟩
  obtain ⟨name, middle, named⟩ := named
  obtain ⟨c, next, lower⟩ := named.exists_next? isNamePart_of_isLower
  rw [next]
  rintro ⟨⟩
  revert lower
  decide

theorem ClauseAt.clause_eq {fuel : Nat} {c : Clause} (derived : ClauseAt c source rest)
    (enough : (skip source).length ≤ fuel) : clause fuel source = some (c, rest) := by
  cases derived with
  | @query _ _ start _ _ asks goals dot =>
    have begins := (skips_cons_iff (by decide)).mp asks
    have read : conjunction fuel start = _ := goals.conjunction_eq dot <| by
      have start_le := length_skip_le start
      rw [begins, List.length_cons, List.length_cons] at enough
      omega
    rw [clause, begins]
    simp only [read, ended_eq_some_iff.mpr ⟨rfl, dot⟩]
  | fact states dot =>
    have read := isRead_predicateAt fuel _ _ _ states (dot.stops (by decide)) enough
    have ends := (skips_cons_iff (by decide)).mp dot
    rw [clause]
    split
    next start asks => exact absurd (by rw [next?, asks, List.head?_cons]) states.next?_ne
    next =>
      simp only [predicate_skip, read, ends]
      exact ended_eq_some_iff.mpr ⟨rfl, .nothing⟩
  | @rule _ _ _ middle start _ _ states neck goals dot =>
    have readHead := isRead_predicateAt fuel _ _ _ states (neck.stops (by decide)) enough
    have begins := (skips_cons_iff (by decide)).mp neck
    have readBody : conjunction fuel start = _ := goals.conjunction_eq dot <| by
      have shorter := takesSome_predicateAt _ _ _ states
      have neck_le := neck.length_le
      have start_le := length_skip_le start
      rw [List.length_cons, List.length_cons] at neck_le
      omega
    rw [clause]
    split
    next start asks => exact absurd (by rw [next?, asks, List.head?_cons]) states.next?_ne
    next =>
      simp only [predicate_skip, readHead, begins, readBody, ended_eq_some_iff.mpr ⟨rfl, dot⟩]

/-- Where a clause is derived, the reader takes it and goes on after it. -/
theorem ClauseAt.clauses_eq {c : Clause} (derived : ClauseAt c source rest) (fuel : Nat) :
    clauses (fuel + 1) source = (clauses fuel rest).map (c :: ·) := by
  have read := derived.clause_eq (Nat.le_refl _)
  rw [clauses]
  split
  next nothing =>
    have shorter := takesSome_clauseAt c _ _ derived
    rw [nothing] at shorter
    exact absurd shorter (Nat.not_lt_zero _)
  next =>
    simp only [clause_skip, read]
    cases clauses fuel rest <;> rfl

theorem ClauseAt.length_lt {c : Clause} (derived : ClauseAt c source rest) :
    rest.length < source.length :=
  Nat.lt_of_lt_of_le (takesSome_clauseAt c _ _ derived) (length_skip_le source)

/-- The fuel is enough for more clauses than the source has characters. -/
theorem ProgramAt.clauses_eq {program : Program} {fuel : Nat} (derived : ProgramAt program source)
    (enough : source.length < fuel) : clauses fuel source = .ok program := by
  induction derived generalizing fuel with
  | done skips =>
    cases fuel with
    | zero => omega
    | succ fuel =>
      have nothing := skips.skip_eq
      rw [skip] at nothing
      simp only [clauses, nothing]
  | more first later ih =>
    have shorter := first.length_lt
    cases fuel with
    | zero => omega
    | succ fuel =>
      rw [first.clauses_eq, ih (by omega)]
      rfl

theorem program_eq_ok {source : String} {program : Program} :
    Source.program source = .ok program ↔ ProgramAt program source.toList := by
  simp only [Source.program]
  constructor
  · intro read
    split at read
    next found =>
      cases read
      exact programAt_of_clauses found
    next => cases read
  · intro derived
    rw [derived.clauses_eq (Nat.lt_succ_self _)]

/-- Source is read as a program if and only if the grammar derives the program from it, and there is
no other that the grammar derives from it. -/
theorem program_eq_ok_iff (source : String) :
    (∀ program, Source.program source = .ok program ↔ ProgramAt program source.toList) ∧
      ∀ program other, ProgramAt program source.toList → ProgramAt other source.toList →
        program = other := by
  refine ⟨fun _ => program_eq_ok, ?_⟩
  intro program other derived derivedOther
  have read := program_eq_ok.mpr derived
  rw [program_eq_ok.mpr derivedOther] at read
  exact (Except.ok.inj read).symm

end Backchain.Source
