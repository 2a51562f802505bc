import Backchain.Proofs.Env.Renaming
import Backchain.Proofs.Search.Hygiene
import Backchain.Proofs.Search.Refinement
import Backchain.Proofs.Term.Variants

/-!
The names of variables do not matter to a search.

Two searches go side by side: one of them has other names for the variables that facts, goals and
environment share, its own names in each rule, and another number of copies to start from. At every
moment some renaming leads from what is in use in one search to what is in use in the other. It keeps
different names apart, and it takes the copies that are still to be made to the copies that the other
search will make. When a rule is copied, the renaming has to take the variables of the copy to those of
the other copy; nothing in use has them yet, so it may be changed there.
-/
set_option autoImplicit false

namespace Backchain

/-! ## Databases under other names -/

namespace Rule

def rename (rule : Rule) (names : String → String) : Rule :=
  ⟨rule.head.rename names, rule.body.rename names, rule.goals.map (Predicate.rename names)⟩

def occurrences (rule : Rule) : List String :=
  rule.head.occurrences ++ rule.goals.flatMap Predicate.occurrences

/-- The other rule has names of its own for the variables of this one. -/
def Renames (rule other : Rule) : Prop :=
  ∃ own : String → String, Set.InjOn own {x | x ∈ rule.occurrences} ∧ other = rule.rename own

end Rule

namespace Database

/-- The other database has the same clauses in the same order, the facts under these names and each
rule under names of its own. -/
structure Renames (names : String → String) (database other : Database) : Prop where
  facts : ∀ place : Nat, Option.Rel (fun fact renamed => renamed = fact.rename names)
    database.facts[place]? other.facts[place]?
  rules : ∀ place : Nat, Option.Rel Rule.Renames database.rules[place]? other.rules[place]?

section

variable {α : Type} {key : α → Signature} {alike : α → α → Prop} {items others : Array α}

theorem size_of_alike (each : ∀ place : Nat, Option.Rel alike items[place]? others[place]?) :
    others.size = items.size := by
  have ends : ∀ place : Nat, items.size ≤ place ↔ others.size ≤ place := by
    intro place
    have here := each place
    rw [← Array.getElem?_eq_none_iff, ← Array.getElem?_eq_none_iff]
    generalize items[place]? = item at here
    generalize others[place]? = other at here
    cases here <;> simp
  exact Nat.le_antisymm ((ends _).mp (Nat.le_refl _)) ((ends _).mpr (Nat.le_refl _))

theorem alike_push (each : ∀ place : Nat, Option.Rel alike items[place]? others[place]?)
    {item other : α} (same : alike item other) (place : Nat) :
    Option.Rel alike (items.push item)[place]? (others.push other)[place]? := by
  rw [Array.getElem?_push, Array.getElem?_push, size_of_alike each]
  split
  · exact .some same
  · exact each place

theorem placesIn_of_alike (keys : ∀ item other, alike item other → key other = key item)
    (each : ∀ place : Nat, Option.Rel alike items[place]? others[place]?) (signature : Signature) :
    placesIn key others signature = placesIn key items signature := by
  rw [placesIn, placesIn, size_of_alike each]
  apply List.filter_congr
  intro place _
  have here := each place
  generalize items[place]? = item at here
  generalize others[place]? = other at here
  cases here with
  | none => rfl
  | some same => simp [keys _ _ same]

theorem forall₂_lookup (each : ∀ place : Nat, Option.Rel alike items[place]? others[place]?)
    (places : List Nat) :
    List.Forall₂ alike (places.filterMap fun place => items[place]?)
      (places.filterMap fun place => others[place]?) := by
  have same : List.Forall₂ Eq places places := List.forall₂_refl places
  refine List.rel_filterMap ?_ same
  rintro place _ rfl
  exact each place

end

variable {names : String → String} {database other : Database}

theorem Renames.empty (names : String → String) : Renames names ∅ ∅ :=
  ⟨fun _ => .none, fun _ => .none⟩

theorem Renames.addFact (renames : database.Renames names other) (fact : Predicate) :
    (database.addFact fact).Renames names (other.addFact (fact.rename names)) :=
  ⟨alike_push renames.facts rfl, renames.rules⟩

theorem Renames.addRule {rule renamed : Rule} (renames : database.Renames names other)
    (same : rule.Renames renamed) : (database.addRule rule).Renames names (other.addRule renamed) :=
  ⟨renames.facts, alike_push renames.rules same⟩

theorem Renames.factsOf (renames : database.Renames names other) (indexed : database.Indexed)
    (indexedOther : other.Indexed) (signature : Signature) :
    List.Forall₂ (fun fact renamed => renamed = fact.rename names) (database.factsOf signature)
      (other.factsOf signature) := by
  have keys : ∀ fact other : Predicate, other = fact.rename names →
      other.signature = fact.signature := by
    rintro fact _ rfl
    exact fact.signature_rename names
  rw [Database.factsOf, Database.factsOf, indexed.facts, indexedOther.facts,
    placesIn_of_alike keys renames.facts]
  exact forall₂_lookup renames.facts _

theorem Renames.rulesOf (renames : database.Renames names other) (indexed : database.Indexed)
    (indexedOther : other.Indexed) (signature : Signature) :
    List.Forall₂ Rule.Renames (database.rulesOf signature) (other.rulesOf signature) := by
  have keys : ∀ rule other : Rule, rule.Renames other →
      other.head.signature = rule.head.signature := by
    rintro rule _ ⟨own, -, rfl⟩
    exact rule.head.signature_rename own
  rw [Database.rulesOf, Database.rulesOf, indexed.rules, indexedOther.rules,
    placesIn_of_alike keys renames.rules]
  exact forall₂_lookup renames.rules _

end Database

/-! ## Names of copies -/

open Classical in
/-- Gives the variables of one copy other names in the same copy. -/
noncomputable def inCopy (number : Nat) (own : String → String) (name : String) : String :=
  if copy : ∃ x, name = copyName number x then copyName number (own copy.choose) else name

theorem inCopy_copyName (number : Nat) (own : String → String) (x : String) :
    inCopy number own (copyName number x) = copyName number (own x) := by
  have copy : ∃ y, copyName number x = copyName number y := ⟨x, rfl⟩
  have same := (copyName_inj.mp copy.choose_spec).2
  rw [inCopy, dif_pos copy, ← same]

theorem inCopy_of_below {bound number : Nat} {name : String} (below : Below bound name)
    (above : bound < number) (own : String → String) : inCopy number own name = name := by
  rw [inCopy, dif_neg]
  rintro ⟨x, same⟩
  exact below number x above same

theorem inCopy_of_ne {number : Nat} {name : String} (other : ∀ x, name ≠ copyName number x)
    (own : String → String) : inCopy number own name = name := by
  rw [inCopy, dif_neg]
  rintro ⟨x, same⟩
  exact other x same

theorem injective_inCopy (number : Nat) {own : String → String} (apart : Function.Injective own) :
    Function.Injective (inCopy number own) := by
  intro first second same
  by_cases copy : ∃ x, first = copyName number x
  · obtain ⟨x, rfl⟩ := copy
    rw [inCopy_copyName] at same
    by_cases copyOther : ∃ y, second = copyName number y
    · obtain ⟨y, rfl⟩ := copyOther
      rw [inCopy_copyName] at same
      rw [apart (copyName_inj.mp same).2]
    · rw [inCopy_of_ne (not_exists.mp copyOther)] at same
      exact absurd ⟨_, same.symm⟩ copyOther
  · rw [inCopy_of_ne (not_exists.mp copy)] at same
    by_cases copyOther : ∃ y, second = copyName number y
    · obtain ⟨y, rfl⟩ := copyOther
      rw [inCopy_copyName] at same
      exact absurd ⟨_, same⟩ copy
    · rwa [inCopy_of_ne (not_exists.mp copyOther)] at same

/-- A change of names that other names may be added to: it does what it is given on names that may be
used in programs, and takes the copies that one search makes next to those of the other. -/
structure Naming (change : String → String) (copies number : Nat) (names : String → String) : Prop where
  apart : Function.Injective names
  extends_ : ∀ x, isReserved x = false → names x = change x
  fresh : ∀ i x, names (copyName (copies + i + 1) x) = copyName (number + i + 1) x

variable {change names : String → String} {copies number : Nat}

theorem Naming.later (naming : Naming change copies number names) (made : Nat) :
    Naming change (copies + made) (number + made) names where
  apart := naming.apart
  extends_ := naming.extends_
  fresh i x := by
    rw [Nat.add_assoc copies, Nat.add_assoc number]
    exact naming.fresh (made + i) x

theorem Naming.rename_eq (naming : Naming change copies number names) {p : Predicate}
    (unmarked : p.IsUnmarked) : p.rename change = p.rename names := by
  apply Predicate.rename_congr
  intro x occurs
  exact (naming.extends_ x (Predicate.isUnmarked_iff.mp unmarked x occurs)).symm

/-- The names after a copy with its own names was made in the other search. -/
theorem Naming.copied (naming : Naming change copies number names) {own : String → String}
    (apart : Function.Injective own) :
    Naming change (copies + 1) (number + 1) (names ∘ inCopy (copies + 1) own) where
  apart := naming.apart.comp (injective_inCopy _ apart)
  extends_ x free := by
    rw [Function.comp_apply, inCopy_of_below (below_of_not_reserved free copies)
      (Nat.lt_succ_self copies), naming.extends_ x free]
  fresh i x := by
    rw [Function.comp_apply, inCopy_of_ne]
    · exact (naming.later 1).fresh i x
    · intro y same
      have numbers := (copyName_inj.mp same).1
      omega

theorem Naming.copied_copyName (naming : Naming change copies number names)
    (own : String → String) (x : String) :
    (names ∘ inCopy (copies + 1) own) (copyName (copies + 1) x) =
      copyName (number + 1) (own x) := by
  rw [Function.comp_apply, inCopy_copyName]
  exact naming.fresh 0 (own x)

/-- When both searches copy a rule, there are names that lead from one copy to the other and change
nothing else in use. -/
theorem Naming.exists_copied (naming : Naming change copies number names) {rule renamed : Rule}
    (renames : rule.Renames renamed) :
    ∃ further, Naming change (copies + 1) (number + 1) further ∧
      renamed.copiedHead (number + 1) = (rule.copiedHead (copies + 1)).rename further ∧
      renamed.copiedGoals (number + 1) =
        (rule.copiedGoals (copies + 1)).map (Predicate.rename further) ∧
      ∀ x, Below copies x → names x = further x := by
  obtain ⟨own, distinct, rfl⟩ := renames
  obtain ⟨all, agrees⟩ := exists_renaming_of_injOn distinct
  have onCopy : ∀ p : Predicate, (∀ x ∈ p.occurrences, x ∈ rule.occurrences) →
      (p.rename own).rename (copyName (number + 1)) =
        (p.rename (copyName (copies + 1))).rename (names ∘ inCopy (copies + 1) all) := by
    intro p within
    rw [Predicate.rename_rename, Predicate.rename_rename]
    apply Predicate.rename_congr
    intro x occurs
    have copied := naming.copied_copyName all x
    rw [agrees x (within x occurs)] at copied
    exact copied.symm
  refine ⟨names ∘ inCopy (copies + 1) all, naming.copied all.injective, ?head, ?goals, ?others⟩
  case head => exact onCopy rule.head fun x occurs => List.mem_append_left _ occurs
  case goals =>
    rw [Rule.copiedGoals, Rule.copiedGoals, Rule.rename, List.map_map, List.map_map]
    apply List.map_congr_left
    intro p member
    apply onCopy p
    exact fun x occurs => List.mem_append_right _ (List.mem_flatMap.mpr ⟨p, member, occurs⟩)
  case others =>
    intro x below
    exact congrArg names (inCopy_of_below below (Nat.lt_succ_self copies) all).symm

open Classical in
/-- Changes the names that may be used in programs, and shifts the numbers of the copies that are
still to be made. Any other name gets a number that no copy has. -/
noncomputable def shiftedNames (change : String → String) (copies number : Nat) (name : String) :
    String :=
  if isReserved name = false then change name
  else if copy : ∃ i x, name = copyName (copies + i + 1) x then
    copyName (number + copy.choose + 1) copy.choose_spec.choose
  else copyName 0 name

theorem shiftedNames_of_free {name : String} (free : isReserved name = false) :
    shiftedNames change copies number name = change name := by
  rw [shiftedNames, if_pos free]

theorem shiftedNames_copyName (i : Nat) (x : String) :
    shiftedNames change copies number (copyName (copies + i + 1) x) =
      copyName (number + i + 1) x := by
  have marked : ¬ isReserved (copyName (copies + i + 1) x) = false := by
    rw [isReserved_copyName]
    simp
  have copy : ∃ j y, copyName (copies + i + 1) x = copyName (copies + j + 1) y := ⟨i, x, rfl⟩
  obtain ⟨numbers, names⟩ := copyName_inj.mp copy.choose_spec.choose_spec
  rw [shiftedNames, if_neg marked, dif_pos copy, copyName_inj]
  exact ⟨by omega, names.symm⟩

theorem shiftedNames_of_other {name : String} (marked : isReserved name = true)
    (other : ¬ ∃ i x, name = copyName (copies + i + 1) x) :
    shiftedNames change copies number name = copyName 0 name := by
  rw [shiftedNames, if_neg (by simp [marked]), dif_neg other]

/-- The sort of name can be told from the changed name, and the name within its sort as well. -/
theorem injective_shiftedNames (apart : Set.InjOn change {x | isReserved x = false})
    (free : ∀ x, isReserved x = false → isReserved (change x) = false) (copies number : Nat) :
    Function.Injective (shiftedNames change copies number) := by
  have sorts : ∀ name, isReserved name = false ∨ (∃ i x, name = copyName (copies + i + 1) x) ∨
      (isReserved name = true ∧ ¬ ∃ i x, name = copyName (copies + i + 1) x) := by
    intro name
    by_cases copy : ∃ i x, name = copyName (copies + i + 1) x
    · exact .inr (.inl copy)
    · cases marked : isReserved name with
      | false => exact .inl rfl
      | true => exact .inr (.inr ⟨rfl, copy⟩)
  have unlike : ∀ x k y, isReserved x = false → change x ≠ copyName k y := by
    intro x k y inUse same
    have both := free x inUse
    rw [same, isReserved_copyName] at both
    cases both
  intro first second same
  rcases sorts first with inUse | ⟨i, x, rfl⟩ | ⟨marked, other⟩
  · rw [shiftedNames_of_free inUse] at same
    rcases sorts second with inUseToo | ⟨j, y, rfl⟩ | ⟨markedToo, otherToo⟩
    · rw [shiftedNames_of_free inUseToo] at same
      exact apart inUse inUseToo same
    · rw [shiftedNames_copyName] at same
      exact absurd same (unlike _ _ _ inUse)
    · rw [shiftedNames_of_other markedToo otherToo] at same
      exact absurd same (unlike _ _ _ inUse)
  · rw [shiftedNames_copyName] at same
    rcases sorts second with inUseToo | ⟨j, y, rfl⟩ | ⟨markedToo, otherToo⟩
    · rw [shiftedNames_of_free inUseToo] at same
      exact absurd same.symm (unlike _ _ _ inUseToo)
    · rw [shiftedNames_copyName, copyName_inj] at same
      rw [copyName_inj]
      exact ⟨by omega, same.2⟩
    · rw [shiftedNames_of_other markedToo otherToo, copyName_inj] at same
      omega
  · rw [shiftedNames_of_other marked other] at same
    rcases sorts second with inUseToo | ⟨j, y, rfl⟩ | ⟨markedToo, otherToo⟩
    · rw [shiftedNames_of_free inUseToo] at same
      exact absurd same.symm (unlike _ _ _ inUseToo)
    · rw [shiftedNames_copyName, copyName_inj] at same
      omega
    · rw [shiftedNames_of_other markedToo otherToo, copyName_inj] at same
      exact same.2

theorem naming_shiftedNames (apart : Set.InjOn change {x | isReserved x = false})
    (free : ∀ x, isReserved x = false → isReserved (change x) = false) (copies number : Nat) :
    Naming change copies number (shiftedNames change copies number) where
  apart := injective_shiftedNames apart free copies number
  extends_ _ inUse := shiftedNames_of_free inUse
  fresh := shiftedNames_copyName

/-! ## Two searches side by side -/

/-- What was found by one search and by the other is the same up to a renaming that extends the given
change of names. -/
def SameUpToNames (change : String → String) (answer other : Env) : Prop :=
  ∃ names : String → String, Function.Injective names ∧
    (∀ x, isReserved x = false → names x = change x) ∧ answer.Renames names other

/-- Two parts of the searches end alike, make as many copies and find the same. -/
structure Corresponds (change : String → String) (copies number : Nat) (listing other : Listing) :
    Prop where
  ending : other.ending = listing.ending
  copies : ∃ made, listing.copies = copies + made ∧ other.copies = number + made
  envs : List.Forall₂ (SameUpToNames change) listing.envs other.envs

theorem Corresponds.nothing (made : Nat) :
    Corresponds change copies number (.nothing (copies + made)) (.nothing (number + made)) :=
  ⟨rfl, ⟨made, rfl, rfl⟩, .nil⟩

theorem Corresponds.after {listing other : Listing} (made : Nat)
    (corresponds : Corresponds change (copies + made) (number + made) listing other) :
    Corresponds change copies number listing other := by
  obtain ⟨more, here, there⟩ := corresponds.copies
  exact ⟨corresponds.ending, ⟨made + more, by omega, by omega⟩, corresponds.envs⟩

theorem Corresponds.andThen {first firstOther : Listing} {next nextOther : Nat → Listing}
    (before : Corresponds change copies number first firstOther)
    (later : ∀ made, Corresponds change (copies + made) (number + made) (next (copies + made))
      (nextOther (number + made))) :
    Corresponds change copies number (first.andThen next) (firstOther.andThen nextOther) := by
  by_cases full : first.ending = .exhausted
  · have fullOther : firstOther.ending = .exhausted := before.ending.trans full
    obtain ⟨made, here, there⟩ := before.copies
    have rest := (later made).after
    rw [← here, ← there] at rest
    rw [Listing.andThen_of_exhausted full, Listing.andThen_of_exhausted fullOther]
    refine ⟨rest.ending, rest.copies, ?_⟩
    simp only [Listing.envs, List.map_append]
    exact List.rel_append before.envs rest.envs
  · have haltedOther : firstOther.ending ≠ .exhausted := before.ending ▸ full
    rwa [Listing.andThen_of_halted full, Listing.andThen_of_halted haltedOther]

theorem corresponds_listEach {α : Type} {alike : α → α → Prop}
    {attempt attemptOther : α → Nat → Listing} {candidates others : List α}
    (pairs : List.Forall₂ alike candidates others)
    (each : ∀ candidate other, alike candidate other → ∀ made,
      Corresponds change (copies + made) (number + made) (attempt candidate (copies + made))
        (attemptOther other (number + made))) :
    Corresponds change copies number (listEach attempt candidates copies)
      (listEach attemptOther others number) := by
  induction pairs generalizing copies number with
  | nil => exact .nothing 0
  | cons first _ ih =>
    have here := each _ _ first 0
    simp only [Nat.add_zero] at here
    rw [listEach, listEach]
    apply here.andThen
    intro made
    apply ih
    intro candidate other same more
    rw [Nat.add_assoc, Nat.add_assoc]
    exact each candidate other same (made + more)

/-- A branch of one search and a branch of the other: the names lead from what is in use in one to
what is in use in the other. -/
structure Parallel (database : Database) (change : String → String) (copies number : Nat)
    (names : String → String) (goals : List Predicate) (env other : Env) : Prop where
  naming : Naming change copies number names
  renames : env.Renames names other
  acyclic : env.Acyclic
  unclaimed : Unclaimed database env goals copies

section

variable {database : Database} {goal : Predicate} {rest : List Predicate} {env other : Env}

theorem Parallel.later {goals : List Predicate}
    (parallel : Parallel database change copies number names goals env other) (made : Nat) :
    Parallel database change (copies + made) (number + made) names goals env other where
  naming := parallel.naming.later made
  renames := parallel.renames
  acyclic := parallel.acyclic
  unclaimed := parallel.unclaimed.mono (Nat.le_add_right copies made)

theorem corresponds_listFact {goOn goOnOther : Env → Nat → Listing} {fact : Predicate}
    (parallel : Parallel database change copies number names (goal :: rest) env other)
    (unmarked : fact.IsUnmarked)
    (later : ∀ env other, Parallel database change copies number names rest env other →
      Corresponds change copies number (goOn env copies) (goOnOther other number)) :
    Corresponds change copies number (listFact goOn env goal fact copies)
      (listFact goOnOther other (goal.rename names) (fact.rename change) number) := by
  have unified := parallel.renames.unifiedPredicates parallel.naming.apart goal fact
  rw [parallel.naming.rename_eq unmarked]
  unfold listFact
  generalize met : env.unifiedPredicates? goal fact = result at unified
  generalize other.unifiedPredicates? (goal.rename names) (fact.rename names) = resultOther at unified
  cases unified with
  | none => exact .nothing 0
  | some renames =>
    have acyclic := Env.acyclic_of_unifiedPredicates parallel.acyclic met
    have unclaimed := parallel.unclaimed.unified parallel.acyclic (unmarked.isBelow copies) met
    exact later _ _ ⟨parallel.naming, renames, acyclic, unclaimed⟩

theorem corresponds_listRule {limits : Limits} {expansions : Nat}
    {expand expandOther : List Predicate → Env → Nat → Listing} {rule renamed : Rule}
    (parallel : Parallel database change copies number names (goal :: rest) env other)
    (renames : rule.Renames renamed)
    (later : ∀ goals env other copies number names,
      Parallel database change copies number names goals env other →
        Corresponds change copies number (expand goals env copies)
          (expandOther (goals.map (Predicate.rename names)) other number)) :
    Corresponds change copies number
      (listRule limits expansions (fun goals => expand (goals ++ rest)) env goal rule copies)
      (listRule limits expansions
        (fun goals => expandOther (goals ++ rest.map (Predicate.rename names))) other
        (goal.rename names) renamed number) := by
  obtain ⟨further, naming, onHead, onGoals, unchanged⟩ := parallel.naming.exists_copied renames
  -- What is in use has no variable of the copy, so it does not matter which names are taken for it.
  have onUse : ∀ p : Predicate, p.IsBelow copies → p.rename names = p.rename further :=
    fun p below => Predicate.rename_congr fun x occurs => unchanged x (below.occurrences x occurs)
  have onRest : rest.map (Predicate.rename names) = rest.map (Predicate.rename further) :=
    List.map_congr_left fun p member =>
      onUse p (parallel.unclaimed.goals p (List.mem_cons_of_mem _ member))
  have onEnv : env.Renames further other := parallel.renames.congr <|
    parallel.unclaimed.env.imp fun term below x occurs => unchanged x (below x occurs)
  have unified := onEnv.unifiedPredicates naming.apart goal (rule.copiedHead (copies + 1))
  simp only [listRule]
  rw [onHead, onGoals, onRest, onUse goal (parallel.unclaimed.goals goal List.mem_cons_self)]
  generalize met : env.unifiedPredicates? goal (rule.copiedHead (copies + 1)) = result at unified
  generalize other.unifiedPredicates? _ _ = resultOther at unified
  cases unified with
  | none => exact .nothing 1
  | some renames =>
    cases limits.reached expansions with
    | some limit => exact ⟨rfl, ⟨1, rfl, rfl⟩, .nil⟩
    | none =>
      have acyclic := Env.acyclic_of_unifiedPredicates parallel.acyclic met
      have unclaimed := parallel.unclaimed.opened parallel.acyclic met
      rw [← List.map_append]
      exact (later _ _ _ _ _ _ ⟨naming, renames, acyclic, unclaimed⟩).after 1

/-- Databases that two searches can go through side by side. -/
structure Comparable (change : String → String) (database other : Database) : Prop where
  renames : database.Renames change other
  indexed : database.Indexed
  indexedOther : other.Indexed
  unmarked : ∀ fact ∈ database.facts, fact.IsUnmarked

theorem Comparable.factsOf {databaseOther : Database}
    (comparable : Comparable change database databaseOther) (signature : Signature) :
    List.Forall₂ (fun fact renamed => fact.IsUnmarked ∧ renamed = fact.rename change)
      (database.factsOf signature) (databaseOther.factsOf signature) := by
  have pairs := comparable.renames.factsOf comparable.indexed comparable.indexedOther signature
  rw [List.forall₂_and_left]
  refine ⟨?_, pairs⟩
  intro fact member
  obtain ⟨place, stored⟩ := exists_place_of_mem_factsOf member
  exact comparable.unmarked fact (Array.mem_of_getElem? stored)

variable {databaseOther : Database} {limits : Limits} {expansions : Nat}

theorem corresponds_listGoals {expand expandOther : List Predicate → Env → Nat → Listing}
    (comparable : Comparable change database databaseOther)
    (later : ∀ goals env other copies number names,
      Parallel database change copies number names goals env other →
        Corresponds change copies number (expand goals env copies)
          (expandOther (goals.map (Predicate.rename names)) other number))
    (goals : List Predicate) (env other : Env) (copies number : Nat) (names : String → String)
    (parallel : Parallel database change copies number names goals env other) :
    Corresponds change copies number
      (listGoals database limits expansions expand goals env copies)
      (listGoals databaseOther limits expansions expandOther (goals.map (Predicate.rename names))
        other number) := by
  induction goals generalizing env other copies number with
  | nil =>
    have same : SameUpToNames change env other :=
      ⟨names, parallel.naming.apart, parallel.naming.extends_, parallel.renames⟩
    exact ⟨rfl, ⟨0, rfl, rfl⟩, .cons same .nil⟩
  | cons goal rest ih =>
    rw [List.map_cons, listGoals, listGoals, Predicate.signature_rename]
    apply Corresponds.andThen
    · apply corresponds_listEach (comparable.factsOf goal.signature)
      rintro fact _ ⟨unmarked, rfl⟩ made
      exact corresponds_listFact (parallel.later made) unmarked fun env other => ih env other _ _
    · intro made
      apply corresponds_listEach
        (comparable.renames.rulesOf comparable.indexed comparable.indexedOther goal.signature)
      intro rule renamed renames more
      exact corresponds_listRule ((parallel.later made).later more) renames later

theorem corresponds_listing (comparable : Comparable change database databaseOther)
    (limits : Limits) (fuel expansions : Nat) (goals : List Predicate) (env other : Env)
    (copies number : Nat) (names : String → String)
    (parallel : Parallel database change copies number names goals env other) :
    Corresponds change copies number
      (listing database limits fuel expansions goals env copies)
      (listing databaseOther limits fuel expansions (goals.map (Predicate.rename names)) other
        number) := by
  induction fuel generalizing expansions goals env other copies number names with
  | zero =>
    apply corresponds_listGoals comparable _ goals env other copies number names parallel
    exact fun _ _ _ _ _ _ _ => ⟨rfl, ⟨0, rfl, rfl⟩, .nil⟩
  | succ fuel ih =>
    exact corresponds_listGoals comparable (ih (expansions + 1)) goals env other copies number names
      parallel

end

theorem Search.collect_none (s : Search) (goals : List Predicate) (env : Env) :
    s.collect none goals env = ((s.listing goals env).ending, (s.listing goals env).envs,
      { s with copies := (s.listing goals env).copies }) := by
  simp [collect, each_eq, Listing.showTo, showFound_collector_none, Listing.envs]

/-- Other names for the variables of facts, goals and environment, names of its own for each rule, and
another number of copies to start from: a search ends as before with the same limit and the same fuel,
and its environments are the same in the same order, with the bindings of each in the same order, under
names that keep apart what was apart and extend the given names. -/
theorem collect_renamed (database renamed : Database) (limits : Limits) (copies number : Nat)
    (change : String → String) (goals : List Predicate) (env other : Env)
    (apart : Set.InjOn change {x | isReserved x = false})
    (free : ∀ x, isReserved x = false → isReserved (change x) = false)
    (built : database.Built) (builtOther : renamed.Built) (reachable : env.Reachable)
    (unmarkedFacts : ∀ fact ∈ database.facts, fact.IsUnmarked)
    (unmarkedEnv : env.Every Term.IsUnmarked) (unmarkedGoals : ∀ goal ∈ goals, goal.IsUnmarked)
    (clauses : database.Renames change renamed) (bindings : env.Renames change other) :
    let run := Search.collect ⟨database, limits, copies⟩ none goals env
    let runOther := Search.collect ⟨renamed, limits, number⟩ none
      (goals.map (Predicate.rename change)) other
    runOther.1 = run.1 ∧ List.Forall₂ (SameUpToNames change) run.2.1 runOther.2.1 := by
  intro run runOther
  have naming := naming_shiftedNames apart free copies number
  have comparable : Comparable change database renamed :=
    ⟨clauses, built.indexed, builtOther.indexed, unmarkedFacts⟩
  have unclaimed := Unclaimed.of_unmarked unmarkedFacts unmarkedEnv unmarkedGoals copies
  have renames : env.Renames (shiftedNames change copies number) other := bindings.congr <|
    unmarkedEnv.imp fun _ unmarked x occurs => (naming.extends_ x (unmarked x occurs)).symm
  have onGoals : goals.map (Predicate.rename change) =
      goals.map (Predicate.rename (shiftedNames change copies number)) :=
    List.map_congr_left fun goal member => naming.rename_eq (unmarkedGoals goal member)
  have corresponds := corresponds_listing comparable limits limits.fuel 0 goals env other copies
    number _ ⟨naming, renames, reachable.acyclic, unclaimed⟩
  rw [← onGoals] at corresponds
  simp only [run, runOther, Search.collect_none]
  exact ⟨corresponds.ending, corresponds.envs⟩

namespace Streets

def renewed (name : String) : String :=
  "New" ++ name

/-- The streets, with other variables in the rules, in one of them two that have changed places. -/
def renewedDatabase : Database :=
  let a := Term.var "A"
  let x := Term.var "X"
  let y := Term.var "Y"
  let direct : Rule := ⟨way a y, (street a y).toTerm, [street a y]⟩
  let further : Rule :=
    ⟨way y a, .conj (street y x).toTerm (way x a).toTerm, [street y x, way x a]⟩
  let facts := (Database.empty.addFact (street (.atom "a") (.atom "b"))).addFact
    (street (.atom "b") (.atom "c"))
  (facts.addRule direct).addRule further

theorem injective_renewed : Function.Injective renewed := by
  intro x y same
  have chars := congrArg String.toList same
  rw [renewed, renewed, String.toList_append, String.toList_append] at chars
  exact String.toList_inj.mp (List.append_cancel_left chars)

theorem isReserved_renewed {name : String} (free : isReserved name = false) :
    isReserved (renewed name) = false := by
  rw [isReserved] at free
  rw [isReserved, renewed, String.toList_append, List.contains_append, free]
  rfl

theorem renames_renewedDatabase : database.Renames renewed renewedDatabase :=
  let own := Equiv.swap "X" "A"
  let others := (Equiv.swap "Z" "A").trans (Equiv.swap "X" "Y")
  ((((Database.Renames.empty renewed).addFact _).addFact _).addRule
    ⟨own, own.injective.injOn, by decide⟩).addRule ⟨others, others.injective.injOn, by decide⟩

/-- The environment in which the end of the way has a second name, with the new names. -/
def newlyNamed : Env :=
  ((∅ : Env).unify (.var "NewW") (.var "NewV")).2

end Streets

theorem collect_renamed_streets :
    let run := Search.collect ⟨Streets.database, .ofDepth 4, 0⟩ none [Streets.wayFromA]
      Streets.named
    let runOther := Search.collect ⟨Streets.renewedDatabase, .ofDepth 4, 7⟩ none
      ([Streets.wayFromA].map (Predicate.rename Streets.renewed)) Streets.newlyNamed
    run.2.1.length = 2 ∧ runOther.1 = run.1 ∧
      List.Forall₂ (SameUpToNames Streets.renewed) run.2.1 runOther.2.1 := by
  intro run runOther
  have builtOther : Streets.renewedDatabase.Built := .rule (.rule (.fact (.fact .empty _) _) _) _
  have bindings : Streets.named.Renames Streets.renewed Streets.newlyNamed := by decide
  have corresponds := collect_renamed Streets.database Streets.renewedDatabase (.ofDepth 4) 0 7
    Streets.renewed [Streets.wayFromA] Streets.named Streets.newlyNamed
    Streets.injective_renewed.injOn (fun _ free => Streets.isReserved_renewed free)
    Streets.built_database builtOther Streets.reachable_named (by decide) (by decide) (by decide)
    Streets.renames_renewedDatabase bindings
  exact ⟨by rfl, corresponds⟩

end Backchain
