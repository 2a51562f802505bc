import Mathlib.Data.List.Perm.Subperm
import Backchain.Proofs.Env.Substitution
import Backchain.Proofs.Term.Places

/-!
What one unification can touch.

A run binds a variable only where it has come to one, and it comes to nothing but what the two terms
stand for: the terms themselves, what is bound, and the parts of both. So the new bindings are for
variables that were left in the two terms, and bind them to parts of terms that were there before. While
the environment grows, what is left in such terms stays among the variables that were left in the two
at the start, which is the invariant of the run.
-/
set_option autoImplicit false

namespace Backchain

open Relation (ReflTransGen)

namespace Term

/-- A part of a term is the term itself or a term below it. -/
def PartOf (part term : Term) : Prop :=
  ReflTransGen (fun below above => below ∈ above.children) part term

end Term

namespace Env

variable {env middle later : Env}

/-! ## One more binding -/

/-- What is left in a term after one more binding: its variable is replaced wherever it was left. -/
theorem substitute_bind {x : String} {bound : Term} (acyclic : env.Acyclic)
    (unbound : env.find? x = none) (apart : env.occurs x bound = false) (term : Term) :
    (env.bind x bound).substitute term =
      (env.substitute term).bind fun y => if y = x then env.substitute bound else .var y := by
  have acyclicNext := acyclic_bind acyclic unbound apart
  have extends_ := extends_bind unbound bound
  have found := find?_bind env x bound
  have stays : (env.bind x bound).substitute (env.substitute bound) = env.substitute bound := by
    apply substitute_of_free
    intro y occurs
    have differs : y ≠ x := by
      rintro rfl
      rw [← occurs_iff, apart] at occurs
      cases occurs
    rw [found, if_neg differs]
    exact free_of_mem_substitute acyclic bound y occurs
  rw [← extends_.substitute_substitute acyclicNext term, substitute_eq_bind]
  apply Term.bind_congr
  intro y occurs
  by_cases same : y = x
  · subst same
    rw [if_pos rfl, value_of_bound acyclicNext ((found y).trans (if_pos rfl)), ← substitute_eq_bind,
      ← extends_.substitute_substitute acyclicNext bound, stays]
  · rw [if_neg same]
    apply value_of_free
    rw [found, if_neg same]
    exact free_of_mem_substitute acyclic term y occurs

/-- A variable that is left in a term is left as long as it is not bound. -/
theorem Extends.mem_substitute (extends_ : later.Extends env) (acyclic : later.Acyclic) {x : String}
    {term : Term} (occurs : x ∈ (env.substitute term).occurrences) (free : later.find? x = none) :
    x ∈ (later.substitute term).occurrences := by
  rw [← extends_.substitute_substitute acyclic term, substitute_eq_bind, Term.mem_occurrences_bind]
  refine ⟨x, occurs, ?_⟩
  rw [value_of_free free]
  exact List.mem_singleton.mpr rfl

/-! ## Growing inside a frame -/

def EveryBound (ok : Term → Prop) (env : Env) : Prop :=
  ∀ x term, env.find? x = some term → ok term

/-- A term of some kind in which only some names are left. -/
def Fits (ok : Term → Prop) (names : List String) (env : Env) (term : Term) : Prop :=
  ok term ∧ (env.substitute term).occurrences ⊆ names

/-- The later environment adds bindings for some names only, to terms of some kind, and where only
these names were left there are no others left. -/
structure Adds (ok : Term → Prop) (names : List String) (env later : Env) : Prop where
  added : ∀ x term, later.find? x = some term → env.find? x = some term ∨ x ∈ names ∧ ok term
  closed : ∀ term, (env.substitute term).occurrences ⊆ names →
    (later.substitute term).occurrences ⊆ names

section

variable {ok : Term → Prop} {names : List String}

theorem Adds.refl (ok : Term → Prop) (names : List String) (env : Env) : Adds ok names env env where
  added _ _ bound := .inl bound
  closed _ inside := inside

theorem Adds.trans (first : Adds ok names env middle) (second : Adds ok names middle later) :
    Adds ok names env later where
  added x term bound := (second.added x term bound).elim (first.added x term) .inr
  closed term inside := second.closed term (first.closed term inside)

theorem Adds.fits (adds : Adds ok names env later) {term : Term} (fits : env.Fits ok names term) :
    later.Fits ok names term :=
  ⟨fits.1, adds.closed term fits.2⟩

theorem Adds.everyBound (adds : Adds ok names env later) (every : env.EveryBound ok) :
    later.EveryBound ok :=
  fun x term found => (adds.added x term found).elim (every x term) And.right

theorem adds_bind {x : String} {term : Term} (acyclic : env.Acyclic) (unbound : env.find? x = none)
    (apart : env.occurs x term = false) (named : x ∈ names) (fits : env.Fits ok names term) :
    Adds ok names env (env.bind x term) where
  added y bound found := by
    rw [find?_bind] at found
    by_cases same : y = x
    · rw [if_pos same, Option.some.injEq] at found
      rw [same, ← found]
      exact .inr ⟨named, fits.1⟩
    · rw [if_neg same] at found
      exact .inl found
  closed other inside := by
    intro y occurs
    rw [substitute_bind acyclic unbound apart, Term.mem_occurrences_bind] at occurs
    obtain ⟨z, before, after⟩ := occurs
    by_cases same : z = x
    · rw [if_pos same] at after
      exact fits.2 after
    · rw [if_neg same] at after
      obtain rfl := List.mem_singleton.mp after
      exact inside before

theorem fits_follow (acyclic : env.Acyclic) (every : env.EveryBound ok) {term : Term}
    (fits : env.Fits ok names term) : env.Fits ok names (env.follow term) := by
  constructor
  · rcases env.follow_origin term with same | ⟨x, y, -, -, found⟩
    · rw [same]
      exact fits.1
    · exact every y _ found
  · rw [substitute_follow acyclic]
    exact fits.2

theorem fits_args (hereditary : Hereditary ok) {name : String} {args : List Term}
    (fits : env.Fits ok names (.compound name args)) : ∀ arg ∈ args, env.Fits ok names arg := by
  intro arg member
  refine ⟨hereditary name args fits.1 arg member, fun x occurs => fits.2 ?_⟩
  rw [substitute_compound]
  exact Term.mem_occurrences_compound (List.mem_map_of_mem member) occurs

theorem mem_of_fits_var {x : String} (fits : env.Fits ok names (.var x))
    (free : env.find? x = none) : x ∈ names := by
  apply fits.2
  rw [substitute_var free]
  exact List.mem_singleton.mpr rfl

/-- Where two terms that fit are descended into, the arguments fit. -/
theorem fits_descend {left right : Term} {args others : List Term} (hereditary : Hereditary ok)
    (acyclic : env.Acyclic) (every : env.EveryBound ok)
    (asked : compareRoots (env.follow left) (env.follow right) = .descend args others)
    (fitsLeft : env.Fits ok names left) (fitsRight : env.Fits ok names right) :
    (∀ arg ∈ args, env.Fits ok names arg) ∧ ∀ other ∈ others, env.Fits ok names other := by
  obtain ⟨name, rootLeft, rootRight, -⟩ := descend_of_compareRoots asked
  constructor
  · exact fits_args hereditary (rootLeft ▸ fits_follow acyclic every fitsLeft)
  · exact fits_args hereditary (rootRight ▸ fits_follow acyclic every fitsRight)

theorem Adds.fits_tail (adds : Adds ok names env later) {term : Term} {terms : List Term}
    (fits : ∀ other ∈ term :: terms, env.Fits ok names other) :
    ∀ other ∈ terms, later.Fits ok names other :=
  fun other member => adds.fits (fits other (List.mem_cons_of_mem term member))

/-- A run on terms that fit adds what fits, whether it succeeds or fails: it comes to bound terms and
to arguments, and these fit too. -/
theorem Meets.adds {lefts rights : List Term} {result : Bool × Env}
    (run : Meets env lefts rights result) (hereditary : Hereditary ok) (acyclic : env.Acyclic)
    (every : env.EveryBound ok) (fitsLefts : ∀ term ∈ lefts, env.Fits ok names term)
    (fitsRights : ∀ term ∈ rights, env.Fits ok names term) : Adds ok names env result.2 := by
  induction run with
  | nil env => exact .refl ok names env
  | agree _ _ ih =>
    exact ih acyclic every (List.forall_mem_of_forall_mem_cons fitsLefts)
      (List.forall_mem_of_forall_mem_cons fitsRights)
  | @bind env left right _ _ _ name term asked apart _ ih =>
    have unbound := unbound_of_compareRoots acyclic asked
    have fitsLeft := fits_follow acyclic every (fitsLefts left List.mem_cons_self)
    have fitsRight := fits_follow acyclic every (fitsRights right List.mem_cons_self)
    have fits : env.Fits ok names (.var name) ∧ env.Fits ok names term := by
      rcases (bind_of_compareRoots asked).1 with ⟨root, other⟩ | ⟨root, other⟩
      · exact ⟨root ▸ fitsLeft, other ▸ fitsRight⟩
      · exact ⟨root ▸ fitsRight, other ▸ fitsLeft⟩
    have step := adds_bind acyclic unbound apart (mem_of_fits_var fits.1 unbound) fits.2
    exact step.trans (ih (acyclic_bind acyclic unbound apart) (step.everyBound every)
      (step.fits_tail fitsLefts) (step.fits_tail fitsRights))
  | @cyclic env => exact .refl ok names env
  | @descend env _ left right _ _ _ args others asked within _ ihWithin ihLater =>
    obtain ⟨fitsArgs, fitsOthers⟩ := fits_descend hereditary acyclic every asked
      (fitsLefts left List.mem_cons_self) (fitsRights right List.mem_cons_self)
    have inner := ihWithin acyclic every fitsArgs fitsOthers
    exact inner.trans (ihLater (within.acyclic acyclic) (inner.everyBound every)
      (inner.fits_tail fitsLefts) (inner.fits_tail fitsRights))
  | @fail env _ left right _ _ args others asked _ ih =>
    obtain ⟨fitsArgs, fitsOthers⟩ := fits_descend hereditary acyclic every asked
      (fitsLefts left List.mem_cons_self) (fitsRights right List.mem_cons_self)
    exact ih acyclic every fitsArgs fitsOthers
  | @clash env => exact .refl ok names env

end

/-! ## The bindings that are added -/

/-- The variables that are left in either of two terms, from left to right. -/
def remaining (env : Env) (left right : Term) : List String :=
  (env.substitute left).occurrences ++ (env.substitute right).occurrences

/-- A part of one of two terms or of a term that is bound. -/
def PartAtHand (env : Env) (left right part : Term) : Prop :=
  part.PartOf left ∨ part.PartOf right ∨ ∃ x term, env.find? x = some term ∧ part.PartOf term

theorem hereditary_partAtHand (env : Env) (left right : Term) :
    Hereditary (env.PartAtHand left right) := by
  intro name args part arg member
  have below : arg ∈ (Term.compound name args).children := member
  rcases part with inLeft | inRight | ⟨x, term, bound, inBound⟩
  · exact .inl (.head below inLeft)
  · exact .inr (.inl (.head below inRight))
  · exact .inr (.inr ⟨x, term, bound, .head below inBound⟩)

variable {left right : Term} {added : List (String × Term)}

theorem adds_of_unify (acyclic : env.Acyclic) (unified : env.unify left right = (true, later)) :
    Adds (env.PartAtHand left right) (env.remaining left right) env later := by
  have every : env.EveryBound (env.PartAtHand left right) :=
    fun x term found => .inr (.inr ⟨x, term, found, .refl⟩)
  apply (meets_of_unify acyclic unified).adds (hereditary_partAtHand env left right) acyclic every
  · exact List.forall_mem_singleton.mpr ⟨.inl .refl, List.subset_append_left _ _⟩
  · exact List.forall_mem_singleton.mpr ⟨.inr (.inl .refl), List.subset_append_right _ _⟩

theorem find?_of_added (whole : later.toList = env.toList ++ added) {x : String} {term : Term}
    (member : (x, term) ∈ added) : later.find? x = some term ∧ env.find? x = none := by
  constructor
  · rw [← mem_toList_iff, whole]
    exact List.mem_append_right _ member
  · have once := later.nodup_names
    rw [whole, List.map_append, List.nodup_append] at once
    rw [find?_eq_lookup, lookup_eq_none_iff]
    exact fun before => once.2.2 x before x (List.mem_map_of_mem (f := Prod.fst) member) rfl

theorem find?_eq_none_iff_of_added (whole : later.toList = env.toList ++ added) (x : String) :
    later.find? x = none ↔ env.find? x = none ∧ x ∉ added.map Prod.fst := by
  rw [find?_eq_lookup, find?_eq_lookup, whole, lookup_append, Option.or_eq_none_iff,
    lookup_eq_none_iff, lookup_eq_none_iff]

/-- What is left in the two terms, now one, is what was left in either and is not bound now. -/
theorem mem_substitute_iff_of_added (acyclic : env.Acyclic)
    (unified : env.unify left right = (true, later)) (whole : later.toList = env.toList ++ added)
    (x : String) : x ∈ (later.substitute left).occurrences ↔
      x ∈ env.remaining left right ∧ x ∉ added.map Prod.fst := by
  have run := meets_of_unify acyclic unified
  have acyclicLater := run.acyclic acyclic
  constructor
  · intro occurs
    have free := free_of_mem_substitute acyclicLater left x occurs
    have inside := (adds_of_unify acyclic unified).closed left (List.subset_append_left _ _) occurs
    exact ⟨inside, ((find?_eq_none_iff_of_added whole x).mp free).2⟩
  · rintro ⟨inside, unadded⟩
    rcases List.mem_append.mp inside with inLeft | inRight
    · have free := free_of_mem_substitute acyclic left x inLeft
      exact (run.extends acyclic).mem_substitute acyclicLater inLeft
        ((find?_eq_none_iff_of_added whole x).mpr ⟨free, unadded⟩)
    · have free := free_of_mem_substitute acyclic right x inRight
      -- Both terms stand for the same by now, so what is left in one is left in the other.
      rw [substitute_eq_of_unify acyclic unified]
      exact (run.extends acyclic).mem_substitute acyclicLater inRight
        ((find?_eq_none_iff_of_added whole x).mpr ⟨free, unadded⟩)

/-- From every environment that the operations make, a success adds bindings for unbound variables that
were left in the two terms, to parts of these terms or of bound ones. What is left in the terms
afterwards is what was left in either before, without the variables that were bound, and so there are
at most as many new bindings as there were different variables left. -/
theorem unify_relevant (env : Env) (reachable : env.Reachable) (left right : Term) (next : Env)
    (unified : env.unify left right = (true, next)) :
    ∃ added, next.toList = env.toList ++ added ∧
      (∀ x term, (x, term) ∈ added →
        (env.find? x = none ∧
          (x ∈ (env.substitute left).occurrences ∨ x ∈ (env.substitute right).occurrences)) ∧
        (term.PartOf left ∨ term.PartOf right ∨
          ∃ y bound, env.find? y = some bound ∧ term.PartOf bound)) ∧
      (∀ x, x ∈ (next.substitute left).occurrences ↔
        (x ∈ (env.substitute left).occurrences ∨ x ∈ (env.substitute right).occurrences) ∧
          x ∉ added.map Prod.fst) ∧
      added.length ≤
        ((env.substitute left).occurrences ++ (env.substitute right).occurrences).eraseDups.length := by
  have acyclic := reachable.acyclic
  have adds := adds_of_unify acyclic unified
  obtain ⟨added, same⟩ := (meets_of_unify acyclic unified).extends acyclic
  have whole : next.toList = env.toList ++ added := same.symm
  have each : ∀ x term, (x, term) ∈ added →
      env.find? x = none ∧ x ∈ env.remaining left right ∧ env.PartAtHand left right term := by
    intro x term member
    obtain ⟨bound, unbound⟩ := find?_of_added whole member
    rcases adds.added x term bound with before | ⟨named, part⟩
    · rw [unbound] at before
      cases before
    · exact ⟨unbound, named, part⟩
  refine ⟨added, whole, ?_, ?_, ?_⟩
  · intro x term member
    obtain ⟨unbound, named, part⟩ := each x term member
    exact ⟨⟨unbound, List.mem_append.mp named⟩, part⟩
  · intro x
    rw [← List.mem_append]
    exact mem_substitute_iff_of_added acyclic unified whole x
  · have once := next.nodup_names
    rw [whole, List.map_append, List.nodup_append] at once
    have named : added.map Prod.fst ⊆ (env.remaining left right).eraseDups := by
      intro x member
      obtain ⟨⟨_, term⟩, binding, rfl⟩ := List.mem_map.mp member
      exact List.mem_eraseDups.mpr (each _ term binding).2.1
    have fewer := (List.subperm_of_subset once.2.1 named).length_le
    rwa [List.length_map] at fewer

/-- Of four variables that are left in two terms one stays, and one of the others is bound to a term
that was bound before. -/
theorem unify_relevant_chained :
    let f := fun left right => Term.compound "f" [left, right]
    let g := fun term => Term.compound "g" [term]
    let left := f (.var "X") (.var "W")
    let right := f (f (.var "V") (.var "U")) (g (.var "X"))
    let next := (chained.unify left right).2
    ∃ added, next.toList = chained.toList ++ added ∧
      added = [("V", .atom "a"), ("Z", .var "U"), ("W", g (.var "X"))] ∧
      ((Term.atom "a").PartOf left ∨ (Term.atom "a").PartOf right ∨
        ∃ y bound, chained.find? y = some bound ∧ (Term.atom "a").PartOf bound) ∧
      (∀ x, x ∈ (next.substitute left).occurrences ↔
        (x ∈ ["Z", "W"] ∨ x ∈ ["V", "U", "Z"]) ∧ x ∉ ["V", "Z", "W"]) ∧
      added.length ≤ 4 := by
  intro f g left right next
  obtain ⟨added, whole, each, kept, fewer⟩ :=
    unify_relevant chained reachable_chained left right next rfl
  have made : next.toList = chained.toList ++
      [("V", .atom "a"), ("Z", .var "U"), ("W", g (.var "X"))] := by decide +kernel
  obtain rfl := List.append_cancel_left (whole.symm.trans made)
  exact ⟨_, whole, rfl, (each "V" (.atom "a") List.mem_cons_self).2, kept, fewer⟩

end Env

end Backchain
