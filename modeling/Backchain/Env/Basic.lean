import Std.Data.ExtTreeMap
import Backchain.Term.Variables

/-!
Environments: the bindings of one branch of a search, in the order they were made.

`toList` is the view: `bind` adds an unbound name at the end and overwrites the term of a bound one
where it stands, and `undoTo` keeps an initial part. As long as nothing is overwritten, the number of
bindings marks a point in the history and going back to a mark drops what came later. The index makes
lookups fast and the weight bounds work on the bound terms; both are determined by the bindings, so
two environments with the same bindings in the same order are equal.
-/
set_option autoImplicit false

namespace Backchain

/-- What a binding adds to the weight of an environment: one for its name, and the size of its
term. -/
def entryWeight (entry : String × Term) : Nat :=
  entry.2.size + 1

/-- The weight of some bindings. -/
def weightOf : List (String × Term) → Nat
  | [] => 0
  | entry :: entries => entryWeight entry + weightOf entries

theorem weightOf_append (first second : List (String × Term)) :
    weightOf (first ++ second) = weightOf first + weightOf second := by
  induction first with
  | nil => simp [weightOf]
  | cons entry first ih =>
    simp only [List.cons_append, weightOf, ih]
    omega

structure Env where
  entries : Array (String × Term)
  index : Std.ExtTreeMap String Term
  weight : Nat
  index_agrees : ∀ name, index[name]? = entries.toList.lookup name
  once : (entries.toList.map Prod.fst).Nodup
  weight_eq : weight = weightOf entries.toList

namespace Env

/-- The bindings from the oldest to the newest. -/
def toList (env : Env) : List (String × Term) :=
  env.entries.toList

def size (env : Env) : Nat :=
  env.entries.size

def isEmpty (env : Env) : Bool :=
  env.entries.isEmpty

/-- The term that a name is bound to. -/
def find? (env : Env) (name : String) : Option Term :=
  env.index[name]?

def contains (env : Env) (name : String) : Bool :=
  (env.find? name).isSome

theorem find?_eq_lookup (env : Env) (name : String) : env.find? name = env.toList.lookup name :=
  env.index_agrees name

theorem length_toList (env : Env) : env.toList.length = env.size := by
  simp [toList, size]

theorem nodup_names (env : Env) : (env.toList.map Prod.fst).Nodup :=
  env.once

@[ext]
theorem ext {first second : Env} (same : first.toList = second.toList) : first = second := by
  obtain ⟨entries, index, weight, agrees, once, sum⟩ := first
  obtain ⟨others, table, mass, agreed, _, total⟩ := second
  obtain rfl : entries = others := Array.ext' same
  obtain rfl : weight = mass := sum.trans total.symm
  obtain rfl : index = table :=
    Std.ExtTreeMap.ext_getElem? fun name => by rw [agrees, agreed]
  rfl

instance : DecidableEq Env := fun first second =>
  decidable_of_iff (first.toList = second.toList) ⟨ext, fun same => same ▸ rfl⟩

/-- The environment without bindings. -/
def empty : Env where
  entries := #[]
  index := ∅
  weight := 0
  index_agrees name := by simp
  once := by simp
  weight_eq := rfl

instance : EmptyCollection Env :=
  ⟨empty⟩

instance : Inhabited Env :=
  ⟨empty⟩

@[simp]
theorem toList_empty : (∅ : Env).toList = [] :=
  rfl

theorem lookup_cons_eq (name other : String) (term : Term) (entries : List (String × Term)) :
    ((other, term) :: entries).lookup name =
      if name = other then some term else entries.lookup name := by
  by_cases same : name = other
  · simp [same]
  · rw [List.lookup_cons, beq_false_of_ne same, if_neg same]

theorem lookup_eq_none_iff {name : String} {entries : List (String × Term)} :
    entries.lookup name = none ↔ name ∉ entries.map Prod.fst := by
  induction entries with
  | nil => simp
  | cons entry entries ih =>
    obtain ⟨other, term⟩ := entry
    rw [lookup_cons_eq]
    by_cases same : name = other
    · simp [same]
    · rw [if_neg same, ih, List.map_cons, List.mem_cons]
      simp [same]

theorem lookup_append (name : String) (first second : List (String × Term)) :
    (first ++ second).lookup name = (first.lookup name).or (second.lookup name) := by
  induction first with
  | nil => simp
  | cons entry first ih =>
    obtain ⟨other, term⟩ := entry
    rw [List.cons_append, lookup_cons_eq, lookup_cons_eq, ih]
    by_cases same : name = other <;> simp [same]

/-- Adds a binding for an unbound name. -/
def push (env : Env) (name : String) (term : Term) (unbound : env.find? name = none) : Env :=
  have absent : env.entries.toList.lookup name = none := (env.index_agrees name).symm.trans unbound
  { entries := env.entries.push (name, term)
    index := env.index.insert name term
    weight := env.weight + entryWeight (name, term)
    index_agrees := fun other => by
      rw [Std.ExtTreeMap.getElem?_insert, Array.toList_push, lookup_append, lookup_cons_eq]
      by_cases same : name = other
      · subst same
        simp [absent]
      · have apart : ¬ other = name := fun equal => same equal.symm
        simp [same, apart, env.index_agrees other]
    once := by
      rw [Array.toList_push, List.map_append, List.nodup_append]
      refine ⟨env.once, by simp, ?_⟩
      intro other member last final same
      simp only [List.map_cons, List.map_nil, List.mem_singleton] at final
      exact lookup_eq_none_iff.mp absent (final ▸ same ▸ member)
    weight_eq := by simp [env.weight_eq, weightOf_append, weightOf] }

/-- Gives one name another term in a binding of that name. -/
def overwrite (name : String) (term : Term) (entry : String × Term) : String × Term :=
  if entry.1 = name then (name, term) else entry

theorem fst_overwrite (name : String) (term : Term) (entry : String × Term) :
    (overwrite name term entry).1 = entry.1 := by
  unfold overwrite
  split
  next same => exact same.symm
  next => rfl

theorem names_map_overwrite (name : String) (term : Term) (entries : List (String × Term)) :
    (entries.map (overwrite name term)).map Prod.fst = entries.map Prod.fst := by
  rw [List.map_map]
  exact List.map_congr_left fun entry _ => fst_overwrite name term entry

theorem lookup_map_overwrite (name other : String) (term : Term) (entries : List (String × Term)) :
    (entries.map (overwrite name term)).lookup other =
      if other = name then (entries.lookup name).map fun _ => term else entries.lookup other := by
  induction entries with
  | nil => simp
  | cons entry entries ih =>
    obtain ⟨first, bound⟩ := entry
    by_cases here : first = name
    · subst here
      rw [List.map_cons, overwrite, if_pos rfl, lookup_cons_eq, lookup_cons_eq, lookup_cons_eq, ih]
      by_cases same : other = first <;> simp [same]
    · rw [List.map_cons, overwrite, if_neg here, lookup_cons_eq, lookup_cons_eq, lookup_cons_eq, ih]
      have apart : ¬ name = first := fun equal => here equal.symm
      by_cases same : other = name
      · simp [same, apart]
      · simp [same]

/-- Gives a bound name another term, in its old place. -/
def replace (env : Env) (name : String) (term : Term) (bound : env.find? name ≠ none) : Env where
  entries := env.entries.map (overwrite name term)
  index := env.index.insert name term
  weight := weightOf (env.entries.map (overwrite name term)).toList
  index_agrees other := by
    have present : env.entries.toList.lookup name ≠ none := env.index_agrees name ▸ bound
    obtain ⟨old, found⟩ := Option.ne_none_iff_exists'.mp present
    rw [Std.ExtTreeMap.getElem?_insert, Array.toList_map, lookup_map_overwrite, found]
    by_cases same : name = other
    · simp [same]
    · have apart : ¬ other = name := fun equal => same equal.symm
      simp [same, apart, env.index_agrees other]
  once := by
    rw [Array.toList_map, names_map_overwrite]
    exact env.once
  weight_eq := rfl

/-- Binds a name: a new binding at the end for an unbound name, and for a bound name another term in
its old place. -/
def bind (env : Env) (name : String) (term : Term) : Env :=
  if unbound : env.find? name = none then env.push name term unbound
  else env.replace name term unbound

theorem toList_bind {env : Env} {name : String} (unbound : env.find? name = none) (term : Term) :
    (env.bind name term).toList = env.toList ++ [(name, term)] := by
  simp [bind, unbound, push, toList]

theorem toList_bind_of_bound {env : Env} {name : String} (bound : env.find? name ≠ none)
    (term : Term) : (env.bind name term).toList = env.toList.map (overwrite name term) := by
  simp [bind, bound, replace, toList]

example : ((((∅ : Env).bind "X" (.atom "a")).bind "Y" (.var "X")).bind "X" (.atom "b")).toList =
    [("X", .atom "b"), ("Y", .var "X")] := by
  decide +kernel

theorem find?_bind (env : Env) (name : String) (term : Term) (other : String) :
    (env.bind name term).find? other = if other = name then some term else env.find? other := by
  by_cases unbound : env.find? name = none
  · rw [find?_eq_lookup, toList_bind unbound, lookup_append, lookup_cons_eq, ← find?_eq_lookup]
    by_cases same : other = name
    · subst same
      simp [unbound]
    · simp [same]
  · obtain ⟨old, found⟩ := Option.ne_none_iff_exists'.mp unbound
    rw [find?_eq_lookup] at found
    rw [find?_eq_lookup, toList_bind_of_bound unbound, lookup_map_overwrite, found, Option.map_some,
      find?_eq_lookup]

/-- Drops the newest binding. -/
def pop (env : Env) : Env :=
  match newest : env.entries.back? with
  | none => env
  | some (name, term) =>
    have split : env.entries.toList = env.entries.pop.toList ++ [(name, term)] := by
      obtain ⟨before, whole⟩ := Array.back?_eq_some_iff.mp newest
      simp [whole]
    have names : ((env.entries.pop.toList ++ [(name, term)]).map Prod.fst).Nodup :=
      split ▸ env.once
    { entries := env.entries.pop
      index := env.index.erase name
      weight := env.weight - entryWeight (name, term)
      index_agrees := fun other => by
        rw [List.map_append, List.nodup_append] at names
        have agrees := env.index_agrees other
        rw [split, lookup_append, lookup_cons_eq] at agrees
        rw [Std.ExtTreeMap.getElem?_erase]
        by_cases same : name = other
        · subst same
          have absent : env.entries.pop.toList.lookup name = none :=
            lookup_eq_none_iff.mpr fun member => names.2.2 name member name (by simp) rfl
          simpa using absent.symm
        · have apart : ¬ other = name := fun equal => same equal.symm
          rw [if_neg apart] at agrees
          simpa [same] using agrees
      once := by
        rw [List.map_append, List.nodup_append] at names
        exact names.1
      weight_eq := by
        rw [env.weight_eq, split]
        simp [weightOf_append, weightOf] }

theorem toList_pop (env : Env) : env.pop.toList = env.toList.dropLast := by
  unfold pop
  split
  next newest =>
    have none_left : env.entries = #[] := by simpa using newest
    simp [toList, none_left]
  next newest => simp [toList]

/-- Drops the given number of newest bindings. -/
def drop : Nat → Env → Env
  | 0, env => env
  | count + 1, env => drop count env.pop

/-- Goes back to the first `mark` bindings. -/
def undoTo (env : Env) (mark : Nat) : Env :=
  env.drop (env.size - mark)

theorem toList_drop (count : Nat) (env : Env) :
    (env.drop count).toList = env.toList.take (env.size - count) := by
  induction count generalizing env with
  | zero => simp [drop, ← length_toList]
  | succ count ih =>
    rw [drop, ih, toList_pop, ← length_toList, toList_pop, ← length_toList, List.length_dropLast,
      List.dropLast_eq_take, List.take_take]
    congr 1
    omega

theorem toList_undoTo (env : Env) (mark : Nat) :
    (env.undoTo mark).toList = env.toList.take mark := by
  rw [undoTo, toList_drop]
  by_cases within : mark ≤ env.size
  · congr 1
    omega
  · rw [List.take_of_length_le (by rw [length_toList]; omega),
      List.take_of_length_le (by rw [length_toList]; omega)]

end Env

end Backchain
