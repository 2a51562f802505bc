import Mathlib.Data.List.Range
import Backchain.Database

/-!
The index of the clause database.

A database is built by storing facts and rules, in any order. Storing keeps the index exact: the
places of a signature are the positions of the clauses with that signature, in ascending order. So a
database is two plain lists, of facts and of rules, and a lookup is a filter of one of them.
-/
set_option autoImplicit false

namespace Backchain

namespace Database

/-- The databases that storing facts and rules makes from the empty one. -/
inductive Built : Database → Prop where
  | empty : Built ∅
  | fact {database : Database} (before : Built database) (fact : Predicate) :
      Built (database.addFact fact)
  | rule {database : Database} (before : Built database) (rule : Rule) :
      Built (database.addRule rule)

/-- A property of the facts, of the heads of the rules and of the goals of the rules. -/
def Every (ok : Predicate → Prop) (database : Database) : Prop :=
  (∀ fact ∈ database.facts, ok fact) ∧
    ∀ rule ∈ database.rules, ok rule.head ∧ ∀ goal ∈ rule.goals, ok goal

instance (ok : Predicate → Prop) [DecidablePred ok] (database : Database) :
    Decidable (database.Every ok) :=
  inferInstanceAs (Decidable (_ ∧ _))

section

variable {α : Type} (key : α → Signature)

/-- The positions of the items with a signature, in ascending order. -/
def placesIn (items : Array α) (signature : Signature) : List Nat :=
  (List.range items.size).filter fun place =>
    items[place]?.any fun item => key item = signature

variable {key} {items : Array α} {signature : Signature}

theorem mem_placesIn {place : Nat} :
    place ∈ placesIn key items signature ↔
      ∃ item, items[place]? = some item ∧ key item = signature := by
  rw [placesIn, List.mem_filter, List.mem_range, Option.any_eq_true]
  simp only [decide_eq_true_eq]
  constructor
  · exact And.right
  · rintro ⟨item, stored, same⟩
    exact ⟨(Array.getElem?_eq_some_iff.mp stored).1, item, stored, same⟩

theorem pairwise_placesIn : (placesIn key items signature).Pairwise (· < ·) :=
  List.Pairwise.filter _ List.pairwise_lt_range

theorem placesIn_push (item : α) :
    placesIn key (items.push item) signature =
      placesIn key items signature ++ if key item = signature then [items.size] else [] := by
  have before : ∀ place ∈ List.range items.size,
      (items.push item)[place]?.any (fun item => decide (key item = signature)) =
        items[place]?.any fun item => decide (key item = signature) := by
    intro place member
    rw [Array.getElem?_push, if_neg (Nat.ne_of_lt (List.mem_range.mp member))]
  rw [placesIn, Array.size_push, List.range_succ, List.filter_append, List.filter_congr before,
    placesIn]
  congr 1
  by_cases same : key item = signature <;> simp [same]

/-- Looking up the places of a signature gives the items with that signature, in order. -/
theorem lookup_placesIn (items : List α) (signature : Signature) :
    (placesIn key items.toArray signature).filterMap (fun place => items[place]?) =
      items.filter fun item => key item = signature := by
  induction items using List.reverseRecOn with
  | nil => rfl
  | append_singleton items item ih =>
    have kept : ∀ place ∈ placesIn key items.toArray signature,
        (items ++ [item])[place]? = items[place]? := by
      intro place member
      obtain ⟨_, stored, -⟩ := mem_placesIn.mp member
      rw [List.getElem?_toArray] at stored
      exact List.getElem?_append_left (List.getElem?_eq_some_iff.mp stored).1
    rw [← List.push_toArray, placesIn_push, List.filterMap_append, List.filterMap_congr kept, ih,
      List.filter_append]
    congr 1
    by_cases same : key item = signature <;> simp [same]

end

structure Indexed (database : Database) : Prop where
  facts : ∀ signature, (database.placesOf signature).facts.toList =
    placesIn Predicate.signature database.facts signature
  rules : ∀ signature, (database.placesOf signature).rules.toList =
    placesIn (fun rule => rule.head.signature) database.rules signature

theorem getD_insert_places (places : Std.TreeMap Signature Places Signature.order)
    (known signature : Signature) (there : Places) :
    (places.insert known there).getD signature {} =
      if known = signature then there else places.getD signature {} := by
  simp only [Std.TreeMap.getD_insert, Std.LawfulEqCmp.compare_eq_iff_eq]

variable {database : Database}

theorem Indexed.addFact (indexed : database.Indexed) (fact : Predicate) :
    (database.addFact fact).Indexed := by
  constructor
  · intro signature
    have before := indexed.facts signature
    unfold placesOf at before
    rw [Database.addFact, placesOf, getD_insert_places, placesIn_push]
    by_cases same : fact.signature = signature
    · subst same
      simp [placesOf, before]
    · simp [same, before]
  · intro signature
    have before := indexed.rules signature
    unfold placesOf at before
    rw [Database.addFact, placesOf, getD_insert_places]
    by_cases same : fact.signature = signature
    · subst same
      simp [placesOf, before]
    · simp [same, before]

theorem Indexed.addRule (indexed : database.Indexed) (rule : Rule) :
    (database.addRule rule).Indexed := by
  constructor
  · intro signature
    have before := indexed.facts signature
    unfold placesOf at before
    rw [Database.addRule, placesOf, getD_insert_places]
    by_cases same : rule.head.signature = signature
    · subst same
      simp [placesOf, before]
    · simp [same, before]
  · intro signature
    have before := indexed.rules signature
    unfold placesOf at before
    rw [Database.addRule, placesOf, getD_insert_places, placesIn_push]
    by_cases same : rule.head.signature = signature
    · subst same
      simp [placesOf, before]
    · simp [same, before]

theorem Built.indexed (built : database.Built) : database.Indexed := by
  induction built with
  | empty => exact ⟨fun _ => rfl, fun _ => rfl⟩
  | fact _ fact ih => exact ih.addFact fact
  | rule _ rule ih => exact ih.addRule rule

theorem Indexed.factsOf_eq_filter (indexed : database.Indexed) (signature : Signature) :
    database.factsOf signature =
      database.facts.toList.filter fun fact => fact.signature = signature := by
  rw [Database.factsOf, indexed.facts]
  simpa using lookup_placesIn database.facts.toList signature

theorem Indexed.rulesOf_eq_filter (indexed : database.Indexed) (signature : Signature) :
    database.rulesOf signature =
      database.rules.toList.filter fun rule => rule.head.signature = signature := by
  rw [Database.rulesOf, indexed.rules]
  simpa using lookup_placesIn database.rules.toList signature

/-! ## Two plain lists -/

/-- What is stored at one go. -/
inductive Entry where
  | fact (fact : Predicate)
  | rule (rule : Rule)

def Entry.fact? : Entry → Option Predicate
  | .fact stored => some stored
  | .rule _ => none

def Entry.rule? : Entry → Option Rule
  | .fact _ => none
  | .rule stored => some stored

def add (database : Database) : Entry → Database
  | .fact fact => database.addFact fact
  | .rule rule => database.addRule rule

/-- The database that stores these facts and rules, one after another. -/
def ofEntries (entries : List Entry) : Database :=
  entries.foldl add ∅

/-- The facts and the rules stored are those of two lists, and the index is exact. -/
structure Holds (database : Database) (facts : List Predicate) (rules : List Rule) : Prop where
  facts : database.facts.toList = facts
  rules : database.rules.toList = rules
  indexed : database.Indexed

section

variable {facts : List Predicate} {rules : List Rule}

theorem Holds.add (holds : database.Holds facts rules) (entry : Entry) :
    (database.add entry).Holds (facts ++ entry.fact?.toList) (rules ++ entry.rule?.toList) := by
  obtain ⟨rfl, rfl, indexed⟩ := holds
  cases entry with
  | fact fact =>
    refine ⟨?_, ?_, indexed.addFact fact⟩
    · simp [Database.add, addFact, Entry.fact?]
    · simp [Database.add, addFact, Entry.rule?]
  | rule rule =>
    refine ⟨?_, ?_, indexed.addRule rule⟩
    · simp [Database.add, addRule, Entry.fact?]
    · simp [Database.add, addRule, Entry.rule?]

theorem holds_ofEntries (entries : List Entry) :
    (ofEntries entries).Holds (entries.filterMap Entry.fact?) (entries.filterMap Entry.rule?) := by
  induction entries using List.reverseRecOn with
  | nil => exact ⟨rfl, rfl, Built.empty.indexed⟩
  | append_singleton entries entry ih =>
    have step := ih.add entry
    rw [ofEntries, List.foldl_concat, ← ofEntries, List.filterMap_append, List.filterMap_append]
    cases entry <;> exact step

theorem Holds.factsOf_eq (holds : database.Holds facts rules) (name : String) (arity : Nat) :
    database.factsOf ⟨name, arity⟩ =
      facts.filter fun fact => fact.name = name ∧ fact.args.length = arity := by
  rw [holds.indexed.factsOf_eq_filter, holds.facts]
  simp only [Predicate.signature, Predicate.arity, Signature.mk.injEq]

theorem Holds.rulesOf_eq (holds : database.Holds facts rules) (name : String) (arity : Nat) :
    database.rulesOf ⟨name, arity⟩ =
      rules.filter fun rule => rule.head.name = name ∧ rule.head.args.length = arity := by
  rw [holds.indexed.rulesOf_eq_filter, holds.rules]
  simp only [Predicate.signature, Predicate.arity, Signature.mk.injEq]

theorem length_filterMap_entries (entries : List Entry) :
    (entries.filterMap Entry.fact?).length + (entries.filterMap Entry.rule?).length =
      entries.length := by
  induction entries with
  | nil => rfl
  | cons entry entries ih =>
    cases entry <;> simp only [List.filterMap_cons, Entry.fact?, Entry.rule?, List.length_cons] <;>
      omega

theorem Holds.size_eq (holds : database.Holds facts rules) :
    database.size = facts.length + rules.length := by
  rw [size, ← holds.facts, ← holds.rules, Array.length_toList, Array.length_toList]

end

/-- A place is taken by an item, so reading all places leaves none out. -/
theorem map_placesIn {α : Type} (key : α → Signature) (items : Array α) (signature : Signature) :
    (placesIn key items signature).map (fun place => items[place]?) =
      ((placesIn key items signature).filterMap fun place => items[place]?).map some := by
  rw [List.map_filterMap_some_eq_filter_map_isSome, List.filter_eq_self.mpr]
  intro read member
  obtain ⟨place, inside, rfl⟩ := List.mem_map.mp member
  obtain ⟨item, stored, -⟩ := mem_placesIn.mp inside
  rw [stored]
  rfl

theorem lt_size_of_mem_placesIn {α : Type} {key : α → Signature} {items : Array α}
    {signature : Signature} {place : Nat} (member : place ∈ placesIn key items signature) :
    place < items.size := by
  obtain ⟨_, stored, -⟩ := mem_placesIn.mp member
  exact (Array.getElem?_eq_some_iff.mp stored).1

/-- Whatever is stored, in whatever order, the database holds the facts and the rules as two plain
lists would: in the order stored, with repeats. A lookup by name and number of arguments gives the
facts, or the rules by their heads, that have them, in that order. The places that the index has are
places of the lists, and each of them is read. -/
theorem ofEntries_refines_lists (entries : List Entry) (name : String) (arity : Nat) :
    let database := ofEntries entries
    let facts := entries.filterMap Entry.fact?
    let rules := entries.filterMap Entry.rule?
    let places := database.placesOf ⟨name, arity⟩
    database.facts.toList = facts ∧ database.rules.toList = rules ∧
      database.factsOf ⟨name, arity⟩ =
        facts.filter (fun fact => fact.name = name ∧ fact.args.length = arity) ∧
      database.rulesOf ⟨name, arity⟩ =
        rules.filter (fun rule => rule.head.name = name ∧ rule.head.args.length = arity) ∧
      database.size = entries.length ∧ (database.isEmpty = true ↔ entries = []) ∧
      (∀ place ∈ places.facts.toList, place < database.facts.size) ∧
      (∀ place ∈ places.rules.toList, place < database.rules.size) ∧
      places.facts.toList.map (fun place => database.facts[place]?) =
        (database.factsOf ⟨name, arity⟩).map some ∧
      places.rules.toList.map (fun place => database.rules[place]?) =
        (database.rulesOf ⟨name, arity⟩).map some := by
  intro database facts rules places
  have holds := holds_ofEntries entries
  have inFacts := holds.indexed.facts ⟨name, arity⟩
  have inRules := holds.indexed.rules ⟨name, arity⟩
  have size : database.size = entries.length := by
    rw [holds.size_eq, length_filterMap_entries]
  refine ⟨holds.facts, holds.rules, holds.factsOf_eq name arity, holds.rulesOf_eq name arity, size, ?_,
    ?_, ?_, ?_, ?_⟩
  · rw [isEmpty, size, beq_iff_eq, List.length_eq_zero_iff]
  · intro place member
    rw [inFacts] at member
    exact lt_size_of_mem_placesIn member
  · intro place member
    rw [inRules] at member
    exact lt_size_of_mem_placesIn member
  · rw [factsOf, inFacts]
    exact map_placesIn _ _ _
  · rw [rulesOf, inRules]
    exact map_placesIn _ _ _

end Database

variable {database : Database}

theorem exists_place_of_mem_factsOf {fact : Predicate} {signature : Signature}
    (member : fact ∈ database.factsOf signature) :
    ∃ place : Nat, database.facts[place]? = some fact := by
  obtain ⟨place, -, stored⟩ := List.mem_filterMap.mp member
  exact ⟨place, stored⟩

theorem exists_place_of_mem_rulesOf {rule : Rule} {signature : Signature}
    (member : rule ∈ database.rulesOf signature) :
    ∃ place : Nat, database.rules[place]? = some rule := by
  obtain ⟨place, -, stored⟩ := List.mem_filterMap.mp member
  exact ⟨place, stored⟩

end Backchain
