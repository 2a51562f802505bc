/-!
Terms and predicates.

A term is a finite tree: atoms, numbers, strings and variables are leaves, a compound applies a
name to arguments, and `conj` joins two goals. A conjunction is a term so that a clause body is one
value; nothing keeps it out of argument position. A predicate is a name applied to arguments, used
as a fact, as a rule head and as a goal.
-/
set_option autoImplicit false

namespace Backchain

inductive Term where
  | atom (name : String)
  | number (value : Int64)
  | string (text : String)
  | var (name : String)
  | compound (name : String) (args : List Term)
  | conj (left right : Term)

/-- The six sorts of term, as error texts and listings name them. -/
inductive Kind where
  | atom
  | number
  | string
  | variable
  | predicate
  | conjunction
deriving DecidableEq

def Kind.text : Kind → String
  | .atom => "atom"
  | .number => "number"
  | .string => "string"
  | .variable => "variable"
  | .predicate => "predicate"
  | .conjunction => "conjunction"

namespace Term

def kind : Term → Kind
  | .atom _ => .atom
  | .number _ => .number
  | .string _ => .string
  | .var _ => .variable
  | .compound _ _ => .predicate
  | .conj _ _ => .conjunction

/-- Induction with the hypothesis for every argument of a compound. -/
@[elab_as_elim, induction_eliminator]
theorem induct {motive : Term → Prop}
    (atom : ∀ name, motive (.atom name))
    (number : ∀ value, motive (.number value))
    (string : ∀ text, motive (.string text))
    (var : ∀ name, motive (.var name))
    (compound : ∀ name args, (∀ arg ∈ args, motive arg) → motive (.compound name args))
    (conj : ∀ left right, motive left → motive right → motive (.conj left right))
    (term : Term) : motive term :=
  @Term.rec motive (fun args => ∀ arg ∈ args, motive arg) atom number string var compound conj
    (fun _ absent => absurd absent List.not_mem_nil)
    (fun _ _ head tail arg member => by
      rcases List.mem_cons.mp member with rfl | later
      · exact head
      · exact tail arg later)
    term

mutual

def same : Term → Term → Bool
  | .atom a, .atom b => a == b
  | .number a, .number b => a == b
  | .string a, .string b => a == b
  | .var a, .var b => a == b
  | .compound f args, .compound g others => f == g && sameArgs args others
  | .conj a b, .conj c d => same a c && same b d
  | _, _ => false

def sameArgs : List Term → List Term → Bool
  | [], [] => true
  | arg :: args, other :: others => same arg other && sameArgs args others
  | _, _ => false

end

theorem sameArgs_iff {args : List Term}
    (each : ∀ arg ∈ args, ∀ other, same arg other = true ↔ arg = other) (others : List Term) :
    sameArgs args others = true ↔ args = others := by
  induction args generalizing others with
  | nil => cases others <;> simp [sameArgs]
  | cons arg args ih =>
    cases others with
    | nil => simp [sameArgs]
    | cons other others =>
      have head := each arg List.mem_cons_self other
      have tail := ih (fun a member => each a (List.mem_cons_of_mem _ member)) others
      simp [sameArgs, head, tail]

theorem same_iff (left right : Term) : same left right = true ↔ left = right := by
  induction left generalizing right with
  | atom name => cases right <;> simp [same]
  | number value => cases right <;> simp [same]
  | string text => cases right <;> simp [same]
  | var name => cases right <;> simp [same]
  | compound name args ih =>
    cases right with
    | compound other others => simp [same, sameArgs_iff ih]
    | _ => simp [same]
  | conj a b first second =>
    cases right with
    | conj c d => simp [same, first, second]
    | _ => simp [same]

instance : DecidableEq Term := fun left right =>
  decidable_of_iff _ (same_iff left right)

end Term

/-- A name applied to arguments. -/
structure Predicate where
  name : String
  args : List Term := []
deriving DecidableEq

/-- What a goal must share with a fact or a rule head before their arguments are compared. -/
structure Signature where
  name : String
  arity : Nat
deriving DecidableEq

namespace Predicate

def arity (p : Predicate) : Nat :=
  p.args.length

def signature (p : Predicate) : Signature :=
  ⟨p.name, p.arity⟩

def toTerm (p : Predicate) : Term :=
  .compound p.name p.args

end Predicate

end Backchain
