import Backchain.Term.Basic

/-!
The texts of terms and predicates.

In source a predicate without arguments is written as its bare name, a string between double quotes
with its characters as they are, and a conjunction as its two sides with a comma. The bare text of a
term is what answers show.
-/
set_option autoImplicit false

namespace Backchain

/-- A name before its arguments, which are left out when there are none. -/
def applied (name : String) : List String → String
  | [] => name
  | args => name ++ "(" ++ ", ".intercalate args ++ ")"

namespace Term

mutual

def text : Term → String
  | .atom name => name
  | .number value => toString value.toInt
  | .string chars => "\"" ++ chars ++ "\""
  | .var name => name
  | .compound name args => applied name (texts args)
  | .conj left right => text left ++ ", " ++ text right

def texts : List Term → List String
  | [] => []
  | arg :: args => text arg :: texts args

end

mutual

/-- The bare text of a term, given the text of each variable: strings without quotes, predicates
always with parentheses, conjunctions as if `and` were a predicate. -/
def bareText (value : String → String) : Term → String
  | .atom name => name
  | .number value => toString value.toInt
  | .string chars => chars
  | .var name => value name
  | .compound name args => name ++ "(" ++ ", ".intercalate (bareTexts value args) ++ ")"
  | .conj left right => "and(" ++ bareText value left ++ ", " ++ bareText value right ++ ")"

def bareTexts (value : String → String) : List Term → List String
  | [] => []
  | arg :: args => bareText value arg :: bareTexts value args

end

theorem texts_eq_map (args : List Term) : texts args = args.map text := by
  induction args with
  | nil => rfl
  | cons arg args ih => simp [texts, ih]

theorem bareTexts_eq_map (value : String → String) (args : List Term) :
    bareTexts value args = args.map (bareText value) := by
  induction args with
  | nil => rfl
  | cons arg args ih => simp [bareTexts, ih]

end Term

def Predicate.text (p : Predicate) : String :=
  applied p.name (p.args.map Term.text)

theorem Predicate.text_toTerm (p : Predicate) : p.toTerm.text = p.text := by
  simp [Predicate.toTerm, Term.text, Predicate.text, Term.texts_eq_map]

end Backchain
