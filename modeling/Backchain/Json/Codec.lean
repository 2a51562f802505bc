import Backchain.Answer
import Backchain.Clause
import Backchain.Json.Reader
import Backchain.Json.Writer

/-!
The data of the library as JSON.

A value with alternatives is an object with exactly one member, whose name says which alternative it
is. A record is an object with its fields, in which unknown members are ignored and the arguments of
a predicate may be left out, or else an array of the fields in their order. The two rules alternate
as values nest: a term is of the first sort, the predicate inside it of the second.

A reader of terms is given the number of levels that arrays and objects may nest; what it ignores
may nest as it likes.
-/
set_option autoImplicit false

namespace Backchain

namespace Json

/-- The levels that arrays and objects of stored data may nest. -/
def nestingLimit : Nat :=
  127

/-- The text of a string that has one. -/
def text? : Json → Option String
  | .string text => text
  | _ => none

/-- An integer that fits a signed word of 64 bits. -/
def word? : Json → Option Int64
  | .integer value =>
    if Int64.minValue.toInt ≤ value ∧ value ≤ Int64.maxValue.toInt then some (Int64.ofInt value)
    else none
  | _ => none

/-- The elements of an array. -/
def elements? : Json → Option (List Json)
  | .array elements => some elements
  | _ => none

/-- An object with one member. -/
def tagged (tag : String) (content : Json) : Json :=
  .object [(some tag, content)]

/-- The content of a field that an object gives exactly once. -/
def once? (members : List (Option String × Json)) (field : String) : Option Json :=
  match members.filter fun member => member.1 == some field with
  | [(_, content)] => some content
  | _ => none

/-- The contents of the fields of a record, all of them required. -/
def record? (fields : List String) : Json → Option (List Json)
  | .array contents => if contents.length = fields.length then some contents else none
  | .object members =>
    if members.all fun member => member.1.isSome then fields.mapM (once? members) else none
  | _ => none

/-- The contents of a record with a required and an optional field. -/
def recordWithLast? (required optional : String) : Json → Option (Json × Option Json)
  | .array [first] => some (first, none)
  | .array [first, last] => some (first, some last)
  | .object members =>
    if members.all fun member => member.1.isSome then
      match once? members required, members.filter fun member => member.1 == some optional with
      | some first, [] => some (first, none)
      | some first, [(_, last)] => some (first, some last)
      | _, _ => none
    else none
  | _ => none

mutual

def ofTerm : Term → Json
  | .atom name => tagged "atom" (ofString name)
  | .number value => tagged "number" (.integer value.toInt)
  | .string text => tagged "string" (ofString text)
  | .var name => tagged "variable" (ofString name)
  | .compound name args =>
    tagged "predicate" (ofMembers [("name", ofString name), ("args", .array (ofTerms args))])
  | .conj left right => tagged "and" (.array [ofTerm left, ofTerm right])

def ofTerms : List Term → List Json
  | [] => []
  | term :: terms => ofTerm term :: ofTerms terms

end

def ofPredicate (p : Predicate) : Json :=
  ofMembers [("name", ofString p.name), ("args", .array (ofTerms p.args))]

def ofClause : Clause → Json
  | .fact predicate => tagged "fact" (ofPredicate predicate)
  | .rule head body => tagged "rule" (ofMembers [("head", ofPredicate head), ("body", ofTerm body)])
  | .query goal => tagged "query" (ofTerm goal)

def ofProgram (program : Program) : Json :=
  ofMembers [("clauses", .array (program.map ofClause))]

def ofAnswer (answer : Answer) : Json :=
  ofMembers
    [("bindings", ofMembers (answer.bindings.map fun (name, text) => (name, ofString text)))]

def ofOutcome : Outcome → Json
  | .proven holds => tagged "proven" (.bool holds)
  | .solutions answers => tagged "solutions" (.array (answers.map ofAnswer))

mutual

def term? : Nat → Json → Option Term
  | levels + 1, .object [(some tag, content)] =>
    match tag with
    | "atom" => content.text?.map .atom
    | "number" => content.word?.map .number
    | "string" => content.text?.map .string
    | "variable" => content.text?.map .var
    | "predicate" => (predicate? levels content).map Predicate.toTerm
    | "and" => pair? levels content
    | _ => none
  | _, _ => none

/-- The conjunction of exactly two terms. -/
def pair? : Nat → Json → Option Term
  | levels + 1, .array [left, right] =>
    match term? levels left, term? levels right with
    | some left, some right => some (.conj left right)
    | _, _ => none
  | _, _ => none

def predicate? : Nat → Json → Option Predicate
  | levels + 1, json =>
    match recordWithLast? "name" "args" json with
    | some (name, none) => name.text?.map fun name => ⟨name, []⟩
    | some (name, some args) =>
      match name.text?, args? levels args with
      | some name, some args => some ⟨name, args⟩
      | _, _ => none
    | none => none
  | _, _ => none

def args? : Nat → Json → Option (List Term)
  | levels + 1, .array elements => elements.mapM (term? levels)
  | _, _ => none

end

/-- The head and the body of a rule. -/
def headAndBody? : Nat → Json → Option (Predicate × Term)
  | levels + 1, json =>
    match record? ["head", "body"] json with
    | some [head, body] =>
      match predicate? levels head, term? levels body with
      | some head, some body => some (head, body)
      | _, _ => none
    | _ => none
  | _, _ => none

def clause? : Nat → Json → Option Clause
  | levels + 1, .object [(some tag, content)] =>
    match tag with
    | "fact" => (predicate? levels content).map .fact
    | "rule" => (headAndBody? levels content).map fun (head, body) => .rule head body
    | "query" => (term? levels content).map .query
    | _ => none
  | _, _ => none

def program? : Nat → Json → Option Program
  | levels + 2, json =>
    match record? ["clauses"] json with
    | some [.array clauses] => clauses.mapM (clause? levels)
    | _ => none
  | _, _ => none

/-- The text that a member gives to a name. -/
def binding? : Option String × Json → Option (String × String)
  | (some name, .string (some text)) => some (name, text)
  | _ => none

/-- A name that is given twice keeps its first place and takes its last text. -/
def answer? (json : Json) : Option Answer :=
  match record? ["bindings"] json with
  | some [.object members] => (members.mapM binding?).map Answer.ofList
  | _ => none

def outcome? : Json → Option Outcome
  | .object [(some "proven", .bool holds)] => some (.proven holds)
  | .object [(some "solutions", .array answers)] => (answers.mapM answer?).map .solutions
  | _ => none

end Json

end Backchain
