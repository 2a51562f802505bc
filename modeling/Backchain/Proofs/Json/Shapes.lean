import Backchain.Json.Codec
import Mathlib.Data.List.Basic
import Mathlib.Logic.Function.Basic

/-!
What is expected where in stored data.

A shape says what a place of a document is decoded to. A shape with tags is read from an object with
one member, a shape with fields from an object or from an array, and a shape with elements from an
array. Decoding a record is a function of what is given to each of its fields, and decoding a
document depends on any place in it only through what is decoded there.
-/
set_option autoImplicit false

namespace Backchain.Json

/-- The parts that data of the library is made of. -/
inductive Shape where
  | text
  | word
  | truth
  | bindings
  | term
  | pair
  | terms
  | predicate
  | rule
  | clause
  | clauses
  | program
  | answer
  | answers
  | outcome

def truth? : Json → Option Bool
  | .bool holds => some holds
  | _ => none

def bindings? : Json → Option Answer
  | .object members => (members.mapM binding?).map Answer.ofList
  | _ => none

def clauses? : Nat → Json → Option Program
  | levels + 1, .array elements => elements.mapM (clause? levels)
  | _, _ => none

def answers? : Json → Option (List Answer)
  | .array elements => elements.mapM answer?
  | _ => none

namespace Shape

/-- What a shape is decoded to. -/
abbrev Value : Shape → Type
  | .text => String
  | .word => Int64
  | .truth => Bool
  | .bindings => Answer
  | .term => Term
  | .pair => Term
  | .terms => List Term
  | .predicate => Predicate
  | .rule => Predicate × Term
  | .clause => Clause
  | .clauses => Program
  | .program => Program
  | .answer => Answer
  | .answers => List Answer
  | .outcome => Outcome

def decode : (shape : Shape) → Nat → Json → Option shape.Value
  | .text, _ => text?
  | .word, _ => word?
  | .truth, _ => truth?
  | .bindings, _ => bindings?
  | .term, levels => term? levels
  | .pair, levels => pair? levels
  | .terms, levels => args? levels
  | .predicate, levels => predicate? levels
  | .rule, levels => headAndBody? levels
  | .clause, levels => clause? levels
  | .clauses, levels => clauses? levels
  | .program, levels => program? levels
  | .answer, _ => answer?
  | .answers, _ => answers?
  | .outcome, _ => outcome?

/-- The tags of the alternatives, and what is expected below each. -/
def tags : Shape → List (String × Shape)
  | .term =>
    [("atom", .text), ("number", .word), ("string", .text), ("variable", .text),
      ("predicate", .predicate), ("and", .pair)]
  | .clause => [("fact", .predicate), ("rule", .rule), ("query", .term)]
  | .outcome => [("proven", .truth), ("solutions", .answers)]
  | _ => []

/-- The fields of a record in their declared order, and what is expected in each. -/
def fields : Shape → List (String × Shape)
  | .predicate => [("name", .text), ("args", .terms)]
  | .rule => [("head", .predicate), ("body", .term)]
  | .program => [("clauses", .clauses)]
  | .answer => [("bindings", .bindings)]
  | _ => []

/-- The fields that cannot be left out. -/
def required : Shape → List String
  | .predicate => ["name"]
  | shape => shape.fields.map Prod.fst

/-- What is expected in every place of an array that is not a record. -/
def element? : Shape → Option Shape
  | .pair => some .term
  | .terms => some .term
  | .clauses => some .clause
  | .answers => some .answer
  | _ => none

end Shape

/-! ## What is given to the fields of a record -/

/-- The contents that members give to a field. -/
def given (members : List (Option String × Json)) (field : String) : List Json :=
  (members.filter fun member => member.1 == some field).map Prod.snd

/-- Whether every member has a name. -/
def allNamed (members : List (Option String × Json)) : Bool :=
  members.all fun member => member.1.isSome

section

variable {before after members others : List (Option String × Json)} {field other : String}
  {content : Json}

theorem given_member :
    given (before ++ (some field, content) :: after) field =
      given before field ++ content :: given after field := by
  simp [given]

theorem given_member_of_ne (differs : other ≠ field) :
    given (before ++ (some other, content) :: after) field = given (before ++ after) field := by
  simp [given, differs]

theorem given_append : given (before ++ after) field = given before field ++ given after field := by
  simp [given]

theorem given_perm (perm : members.Perm others) (field : String) :
    (given members field).Perm (given others field) :=
  (perm.filter _).map _

theorem allNamed_member :
    allNamed (before ++ (some field, content) :: after) = allNamed (before ++ after) := by
  simp [allNamed]

theorem allNamed_perm (perm : members.Perm others) : allNamed members = allNamed others :=
  perm.all_eq

end

/-- The content of a required field. -/
def single? : List Json → Option Json
  | [content] => some content
  | _ => none

/-- The content of an optional field. -/
def atMostOne? : List Json → Option (Option Json)
  | [] => some none
  | [content] => some (some content)
  | _ => none

theorem single?_eq_none {contents : List Json} (length : contents.length ≠ 1) :
    single? contents = none := by
  match contents with
  | [] => rfl
  | [_] => exact absurd rfl length
  | _ :: _ :: _ => rfl

theorem atMostOne?_eq_none {contents : List Json} (length : 2 ≤ contents.length) :
    atMostOne? contents = none := by
  match contents with
  | [] | [_] => simp at length
  | _ :: _ :: _ => rfl

section

variable {contents others : List Json}

theorem single?_perm (perm : contents.Perm others) : single? contents = single? others := by
  by_cases one : contents.length = 1
  · obtain ⟨content, rfl⟩ := List.length_eq_one_iff.mp one
    rw [List.singleton_perm.mp perm]
  · rw [single?_eq_none one, single?_eq_none (perm.length_eq ▸ one)]

theorem atMostOne?_perm (perm : contents.Perm others) :
    atMostOne? contents = atMostOne? others := by
  by_cases two : 2 ≤ contents.length
  · rw [atMostOne?_eq_none two, atMostOne?_eq_none (perm.length_eq ▸ two)]
  · match contents with
    | [] => rw [List.nil_perm.mp perm]
    | [content] => rw [List.singleton_perm.mp perm]
    | _ :: _ :: _ => simp at two

end

theorem once?_eq (members : List (Option String × Json)) (field : String) :
    once? members field = single? (given members field) := by
  rw [once?, given]
  generalize members.filter _ = found
  match found with
  | [] => rfl
  | [_] => rfl
  | _ :: _ :: _ => rfl

theorem record?_one (field : String) (members : List (Option String × Json)) :
    record? [field] (.object members) =
      if allNamed members then (single? (given members field)).map ([·]) else none := by
  rw [record?, ← once?_eq, List.mapM_cons, List.mapM_nil]
  cases once? members field <;> rfl

theorem record?_two (first second : String) (members : List (Option String × Json)) :
    record? [first, second] (.object members) =
      if allNamed members then
        (single? (given members first)).bind fun one =>
          (single? (given members second)).map fun two => [one, two]
      else none := by
  rw [record?, ← once?_eq, ← once?_eq, List.mapM_cons, List.mapM_cons, List.mapM_nil]
  cases once? members first with
  | none => rfl
  | some one => cases once? members second <;> rfl

theorem recordWithLast?_object (required optional : String)
    (members : List (Option String × Json)) :
    recordWithLast? required optional (.object members) =
      if allNamed members then
        (single? (given members required)).bind fun first =>
          (atMostOne? (given members optional)).map fun last => (first, last)
      else none := by
  rw [recordWithLast?, ← once?_eq, given]
  congr 1
  generalize members.filter _ = found
  cases once? members required with
  | none => rfl
  | some first =>
    match found with
    | [] => rfl
    | [_] => rfl
    | _ :: _ :: _ => rfl

/-! ## Records -/

/-- The arguments of a predicate, none if they are left out. -/
def argsOrNone? (levels : Nat) : Option Json → Option (List Term)
  | none => some []
  | some args => args? levels args

theorem predicate?_succ (levels : Nat) (json : Json) :
    predicate? (levels + 1) json =
      (recordWithLast? "name" "args" json).bind fun (name, args) => name.text?.bind fun name =>
        (argsOrNone? levels args).map fun args => ⟨name, args⟩ := by
  rw [predicate?]
  rcases recordWithLast? "name" "args" json with - | ⟨name, - | args⟩
  · rfl
  · exact Option.map_eq_bind
  · cases text : name.text? with
    | none => simp [text]
    | some name => cases decoded : args? levels args <;> simp [text, argsOrNone?, decoded]

/-- What can be decoded to arguments is no name. -/
theorem predicate?_of_args {levels : Nat} {name args : Json}
    (readable : predicate? levels (.array [name, args]) ≠ none) :
    predicate? levels (.array [args]) = none := by
  cases levels with
  | zero => rfl
  | succ levels =>
    cases args with
    | string text =>
      refine absurd ?_ readable
      rw [predicate?_succ]
      cases levels <;> exact Option.bind_fun_none name.text?
    | _ => rfl

theorem headAndBody?_succ (levels : Nat) (json : Json) :
    headAndBody? (levels + 1) json =
      (record? ["head", "body"] json).bind fun contents =>
        match contents with
        | [head, body] =>
          (predicate? levels head).bind fun head =>
            (term? levels body).map fun body => (head, body)
        | _ => none := by
  rw [headAndBody?]
  rcases record? ["head", "body"] json with - | (- | ⟨head, - | ⟨body, - | -⟩⟩)
  case some.cons.cons.nil =>
    cases first : predicate? levels head with
    | none => simp [first]
    | some head => cases second : term? levels body <;> simp [first, second]
  all_goals rfl

/-- A predicate from what is given to its fields. -/
def predicateOf? : Nat → (String → List Json) → Option Predicate
  | levels + 1, contents =>
    (single? (contents "name")).bind fun name => (atMostOne? (contents "args")).bind fun args =>
      name.text?.bind fun name => (argsOrNone? levels args).map fun args => ⟨name, args⟩
  | _, _ => none

/-- The head and the body of a rule from what is given to its fields. -/
def ruleOf? : Nat → (String → List Json) → Option (Predicate × Term)
  | levels + 1, contents =>
    (single? (contents "head")).bind fun head => (single? (contents "body")).bind fun body =>
      (predicate? levels head).bind fun head => (term? levels body).map fun body => (head, body)
  | _, _ => none

def programOf? : Nat → (String → List Json) → Option Program
  | levels + 1, contents => (single? (contents "clauses")).bind (clauses? levels)
  | _, _ => none

def answerOf? (contents : String → List Json) : Option Answer :=
  (single? (contents "bindings")).bind bindings?

section

variable (levels : Nat) (members : List (Option String × Json))

theorem predicate?_object :
    predicate? levels (.object members) =
      if allNamed members then predicateOf? levels (given members) else none := by
  cases levels with
  | zero => exact (ite_self none).symm
  | succ levels =>
    rw [predicate?_succ, recordWithLast?_object, predicateOf?]
    cases allNamed members with
    | false => rfl
    | true =>
      cases single? (given members "name") with
      | none => rfl
      | some name => cases atMostOne? (given members "args") <;> rfl

theorem headAndBody?_object :
    headAndBody? levels (.object members) =
      if allNamed members then ruleOf? levels (given members) else none := by
  cases levels with
  | zero => exact (ite_self none).symm
  | succ levels =>
    rw [headAndBody?_succ, record?_two, ruleOf?]
    cases allNamed members with
    | false => rfl
    | true =>
      cases single? (given members "head") with
      | none => rfl
      | some head => cases single? (given members "body") <;> rfl

theorem program?_object :
    program? levels (.object members) =
      if allNamed members then programOf? levels (given members) else none := by
  match levels with
  | 0 => exact (ite_self none).symm
  | 1 =>
    rw [programOf?]
    cases allNamed members with
    | false => rfl
    | true => cases single? (given members "clauses") <;> rfl
  | levels + 2 =>
    rw [program?, record?_one, programOf?]
    cases allNamed members with
    | false => rfl
    | true =>
      cases single? (given members "clauses") with
      | none => rfl
      | some clauses => cases clauses <;> rfl

theorem answer?_object :
    answer? (.object members) = if allNamed members then answerOf? (given members) else none := by
  rw [answer?, record?_one, answerOf?]
  cases allNamed members with
  | false => rfl
  | true =>
    cases single? (given members "bindings") with
    | none => rfl
    | some bindings => cases bindings <;> rfl

end

namespace Shape

variable {shape part : Shape} {field : String}

/-- A record from what is given to its fields. -/
def ofFields : (shape : Shape) → Nat → (String → List Json) → Option shape.Value
  | .predicate => predicateOf?
  | .rule => ruleOf?
  | .program => programOf?
  | .answer => fun _ => answerOf?
  | .text | .word | .truth | .bindings | .term | .pair | .terms | .clause | .clauses | .answers
  | .outcome => fun _ _ => none

theorem decode_object (isRecord : shape.fields ≠ []) (levels : Nat)
    (members : List (Option String × Json)) :
    shape.decode levels (.object members) =
      if allNamed members then shape.ofFields levels (given members) else none := by
  cases shape with
  | predicate => exact predicate?_object levels members
  | rule => exact headAndBody?_object levels members
  | program => exact program?_object levels members
  | answer => exact answer?_object members
  | _ => exact absurd rfl isRecord

/-- An array is read like the object that gives its elements to the first fields. -/
theorem decode_array (isRecord : shape.fields ≠ []) (levels : Nat) {contents : List Json}
    (few : contents.length ≤ shape.fields.length) :
    shape.decode levels (.array contents) =
      shape.decode levels (ofMembers ((shape.fields.map Prod.fst).zip contents)) := by
  cases shape with
  | predicate =>
    match levels, contents with
    | 0, _ => rfl
    | _ + 1, [] | _ + 1, [_] | _ + 1, [_, _] => rfl
    | _ + 1, _ :: _ :: _ :: _ => exact absurd few (by simp [fields])
  | rule =>
    match levels, contents with
    | 0, _ => rfl
    | _ + 1, [] | _ + 1, [_] | _ + 1, [_, _] => rfl
    | _ + 1, _ :: _ :: _ :: _ => exact absurd few (by simp [fields])
  | program =>
    match levels, contents with
    | 0, _ | 1, _ => rfl
    | _ + 2, [] | _ + 2, [_] => rfl
    | _ + 2, _ :: _ :: _ => exact absurd few (by simp [fields])
  | answer =>
    match contents with
    | [] | [_] => rfl
    | _ :: _ :: _ => exact absurd few (by simp [fields])
  | _ => exact absurd rfl isRecord

theorem decode_array_of_lt (isRecord : shape.fields ≠ []) (levels : Nat) {contents : List Json}
    (many : shape.fields.length < contents.length) :
    shape.decode levels (.array contents) = none := by
  cases shape with
  | predicate =>
    match levels, contents with
    | 0, _ => rfl
    | _ + 1, _ :: _ :: _ :: _ => rfl
    | _ + 1, [] | _ + 1, [_] | _ + 1, [_, _] => exact absurd many (by simp [fields])
  | rule =>
    match levels, contents with
    | 0, _ => rfl
    | _ + 1, _ :: _ :: _ :: _ => rfl
    | _ + 1, [] | _ + 1, [_] | _ + 1, [_, _] => exact absurd many (by simp [fields])
  | program =>
    match levels, contents with
    | 0, _ | 1, _ => rfl
    | _ + 2, _ :: _ :: _ => rfl
    | _ + 2, [] | _ + 2, [_] => exact absurd many (by simp [fields])
  | answer =>
    match contents with
    | _ :: _ :: _ => rfl
    | [] | [_] => exact absurd many (by simp [fields])
  | _ => exact absurd rfl isRecord

theorem decode_array_of_short (levels : Nat) {contents : List Json}
    (short : contents.length < shape.required.length) :
    shape.decode levels (.array contents) = none := by
  cases shape with
  | predicate =>
    match levels, contents with
    | 0, _ | _ + 1, [] => rfl
    | _ + 1, _ :: _ => exact absurd short (by simp [Shape.required])
  | rule =>
    match levels, contents with
    | 0, _ | _ + 1, [] | _ + 1, [_] => rfl
    | _ + 1, _ :: _ :: _ => exact absurd short (by simp [Shape.required, fields])
  | program =>
    match levels, contents with
    | 0, _ | 1, _ | _ + 2, [] => rfl
    | _ + 2, _ :: _ => exact absurd short (by simp [Shape.required, fields])
  | answer =>
    match contents with
    | [] => rfl
    | _ :: _ => exact absurd short (by simp [Shape.required, fields])
  | _ => exact absurd short (Nat.not_lt_zero _)

theorem fields_ne_nil_of_required {field : String} (required : field ∈ shape.required) :
    shape.fields ≠ [] := by
  cases shape with
  | predicate | rule | program | answer => exact List.cons_ne_nil _ _
  | _ => cases required

/-- The order in which contents are given to a field is irrelevant. -/
theorem ofFields_perm (shape : Shape) (levels : Nat) {contents others : String → List Json}
    (perm : ∀ field, (contents field).Perm (others field)) :
    shape.ofFields levels contents = shape.ofFields levels others := by
  have single (field : String) := single?_perm (perm field)
  have atMostOne (field : String) := atMostOne?_perm (perm field)
  cases shape with
  | predicate => cases levels <;> simp only [ofFields, predicateOf?, single, atMostOne]
  | rule => cases levels <;> simp only [ofFields, ruleOf?, single]
  | program => cases levels <;> simp only [ofFields, programOf?, single]
  | answer => simp only [ofFields, answerOf?, single]
  | _ => rfl

/-- Only what is given to the known fields counts. -/
theorem ofFields_congr (shape : Shape) (levels : Nat) {contents others : String → List Json}
    (same : ∀ field ∈ shape.fields.map Prod.fst, contents field = others field) :
    shape.ofFields levels contents = shape.ofFields levels others := by
  cases shape with
  | predicate =>
    have name := same "name" (by simp [fields])
    have args := same "args" (by simp [fields])
    cases levels <;> simp only [ofFields, predicateOf?, name, args]
  | rule =>
    have head := same "head" (by simp [fields])
    have body := same "body" (by simp [fields])
    cases levels <;> simp only [ofFields, ruleOf?, head, body]
  | program =>
    have clauses := same "clauses" (by simp [fields])
    cases levels <;> simp only [ofFields, programOf?, clauses]
  | answer =>
    have bindings := same "bindings" (by simp [fields])
    simp only [ofFields, answerOf?, bindings]
  | _ => rfl

theorem ofFields_of_required (required : field ∈ shape.required) (levels : Nat)
    {contents : String → List Json} (wrong : (contents field).length ≠ 1) :
    shape.ofFields levels contents = none := by
  have none := single?_eq_none wrong
  cases shape with
  | predicate =>
    obtain rfl : field = "name" := List.mem_singleton.mp required
    cases levels <;> simp [ofFields, predicateOf?, none]
  | rule =>
    obtain rfl | rfl : field = "head" ∨ field = "body" := by
      simpa [Shape.required, fields] using required
    · cases levels <;> simp [ofFields, ruleOf?, none]
    · cases levels <;> simp [ofFields, ruleOf?, none]
  | program =>
    obtain rfl : field = "clauses" := List.mem_singleton.mp required
    cases levels <;> simp [ofFields, programOf?, none]
  | answer =>
    obtain rfl : field = "bindings" := List.mem_singleton.mp required
    simp [ofFields, answerOf?, none]
  | _ => cases required

theorem ofFields_of_repeated (known : (field, part) ∈ shape.fields) (levels : Nat)
    {contents : String → List Json} (repeated : 2 ≤ (contents field).length) :
    shape.ofFields levels contents = none := by
  have wrong : (contents field).length ≠ 1 := by omega
  cases shape with
  | predicate =>
    rcases List.mem_cons.mp known with eq | eq
    · obtain ⟨rfl, -⟩ := Prod.mk.inj eq
      exact ofFields_of_required (List.mem_singleton_self _) levels wrong
    · obtain ⟨rfl, -⟩ := Prod.mk.inj (List.mem_singleton.mp eq)
      cases levels <;> simp [ofFields, predicateOf?, atMostOne?_eq_none repeated]
  | rule | program | answer =>
    exact ofFields_of_required (List.mem_map_of_mem (f := Prod.fst) known) levels wrong
  | _ => cases known

theorem decode_object_of_required (required : field ∈ shape.required) (levels : Nat)
    {members : List (Option String × Json)} (wrong : (given members field).length ≠ 1) :
    shape.decode levels (.object members) = none := by
  rw [decode_object (fields_ne_nil_of_required required), ofFields_of_required required levels wrong,
    ite_self]

/-! ## Alternatives -/

theorem decode_object_of_choice (choice : shape.tags ≠ []) (levels : Nat)
    {members : List (Option String × Json)} (length : members.length ≠ 1) :
    shape.decode levels (.object members) = none := by
  cases shape with
  | term =>
    match levels, members with
    | 0, _ | _ + 1, [] | _ + 1, (none, _) :: _ :: _ | _ + 1, (some _, _) :: _ :: _ => rfl
    | _ + 1, [_] => exact absurd rfl length
  | clause =>
    match levels, members with
    | 0, _ | _ + 1, [] | _ + 1, (none, _) :: _ :: _ | _ + 1, (some _, _) :: _ :: _ => rfl
    | _ + 1, [_] => exact absurd rfl length
  | outcome =>
    change outcome? (.object members) = none
    unfold outcome?
    split
    next eq => exact absurd (congrArg List.length (Json.object.inj eq)) length
    next eq => exact absurd (congrArg List.length (Json.object.inj eq)) length
    next => rfl
  | _ => exact absurd rfl choice

theorem decode_tagged_of_unknown (choice : shape.tags ≠ []) (levels : Nat) {tag : String}
    (unknown : tag ∉ shape.tags.map Prod.fst) (content : Json) :
    shape.decode levels (tagged tag content) = none := by
  cases shape with
  | term =>
    cases levels with
    | zero => rfl
    | succ levels =>
      simp only [tags, List.map_cons, List.map_nil, List.mem_cons, List.not_mem_nil, or_false, not_or]
        at unknown
      change term? (levels + 1) (.object [(some tag, content)]) = none
      simp [term?, unknown]
  | clause =>
    cases levels with
    | zero => rfl
    | succ levels =>
      simp only [tags, List.map_cons, List.map_nil, List.mem_cons, List.not_mem_nil, or_false, not_or]
        at unknown
      change clause? (levels + 1) (.object [(some tag, content)]) = none
      simp [clause?, unknown]
  | outcome =>
    simp only [tags, List.map_cons, List.map_nil, List.mem_cons, List.not_mem_nil, or_false, not_or]
      at unknown
    change outcome? (.object [(some tag, content)]) = none
    unfold outcome?
    split
    next eq =>
      simp only [Json.object.injEq, List.cons.injEq, Prod.mk.injEq, Option.some.injEq] at eq
      exact absurd eq.1.1 unknown.1
    next eq =>
      simp only [Json.object.injEq, List.cons.injEq, Prod.mk.injEq, Option.some.injEq] at eq
      exact absurd eq.1.1 unknown.2
    next => rfl
  | _ => exact absurd rfl choice

/-- The tags are told apart by their letters, whatever their case. -/
theorem eq_of_lower_eq {tag other : String} (known : tag ∈ shape.tags.map Prod.fst)
    (knownOther : other ∈ shape.tags.map Prod.fst)
    (lower : other.toList.map Char.toLower = tag.toList.map Char.toLower) : other = tag := by
  have lowered (tag : String) (known : tag ∈ shape.tags.map Prod.fst) :
      tag.toList.map Char.toLower = tag.toList := by
    revert tag
    cases shape <;> decide
  rw [lowered tag known, lowered other knownOther] at lower
  exact String.toList_inj.mp lower

end Shape

end Backchain.Json
