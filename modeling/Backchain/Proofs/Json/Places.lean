import Backchain.Proofs.Json.Reading
import Backchain.Proofs.Json.Shapes

/-!
Places in stored data.

Decoding a document depends on any place in it only through what is decoded there: below a tag, in a
field of a record, in a slot of a record that is an array, and among the elements of any other array.
A place has one level less than what is directly around it.
-/
set_option autoImplicit false

namespace Backchain.Json

/-- A result depends on a content only through what the content is decoded to. -/
def Through {α : Type} (part : Shape) (levels : Nat) (result : Json → Option α) : Prop :=
  ∃ rest : part.Value → Option α, ∀ content,
    result content = (part.decode levels content).bind rest

namespace Through

variable {α β : Type} {part : Shape} {levels : Nat}

theorem decode (part : Shape) (levels : Nat) : Through part levels (part.decode levels) :=
  ⟨some, fun _ => (Option.bind_fun_some _).symm⟩

theorem refused (part : Shape) (levels : Nat) : Through part levels fun _ => (none : Option α) :=
  ⟨fun _ => none, fun _ => (Option.bind_fun_none _).symm⟩

theorem congr {result other : Json → Option α} (through : Through part levels result)
    (same : ∀ content, other content = result content) : Through part levels other := by
  obtain ⟨rest, eq⟩ := through
  exact ⟨rest, fun content => (same content).trans (eq content)⟩

theorem bind {result : Json → Option α} (through : Through part levels result)
    (next : α → Option β) : Through part levels fun content => (result content).bind next := by
  obtain ⟨rest, eq⟩ := through
  refine ⟨fun value => (rest value).bind next, fun content => ?_⟩
  simp only [eq, Option.bind_assoc]

theorem map {result : Json → Option α} (through : Through part levels result) (next : α → β) :
    Through part levels fun content => (result content).map next := by
  simpa only [Option.map_eq_bind] using through.bind (some ∘ next)

theorem after (first : Option α) {result : α → Json → Option β}
    (through : ∀ a, Through part levels (result a)) :
    Through part levels fun content => first.bind fun a => result a content := by
  cases first with
  | none => exact refused part levels
  | some a => exact through a

end Through

namespace Shape

variable {shape part : Shape} {field : String}

theorem through_tagged {tag : String} (known : (tag, part) ∈ shape.tags) (levels : Nat) :
    Through part (levels - 1) fun content => shape.decode levels (tagged tag content) := by
  have decoded := Through.decode part (levels - 1)
  cases shape with
  | term =>
    cases levels with
    | zero => exact Through.refused _ _
    | succ levels =>
      simp only [tags, List.mem_cons, Prod.mk.injEq, List.not_mem_nil, or_false] at known
      rcases known with ⟨rfl, rfl⟩ | ⟨rfl, rfl⟩ | ⟨rfl, rfl⟩ | ⟨rfl, rfl⟩ | ⟨rfl, rfl⟩ | ⟨rfl, rfl⟩
      · exact decoded.map Term.atom
      · exact decoded.map Term.number
      · exact decoded.map Term.string
      · exact decoded.map Term.var
      · exact decoded.map Predicate.toTerm
      · exact decoded
  | clause =>
    cases levels with
    | zero => exact Through.refused _ _
    | succ levels =>
      simp only [tags, List.mem_cons, Prod.mk.injEq, List.not_mem_nil, or_false] at known
      rcases known with ⟨rfl, rfl⟩ | ⟨rfl, rfl⟩ | ⟨rfl, rfl⟩
      · exact decoded.map Clause.fact
      · exact decoded.map fun both => Clause.rule both.1 both.2
      · exact decoded.map Clause.query
  | outcome =>
    simp only [tags, List.mem_cons, Prod.mk.injEq, List.not_mem_nil, or_false] at known
    rcases known with ⟨rfl, rfl⟩ | ⟨rfl, rfl⟩
    · refine ⟨fun holds => some (.proven holds), fun content => ?_⟩
      cases content <;> rfl
    · refine ⟨fun answers => some (.solutions answers), fun content => ?_⟩
      cases content with
      | array all => exact Option.map_eq_bind
      | _ => rfl
  | _ => cases known

theorem through_ofFields (known : (field, part) ∈ shape.fields) (levels : Nat)
    (others : String → List Json) :
    Through part (levels - 1) fun content =>
      shape.ofFields levels (Function.update others field [content]) := by
  have decoded := Through.decode part (levels - 1)
  cases shape with
  | predicate =>
    cases levels with
    | zero => exact Through.refused _ _
    | succ levels =>
      simp only [fields, List.mem_cons, Prod.mk.injEq, List.not_mem_nil, or_false] at known
      rcases known with ⟨rfl, rfl⟩ | ⟨rfl, rfl⟩
      · exact .after (atMostOne? (others "args")) fun args => decoded.bind fun name =>
          (argsOrNone? levels args).map fun args => Predicate.mk name args
      · exact .after (single? (others "name")) fun name => .after name.text? fun name =>
          decoded.map fun args => Predicate.mk name args
  | rule =>
    cases levels with
    | zero => exact Through.refused _ _
    | succ levels =>
      simp only [fields, List.mem_cons, Prod.mk.injEq, List.not_mem_nil, or_false] at known
      rcases known with ⟨rfl, rfl⟩ | ⟨rfl, rfl⟩
      · exact .after (single? (others "body")) fun body => decoded.bind fun head =>
          (term? levels body).map fun body => (head, body)
      · exact .after (single? (others "head")) fun head => .after (predicate? levels head) fun head =>
          decoded.map fun body => (head, body)
  | program =>
    cases levels with
    | zero => exact Through.refused _ _
    | succ levels =>
      simp only [fields, List.mem_cons, Prod.mk.injEq, List.not_mem_nil, or_false] at known
      obtain ⟨rfl, rfl⟩ := known
      exact decoded
  | answer =>
    simp only [fields, List.mem_cons, Prod.mk.injEq, List.not_mem_nil, or_false] at known
    obtain ⟨rfl, rfl⟩ := known
    exact decoded
  | _ => cases known

theorem through_field (known : (field, part) ∈ shape.fields)
    (before after : List (Option String × Json)) (levels : Nat) :
    Through part (levels - 1) fun content =>
      shape.decode levels (.object (before ++ (some field, content) :: after)) := by
  have isRecord : shape.fields ≠ [] := List.ne_nil_of_mem known
  simp only [decode_object isRecord, allNamed_member]
  cases allNamed (before ++ after) with
  | false => exact Through.refused _ _
  | true =>
    simp only [if_true]
    by_cases once : given (before ++ after) field = []
    · have updated (content : Json) : given (before ++ (some field, content) :: after) =
          Function.update (given (before ++ after)) field [content] := by
        funext other
        by_cases same : other = field
        · subst same
          rw [given_append, List.append_eq_nil_iff] at once
          rw [given_member, Function.update_self, once.1, once.2, List.nil_append]
        · rw [given_member_of_ne (Ne.symm same), Function.update_of_ne same]
      simp only [updated]
      exact through_ofFields known levels _
    · have some := List.length_pos_of_ne_nil once
      rw [given_append, List.length_append] at some
      refine (Through.refused part _).congr fun content => ?_
      refine ofFields_of_repeated known levels ?_
      rw [given_member, List.length_append, List.length_cons]
      omega

theorem ofMembers_zip {front back : List String} {before : List Json}
    (length : front.length = before.length) (field : String) (content : Json) (after : List Json) :
    ofMembers ((front ++ field :: back).zip (before ++ content :: after)) =
      .object ((front.zip before).map Reader.named ++
        (some field, content) :: (back.zip after).map Reader.named) := by
  rw [List.zip_append length, List.zip_cons_cons, Reader.ofMembers_eq, List.map_append,
    List.map_cons, Reader.named]

theorem through_slot {before : List Json}
    (known : shape.fields[before.length]? = some (field, part)) (after : List Json) (levels : Nat) :
    Through part (levels - 1) fun content =>
      shape.decode levels (.array (before ++ content :: after)) := by
  have member : (field, part) ∈ shape.fields := List.mem_of_getElem? known
  have isRecord : shape.fields ≠ [] := List.ne_nil_of_mem member
  by_cases few : before.length + (after.length + 1) ≤ shape.fields.length
  · obtain ⟨within, found⟩ := List.getElem?_eq_some_iff.mp known
    have length : (shape.fields.take before.length).length = before.length :=
      List.length_take_of_le within.le
    have split : shape.fields.take before.length ++
        (field, part) :: shape.fields.drop (before.length + 1) = shape.fields := by
      rw [← found, ← List.drop_eq_getElem_cons within, List.take_append_drop]
    generalize shape.fields.take before.length = front at split length
    generalize shape.fields.drop (before.length + 1) = back at split
    refine (through_field member (((front.map Prod.fst).zip before).map Reader.named)
      (((back.map Prod.fst).zip after).map Reader.named) levels).congr fun content => ?_
    rw [decode_array isRecord levels (by simpa using few), ← split, List.map_append, List.map_cons,
      ofMembers_zip (by simpa using length)]
  · refine (Through.refused part _).congr fun content => ?_
    exact decode_array_of_lt isRecord levels (by simpa using few)

theorem through_mapM {α : Type} {levels : Nat} {item : Json → Option α}
    (through : Through part levels item) (before after : List Json) :
    Through part levels fun content => (before ++ content :: after).mapM item := by
  simp only [List.mapM_append, List.mapM_cons]
  exact .after (before.mapM item) fun front => (through.bind _).bind _

/-- The conjunction of two terms. -/
def conjOf? : List Term → Option Term
  | [left, right] => some (.conj left right)
  | _ => none

theorem pair?_array (levels : Nat) (elements : List Json) :
    pair? (levels + 1) (.array elements) = (elements.mapM (term? levels)).bind conjOf? := by
  match elements with
  | [] => rfl
  | [one] =>
    rw [List.mapM_cons]
    cases term? levels one <;> rfl
  | [left, right] =>
    rw [List.mapM_cons, List.mapM_cons, pair?]
    cases term? levels left <;> cases term? levels right <;> rfl
  | one :: two :: three :: others =>
    rw [List.mapM_cons, List.mapM_cons, List.mapM_cons]
    cases term? levels one <;> cases term? levels two <;> cases term? levels three <;>
      cases others.mapM (term? levels) <;> rfl

theorem pair?_of_length {elements : List Json} (length : elements.length ≠ 2) (levels : Nat) :
    pair? levels (.array elements) = none := by
  match levels, elements with
  | 0, _ | _ + 1, [] | _ + 1, [_] | _ + 1, _ :: _ :: _ :: _ => rfl
  | _ + 1, [_, _] => exact absurd rfl length

theorem through_element (known : shape.element? = some part)
    (before after : List Json) (levels : Nat) :
    Through part (levels - 1) fun content =>
      shape.decode levels (.array (before ++ content :: after)) := by
  have decoded := Through.decode part (levels - 1)
  cases shape with
  | pair =>
    obtain rfl := Option.some.inj known
    cases levels with
    | zero => exact Through.refused _ _
    | succ levels =>
      exact ((through_mapM decoded before after).bind conjOf?).congr fun _ => pair?_array levels _
  | terms =>
    obtain rfl := Option.some.inj known
    cases levels with
    | zero => exact Through.refused _ _
    | succ levels => exact through_mapM decoded before after
  | clauses =>
    obtain rfl := Option.some.inj known
    cases levels with
    | zero => exact Through.refused _ _
    | succ levels => exact through_mapM decoded before after
  | answers =>
    obtain rfl := Option.some.inj known
    exact through_mapM decoded before after
  | _ => cases known

/-- A place for a part directly inside a whole. -/
inductive Around : Shape → Shape → (Json → Json) → Prop where
  | tag {whole part : Shape} {tag : String} (known : (tag, part) ∈ whole.tags) :
      Around whole part (tagged tag)
  | field {whole part : Shape} {field : String} (known : (field, part) ∈ whole.fields)
      (before after : List (Option String × Json)) :
      Around whole part fun content => .object (before ++ (some field, content) :: after)
  | slot {whole part : Shape} {field : String} {before : List Json}
      (known : whole.fields[before.length]? = some (field, part)) (after : List Json) :
      Around whole part fun content => .array (before ++ content :: after)
  | element {whole part : Shape} (known : whole.element? = some part) (before after : List Json) :
      Around whole part fun content => .array (before ++ content :: after)

theorem Around.through {place : Json → Json} (around : Around shape part place) (levels : Nat) :
    Through part (levels - 1) fun content => shape.decode levels (place content) := by
  cases around with
  | tag known => exact through_tagged known levels
  | field known before after => exact through_field known before after levels
  | slot known after => exact through_slot known after levels
  | element known before after => exact through_element known before after levels

/-- A change that is made at some place of a document, which depends on the levels left there. -/
inductive Somewhere (change : Shape → Nat → Json → Json → Prop) :
    Shape → Nat → Json → Json → Prop where
  | here {shape : Shape} {levels : Nat} {json changed : Json}
      (changes : change shape levels json changed) : Somewhere change shape levels json changed
  | inside {whole part : Shape} {levels : Nat} {place : Json → Json} {json changed : Json}
      (around : Around whole part place)
      (somewhere : Somewhere change part (levels - 1) json changed) :
      Somewhere change whole levels (place json) (place changed)

/-- What is decoded before and after a change differs only by what is decoded where it is made. -/
theorem Somewhere.exists_part {change : Shape → Nat → Json → Json → Prop} {levels : Nat}
    {json changed : Json} (somewhere : Somewhere change shape levels json changed) :
    ∃ (part : Shape) (below : Nat) (content other : Json) (rest : part.Value → Option shape.Value),
      change part below content other ∧
        shape.decode levels json = (part.decode below content).bind rest ∧
        shape.decode levels changed = (part.decode below other).bind rest := by
  induction somewhere with
  | @here shape levels json changed changes =>
    obtain ⟨rest, eq⟩ := Through.decode shape levels
    exact ⟨shape, levels, json, changed, rest, changes, eq json, eq changed⟩
  | @inside whole part levels place json changed around somewhere ih =>
    obtain ⟨inner, below, content, other, rest, changes, before, after⟩ := ih
    obtain ⟨next, eq⟩ := around.through levels
    refine ⟨inner, below, content, other, fun value => (rest value).bind next, changes, ?_, ?_⟩
    · exact (eq json).trans (by rw [before, Option.bind_assoc])
    · exact (eq changed).trans (by rw [after, Option.bind_assoc])

end Shape

end Backchain.Json
