import Backchain.Proofs.Json.Places
import Backchain.Proofs.Json.RoundTrip
import Mathlib.Logic.Relation

/-!
Spellings of stored data.

Records may be spelled in many ways: with unknown fields, in another order, as an array, and with an
empty list of arguments or without one. Alternatives and pairs may not: another key, a tag in other
letters, a missing field, and an element more or less make a document unreadable. Both hold at every
place of a document, since decoding it depends on a place only through what is decoded there.

The one limit is the number of levels: an empty list of arguments needs a level for itself.
-/
set_option autoImplicit false

namespace Backchain.Json

namespace Shape

variable {shape : Shape} {levels : Nat} {json changed : Json}

/-! ## Other spellings of a record -/

/-- A record is spelled with one more unknown field, in another order, or as the array of its fields. -/
inductive Rewrites (shape : Shape) : Json → Json → Prop where
  | unknown {name : String} (unknown : name ∉ shape.fields.map Prod.fst)
      (before after : List (Option String × Json)) (content : Json) :
      Rewrites shape (.object (before ++ after)) (.object (before ++ (some name, content) :: after))
  | reordered {members others : List (Option String × Json)} (perm : members.Perm others) :
      Rewrites shape (.object members) (.object others)
  | array {contents : List Json} (few : contents.length ≤ shape.fields.length) :
      Rewrites shape (ofMembers ((shape.fields.map Prod.fst).zip contents)) (.array contents)

theorem Rewrites.decode_eq (rewrites : Rewrites shape json changed) (isRecord : shape.fields ≠ [])
    (levels : Nat) : shape.decode levels json = shape.decode levels changed := by
  cases rewrites with
  | @unknown name unknown before after content =>
    have same : shape.ofFields levels (given (before ++ after)) =
        shape.ofFields levels (given (before ++ (some name, content) :: after)) := by
      refine shape.ofFields_congr levels fun field known => ?_
      have differs : name ≠ field := by
        rintro rfl
        exact unknown known
      exact (given_member_of_ne differs).symm
    rw [decode_object isRecord, decode_object isRecord, allNamed_member, same]
  | @reordered members others perm =>
    have same : shape.ofFields levels (given members) = shape.ofFields levels (given others) :=
      shape.ofFields_perm levels (given_perm perm)
    rw [decode_object isRecord, decode_object isRecord, allNamed_perm perm, same]
  | array few => exact (decode_array isRecord levels few).symm

/-- A predicate that leaves its arguments out is spelled with an empty list of them. -/
inductive AddsArgs : Shape → Json → Json → Prop where
  | object {before after : List (Option String × Json)}
      (without : given (before ++ after) "args" = []) :
      AddsArgs .predicate (.object (before ++ after))
        (.object (before ++ (some "args", .array []) :: after))
  | array (name : Json) : AddsArgs .predicate (.array [name]) (.array [name, .array []])

theorem AddsArgs.decode_eq (adds : AddsArgs shape json changed) (room : 2 ≤ levels) :
    shape.decode levels changed = shape.decode levels json := by
  obtain ⟨levels, rfl⟩ := Nat.exists_eq_add_of_le' room
  cases adds with
  | @object before after without =>
    have isRecord : Shape.predicate.fields ≠ [] := List.cons_ne_nil _ _
    have apart := without
    rw [given_append, List.append_eq_nil_iff] at apart
    have same : predicateOf? (levels + 2) (given (before ++ (some "args", .array []) :: after)) =
        predicateOf? (levels + 2) (given (before ++ after)) := by
      rw [predicateOf?, predicateOf?, given_member_of_ne (by decide), given_member, apart.1, apart.2,
        without]
      rfl
    rw [decode_object isRecord, decode_object isRecord, allNamed_member]
    exact congrArg (ite _ · _) same
  | array name =>
    change predicate? _ _ = predicate? _ _
    rw [predicate?_succ, predicate?_succ]
    rfl

/-- An empty list of arguments needs a level for itself. -/
theorem AddsArgs.decode_eq_none (adds : AddsArgs shape json changed) (full : levels < 2) :
    shape.decode levels changed = none := by
  cases adds with
  | @object before after without =>
    have isRecord : Shape.predicate.fields ≠ [] := List.cons_ne_nil _ _
    rw [given_append, List.append_eq_nil_iff] at without
    rw [decode_object isRecord]
    refine (congrArg (ite _ · _) ?_).trans (ite_self none)
    match levels with
    | 0 => rfl
    | 1 =>
      change predicateOf? 1 _ = none
      rw [predicateOf?, given_member, without.1, without.2]
      cases single? (given (before ++ (some "args", .array []) :: after) "name") with
      | none => rfl
      | some name => exact Option.bind_fun_none name.text?
  | array name =>
    match levels with
    | 0 => rfl
    | 1 =>
      change predicate? 1 (.array [name, .array []]) = none
      rw [predicate?_succ]
      exact Option.bind_fun_none name.text?

/-- Another spelling of the same, where so many levels are left. -/
inductive Respells (shape : Shape) (levels : Nat) (json changed : Json) : Prop where
  | rewritten (isRecord : shape.fields ≠ []) (rewrites : Rewrites shape json changed)
  | restored (isRecord : shape.fields ≠ []) (rewrites : Rewrites shape changed json)
  | argsDropped (adds : AddsArgs shape changed json)
  | argsAdded (adds : AddsArgs shape json changed) (room : 2 ≤ levels)

theorem Respells.decode_eq_some (respells : Respells shape levels json changed)
    {value : shape.Value} (decodes : shape.decode levels json = some value) :
    shape.decode levels changed = some value := by
  cases respells with
  | rewritten isRecord rewrites => exact (rewrites.decode_eq isRecord levels).symm.trans decodes
  | restored isRecord rewrites => exact (rewrites.decode_eq isRecord levels).trans decodes
  | argsAdded adds room => exact (adds.decode_eq room).trans decodes
  | argsDropped adds =>
    by_cases room : 2 ≤ levels
    · exact (adds.decode_eq room).symm.trans decodes
    · rw [adds.decode_eq_none (Nat.lt_of_not_le room)] at decodes
      cases decodes

/-! ## Changes that break -/

/-- A change that makes data unreadable. -/
inductive Breaks : Shape → Json → Json → Prop where
  | secondKey {shape : Shape} (choice : shape.tags ≠ []) (before after : List (Option String × Json))
      (added : Option String × Json) :
      Breaks shape (.object (before ++ after)) (.object (before ++ added :: after))
  | recased {shape : Shape} (choice : shape.tags ≠ []) {tag other : String} (differs : other ≠ tag)
      (lower : other.toList.map Char.toLower = tag.toList.map Char.toLower) (content : Json) :
      Breaks shape (tagged tag content) (tagged other content)
  | fieldDropped {shape : Shape} {field : String} (required : field ∈ shape.required)
      (before after : List (Option String × Json)) (content : Json) :
      Breaks shape (.object (before ++ (some field, content) :: after)) (.object (before ++ after))
  | slotDropped {shape part : Shape} {field : String} {before : List Json}
      (known : shape.fields[before.length]? = some (field, part))
      (required : field ∈ shape.required) (after : List Json) (content : Json) :
      Breaks shape (.array (before ++ content :: after)) (.array (before ++ after))
  | pairLonger (before after : List Json) (added : Json) :
      Breaks .pair (.array (before ++ after)) (.array (before ++ added :: after))
  | pairShorter (before after : List Json) (removed : Json) :
      Breaks .pair (.array (before ++ removed :: after)) (.array (before ++ after))

theorem decode_array_of_dropped {part : Shape} {field : String} {before after : List Json}
    {content : Json} (known : shape.fields[before.length]? = some (field, part))
    (required : field ∈ shape.required)
    (readable : shape.decode levels (.array (before ++ content :: after)) ≠ none) :
    shape.decode levels (.array (before ++ after)) = none := by
  have isRecord := fields_ne_nil_of_required required
  have few : (before ++ content :: after).length ≤ shape.fields.length :=
    Nat.le_of_not_lt fun many => readable (decode_array_of_lt isRecord levels many)
  rw [List.length_append, List.length_cons] at few
  have short (all : shape.required.length = shape.fields.length) :
      shape.decode levels (.array (before ++ after)) = none := by
    refine decode_array_of_short levels ?_
    rw [List.length_append]
    omega
  cases shape with
  | predicate =>
    -- The arguments need not be given, so they may come to stand where the name is read.
    obtain rfl : field = "name" := List.mem_singleton.mp required
    match before, after with
    | [], [] => exact decode_array_of_short levels Nat.one_pos
    | [], [args] => exact predicate?_of_args readable
    | [], _ :: _ :: _ => simp [fields] at few
    | [_], _ => simp [fields] at known
    | _ :: _ :: _, _ => simp [fields] at known
  | rule | program | answer => exact short rfl
  | _ => cases required

theorem Breaks.decode_eq_none (breaks : Breaks shape json changed) {value : shape.Value}
    (decodes : shape.decode levels json = some value) : shape.decode levels changed = none := by
  have readable : shape.decode levels json ≠ none := decodes ▸ Option.some_ne_none value
  cases breaks with
  | secondKey choice before after added =>
    have one : (before ++ after).length = 1 :=
      Decidable.of_not_not fun length => readable (decode_object_of_choice choice levels length)
    refine decode_object_of_choice choice levels ?_
    rw [List.length_append] at one
    rw [List.length_append, List.length_cons]
    omega
  | recased choice differs lower content =>
    refine decode_tagged_of_unknown choice levels (fun knownOther => ?_) content
    have known := Decidable.of_not_not fun unknown =>
      readable (decode_tagged_of_unknown choice levels unknown content)
    exact differs (eq_of_lower_eq known knownOther lower)
  | @fieldDropped _ field required before after content =>
    have once : (given (before ++ (some field, content) :: after) field).length = 1 :=
      Decidable.of_not_not fun wrong => readable (decode_object_of_required required levels wrong)
    refine decode_object_of_required required levels ?_
    rw [given_member, List.length_append, List.length_cons] at once
    rw [given_append, List.length_append]
    omega
  | slotDropped known required after content => exact decode_array_of_dropped known required readable
  | pairLonger before after added =>
    have two : (before ++ after).length = 2 :=
      Decidable.of_not_not fun length => readable (pair?_of_length length levels)
    refine pair?_of_length ?_ levels
    rw [List.length_append] at two
    rw [List.length_append, List.length_cons]
    omega
  | pairShorter before after removed =>
    have two : (before ++ removed :: after).length = 2 :=
      Decidable.of_not_not fun length => readable (pair?_of_length length levels)
    refine pair?_of_length ?_ levels
    rw [List.length_append, List.length_cons] at two
    rw [List.length_append]
    omega

/-! ## Changes at every place -/

theorem Somewhere.decode_eq_some (respells : Somewhere Respells shape levels json changed)
    {value : shape.Value} (decodes : shape.decode levels json = some value) :
    shape.decode levels changed = some value := by
  obtain ⟨part, below, content, other, rest, edit, before, after⟩ := respells.exists_part
  obtain ⟨inner, decoded, rested⟩ := Option.bind_eq_some_iff.mp (before.symm.trans decodes)
  rw [after, edit.decode_eq_some decoded]
  exact rested

theorem decode_eq_some_of_respellings
    (respells : Relation.ReflTransGen (Somewhere Respells shape levels) json changed)
    {value : shape.Value} (decodes : shape.decode levels json = some value) :
    shape.decode levels changed = some value := by
  induction respells with
  | refl => exact decodes
  | tail _ last ih => exact last.decode_eq_some ih

theorem Somewhere.decode_eq_none
    (breaks : Somewhere (fun part _ => Breaks part) shape levels json changed)
    {value : shape.Value} (decodes : shape.decode levels json = some value) :
    shape.decode levels changed = none := by
  obtain ⟨part, below, content, other, rest, edit, before, after⟩ := breaks.exists_part
  obtain ⟨inner, decoded, -⟩ := Option.bind_eq_some_iff.mp (before.symm.trans decodes)
  rw [after, edit.decode_eq_none decoded]
  rfl

end Shape

open Shape in
/-- A text that is decoded as some shape is decoded to the same however often and at whatever places its
records are spelled in another way. A change that breaks an alternative, a record or a pair at any place
of any of these spellings makes decoding fail. -/
theorem spellings_agree (shape : Shape) (levels : Nat) {text : String} {json respelled : Json}
    {value : shape.Value} (reads : parse? text = some json)
    (decodes : (parse? text).bind (shape.decode levels) = some value)
    (respells : Relation.ReflTransGen (Somewhere Respells shape levels) json respelled) :
    (∀ other, parse? other = some respelled →
      (parse? other).bind (shape.decode levels) = some value) ∧
    ∀ broken, Somewhere (fun part _ => Breaks part) shape levels respelled broken →
      ∀ other, parse? other = some broken → (parse? other).bind (shape.decode levels) = none := by
  rw [reads] at decodes
  have same : shape.decode levels respelled = some value :=
    decode_eq_some_of_respellings respells decodes
  constructor
  · intro other readsOther
    rw [readsOther]
    exact same
  · intro broken breaks other readsOther
    rw [readsOther]
    exact breaks.decode_eq_none same

namespace Spelled

/-- The goals `bottom` and `done`, and whatever else stands beside them. -/
def goals (bottom : Json) (more : List Json) : Json :=
  .array (tagged "predicate" bottom :: tagged "atom" (ofString "done") :: more)

def head : String × Json :=
  ("head", ofMembers [("name", ofString "top")])

def body (goals : Json) : String × Json :=
  ("body", tagged "and" goals)

def note : String × Json :=
  ("note", .null)

def rule (members : List (String × Json)) : Json :=
  tagged "rule" (ofMembers members)

def bottom : Json :=
  ofMembers [("name", ofString "bottom"), ("args", .array [])]

def bottomArray : Json :=
  .array [ofString "bottom", .array []]

def plain : Json :=
  rule [head, body (goals bottom [])]

def respelled : Json :=
  rule [body (goals bottomArray []), note, head]

def broken : Json :=
  rule [body (goals bottomArray [.null]), note, head]

/-- `top :- bottom, done.` -/
def stored : Clause :=
  .rule ⟨"top", []⟩ (.conj (.compound "bottom" []) (.atom "done"))

theorem exact_head : head.2.Exact :=
  .object (List.forall_mem_singleton.mpr (.string "top"))

theorem exact_body {bottom : Json} {more : List Json} (exact : bottom.Exact)
    (each : ∀ element ∈ more, element.Exact) : (body (goals bottom more)).2.Exact := by
  have done : (tagged "atom" (ofString "done")).Exact := exact_tagged (.string "done")
  refine exact_tagged (.array ?_)
  exact List.forall_mem_cons.mpr ⟨exact_tagged exact, List.forall_mem_cons.mpr ⟨done, each⟩⟩

theorem exact_bottom : bottom.Exact ∧ bottomArray.Exact := by
  have none : (Json.array []).Exact := .array (List.forall_mem_nil _)
  have name : (ofString "bottom").Exact := .string "bottom"
  refine ⟨.object ?_, .array ?_⟩
  · exact List.forall_mem_cons.mpr ⟨name, List.forall_mem_singleton.mpr none⟩
  · exact List.forall_mem_cons.mpr ⟨name, List.forall_mem_singleton.mpr none⟩

theorem exact_plain : plain.Exact := by
  refine exact_tagged (.object (List.forall_mem_cons.mpr ⟨exact_head, ?_⟩))
  exact List.forall_mem_singleton.mpr (exact_body exact_bottom.1 (List.forall_mem_nil _))

theorem exact_noted {more : List Json} (each : ∀ element ∈ more, element.Exact) :
    (rule [body (goals bottomArray more), note, head]).Exact := by
  refine exact_tagged (.object (List.forall_mem_cons.mpr ⟨exact_body exact_bottom.2 each, ?_⟩))
  exact List.forall_mem_cons.mpr ⟨.null, List.forall_mem_singleton.mpr exact_head⟩

open Shape

variable {change : Shape → Nat → Json → Json → Prop} {levels : Nat} {content other : Json}

theorem somewhere_rule
    (somewhere : Somewhere change .rule levels content other) :
    Somewhere change .clause (levels + 1) (tagged "rule" content) (tagged "rule" other) := by
  have tag : Around .clause .rule (tagged "rule") := .tag (by simp [tags])
  exact .inside tag somewhere

theorem somewhere_body (somewhere : Somewhere change .pair levels content other) :
    Somewhere change .clause (levels + 3) (rule [body content, note, head])
      (rule [body other, note, head]) := by
  have tag : Around .term .pair (tagged "and") := .tag (by simp [tags])
  have field : Around .rule .term fun body => ofMembers [("body", body), note, head] :=
    .field (by simp [fields]) [] [(some "note", note.2), (some "head", head.2)]
  have term : Somewhere change .term (levels + 1) _ _ := .inside tag somewhere
  have rule : Somewhere change .rule (levels + 2) _ _ := .inside field term
  exact somewhere_rule rule

theorem somewhere_bottom (somewhere : Somewhere change .predicate levels content other)
    (more : List Json) :
    Somewhere change .pair (levels + 2) (goals content more) (goals other more) := by
  have tag : Around .term .predicate (tagged "predicate") := .tag (by simp [tags])
  have element : Around .pair .term fun term =>
      .array (term :: tagged "atom" (ofString "done") :: more) := .element rfl [] _
  have term : Somewhere change .term (levels + 1) _ _ := .inside tag somewhere
  have pair : Somewhere change .pair (levels + 2) _ _ := .inside element term
  exact pair

theorem respellings :
    Relation.ReflTransGen (Somewhere Respells .clause nestingLimit) plain respelled := by
  have isRecord {field : String × Shape} {fields : List (String × Shape)} : field :: fields ≠ [] :=
    List.cons_ne_nil _ _
  have reordered : Respells .rule 126 (ofMembers [head, body (goals bottom [])])
      (ofMembers [body (goals bottom []), head]) :=
    .rewritten isRecord (.reordered (.swap _ _ _))
  have noted : Respells .rule 126 (ofMembers [body (goals bottom []), head])
      (ofMembers [body (goals bottom []), note, head]) :=
    .rewritten isRecord (.unknown (by simp [fields]) [(some "body", (body (goals bottom [])).2)]
      [(some "head", head.2)] .null)
  have array : Respells .predicate 122 bottom bottomArray :=
    .rewritten isRecord (@Rewrites.array .predicate [ofString "bottom", .array []] (Nat.le_refl 2))
  exact ((Relation.ReflTransGen.single (somewhere_rule (.here reordered))).tail
    (somewhere_rule (.here noted))).tail (somewhere_body (somewhere_bottom (.here array) []))

theorem breaks : Somewhere (fun part _ => Breaks part) .clause nestingLimit respelled broken := by
  have longer : Breaks .pair (goals bottomArray []) (goals bottomArray [.null]) :=
    .pairLonger [tagged "predicate" bottomArray, tagged "atom" (ofString "done")] [] .null
  exact somewhere_body (.here longer)

end Spelled

open Spelled in
theorem spellings_agree_note :
    (parse? (compact plain)).bind (clause? nestingLimit) = some stored ∧
      (parse? (compact respelled)).bind (clause? nestingLimit) = some stored ∧
      (parse? (compact broken)).bind (clause? nestingLimit) = none := by
  have reads : parse? (compact plain) = some plain := parse?_compact exact_plain
  have decodes : (parse? (compact plain)).bind (clause? nestingLimit) = some stored := by
    rw [reads]
    rfl
  obtain ⟨same, none⟩ := spellings_agree .clause nestingLimit reads decodes respellings
  refine ⟨decodes, same _ ?_, none broken breaks _ ?_⟩
  · exact parse?_compact (exact_noted (List.forall_mem_nil _))
  · exact parse?_compact (exact_noted (List.forall_mem_singleton.mpr .null))

namespace Tower

/-- A predicate whose one argument is a predicate. -/
def storey (inner : Json) : Json :=
  ofMembers [("name", ofString "f"), ("args", .array [tagged "predicate" inner])]

def upon (ground : Json) : Nat → Json
  | 0 => ground
  | storeys + 1 => storey (upon ground storeys)

def raised (ground : Predicate) : Nat → Predicate
  | 0 => ground
  | storeys + 1 => ⟨"f", [(raised ground storeys).toTerm]⟩

def bare : Json :=
  ofMembers [("name", ofString "q")]

def listed : Json :=
  ofMembers [("name", ofString "q"), ("args", .array [])]

theorem exact_upon {ground : Json} (exact : ground.Exact) (storeys : Nat) :
    (upon ground storeys).Exact := by
  induction storeys with
  | zero => exact exact
  | succ storeys ih =>
    refine .object ?_
    intro pair member
    rcases List.mem_pair.mp member with rfl | rfl
    · exact .string "f"
    · refine .array ?_
      intro element argument
      obtain rfl := List.mem_singleton.mp argument
      exact exact_tagged ih

theorem args?_one (levels : Nat) (fact : Json) :
    args? (levels + 2) (.array [tagged "predicate" fact]) =
      (predicate? levels fact).map fun p => [p.toTerm] := by
  rw [args?, List.mapM_cons, List.mapM_nil]
  change ((predicate? levels fact).map Predicate.toTerm).bind (fun term => some [term]) = _
  cases predicate? levels fact <;> rfl

theorem predicate?_upon (ground : Json) (levels storeys : Nat) :
    predicate? (levels + 3 * storeys) (upon ground storeys) =
      (predicate? levels ground).map (raised · storeys) := by
  induction storeys with
  | zero => exact Option.map_id'.symm
  | succ storeys ih =>
    refine (predicate?_succ (levels + 3 * storeys + 2) (upon ground (storeys + 1))).trans ?_
    change (args? _ (.array [tagged "predicate" (upon ground storeys)])).map
      (fun args => Predicate.mk "f" args) = _
    rw [args?_one, ih, Option.map_map, Option.map_map]
    rfl

theorem somewhere_upon {change : Shape → Nat → Json → Json → Prop} {ground other : Json}
    {levels : Nat} (changes : change .predicate levels ground other) (storeys : Nat) :
    Shape.Somewhere change .predicate (levels + 3 * storeys) (upon ground storeys)
      (upon other storeys) := by
  induction storeys with
  | zero => exact .here changes
  | succ storeys ih =>
    have tag : Shape.Around .term .predicate (tagged "predicate") := .tag (by simp [Shape.tags])
    have element : Shape.Around .terms .term fun term => .array [term] := .element rfl [] []
    have field : Shape.Around .predicate .terms fun args =>
        .object [(some "name", ofString "f"), (some "args", args)] :=
      .field (by simp [Shape.fields]) [(some "name", ofString "f")] []
    have argument : Shape.Somewhere change .term (levels + 3 * storeys + 1) _ _ := .inside tag ih
    have arguments : Shape.Somewhere change .terms (levels + 3 * storeys + 2) _ _ :=
      .inside element argument
    have predicate : Shape.Somewhere change .predicate (levels + 3 * storeys + 3) _ _ :=
      .inside field arguments
    exact predicate

end Tower

open Tower in
/-- The one spelling that can fail: an empty list of arguments one level below the last. -/
theorem empty_args_beyond_the_limit :
    parse? (compact (upon bare 42)) = some (upon bare 42) ∧
      parse? (compact (upon listed 42)) = some (upon listed 42) ∧
      Shape.Somewhere (fun part _ => Shape.AddsArgs part) .predicate nestingLimit (upon bare 42)
        (upon listed 42) ∧
      (parse? (compact (upon bare 42))).bind (predicate? nestingLimit) =
        some (raised ⟨"q", []⟩ 42) ∧
      (parse? (compact (upon listed 42))).bind (predicate? nestingLimit) = none := by
  have exactName : ∀ member ∈ [("name", ofString "q")], member.2.Exact :=
    List.forall_mem_singleton.mpr (.string "q")
  have exactBare : bare.Exact := .object exactName
  have exactListed : listed.Exact := by
    refine .object (List.forall_mem_cons.mpr ⟨.string "q", List.forall_mem_singleton.mpr ?_⟩)
    exact .array (by simp)
  have readsBare := parse?_compact (exact_upon exactBare 42)
  have readsListed := parse?_compact (exact_upon exactListed 42)
  have adds : Shape.AddsArgs .predicate bare listed :=
    @Shape.AddsArgs.object [(some "name", ofString "q")] [] rfl
  have refused : predicate? 1 listed = none := adds.decode_eq_none Nat.one_lt_two
  have decoded : predicate? 1 bare = some ⟨"q", []⟩ := rfl
  have limit : nestingLimit = 1 + 3 * 42 := rfl
  rw [limit]
  refine ⟨readsBare, readsListed, somewhere_upon adds 42, ?_, ?_⟩
  · rw [readsBare, Option.bind_some, predicate?_upon, decoded, Option.map_some]
  · rw [readsListed, Option.bind_some, predicate?_upon, refused, Option.map_none]

end Backchain.Json
