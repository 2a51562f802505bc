import Backchain.Json.Codec
import Backchain.Proofs.Answer
import Backchain.Proofs.Json.Reading

/-!
Decoding undoes encoding.

Encoding gives values whose compact text says all there is to them, so the reader gives back what was
written. What is left is to decode the encoding itself: the tag of each alternative leads back to it,
fields are found by their names, and every list keeps its order. A decoder of stored data is given
the levels that arrays and objects may nest, and the levels that the encoding nests are enough.
-/
set_option autoImplicit false

namespace Backchain

namespace Json

mutual

/-- The levels that arrays and objects nest. -/
def nesting : Json → Nat
  | .array elements => nestingElements elements + 1
  | .object members => nestingMembers members + 1
  | _ => 0

def nestingElements : List Json → Nat
  | [] => 0
  | element :: elements => max (nesting element) (nestingElements elements)

def nestingMembers : List (Option String × Json) → Nat
  | [] => 0
  | (_, content) :: members => max (nesting content) (nestingMembers members)

end

theorem nestingElements_le {all : List Json} {levels : Nat} :
    nestingElements all ≤ levels ↔ ∀ element ∈ all, element.nesting ≤ levels := by
  induction all with
  | nil => simp [nestingElements]
  | cons element all ih => rw [nestingElements, Nat.max_le, ih, List.forall_mem_cons]

theorem nestingMembers_le {all : List (Option String × Json)} {levels : Nat} :
    nestingMembers all ≤ levels ↔ ∀ member ∈ all, member.2.nesting ≤ levels := by
  induction all with
  | nil => simp [nestingMembers]
  | cons member all ih =>
    obtain ⟨name, content⟩ := member
    rw [nestingMembers, Nat.max_le, ih, List.forall_mem_cons]

theorem exists_of_nesting_array {all : List Json} {levels : Nat}
    (enough : (Json.array all).nesting ≤ levels) :
    ∃ less, levels = less + 1 ∧ ∀ element ∈ all, element.nesting ≤ less := by
  rw [nesting] at enough
  obtain ⟨less, rfl⟩ : ∃ less, levels = less + 1 := Nat.exists_eq_add_one.mpr (by omega)
  exact ⟨less, rfl, nestingElements_le.mp (by omega)⟩

theorem exists_of_nesting_object {all : List (String × Json)} {levels : Nat}
    (enough : (ofMembers all).nesting ≤ levels) :
    ∃ less, levels = less + 1 ∧ ∀ pair ∈ all, pair.2.nesting ≤ less := by
  rw [Reader.ofMembers_eq, nesting] at enough
  obtain ⟨less, rfl⟩ : ∃ less, levels = less + 1 := Nat.exists_eq_add_one.mpr (by omega)
  have each := nestingMembers_le.mp (Nat.le_of_succ_le_succ enough)
  exact ⟨less, rfl, fun pair known => each _ (List.mem_map_of_mem known)⟩

theorem exists_of_nesting_tagged {tag : String} {content : Json} {levels : Nat}
    (enough : (tagged tag content).nesting ≤ levels) :
    ∃ less, levels = less + 1 ∧ content.nesting ≤ less := by
  have members : (ofMembers [(tag, content)]).nesting ≤ levels := enough
  obtain ⟨less, same, each⟩ := exists_of_nesting_object members
  exact ⟨less, same, each _ (List.mem_singleton_self _)⟩

/-! ## Encodings have exact texts -/

theorem exact_tagged {tag : String} {content : Json} (exact : content.Exact) :
    (tagged tag content).Exact := by
  have members : (ofMembers [(tag, content)]).Exact := .object (List.forall_mem_singleton.mpr exact)
  exact members

theorem ofTerms_eq (terms : List Term) : ofTerms terms = terms.map ofTerm := by
  induction terms with
  | nil => rfl
  | cons term terms ih => rw [ofTerms, ih, List.map_cons]

theorem exact_of_args {p : Predicate} (each : ∀ arg ∈ p.args, (ofTerm arg).Exact) :
    (ofPredicate p).Exact := by
  have args : (Json.array (ofTerms p.args)).Exact := by
    rw [ofTerms_eq]
    exact .array (List.forall_mem_map.mpr each)
  refine .object (List.forall_mem_cons.mpr ⟨.string p.name, ?_⟩)
  exact List.forall_mem_singleton.mpr args

theorem exact_ofTerm (term : Term) : (ofTerm term).Exact := by
  induction term with
  | atom name => exact exact_tagged (.string name)
  | number value => exact exact_tagged (.integer value.toInt)
  | string text => exact exact_tagged (.string text)
  | var name => exact exact_tagged (.string name)
  | compound name args ih => exact exact_tagged (exact_of_args (p := ⟨name, args⟩) ih)
  | conj left right leftExact rightExact =>
    refine exact_tagged (.array (List.forall_mem_cons.mpr ⟨leftExact, ?_⟩))
    exact List.forall_mem_singleton.mpr rightExact

theorem exact_ofPredicate (p : Predicate) : (ofPredicate p).Exact :=
  exact_of_args fun arg _ => exact_ofTerm arg

theorem exact_ofClause (clause : Clause) : (ofClause clause).Exact := by
  cases clause with
  | fact predicate => exact exact_tagged (exact_ofPredicate predicate)
  | rule head body =>
    refine exact_tagged (.object (List.forall_mem_cons.mpr ⟨exact_ofPredicate head, ?_⟩))
    exact List.forall_mem_singleton.mpr (exact_ofTerm body)
  | query goal => exact exact_tagged (exact_ofTerm goal)

theorem exact_ofProgram (program : Program) : (ofProgram program).Exact := by
  refine .object (List.forall_mem_singleton.mpr (.array ?_))
  exact List.forall_mem_map.mpr fun clause _ => exact_ofClause clause

theorem exact_ofAnswer (answer : Answer) : (ofAnswer answer).Exact := by
  refine .object (List.forall_mem_singleton.mpr (.object ?_))
  exact List.forall_mem_map.mpr fun binding _ => .string binding.2

theorem exact_ofOutcome (outcome : Outcome) : (ofOutcome outcome).Exact := by
  cases outcome with
  | proven holds => exact exact_tagged (.bool holds)
  | solutions answers =>
    refine exact_tagged (.array ?_)
    exact List.forall_mem_map.mpr fun answer _ => exact_ofAnswer answer

/-! ## Decoding terms and clauses -/

/-- The decoder gives the value back whenever its limit is no less than what the encoding nests. -/
def Decodes {α : Type} (decode : Nat → Json → Option α) (encode : α → Json) (x : α) : Prop :=
  ∀ levels, (encode x).nesting ≤ levels → decode levels (encode x) = some x

theorem word?_toInt (value : Int64) : word? (.integer value.toInt) = some value := by
  rw [word?, if_pos ⟨value.minValue_le_toInt, value.toInt_le⟩, Int64.ofInt_toInt]

theorem mapM_map_eq_some {α β : Type} {encode : α → β} {decode : β → Option α} {items : List α}
    (each : ∀ item ∈ items, decode (encode item) = some item) :
    (items.map encode).mapM decode = some items := by
  induction items with
  | nil => rfl
  | cons item items ih =>
    obtain ⟨first, others⟩ := List.forall_mem_cons.mp each
    rw [List.map_cons, List.mapM_cons, first, ih others]
    rfl

theorem recordWithLast?_ofMembers (name args : Json) :
    recordWithLast? "name" "args" (ofMembers [("name", name), ("args", args)]) =
      some (name, some args) := by
  rfl

theorem decodes_of_args {p : Predicate} (each : ∀ arg ∈ p.args, Decodes term? ofTerm arg) :
    Decodes predicate? ofPredicate p := by
  intro levels enough
  obtain ⟨levels, rfl, fields⟩ := exists_of_nesting_object enough
  obtain ⟨-, last⟩ := List.forall_mem_cons.mp fields
  obtain ⟨levels, rfl, elements⟩ := exists_of_nesting_array (last _ (List.mem_singleton_self _))
  have args : args? (levels + 1) (.array (ofTerms p.args)) = some p.args := by
    rw [ofTerms_eq] at elements ⊢
    rw [args?]
    exact mapM_map_eq_some fun arg known =>
      each arg known levels (elements _ (List.mem_map_of_mem known))
  rw [ofPredicate, predicate?, recordWithLast?_ofMembers]
  simp only [args]
  rfl

theorem decodes_term (term : Term) : Decodes term? ofTerm term := by
  induction term with
  | atom name =>
    intro levels enough
    obtain ⟨levels, rfl, -⟩ := exists_of_nesting_tagged enough
    rfl
  | number value =>
    intro levels enough
    obtain ⟨levels, rfl, -⟩ := exists_of_nesting_tagged enough
    rw [ofTerm, tagged, term?]
    simp only [word?_toInt, Option.map_some]
  | string text =>
    intro levels enough
    obtain ⟨levels, rfl, -⟩ := exists_of_nesting_tagged enough
    rfl
  | var name =>
    intro levels enough
    obtain ⟨levels, rfl, -⟩ := exists_of_nesting_tagged enough
    rfl
  | compound name args ih =>
    intro levels enough
    obtain ⟨levels, rfl, content⟩ := exists_of_nesting_tagged enough
    have decoded := decodes_of_args (p := ⟨name, args⟩) ih levels content
    have same : ofTerm (.compound name args) = tagged "predicate" (ofPredicate ⟨name, args⟩) := rfl
    rw [same, tagged, term?]
    simp only [decoded, Option.map_some]
    rfl
  | conj left right decodesLeft decodesRight =>
    intro levels enough
    obtain ⟨levels, rfl, content⟩ := exists_of_nesting_tagged enough
    obtain ⟨levels, rfl, both⟩ := exists_of_nesting_array content
    obtain ⟨first, last⟩ := List.forall_mem_cons.mp both
    have decodedLeft := decodesLeft levels first
    have decodedRight := decodesRight levels (last _ (List.mem_singleton_self _))
    rw [ofTerm, tagged, term?]
    simp only [pair?, decodedLeft, decodedRight]

theorem decodes_predicate (p : Predicate) : Decodes predicate? ofPredicate p :=
  decodes_of_args fun arg _ => decodes_term arg

theorem record?_headAndBody (head body : Json) :
    record? ["head", "body"] (ofMembers [("head", head), ("body", body)]) = some [head, body] := by
  rfl

theorem decodes_clause (clause : Clause) : Decodes clause? ofClause clause := by
  intro levels enough
  cases clause with
  | fact predicate =>
    obtain ⟨levels, rfl, content⟩ := exists_of_nesting_tagged enough
    have decoded := decodes_predicate predicate levels content
    rw [ofClause, tagged, clause?]
    simp only [decoded, Option.map_some]
  | rule head body =>
    obtain ⟨levels, rfl, content⟩ := exists_of_nesting_tagged enough
    obtain ⟨levels, rfl, both⟩ := exists_of_nesting_object content
    obtain ⟨first, last⟩ := List.forall_mem_cons.mp both
    have decodedHead := decodes_predicate head levels first
    have decodedBody := decodes_term body levels (last _ (List.mem_singleton_self _))
    rw [ofClause, tagged, clause?]
    simp only [headAndBody?, record?_headAndBody, decodedHead, decodedBody, Option.map_some]
  | query goal =>
    obtain ⟨levels, rfl, content⟩ := exists_of_nesting_tagged enough
    have decoded := decodes_term goal levels content
    rw [ofClause, tagged, clause?]
    simp only [decoded, Option.map_some]

theorem decodes_program (program : Program) : Decodes program? ofProgram program := by
  intro levels enough
  obtain ⟨levels, rfl, fields⟩ := exists_of_nesting_object enough
  obtain ⟨levels, rfl, elements⟩ := exists_of_nesting_array (fields _ (List.mem_singleton_self _))
  have clauses : (program.map ofClause).mapM (clause? levels) = some program :=
    mapM_map_eq_some fun clause known =>
      decodes_clause clause levels (elements _ (List.mem_map_of_mem known))
  have record : record? ["clauses"] (ofProgram program) = some [.array (program.map ofClause)] := rfl
  rw [program?, record]
  exact clauses

/-! ## Decoding answers and outcomes -/

theorem answer?_ofMembers (all : List (String × Json)) :
    answer? (ofMembers [("bindings", ofMembers all)]) =
      ((all.map Reader.named).mapM binding?).map Answer.ofList := by
  rfl

theorem answer?_ofAnswer (answer : Answer) : answer? (ofAnswer answer) = some answer := by
  have bindings :
      (answer.bindings.map fun binding => Reader.named (binding.1, ofString binding.2)).mapM
        binding? = some answer.bindings :=
    mapM_map_eq_some fun _ _ => rfl
  rw [ofAnswer, answer?_ofMembers, List.map_map]
  exact (congrArg (Option.map Answer.ofList) bindings).trans (congrArg some answer.ofList_bindings)

theorem outcome?_ofOutcome (outcome : Outcome) : outcome? (ofOutcome outcome) = some outcome := by
  cases outcome with
  | proven holds => rfl
  | solutions answers =>
    have decoded : (answers.map ofAnswer).mapM answer? = some answers :=
      mapM_map_eq_some fun answer _ => answer?_ofAnswer answer
    rw [ofOutcome, tagged, outcome?, decoded]
    rfl

/-! ## Texts -/

theorem Decodes.bind_parse? {α : Type} {decode : Nat → Json → Option α} {encode : α → Json} {x : α}
    (decodes : Decodes decode encode x) (exact : (encode x).Exact) {levels : Nat}
    (enough : (encode x).nesting ≤ levels) :
    (parse? (compact (encode x))).bind (decode levels) = some x := by
  rw [parse?_compact exact, Option.bind_some, decodes levels enough]

/-- Every value is decoded from the compact text of its encoding. No limit on nesting gets in the way
that is no less than what the encoding nests. -/
theorem decoding_undoes_encoding :
    (∀ (term : Term) (levels : Nat), (ofTerm term).nesting ≤ levels →
      (parse? (compact (ofTerm term))).bind (term? levels) = some term) ∧
    (∀ (p : Predicate) (levels : Nat), (ofPredicate p).nesting ≤ levels →
      (parse? (compact (ofPredicate p))).bind (predicate? levels) = some p) ∧
    (∀ (clause : Clause) (levels : Nat), (ofClause clause).nesting ≤ levels →
      (parse? (compact (ofClause clause))).bind (clause? levels) = some clause) ∧
    (∀ (program : Program) (levels : Nat), (ofProgram program).nesting ≤ levels →
      (parse? (compact (ofProgram program))).bind (program? levels) = some program) ∧
    (∀ answer : Answer, (parse? (compact (ofAnswer answer))).bind answer? = some answer) ∧
    (∀ outcome : Outcome, (parse? (compact (ofOutcome outcome))).bind outcome? = some outcome) := by
  refine ⟨?terms, ?predicates, ?clauses, ?programs, ?answers, ?outcomes⟩
  case terms => exact fun term _ => (decodes_term term).bind_parse? (exact_ofTerm term)
  case predicates => exact fun p _ => (decodes_predicate p).bind_parse? (exact_ofPredicate p)
  case clauses => exact fun clause _ => (decodes_clause clause).bind_parse? (exact_ofClause clause)
  case programs =>
    exact fun program _ => (decodes_program program).bind_parse? (exact_ofProgram program)
  case answers =>
    intro answer
    rw [parse?_compact (exact_ofAnswer answer), Option.bind_some, answer?_ofAnswer]
  case outcomes =>
    intro outcome
    rw [parse?_compact (exact_ofOutcome outcome), Option.bind_some, outcome?_ofOutcome]

/-- A head with an empty name, the least number and characters that strings must escape. -/
def markedHead : Predicate :=
  ⟨"", [.number Int64.minValue, .string "\"\\\n\x00é"]⟩

def markedBody : Term :=
  .conj (.var "") (.compound "\"" [.atom "/"])

theorem decoding_undoes_encoding_marks :
    ((ofTerm markedBody).nesting ≤ nestingLimit ∧
      (parse? (compact (ofTerm markedBody))).bind (term? nestingLimit) = some markedBody) ∧
    ((ofPredicate markedHead).nesting ≤ nestingLimit ∧
      (parse? (compact (ofPredicate markedHead))).bind (predicate? nestingLimit) =
        some markedHead) ∧
    ((ofClause (.rule markedHead markedBody)).nesting ≤ nestingLimit ∧
      (parse? (compact (ofClause (.rule markedHead markedBody)))).bind (clause? nestingLimit) =
        some (.rule markedHead markedBody)) ∧
    ((ofProgram [.query markedBody]).nesting ≤ nestingLimit ∧
      (parse? (compact (ofProgram [.query markedBody]))).bind (program? nestingLimit) =
        some [.query markedBody]) := by
  obtain ⟨terms, predicates, clauses, programs, -⟩ := decoding_undoes_encoding
  refine ⟨⟨by decide, ?_⟩, ⟨by decide, ?_⟩, ⟨by decide, ?_⟩, ⟨by decide, ?_⟩⟩
  · exact terms _ nestingLimit (by decide)
  · exact predicates _ nestingLimit (by decide)
  · exact clauses _ nestingLimit (by decide)
  · exact programs _ nestingLimit (by decide)

end Json

end Backchain
