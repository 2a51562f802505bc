import Backchain.Proofs.Search.CopyNames
import Backchain.Proofs.Search.Skeleton
import Backchain.Proofs.Search.Soundness

/-!
The equations of a skeleton.

A skeleton fits goals if each of them gets a clause of its name and number of arguments. Its equations
set each goal equal to its clause: a fact as it is stored, or the head of a fresh copy of a rule, whose
copied goals then stand for the goals below. The copies are numbered in the order of the skeleton, and
any numbers do as long as no two copies share one. Values that solve the equations are the same as
derivations in which each copy keeps its own values.
-/
set_option autoImplicit false

namespace Backchain

inductive Fits (database : Database) : Skeleton → List Predicate → Prop where
  | done : Fits database .done []
  | fact {place fact rest goal goals} (stored : database.facts[place]? = some fact)
      (same : fact.signature = goal.signature) (later : Fits database rest goals) :
      Fits database (.fact place rest) (goal :: goals)
  | rule {place rule parts rest goal goals} (stored : database.rules[place]? = some rule)
      (same : rule.head.signature = goal.signature) (within : Fits database parts rule.goals)
      (later : Fits database rest goals) : Fits database (.rule place parts rest) (goal :: goals)

namespace Skeleton

def copies : Skeleton → Nat
  | .done => 0
  | .fact _ rest => rest.copies
  | .rule _ parts rest => parts.copies + rest.copies + 1

/-- The equations for some goals, when the copies get these numbers. -/
def equations (database : Database) :
    Skeleton → (Nat → Nat) → List Predicate → List (Term × Term)
  | .fact place rest, number, goal :: goals =>
    match database.facts[place]? with
    | some stored => (goal.toTerm, stored.toTerm) :: rest.equations database number goals
    | none => []
  | .rule place parts rest, number, goal :: goals =>
    match database.rules[place]? with
    | some stored =>
      (goal.toTerm, (stored.copiedHead (number 0)).toTerm) ::
        (parts.equations database (fun i => number (i + 1)) (stored.copiedGoals (number 0)) ++
          rest.equations database (fun i => number (i + parts.copies + 1)) goals)
    | none => []
  | _, _, _ => []

end Skeleton

def Env.equations (env : Env) : List (Term × Term) :=
  env.toList.map fun entry => (.var entry.1, entry.2)

/-- Values that make both sides of all equations equal. -/
def Solves (value : String → Term) (equations : List (Term × Term)) : Prop :=
  ∀ equation ∈ equations, equation.1.bind value = equation.2.bind value

/-- A solution through which all other solutions factor. -/
def IsMgu (value : String → Term) (equations : List (Term × Term)) : Prop :=
  Solves value equations ∧
    ∀ other, Solves other equations → ∃ further, ∀ x, other x = (value x).bind further

/-- The equations of a skeleton have a solution together with the bindings of an environment; the
copies are numbered from one on, as in a first search. -/
def Skeleton.Solvable (database : Database) (env : Env) (goals : List Predicate)
    (skeleton : Skeleton) : Prop :=
  ∃ value, Solves value (env.equations ++ skeleton.equations database (· + 1) goals)

section

variable {value : String → Term}

theorem solves_cons {equation : Term × Term} {equations : List (Term × Term)} :
    Solves value (equation :: equations) ↔
      equation.1.bind value = equation.2.bind value ∧ Solves value equations :=
  List.forall_mem_cons

theorem solves_append {first second : List (Term × Term)} :
    Solves value (first ++ second) ↔ Solves value first ∧ Solves value second :=
  List.forall_mem_append

theorem solves_equations {env : Env} : Solves value env.equations ↔ env.SolvedBy value := by
  unfold Solves Env.equations
  rw [List.forall_mem_map]
  constructor
  · intro solves x term bound
    exact solves (x, term) (Env.mem_toList_iff.mpr bound)
  · rintro solved ⟨x, term⟩ member
    exact solved x term (Env.mem_toList_iff.mp member)

theorem toTerm_bind_eq_iff {p q : Predicate} :
    p.toTerm.bind value = q.toTerm.bind value ↔ p.bind value = q.bind value := by
  rw [← Predicate.toTerm_bind, ← Predicate.toTerm_bind]
  exact ⟨Predicate.toTerm_injective, congrArg Predicate.toTerm⟩

end

/-! ## Skeletons that fit -/

variable {database : Database} {skeleton : Skeleton} {goals : List Predicate}

theorem Fits.of_signatures {others : List Predicate} (fits : Fits database skeleton goals)
    (same : goals.map Predicate.signature = others.map Predicate.signature) :
    Fits database skeleton others := by
  induction fits generalizing others with
  | done =>
    obtain rfl : others = [] := by simpa using same.symm
    exact .done
  | fact stored agrees _ ih =>
    cases others with
    | nil => cases same
    | cons other others =>
      rw [List.map_cons, List.map_cons, List.cons.injEq] at same
      exact .fact stored (agrees.trans same.1) (ih same.2)
  | rule stored agrees within _ _ ih =>
    cases others with
    | nil => cases same
    | cons other others =>
      rw [List.map_cons, List.map_cons, List.cons.injEq] at same
      exact .rule stored (agrees.trans same.1) within (ih same.2)

theorem signatures_bind (value : String → Term) (goals : List Predicate) :
    (goals.map fun goal => goal.bind value).map Predicate.signature =
      goals.map Predicate.signature := by
  simp [Predicate.signature_bind]

theorem signatures_copiedGoals (rule : Rule) (number : Nat) :
    (rule.copiedGoals number).map Predicate.signature = rule.goals.map Predicate.signature := by
  simp [Rule.copiedGoals, Predicate.signature_rename]

theorem Derives.fits {value : String → Term} {instances : List Predicate}
    (derives : Derives database value skeleton instances) : Fits database skeleton instances := by
  induction derives with
  | done => exact .done
  | fact stored _ ih => exact .fact stored (Predicate.signature_bind _ _).symm ih
  | rule inner stored _ _ ihWithin ihLater =>
    exact .rule stored (Predicate.signature_bind _ _).symm
      (ihWithin.of_signatures (signatures_bind inner _)) ihLater

theorem Fits.split {second : List Predicate}
    (fits : Fits database skeleton (goals ++ second)) :
    Fits database (skeleton.take goals.length) goals ∧
      Fits database (skeleton.drop goals.length) second := by
  induction goals generalizing skeleton with
  | nil =>
    refine ⟨?_, ?_⟩
    · cases skeleton <;> exact .done
    · cases skeleton <;> exact fits
  | cons goal goals ih =>
    rw [List.cons_append] at fits
    cases fits with
    | fact stored same later =>
      obtain ⟨before, after⟩ := ih later
      exact ⟨.fact stored same before, after⟩
    | rule stored same within later =>
      obtain ⟨before, after⟩ := ih later
      exact ⟨.rule stored same within before, after⟩

theorem Fits.take_drop_append {parts : Skeleton} {others : List Predicate}
    (fits : Fits database parts others) (last : Skeleton) :
    (parts.append last).take others.length = parts ∧
      (parts.append last).drop others.length = last := by
  induction fits with
  | done => cases last <;> exact ⟨rfl, rfl⟩
  | fact _ _ _ ih => exact ⟨congrArg _ ih.1, ih.2⟩
  | rule _ _ _ _ _ ih => exact ⟨congrArg _ ih.1, ih.2⟩

theorem equations_append {parts rest : Skeleton} {second : List Predicate}
    (fits : Fits database parts goals) (number : Nat → Nat) :
    (parts.append rest).equations database number (goals ++ second) =
      parts.equations database number goals ++
        rest.equations database (fun i => number (i + parts.copies)) second := by
  induction fits generalizing number with
  | done => rfl
  | fact stored _ _ ih =>
    rw [List.cons_append, Skeleton.append, Skeleton.equations, stored, Skeleton.equations, stored,
      Skeleton.copies]
    simp only [ih number, List.cons_append]
  | @rule place rule inner last goal goals stored _ _ _ _ ih =>
    have later := ih fun i => number (i + inner.copies + 1)
    have shift : ∀ i, i + last.copies + inner.copies + 1 = i + (inner.copies + last.copies + 1) := by
      omega
    rw [List.cons_append, Skeleton.append, Skeleton.equations, stored, Skeleton.equations, stored,
      Skeleton.copies]
    simp only [later, shift, List.cons_append, List.append_assoc]

/-! ## Solutions and derivations -/

theorem derives_of_solves {value : String → Term} {number : Nat → Nat}
    (fits : Fits database skeleton goals)
    (solves : Solves value (skeleton.equations database number goals)) :
    Derives database value skeleton (goals.map fun goal => goal.bind value) := by
  induction skeleton generalizing number goals with
  | done =>
    cases fits
    exact .done
  | fact place rest ih =>
    cases fits with
    | fact stored same later =>
      rw [Skeleton.equations, stored] at solves
      obtain ⟨equal, others⟩ := solves_cons.mp solves
      rw [List.map_cons, toTerm_bind_eq_iff.mp equal]
      exact .fact stored (ih later others)
  | rule place parts rest ihParts ihRest =>
    cases fits with
    | rule stored same within later =>
      rename_i rule goal goals
      rw [Skeleton.equations, stored] at solves
      obtain ⟨equal, others⟩ := solves_cons.mp solves
      obtain ⟨inside, after⟩ := solves_append.mp others
      have below := ihParts (within.of_signatures (signatures_copiedGoals rule _).symm) inside
      rw [copiedGoals_bind] at below
      rw [List.map_cons, toTerm_bind_eq_iff.mp equal, copiedHead_bind]
      exact .rule _ stored below (ihRest later after)

/-- The values that the uses of rules take in a derivation, in the order of the skeleton: all values
that agree with these on the copies solve the equations. -/
theorem exists_inner {value : String → Term} {instances : List Predicate}
    (derives : Derives database value skeleton instances) :
    ∃ inner : Nat → String → Term, ∀ (other : String → Term) (number : Nat → Nat)
      (goals : List Predicate), (∀ fact ∈ database.facts, fact.bind other = fact.bind value) →
      (goals.map fun goal => goal.bind other) = instances →
      (∀ i < skeleton.copies, ∀ x, other (copyName (number i) x) = inner i x) →
      Solves other (skeleton.equations database number goals) := by
  induction derives with
  | done =>
    refine ⟨fun _ => .var, ?_⟩
    intro other number goals _ _ _ equation member
    cases goals <;> exact absurd member List.not_mem_nil
  | @fact place fact rest instances stored _ ih =>
    obtain ⟨inner, solves⟩ := ih
    refine ⟨inner, ?_⟩
    intro other number goals facts same copies
    cases goals with
    | nil => cases same
    | cons goal goals =>
      rw [List.map_cons, List.cons.injEq] at same
      rw [Skeleton.equations, stored]
      refine solves_cons.mpr ⟨?_, solves other number goals facts same.2 copies⟩
      rw [toTerm_bind_eq_iff, same.1, facts fact (Array.mem_of_getElem? stored)]
  | @rule place rule parts rest instances chosen stored _ _ ihWithin ihLater =>
    obtain ⟨inner, solvesWithin⟩ := ihWithin
    obtain ⟨last, solvesLater⟩ := ihLater
    let values : Nat → String → Term
      | 0 => chosen
      | i + 1 => if i < parts.copies then inner i else last (i - parts.copies)
    refine ⟨values, ?_⟩
    intro other number goals facts same copies
    cases goals with
    | nil => cases same
    | cons goal goals =>
      rw [List.map_cons, List.cons.injEq] at same
      simp only [Skeleton.copies] at copies
      have copied : (fun x => other (copyName (number 0) x)) = chosen :=
        funext fun x => copies 0 (by omega) x
      rw [Skeleton.equations, stored]
      refine solves_cons.mpr ⟨?_, solves_append.mpr ⟨?_, ?_⟩⟩
      · rw [toTerm_bind_eq_iff, same.1, copiedHead_bind, copied]
      · apply solvesWithin other _ _ facts
        · rw [copiedGoals_bind, copied]
        · intro i small x
          rw [copies (i + 1) (by omega) x]
          simp only [values, if_pos small]
      · apply solvesLater other _ _ facts same.2
        intro i small x
        rw [copies (i + parts.copies + 1) (by omega) x]
        simp only [values]
        rw [if_neg (by omega), Nat.add_sub_cancel]

/-- Derived instances come from a solution of the equations, for fresh and distinct numbers. The
solution keeps the values of all names below the numbers. -/
theorem exists_agreeing_solution {env : Env} {value : String → Term} {number : Nat → Nat}
    {bound : Nat} (facts : ∀ fact ∈ database.facts, fact.IsBelow bound)
    (below : ∀ goal ∈ goals, goal.IsBelow bound) (belowEnv : env.Every (Term.IsBelow bound))
    (distinct : ∀ i j, number i = number j → i = j) (fresh : ∀ i, bound < number i)
    (solved : env.SolvedBy value)
    (derives : Derives database value skeleton (goals.map fun goal => goal.bind value)) :
    ∃ other : String → Term, (∀ x, Below bound x → other x = value x) ∧
      Solves other (env.equations ++ skeleton.equations database number goals) := by
  obtain ⟨inner, solves⟩ := exists_inner derives
  refine ⟨withCopies value number inner, ?_, solves_append.mpr ⟨?_, ?_⟩⟩
  · exact fun x small => withCopies_of_below small fresh
  · exact solves_equations.mpr (solvedBy_withCopies belowEnv fresh solved)
  · apply solves
    · exact fun fact member => bind_withCopies (facts fact member) fresh
    · exact List.map_congr_left fun goal member => bind_withCopies (below goal member) fresh
    · exact fun i _ x => withCopies_copyName (fun i j same => by rw [distinct i j same]) i x

theorem exists_solution {env : Env} {value : String → Term} {number : Nat → Nat} {bound : Nat}
    (facts : ∀ fact ∈ database.facts, fact.IsBelow bound)
    (below : ∀ goal ∈ goals, goal.IsBelow bound) (belowEnv : env.Every (Term.IsBelow bound))
    (distinct : ∀ i j, number i = number j → i = j) (fresh : ∀ i, bound < number i)
    (solved : env.SolvedBy value)
    (derives : Derives database value skeleton (goals.map fun goal => goal.bind value)) :
    ∃ other, Solves other (env.equations ++ skeleton.equations database number goals) := by
  obtain ⟨other, -, solves⟩ :=
    exists_agreeing_solution facts below belowEnv distinct fresh solved derives
  exact ⟨other, solves⟩

end Backchain
