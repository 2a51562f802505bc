import Backchain.Proofs.Term.Bind

/-!
Places in a term.

A place is reached from the top by the numbers of the children that are taken on the way down, and
places are ordered as such lists are, number by number. The occurrences of a term are its variables
place by place, so they come in the order of their places.
-/
set_option autoImplicit false

namespace Backchain

namespace Term

/-- The terms directly below a term. -/
def children : Term → List Term
  | .compound _ args => args
  | .conj left right => [left, right]
  | _ => []

/-- A variable stands at a place. -/
inductive VarAt : Term → List Nat → String → Prop where
  | here (x : String) : VarAt (.var x) [] x
  | under {term child : Term} {index : Nat} {place : List Nat} {x : String}
      (taken : term.children[index]? = some child) (inside : VarAt child place x) :
      VarAt term (index :: place) x

/-- A variable stands at a place that starts with the number of one of some children. -/
inductive VarAmong (children : List Term) : List Nat → String → Prop where
  | under {child : Term} {index : Nat} {place : List Nat} {x : String}
      (taken : children[index]? = some child) (inside : VarAt child place x) :
      VarAmong children (index :: place) x

variable {term child : Term} {children : List Term} {place : List Nat} {x y : String}

theorem varAt_var_iff {name : String} : VarAt (.var name) place x ↔ place = [] ∧ x = name := by
  constructor
  · rintro (_ | ⟨taken, -⟩)
    · exact ⟨rfl, rfl⟩
    · cases taken
  · rintro ⟨rfl, rfl⟩
    exact .here x

theorem varAt_iff_varAmong (node : ∀ name, term ≠ .var name) :
    VarAt term place x ↔ VarAmong term.children place x := by
  constructor
  · rintro (_ | ⟨taken, inside⟩)
    · exact absurd rfl (node x)
    · exact .under taken inside
  · rintro ⟨taken, inside⟩
    exact .under taken inside

theorem not_varAmong_nil : ¬ VarAmong [] place x := by
  rintro ⟨taken, -⟩
  cases taken

theorem varAmong_cons_iff :
    VarAmong (child :: children) place x ↔
      (∃ rest, place = 0 :: rest ∧ VarAt child rest x) ∨
        ∃ index rest, place = (index + 1) :: rest ∧ VarAmong children (index :: rest) x := by
  constructor
  · rintro @⟨other, _ | index, rest, _, taken, inside⟩
    · obtain rfl : child = other := Option.some.inj taken
      exact .inl ⟨rest, rfl, inside⟩
    · exact .inr ⟨index, rest, rfl, .under taken inside⟩
  · rintro (⟨rest, rfl, inside⟩ | ⟨index, rest, rfl, ⟨taken, inside⟩⟩)
    · exact .under rfl inside
    · exact .under taken inside

theorem occurrences_of_node (node : ∀ name, term ≠ .var name) :
    term.occurrences = term.children.flatMap occurrences := by
  cases term with
  | var name => exact absurd rfl (node name)
  | compound name args => exact occurrences_compound name args
  | conj left right => simp [occurrences, children]
  | _ => rfl

theorem induct_children {motive : Term → Prop} (var : ∀ name, motive (.var name))
    (node : ∀ term, (∀ name, term ≠ .var name) → (∀ child ∈ term.children, motive child) →
      motive term) (term : Term) : motive term := by
  induction term with
  | var name => exact var name
  | compound name args ih => exact node _ (by simp) ih
  | conj left right ihLeft ihRight =>
    exact node _ (by simp) (List.forall_mem_cons.mpr ⟨ihLeft, List.forall_mem_singleton.mpr ihRight⟩)
  | _ => exact node _ (by simp) (by simp [children])

theorem mem_occurrences_children
    (each : ∀ child ∈ children, x ∈ child.occurrences ↔ ∃ place, VarAt child place x) :
    x ∈ children.flatMap occurrences ↔ ∃ place, VarAmong children place x := by
  induction children with
  | nil => simp [not_varAmong_nil]
  | cons child children ih =>
    obtain ⟨first, others⟩ := List.forall_mem_cons.mp each
    simp only [List.flatMap_cons, List.mem_append, first, ih others, varAmong_cons_iff]
    constructor
    · rintro (⟨rest, inside⟩ | ⟨place, @⟨_, index, rest, _, taken, inside⟩⟩)
      · exact ⟨_, .inl ⟨rest, rfl, inside⟩⟩
      · exact ⟨_, .inr ⟨index, rest, rfl, .under taken inside⟩⟩
    · rintro ⟨place, ⟨rest, -, inside⟩ | ⟨index, rest, -, later⟩⟩
      · exact .inl ⟨rest, inside⟩
      · exact .inr ⟨_, later⟩

/-- The occurrences are the variables at some place. -/
theorem mem_occurrences_iff : x ∈ term.occurrences ↔ ∃ place, VarAt term place x := by
  induction term using induct_children with
  | var name => simp [occurrences, varAt_var_iff]
  | node term node ih =>
    rw [occurrences_of_node node, mem_occurrences_children ih]
    exact exists_congr fun place => (varAt_iff_varAmong node).symm

/-- Some place of one variable comes before all places of another. -/
def StandsBefore (at_ : List Nat → String → Prop) (x y : String) : Prop :=
  ∃ first, at_ first x ∧ ∀ place, at_ place y → first < place

theorem StandsBefore.inFirst (before : StandsBefore (VarAt child) x y) :
    StandsBefore (VarAmong (child :: children)) x y := by
  obtain ⟨front, atFront, least⟩ := before
  refine ⟨0 :: front, .under rfl atFront, ?_⟩
  intro place atPlace
  rcases varAmong_cons_iff.mp atPlace with ⟨rest, rfl, inside⟩ | ⟨index, rest, rfl, -⟩
  · exact List.cons_lt_cons_iff.mpr (.inr ⟨rfl, least rest inside⟩)
  · exact List.cons_lt_cons_iff.mpr (.inl (Nat.succ_pos index))

theorem StandsBefore.inOthers (before : StandsBefore (VarAmong children) x y)
    (absent : y ∉ child.occurrences) : StandsBefore (VarAmong (child :: children)) x y := by
  obtain ⟨_, @⟨_, start, front, _, taken, inside⟩, least⟩ := before
  refine ⟨(start + 1) :: front, .under taken inside, ?_⟩
  intro place atPlace
  rcases varAmong_cons_iff.mp atPlace with ⟨rest, rfl, within⟩ | ⟨index, rest, rfl, later⟩
  · exact absurd (mem_occurrences_iff.mpr ⟨rest, within⟩) absent
  · have order := least _ later
    rw [List.cons_lt_cons_iff] at order ⊢
    exact order.imp Nat.succ_lt_succ fun ⟨same, behind⟩ => ⟨congrArg _ same, behind⟩

/-- A variable that occurs stands before every variable that does not. -/
theorem standsBefore_of_not_mem (occurs : x ∈ term.occurrences) (absent : y ∉ term.occurrences) :
    StandsBefore (VarAt term) x y := by
  obtain ⟨first, atFirst⟩ := mem_occurrences_iff.mp occurs
  refine ⟨first, atFirst, ?_⟩
  intro place atPlace
  exact absurd (mem_occurrences_iff.mpr ⟨place, atPlace⟩) absent

theorem standsBefore_children
    (each : ∀ child ∈ children, child.occurrences.idxOf x < child.occurrences.idxOf y →
      StandsBefore (VarAt child) x y)
    (before : (children.flatMap occurrences).idxOf x < (children.flatMap occurrences).idxOf y) :
    StandsBefore (VarAmong children) x y := by
  induction children with
  | nil => exact absurd before (Nat.lt_irrefl _)
  | cons child children ih =>
    obtain ⟨inChild, inOthers⟩ := List.forall_mem_cons.mp each
    rw [List.flatMap_cons] at before
    by_cases other : y ∈ child.occurrences
    · rw [List.idxOf_append_of_mem other] at before
      have occurs : x ∈ child.occurrences := by
        by_contra absent
        have early := List.idxOf_lt_length_iff.mpr other
        rw [List.idxOf_append_of_notMem absent] at before
        omega
      rw [List.idxOf_append_of_mem occurs] at before
      exact (inChild before).inFirst
    · by_cases occurs : x ∈ child.occurrences
      · exact (standsBefore_of_not_mem occurs other).inFirst
      · rw [List.idxOf_append_of_notMem occurs, List.idxOf_append_of_notMem other] at before
        exact (ih inOthers (Nat.lt_of_add_lt_add_left before)).inOthers other

/-- A variable that occurs earlier stands before the other. -/
theorem standsBefore_of_idxOf_lt
    (before : term.occurrences.idxOf x < term.occurrences.idxOf y) :
    StandsBefore (VarAt term) x y := by
  induction term using induct_children with
  | var name =>
    have present : x ∈ [name] :=
      List.idxOf_lt_length_iff.mp (Nat.lt_of_lt_of_le before List.idxOf_le_length)
    obtain rfl := List.mem_singleton.mp present
    refine ⟨[], .here x, ?_⟩
    intro place atPlace
    obtain ⟨-, rfl⟩ := varAt_var_iff.mp atPlace
    exact absurd before (Nat.lt_irrefl _)
  | node term node ih =>
    rw [occurrences_of_node node] at before
    obtain ⟨first, atFirst, least⟩ := standsBefore_children ih before
    exact ⟨first, (varAt_iff_varAmong node).mpr atFirst,
      fun place atPlace => least place ((varAt_iff_varAmong node).mp atPlace)⟩

end Term

end Backchain
