import Mathlib.Data.List.Basic
import Backchain.Term.Variables

/-!
Replacing variables: how it acts on the variables, the size and the shape of a term.

A term without a conjunction is called plain. Plain terms are the ones that unification can take
apart completely.
-/
set_option autoImplicit false

namespace Backchain

namespace Term

mutual

/-- Whether no conjunction occurs. -/
def isPlain : Term → Bool
  | .atom _ => true
  | .number _ => true
  | .string _ => true
  | .var _ => true
  | .compound _ args => arePlain args
  | .conj _ _ => false

def arePlain : List Term → Bool
  | [] => true
  | arg :: args => isPlain arg && arePlain args

end

theorem arePlain_eq_all (args : List Term) : arePlain args = args.all isPlain := by
  induction args with
  | nil => rfl
  | cons arg args ih => simp [arePlain, ih]

section

variable (name : String) (args : List Term) (value : String → Term)

@[simp]
theorem occurrences_compound :
    (Term.compound name args).occurrences = args.flatMap occurrences := by
  rw [occurrences, occurrencesAll_eq_flatMap]

@[simp]
theorem bind_compound :
    (Term.compound name args).bind value = .compound name (args.map (bind value)) := by
  rw [bind, bindAll_eq_map]

@[simp]
theorem isPlain_compound :
    (Term.compound name args).isPlain = true ↔ ∀ arg ∈ args, arg.isPlain = true := by
  rw [isPlain, arePlain_eq_all, List.all_eq_true]

end

theorem mem_occurrences_compound {name x : String} {args : List Term} {arg : Term}
    (member : arg ∈ args) (occurs : x ∈ arg.occurrences) :
    x ∈ (Term.compound name args).occurrences := by
  rw [occurrences_compound]
  exact List.mem_flatMap.mpr ⟨arg, member, occurs⟩

theorem size_pos (term : Term) : 0 < term.size := by
  cases term <;> simp [size]

theorem size_le_sizeAll {arg : Term} {args : List Term} (member : arg ∈ args) :
    arg.size ≤ sizeAll args := by
  induction args with
  | nil => exact absurd member List.not_mem_nil
  | cons other args ih =>
    rw [sizeAll]
    rcases List.mem_cons.mp member with rfl | later
    · omega
    · have below := ih later
      omega

theorem size_lt_compound {arg : Term} {args : List Term} (name : String) (member : arg ∈ args) :
    arg.size < (Term.compound name args).size :=
  Nat.lt_succ_of_le (size_le_sizeAll member)

theorem length_flatMap_le {args : List Term}
    (each : ∀ arg ∈ args, arg.occurrences.length ≤ arg.size) :
    (args.flatMap occurrences).length ≤ sizeAll args := by
  induction args with
  | nil => simp
  | cons arg args ih =>
    have head := each arg List.mem_cons_self
    have tail := ih fun a member => each a (List.mem_cons_of_mem _ member)
    simp only [List.flatMap_cons, List.length_append, sizeAll]
    omega

theorem length_occurrences_le (term : Term) : term.occurrences.length ≤ term.size := by
  induction term with
  | compound name args ih =>
    have below := length_flatMap_le ih
    rw [occurrences_compound, size]
    omega
  | conj left right first second =>
    simp only [occurrences, List.length_append, size]
    omega
  | _ => simp [occurrences, size]

theorem bind_congr {term : Term} {first second : String → Term}
    (agree : ∀ x ∈ term.occurrences, first x = second x) : term.bind first = term.bind second := by
  induction term with
  | var name => exact agree name (List.mem_singleton.mpr rfl)
  | compound name args ih =>
    rw [bind_compound, bind_compound]
    congr 1
    apply List.map_congr_left
    intro arg member
    apply ih arg member
    intro x occurs
    exact agree x (mem_occurrences_compound member occurs)
  | conj left right ihLeft ihRight =>
    have onLeft := ihLeft fun x occurs => agree x (List.mem_append_left _ occurs)
    have onRight := ihRight fun x occurs => agree x (List.mem_append_right _ occurs)
    rw [bind, bind, onLeft, onRight]
  | _ => rfl

theorem bind_bind (term : Term) (first second : String → Term) :
    (term.bind first).bind second = term.bind fun x => (first x).bind second := by
  induction term with
  | compound name args ih =>
    simp only [bind_compound, List.map_map]
    congr 1
    exact List.map_congr_left ih
  | conj left right ihLeft ihRight => simp only [bind, ihLeft, ihRight]
  | _ => rfl

theorem bind_var (term : Term) : term.bind .var = term := by
  induction term with
  | compound name args ih =>
    rw [bind_compound]
    congr 1
    exact (List.map_congr_left ih).trans (List.map_id args)
  | conj left right ihLeft ihRight => rw [bind, ihLeft, ihRight]
  | _ => rfl

theorem occurrences_bind (term : Term) (value : String → Term) :
    (term.bind value).occurrences = term.occurrences.flatMap fun x => (value x).occurrences := by
  induction term with
  | var name => simp [bind, occurrences]
  | compound name args ih =>
    rw [bind_compound, occurrences_compound, occurrences_compound, List.flatMap_assoc,
      List.flatMap_map]
    exact List.flatMap_congr ih
  | conj left right ihLeft ihRight =>
    simp only [bind, occurrences, ihLeft, ihRight, List.flatMap_append]
  | _ => rfl

theorem mem_occurrences_bind {term : Term} {value : String → Term} {y : String} :
    y ∈ (term.bind value).occurrences ↔
      ∃ x ∈ term.occurrences, y ∈ (value x).occurrences := by
  rw [occurrences_bind, List.mem_flatMap]

theorem occurrences_rename (term : Term) (name : String → String) :
    (term.rename name).occurrences = term.occurrences.map name := by
  rw [rename, occurrences_bind, List.map_eq_flatMap]
  rfl

theorem bind_rename (term : Term) (name : String → String) (value : String → Term) :
    (term.rename name).bind value = term.bind fun x => value (name x) :=
  bind_bind term _ value

theorem isPlain_rename (term : Term) (name : String → String) :
    (term.rename name).isPlain = term.isPlain := by
  induction term with
  | compound f args ih =>
    rw [rename, bind_compound, Bool.eq_iff_iff, isPlain_compound, isPlain_compound]
    simp only [List.forall_mem_map]
    exact forall₂_congr fun arg member => by rw [← ih arg member, rename]
  | _ => rfl

theorem size_le_size_bind {term : Term} {x : String} (value : String → Term)
    (occurs : x ∈ term.occurrences) : (value x).size ≤ (term.bind value).size := by
  induction term with
  | var name =>
    obtain rfl := List.mem_singleton.mp occurs
    exact Nat.le_refl _
  | compound name args ih =>
    rw [occurrences_compound, List.mem_flatMap] at occurs
    obtain ⟨arg, member, inside⟩ := occurs
    have part := ih arg member inside
    have whole := size_lt_compound name (List.mem_map_of_mem (f := bind value) member)
    rw [bind_compound]
    omega
  | conj left right ihLeft ihRight =>
    rw [bind, size]
    rcases List.mem_append.mp occurs with inLeft | inRight
    · have part := ihLeft inLeft
      omega
    · have part := ihRight inRight
      omega
  | _ => exact absurd occurs List.not_mem_nil

/-- No term is as large as its own proper part: a variable that occurs in a term which is not that
variable never takes the value of the whole term. -/
theorem value_ne_bind {term : Term} {value : String → Term} {x : String}
    (occurs : x ∈ term.occurrences) (other : term ≠ .var x) : value x ≠ term.bind value := by
  intro same
  have size := congrArg Term.size same
  cases term with
  | var name =>
    obtain rfl := List.mem_singleton.mp occurs
    exact other rfl
  | compound name args =>
    rw [occurrences_compound, List.mem_flatMap] at occurs
    obtain ⟨arg, member, inside⟩ := occurs
    have part := size_le_size_bind value inside
    have whole := size_lt_compound name (List.mem_map_of_mem (f := bind value) member)
    rw [bind_compound] at size
    omega
  | conj left right =>
    rw [bind, Term.size] at size
    rcases List.mem_append.mp occurs with inLeft | inRight
    · have part := size_le_size_bind value inLeft
      omega
    · have part := size_le_size_bind value inRight
      omega
  | _ => exact absurd occurs List.not_mem_nil

theorem anyVar_eq_any (test : String → Bool) (term : Term) :
    term.anyVar test = term.occurrences.any test := by
  induction term with
  | compound name args ih =>
    rw [anyVar, anyVarAmong_eq_any, occurrences_compound, List.any_flatMap, Bool.eq_iff_iff,
      List.any_eq_true, List.any_eq_true]
    exact exists_congr fun arg => and_congr_right fun member => by rw [ih arg member]
  | conj left right ihLeft ihRight => rw [anyVar, ihLeft, ihRight, occurrences, List.any_append]
  | _ => simp [anyVar, occurrences]

theorem isGround_iff (term : Term) : term.isGround = true ↔ term.occurrences = [] := by
  induction term with
  | compound name args ih =>
    rw [isGround, areGround_eq_all, occurrences_compound, List.all_eq_true, List.flatMap_eq_nil_iff]
    exact forall₂_congr ih
  | conj left right ihLeft ihRight => simp [isGround, occurrences, ihLeft, ihRight]
  | _ => simp [isGround, occurrences]

theorem findVar?_eq_find? (test : String → Bool) (term : Term) :
    term.findVar? test = term.occurrences.find? test := by
  induction term with
  | var name => simp [findVar?, occurrences, List.find?_cons]; split <;> simp_all
  | compound name args ih =>
    rw [findVar?, findVarAmong?_eq_findSome?, occurrences_compound, List.find?_flatMap]
    induction args with
    | nil => rfl
    | cons arg args rest =>
      rw [List.findSome?_cons, List.findSome?_cons, ih arg List.mem_cons_self,
        rest fun other member => ih other (List.mem_cons_of_mem _ member)]
  | conj left right ihLeft ihRight =>
    rw [findVar?, ihLeft, ihRight, occurrences, List.find?_append, Option.orElse_eq_orElse,
      Option.orElse_eq_or]
  | _ => rfl

end Term

namespace Predicate

def occurrences (p : Predicate) : List String :=
  p.args.flatMap Term.occurrences

def IsPlain (p : Predicate) : Prop :=
  ∀ arg ∈ p.args, arg.isPlain = true

instance (p : Predicate) : Decidable p.IsPlain :=
  inferInstanceAs (Decidable (∀ arg ∈ p.args, _))

def IsGround (p : Predicate) : Prop :=
  ∀ arg ∈ p.args, arg.isGround = true

instance (p : Predicate) : Decidable p.IsGround :=
  inferInstanceAs (Decidable (∀ arg ∈ p.args, _))

def bind (p : Predicate) (value : String → Term) : Predicate :=
  { p with args := p.args.map (Term.bind value) }

theorem occurrences_subset {p : Predicate} {arg : Term} (member : arg ∈ p.args) :
    arg.occurrences ⊆ p.occurrences :=
  fun _ occurs => List.mem_flatMap.mpr ⟨arg, member, occurs⟩

theorem bind_eq_iff {p q : Predicate} {value : String → Term}
    (same : p.signature = q.signature) :
    p.bind value = q.bind value ↔
      p.args.map (Term.bind value) = q.args.map (Term.bind value) := by
  have names : p.name = q.name := congrArg Signature.name same
  simp [bind, names]

theorem signature_bind (p : Predicate) (value : String → Term) :
    (p.bind value).signature = p.signature := by
  simp [bind, signature, arity]

theorem signature_rename (p : Predicate) (name : String → String) :
    (p.rename name).signature = p.signature := by
  simp [rename, signature, arity]

theorem bind_congr {p : Predicate} {first second : String → Term}
    (agree : ∀ x ∈ p.occurrences, first x = second x) : p.bind first = p.bind second := by
  unfold bind
  congr 1
  apply List.map_congr_left
  intro arg member
  exact Term.bind_congr fun x occurs => agree x (occurrences_subset member occurs)

theorem isGround_iff {p : Predicate} : p.IsGround ↔ p.occurrences = [] := by
  simp only [IsGround, occurrences, Term.isGround_iff, List.flatMap_eq_nil_iff]

theorem bind_var (p : Predicate) : p.bind .var = p := by
  rw [bind, List.map_id'' Term.bind_var]

theorem IsGround.bind_eq {p : Predicate} (ground : p.IsGround) (value : String → Term) :
    p.bind value = p := by
  have same : p.bind value = p.bind .var := by
    apply bind_congr
    rw [isGround_iff.mp ground]
    exact fun x occurs => absurd occurs List.not_mem_nil
  rw [same, bind_var]

theorem bind_rename (p : Predicate) (name : String → String) (value : String → Term) :
    (p.rename name).bind value = p.bind fun x => value (name x) := by
  simp [bind, rename, Term.bind_rename]

theorem bind_bind (p : Predicate) (first second : String → Term) :
    (p.bind first).bind second = p.bind fun x => (first x).bind second := by
  simp [bind, Term.bind_bind]

theorem toTerm_bind (p : Predicate) (value : String → Term) :
    (p.bind value).toTerm = p.toTerm.bind value := by
  rw [toTerm, toTerm, Term.bind_compound, bind]

theorem toTerm_injective {p q : Predicate} (same : p.toTerm = q.toTerm) : p = q := by
  obtain ⟨names, args⟩ := Term.compound.inj same
  obtain ⟨name, terms⟩ := p
  obtain ⟨other, others⟩ := q
  rw [Predicate.mk.injEq]
  exact ⟨names, args⟩

theorem occurrences_rename (p : Predicate) (name : String → String) :
    (p.rename name).occurrences = p.occurrences.map name := by
  simp [occurrences, rename, List.flatMap_map, List.map_flatMap, Term.occurrences_rename]

theorem IsPlain.rename {p : Predicate} (plain : p.IsPlain) (name : String → String) :
    (p.rename name).IsPlain := by
  intro arg member
  obtain ⟨before, origin, rfl⟩ := List.mem_map.mp member
  rw [Term.isPlain_rename]
  exact plain before origin

end Predicate

end Backchain
