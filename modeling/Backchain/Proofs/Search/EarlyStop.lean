import Mathlib.Data.Seq.Basic
import Backchain.Proofs.Search.DepthLimit
import Backchain.Proofs.Session.LeastModel

/-!
Stopping early shows the first part of everything.

All that a search would ever show is a sequence, finite or not: the environments that come with more
and more fuel, as a visitor sees them that never stops. A visitor that stops sees an initial part of
the sequence, up to the entry that it stops at, and the search has an answer then, no matter what
would have come later. A limit is fuel enough; without a limit, some fuel is enough for each entry.
-/
set_option autoImplicit false

namespace Backchain

open Stream' (Seq)

/-! ## Enough fuel -/

namespace Limits

variable {limits : Limits} {holds other : Nat → Prop}

/-- From some fuel on, which is within the limit if there is one. -/
def Eventually (limits : Limits) (holds : Nat → Prop) : Prop :=
  ∃ enough, (∀ limit ∈ limits.depth, enough ≤ limit) ∧ ∀ fuel, enough ≤ fuel → holds fuel

theorem Eventually.imp (eventually : limits.Eventually holds)
    (weaker : ∀ fuel, holds fuel → other fuel) : limits.Eventually other := by
  obtain ⟨enough, within, each⟩ := eventually
  exact ⟨enough, within, fun fuel above => weaker fuel (each fuel above)⟩

theorem Eventually.and (eventually : limits.Eventually holds)
    (eventuallyOther : limits.Eventually other) :
    limits.Eventually fun fuel => holds fuel ∧ other fuel := by
  obtain ⟨enough, within, each⟩ := eventually
  obtain ⟨more, withinOther, eachOther⟩ := eventuallyOther
  refine ⟨max enough more, ?_, ?_⟩
  · intro limit limited
    exact Nat.max_le_of_le_of_le (within limit limited) (withinOther limit limited)
  · intro fuel above
    obtain ⟨first, second⟩ := Nat.max_le.mp above
    exact ⟨each fuel first, eachOther fuel second⟩

/-- If fuel beyond the limit makes no difference, it does not matter how much fuel is enough. -/
theorem Eventually.of_stable (enough : Nat) (each : ∀ fuel, enough ≤ fuel → holds fuel)
    (stable : ∀ limit ∈ limits.depth, ∀ fuel, limit ≤ fuel → (holds fuel ↔ holds limit)) :
    limits.Eventually holds := by
  cases limited : limits.depth with
  | none => exact ⟨enough, by simp [limited], each⟩
  | some limit =>
    refine ⟨limit, by simp [limited], ?_⟩
    intro fuel above
    have both := each (max limit enough) (Nat.le_max_right _ _)
    rw [stable limit limited _ (Nat.le_max_left _ _)] at both
    exact (stable limit limited fuel above).mpr both

end Limits

/-! ## Visitors -/

namespace Visitor

variable {σ : Type} {visitor : Visitor σ}

/-- Goes on whatever it is shown. -/
def untiring : Visitor Unit := fun _ _ =>
  .yield ()

/-- What a visitor says when it has been shown some environments. -/
def after (visitor : Visitor σ) : List Env → σ → ForInStep σ
  | [], seen => .yield seen
  | env :: envs, seen =>
    match visitor env seen with
    | .yield seen => after visitor envs seen
    | .done seen => .done seen

/-- Shown the entries of a sequence, the visitor goes on for the first `count` of them and stops at
the next one, if there is one. -/
def StopsAfter (visitor : Visitor σ) (count : Nat) (found : Seq Env) (seen : σ) : Prop :=
  (∃ next, visitor.after (found.take count) seen = .yield next) ∧
    ((found.get? count).isSome → ∃ last, visitor.after (found.take (count + 1)) seen = .done last)

theorem viewed_untiring (envs : List Env) : untiring.viewed envs () = envs := by
  induction envs with
  | nil => rfl
  | cons env envs ih => exact congrArg (env :: ·) ih

theorem after_untiring (envs : List Env) : untiring.after envs () = .yield () := by
  induction envs with
  | nil => rfl
  | cons env envs ih => exact ih

theorem after_append (visitor : Visitor σ) (first rest : List Env) (seen : σ) :
    visitor.after (first ++ rest) seen =
      match visitor.after first seen with
      | .yield next => visitor.after rest next
      | .done last => .done last := by
  induction first generalizing seen with
  | nil => rfl
  | cons env first ih =>
    rw [List.cons_append, after, after]
    cases visitor env seen with
    | yield next => exact ih next
    | done last => rfl

theorem after_mono {first envs : List Env} {seen last : σ} (part : first <+: envs)
    (stopped : visitor.after first seen = .done last) : visitor.after envs seen = .done last := by
  obtain ⟨rest, rfl⟩ := part
  rw [after_append, stopped]

theorem viewed_append (visitor : Visitor σ) (first rest : List Env) (seen : σ) :
    visitor.viewed (first ++ rest) seen =
      match visitor.after first seen with
      | .yield next => first ++ visitor.viewed rest next
      | .done _ => visitor.viewed first seen := by
  induction first generalizing seen with
  | nil => rfl
  | cons env first ih =>
    rw [List.cons_append, viewed, viewed, after]
    cases visitor env seen with
    | done last => rfl
    | yield next =>
      simp only [ih next]
      cases visitor.after first next <;> rfl

theorem showFound_after (visitor : Visitor σ) (ending : Ending) (copies : Nat)
    (found : List (Env × Nat)) (seen : σ) :
    (Listing.showFound visitor ending copies found seen).1 =
      match visitor.after (found.map Prod.fst) seen with
      | .yield _ => ending
      | .done _ => .stopped := by
  induction found generalizing seen with
  | nil => rfl
  | cons entry found ih =>
    obtain ⟨env, number⟩ := entry
    rw [Listing.showFound, List.map_cons, after]
    cases visitor env seen with
    | yield next => exact ih next
    | done next => rfl

/-- What a visitor has seen of a list when it goes on for `count` entries and stops at the next. -/
theorem viewed_of_stops {count : Nat} {envs : List Env} {seen : σ}
    (goesOn : ∃ next, visitor.after (envs.take count) seen = .yield next)
    (stops : count < envs.length → ∃ last, visitor.after (envs.take (count + 1)) seen = .done last) :
    visitor.viewed envs seen = envs.take (count + 1) := by
  obtain ⟨next, goesOn⟩ := goesOn
  rcases Nat.lt_or_ge count envs.length with more | all
  · obtain ⟨last, stopped⟩ := stops more
    have split : envs = envs.take count ++ envs[count] :: envs.drop (count + 1) := by
      rw [← List.drop_eq_getElem_cons more, List.take_append_drop]
    rw [List.take_succ_eq_append_getElem more, after_append, goesOn] at stopped
    rw [List.take_succ_eq_append_getElem more]
    nth_rewrite 1 [split]
    rw [viewed_append, goesOn]
    simp only [after] at stopped
    cases asked : visitor envs[count] next with
    | yield later =>
      rw [asked] at stopped
      cases stopped
    | done last => simp only [viewed, asked]
  · rw [List.take_of_length_le all] at goesOn
    rw [List.take_of_length_le (Nat.le_succ_of_le all)]
    have whole := visitor.viewed_append envs [] seen
    rw [goesOn, List.append_nil] at whole
    exact whole.trans (List.append_nil envs)

theorem after_collector {wanted : Nat} {envs : List Env} {seen : Array Env}
    (room : seen.size < wanted) (most : seen.size + envs.length ≤ wanted) :
    (Search.collector wanted).after envs seen =
      if seen.size + envs.length = wanted then .done (seen ++ envs) else .yield (seen ++ envs) := by
  induction envs generalizing seen with
  | nil =>
    rw [List.length_nil, Nat.add_zero, if_neg (Nat.ne_of_lt room), after]
    simp
  | cons env envs ih =>
    rw [List.length_cons] at *
    by_cases full : wanted ≤ seen.size + 1
    · obtain rfl : envs = [] := List.length_eq_zero_iff.mp (by omega)
      have asked : Search.collector wanted env seen = .done (seen.push env) := by
        simp [Search.collector, full]
      rw [after, asked, if_pos (by simp; omega)]
      simp
    · have asked : Search.collector wanted env seen = .yield (seen.push env) := by
        simp [Search.collector, full]
      have roomNext : (seen.push env).size < wanted := by simpa using full
      have later := ih roomNext (by simp; omega)
      simp only [after, asked, later]
      simp [Nat.add_assoc, Nat.add_comm 1]

theorem lt_length_take {found : Seq Env} {count : Nat} (more : (found.get? count).isSome) :
    count < (found.take (count + 1)).length := by
  have there : (found.take (count + 1))[count]? = found.get? count := by
    rw [Seq.getElem?_take, if_pos (Nat.lt_succ_self count)]
  rw [← there, Option.isSome_iff_exists] at more
  obtain ⟨env, present⟩ := more
  exact (List.getElem?_eq_some_iff.mp present).1

/-- Collecting a number of environments stops at the last one of them. -/
theorem stopsAfter_collector (count : Nat) (found : Seq Env) :
    (Search.collector (some (count + 1))).StopsAfter count found #[] := by
  constructor
  · have few : (found.take count).length ≤ count := Seq.length_take_le
    refine ⟨(#[] : Array Env) ++ found.take count, ?_⟩
    rw [after_collector (Nat.succ_pos count) (by simp; omega), if_neg (by simp; omega)]
  · intro more
    have full : (found.take (count + 1)).length = count + 1 :=
      Nat.le_antisymm Seq.length_take_le (lt_length_take more)
    refine ⟨(#[] : Array Env) ++ found.take (count + 1), ?_⟩
    rw [after_collector (Nat.succ_pos count) (by simp [full]), if_pos (by simp [full])]

end Visitor

/-! ## The sequence -/

namespace Search

variable {s : Search} {goals : List Predicate} {env : Env} {fuel : Nat}

def withFuel (s : Search) (fuel : Nat) : Search :=
  { s with limits := { s.limits with fuel } }

/-- The environments that a visitor is shown that never stops. -/
def shownWithin (s : Search) (fuel : Nat) (goals : List Predicate) (env : Env) : List Env :=
  (s.withFuel fuel).delivered Visitor.untiring goals env ()

/-- How the search for all environments ends. -/
def endsWithin (s : Search) (fuel : Nat) (goals : List Predicate) (env : Env) : Ending :=
  ((s.withFuel fuel).each Visitor.untiring goals env ()).1

theorem shownWithin_eq :
    s.shownWithin fuel goals env = ((s.withFuel fuel).listing goals env).envs := by
  rw [shownWithin, delivered_eq, Visitor.viewed_untiring]

theorem endsWithin_eq :
    s.endsWithin fuel goals env = ((s.withFuel fuel).listing goals env).ending := by
  rw [endsWithin, each_eq, Listing.showTo, Visitor.showFound_after, Visitor.after_untiring]

/-- A search ends as it does for the visitor that never stops, unless its visitor does. -/
theorem each_ending {σ : Type} (visitor : Visitor σ) (seen : σ) :
    ((s.withFuel fuel).each visitor goals env seen).1 =
      match visitor.after (s.shownWithin fuel goals env) seen with
      | .yield _ => s.endsWithin fuel goals env
      | .done _ => .stopped := by
  rw [each_eq, Listing.showTo, Visitor.showFound_after, ← Listing.envs, ← shownWithin_eq,
    endsWithin_eq]

theorem most_withFuel_le {more : Nat} (above : fuel ≤ more) :
    (s.withFuel fuel).limits.most ≤ (s.withFuel more).limits.most := by
  obtain ⟨limited, fuelled⟩ := Limits.le_most.mp (Nat.le_refl (s.withFuel fuel).limits.most)
  exact Limits.le_most.mpr ⟨limited, Nat.le_trans fuelled above⟩

theorem shownWithin_mono {more : Nat} (above : fuel ≤ more) :
    s.shownWithin fuel goals env <+: s.shownWithin more goals env := by
  rw [shownWithin_eq, shownWithin_eq]
  exact envs_prefix_of_wider (most_withFuel_le above)

/-- Fuel beyond the limit makes no difference. -/
theorem shownWithin_of_limit {limit : Nat} (limited : limit ∈ s.limits.depth)
    (above : limit ≤ fuel) : s.shownWithin fuel goals env = s.shownWithin limit goals env := by
  obtain ⟨database, ⟨depth, any⟩, copies⟩ := s
  obtain rfl : depth = some limit := limited
  have same : Limits.most ⟨some limit, fuel⟩ = Limits.most ⟨some limit, limit⟩ := by
    rw [Limits.most_of_enough above, Limits.most_of_enough (Nat.le_refl limit)]
  rw [shownWithin_eq, shownWithin_eq]
  apply List.IsPrefix.eq_of_length_le
  · exact envs_prefix_of_wider (Nat.le_of_eq same)
  · exact (envs_prefix_of_wider (Nat.le_of_eq same.symm)).length_le

/-- Some fuel with which the search shows something at this place, if there is any. -/
noncomputable def fuelFor (s : Search) (goals : List Predicate) (env : Env) (place : Nat) : Nat :=
  Classical.epsilon fun fuel => place < (s.shownWithin fuel goals env).length

theorem length_le_of_fuelFor {place : Nat}
    (none : (s.shownWithin (s.fuelFor goals env place) goals env).length ≤ place) (fuel : Nat) :
    (s.shownWithin fuel goals env).length ≤ place := by
  by_contra longer
  have reached : place < (s.shownWithin (s.fuelFor goals env place) goals env).length :=
    Classical.epsilon_spec (⟨fuel, Nat.lt_of_not_le longer⟩ :
      ∃ fuel, place < (s.shownWithin fuel goals env).length)
  exact absurd none (Nat.not_le_of_lt reached)

/-- All that a visitor that never stops would be shown with more and more fuel. -/
noncomputable def stream (s : Search) (goals : List Predicate) (env : Env) : Seq Env where
  val place := (s.shownWithin (s.fuelFor goals env place) goals env)[place]?
  property := by
    intro place none
    rw [List.getElem?_eq_none_iff] at none ⊢
    exact Nat.le_succ_of_le (length_le_of_fuelFor none _)

theorem getElem?_mono {first envs : List Env} {place : Nat} (part : first <+: envs)
    (within : place < first.length) : envs[place]? = first[place]? := by
  obtain ⟨rest, rfl⟩ := part
  exact List.getElem?_append_left within

theorem get?_stream_of_lt {place : Nat} (shown : place < (s.shownWithin fuel goals env).length) :
    (s.stream goals env).get? place = (s.shownWithin fuel goals env)[place]? := by
  have reached : place < (s.shownWithin (s.fuelFor goals env place) goals env).length := by
    by_contra none
    exact absurd (length_le_of_fuelFor (Nat.le_of_not_lt none) fuel) (Nat.not_le_of_lt shown)
  change (s.shownWithin (s.fuelFor goals env place) goals env)[place]? = _
  rcases Nat.le_total fuel (s.fuelFor goals env place) with less | more
  · exact getElem?_mono (shownWithin_mono less) shown
  · exact (getElem?_mono (shownWithin_mono more) reached).symm

theorem eventually_getElem? (s : Search) (goals : List Predicate) (env : Env) (place : Nat) :
    s.limits.Eventually fun fuel =>
      (s.shownWithin fuel goals env)[place]? = (s.stream goals env).get? place := by
  apply Limits.Eventually.of_stable (s.fuelFor goals env place)
  · intro fuel above
    by_cases shown : place < (s.shownWithin fuel goals env).length
    · exact (get?_stream_of_lt shown).symm
    · have none := Nat.le_of_not_lt shown
      have before := Nat.le_trans (shownWithin_mono above).length_le none
      exact (List.getElem?_eq_none none).trans (List.getElem?_eq_none before).symm
  · intro limit limited fuel above
    rw [shownWithin_of_limit limited above]

/-- Every first part of the sequence is shown with enough fuel. -/
theorem eventually_take (s : Search) (goals : List Predicate) (env : Env) (count : Nat) :
    s.limits.Eventually fun fuel =>
      (s.shownWithin fuel goals env).take count = (s.stream goals env).take count := by
  induction count with
  | zero => exact ⟨0, by simp, by simp⟩
  | succ count ih =>
    apply (ih.and (s.eventually_getElem? goals env count)).imp
    rintro fuel ⟨before, here⟩
    apply List.ext_getElem?
    intro place
    have same := congrArg (fun envs : List Env => envs[place]?) before
    rw [List.getElem?_take, Seq.getElem?_take] at same ⊢
    rcases Nat.lt_trichotomy place count with less | rfl | more
    · rw [if_pos less, if_pos less] at same
      rw [same]
    · rw [here]
    · rw [if_neg (by omega), if_neg (by omega)]

theorem shownWithin_prefix_stream {count : Nat} (ends : (s.stream goals env).get? count = none)
    (fuel : Nat) : s.shownWithin fuel goals env <+: (s.stream goals env).take count := by
  have short : (s.shownWithin fuel goals env).length ≤ count := by
    by_contra longer
    have there := get?_stream_of_lt (Nat.lt_of_not_le longer)
    rw [ends, List.getElem?_eq_getElem (Nat.lt_of_not_le longer)] at there
    cases there
  obtain ⟨enough, -, each⟩ := s.eventually_take goals env count
  have part : (s.shownWithin fuel goals env).take count <+:
      (s.shownWithin (max fuel enough) goals env).take count :=
    (shownWithin_mono (Nat.le_max_left fuel enough)).take count
  rwa [each _ (Nat.le_max_right fuel enough), List.take_of_length_le short] at part

/-- A search that comes to its full end shows all of the sequence. -/
theorem stream_of_exhausted (full : s.endsWithin fuel goals env = .exhausted) :
    s.stream goals env = Seq.ofList (s.shownWithin fuel goals env) := by
  apply Seq.ext
  intro place
  rw [Seq.ofList_get?]
  by_cases shown : place < (s.shownWithin fuel goals env).length
  · exact get?_stream_of_lt shown
  obtain ⟨enough, -, each⟩ := s.eventually_getElem? goals env place
  rw [endsWithin_eq] at full
  have wider := listing_of_wider (most_withFuel_le (Nat.le_max_left fuel enough)) full
  have same : s.shownWithin (max fuel enough) goals env = s.shownWithin fuel goals env := by
    rw [shownWithin_eq, shownWithin_eq]
    exact wider.2.1
  rw [← each _ (Nat.le_max_right fuel enough), same]

end Search

/-! ## Early stops -/

namespace Search

variable {σ : Type} {s : Search} {goals : List Predicate} {env : Env} {visitor : Visitor σ}
  {count : Nat} {seen : σ}

theorem delivered_of_stops (stops : visitor.StopsAfter count (s.stream goals env) seen) :
    s.limits.Eventually fun fuel =>
      (s.withFuel fuel).delivered visitor goals env seen =
        (s.stream goals env).take (count + 1) := by
  apply ((s.eventually_take goals env count).and (s.eventually_take goals env (count + 1))).imp
  rintro fuel ⟨before, here⟩
  rw [delivered_eq, ← shownWithin_eq, ← here]
  apply Visitor.viewed_of_stops
  · rw [before]
    exact stops.1
  · intro more
    rw [here]
    apply stops.2
    have there := congrArg (fun envs : List Env => envs[count]?) here
    rw [List.getElem?_take, Seq.getElem?_take, if_pos (Nat.lt_succ_self count),
      if_pos (Nat.lt_succ_self count)] at there
    rw [← there, List.getElem?_eq_getElem more]
    rfl

theorem stopped_of_stops (stops : visitor.StopsAfter count (s.stream goals env) seen)
    (more : ((s.stream goals env).get? count).isSome) :
    s.limits.Eventually fun fuel =>
      ((s.withFuel fuel).each visitor goals env seen).1 = .stopped := by
  apply (s.eventually_take goals env (count + 1)).imp
  intro fuel here
  obtain ⟨last, stopped⟩ := stops.2 more
  rw [← here] at stopped
  rw [each_ending, Visitor.after_mono (List.take_prefix _ _) stopped]

theorem ending_of_stops (stops : visitor.StopsAfter count (s.stream goals env) seen)
    (ends : (s.stream goals env).get? count = none) (fuel : Nat) :
    ((s.withFuel fuel).each visitor goals env seen).1 = s.endsWithin fuel goals env := by
  obtain ⟨last, goesOn⟩ := stops.1
  rw [each_ending]
  cases asked : visitor.after (s.shownWithin fuel goals env) seen with
  | yield next => rfl
  | done next =>
    have stopped := Visitor.after_mono (shownWithin_prefix_stream ends fuel) asked
    rw [goesOn] at stopped
    cases stopped

theorem first?_of_head {first : Env} (head : (s.stream goals env).head = some first) :
    s.limits.Eventually fun fuel => ((s.withFuel fuel).first? goals env).1 = .ok (some first) := by
  have shown : (s.stream goals env).get? 0 = some first := head
  apply (s.eventually_getElem? goals env 0).imp
  intro fuel same
  rw [shown, shownWithin_eq] at same
  rw [first?_eq]
  cases listed : ((s.withFuel fuel).listing goals env).envs with
  | nil =>
    rw [listed] at same
    cases same
  | cons other envs =>
    rw [listed] at same
    cases same
    rfl

theorem first?_of_nil (nothing : s.stream goals env = .nil) (fuel : Nat) :
    ((s.withFuel fuel).first? goals env).1 = (s.endsWithin fuel goals env).answer none := by
  have ends : (s.stream goals env).get? 0 = none := by rw [nothing, Seq.get?_nil]
  have none := shownWithin_prefix_stream ends fuel
  rw [Seq.take_zero, List.prefix_nil, shownWithin_eq] at none
  rw [first?_eq, none, endsWithin_eq]

theorem nil_of_first? {fuel : Nat}
    (searched : ((s.withFuel fuel).first? goals env).1 = .ok none) :
    s.endsWithin fuel goals env = .exhausted ∧ s.stream goals env = .nil := by
  rw [first?_eq] at searched
  split at searched
  · rename_i nothing
    have full := (exhausted_of_answer searched).1
    rw [← endsWithin_eq] at full
    rw [← shownWithin_eq] at nothing
    rw [stream_of_exhausted full, nothing]
    exact ⟨full, Seq.ofList_nil⟩
  · cases searched

theorem all_eq_ok_iff_stream {envs : List Env} {fuel : Nat} :
    ((s.withFuel fuel).all goals env).1 = .ok envs ↔
      s.endsWithin fuel goals env = .exhausted ∧ s.stream goals env = Seq.ofList envs := by
  rw [all_eq, ← shownWithin_eq, ← endsWithin_eq]
  constructor
  · intro finished
    rw [endsWithin_eq] at finished
    obtain ⟨full, rfl⟩ := exhausted_of_answer finished
    rw [← endsWithin_eq] at full
    exact ⟨full, stream_of_exhausted full⟩
  · rintro ⟨full, same⟩
    rw [stream_of_exhausted full] at same
    rw [full, Seq.ofList_injective same]
    rfl

end Search

/-! ## Queries -/

namespace Session

def withFuel (session : Session) (fuel : Nat) : Session :=
  { session with limits := { session.limits with fuel } }

/-- The search that answers the queries of a session. -/
def fresh (session : Session) : Search :=
  ⟨session.database, session.limits, 0⟩

theorem query_of_isGround {session : Session} {goal : Term} {goals : List Predicate}
    (flat : goal.goals = .ok goals) (ground : goal.isGround = true) :
    session.query goal = (session.fresh.first? goals ∅).1.map fun found =>
      .proven found.isSome := by
  have unmarked : checkNames [goal] = .ok () := by
    rw [checkNames_eq_ok_iff, List.forall_mem_singleton, Term.IsUnmarked,
      (Term.isGround_iff goal).mp ground]
    exact fun _ member => absurd member List.not_mem_nil
  simp only [query, unmarked, flat, ground, if_true, fresh]

variable {session : Session} {goal : Term} {goals : List Predicate}

theorem query_of_stream (flat : goal.goals = .ok goals) (ground : goal.isGround = true)
    (nonempty : session.fresh.stream goals ∅ ≠ .nil) :
    session.limits.Eventually fun fuel =>
      (session.withFuel fuel).query goal = .ok (.proven true) := by
  cases head : (session.fresh.stream goals ∅).head with
  | none => exact absurd (Seq.head_eq_none head) nonempty
  | some first =>
    apply (Search.first?_of_head head).imp
    intro fuel found
    have searched : ((session.withFuel fuel).fresh.first? goals ∅).1 = .ok (some first) := found
    rw [query_of_isGround flat ground, searched]
    rfl

theorem query_of_nil (flat : goal.goals = .ok goals) (ground : goal.isGround = true)
    (nothing : session.fresh.stream goals ∅ = .nil) (fuel : Nat) :
    (session.withFuel fuel).query goal =
      (session.fresh.endsWithin fuel goals ∅).answer (.proven false) := by
  have searched : ((session.withFuel fuel).fresh.first? goals ∅).1 =
      (session.fresh.endsWithin fuel goals ∅).answer none := Search.first?_of_nil nothing fuel
  rw [query_of_isGround flat ground, searched]
  cases session.fresh.endsWithin fuel goals ∅ <;> rfl

/-- A ground goal that is proven has an environment in which it holds. -/
theorem stream_of_query (flat : goal.goals = .ok goals) (ground : goal.isGround = true) {fuel : Nat}
    (proven : (session.withFuel fuel).query goal = .ok (.proven true)) :
    session.fresh.stream goals ∅ ≠ .nil := by
  intro nothing
  rw [query_of_nil flat ground nothing] at proven
  cases ended : session.fresh.endsWithin fuel goals ∅ <;> rw [ended] at proven <;> cases proven

/-- A ground goal is denied after a full search that shows nothing, and never otherwise. -/
theorem query_eq_proven_false (flat : goal.goals = .ok goals) (ground : goal.isGround = true)
    (fuel : Nat) : (session.withFuel fuel).query goal = .ok (.proven false) ↔
      session.fresh.endsWithin fuel goals ∅ = .exhausted ∧
        session.fresh.stream goals ∅ = .nil := by
  constructor
  · intro denied
    obtain ⟨-, found, absent, searched⟩ := query_eq_proven flat denied
    obtain rfl : found = none := Option.not_isSome_iff_eq_none.mp (by simp [absent])
    exact Search.nil_of_first? searched
  · rintro ⟨full, nothing⟩
    rw [query_of_nil flat ground nothing, full]
    rfl

end Session

/-- A visitor that stops at some call is shown just the entries up to there of all that a visitor
would be shown that never stops, and the search has an answer at once. If there are fewer entries, the
search ends as it does for the visitor that never stops. So the first environment is the first entry,
collecting everything gives all entries, and a ground query is proven if there is an entry and denied
if a full search shows none. -/
theorem early_stop_law (s : Search) (goals : List Predicate) (env : Env) :
    let found := s.stream goals env
    (∀ count, s.limits.Eventually fun fuel =>
      (s.shownWithin fuel goals env).take count = found.take count) ∧
    (∀ (σ : Type) (visitor : Visitor σ) (seen : σ) (count : Nat),
      visitor.StopsAfter count found seen →
        (s.limits.Eventually fun fuel =>
          (s.withFuel fuel).delivered visitor goals env seen = found.take (count + 1)) ∧
        ((found.get? count).isSome → s.limits.Eventually fun fuel =>
          ((s.withFuel fuel).each visitor goals env seen).1 = .stopped) ∧
        (found.get? count = none → ∀ fuel,
          ((s.withFuel fuel).each visitor goals env seen).1 = s.endsWithin fuel goals env)) ∧
    (∀ first, found.head = some first → s.limits.Eventually fun fuel =>
      ((s.withFuel fuel).first? goals env).1 = .ok (some first)) ∧
    (found = .nil → ∀ fuel,
      ((s.withFuel fuel).first? goals env).1 = (s.endsWithin fuel goals env).answer none) ∧
    (∀ fuel envs, ((s.withFuel fuel).all goals env).1 = .ok envs ↔
      s.endsWithin fuel goals env = .exhausted ∧ found = Seq.ofList envs) ∧
    ∀ (session : Session) (goal : Term) (goals : List Predicate),
      goal.goals = .ok goals → goal.isGround = true →
        let found := session.fresh.stream goals ∅
        (found ≠ .nil → session.limits.Eventually fun fuel =>
          (session.withFuel fuel).query goal = .ok (.proven true)) ∧
        ∀ fuel,
          ((session.withFuel fuel).query goal = .ok (.proven true) → found ≠ .nil) ∧
          ((session.withFuel fuel).query goal = .ok (.proven false) ↔
            session.fresh.endsWithin fuel goals ∅ = .exhausted ∧ found = .nil) := by
  intro found
  refine ⟨?shown, ?stops, ?first, ?nothing, ?all, ?queries⟩
  case shown => exact s.eventually_take goals env
  case stops =>
    intro σ visitor seen count stops
    exact ⟨Search.delivered_of_stops stops, Search.stopped_of_stops stops,
      Search.ending_of_stops stops⟩
  case first => exact fun first head => Search.first?_of_head head
  case nothing => exact Search.first?_of_nil
  case all => exact fun fuel envs => Search.all_eq_ok_iff_stream
  case queries =>
    intro session goal goals flat ground found
    refine ⟨Session.query_of_stream flat ground, ?_⟩
    intro fuel
    exact ⟨Session.stream_of_query flat ground, Session.query_eq_proven_false flat ground fuel⟩

/-- A session with a fact that can be derived from itself any number of times, and no limit. -/
def ticking : Session :=
  ({ limits := ⟨none, 0⟩ : Session }.run
    [.fact ⟨"tick", [.atom "now"]⟩, .rule ⟨"tick", [.var "X"]⟩ (.compound "tick" [.var "X"])]).2

/-- The second of endlessly many environments is enough to stop at, and the first to prove the goal. A
search for three ways where there are two ends as the search for all of them, and so does a search for
the first way where there is none. -/
theorem early_stop_law_ticking :
    let found := ticking.fresh.stream [⟨"tick", [.var "W"]⟩] ∅
    let ways := Streets.search.stream [Streets.wayFromA] Streets.named
    let back := Streets.way (.atom "c") (.atom "a")
    ((found.get? 1).isSome ∧ ticking.limits.Eventually fun fuel =>
      ((ticking.fresh.withFuel fuel).each (Search.collector (some 2)) [⟨"tick", [.var "W"]⟩] ∅
        #[]).1 = .stopped) ∧
      (∃ first, found.head = some first ∧ ticking.limits.Eventually fun fuel =>
        ((ticking.fresh.withFuel fuel).first? [⟨"tick", [.var "W"]⟩] ∅).1 = .ok (some first)) ∧
      (ways.get? 2 = none ∧ ∀ fuel,
        ((Streets.search.withFuel fuel).each (Search.collector (some 3)) [Streets.wayFromA]
          Streets.named #[]).1 = Streets.search.endsWithin fuel [Streets.wayFromA] Streets.named) ∧
      (Streets.search.stream [back] Streets.named = .nil ∧ ∀ fuel,
        ((Streets.search.withFuel fuel).first? [back] Streets.named).1 =
          (Streets.search.endsWithin fuel [back] Streets.named).answer none) ∧
      ticking.limits.Eventually fun fuel =>
        (ticking.withFuel fuel).query (.compound "tick" [.atom "now"]) = .ok (.proven true) := by
  intro found ways back
  have second : (found.get? 1).isSome := by
    rw [Search.get?_stream_of_lt (show 1 < (ticking.fresh.shownWithin 1 _ ∅).length by decide)]
    rfl
  have third : ways.get? 2 = none := by
    have full : Streets.search.endsWithin 4 [Streets.wayFromA] Streets.named = .exhausted := by rfl
    have listed : ways = _ := Search.stream_of_exhausted full
    rw [listed, Seq.ofList_get?]
    rfl
  have nothing : Streets.search.stream [back] Streets.named = .nil := by
    have full : Streets.search.endsWithin 4 [Streets.way (.atom "c") (.atom "a")] Streets.named =
        .exhausted := by rfl
    exact Search.stream_of_exhausted full
  have tick := early_stop_law ticking.fresh [⟨"tick", [.var "W"]⟩] ∅
  have way := early_stop_law Streets.search [Streets.wayFromA] Streets.named
  refine ⟨⟨second, ?_⟩, ?_, ⟨third, ?_⟩, ⟨nothing, ?_⟩, ?_⟩
  · exact (tick.2.1 _ _ _ 1 (Visitor.stopsAfter_collector 1 found)).2.1 second
  · cases head : found.head with
    | none =>
      rw [Seq.head_eq_none head] at second
      cases second
    | some first => exact ⟨first, rfl, tick.2.2.1 first head⟩
  · exact (way.2.1 _ _ _ 2 (Visitor.stopsAfter_collector 2 ways)).2.2 third
  · exact (early_stop_law Streets.search [back] Streets.named).2.2.2.1 nothing
  · have now := tick.2.2.2.2.2 ticking (.compound "tick" [.atom "now"])
      [⟨"tick", [.atom "now"]⟩] rfl rfl
    apply now.1
    intro nothing
    have first := Search.get?_stream_of_lt
      (show 0 < (ticking.fresh.shownWithin 0 [⟨"tick", [.atom "now"]⟩] ∅).length by decide)
    rw [nothing] at first
    cases first

end Backchain
