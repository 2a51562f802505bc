import Backchain.Proofs.Session.ClauseByClause
import Backchain.Proofs.Session.Termination
import Backchain.Proofs.Source.Printing
import Backchain.Proofs.Text.Utf8

/-!
A program fed to the console.

The text of a printable clause starts and ends with characters that are no blanks, so the console reads
exactly that text from a line with it, and from the text that one clause. What the session is asked for
is then the clause itself. The transcript of the whole program is a prompt and a reply for each clause,
as if the clauses were taken one by one.
-/
set_option autoImplicit false

namespace Backchain

/-! ## Lines and their texts -/

theorem Blank.trim_of_edges {chars after : List Char} (first : ∀ c ∈ chars.head?, isBlank c = false)
    (last : ∀ c ∈ chars.getLast?, isBlank c = false) (blank : ∀ c ∈ after, isBlank c = true) :
    trim (String.ofList (chars ++ after)) = String.ofList chars := by
  rw [trim, String.toList_ofList]
  cases chars with
  | nil =>
    have dropped : after.dropWhile isBlank = [] := List.dropWhile_eq_nil_iff.mpr blank
    rw [List.nil_append, dropped]
    rfl
  | cons c chars =>
    have starts : isBlank c = false := first c rfl
    have kept : (c :: chars).reverse.dropWhile isBlank = (c :: chars).reverse := by
      cases ends : (c :: chars).reverse with
      | nil => rfl
      | cons d others =>
        have final : isBlank d = false := last d (by rw [← List.head?_reverse, ends]; rfl)
        rw [List.dropWhile_cons_of_neg (by simp [final])]
    rw [List.cons_append, List.dropWhile_cons_of_neg (by simp [starts]), ← List.cons_append,
      List.reverse_append, List.dropWhile_append_of_pos (by simpa using blank), kept,
      List.reverse_reverse]

namespace Console

theorem lines_append {octets : List UInt8} (inside : 10 ∉ octets) (rest : List UInt8) :
    lines (octets ++ 10 :: rest) = (octets ++ [10]) :: lines rest := by
  induction octets with
  | nil => simp [lines]
  | cons octet octets ih =>
    obtain ⟨other, later⟩ := List.ne_and_not_mem_of_not_mem_cons inside
    rw [List.cons_append, lines, if_neg (Ne.symm other), ih later]
    rfl

theorem lines_last {octets : List UInt8} (inside : 10 ∉ octets) (some : octets ≠ []) :
    lines octets = [octets] := by
  induction octets with
  | nil => exact absurd rfl some
  | cons octet octets ih =>
    obtain ⟨other, later⟩ := List.ne_and_not_mem_of_not_mem_cons inside
    rw [lines, if_neg (Ne.symm other)]
    cases octets with
    | nil => rfl
    | cons next octets => rw [ih later (by simp)]

/-- The octets of a line with a text, and maybe the line feed that ends it. -/
def Holds (line : List UInt8) (text : String) : Prop :=
  ∃ after, line = Utf8.encode (text ++ String.ofList after) ∧ (after = [] ∨ after = ['\n'])

theorem encode_lineFeed : Utf8.encode "\n" = [10] := by
  rw [Utf8.encode_eq]
  rfl

theorem holds_ended (text : String) : Holds (Utf8.encode text ++ [10]) text := by
  refine ⟨['\n'], ?_, .inr rfl⟩
  rw [Utf8.encode_append]
  exact congrArg (Utf8.encode text ++ ·) encode_lineFeed.symm

/-- Texts that each have a line, the last one ended like the others. -/
theorem holds_lines_join {texts : List String} (oneLine : ∀ text ∈ texts, '\n' ∉ text.toList) :
    List.Forall₂ Holds (lines (Utf8.encode (String.join (texts.map fun text => text ++ "\n"))))
      texts := by
  induction texts with
  | nil => exact .nil
  | cons text texts ih =>
    obtain ⟨first, others⟩ := List.forall_mem_cons.mp oneLine
    rw [List.map_cons, String.join_cons, Utf8.encode_append, Utf8.encode_append, encode_lineFeed,
      List.append_assoc, List.singleton_append, lines_append (Utf8.lineFeed_not_mem_encode first)]
    exact .cons (holds_ended text) (ih others)

/-- Texts that each have a line, the last one ended by the end of input. -/
theorem holds_lines_intercalate {texts : List String}
    (oneLine : ∀ text ∈ texts, '\n' ∉ text.toList) (nonempty : ∀ text ∈ texts, text ≠ "") :
    List.Forall₂ Holds (lines (Utf8.encode ("\n".intercalate texts))) texts := by
  induction texts with
  | nil => exact .nil
  | cons text texts ih =>
    obtain ⟨first, others⟩ := List.forall_mem_cons.mp oneLine
    obtain ⟨nonemptyFirst, nonemptyOthers⟩ := List.forall_mem_cons.mp nonempty
    have inside := Utf8.lineFeed_not_mem_encode first
    cases texts with
    | nil =>
      have octets : Utf8.encode text ≠ [] := by
        intro empty
        rw [← Utf8.decode_encode text, empty] at nonemptyFirst
        exact nonemptyFirst rfl
      rw [String.intercalate_singleton, lines_last inside octets]
      exact .cons ⟨[], by simp, .inl rfl⟩ .nil
    | cons next texts =>
      rw [String.intercalate_cons_cons, Utf8.encode_append, Utf8.encode_append, encode_lineFeed,
        List.append_assoc, List.singleton_append, lines_append inside]
      exact .cons (holds_ended text) (ih others nonemptyOthers)

end Console

/-! ## The texts of clauses -/

theorem Blank.isBlank_of_isLower {c : Char} (lower : c.isLower = true) : isBlank c = false := by
  rw [Source.isLower_eq, Bool.and_eq_true, decide_eq_true_eq, decide_eq_true_eq,
    UInt32.le_iff_toNat_le, UInt32.le_iff_toNat_le] at lower
  obtain ⟨low, high⟩ : 97 ≤ c.toNat ∧ c.toNat ≤ 122 := lower
  simp [isBlank, ranges]
  omega

namespace Clause

theorem text_ends (c : Clause) : ∃ body, c.text.toList = body ++ ['.'] := by
  cases c <;> exact ⟨_, String.toList_append⟩

theorem text_starts {c : Clause} (printable : c.IsPrintable) :
    ∃ first ∈ c.text.toList.head?, Blank.isBlank first = false := by
  have applied {p : Predicate} (printable : p.IsPrintable) (after : String) :
      ∃ first ∈ (p.text ++ after).toList.head?, Blank.isBlank first = false := by
    obtain ⟨first, body, named, lower, -⟩ := Source.isName_iff.mp printable.1
    have starts : ∃ rest, p.text = p.name ++ rest := by
      rw [Predicate.text]
      cases p.args.map Term.text with
      | nil => exact ⟨"", by simp [Backchain.applied]⟩
      | cons text texts =>
        exact ⟨_, Source.applied_of_ne_nil (List.cons_ne_nil text texts)⟩
    obtain ⟨rest, same⟩ := starts
    refine ⟨first, ?_, Blank.isBlank_of_isLower lower⟩
    simp [same, named]
  cases c with
  | fact p => exact applied printable _
  | rule p body =>
    rw [text, String.append_assoc, String.append_assoc]
    exact applied printable.1 _
  | query goal => exact ⟨'?', by simp [text], by decide⟩

theorem text_ne_empty (c : Clause) : c.text ≠ "" := by
  obtain ⟨body, ends⟩ := c.text_ends
  rintro none
  simp [none] at ends

theorem trim_text {c : Clause} (printable : c.IsPrintable) {after : List Char}
    (blank : after = [] ∨ after = ['\n']) :
    Blank.trim (c.text ++ String.ofList after) = c.text := by
  obtain ⟨first, starts, visible⟩ := text_starts printable
  obtain ⟨body, ends⟩ := c.text_ends
  have trimmed : Blank.trim (String.ofList (c.text.toList ++ after)) =
      String.ofList c.text.toList := by
    apply Blank.trim_of_edges
    · rintro d member
      rwa [Option.mem_unique member starts]
    · rintro d member
      rw [ends, List.getLast?_concat, Option.mem_some_iff] at member
      subst member
      decide
    · rcases blank with rfl | rfl
      · exact List.forall_mem_nil _
      · exact List.forall_mem_singleton.mpr (by decide)
  rwa [String.ofList_append, String.ofList_toList] at trimmed

theorem program_text {c : Clause} (printable : c.IsPrintable) :
    Source.program c.text = .ok [c] := by
  have spread : Source.Spread [c] ([] ++ (c.text.toList ++ [])) :=
    .more (List.forall_mem_nil _) (.done (List.forall_mem_nil _))
  rw [List.nil_append, List.append_nil] at spread
  exact Source.program_eq_ok.mpr (spread.programAt (List.forall_mem_singleton.mpr printable))

end Clause

/-! ## The transcript -/

namespace Console

/-- What a console writes at a line that it replies to: the prompt before and the reply after. -/
def exchange (result : Except Halt (Option Outcome)) : String :=
  promptText ++ reply result ++ "\n"

theorem step_text {c : Clause} (printable : c.IsPrintable) (goesOn : c.text ≠ "halt.")
    {line : String} (trimmed : Blank.trim line = c.text) (session : Session) :
    step session line = some (reply (session.accept c).1 ++ "\n", (session.accept c).2) := by
  simp only [step, trimmed, if_neg c.text_ne_empty, if_neg goesOn, Session.runSource,
    Clause.program_text printable, Session.run_singleton]

theorem transcript_lines {source : List (List UInt8)} {program : Program}
    (each : List.Forall₂ (fun line c => Holds line c.text) source program)
    (printable : ∀ c ∈ program, c.IsPrintable) (goesOn : ∀ c ∈ program, c.text ≠ "halt.")
    (session : Session) :
    transcript session (source.map Utf8.decode) =
      String.join ((session.results program).map exchange) ++ promptText := by
  induction each generalizing session with
  | nil => rfl
  | cons held _ ih =>
    obtain ⟨first, others⟩ := List.forall_mem_cons.mp printable
    obtain ⟨goesOnFirst, goesOnOthers⟩ := List.forall_mem_cons.mp goesOn
    obtain ⟨after, rfl, blank⟩ := held
    rw [List.map_cons, Utf8.decode_encode, transcript,
      step_text first goesOnFirst (Clause.trim_text first blank)]
    simp only [ih others goesOnOthers, Session.results, List.map_cons, String.join_cons, exchange,
      String.append_assoc]

end Console

/-! ## Replies under a limit -/

theorem Search.each_ne_unfinished {σ : Type} {s : Search} {limit : Nat}
    (limited : s.limits = .ofDepth limit) (visitor : Visitor σ) (goals : List Predicate) (env : Env)
    (seen : σ) : (s.each visitor goals env seen).1 ≠ .unfinished := by
  rw [Search.each, limited]
  exact search_ne_unfinished rfl (by simp [Limits.ofDepth]) _ visitor goals env s.copies seen

theorem Ending.answer_ne_unfinished {α : Type} {ending : Ending} (finished : ending ≠ .unfinished)
    (result : α) : ending.answer result ≠ .error .unfinished := by
  cases ending with
  | unfinished => exact absurd rfl finished
  | _ => simp [Ending.answer]

theorem map_ne_unfinished {α β : Type} {f : α → β} {result : Except Halt α}
    (finished : result ≠ .error .unfinished) : result.map f ≠ .error .unfinished := by
  cases result with
  | error halt => simpa [Except.map] using finished
  | ok answer => simp [Except.map]

namespace Session

variable {session : Session} {limit : Nat}

theorem query_ne_unfinished (limited : session.limits = .ofDepth limit) (goal : Term) :
    session.query goal ≠ .error .unfinished := by
  unfold query
  split
  · simp
  · split
    · simp
    · rename_i goals _
      have each {σ : Type} (visitor : Visitor σ) (seen : σ) :=
        Search.each_ne_unfinished (s := ⟨session.database, session.limits, 0⟩) limited visitor
          goals ∅ seen
      split
      · exact map_ne_unfinished (Ending.answer_ne_unfinished (each _ _) _)
      · exact map_ne_unfinished (Ending.answer_ne_unfinished (each _ _) _)

/-- What holds of the result of every clause under a limit holds along a whole program. -/
theorem forall₂_results {holds : Clause → Except Halt (Option Outcome) → Prop}
    (each : ∀ session : Session, session.limits = .ofDepth limit → ∀ clause,
      holds clause (session.accept clause).1)
    (limited : session.limits = .ofDepth limit) (program : Program) :
    List.Forall₂ holds program (session.results program) := by
  induction program generalizing session with
  | nil => exact .nil
  | cons clause clauses ih =>
    exact .cons (each session limited clause) (ih ((limits_accept session clause).trans limited))

end Session

namespace Console

/-- The reply to a clause by its result: a clause that is stored is answered `ok`, a query with the text
of its outcome, and a failure with the text of what went wrong. -/
inductive Replies : Clause → Except Halt (Option Outcome) → String → Prop where
  | fact (fact : Predicate) : Replies (.fact fact) (.ok none) "ok"
  | rule (head : Predicate) (body : Term) : Replies (.rule head body) (.ok none) "ok"
  | query (goal : Term) (outcome : Outcome) :
      Replies (.query goal) (.ok (some outcome)) outcome.text
  | error (clause : Clause) (cause : Error) :
      Replies clause (.error (.error cause)) ("error: " ++ cause.message)

theorem Replies.ne_unfinished {clause : Clause} {result : Except Halt (Option Outcome)}
    {text : String} (replies : Replies clause result text) : result ≠ .error .unfinished := by
  cases replies <;> simp

theorem replies_accept {session : Session} {limit : Nat}
    (limited : session.limits = .ofDepth limit) (clause : Clause) :
    Replies clause (session.accept clause).1 (reply (session.accept clause).1) := by
  cases clause with
  | fact predicate =>
    rw [Session.accept]
    cases session.storeFact predicate with
    | ok next => exact .fact predicate
    | error cause => exact .error _ cause
  | rule head body =>
    rw [Session.accept]
    cases session.storeRule head body with
    | ok next => exact .rule head body
    | error cause => exact .error _ cause
  | query goal =>
    have finished := Session.query_ne_unfinished limited goal
    rw [Session.accept]
    generalize session.query goal = result at finished
    cases result with
    | ok outcome => exact .query goal outcome
    | error halt =>
      cases halt with
      | error cause => exact .error _ cause
      | unfinished => exact absurd rfl finished

/-- A console under a valid limit that is fed the texts of printable clauses, one on each line, writes a
prompt and a reply for each clause and a last prompt, and ends well. The replies are to the results of
taking the clauses one by one, whatever comes of each: `ok`, the text of an outcome or the text of an
error. No search for them is given up. -/
theorem console_replays_program {limit : Option String} {depth : Nat} {program : Program}
    {input : List UInt8} (valid : limitOf limit = .ok depth)
    (printable : ∀ c ∈ program, c.IsPrintable) (oneLine : ∀ c ∈ program, '\n' ∉ c.text.toList)
    (goesOn : ∀ c ∈ program, c.text ≠ "halt.")
    (fed : input = Utf8.encode (String.join (program.map fun c => c.text ++ "\n")) ∨
      input = Utf8.encode ("\n".intercalate (program.map Clause.text))) :
    let results := Session.results { limits := .ofDepth depth } program
    run limit input =
      ⟨String.join (results.map fun result => "> " ++ reply result ++ "\n") ++ "> ", "", 0⟩ ∧
      List.Forall₂ (fun clause result => Replies clause result (reply result)) program results ∧
      ∀ result ∈ results, result ≠ .error .unfinished := by
  intro results
  have replied : List.Forall₂ (fun clause result => Replies clause result (reply result)) program
      results := Session.forall₂_results (fun _ => replies_accept) rfl program
  have finished : ∀ result ∈ results, result ≠ .error .unfinished :=
    ((List.forall₂_and_left results program).mp
      (replied.flip.imp fun _ _ replies => ⟨replies.ne_unfinished, replies⟩)).1
  refine ⟨?_, replied, finished⟩
  have noLineFeed : ∀ text ∈ program.map Clause.text, '\n' ∉ text.toList :=
    List.forall_mem_map.mpr oneLine
  have holds : List.Forall₂ Holds (lines input) (program.map Clause.text) := by
    rcases fed with rfl | rfl
    · have joined := holds_lines_join noLineFeed
      rwa [List.map_map] at joined
    · refine holds_lines_intercalate noLineFeed ?_
      exact List.forall_mem_map.mpr fun c _ => c.text_ne_empty
  rw [List.forall₂_map_right_iff] at holds
  rw [run, valid]
  simp only [transcript_lines holds printable goesOn]
  rfl

namespace Roads

def road (first second : Term) : Predicate :=
  ⟨"road", [first, second]⟩

/-- A fact with characters of several octets, a rule that leads back to itself, a query that follows it
too far, and one that does not. -/
def program : Program :=
  [.fact (road (.string "é %→𝄞") (.number 7)),
    .rule (road (.var "X") (.var "Y")) (road (.var "Y") (.var "X")).toTerm,
    .query (road (.var "X") (.number 7)).toTerm,
    .query (road (.string "é %→𝄞") (.number 7)).toTerm]

theorem printable_program : ∀ c ∈ program, c.IsPrintable := by
  have goal {p : Predicate} (printable : p.IsPrintable) : p.toTerm.IsPrintableGoal :=
    ⟨[p], rfl, List.forall_mem_singleton.mpr printable⟩
  have fact : (road (.string "é %→𝄞") (.number 7)).IsPrintable := by decide
  have head : (road (.var "X") (.var "Y")).IsPrintable := by decide
  have body : (road (.var "Y") (.var "X")).IsPrintable := by decide
  have asked : (road (.var "X") (.number 7)).IsPrintable := by decide
  simp only [program, List.forall_mem_cons]
  exact ⟨fact, ⟨head, goal body⟩, goal asked, goal fact, List.forall_mem_nil _⟩

end Roads

open Roads in
theorem console_replays_program_roads :
    run (some " 0 ") (Utf8.encode (String.join (program.map fun c => c.text ++ "\n"))) =
      ⟨"> ok\n> ok\n> error: resolution depth limit of 0 exceeded\n> true\n> ", "", 0⟩ := by
  have valid : limitOf (some " 0 ") = .ok 0 := by rfl
  have oneLine : ∀ c ∈ program, '\n' ∉ c.text.toList := by decide
  have goesOn : ∀ c ∈ program, c.text ≠ "halt." := by decide
  have replayed := (console_replays_program valid printable_program oneLine goesOn (.inl rfl)).1
  have results : Session.results { limits := .ofDepth 0 } program =
      [.ok none, .ok none, .error (.error (.depthLimitExceeded 0)), .ok (some (.proven true))] := by
    rfl
  rw [results] at replayed
  exact replayed.trans (by rfl)

end Console

end Backchain
