import Backchain.Clause
import Backchain.Source.Scan
import Backchain.Term.Goals

/-!
Reading programs from source.

Every reader skips blanks and comments first, decides by the next character, and gives the rest of
the source, or fails. A name is an atom where an argument is read and a predicate without arguments
where a goal is read; with parentheses, even empty ones, it is a predicate in both places. A clause
that cannot be read makes the program unreadable at the first character of that clause.

A reader that recurs has a fuel argument; the length of the source is enough, because every step
takes at least one character.
-/
set_option autoImplicit false

namespace Backchain.Source

/-- Reads items separated by commas, up to the first item that no comma follows. -/
def separated {α : Type} (item : List Char → Option (α × List Char)) :
    Nat → List Char → Option (List α × List Char)
  | 0, _ => none
  | fuel + 1, source =>
    match item source with
    | none => none
    | some (first, rest) =>
      match skip rest with
      | ',' :: after =>
        match separated item fuel after with
        | none => none
        | some (items, rest) => some (first :: items, rest)
      | _ => some ([first], rest)

/-- What may stand after a name: nothing, or arguments in parentheses. -/
def arguments (item : List Char → Option (Term × List Char)) (fuel : Nat) (source : List Char) :
    Option (Option (List Term) × List Char) :=
  match skip source with
  | '(' :: inside =>
    match skip inside with
    | ')' :: rest => some (some [], rest)
    | _ =>
      match separated item fuel inside with
      | none => none
      | some (args, rest) =>
        match skip rest with
        | ')' :: rest => some (some args, rest)
        | _ => none
  | _ => some (none, source)

/-- Reads a term in argument position. -/
def term : Nat → List Char → Option (Term × List Char)
  | 0, _ => none
  | fuel + 1, source =>
    let start := skip source
    match name? Char.isLower start with
    | some (name, rest) =>
      match arguments (term fuel) fuel rest with
      | none => none
      | some (none, rest) => some (.atom name, rest)
      | some (some args, rest) => some (.compound name args, rest)
    | none =>
      match name? Char.isUpper start with
      | some (name, rest) => some (.var name, rest)
      | none =>
        match number? start with
        | some (value, rest) => some (.number value, rest)
        | none => (quoted? start).map fun (text, rest) => (.string text, rest)

/-- Reads a predicate in goal or head position. -/
def predicate (fuel : Nat) (source : List Char) : Option (Predicate × List Char) :=
  match name? Char.isLower (skip source) with
  | none => none
  | some (name, rest) =>
    match arguments (term fuel) fuel rest with
    | none => none
    | some (args, rest) => some (⟨name, args.getD []⟩, rest)

/-- Reads goals separated by commas as one term. -/
def conjunction (fuel : Nat) (source : List Char) : Option (Term × List Char) :=
  match separated (predicate fuel) fuel source with
  | none => none
  | some (goals, rest) => (Term.ofGoals? goals).map fun goal => (goal, rest)

/-- Reads the dot that ends a clause. -/
def ended (clause : Clause) (source : List Char) : Option (Clause × List Char) :=
  match skip source with
  | '.' :: rest => some (clause, rest)
  | _ => none

/-- Reads one clause. -/
def clause (fuel : Nat) (source : List Char) : Option (Clause × List Char) :=
  match skip source with
  | '?' :: '-' :: rest =>
    match conjunction fuel rest with
    | none => none
    | some (goal, rest) => ended (.query goal) rest
  | start =>
    match predicate fuel start with
    | none => none
    | some (head, rest) =>
      match skip rest with
      | ':' :: '-' :: rest =>
        match conjunction fuel rest with
        | none => none
        | some (body, rest) => ended (.rule head body) rest
      | rest => ended (.fact head) rest

/-- Reads clauses to the end of the source, or gives the source from the first clause on that
cannot be read. -/
def clauses : Nat → List Char → Except (List Char) Program
  | 0, source => .error source
  | fuel + 1, source =>
    match skip source with
    | [] => .ok []
    | start =>
      match clause start.length start with
      | none => .error start
      | some (first, rest) =>
        match clauses fuel rest with
        | .error unread => .error unread
        | .ok program => .ok (first :: program)

/-- The error for source that was read up to some place: the line, the column in that line, and the
first characters that were not read. -/
def unreadable (consumed unread : List Char) : Error :=
  .unreadable
    (consumed.count '\n' + 1)
    ((consumed.reverse.takeWhile (· != '\n')).length + 1)
    (if unread = [] then "end of input" else String.ofList (unread.take 20))

/-- The error for source of which an end was not read: the place is where that many octets are left. -/
def errorAt (source unread : String) : Error :=
  let offset := source.utf8ByteSize - unread.utf8ByteSize
  unreadable (String.Pos.Raw.extract source 0 ⟨offset⟩).toList unread.toList

/-- Reads a whole program. -/
def program (source : String) : Except Error Program :=
  let chars := source.toList
  match clauses (chars.length + 1) chars with
  | .ok program => .ok program
  | .error unread => .error (errorAt source (String.ofList unread))

end Backchain.Source
