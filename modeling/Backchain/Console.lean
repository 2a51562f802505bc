import Backchain.Session
import Backchain.Text.Blank
import Backchain.Text.Utf8

/-!
The console: a session driven line by line.

Every line is read as a program of its own and gets one reply; an error is shown and the session
goes on. A blank line gets no reply, and a line `halt.` or the end of input ends the console. The
depth limit comes as a text, from the environment of the process.
-/
set_option autoImplicit false

namespace Backchain.Console

def promptText : String :=
  "> "

/-- The reply to a line, without the end of the line. -/
def reply : Except Halt (Option Outcome) → String
  | .ok (some outcome) => outcome.text
  | .ok none => "ok"
  | .error halt => "error: " ++ halt.message

/-- What is written for a line and the session after it, or nothing at the end. -/
def step (session : Session) (line : String) : Option (String × Session) :=
  let source := Blank.trim line
  if source = "" then some ("", session)
  else if source = "halt." then none
  else
    match session.runSource source with
    | (result, next) => some (reply result ++ "\n", next)

/-- Everything written for some lines: a prompt before each line and before the end. -/
def transcript (session : Session) : List String → String
  | [] => promptText
  | line :: lines =>
    match step session line with
    | none => promptText
    | some (written, next) => promptText ++ written ++ transcript next lines

/-- The octets of each line; a last line without a line feed counts if it has any. -/
def lines (octets : List UInt8) : List (List UInt8) :=
  match octets with
  | [] => []
  | octet :: rest =>
    if octet = 10 then [octet] :: lines rest
    else
      match lines rest with
      | [] => [[octet]]
      | line :: others => (octet :: line) :: others

/-- Why a text is no depth limit. -/
inductive LimitError where
  | empty
  | invalidDigit
  | tooLarge
deriving DecidableEq

def LimitError.message : LimitError → String
  | .empty => "cannot parse integer from empty string"
  | .invalidDigit => "invalid digit found in string"
  | .tooLarge => "number too large to fit in target type"

/-- Reads digits after a number that is already there. The first fault from the left counts. -/
def readDigits (value : Nat) : List Char → Except LimitError Nat
  | [] => .ok value
  | c :: rest =>
    if c.isDigit then
      let value := 10 * value + (c.toNat - '0'.toNat)
      if value < UInt64.size then readDigits value rest else .error .tooLarge
    else .error .invalidDigit

/-- Reads an unsigned word of 64 bits, which may follow a plus sign. -/
def readLimit : List Char → Except LimitError Nat
  | [] => .error .empty
  | '+' :: c :: rest => readDigits 0 (c :: rest)
  | source => readDigits 0 source

/-- The name of the variable that holds the depth limit. -/
def limitVariable : String :=
  "MICROPROLOG_MAX_DEPTH"

def defaultLimit : Nat :=
  4096

/-- The depth limit that a text gives, blanks at its ends aside. -/
def limitOf : Option String → Except LimitError Nat
  | none => .ok defaultLimit
  | some raw => readLimit (Blank.trim raw).toList

/-- What is written when a text is no depth limit. -/
def limitReport (raw : String) (cause : LimitError) : String :=
  "Error: invalid " ++ limitVariable ++ " `" ++ raw ++ "`\n\nCaused by:\n    " ++
    cause.message ++ "\n"

/-- All that a console writes, and its exit code. -/
structure Report where
  output : String
  errors : String
  code : Nat
deriving DecidableEq

/-- Runs a console over its whole input. -/
def run (limit : Option String) (input : List UInt8) : Report :=
  match limitOf limit with
  | .ok limit => ⟨transcript { limits := .ofDepth limit } ((lines input).map Utf8.decode), "", 0⟩
  | .error cause => ⟨"", limitReport (limit.getD "") cause, 1⟩

end Backchain.Console
