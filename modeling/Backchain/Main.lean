import Backchain.Console

/-!
The command: a console on standard input and output.
-/
set_option autoImplicit false

namespace Backchain.Main

/-- Reads octets up to a line feed or the end of input. -/
partial def readLine (input : IO.FS.Stream) (line : Array UInt8) : IO (Array UInt8) := do
  let octets ← input.read 1
  match octets.data[0]? with
  | none => return line
  | some octet => if octet = 10 then return line.push octet else readLine input (line.push octet)

partial def loop (input output : IO.FS.Stream) (session : Session) : IO Unit := do
  output.putStr Console.promptText
  output.flush
  let line ← readLine input #[]
  unless line.isEmpty do
    match Console.step session (Utf8.decode line.toList) with
    | none => return
    | some (written, next) =>
      output.putStr written
      loop input output next

end Backchain.Main

open Backchain in
def main : IO UInt32 := do
  let raw ← IO.getEnv Console.limitVariable
  match Console.limitOf raw with
  | .error cause =>
    (← IO.getStderr).putStr (Console.limitReport (raw.getD "") cause)
    return 1
  | .ok limit =>
    Main.loop (← IO.getStdin) (← IO.getStdout) { limits := .ofDepth limit }
    return 0
