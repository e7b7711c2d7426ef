/-
  RuleBody.Main
  ─────────────
  **THE PROGRAM.**

  The thin layer around `CommandLine.run`: it reads the input, prints the
  log and the result, and turns refusals into exit codes.
-/
import RuleBody.CommandLine

namespace RuleBody

/-- The help of the program. -/
def helpText : String :=
  "\n".intercalate
    ["Usage: rulebody [OPTIONS] [INPUT]", "",
      "  --unroll-loops           Unroll loops with a recognized induction variable",
      "  --debug-print            Log the tree structure of the IR",
      "  --print-ir-before-all    Print the IR before each pass",
      "  --unroll-factor N        Unroll factor for every loop (overrides the heuristic)",
      "  --heuristic NAME=VALUE   Replace a heuristic by a constant",
      "  --debug                  Print debug logs to stdout"]

/-- The words for a refusal. -/
def CommandLine.Refusal.message : CommandLine.Refusal → String
  | .unknown => "error: unexpected argument"
  | .noValue => "error: an option needs a value"
  | .badValue => "error: invalid value for an option"
  | .repeated => "error: an option cannot be used multiple times"
  | .needlessValue => "error: unexpected value for an option"
  | .help => helpText
  | .version => "rulebody"

/-- Read a stream to its end. -/
partial def readToEnd (stream : IO.FS.Stream) (text : String) : IO String := do
  let line ← stream.getLine
  if line.isEmpty then return text else readToEnd stream (text ++ line)

/-- The text of an input. -/
def readInput (source : String) : IO String := do
  if source == "-" then readToEnd (← IO.getStdin) "" else IO.FS.readFile source

/-- Run the program on options that were accepted. -/
def runProgram (arguments : List String) (o : CommandLine.Options) : IO UInt32 := do
  let text ← readInput o.source
  let level := if o.has .debug then Level.debug else Level.info
  let (events, result) := CommandLine.run arguments o text (some level)
  for e in events do
    IO.println e.display
  match result with
  | .ok (.ok out) =>
      IO.println out
      return 0
  | .ok (.error e) =>
      IO.eprintln ("Error: " ++ e.message)
      return 1
  | .error f =>
      IO.eprintln (f.message.getD "broken precondition")
      return 101

end RuleBody

open RuleBody in
/-- The command line. -/
def main (arguments : List String) : IO UInt32 := do
  let arguments := "rulebody" :: arguments
  match CommandLine.parse arguments with
  | .ok o => runProgram arguments o
  | .error r =>
      match r with
      | .help | .version =>
          IO.println r.message
          return 0
      | _ =>
          IO.eprintln r.message
          return 2
