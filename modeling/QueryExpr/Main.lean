import QueryExpr.Checker

/-!
# The command line

Reads expressions from standard input and prints the answer to each as soon as its line is complete.
Every answer starts with the time that parsing took.
-/

namespace QueryExpr.Main

/-- Reads up to and including the next line feed, or to the end of the input. -/
partial def readLine (input : IO.FS.Stream) (line : Array UInt8) : IO (Array UInt8) := do
  let bytes ← input.read 1
  match bytes.data[0]? with
  | none => return line
  | some byte => if byte = 10 then return line.push byte else readLine input (line.push byte)

/-- Answers lines until the input ends or a line is not UTF-8. -/
partial def answerAll (input output : IO.FS.Stream) : IO Unit := do
  let line ← readLine input #[]
  if line.isEmpty then
    return
  match Checker.decodeLine? line.toList with
  | none =>
    IO.eprintln "Error reading input: stream did not contain valid UTF-8"
  | some text =>
    let start ← IO.monoNanosNow
    let parsed ← IO.lazyPure fun _ => Expr.parse text
    let stop ← IO.monoNanosNow
    output.putStr ("[in " ++ toString ((stop - start) / 1000) ++ "μs] ")
    for answer in Checker.report parsed do
      output.putStr (answer ++ "\n")
    output.flush
    answerAll input output

end QueryExpr.Main

/-- Runs the line checker. -/
def main : IO Unit := do
  QueryExpr.Main.answerAll (← IO.getStdin) (← IO.getStdout)
