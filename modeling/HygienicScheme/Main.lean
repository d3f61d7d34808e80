import HygienicScheme.Repl

/-! The command line: a conversation over standard input and output. -/
open HygienicScheme

partial def serve (input output : IO.FS.Stream) (r : Repl) : IO UInt32 := do
  let line ← input.getLine
  if line.isEmpty then
    output.putStr Repl.farewell
    return 0
  match r.feed (String.ofList (Repl.chomp line.toList)) with
  | (text, .more r) =>
    output.putStr text
    output.flush
    serve input output r
  | (text, .done ending) =>
    output.putStr text
    output.flush
    return ending.toNat.toUInt32

def main : IO UInt32 := do
  let output ← IO.getStdout
  output.putStr Repl.banner
  output.flush
  serve (← IO.getStdin) output Repl.start
