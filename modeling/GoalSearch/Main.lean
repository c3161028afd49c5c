/-
The command line: runs one demonstration program.

The first argument names the program.  With `--trace` among the arguments the
records of the engine are printed with its rows.
-/
import GoalSearch.Demo

namespace GoalSearch

/-- The lines that a program prints, and how it stopped if it did. -/
def Demo.output (d : Demo) (kept : Option Level) : List String × Option Stop :=
  let lines (w : World Kit.vocabulary) := w.log.reverse.filterMap fun r => r.line? kept
  match d.run ampleFuel (World.start .empty) with
  | .ok _ w => (lines w, none)
  | .error e w => (lines w, some e)

end GoalSearch

/-- Runs the program that the arguments name. -/
def main (args : List String) : IO UInt32 := do
  let tracing := args.contains "--trace"
  match args.head?.bind fun name => GoalSearch.Demo.ofName? name tracing with
  | none =>
    IO.eprintln "usage: (basic | magic_square | send_more_money) [--trace]"
    return 2
  | some demo =>
    let (lines, stop) := demo.output (if tracing then some .trace else none)
    lines.forM IO.println
    match stop with
    | none => return 0
    | some (.fault f) =>
      IO.eprintln f.message
      return 1
    | some .outOfFuel =>
      IO.eprintln "the search did not end"
      return 1
