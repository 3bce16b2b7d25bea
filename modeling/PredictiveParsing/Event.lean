import PredictiveParsing.Recognizer.Run

/-!
The account that building a table and recognizing an input give of themselves: the rounds of the
machine, the reason for a rejection, and the conflict that keeps a grammar from having a table.
-/
namespace PredictiveParsing

inductive Level where
  | debug
  | trace
deriving DecidableEq

inductive Event where
  | round (r : Round)
  | rejection (r : Rejection)
  | conflict (c : Conflict)
  | invalidTable (e : Error)
deriving DecidableEq

namespace Event

def level : Event → Level
  | round _ => .trace
  | _ => .debug

def message : Event → String
  | round r => s!"stack top `{r.symbol}`, input `{r.current}` at {r.position}"
  | rejection (.mismatch expected found _) => s!"rejected: expected `{expected}`, found `{found}`"
  | rejection (.noPrediction symbol current _) =>
    s!"rejected: no prediction for ({symbol}, {current})"
  | rejection (.leftOver rest) => s!"rejected: input left over `{String.ofList rest}`"
  | rejection .unending => "rejected: recognition does not end"
  | conflict c =>
    s!"LL(1) conflict at ({c.production.left}, {c.terminal}): " ++
      s!"{c.production.left} -> {String.ofList c.placed} vs {c.production.display}"
  | invalidTable e => s!"built table failed validation: {e.message}"

end Event

def Obstacle.event : Obstacle → Event
  | .conflict c => .conflict c
  | .invalid e => .invalidTable e

def Grammar.tableLog (g : Grammar) : List Event :=
  match g.table with
  | .ok _ => []
  | .error o => [o.event]

def Table.logWithin (t : Table) (n : Nat) (input : List Symbol) (start : Symbol) : List Event :=
  (t.rounds n (.initial input start)).map .round ++
    match t.run n (.initial input start) with
    | some (.error reason) => [.rejection reason]
    | _ => []

def Table.log (t : Table) (input : List Symbol) (start : Symbol) : List Event :=
  t.logWithin (t.roundLimit input) input start

end PredictiveParsing
