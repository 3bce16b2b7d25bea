import PredictiveParsing.Production

/-!
What can go wrong, as causes, and the wording of each cause in one place (`Error.message`).
-/
namespace PredictiveParsing

inductive Fault where
  | overlap (s : Symbol)
  | reserved (s : Symbol)
  | noProductions
  | startUndeclared (s : Symbol)
  | leftUndeclared (p : Production)
  | rightUndeclared (p : Production) (s : Symbol)
  | rowUndeclared (c : Cell)
  | columnUndeclared (c : Cell)
  | entryUndeclared (c : Cell) (s : Symbol)
deriving DecidableEq

inductive LineFault where
  | noArrow
  | manyArrows
  | noLeft
  | longLeft (left : List Symbol)
deriving DecidableEq

/-- Why an input is not recognized. With some tables a run never ends; this is `unending`. -/
inductive Rejection where
  | mismatch (expected found : Symbol) (position : Nat)
  | noPrediction (symbol current : Symbol) (position : Nat)
  | leftOver (rest : List Symbol)
  | unending
deriving DecidableEq

inductive Error where
  | malformed (fault : Fault)
  | unknownSymbol (s : Symbol)
  | repeatedCell (nonTerminal terminal : Symbol)
  | rejected (reason : Rejection)
  | badLine (number : Nat) (fault : LineFault)
deriving DecidableEq

def Cell.showKey (c : Cell) : String := s!"cell ({c.nonTerminal}, {c.terminal})"

def Fault.message : Fault → String
  | .overlap s =>
    s!"`{s}` is both a terminal and a non terminal; the alphabets must be disjoint"
  | .reserved s => s!"`{s}` is a reserved symbol"
  | .noProductions => "no productions"
  | .startUndeclared s => s!"axiom `{s}` is not included in the set of non terminals"
  | .leftUndeclared p =>
    s!"{p.display}: left symbol `{p.left}` is not included in the set of non terminals"
  | .rightUndeclared p s => s!"{p.display}: invalid symbol `{s}`"
  | .rowUndeclared c =>
    s!"{c.showKey}: `{c.nonTerminal}` is not included in the set of non terminals"
  | .columnUndeclared c => s!"{c.showKey}: `{c.terminal}` is not included in the set of terminals"
  | .entryUndeclared c s => s!"{c.showKey}: invalid symbol `{s}`"

def LineFault.message : LineFault → String
  | .noArrow => "missing \"->\""
  | .manyArrows => "too many \"->\""
  | .noLeft => "empty left side"
  | .longLeft left => s!"left side `{String.ofList left}` is not a single symbol"

def Rejection.message : Rejection → String
  | .mismatch expected found position =>
    s!"expected `{expected}` but found `{found}` at position {position}"
  | .noPrediction symbol current position =>
    s!"no prediction for ({symbol}, {current}) at position {position}"
  | .leftOver rest =>
    s!"input not consumed down to the end marker, `{String.ofList rest}` left"
  | .unending => "recognition does not end"

def Error.message : Error → String
  | .malformed fault => s!"invalid grammar: {fault.message}"
  | .unknownSymbol s => s!"invalid symbol `{s}`: not a symbol of the grammar"
  | .repeatedCell a t => s!"repeated cell ({a}, {t})"
  | .rejected reason => s!"syntax error: {reason.message}"
  | .badLine number fault => s!"Line {number}: {fault.message}"

end PredictiveParsing
