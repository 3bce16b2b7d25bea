import PredictiveParsing.Json
import PredictiveParsing.Recognizer.Run

/-!
What is shown about a grammar, and the forms in which it is shown: plain text, LaTeX and JSON. The
productions are grouped by their left sides. The sets tell of each non-terminal whether it is
nullable, what it can begin with, where the sign for the empty string comes last, and what can
follow it. A prediction table is a grid with a row for each non-terminal and a column for each
terminal, both ascending, and in each place the right side of the cell or nothing; the plain text
sets each column flush right in the width of its longest entry.

In LaTeX, characters with a meaning of their own are written by commands or behind a backslash, so
that a symbol neither ends a column nor opens or closes a group of the text around it. Terminals
are set upright in formulas; members of sets stand outside of formulas.
-/
namespace PredictiveParsing

/-! ## Symbols in LaTeX -/

namespace Latex

def escape (s : Symbol) : String :=
  if s ∈ ['&', '%', '$', '#', '_', '{', '}'] then "\\" ++ s.toString
  else if s = '[' then "\x7b[\x7d"
  else if s = ']' then "\x7b]\x7d"
  else if s = '~' then "\\textasciitilde\x7b\x7d"
  else if s = '^' then "\\textasciicircum\x7b\x7d"
  else if s = '<' then "\\textless\x7b\x7d"
  else if s = '>' then "\\textgreater\x7b\x7d"
  else if s = '!' then "!\x7b\x7d"
  else if s = '\\' then "\\textbackslash\x7b\x7d"
  else s.toString

def text (s : Symbol) : String := "\\text\x7b" ++ escape s ++ "\x7d"

def symbol (terminals : SymbolSet) (s : Symbol) : String :=
  if s = epsilon then "\\epsilon"
  else if s ∈ terminals then text s
  else escape s

def rightSide (terminals : SymbolSet) (right : List Symbol) : String :=
  if right = [] then "\\epsilon" else " \\ ".intercalate (right.map (symbol terminals))

def member (s : Symbol) : String := if s = epsilon then "$\\epsilon$" else escape s

end Latex

/-! ## Productions, cells and trees in JSON -/

def Production.toJson (p : Production) : Json :=
  .obj [("left", .ofSymbol p.left), ("right", .ofSymbols p.right)]

def Cell.toJson (c : Cell) : Json :=
  .obj [("non_terminal", .ofSymbol c.nonTerminal), ("terminal", .ofSymbol c.terminal),
    ("right", .ofSymbols c.right)]

def CellMap.toJson (m : CellMap) : Json := .arr (m.toList.map Cell.toJson)

namespace ParseTree

mutual

def toJson : ParseTree → Json
  | node root children =>
    .obj [("root", .ofSymbol root), ("children", .arr (forestJson children))]

def forestJson : List ParseTree → List Json
  | [] => []
  | t :: ts => toJson t :: forestJson ts

end

end ParseTree

/-! ## Productions -/

structure RuleGroup where
  left : Symbol
  rights : List (List Symbol)
deriving DecidableEq

namespace RuleGroup

def plain (multiline : Bool) (g : RuleGroup) : String :=
  match g.rights with
  | [] => ""
  | r :: rest =>
    let bar := if multiline then "\n   | " else " | "
    s!"{g.left} -> {showRight r}" ++ String.join (rest.map fun r => bar ++ showRight r)

def latex (aligned : Bool) (terminals : SymbolSet) (g : RuleGroup) : String :=
  if g.rights = [] then ""
  else
    Latex.escape g.left ++ (if aligned then " & \\rightarrow &" else " \\rightarrow ") ++
      " \\mid ".intercalate (g.rights.map (Latex.rightSide terminals))

def toJson (g : RuleGroup) : Json :=
  .obj [("left", .ofSymbol g.left), ("rights", .arr (g.rights.map .ofSymbols))]

end RuleGroup

namespace Grammar

def ruleGroups (g : Grammar) : List RuleGroup :=
  (g.nonTerminalOrder.map fun a => ⟨a, g.alternatives a⟩).filter (·.rights ≠ [])

def rulesPlain (g : Grammar) : String := "\n".intercalate (g.ruleGroups.map (·.plain true))

def rulesLatex (g : Grammar) : String :=
  "\\\\\n".intercalate
    ("\\[\\begin\x7barray\x7d\x7bcll\x7d" :: g.ruleGroups.map (·.latex true g.terminals) ++
      ["\\end\x7barray\x7d\\]"])

def rulesJson (g : Grammar) : Json := .obj [("productions", .arr (g.ruleGroups.map (·.toJson)))]

end Grammar

/-! ## Sets -/

structure Summary where
  name : Symbol
  nullable : Bool
  first : List Symbol
  follow : List Symbol
deriving DecidableEq

namespace Summary

def showBool (b : Bool) : String := if b then "true" else "false"

def plain (s : Summary) : String :=
  let list (l : List Symbol) := ", ".intercalate (l.map Char.toString)
  " | ".intercalate [s.name.toString, showBool s.nullable, list s.first, list s.follow]

def latex (s : Summary) : String :=
  let list (l : List Symbol) := "\\ ".intercalate (l.map Latex.member)
  " & ".intercalate [Latex.escape s.name, showBool s.nullable, list s.first, list s.follow]

def toJson (s : Summary) : Json :=
  .obj [("name", .ofSymbol s.name), ("nullable", .bool s.nullable), ("first", .ofSymbols s.first),
    ("follow", .ofSymbols s.follow)]

end Summary

def Analysis.summary (a : Analysis) (name : Symbol) : Summary :=
  let nullable : Bool := name ∈ a.nullable
  { name, nullable,
    first := (a.first.get name).toList ++ if nullable then [epsilon] else []
    follow := (a.follow.get name).toList }

namespace Grammar

def summaries (g : Grammar) : List Summary := g.nonTerminalOrder.map g.analysis.summary

def setsPlain (g : Grammar) : String := "\n".intercalate (g.summaries.map (·.plain))

def setsHeader : String := "Symbol & Nullable & First & Follow"

def setsLatex (g : Grammar) : String :=
  "\\begin\x7btabular\x7d\x7bc|c|c|c\x7d\n" ++ setsHeader ++ "\\\\\\hline\n" ++
    "\\\\\n ".intercalate (g.summaries.map (·.latex)) ++ "\\\\\n\\end\x7btabular\x7d"

def setsJson (g : Grammar) : Json := .obj [("data", .arr (g.summaries.map (·.toJson)))]

end Grammar

/-! ## Tables -/

structure Grid where
  terminals : SymbolSet
  rows : List (Symbol × List (Option (List Symbol)))
deriving DecidableEq

def Table.grid (t : Table) : Grid :=
  { terminals := t.terminals
    rows := t.nonTerminals.toList.map fun a => (a, t.terminals.toList.map (t.get? a)) }

def flushRight (width : Nat) (s : String) : String :=
  String.ofList (List.replicate (width - s.length) ' ') ++ s

def columnWidths : List (List String) → List Nat
  | [] => []
  | [line] => line.map String.length
  | line :: more => List.zipWith max (line.map String.length) (columnWidths more)

namespace Grid

def entry (left : Symbol) : Option (List Symbol) → String
  | none => ""
  | some right => (Production.mk left right).display

def fields (g : Grid) : List (List String) :=
  ("" :: g.terminals.toList.map Char.toString) ::
    g.rows.map fun (left, row) => left.toString :: row.map (entry left)

def plain (g : Grid) : String :=
  let widths := columnWidths g.fields
  "\n".intercalate
    (g.fields.map fun line => " | ".intercalate (List.zipWith flushRight widths line))

def latexEntry (g : Grid) (left : Symbol) : Option (List Symbol) → String
  | none => ""
  | some right => Latex.escape left ++ " \\rightarrow " ++ Latex.rightSide g.terminals right

def latexRow (g : Grid) (row : Symbol × List (Option (List Symbol))) : String :=
  " & ".intercalate (Latex.escape row.1 :: row.2.map (g.latexEntry row.1))

def latexOpening (g : Grid) : String :=
  "\\[\\begin\x7barray\x7d\x7bc" ++ String.join (g.terminals.toList.map fun _ => "|l") ++ "\x7d\n"

def latexHeader (g : Grid) : String :=
  " & ".intercalate (g.latexOpening :: g.terminals.toList.map Latex.text)

def latex (g : Grid) : String :=
  g.latexHeader ++ "\\\\\\hline\n" ++ "\\\\\n".intercalate (g.rows.map g.latexRow) ++
    "\n\\end\x7barray\x7d\\]"

def entryJson : Option (List Symbol) → Json
  | none => .null
  | some right => .ofSymbols right

def toJson (g : Grid) : Json :=
  .obj [("terminals", .ofSymbols g.terminals.toList),
    ("rows", .arr (g.rows.map fun (left, row) => .arr [.ofSymbol left, .arr (row.map entryJson)]))]

end Grid

/-! ## Forms -/

inductive Format where
  | plain
  | latex
  | json
deriving DecidableEq

def Grammar.displayRules (g : Grammar) : Format → String
  | .plain => g.rulesPlain
  | .latex => g.rulesLatex
  | .json => g.rulesJson.render

def Grammar.displaySets (g : Grammar) : Format → String
  | .plain => g.setsPlain
  | .latex => g.setsLatex
  | .json => g.setsJson.render

def Table.display (t : Table) : Format → String
  | .plain => t.grid.plain
  | .latex => t.grid.latex
  | .json => t.grid.toJson.render

end PredictiveParsing
