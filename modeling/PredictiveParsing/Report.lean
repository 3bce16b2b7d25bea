import PredictiveParsing.Grammar.Text
import PredictiveParsing.View.Format

/-!
Answers in JSON to questions about a written grammar. What goes wrong before the question can be
answered is told under the name `error`.
-/
namespace PredictiveParsing.Report

def noTable : String := "the grammar is not LL(1)"

def failure (message : String) : Json := .obj [("error", .str message)]

def sets (text : String) : Json :=
  match Grammar.read text with
  | .error e => failure e.message
  | .ok g => g.setsJson

def table (text : String) : Json :=
  match Grammar.read text with
  | .error e => failure e.message
  | .ok g =>
    match g.table? with
    | none => failure noTable
    | some t => t.grid.toJson

def outcome : Except Rejection ParseTree → Json
  | .ok tree => .obj [("accepted", .bool true), ("tree", tree.toJson)]
  | .error reason =>
    .obj [("accepted", .bool false), ("reason", .str (Error.rejected reason).message)]

def recognition (text input : String) : Json :=
  match Grammar.read text with
  | .error e => failure e.message
  | .ok g =>
    match g.table? with
    | none => failure noTable
    | some t => (outcome (t.recognize input.toList g.start)).sorted

end PredictiveParsing.Report
