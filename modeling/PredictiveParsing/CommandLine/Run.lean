import PredictiveParsing.CommandLine.Options
import PredictiveParsing.Report

/-!
What a call of the command line answers: an exit code and two texts, from the arguments and from
the text of the grammar or the reason why it cannot be read.
-/
namespace PredictiveParsing.CommandLine

inductive Source where
  | standardInput
  | file (name : String)
deriving DecidableEq

inductive ReadFailure where
  | missing
  | directory
  | notDirectory
  | notText
  | other (message : String)
deriving DecidableEq

def ReadFailure.message : ReadFailure → String
  | .missing => "No such file or directory (os error 2)"
  | .directory => "Is a directory (os error 21)"
  | .notDirectory => "Not a directory (os error 20)"
  | .notText => "stream did not contain valid UTF-8"
  | .other message => message

def decodeText (bytes : ByteArray) : Except ReadFailure String :=
  match String.fromUTF8? bytes with
  | some text => .ok text
  | none => .error .notText

structure Response where
  code : Nat
  output : String
  errors : String
deriving DecidableEq

namespace Response

def failure (output message : String) : Response :=
  { code := 1, output, errors := s!"error: {message}\n" }

def success (output : String) : Response := { code := 0, output, errors := "" }

end Response

def closed (input : String) : String :=
  if input.toList.getLast? = some endMark then input else input.push endMark

def outcomeLine (input : String) : Except Rejection ParseTree → String
  | .ok tree => s!"{input}: accepted, {tree.display}\n"
  | .error reason => s!"{input}: rejected, {(Error.rejected reason).message}\n"

namespace Options

def source (o : Options) : Source :=
  match o.file with
  | none => .standardInput
  | some name => .file name

def isIdle (o : Options) : Bool := o.items.isEmpty && o.inputs.isEmpty

def itemText (o : Options) (g : Grammar) (item : Item) : String :=
  let format := o.format.getD .plain
  match item with
  | .productions => g.displayRules format
  | .sets => g.displaySets format
  | .table =>
    match g.table? with
    | none => "The grammar is not LL(1)."
    | some t => t.display format

def itemLines (o : Options) (g : Grammar) : String :=
  String.join (o.items.map fun item => o.itemText g item ++ "\n")

def inputLines (o : Options) (g : Grammar) (t : Table) : String :=
  String.join (o.inputs.map fun input =>
    outcomeLine (closed input) (t.recognize (closed input).toList g.start))

/-- The items are printed first, also when the inputs cannot be recognized for want of a table. -/
def answerFor (o : Options) (g : Grammar) : Response :=
  if o.inputs = [] then .success (o.itemLines g)
  else
    match g.table? with
    | none => .failure (o.itemLines g) Report.noTable
    | some t => .success (o.itemLines g ++ o.inputLines g t)

def answer (o : Options) (text : Except ReadFailure String) : Response :=
  match text with
  | .error e => .failure "" e.message
  | .ok text =>
    match Grammar.read text with
    | .error e => .failure "" e.message
    | .ok g => o.answerFor g

end Options

def usage : String := "Usage: ll1-analyzer [OPTIONS] [OUTPUTS]...\n"

def helpText : String :=
  usage ++ "\nArguments:\n" ++
    "  [OUTPUTS]...  What to print [possible values: prod, ff, ll1]\n" ++ "\nOptions:\n" ++
    "  -f, --format <FORMAT>    Output format [default: plain] " ++
    "[possible values: plain, latex, json]\n" ++
    "  -a, --analyze <INPUT>    " ++
    "Strings to recognize from the axiom (`$` is appended when missing)\n" ++
    "  -g, --grammar <GRAMMAR>  File containing the grammar (default: stdin)\n" ++
    "  -h, --help               Print help\n" ++ "  -V, --version            Print version\n"

namespace Invocation

def source? : Invocation → Option Source
  | run o => if o.isIdle then none else some o.source
  | _ => none

def answer (text : Except ReadFailure String) : Invocation → Response
  | misuse => { code := 2, output := "", errors := usage }
  | help => .success helpText
  | version => .success "ll1-analyzer 0.1.0\n"
  | run o =>
    if o.isIdle then { code := 1, output := "", errors := "nothing to do, see --help\n" }
    else o.answer text

end Invocation

def respond (args : List String) (read : Source → Except ReadFailure String) : Response :=
  let invocation := Invocation.ofArguments args
  invocation.answer ((invocation.source?.map read).getD (.ok ""))

end PredictiveParsing.CommandLine
