import PredictiveParsing.View.Format

/-!
The arguments of the command line. They are read from the left, and the first of a misuse, a
request for help and a request for the version decides; without any of these the arguments make up
the options of a run.
-/
namespace PredictiveParsing.CommandLine

inductive Item where
  | productions
  | sets
  | table
deriving DecidableEq

def Item.ofName? : String → Option Item
  | "prod" => some .productions
  | "ff" => some .sets
  | "ll1" => some .table
  | _ => none

def formatOfName? : String → Option Format
  | "plain" => some .plain
  | "latex" => some .latex
  | "json" => some .json
  | _ => none

structure Options where
  items : List Item
  format : Option Format
  inputs : List String
  file : Option String
deriving DecidableEq

def Options.empty : Options := { items := [], format := none, inputs := [], file := none }

inductive Invocation where
  | misuse
  | help
  | version
  | run (options : Options)
deriving DecidableEq

inductive Setting where
  | format
  | input
  | file
deriving DecidableEq

inductive Argument where
  | separator
  | word (s : String)
  | setting (s : Setting) (value : Option String)
  | help
  | version
  | unknown
deriving DecidableEq

def Argument.ofLong (name : List Char) (value : Option String) : Argument :=
  match String.ofList name, value with
  | "format", value => .setting .format value
  | "analyze", value => .setting .input value
  | "grammar", value => .setting .file value
  | "help", none => .help
  | "version", none => .version
  | _, _ => .unknown

def attachedValue : List Char → Option String
  | [] => none
  | '=' :: rest => some (String.ofList rest)
  | rest => some (String.ofList rest)

def Argument.ofShort (letter : Char) (rest : List Char) : Argument :=
  match letter with
  | 'f' => .setting .format (attachedValue rest)
  | 'a' => .setting .input (attachedValue rest)
  | 'g' => .setting .file (attachedValue rest)
  | 'h' => .help
  | 'V' => .version
  | _ => .unknown

def Argument.read (s : String) : Argument :=
  match s.toList with
  | ['-', '-'] => .separator
  | '-' :: '-' :: rest =>
    match rest.dropWhile (· ≠ '=') with
    | [] => .ofLong rest none
    | _ :: value => .ofLong (rest.takeWhile (· ≠ '=')) (some (String.ofList value))
  | '-' :: letter :: rest => .ofShort letter rest
  | _ => .word s

/-- A value of its own may begin with a hyphen only if it is nothing else. -/
def isValue (s : String) : Bool :=
  match s.toList with
  | '-' :: _ :: _ => false
  | _ => true

namespace Options

def addItem? (o : Options) (name : String) : Option Options :=
  (Item.ofName? name).map fun item => { o with items := o.items ++ [item] }

def set? (o : Options) (s : Setting) (value : String) : Option Options :=
  match s with
  | .format =>
    if o.format.isSome then none
    else (formatOfName? value).map fun f => { o with format := some f }
  | .input => some { o with inputs := o.inputs ++ [value] }
  | .file => if o.file.isSome ∨ value = "" then none else some { o with file := some value }

def addItems (o : Options) : List String → Invocation
  | [] => .run o
  | name :: rest =>
    match o.addItem? name with
    | none => .misuse
    | some o => addItems o rest

end Options

def Invocation.scan (o : Options) : List String → Invocation
  | [] => .run o
  | arg :: rest =>
    match Argument.read arg with
    | .separator => o.addItems rest
    | .unknown => .misuse
    | .help => .help
    | .version => .version
    | .word s =>
      match o.addItem? s with
      | none => .misuse
      | some o => scan o rest
    | .setting s (some value) =>
      match o.set? s value with
      | none => .misuse
      | some o => scan o rest
    | .setting s none =>
      match rest with
      | [] => .misuse
      | value :: rest =>
        if isValue value then
          match o.set? s value with
          | none => .misuse
          | some o => scan o rest
        else .misuse

def Invocation.ofArguments (args : List String) : Invocation := scan .empty args

end PredictiveParsing.CommandLine
