import PredictiveParsing.Table

/-!
Recognition of an input with a prediction table by a stack machine. The parse tree grows in an arena
of numbered nodes, of which node 0 is the root. The stack holds the numbers of the nodes that are
still to be processed, and the input is read from a position on. In each round the node on top of
the stack meets the next symbol of the input: a terminal below the root has to match it, and every
other node is expanded with the right side that the table predicts. The run ends when the stack or
the input is used up, and accepts if just the end marker is left.

The leaves of a tree spell the string that it derives; leaves labelled with the sign for the empty
string spell nothing.
-/
namespace PredictiveParsing

/-! ## Parse trees -/

inductive ParseTree where
  | node (root : Symbol) (children : List ParseTree)

namespace ParseTree

def root : ParseTree → Symbol
  | node root _ => root

def children : ParseTree → List ParseTree
  | node _ children => children

def leaf (root : Symbol) : ParseTree := node root []

def isLeaf (t : ParseTree) : Bool := t.children.isEmpty

def withChildren (t : ParseTree) (children : List ParseTree) : ParseTree := node t.root children

mutual

def leaves : ParseTree → List Symbol
  | node root [] => if root = epsilon then [] else [root]
  | node _ (t :: ts) => leaves t ++ forestLeaves ts

def forestLeaves : List ParseTree → List Symbol
  | [] => []
  | t :: ts => leaves t ++ forestLeaves ts

end

mutual

def display : ParseTree → String
  | node root [] => root.toString
  | node root (t :: ts) => root.toString ++ "(" ++ display t ++ displaySiblings ts ++ ")"

def displaySiblings : List ParseTree → String
  | [] => ""
  | t :: ts => " " ++ display t ++ displaySiblings ts

end

end ParseTree

/-! ## The state of the machine -/

structure Node where
  label : Symbol
  children : List Nat
deriving DecidableEq

structure Configuration where
  nodes : Array Node
  stack : List Nat
  position : Nat
  rest : List Symbol
deriving DecidableEq

namespace Configuration

def initial (input : List Symbol) (start : Symbol) : Configuration :=
  { nodes := #[⟨start, []⟩], stack := [0], position := 0, rest := input }

def label (c : Configuration) (i : Nat) : Symbol := (c.nodes[i]?.map Node.label).getD epsilon

def children (c : Configuration) (i : Nat) : List Nat := (c.nodes[i]?.map Node.children).getD []

def advance (c : Configuration) (below : List Nat) (rest : List Symbol) : Configuration :=
  { c with stack := below, position := c.position + 1, rest }

/-- Hangs new nodes for the right side under a node, and puts them on the stack in its place. An
empty right side becomes one leaf, which is not put on the stack. -/
def expand (c : Configuration) (top : Nat) (below : List Nat) (right : List Symbol) :
    Configuration :=
  let labels := if right = [] then [epsilon] else right
  let new := List.range' c.nodes.size labels.length
  let nodes := c.nodes.modify top fun n => { n with children := new }
  { c with
    nodes := nodes ++ (labels.map fun s => (⟨s, []⟩ : Node)).toArray
    stack := (if right = [] then [] else new) ++ below }

def subtree (c : Configuration) : Nat → Nat → ParseTree
  | 0, i => .leaf (c.label i)
  | depth + 1, i => .node (c.label i) ((c.children i).map (c.subtree depth))

def tree (c : Configuration) : ParseTree := c.subtree c.nodes.size 0

end Configuration

/-! ## Rounds and runs -/

structure Round where
  symbol : Symbol
  current : Symbol
  position : Nat
deriving DecidableEq

inductive Step where
  | next (c : Configuration)
  | done (outcome : Except Rejection ParseTree)

namespace Configuration

def round? (c : Configuration) : Option Round :=
  match c.stack, c.rest with
  | top :: _, current :: _ => some ⟨c.label top, current, c.position⟩
  | _, _ => none

def outcome (c : Configuration) : Except Rejection ParseTree :=
  if c.rest = [endMark] then .ok c.tree else .error (.leftOver c.rest)

end Configuration

namespace Table

def step (t : Table) (c : Configuration) : Step :=
  match c.stack, c.rest with
  | top :: below, current :: rest =>
    let symbol := c.label top
    if top ≠ 0 ∧ symbol ∈ t.terminals then
      if symbol = current then .next (c.advance below rest)
      else .done (.error (.mismatch symbol current c.position))
    else
      match t.get? symbol current with
      | none => .done (.error (.noPrediction symbol current c.position))
      | some right => .next (c.expand top below right)
  | _, _ => .done c.outcome

/-- The outcome of a run, if it ends within the given number of rounds. -/
def run (t : Table) : Nat → Configuration → Option (Except Rejection ParseTree)
  | 0, _ => none
  | n + 1, c =>
    match t.step c with
    | .next d => run t n d
    | .done outcome => some outcome

def rounds (t : Table) : Nat → Configuration → List Round
  | 0, _ => []
  | n + 1, c =>
    c.round?.toList ++
      match t.step c with
      | .next d => rounds t n d
      | .done _ => []

def longestRight (t : Table) : Nat := (t.cells.toList.map (·.right.length)).foldr max 0

def treeSize (l : Nat) : Nat → Nat
  | 0 => 1
  | k + 1 => 1 + l * treeSize l k

/-- A number of rounds within which every run that ends does end. With the next symbol fixed, a
run that ends never meets a symbol again while it is being expanded, so each node on the stack
grows to a tree of depth at most the number of non-terminals before the input moves on. -/
def roundLimit (t : Table) (input : List Symbol) : Nat :=
  let n := input.length
  let k := t.nonTerminals.size
  let l := t.longestRight
  n * ((1 + n * (k * l)) * treeSize l k) + 1

def recognize (t : Table) (input : List Symbol) (start : Symbol) : Except Rejection ParseTree :=
  (t.run (t.roundLimit input) (.initial input start)).getD (.error .unending)

end Table

end PredictiveParsing
