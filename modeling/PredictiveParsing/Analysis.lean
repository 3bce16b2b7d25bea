import PredictiveParsing.Grammar.Basic

/-!
What is known about the symbols of a grammar: which of them are nullable, which terminals a string
can begin with, and which can stand right after a non-terminal, the end marker after the start
symbol. Each of the three is grown in rounds until a round changes nothing. A round sweeps over a
list of items and lets each of them change the value in place; a step tells whether it did. The
number of rounds is limited by a count that the caller chooses at least as large as the growth that
is possible (`saturate_settled`).

A non-terminal is marked as nullable as soon as one of its right sides consists of marked symbols.
What it can begin with is recomputed from its right sides as a whole, and replaces the stored set
when the sizes differ. Each occurrence of a non-terminal in a right side hands it what can begin the
rest of that right side and, if the rest can vanish, what can follow the left side.
-/
namespace PredictiveParsing

/-! ## Rounds -/

structure Progress (α : Type) where
  value : α
  changed : Bool

def sweep {α β : Type} (step : α → β → Progress α) (items : List β) (a : α) : Progress α :=
  items.foldl (fun p b => let q := step p.value b; ⟨q.value, p.changed || q.changed⟩) ⟨a, false⟩

def saturate {α : Type} (round : α → Progress α) : Nat → α → α
  | 0, a => a
  | n + 1, a =>
    let p := round a
    if p.changed then saturate round n p.value else p.value

/-- If every round that changes something grows a size that stays below a bound, and one that
changes nothing leaves the value alone, then the last value is left alone by one more round. -/
theorem saturate_settled {α : Type} {round : α → Progress α} {Good : α → Prop} {size : α → Nat}
    {bound : Nat} (keeps : ∀ a, Good a → Good (round a).value)
    (grows : ∀ a, Good a → (round a).changed = true → size a < size (round a).value)
    (stays : ∀ a, Good a → (round a).changed = false → (round a).value = a)
    (bounded : ∀ a, Good a → size a ≤ bound) {n : Nat} {a : α} (ha : Good a)
    (hn : bound < size a + n) :
    Good (saturate round n a) ∧ round (saturate round n a) = ⟨saturate round n a, false⟩ := by
  induction n generalizing a with
  | zero => exact absurd (bounded a ha) (by omega)
  | succ n ih =>
    simp only [saturate]
    split
    · next hc =>
      have hg := grows a ha hc
      exact ih (keeps a ha) (by omega)
    · next hc =>
      have hc : (round a).changed = false := by simpa using hc
      have hv := stays a ha hc
      rw [hv]
      refine ⟨ha, ?_⟩
      cases h : round a with
      | mk value changed => simp_all

/-! ## Nullable symbols -/

def vanishes (nullable : SymbolSet) (sentence : List Symbol) : Bool :=
  sentence.all fun s => s ∈ nullable

namespace Grammar

def markNullable (g : Grammar) (nullable : SymbolSet) (a : Symbol) : Progress SymbolSet :=
  if a ∉ nullable ∧ (g.alternatives a).any (vanishes nullable) then ⟨nullable.insert a, true⟩
  else ⟨nullable, false⟩

def nullableRound (g : Grammar) (nullable : SymbolSet) : Progress SymbolSet :=
  sweep g.markNullable g.nonTerminalOrder nullable

def nullableSet (g : Grammar) : SymbolSet := saturate g.nullableRound (g.nonTerminals.size + 1) ∅

end Grammar

/-! ## First terminals -/

def starters (nullable : SymbolSet) (first : SetFamily) : List Symbol → SymbolSet
  | [] => ∅
  | s :: rest =>
    if s ∈ nullable then first.get s ∪ starters nullable first rest else first.get s

namespace Grammar

def firstSeed (g : Grammar) : SetFamily :=
  ⟨g.terminals.toList.map fun t => (t, SymbolSet.ofList [t])⟩

def recomputedFirst (g : Grammar) (nullable : SymbolSet) (first : SetFamily) (a : Symbol) :
    SymbolSet :=
  SymbolSet.unions ((g.alternatives a).map (starters nullable first))

def updateFirst (g : Grammar) (nullable : SymbolSet) (first : SetFamily) (a : Symbol) :
    Progress SetFamily :=
  let new := g.recomputedFirst nullable first a
  if new.size = (first.get a).size then ⟨first, false⟩ else ⟨first.set a new, true⟩

def firstRound (g : Grammar) (nullable : SymbolSet) (first : SetFamily) : Progress SetFamily :=
  sweep (g.updateFirst nullable) g.nonTerminalOrder first

def firstFamily (g : Grammar) (nullable : SymbolSet) : SetFamily :=
  saturate (g.firstRound nullable) (g.nonTerminals.size * g.terminals.size + 1) g.firstSeed

end Grammar

/-! ## Following terminals -/

structure Occurrence where
  left : Symbol
  symbol : Symbol
  rest : List Symbol
deriving DecidableEq

def splits : List Symbol → List (Symbol × List Symbol)
  | [] => []
  | s :: rest => (s, rest) :: splits rest

namespace Grammar

def occurrences (g : Grammar) : List Occurrence :=
  g.nonTerminalOrder.flatMap fun a =>
    (g.alternatives a).flatMap fun r =>
      ((splits r).filter fun s => s.1 ∈ g.nonTerminals).map fun s => ⟨a, s.1, s.2⟩

def followSeed (g : Grammar) : SetFamily := (∅ : SetFamily).set g.start (SymbolSet.ofList [endMark])

def extendFollow (nullable : SymbolSet) (first follow : SetFamily) (o : Occurrence) :
    Progress SetFamily :=
  let old := follow.get o.symbol
  let inherited := if vanishes nullable o.rest then follow.get o.left else ∅
  let new := old ∪ (starters nullable first o.rest ∪ inherited)
  if new.size = old.size then ⟨follow, false⟩ else ⟨follow.set o.symbol new, true⟩

def followRound (g : Grammar) (nullable : SymbolSet) (first follow : SetFamily) :
    Progress SetFamily :=
  sweep (extendFollow nullable first) g.occurrences follow

def followFamily (g : Grammar) (nullable : SymbolSet) (first : SetFamily) : SetFamily :=
  saturate (g.followRound nullable first) (g.nonTerminals.size * (g.terminals.size + 1) + 1)
    g.followSeed

end Grammar

/-! ## Questions -/

structure Analysis where
  nullable : SymbolSet
  first : SetFamily
  follow : SetFamily
deriving DecidableEq

namespace Analysis

def vanishes (a : Analysis) (sentence : List Symbol) : Bool :=
  PredictiveParsing.vanishes a.nullable sentence

def starters (a : Analysis) (sentence : List Symbol) : SymbolSet :=
  PredictiveParsing.starters a.nullable a.first sentence

def firstOf (a : Analysis) (sentence : List Symbol) : SymbolSet :=
  if a.vanishes sentence then (a.starters sentence).insert epsilon else a.starters sentence

end Analysis

namespace Grammar

def analysis (g : Grammar) : Analysis :=
  let nullable := g.nullableSet
  let first := g.firstFamily nullable
  { nullable, first, follow := g.followFamily nullable first }

def first? (g : Grammar) (sentence : List Symbol) : Except Error SymbolSet :=
  match sentence.find? fun s => ¬ g.Declares s with
  | some s => .error (.unknownSymbol s)
  | none => .ok (g.analysis.firstOf sentence)

def follow? (g : Grammar) (a : Symbol) : Except Error SymbolSet :=
  if a ∈ g.nonTerminals then .ok (g.analysis.follow.get a) else .error (.unknownSymbol a)

def nullable? (g : Grammar) (s : Symbol) : Except Error Bool :=
  if g.Declares s then .ok (s ∈ g.analysis.nullable) else .error (.unknownSymbol s)

end Grammar

end PredictiveParsing
