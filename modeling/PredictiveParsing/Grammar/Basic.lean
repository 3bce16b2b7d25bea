import PredictiveParsing.Error

/-!
A presentation names two alphabets, productions in order and a start symbol; a grammar is a
well-formed presentation. The alphabets have no symbol in common and leave out the reserved
symbols, and `alphabetFault?` finds the first fault of theirs: a common symbol before a reserved
one, a terminal before a non-terminal, each in ascending order. `Grammar.build` accepts a
presentation exactly when it is well formed, and otherwise reports the first fault: of the
alphabets, then of the start symbol, then of the productions in order.

The symbols of a grammar have a standing order: the start symbol, the left sides by first
definition, the non-terminals without productions, and last the terminals, the two latter
ascending. The position of a symbol in this order is its index, and rules can be told by indices.
-/
namespace PredictiveParsing

structure SoundAlphabets (terminals nonTerminals : SymbolSet) (reserved : List Symbol) : Prop where
  disjoint : ∀ s ∈ terminals, s ∉ nonTerminals
  terminals_free : ∀ s ∈ terminals, s ∉ reserved
  nonTerminals_free : ∀ s ∈ nonTerminals, s ∉ reserved

def alphabetFault? (terminals nonTerminals : SymbolSet) (reserved : List Symbol) : Option Fault :=
  ((terminals.toList.find? (· ∈ nonTerminals)).map .overlap).or
    (((terminals.toList ++ nonTerminals.toList).find? (· ∈ reserved)).map .reserved)

theorem alphabetFault?_eq_none_iff {terminals nonTerminals : SymbolSet} {reserved : List Symbol} :
    alphabetFault? terminals nonTerminals reserved = none ↔
      SoundAlphabets terminals nonTerminals reserved := by
  have h : alphabetFault? terminals nonTerminals reserved = none ↔
      (∀ s ∈ terminals, s ∉ nonTerminals) ∧
        (∀ s ∈ terminals, s ∉ reserved) ∧ ∀ s ∈ nonTerminals, s ∉ reserved := by
    simp only [alphabetFault?, Option.or_eq_none_iff, Option.map_eq_none_iff, List.find?_eq_none,
      List.forall_mem_append, SymbolSet.mem_toList, decide_eq_true_eq]
  rw [h]
  constructor
  · rintro ⟨hd, ht, hn⟩
    exact ⟨hd, ht, hn⟩
  · rintro ⟨hd, ht, hn⟩
    exact ⟨hd, ht, hn⟩

/-! ## Grammars -/

structure Presentation where
  terminals : SymbolSet
  nonTerminals : SymbolSet
  productions : List Production
  start : Symbol
deriving DecidableEq

namespace Presentation

def Declares (g : Presentation) (s : Symbol) : Prop := s ∈ g.terminals ∨ s ∈ g.nonTerminals

instance (g : Presentation) (s : Symbol) : Decidable (g.Declares s) :=
  inferInstanceAs (Decidable (_ ∨ _))

structure WellFormed (g : Presentation) : Prop where
  alphabets : SoundAlphabets g.terminals g.nonTerminals [endMark, epsilon]
  start_mem : g.start ∈ g.nonTerminals
  left_mem : ∀ p ∈ g.productions, p.left ∈ g.nonTerminals
  right_declared : ∀ p ∈ g.productions, ∀ s ∈ p.right, g.Declares s

def startFault? (g : Presentation) : Option Fault :=
  if g.start ∈ g.nonTerminals then none else some (.startUndeclared g.start)

def productionFault? (g : Presentation) (p : Production) : Option Fault :=
  if p.left ∈ g.nonTerminals then
    (p.right.find? fun s => ¬ g.Declares s).map (.rightUndeclared p)
  else some (.leftUndeclared p)

def fault? (g : Presentation) : Option Fault :=
  (alphabetFault? g.terminals g.nonTerminals [endMark, epsilon]).or
    (g.startFault?.or (g.productions.findSome? g.productionFault?))

theorem productionFault?_eq_none_iff {g : Presentation} {p : Production} :
    g.productionFault? p = none ↔ p.left ∈ g.nonTerminals ∧ ∀ s ∈ p.right, g.Declares s := by
  unfold productionFault?
  split
  · next h => simp [h]
  · next h => simp [h]

theorem fault?_eq_none_iff {g : Presentation} : g.fault? = none ↔ g.WellFormed := by
  have h : g.fault? = none ↔
      SoundAlphabets g.terminals g.nonTerminals [endMark, epsilon] ∧ g.start ∈ g.nonTerminals ∧
        ∀ p ∈ g.productions, p.left ∈ g.nonTerminals ∧ ∀ s ∈ p.right, g.Declares s := by
    simp [fault?, startFault?, alphabetFault?_eq_none_iff, productionFault?_eq_none_iff]
  rw [h]
  constructor
  · rintro ⟨ha, hs, hp⟩
    exact ⟨ha, hs, fun p m => (hp p m).1, fun p m => (hp p m).2⟩
  · rintro ⟨ha, hs, hl, hr⟩
    exact ⟨ha, hs, fun p m => ⟨hl p m, hr p m⟩⟩

def ofProductions (start : Symbol) (productions : List Production) : Presentation :=
  let nonTerminals := SymbolSet.ofList (productions.map (·.left))
  let rights := SymbolSet.ofList (productions.flatMap (·.right))
  { terminals := rights.filter (· ∉ nonTerminals), nonTerminals, productions, start }

end Presentation

structure Grammar extends Presentation where
  wellFormed : toPresentation.WellFormed
deriving DecidableEq

namespace Grammar

def build (p : Presentation) : Except Error Grammar :=
  match h : p.fault? with
  | some fault => .error (.malformed fault)
  | none => .ok ⟨p, Presentation.fault?_eq_none_iff.1 h⟩

theorem build_eq_ok_iff {p : Presentation} {g : Grammar} :
    build p = .ok g ↔ g.toPresentation = p := by
  unfold build
  split
  · next h =>
    refine ⟨nofun, fun e => ?_⟩
    have := Presentation.fault?_eq_none_iff.2 g.wellFormed
    simp_all
  · next h =>
    refine ⟨fun e => ?_, fun e => ?_⟩
    · cases e
      rfl
    · subst e
      rfl

theorem build_of_fault {p : Presentation} {fault : Fault} (h : p.fault? = some fault) :
    build p = .error (.malformed fault) := by
  unfold build
  split
  · next fault' h' =>
    cases h'.symm.trans h
    rfl
  · next h' => exact absurd (h'.symm.trans h) nofun

def alternatives (g : Grammar) (a : Symbol) : List (List Symbol) :=
  (g.productions.filter (·.left = a)).map (·.right)

theorem mem_alternatives {g : Grammar} {a : Symbol} {r : List Symbol} :
    r ∈ g.alternatives a ↔ ⟨a, r⟩ ∈ g.productions := by
  simp only [alternatives, List.mem_map, List.mem_filter, decide_eq_true_eq]
  constructor
  · rintro ⟨⟨_, _⟩, ⟨hp, rfl⟩, rfl⟩
    exact hp
  · intro h
    exact ⟨_, ⟨h, rfl⟩, rfl⟩

end Grammar

/-! ## The standing order -/

namespace Grammar

def nonTerminalOrder (g : Grammar) : List Symbol :=
  (g.start :: g.productions.map (·.left) ++ g.nonTerminals.toList).eraseDups

def symbols (g : Grammar) : List Symbol := g.nonTerminalOrder ++ g.terminals.toList

def index? (g : Grammar) (s : Symbol) : Option Nat := g.symbols.idxOf? s

def name? (g : Grammar) (i : Nat) : Option Symbol := g.symbols[i]?

def rules (g : Grammar) (a : Symbol) : List (List Nat) :=
  (g.alternatives a).map fun r => r.map g.symbols.idxOf

theorem mem_nonTerminalOrder {g : Grammar} {s : Symbol} :
    s ∈ g.nonTerminalOrder ↔ s ∈ g.nonTerminals := by
  have hs := g.wellFormed.start_mem
  have hl := g.wellFormed.left_mem
  simp only [nonTerminalOrder, List.mem_eraseDups, List.cons_append, List.mem_cons, List.mem_append,
    List.mem_map, SymbolSet.mem_toList]
  constructor
  · rintro (rfl | ⟨p, hp, rfl⟩ | h)
    · exact hs
    · exact hl p hp
    · exact h
  · intro h
    exact .inr (.inr h)

theorem mem_symbols {g : Grammar} {s : Symbol} : s ∈ g.symbols ↔ g.Declares s := by
  simp only [symbols, List.mem_append, mem_nonTerminalOrder, SymbolSet.mem_toList,
    Presentation.Declares]
  exact Or.comm

end Grammar

end PredictiveParsing
