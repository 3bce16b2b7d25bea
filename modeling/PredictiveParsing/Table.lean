import PredictiveParsing.Analysis

/-!
Prediction tables. A table is built from two alphabets and a list of cells, of which a later one
takes the place of an earlier one with the same symbols; `Table.addCell` fills a vacant cell only.
Every cell that enters is checked first: its non-terminal, then its terminal, then its right side.
So every table that comes about has sound alphabets, and each of its cells is valid for them
(`Table.Reachable.sound`).

In the table of a grammar, a production is predicted by the terminals that its right side can begin
with and, if the right side can vanish, by those that can follow its left side. Placing all
productions in order either fills the table or stops at the first cell that two different right
sides compete for.
-/
namespace PredictiveParsing

structure Table where
  terminals : SymbolSet
  nonTerminals : SymbolSet
  cells : CellMap
deriving DecidableEq

namespace Table

def Declares (t : Table) (s : Symbol) : Prop := s ∈ t.terminals ∨ s ∈ t.nonTerminals

instance (t : Table) (s : Symbol) : Decidable (t.Declares s) := inferInstanceAs (Decidable (_ ∨ _))

def get? (t : Table) (a s : Symbol) : Option (List Symbol) := t.cells.find? a s

def cellFault? (t : Table) (c : Cell) : Option Fault :=
  if c.nonTerminal ∉ t.nonTerminals then some (.rowUndeclared c)
  else if c.terminal ∉ t.terminals then some (.columnUndeclared c)
  else (c.right.find? fun s => ¬ t.Declares s).map (.entryUndeclared c)

def putCell (t : Table) (c : Cell) : Except Error Table :=
  match t.cellFault? c with
  | some fault => .error (.malformed fault)
  | none => .ok { t with cells := t.cells.insert c }

def addCell (t : Table) (c : Cell) : Except Error Table :=
  match t.cellFault? c, t.get? c.nonTerminal c.terminal with
  | some fault, _ => .error (.malformed fault)
  | none, some _ => .error (.repeatedCell c.nonTerminal c.terminal)
  | none, none => .ok { t with cells := t.cells.insert c }

def tryCell (t : Table) (c : Cell) : Table :=
  match t.addCell c with
  | .ok u => u
  | .error _ => t

def build (nonTerminals terminals : SymbolSet) (cells : List Cell) : Except Error Table :=
  match alphabetFault? terminals nonTerminals [epsilon] with
  | some fault => .error (.malformed fault)
  | none => cells.foldlM putCell { terminals, nonTerminals, cells := ∅ }

structure ValidCell (t : Table) (c : Cell) : Prop where
  row_mem : c.nonTerminal ∈ t.nonTerminals
  column_mem : c.terminal ∈ t.terminals
  right_declared : ∀ s ∈ c.right, t.Declares s

theorem cellFault?_eq_none_iff {t : Table} {c : Cell} : t.cellFault? c = none ↔ t.ValidCell c := by
  have h : t.cellFault? c = none ↔
      c.nonTerminal ∈ t.nonTerminals ∧ c.terminal ∈ t.terminals ∧ ∀ s ∈ c.right, t.Declares s := by
    unfold cellFault?
    split
    · next h => simp [h]
    · next h =>
      split
      · next h' => simp [h']
      · next h' => simp_all
  rw [h]
  constructor
  · rintro ⟨hr, hc, hs⟩
    exact ⟨hr, hc, hs⟩
  · rintro ⟨hr, hc, hs⟩
    exact ⟨hr, hc, hs⟩

end Table

/-- The tables that come about: built from cells, and then filled cell by cell. -/
inductive Table.Reachable : Table → Prop
  | build {nonTerminals terminals : SymbolSet} {cells : List Cell} {t : Table} :
      Table.build nonTerminals terminals cells = .ok t → Reachable t
  | add {t u : Table} {c : Cell} : Reachable t → t.addCell c = .ok u → Reachable u

/-! ## Sound tables -/

structure Table.Sound (t : Table) : Prop where
  alphabets : SoundAlphabets t.terminals t.nonTerminals [epsilon]
  cells_valid : ∀ c ∈ t.cells.toList, t.ValidCell c

namespace Table

theorem ValidCell.congr {t u : Table} {c : Cell} (h : t.ValidCell c)
    (ht : t.terminals = u.terminals) (hn : t.nonTerminals = u.nonTerminals) : u.ValidCell c := by
  obtain ⟨hrow, hcolumn, hright⟩ := h
  refine ⟨hn ▸ hrow, ht ▸ hcolumn, fun s hs => ?_⟩
  have := hright s hs
  simpa only [Declares, ht, hn] using this

theorem Sound.insert {t : Table} {c : Cell} (ht : t.Sound) (hc : t.ValidCell c) :
    ({ t with cells := t.cells.insert c } : Table).Sound := by
  refine ⟨ht.alphabets, fun d hd => ?_⟩
  rcases CellMap.mem_insertCell hd with rfl | hd
  · exact hc.congr rfl rfl
  · exact (ht.cells_valid d hd).congr rfl rfl

theorem putCell_eq_ok_iff {t u : Table} {c : Cell} :
    t.putCell c = .ok u ↔ t.ValidCell c ∧ u = { t with cells := t.cells.insert c } := by
  rw [← cellFault?_eq_none_iff]
  unfold putCell
  split
  · next h => simp [h]
  · next h => simp [h, eq_comm]

theorem addCell_eq_ok_iff {t u : Table} {c : Cell} :
    t.addCell c = .ok u ↔
      t.ValidCell c ∧ t.get? c.nonTerminal c.terminal = none ∧
        u = { t with cells := t.cells.insert c } := by
  rw [← cellFault?_eq_none_iff]
  unfold addCell
  split
  · next h => simp [h]
  · next h h' => simp [h, h']
  · next h h' => simp [h, h', eq_comm]

theorem Sound.foldlM_putCell {t u : Table} {cells : List Cell} (ht : t.Sound)
    (h : cells.foldlM putCell t = .ok u) : u.Sound := by
  induction cells generalizing t with
  | nil =>
    cases h
    exact ht
  | cons c cells ih =>
    rw [List.foldlM_cons] at h
    cases hc : t.putCell c with
    | error e =>
      rw [hc] at h
      cases h
    | ok v =>
      rw [hc] at h
      obtain ⟨hv, rfl⟩ := putCell_eq_ok_iff.1 hc
      exact ih (ht.insert hv) h

theorem Reachable.sound {t : Table} (h : t.Reachable) : t.Sound := by
  induction h with
  | @build nonTerminals terminals cells t h =>
    unfold Table.build at h
    split at h
    · cases h
    · next ha =>
      refine Sound.foldlM_putCell ⟨alphabetFault?_eq_none_iff.1 ha, fun c hc => ?_⟩ h
      exact absurd hc List.not_mem_nil
  | add _ h ih =>
    obtain ⟨hc, _, rfl⟩ := addCell_eq_ok_iff.1 h
    exact ih.insert hc

theorem Sound.valid_of_get? {t : Table} (ht : t.Sound) {a s : Symbol} {r : List Symbol}
    (h : t.get? a s = some r) : t.ValidCell ⟨a, s, r⟩ :=
  ht.cells_valid _ (CellMap.find?_eq_some_iff.1 h)

end Table

/-! ## The table of a grammar -/

def Analysis.predicting (a : Analysis) (p : Production) : List Symbol :=
  (a.starters p.right).toList ++
    if a.vanishes p.right then (a.follow.get p.left).toList else []

structure Conflict where
  production : Production
  terminal : Symbol
  placed : List Symbol
deriving DecidableEq

def CellMap.place (p : Production) (cells : CellMap) (t : Symbol) : Except Conflict CellMap :=
  match cells.find? p.left t with
  | none => .ok (cells.insert ⟨p.left, t, p.right⟩)
  | some placed => if placed = p.right then .ok cells else .error ⟨p, t, placed⟩

def Analysis.placeProduction (a : Analysis) (cells : CellMap) (p : Production) :
    Except Conflict CellMap :=
  (a.predicting p).foldlM (CellMap.place p) cells

inductive Obstacle where
  | conflict (c : Conflict)
  | invalid (e : Error)
deriving DecidableEq

namespace Grammar

def predictedCells (g : Grammar) : Except Conflict CellMap :=
  g.productions.foldlM g.analysis.placeProduction ∅

def table (g : Grammar) : Except Obstacle Table :=
  match g.predictedCells with
  | .error c => .error (.conflict c)
  | .ok cells =>
    (Table.build g.nonTerminals (g.terminals.insert endMark) cells.toList).mapError .invalid

def table? (g : Grammar) : Option Table := g.table.toOption

def isLL1 (g : Grammar) : Bool := g.table?.isSome

end Grammar

end PredictiveParsing
