import PredictiveParsing.Proofs.Exactness
import PredictiveParsing.Table

/-!
# The prediction table holds the predicted cells

Placing the productions is one loop over placements, pairs of a production and a terminal that
predicts it. At each point of the loop a cell holds the right side of the earliest placement with
its key (`Placed`), and the loop stops at the first placement that brings another right side. The
placed cells are always valid, so a table is missing only because of such a conflict
(`table_eq_ok_iff`), and then two productions with different right sides share a lookahead
(`isLL1_eq_true_iff`). `PredictsFor` collects what holds of the table of a grammar.
-/
namespace PredictiveParsing

namespace Grammar

variable {g : Grammar}

theorem mem_predicting {p : Production} {t : Symbol} :
    t ∈ g.analysis.predicting p ↔ g.Predicts p t := by
  simp only [Analysis.predicting, List.mem_append, SymbolSet.mem_toList, mem_starters, Predicts,
    Ahead]
  by_cases h : g.Vanishes p.right
  · simp [vanishes_analysis.2 h, h, mem_follow]
  · simp [mt vanishes_analysis.1 h, h]

end Grammar

/-! ## Cells in order -/

theorem Cell.Precedes.asymm {c d : Cell} (hcd : c.Precedes d) : ¬ d.Precedes c := by
  rintro (k | ⟨k, k'⟩) <;> rcases hcd with h | ⟨h, h'⟩
  · exact Char.lt_asymm h k
  · exact Char.lt_irrefl _ (h ▸ k)
  · exact Char.lt_irrefl _ (k ▸ h)
  · exact Char.lt_asymm h' k'

instance : Std.Asymm Cell.Precedes := ⟨fun _ _ => Cell.Precedes.asymm⟩

instance : Std.Antisymm Cell.Precedes := Std.Asymm.antisymm _

theorem CellMap.ext {m n : CellMap} (h : ∀ a t, m.find? a t = n.find? a t) : m = n := by
  have hmem : ∀ c, c ∈ m.toList ↔ c ∈ n.toList := fun c => by
    rw [show c = ⟨c.nonTerminal, c.terminal, c.right⟩ from rfl, ← find?_eq_some_iff,
      ← find?_eq_some_iff, h]
  obtain ⟨l, hl⟩ := m
  obtain ⟨k, hk⟩ := n
  obtain rfl : l = k := hl.eq_of_mem_iff hk hmem
  rfl

/-! ## Placing -/

abbrev Placement := Production × Symbol

namespace CellMap

def placeOne (cells : CellMap) (e : Placement) : Except Conflict CellMap := cells.place e.1 e.2

def earliest (l : List Placement) (a t : Symbol) : Option (List Symbol) :=
  (l.find? fun e => e.1.left = a ∧ e.2 = t).map fun e => e.1.right

def Placed (cells : CellMap) (l : List Placement) : Prop :=
  ∀ a t, cells.find? a t = earliest l a t

theorem earliest_eq_some {l : List Placement} {a t : Symbol} {r : List Symbol}
    (h : earliest l a t = some r) : (⟨a, r⟩, t) ∈ l := by
  obtain ⟨⟨⟨a', r'⟩, t'⟩, he, rfl⟩ := Option.map_eq_some_iff.1 h
  have hkey := List.find?_some he
  simp only [decide_eq_true_eq] at hkey
  obtain ⟨rfl, rfl⟩ := hkey
  exact List.mem_of_find?_eq_some he

theorem earliest_append {l k : List Placement} {a t : Symbol} :
    earliest (l ++ k) a t = (earliest l a t).or (earliest k a t) := by
  simp only [earliest, List.find?_append]
  cases l.find? fun e => decide (e.1.left = a ∧ e.2 = t) <;> rfl

theorem earliest_singleton {e : Placement} {a t : Symbol} :
    earliest [e] a t = if e.1.left = a ∧ e.2 = t then some e.1.right else none := by
  by_cases h : e.1.left = a ∧ e.2 = t
  · simp [earliest, h]
  · simp only [earliest, List.find?_cons, h, decide_false, List.find?_nil, Option.map_none,
      if_false]

variable {cells cells' : CellMap} {l k : List Placement} {e : Placement} {c : Conflict}

theorem Placed.of_placeOne (h : cells.Placed l) (hok : cells.placeOne e = .ok cells') :
    cells'.Placed (l ++ [e]) ∧ earliest (l ++ [e]) e.1.left e.2 = some e.1.right := by
  have hkey := h e.1.left e.2
  unfold placeOne place at hok
  rw [hkey] at hok
  rw [earliest_append, earliest_singleton, if_pos ⟨rfl, rfl⟩]
  split at hok
  · next hn =>
    cases hok
    refine ⟨fun a t => ?_, by rw [hn, Option.none_or]⟩
    rw [find?_insert, earliest_append, earliest_singleton, h a t]
    by_cases he : e.1.left = a ∧ e.2 = t
    · obtain ⟨rfl, rfl⟩ := he
      simp [Cell.HasKey, hn]
    · simp [Cell.HasKey, he]
  · next placed hs =>
    split at hok
    · next e' =>
      cases hok
      refine ⟨fun a t => ?_, by rw [hs, Option.some_or, e']⟩
      rw [h a t, earliest_append, earliest_singleton]
      by_cases he : e.1.left = a ∧ e.2 = t
      · obtain ⟨rfl, rfl⟩ := he
        rw [hs, Option.some_or]
      · rw [if_neg he, Option.or_none]
    · cases hok

theorem Placed.of_placeOne_error (h : cells.Placed l) (herr : cells.placeOne e = .error c) :
    (c.production, c.terminal) = e ∧ earliest l e.1.left e.2 = some c.placed ∧
      c.placed ≠ e.1.right := by
  have hkey := h e.1.left e.2
  unfold placeOne place at herr
  rw [hkey] at herr
  split at herr
  · cases herr
  · next placed hs =>
    split at herr
    · cases herr
    · next hne =>
      cases herr
      exact ⟨rfl, hs, hne⟩

theorem Placed.of_foldlM (h : cells.Placed l) (hok : k.foldlM placeOne cells = .ok cells') :
    cells'.Placed (l ++ k) ∧ ∀ e ∈ k, earliest (l ++ k) e.1.left e.2 = some e.1.right := by
  induction k generalizing cells l with
  | nil =>
    cases hok
    rw [List.append_nil]
    exact ⟨h, fun e he => absurd he List.not_mem_nil⟩
  | cons e k ih =>
    rw [List.foldlM_cons] at hok
    cases hone : cells.placeOne e with
    | error c =>
      rw [hone] at hok
      cases hok
    | ok m =>
      rw [hone] at hok
      obtain ⟨hm, he⟩ := h.of_placeOne hone
      obtain ⟨hall, hk⟩ := ih hm hok
      rw [List.append_assoc, List.singleton_append] at hall hk
      refine ⟨hall, List.forall_mem_cons.2 ⟨?_, hk⟩⟩
      rw [List.append_cons, earliest_append, he, Option.some_or]

/-- The loop stops at the first placement that brings another right side for its cell. -/
theorem Placed.of_foldlM_error (h : cells.Placed l) (herr : k.foldlM placeOne cells = .error c) :
    ∃ u v m, k = u ++ (c.production, c.terminal) :: v ∧ u.foldlM placeOne cells = .ok m ∧
      earliest (l ++ u) c.production.left c.terminal = some c.placed ∧
      c.placed ≠ c.production.right := by
  induction k generalizing cells l with
  | nil => cases herr
  | cons e k ih =>
    rw [List.foldlM_cons] at herr
    cases hone : cells.placeOne e with
    | error c' =>
      rw [hone] at herr
      cases herr
      obtain ⟨rfl, hs, hne⟩ := h.of_placeOne_error hone
      exact ⟨[], k, cells, rfl, rfl, by rwa [List.append_nil], hne⟩
    | ok m =>
      rw [hone] at herr
      obtain ⟨u, v, m', rfl, hu, hs, hne⟩ := ih (h.of_placeOne hone).1 herr
      rw [List.append_assoc, List.singleton_append] at hs
      refine ⟨e :: u, v, m', rfl, ?_, hs, hne⟩
      rw [List.foldlM_cons, hone]
      exact hu

theorem placed_nil : (∅ : CellMap).Placed [] := fun _ _ => rfl

end CellMap

/-! ## Building from valid cells -/

namespace Table

theorem foldlM_putCell_of_valid {t : Table} {l : List Cell} (h : ∀ c ∈ l, t.ValidCell c) :
    l.foldlM putCell t = .ok { t with cells := l.foldl CellMap.insert t.cells } := by
  induction l generalizing t with
  | nil => rfl
  | cons c l ih =>
    obtain ⟨hc, hl⟩ := List.forall_mem_cons.1 h
    rw [List.foldlM_cons, putCell_eq_ok_iff.2 ⟨hc, rfl⟩]
    exact ih fun d hd => (hl d hd).congr rfl rfl

end Table

namespace CellMap

theorem find?_foldl_insert {m : CellMap} {l : List Cell} {a t : Symbol} :
    (l.foldl insert m).find? a t = (findCell a t l.reverse).or (m.find? a t) := by
  induction l generalizing m with
  | nil => rfl
  | cons c l ih =>
    have hone : (m.insert c).find? a t = (findCell a t [c]).or (m.find? a t) := by
      rw [find?_insert, findCell]
      split <;> rfl
    rw [List.foldl_cons, ih, hone, ← Option.or_assoc, ← findCell_append, List.reverse_cons]

theorem foldl_insert_toList (m : CellMap) : m.toList.foldl insert ∅ = m := by
  have unique := eq_of_hasKey_of_ascending m.ascending
  refine ext fun a t => Option.ext fun r => ?_
  rw [find?_foldl_insert, find?_empty, Option.or_none, find?_eq_some_iff,
    findCell_eq_some_iff_of_unique, List.mem_reverse]
  simpa only [List.mem_reverse] using unique

end CellMap

/-! ## The table of a grammar -/

namespace Grammar

variable {g : Grammar} {t : Table}

def placements (g : Grammar) : List Placement :=
  g.productions.flatMap fun p => (g.analysis.predicting p).map (p, ·)

theorem mem_placements {p : Production} {s : Symbol} :
    (p, s) ∈ g.placements ↔ p ∈ g.productions ∧ g.Predicts p s := by
  simp only [placements, List.mem_flatMap, List.mem_map, mem_predicting]
  constructor
  · intro ⟨q, hq, s', hs, e⟩
    cases e
    exact ⟨hq, hs⟩
  · intro ⟨hp, hs⟩
    exact ⟨p, hp, s, hs, rfl⟩

theorem predictedCells_eq : g.predictedCells = g.placements.foldlM CellMap.placeOne ∅ := by
  simp only [predictedCells, placements]
  generalize (∅ : CellMap) = m
  induction g.productions generalizing m with
  | nil => rfl
  | cons p l ih =>
    rw [List.foldlM_cons, List.flatMap_cons, List.foldlM_append, List.foldlM_map]
    exact congrArg _ (funext ih)

theorem find?_of_predictedCells {cells : CellMap} (h : g.predictedCells = .ok cells)
    {a s : Symbol} {r : List Symbol} :
    cells.find? a s = some r ↔ ⟨a, r⟩ ∈ g.productions ∧ g.Predicts ⟨a, r⟩ s := by
  rw [predictedCells_eq] at h
  obtain ⟨hplaced, hall⟩ := CellMap.placed_nil.of_foldlM h
  rw [List.nil_append] at hplaced hall
  rw [hplaced a s, ← mem_placements]
  exact ⟨CellMap.earliest_eq_some, fun he => hall _ he⟩

theorem exists_of_predictedCells_error {c : Conflict} (h : g.predictedCells = .error c) :
    ∃ a r q s, ⟨a, r⟩ ∈ g.productions ∧ ⟨a, q⟩ ∈ g.productions ∧ g.Predicts ⟨a, r⟩ s ∧
      g.Predicts ⟨a, q⟩ s ∧ r ≠ q := by
  rw [predictedCells_eq] at h
  obtain ⟨u, v, m, hk, -, hs, hne⟩ := CellMap.placed_nil.of_foldlM_error h
  rw [List.nil_append] at hs
  have hold : (⟨c.production.left, c.placed⟩, c.terminal) ∈ g.placements := by
    rw [hk]
    exact List.mem_append_left _ (CellMap.earliest_eq_some hs)
  have hnew : (c.production, c.terminal) ∈ g.placements := by
    rw [hk]
    exact List.mem_append_right _ List.mem_cons_self
  obtain ⟨hold, hold'⟩ := mem_placements.1 hold
  obtain ⟨hnew, hnew'⟩ := mem_placements.1 hnew
  exact ⟨_, _, _, _, hold, hnew, hold', hnew', hne⟩

theorem Predicts.mem {p : Production} {s : Symbol} (h : g.Predicts p s) :
    s ∈ g.terminals.insert endMark := by
  rcases h with hb | ⟨-, hf⟩
  · exact SymbolSet.mem_insert.2 (.inr hb.mem_terminals)
  · exact SymbolSet.mem_insert.2 hf.mem.symm

theorem build_predictedCells {cells : CellMap} (h : g.predictedCells = .ok cells) :
    Table.build g.nonTerminals (g.terminals.insert endMark) cells.toList =
      .ok ⟨g.terminals.insert endMark, g.nonTerminals, cells⟩ := by
  have ha := g.wellFormed.alphabets
  have hsound : SoundAlphabets (g.terminals.insert endMark) g.nonTerminals [epsilon] := by
    refine ⟨fun s hs hn => ?_, fun s hs he => ?_, fun s hs he => ?_⟩
    · rcases SymbolSet.mem_insert.1 hs with rfl | hs
      · exact not_declares_endMark (.inr hn)
      · exact ha.disjoint s hs hn
    · obtain rfl := List.mem_singleton.1 he
      rcases SymbolSet.mem_insert.1 hs with e | hs
      · exact endMark_ne_epsilon e.symm
      · exact ha.terminals_free _ hs (by decide)
    · obtain rfl := List.mem_singleton.1 he
      exact ha.nonTerminals_free _ hs (by decide)
  have hvalid : ∀ c ∈ cells.toList,
      Table.ValidCell ⟨g.terminals.insert endMark, g.nonTerminals, ∅⟩ c := by
    intro c hc
    obtain ⟨hp, hs⟩ := (find?_of_predictedCells h).1 (CellMap.find?_eq_some_iff.2 hc)
    refine ⟨g.wellFormed.left_mem _ hp, hs.mem, fun s hs => ?_⟩
    have hdeclared := g.wellFormed.right_declared _ hp s hs
    exact hdeclared.imp_left fun ht => SymbolSet.mem_insert.2 (.inr ht)
  unfold Table.build
  rw [alphabetFault?_eq_none_iff.2 hsound]
  simp only
  rw [Table.foldlM_putCell_of_valid hvalid, CellMap.foldl_insert_toList]

theorem table_eq_ok_iff :
    g.table = .ok t ↔ ∃ cells, g.predictedCells = .ok cells ∧
      t = ⟨g.terminals.insert endMark, g.nonTerminals, cells⟩ := by
  unfold table
  split
  · next c hc => exact ⟨nofun, fun ⟨_, h, _⟩ => absurd (hc.symm.trans h) nofun⟩
  · next cells hc =>
    rw [build_predictedCells hc, hc]
    constructor
    · intro h
      cases h
      exact ⟨cells, rfl, rfl⟩
    · intro ⟨_, e, ht⟩
      cases e
      subst ht
      rfl

structure PredictsFor (g : Grammar) (t : Table) : Prop where
  terminals : t.terminals = g.terminals.insert endMark
  nonTerminals : t.nonTerminals = g.nonTerminals
  cell : ∀ {a s : Symbol} {r : List Symbol},
    t.get? a s = some r ↔ ⟨a, r⟩ ∈ g.productions ∧ g.Predicts ⟨a, r⟩ s
  reachable : t.Reachable

/-- One lookahead predicts one right side. -/
theorem PredictsFor.right_unique (hp : g.PredictsFor t) {a s : Symbol} {r q : List Symbol}
    (hr : ⟨a, r⟩ ∈ g.productions) (hq : ⟨a, q⟩ ∈ g.productions) (hrs : g.Predicts ⟨a, r⟩ s)
    (hqs : g.Predicts ⟨a, q⟩ s) : r = q :=
  Option.some.inj ((hp.cell.2 ⟨hr, hrs⟩).symm.trans (hp.cell.2 ⟨hq, hqs⟩))

theorem predictsFor_of_table? (h : g.table? = some t) : g.PredictsFor t := by
  have hok : g.table = .ok t := by
    unfold table? at h
    cases ht : g.table with
    | error o => rw [ht] at h; cases h
    | ok u => rw [ht] at h; cases h; rfl
  obtain ⟨cells, hc, rfl⟩ := table_eq_ok_iff.1 hok
  exact ⟨rfl, rfl, find?_of_predictedCells hc, .build (build_predictedCells hc)⟩

theorem isLL1_eq_true_iff :
    g.isLL1 = true ↔ ∀ a r q s, ⟨a, r⟩ ∈ g.productions → ⟨a, q⟩ ∈ g.productions →
      g.Predicts ⟨a, r⟩ s → g.Predicts ⟨a, q⟩ s → r = q := by
  constructor
  · intro h a r q s hr hq hs hs'
    obtain ⟨t, ht⟩ := Option.isSome_iff_exists.1 h
    exact (predictsFor_of_table? ht).right_unique hr hq hs hs'
  · intro h
    cases hc : g.predictedCells with
    | error c =>
      obtain ⟨a, r, q, s, hr, hq, hs, hs', hne⟩ := exists_of_predictedCells_error hc
      exact absurd (h a r q s hr hq hs hs') hne
    | ok cells => simp [isLL1, table?, table_eq_ok_iff.2 ⟨cells, hc, rfl⟩, Except.toOption]

end Grammar

end PredictiveParsing
