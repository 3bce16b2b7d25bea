import Mathlib.Data.Set.Function
import PredictiveParsing.Proofs.Carrying
import PredictiveParsing.Proofs.Termination

/-!
# Symbols under other names

Two grammars match that are carried into each other by maps that undo each other. They have the same
analysis and the same table up to the names (`Matches.table?_eq`). A presentation that gives the
symbols of a grammar other names, and its productions in any order and with any repetitions, is
accepted and matches (`Renaming.exists_matches`). So neither names nor order nor repetition matter,
although the sets are computed in rounds over the symbols in their standing order, and the cells are
filled in the order of the productions (`presentation_is_immaterial`).
-/
namespace PredictiveParsing

/-! ## Renamed data -/

namespace SymbolSet

def image (f : Symbol → Symbol) (s : SymbolSet) : SymbolSet := .ofList (s.toList.map f)

@[simp] theorem mem_image {f : Symbol → Symbol} {s : SymbolSet} {x : Symbol} :
    x ∈ s.image f ↔ ∃ a ∈ s, f a = x := by
  simp [image]

theorem image_eq_self {f : Symbol → Symbol} {s : SymbolSet} (h : ∀ a ∈ s, f a = a) :
    s.image f = s := by
  refine ext fun x => ⟨fun hx => ?_, fun hx => mem_image.2 ⟨x, hx, h x hx⟩⟩
  obtain ⟨a, ha, rfl⟩ := mem_image.1 hx
  rwa [h a ha]

end SymbolSet

def Cell.rename (f : Symbol → Symbol) (c : Cell) : Cell :=
  ⟨f c.nonTerminal, f c.terminal, c.right.map f⟩

def Presentation.rename (f : Symbol → Symbol) (productions : List Production) (g : Presentation) :
    Presentation :=
  { terminals := g.terminals.image f
    nonTerminals := g.nonTerminals.image f
    productions
    start := f g.start }

theorem Presentation.declares_rename {f : Symbol → Symbol} {productions : List Production}
    {g : Presentation} {s : Symbol} :
    (g.rename f productions).Declares s ↔ ∃ a, g.Declares a ∧ f a = s := by
  simp only [Declares, rename, SymbolSet.mem_image, or_and_right, exists_or]

namespace CellMap

def ofList (l : List Cell) : CellMap := l.foldr (fun c m => m.insert c) ∅

theorem find?_ofList {l : List Cell} {a t : Symbol} : (ofList l).find? a t = findCell a t l := by
  induction l with
  | nil => rfl
  | cons c l ih =>
    rw [findCell, ← ih]
    exact find?_insert

end CellMap

def Table.rename (f : Symbol → Symbol) (t : Table) : Table :=
  { terminals := t.terminals.image f
    nonTerminals := t.nonTerminals.image f
    cells := .ofList (t.cells.toList.map (Cell.rename f)) }

namespace Grammar

variable {f f' : Symbol → Symbol} {g h : Grammar} {t u : Table}

/-! ## Grammars that match -/

structure Matches (f f' : Symbol → Symbol) (g h : Grammar) : Prop where
  there : Carries f g h
  back : Carries f' h g
  left_inv : ∀ s, g.Declares s → f' (f s) = s
  right_inv : ∀ s, h.Declares s → f (f' s) = s

namespace Matches

theorem symm (hm : Matches f f' g h) : Matches f' f h g :=
  ⟨hm.back, hm.there, hm.right_inv, hm.left_inv⟩

theorem isLL1_iff (hm : Matches f f' g h) : h.isLL1 = true ↔ g.isLL1 = true :=
  ⟨hm.there.isLL1 hm.left_inv, hm.back.isLL1 hm.right_inv⟩

theorem right_inv_of_lookahead (hm : Matches f f' g h) {s : Symbol}
    (hs : s ∈ h.terminals ∨ s = endMark) : f (f' s) = s := by
  rcases hs with hs | rfl
  · exact hm.right_inv s (.inl hs)
  · rw [hm.back.keeps_endMark, hm.there.keeps_endMark]

theorem terminals_eq (hm : Matches f f' g h) : h.terminals = g.terminals.image f := by
  refine SymbolSet.ext fun s => ⟨fun hs => ?_, fun hs => ?_⟩
  · exact SymbolSet.mem_image.2 ⟨f' s, hm.back.terminal s hs, hm.right_inv s (.inl hs)⟩
  · obtain ⟨a, ha, rfl⟩ := SymbolSet.mem_image.1 hs
    exact hm.there.terminal a ha

theorem nonTerminals_eq (hm : Matches f f' g h) : h.nonTerminals = g.nonTerminals.image f := by
  refine SymbolSet.ext fun s => ⟨fun hs => ?_, fun hs => ?_⟩
  · exact SymbolSet.mem_image.2 ⟨f' s, hm.back.nonTerminal s hs, hm.right_inv s (.inr hs)⟩
  · obtain ⟨a, ha, rfl⟩ := SymbolSet.mem_image.1 hs
    exact hm.there.nonTerminal a ha

theorem vanishes_iff (hm : Matches f f' g h) {α : List Symbol} (hα : ∀ s ∈ α, g.Declares s) :
    h.Vanishes (α.map f) ↔ g.Vanishes α := by
  constructor
  · intro hv
    have hback := hm.back.vanishes hv
    rwa [map_map_eq_self hm.left_inv hα] at hback
  · exact hm.there.vanishes

theorem begins_iff (hm : Matches f f' g h) {α : List Symbol} (hα : ∀ s ∈ α, g.Declares s)
    {s : Symbol} : h.Begins (α.map f) s ↔ ∃ x, g.Begins α x ∧ f x = s := by
  constructor
  · intro hb
    have hback := hm.back.begins hb
    rw [map_map_eq_self hm.left_inv hα] at hback
    exact ⟨f' s, hback, hm.right_inv s (.inl hb.mem_terminals)⟩
  · rintro ⟨x, hx, rfl⟩
    exact hm.there.begins hx

theorem follows_iff (hm : Matches f f' g h) {a : Symbol} (ha : g.Declares a) {s : Symbol} :
    h.Follows (f a) s ↔ ∃ x, g.Follows a x ∧ f x = s := by
  constructor
  · intro hs
    have hback := hm.back.follows hs
    rw [hm.left_inv a ha] at hback
    exact ⟨f' s, hback, hm.right_inv_of_lookahead hs.mem⟩
  · rintro ⟨x, hx, rfl⟩
    exact hm.there.follows hx

end Matches

/-! ## The same analysis -/

namespace Matches

theorem nullable_iff (hm : Matches f f' g h) {a : Symbol} (ha : g.Declares a) :
    f a ∈ h.analysis.nullable ↔ a ∈ g.analysis.nullable :=
  mem_nullableSet.trans
    ((hm.vanishes_iff (List.forall_mem_singleton.2 ha)).trans mem_nullableSet.symm)

theorem first_eq (hm : Matches f f' g h) {a : Symbol} (ha : g.Declares a) :
    h.analysis.first.get (f a) = (g.analysis.first.get a).image f := by
  apply SymbolSet.ext
  intro s
  simp only [SymbolSet.mem_image, mem_first]
  exact hm.begins_iff (List.forall_mem_singleton.2 ha)

theorem follow_eq (hm : Matches f f' g h) {a : Symbol} (ha : g.Declares a) :
    h.analysis.follow.get (f a) = (g.analysis.follow.get a).image f := by
  apply SymbolSet.ext
  intro s
  simp only [SymbolSet.mem_image, mem_follow]
  exact hm.follows_iff ha

/-! ## The same table -/

theorem get?_iff (hm : Matches f f' g h) (ht : g.PredictsFor t) (hu : h.PredictsFor u)
    {a s : Symbol} {r : List Symbol} :
    u.get? a s = some r ↔ ∃ c ∈ t.cells.toList, c.rename f = ⟨a, s, r⟩ := by
  constructor
  · intro hr
    obtain ⟨hprod, hpredicts⟩ := hu.cell.1 hr
    have hback := ht.cell.2 ⟨hm.back.production _ hprod, hm.back.predicts hpredicts⟩
    have hs := SymbolSet.mem_insert.1 hpredicts.mem
    refine ⟨_, CellMap.find?_eq_some_iff.1 hback, ?_⟩
    rw [Cell.rename, hm.right_inv a (.inr (h.wellFormed.left_mem _ hprod)),
      hm.right_inv_of_lookahead hs.symm]
    exact congrArg _ (map_map_eq_self hm.right_inv (h.wellFormed.right_declared _ hprod))
  · rintro ⟨⟨b, x, q⟩, hmem, hc⟩
    cases hc
    obtain ⟨hprod, hpredicts⟩ := ht.cell.1 (CellMap.find?_eq_some_iff.2 hmem)
    exact hu.cell.2 ⟨hm.there.production _ hprod, hm.there.predicts hpredicts⟩

theorem rename_cell_unique (hm : Matches f f' g h) (ht : g.PredictsFor t) :
    ∀ c ∈ t.cells.toList.map (Cell.rename f), ∀ d ∈ t.cells.toList.map (Cell.rename f),
      d.HasKey c.nonTerminal c.terminal → d = c := by
  have hname : ∀ c ∈ t.cells.toList,
      f' (f c.nonTerminal) = c.nonTerminal ∧ f' (f c.terminal) = c.terminal := by
    intro c hc
    obtain ⟨hprod, hpredicts⟩ := ht.cell.1 (CellMap.find?_eq_some_iff.2 hc)
    have hs := SymbolSet.mem_insert.1 hpredicts.mem
    exact ⟨hm.left_inv _ (.inr (g.wellFormed.left_mem _ hprod)),
      hm.symm.right_inv_of_lookahead hs.symm⟩
  intro c hc d hd hkey
  obtain ⟨⟨a, s, r⟩, hr, rfl⟩ := List.mem_map.1 hc
  obtain ⟨⟨b, x, q⟩, hq, rfl⟩ := List.mem_map.1 hd
  obtain rfl : b = a :=
    (hname _ hq).1.symm.trans ((congrArg f' hkey.1).trans (hname _ hr).1)
  obtain rfl : x = s :=
    (hname _ hq).2.symm.trans ((congrArg f' hkey.2).trans (hname _ hr).2)
  have hsame := (CellMap.find?_eq_some_iff.2 hq).symm.trans (CellMap.find?_eq_some_iff.2 hr)
  rw [Option.some.inj hsame]

theorem table_eq (hm : Matches f f' g h) (ht : g.PredictsFor t) (hu : h.PredictsFor u) :
    u = t.rename f := by
  have hterminals : u.terminals = t.terminals.image f := by
    rw [hu.terminals, ht.terminals, hm.terminals_eq]
    apply SymbolSet.ext
    intro s
    simp [hm.there.keeps_endMark, eq_comm]
  have hnonTerminals : u.nonTerminals = t.nonTerminals.image f := by
    rw [hu.nonTerminals, ht.nonTerminals, hm.nonTerminals_eq]
  have hcells : u.cells = .ofList (t.cells.toList.map (Cell.rename f)) := by
    apply CellMap.ext
    intro a s
    apply Option.ext
    intro r
    rw [CellMap.find?_ofList,
      CellMap.findCell_eq_some_iff_of_unique (hm.rename_cell_unique ht), List.mem_map]
    exact hm.get?_iff ht hu
  obtain ⟨terminals, nonTerminals, cells⟩ := u
  simp only at hterminals hnonTerminals hcells
  rw [hterminals, hnonTerminals, hcells]
  rfl

theorem table?_eq (hm : Matches f f' g h) : h.table? = g.table?.map (Table.rename f) := by
  cases hg : g.table? with
  | none =>
    cases hh : h.table? with
    | none => rfl
    | some u =>
      have hll : g.isLL1 = true := hm.isLL1_iff.1 (by rw [isLL1, hh]; rfl)
      rw [isLL1, hg] at hll
      exact absurd hll Bool.false_ne_true
  | some t =>
    have hll : h.isLL1 = true := hm.isLL1_iff.2 (by rw [isLL1, hg]; rfl)
    obtain ⟨u, hu⟩ := Option.isSome_iff_exists.1 hll
    rw [hu]
    exact congrArg some (hm.table_eq (predictsFor_of_table? hg) (predictsFor_of_table? hu))

end Matches

/-! ## Other presentations -/

structure Renaming (f : Symbol → Symbol) (g : Grammar) : Prop where
  injective : ∀ a b, g.Declares a → g.Declares b → f a = f b → a = b
  keeps_endMark : f endMark = endMark
  not_reserved : ∀ a, g.Declares a → f a ∉ [endMark, epsilon]

namespace Renaming

variable {productions : List Production}

theorem wellFormed (hf : Renaming f g)
    (hp : ∀ p, p ∈ productions ↔ p ∈ g.productions.map (Production.rename f)) :
    (g.toPresentation.rename f productions).WellFormed := by
  have hg := g.wellFormed
  refine ⟨⟨?_, ?_, ?_⟩, SymbolSet.mem_image.2 ⟨g.start, hg.start_mem, rfl⟩, ?_, ?_⟩
  · intro s hs hn
    obtain ⟨a, ha, rfl⟩ := SymbolSet.mem_image.1 hs
    obtain ⟨b, hb, he⟩ := SymbolSet.mem_image.1 hn
    obtain rfl := hf.injective b a (.inr hb) (.inl ha) he
    exact hg.alphabets.disjoint b ha hb
  · intro s hs
    obtain ⟨a, ha, rfl⟩ := SymbolSet.mem_image.1 hs
    exact hf.not_reserved a (.inl ha)
  · intro s hs
    obtain ⟨a, ha, rfl⟩ := SymbolSet.mem_image.1 hs
    exact hf.not_reserved a (.inr ha)
  · intro p hmem
    obtain ⟨q, hq, rfl⟩ := List.mem_map.1 ((hp p).1 hmem)
    exact SymbolSet.mem_image.2 ⟨q.left, hg.left_mem q hq, rfl⟩
  · intro p hmem s hs
    obtain ⟨q, hq, rfl⟩ := List.mem_map.1 ((hp p).1 hmem)
    obtain ⟨a, ha, rfl⟩ := List.mem_map.1 hs
    exact Presentation.declares_rename.2 ⟨a, hg.right_declared q hq a ha, rfl⟩

theorem exists_inverse (hf : Renaming f g) :
    ∃ f' : Symbol → Symbol, f' endMark = endMark ∧ ∀ a, g.Declares a → f' (f a) = a := by
  have hinj : Set.InjOn f {s | g.Declares s ∨ s = endMark} := by
    have hend : ∀ a, g.Declares a → f a ≠ endMark := fun a ha he =>
      hf.not_reserved a ha (he ▸ List.mem_cons_self)
    rintro a (ha | rfl) b (hb | rfl) he
    · exact hf.injective a b ha hb he
    · exact absurd (he.trans hf.keeps_endMark) (hend a ha)
    · exact absurd (he.symm.trans hf.keeps_endMark) (hend b hb)
    · rfl
  have hleft := hinj.leftInvOn_invFunOn
  refine ⟨Function.invFunOn f _, ?_, fun a ha => hleft (.inl ha)⟩
  have hend := hleft (show endMark ∈ _ from .inr rfl)
  rwa [hf.keeps_endMark] at hend

/-- A presentation under other names is accepted, and its grammar matches. -/
theorem exists_matches (hf : Renaming f g)
    (hp : ∀ p, p ∈ productions ↔ p ∈ g.productions.map (Production.rename f)) :
    ∃ h f', build (g.toPresentation.rename f productions) = .ok h ∧ Matches f f' g h := by
  obtain ⟨f', hend, hinv⟩ := hf.exists_inverse
  refine ⟨⟨_, hf.wellFormed hp⟩, f', build_eq_ok_iff.2 rfl, ?_⟩
  refine ⟨⟨fun s hs => ?_, fun s hs => ?_, fun p hmem => ?_, rfl, hf.keeps_endMark⟩,
    ⟨fun s hs => ?_, fun s hs => ?_, fun p hmem => ?_, ?_, hend⟩, hinv, fun s hs => ?_⟩
  · exact SymbolSet.mem_image.2 ⟨s, hs, rfl⟩
  · exact SymbolSet.mem_image.2 ⟨s, hs, rfl⟩
  · exact (hp _).2 (List.mem_map_of_mem hmem)
  · obtain ⟨a, ha, rfl⟩ := SymbolSet.mem_image.1 hs
    rwa [hinv a (.inl ha)]
  · obtain ⟨a, ha, rfl⟩ := SymbolSet.mem_image.1 hs
    rwa [hinv a (.inr ha)]
  · obtain ⟨q, hq, rfl⟩ := List.mem_map.1 ((hp p).1 hmem)
    have hback : (q.rename f).rename f' = q := by
      rw [Production.rename, Production.rename, hinv _ (.inr (g.wellFormed.left_mem q hq)),
        map_map_eq_self hinv (g.wellFormed.right_declared q hq)]
    rwa [hback]
  · exact hinv _ (.inr g.wellFormed.start_mem)
  · obtain ⟨a, ha, rfl⟩ := Presentation.declares_rename.1 hs
    rw [hinv a ha]

end Renaming

theorem PredictsFor.rename_eq_self (ht : g.PredictsFor t) (hend : f endMark = endMark)
    (hid : ∀ s, g.Declares s → f s = s) : t.rename f = t := by
  have hlookahead : ∀ s ∈ t.terminals, f s = s := by
    intro s hs
    rcases ht.mem_terminals.1 hs with rfl | hs
    · exact hend
    · exact hid s (.inl hs)
  have hcell : ∀ c ∈ t.cells.toList, c.rename f = c := by
    intro c hc
    obtain ⟨hprod, -⟩ := ht.cell.1 (CellMap.find?_eq_some_iff.2 hc)
    have hvalid := ht.reachable.sound.cells_valid c hc
    have hright : c.right.map f = c.right :=
      (List.map_congr_left fun s hs => hid s (g.wellFormed.right_declared _ hprod s hs)).trans
        (List.map_id c.right)
    rw [Cell.rename, hid _ (.inr (g.wellFormed.left_mem _ hprod)),
      hlookahead _ hvalid.column_mem, hright]
  have hcells : CellMap.ofList (t.cells.toList.map (Cell.rename f)) = t.cells := by
    rw [(List.map_congr_left hcell).trans (List.map_id' _)]
    exact CellMap.ext fun a s => CellMap.find?_ofList
  have hnonTerminals : ∀ s ∈ t.nonTerminals, f s = s := fun s hs =>
    hid s (.inr (ht.nonTerminals ▸ hs))
  rw [Table.rename, SymbolSet.image_eq_self hlookahead, SymbolSet.image_eq_self hnonTerminals,
    hcells]

theorem presentation_is_immaterial (hf : Renaming f g) {productions : List Production}
    (hp : ∀ p, p ∈ productions ↔ p ∈ g.productions.map (Production.rename f)) :
    ∃ h, build (g.toPresentation.rename f productions) = .ok h ∧
      (∀ a ∈ g.nonTerminals, (f a ∈ h.analysis.nullable ↔ a ∈ g.analysis.nullable) ∧
        h.analysis.first.get (f a) = (g.analysis.first.get a).image f ∧
        h.analysis.follow.get (f a) = (g.analysis.follow.get a).image f) ∧
      h.table? = g.table?.map (Table.rename f) ∧
      ((∀ s, g.Declares s → f s = s) → h.table? = g.table?) := by
  obtain ⟨h, f', hbuild, hm⟩ := hf.exists_matches hp
  refine ⟨h, hbuild, fun a ha => ?_, hm.table?_eq, fun hid => ?_⟩
  · exact ⟨hm.nullable_iff (.inr ha), hm.first_eq (.inr ha), hm.follow_eq (.inr ha)⟩
  · rw [hm.table?_eq]
    cases ht : g.table? with
    | none => rfl
    | some t => exact congrArg some ((predictsFor_of_table? ht).rename_eq_self hf.keeps_endMark hid)

def squared (s : Symbol) : Symbol := if s = '(' then '[' else if s = ')' then ']' else s

theorem renaming_squared : Renaming squared nested := by
  have hsymbols : ∀ s, nested.Declares s → s ∈ ['(', ')', 'S', 'U'] := by
    rintro s (hs | hs)
    · exact List.mem_append_left ['S', 'U'] hs
    · exact List.mem_append_right ['(', ')'] hs
  have hinj : ∀ a ∈ ['(', ')', 'S', 'U'], ∀ b ∈ ['(', ')', 'S', 'U'],
      squared a = squared b → a = b := by
    simp only [List.forall_mem_cons, List.not_mem_nil, false_implies, implies_true, and_true]
    decide
  have hfree : ∀ a ∈ ['(', ')', 'S', 'U'], squared a ∉ [endMark, epsilon] := by
    simp only [List.forall_mem_cons, List.not_mem_nil, false_implies, implies_true, and_true]
    decide
  exact ⟨fun a b ha hb => hinj a (hsymbols a ha) b (hsymbols b hb), rfl,
    fun a ha => hfree a (hsymbols a ha)⟩

theorem nested_presentation_is_immaterial :
    Renaming squared nested ∧ ∃ h : Grammar,
      h.productions = [⟨'U', ['U', '[']⟩, ⟨'S', []⟩, ⟨'U', ['U', '[']⟩,
        ⟨'S', ['[', 'S', ']', 'S']⟩] ∧
      h.analysis.follow.get 'S' = (nested.analysis.follow.get 'S').image squared ∧
      h.table? = nested.table?.map (Table.rename squared) ∧ nested.isLL1 = true := by
  have hf := renaming_squared
  have hp : ∀ p, p ∈ [⟨'U', ['U', '[']⟩, ⟨'S', []⟩, ⟨'U', ['U', '[']⟩,
      ⟨'S', ['[', 'S', ']', 'S']⟩] ↔ p ∈ nested.productions.map (Production.rename squared) := by
    have hrenamed : nested.productions.map (Production.rename squared) =
        [⟨'S', ['[', 'S', ']', 'S']⟩, ⟨'S', []⟩, ⟨'U', ['U', '[']⟩] := rfl
    intro p
    rw [hrenamed]
    simp only [List.mem_cons, List.not_mem_nil, or_false]
    constructor
    · rintro (h | h | h | h) <;> simp [h]
    · rintro (h | h | h) <;> simp [h]
  obtain ⟨h, hbuild, hsets, htable, -⟩ := presentation_is_immaterial hf hp
  have hproductions := congrArg Presentation.productions (build_eq_ok_iff.1 hbuild)
  exact ⟨hf, h, hproductions, (hsets 'S' (by decide)).2.2, htable, nested_isLL1⟩

end Grammar

end PredictiveParsing
