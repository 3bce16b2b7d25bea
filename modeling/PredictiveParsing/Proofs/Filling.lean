import Mathlib.Data.List.Nodup
import PredictiveParsing.Proofs.Arena
import PredictiveParsing.Proofs.ListCut
import PredictiveParsing.Proofs.Prediction

/-!
# The two ways to fill a table

A table is built from a list of cells, of which a later one takes the place of an earlier one, or
it is filled cell by cell, and then a cell once filled stays. Both ways check a cell before it
enters (`cellFault?_eq_some_iff`). A map of cells is determined by its look-ups, and these search
the list of cells from its end after building (`CellMap.find?_foldl_insert`) and from its front
after adding (`CellMap.find?_foldl_insertVacant`). So building is adding in reverse order
(`build_eq_ok_iff_addVacant`), and the order is of no importance where no two cells have the same
two symbols (`build_perm`).
-/
namespace PredictiveParsing

/-! ## Look-ups in a list of cells -/

def Cell.key (c : Cell) : Symbol × Symbol := (c.nonTerminal, c.terminal)

namespace CellMap

variable {m : CellMap} {c : Cell} {l k : List Cell} {a s : Symbol}

def insertVacant (m : CellMap) (c : Cell) : CellMap :=
  if m.find? c.nonTerminal c.terminal = none then m.insert c else m

theorem find?_insertVacant :
    (m.insertVacant c).find? a s = (m.find? a s).or (findCell a s [c]) := by
  unfold insertVacant
  by_cases hk : c.HasKey a s
  · obtain ⟨rfl, rfl⟩ := hk
    cases hm : m.find? c.nonTerminal c.terminal with
    | none => simp [find?_insert, findCell, Cell.HasKey]
    | some r => simp [hm]
  · have hnone : findCell a s [c] = none := by simp [findCell, hk]
    rw [hnone, Option.or_none]
    split
    · rw [find?_insert, if_neg hk]
    · rfl

theorem find?_foldl_insertVacant :
    (l.foldl insertVacant m).find? a s = (m.find? a s).or (findCell a s l) := by
  induction l generalizing m with
  | nil => exact Option.or_none.symm
  | cons c l ih =>
    rw [List.foldl_cons, ih, find?_insertVacant, Option.or_assoc, ← findCell_append]
    rfl

theorem foldl_insertVacant_reverse :
    l.reverse.foldl insertVacant ∅ = l.foldl insert ∅ := by
  refine ext fun a s => ?_
  rw [find?_foldl_insertVacant, find?_foldl_insert, find?_empty, Option.none_or, Option.or_none]

theorem findCell_perm (hperm : l.Perm k) (hkeys : (l.map Cell.key).Nodup) :
    findCell a s l = findCell a s k := by
  have unique {l : List Cell} (hl : (l.map Cell.key).Nodup) :
      ∀ c ∈ l, ∀ d ∈ l, d.HasKey c.nonTerminal c.terminal → d = c := by
    intro c hc d hd ⟨hrow, hcolumn⟩
    exact List.inj_on_of_nodup_map hl hd hc (Prod.ext hrow hcolumn)
  have hkeys' : (k.map Cell.key).Nodup := (hperm.map Cell.key).nodup_iff.1 hkeys
  refine Option.ext fun r => ?_
  rw [findCell_eq_some_iff_of_unique (unique hkeys), hperm.mem_iff,
    findCell_eq_some_iff_of_unique (unique hkeys')]

theorem insertCell_perm (h : findCell c.nonTerminal c.terminal l = none) :
    (insertCell c l).Perm (c :: l) := by
  induction l with
  | nil => exact .refl _
  | cons d l ih =>
    simp only [findCell] at h
    split at h
    · cases h
    · next hk =>
      simp only [insertCell]
      split
      · exact .refl _
      · next hcd =>
        split
        · exact ((ih h).cons d).trans (.swap c d l)
        · next hdc => exact absurd (Cell.hasKey_of_not_precedes hcd hdc) hk

end CellMap

/-! ## Faults -/

inductive AlphabetFault (terminals nonTerminals : SymbolSet) (reserved : Symbol) :
    Fault → Prop where
  | overlap {s : Symbol} : s ∈ terminals → s ∈ nonTerminals →
      (∀ x ∈ terminals, x ∈ nonTerminals → s ≤ x) →
      AlphabetFault terminals nonTerminals reserved (.overlap s)
  | reserved : (∀ s ∈ terminals, s ∉ nonTerminals) →
      reserved ∈ terminals ∨ reserved ∈ nonTerminals →
      AlphabetFault terminals nonTerminals reserved (.reserved reserved)

theorem SymbolSet.find?_toList_eq_some_iff {S : SymbolSet} {p : Symbol → Bool} {s : Symbol} :
    S.toList.find? p = some s ↔ s ∈ S ∧ p s = true ∧ ∀ x ∈ S, p x = true → s ≤ x := by
  have least {y : Symbol} (h : S.toList.find? p = some y) : ∀ x ∈ S, p x = true → y ≤ x := by
    intro x hx hpx
    obtain ⟨-, before, after, hl, hbefore⟩ := List.find?_eq_some_iff_append.1 h
    have hpairs := S.ascending
    rw [hl, List.pairwise_append] at hpairs
    rw [← SymbolSet.mem_toList, hl, List.mem_append, List.mem_cons] at hx
    rcases hx with hx | rfl | hx
    · exact absurd hpx (by simpa using hbefore x hx)
    · exact Char.le_refl x
    · exact Std.le_of_lt ((List.pairwise_cons.1 hpairs.2.1).1 x hx)
  constructor
  · intro h
    exact ⟨List.mem_of_find?_eq_some h, List.find?_some h, least h⟩
  · intro ⟨hs, hps, hleast⟩
    obtain ⟨y, hy⟩ := Option.isSome_iff_exists.1 (List.find?_isSome.2 ⟨s, hs, hps⟩)
    have hys : y ≤ s := least hy s hs hps
    have hsy : s ≤ y := hleast y (List.mem_of_find?_eq_some hy) (List.find?_some hy)
    rw [hy, Char.le_antisymm hys hsy]

theorem alphabetFault?_eq_some_iff {terminals nonTerminals : SymbolSet} {reserved : Symbol}
    {f : Fault} : alphabetFault? terminals nonTerminals [reserved] = some f ↔
      AlphabetFault terminals nonTerminals reserved f := by
  unfold alphabetFault?
  cases hc : terminals.toList.find? (· ∈ nonTerminals) with
  | some s =>
    obtain ⟨hs, hn, hleast⟩ := SymbolSet.find?_toList_eq_some_iff.1 hc
    simp only [decide_eq_true_eq] at hn hleast
    simp only [Option.map_some, Option.some_or, Option.some.injEq]
    constructor
    · rintro rfl
      exact .overlap hs hn hleast
    · intro h
      cases h with
      | overlap hs' hn' hleast' =>
        exact congrArg _ (Char.le_antisymm (hleast _ hs' hn') (hleast' _ hs hn))
      | reserved hdisjoint _ => exact absurd hn (hdisjoint s hs)
  | none =>
    have hdisjoint : ∀ s ∈ terminals, s ∉ nonTerminals := by
      simpa using List.find?_eq_none.1 hc
    simp only [Option.map_none, Option.none_or, Option.map_eq_some_iff]
    constructor
    · rintro ⟨s, hs, rfl⟩
      obtain rfl : s = reserved := by simpa using List.find?_some hs
      exact .reserved hdisjoint (List.mem_append.1 (List.mem_of_find?_eq_some hs))
    · intro h
      cases h with
      | overlap hs hn _ => exact absurd hn (hdisjoint _ hs)
      | reserved _ hmem =>
        have hsome : ((terminals.toList ++ nonTerminals.toList).find? (· ∈ [reserved])).isSome :=
          List.find?_isSome.2 ⟨reserved, List.mem_append.2 hmem, by simp⟩
        obtain ⟨s, hs⟩ := Option.isSome_iff_exists.1 hsome
        obtain rfl : s = reserved := by simpa using List.find?_some hs
        exact ⟨s, hs, rfl⟩

namespace Table

variable {t u : Table} {c : Cell} {cells : List Cell} {nonTerminals terminals : SymbolSet}
  {e : Error} {f : Fault}

/-- What is wrong with a cell: its row, or else its column, or else the first symbol of its right
side that belongs to neither alphabet. -/
inductive Breaks (t : Table) (c : Cell) : Fault → Prop where
  | row : c.nonTerminal ∉ t.nonTerminals → Breaks t c (.rowUndeclared c)
  | column : c.nonTerminal ∈ t.nonTerminals → c.terminal ∉ t.terminals →
      Breaks t c (.columnUndeclared c)
  | entry {before after : List Symbol} {s : Symbol} : c.nonTerminal ∈ t.nonTerminals →
      c.terminal ∈ t.terminals → c.right = before ++ s :: after → (∀ x ∈ before, t.Declares x) →
      ¬ t.Declares s → Breaks t c (.entryUndeclared c s)

theorem cellFault?_eq_some_iff : t.cellFault? c = some f ↔ t.Breaks c f := by
  unfold cellFault?
  split
  · next hrow =>
    rw [Option.some.injEq]
    constructor
    · rintro rfl
      exact .row hrow
    · intro h
      cases h with
      | row => rfl
      | column hrow' => exact absurd hrow' hrow
      | entry hrow' => exact absurd hrow' hrow
  · next hrow =>
    rw [Decidable.not_not] at hrow
    split
    · next hcolumn =>
      rw [Option.some.injEq]
      constructor
      · rintro rfl
        exact .column hrow hcolumn
      · intro h
        cases h with
        | row hrow' => exact absurd hrow hrow'
        | column => rfl
        | entry _ hcolumn' => exact absurd hcolumn' hcolumn
    · next hcolumn =>
      rw [Decidable.not_not] at hcolumn
      simp only [Option.map_eq_some_iff, List.find?_eq_some_iff_append, decide_eq_true_eq,
        Bool.not_eq_true', decide_eq_false_iff_not, Decidable.not_not]
      constructor
      · rintro ⟨s, ⟨hs, before, after, hright, hbefore⟩, rfl⟩
        exact .entry hrow hcolumn hright hbefore hs
      · intro h
        cases h with
        | row hrow' => exact absurd hrow hrow'
        | column _ hcolumn' => exact absurd hcolumn hcolumn'
        | entry _ _ hright hbefore hs => exact ⟨_, ⟨hs, _, _, hright, hbefore⟩, rfl⟩

theorem Breaks.congr (h : t.Breaks c f) (ht : t.terminals = u.terminals)
    (hn : t.nonTerminals = u.nonTerminals) : u.Breaks c f := by
  have hdeclares : ∀ s, t.Declares s ↔ u.Declares s := fun s => by
    simp only [Declares, ht, hn]
  cases h with
  | row hrow => exact .row (hn ▸ hrow)
  | column hrow hcolumn => exact .column (hn ▸ hrow) (ht ▸ hcolumn)
  | entry hrow hcolumn hright hbefore hs =>
    exact .entry (hn ▸ hrow) (ht ▸ hcolumn) hright (fun x hx => (hdeclares x).1 (hbefore x hx))
      (mt (hdeclares _).2 hs)

theorem exists_breaks_iff : (∃ f, t.Breaks c f) ↔ ¬ t.ValidCell c := by
  rw [← cellFault?_eq_none_iff, ← ne_eq, Option.ne_none_iff_exists']
  simp only [cellFault?_eq_some_iff]

/-! ## Adding cells -/

theorem addCell_of_breaks (h : t.Breaks c f) : t.addCell c = .error (.malformed f) := by
  simp only [addCell, cellFault?_eq_some_iff.2 h]

theorem addCell_of_filled (hc : t.ValidCell c) (h : t.get? c.nonTerminal c.terminal ≠ none) :
    t.addCell c = .error (.repeatedCell c.nonTerminal c.terminal) := by
  obtain ⟨r, hr⟩ := Option.ne_none_iff_exists'.1 h
  simp only [addCell, cellFault?_eq_none_iff.2 hc, hr]

/-- The check comes before the look at the place. -/
theorem addCell_eq_error_iff :
    t.addCell c = .error e ↔ (∃ f, t.Breaks c f ∧ e = .malformed f) ∨
      t.ValidCell c ∧ t.get? c.nonTerminal c.terminal ≠ none ∧
        e = .repeatedCell c.nonTerminal c.terminal := by
  constructor
  · intro h
    by_cases hc : t.ValidCell c
    · by_cases hplace : t.get? c.nonTerminal c.terminal = none
      · rw [addCell_eq_ok_iff.2 ⟨hc, hplace, rfl⟩] at h
        cases h
      · rw [addCell_of_filled hc hplace] at h
        exact .inr ⟨hc, hplace, (Except.error.inj h).symm⟩
    · obtain ⟨f, hf⟩ := exists_breaks_iff.2 hc
      rw [addCell_of_breaks hf] at h
      exact .inl ⟨f, hf, (Except.error.inj h).symm⟩
  · rintro (⟨f, hf, rfl⟩ | ⟨hc, hplace, rfl⟩)
    · exact addCell_of_breaks hf
    · exact addCell_of_filled hc hplace

theorem tryCell_of_error (h : t.addCell c = .error e) : t.tryCell c = t := by
  simp only [tryCell, h]

theorem Reachable.tryCell (ht : t.Reachable) (c : Cell) : (t.tryCell c).Reachable := by
  unfold Table.tryCell
  split
  · next u hu => exact .add ht hu
  · exact ht

theorem Reachable.foldl_tryCell (ht : t.Reachable) (cells : List Cell) :
    (cells.foldl Table.tryCell t).Reachable := by
  induction cells generalizing t with
  | nil => exact ht
  | cons c cells ih => exact ih (ht.tryCell c)

def addVacant (t : Table) : List Cell → Except Error Table
  | [] => .ok t
  | c :: cells =>
    match t.addCell c with
    | .ok u => u.addVacant cells
    | .error (.repeatedCell _ _) => t.addVacant cells
    | .error e => .error e

theorem addVacant_cons_of_valid (hc : t.ValidCell c) : t.addVacant (c :: cells) =
    ({ t with cells := t.cells.insertVacant c } : Table).addVacant cells := by
  unfold CellMap.insertVacant
  by_cases hplace : t.cells.find? c.nonTerminal c.terminal = none
  · rw [if_pos hplace, addVacant, addCell_eq_ok_iff.2 ⟨hc, hplace, rfl⟩]
  · rw [if_neg hplace, addVacant, addCell_of_filled hc hplace]

theorem addVacant_eq_ok_iff :
    t.addVacant cells = .ok u ↔ (∀ c ∈ cells, t.ValidCell c) ∧
      u = { t with cells := cells.foldl CellMap.insertVacant t.cells } := by
  induction cells generalizing t with
  | nil => simp [addVacant, eq_comm]
  | cons c cells ih =>
    by_cases hc : t.ValidCell c
    · have hlater : (∀ d ∈ cells,
          ({ t with cells := t.cells.insertVacant c } : Table).ValidCell d) ↔
            ∀ d ∈ cells, t.ValidCell d :=
        forall₂_congr fun d _ => ⟨fun h => h.congr rfl rfl, fun h => h.congr rfl rfl⟩
      rw [addVacant_cons_of_valid hc, ih, hlater, List.forall_mem_cons, List.foldl_cons]
      exact and_congr_left' (and_iff_right hc).symm
    · obtain ⟨f, hf⟩ := exists_breaks_iff.2 hc
      rw [addVacant, addCell_of_breaks hf]
      exact iff_of_false nofun fun h => hc (h.1 c List.mem_cons_self)

/-! ## Building -/

def vacant (nonTerminals terminals : SymbolSet) : Table :=
  { terminals, nonTerminals, cells := ∅ }

theorem build_of_sound (h : SoundAlphabets terminals nonTerminals [epsilon]) :
    build nonTerminals terminals cells = cells.foldlM putCell (vacant nonTerminals terminals) := by
  rw [build, alphabetFault?_eq_none_iff.2 h]
  rfl

theorem build_of_alphabetFault (h : AlphabetFault terminals nonTerminals epsilon f) :
    build nonTerminals terminals cells = .error (.malformed f) := by
  rw [build, alphabetFault?_eq_some_iff.2 h]

theorem foldlM_putCell_of_first {before after : List Cell} (hbefore : ∀ d ∈ before, t.ValidCell d)
    (h : t.Breaks c f) : (before ++ c :: after).foldlM putCell t = .error (.malformed f) := by
  have hc := h.congr (u := { t with cells := before.foldl CellMap.insert t.cells }) rfl rfl
  have hput := cellFault?_eq_some_iff.2 hc
  rw [List.foldlM_append, foldlM_putCell_of_valid hbefore]
  change List.foldlM putCell _ (c :: after) = _
  rw [List.foldlM_cons, putCell, hput]
  rfl

theorem exists_first_invalid (h : ¬ ∀ c ∈ cells, t.ValidCell c) :
    ∃ before c after f, cells = before ++ c :: after ∧ (∀ d ∈ before, t.ValidCell d) ∧
      t.Breaks c f := by
  have hinvalid : ∃ c ∈ cells, ¬ t.ValidCell c := by simpa using h
  obtain ⟨before, c, after, hcells, hbefore, hc⟩ := exists_cut_at_first hinvalid
  obtain ⟨f, hf⟩ := exists_breaks_iff.2 hc
  exact ⟨before, c, after, f, hcells, fun d hd => Classical.not_not.1 (hbefore d hd), hf⟩

/-- Why no table is built: a fault of the alphabets, or else of the first cell that has one. -/
inductive BuildFault (nonTerminals terminals : SymbolSet) (cells : List Cell) : Fault → Prop where
  | alphabets {f : Fault} : AlphabetFault terminals nonTerminals epsilon f →
      BuildFault nonTerminals terminals cells f
  | cell {before after : List Cell} {c : Cell} {f : Fault} :
      SoundAlphabets terminals nonTerminals [epsilon] → cells = before ++ c :: after →
      (∀ d ∈ before, (vacant nonTerminals terminals).ValidCell d) →
      (vacant nonTerminals terminals).Breaks c f → BuildFault nonTerminals terminals cells f

theorem BuildFault.build_eq (h : BuildFault nonTerminals terminals cells f) :
    build nonTerminals terminals cells = .error (.malformed f) := by
  cases h with
  | alphabets h => exact build_of_alphabetFault h
  | cell ha hcells hbefore hc =>
    rw [build_of_sound ha, hcells]
    exact foldlM_putCell_of_first hbefore hc

theorem build_of_valid (ha : SoundAlphabets terminals nonTerminals [epsilon])
    (hc : ∀ c ∈ cells, (vacant nonTerminals terminals).ValidCell c) :
    build nonTerminals terminals cells =
      .ok { vacant nonTerminals terminals with cells := cells.foldl CellMap.insert ∅ } := by
  rw [build_of_sound ha, foldlM_putCell_of_valid hc]
  rfl

theorem exists_buildFault (h : ¬ (SoundAlphabets terminals nonTerminals [epsilon] ∧
    ∀ c ∈ cells, (vacant nonTerminals terminals).ValidCell c)) :
    ∃ f, BuildFault nonTerminals terminals cells f := by
  by_cases ha : SoundAlphabets terminals nonTerminals [epsilon]
  · rw [and_iff_right ha] at h
    obtain ⟨before, c, after, f, hcells, hbefore, hc⟩ := exists_first_invalid h
    exact ⟨f, .cell ha hcells hbefore hc⟩
  · rw [← alphabetFault?_eq_none_iff, ← ne_eq, Option.ne_none_iff_exists'] at ha
    obtain ⟨f, hf⟩ := ha
    exact ⟨f, .alphabets (alphabetFault?_eq_some_iff.1 hf)⟩

theorem build_eq_error_iff :
    build nonTerminals terminals cells = .error e ↔
      ∃ f, BuildFault nonTerminals terminals cells f ∧ e = .malformed f := by
  constructor
  · intro h
    by_cases hv : SoundAlphabets terminals nonTerminals [epsilon] ∧
        ∀ c ∈ cells, (vacant nonTerminals terminals).ValidCell c
    · rw [build_of_valid hv.1 hv.2] at h
      cases h
    · obtain ⟨f, hf⟩ := exists_buildFault hv
      rw [hf.build_eq] at h
      exact ⟨f, hf, (Except.error.inj h).symm⟩
  · rintro ⟨f, hf, rfl⟩
    exact hf.build_eq

theorem build_eq_ok_iff :
    build nonTerminals terminals cells = .ok t ↔
      (SoundAlphabets terminals nonTerminals [epsilon] ∧
        ∀ c ∈ cells, (vacant nonTerminals terminals).ValidCell c) ∧
      t = { vacant nonTerminals terminals with cells := cells.foldl CellMap.insert ∅ } := by
  constructor
  · intro h
    by_cases hv : SoundAlphabets terminals nonTerminals [epsilon] ∧
        ∀ c ∈ cells, (vacant nonTerminals terminals).ValidCell c
    · rw [build_of_valid hv.1 hv.2] at h
      exact ⟨hv, (Except.ok.inj h).symm⟩
    · obtain ⟨f, hf⟩ := exists_buildFault hv
      rw [hf.build_eq] at h
      cases h
  · rintro ⟨⟨ha, hc⟩, rfl⟩
    exact build_of_valid ha hc

/-! ## Both ways together -/

/-- The cell that is built last wins, and so does the one that is added first. -/
theorem build_eq_ok_iff_addVacant :
    build nonTerminals terminals cells = .ok t ↔ ∃ empty,
      build nonTerminals terminals [] = .ok empty ∧ empty.addVacant cells.reverse = .ok t := by
  have hempty : ∀ empty, build nonTerminals terminals [] = .ok empty ↔
      SoundAlphabets terminals nonTerminals [epsilon] ∧ empty = vacant nonTerminals terminals :=
    fun empty => by
      rw [build_eq_ok_iff]
      simp [vacant]
  simp only [hempty, build_eq_ok_iff, addVacant_eq_ok_iff, List.mem_reverse]
  constructor
  · rintro ⟨⟨ha, hc⟩, rfl⟩
    refine ⟨_, ⟨ha, rfl⟩, hc, ?_⟩
    rw [← CellMap.foldl_insertVacant_reverse]
    rfl
  · rintro ⟨_, ⟨ha, rfl⟩, hc, rfl⟩
    refine ⟨⟨ha, hc⟩, ?_⟩
    rw [← CellMap.foldl_insertVacant_reverse]
    rfl

theorem build_perm {cells' : List Cell} (hperm : cells.Perm cells')
    (hkeys : (cells.map Cell.key).Nodup) :
    build nonTerminals terminals cells = .ok t ↔ build nonTerminals terminals cells' = .ok t := by
  have hsame : cells.foldl CellMap.insert ∅ = cells'.foldl CellMap.insert ∅ := by
    refine CellMap.ext fun a s => ?_
    have hreverse : cells.reverse.Perm cells'.reverse :=
      (cells.reverse_perm.trans hperm).trans cells'.reverse_perm.symm
    have hkeys' : (cells.reverse.map Cell.key).Nodup := by
      rw [List.map_reverse]
      exact List.nodup_reverse.2 hkeys
    rw [CellMap.find?_foldl_insert, CellMap.find?_foldl_insert,
      CellMap.findCell_perm hreverse hkeys']
  simp only [build_eq_ok_iff, hsame, hperm.mem_iff]

/-- The parts are what holds of every table that comes about, adding one cell, when building
succeeds and why it fails, and building as adding in reverse order. -/
theorem build_and_addCell_agree (nonTerminals terminals : SymbolSet) (cells : List Cell) :
    (∀ t, build nonTerminals terminals cells = .ok t → ∀ added : List Cell,
      (added.foldl tryCell t).Reachable ∧ (added.foldl tryCell t).Sound) ∧
    (∀ (t : Table) (c : Cell),
      (∀ u, t.addCell c = .ok u → t.tryCell c = u ∧ t.get? c.nonTerminal c.terminal = none ∧
        u.terminals = t.terminals ∧ u.nonTerminals = t.nonTerminals ∧
        u.cells.toList.Perm (c :: t.cells.toList)) ∧
      ∀ e, (t.addCell c = .error e → t.tryCell c = t) ∧
        (t.addCell c = .error e ↔ (∃ f, t.Breaks c f ∧ e = .malformed f) ∨
          t.ValidCell c ∧ t.get? c.nonTerminal c.terminal ≠ none ∧
            e = .repeatedCell c.nonTerminal c.terminal)) ∧
    ((∃ t, build nonTerminals terminals cells = .ok t) ↔
      SoundAlphabets terminals nonTerminals [epsilon] ∧
        ∀ c ∈ cells, (vacant nonTerminals terminals).ValidCell c) ∧
    (∀ e, build nonTerminals terminals cells = .error e ↔
      ∃ f, BuildFault nonTerminals terminals cells f ∧ e = .malformed f) ∧
    (∀ t, build nonTerminals terminals cells = .ok t ↔ ∃ empty,
      build nonTerminals terminals [] = .ok empty ∧ empty.addVacant cells.reverse = .ok t) ∧
    ∀ cells' : List Cell, cells.Perm cells' → (cells.map Cell.key).Nodup → ∀ t,
      build nonTerminals terminals cells = .ok t ↔ build nonTerminals terminals cells' = .ok t := by
  refine ⟨fun t ht added => ?_, fun t c => ⟨fun u hu => ?_, fun e => ?_⟩, ?_, ?_, ?_, ?_⟩
  · have hreachable := (Reachable.build ht).foldl_tryCell added
    exact ⟨hreachable, hreachable.sound⟩
  · obtain ⟨-, hplace, rfl⟩ := addCell_eq_ok_iff.1 hu
    exact ⟨by simp only [tryCell, hu], hplace, rfl, rfl, CellMap.insertCell_perm hplace⟩
  · exact ⟨tryCell_of_error, addCell_eq_error_iff⟩
  · simp only [build_eq_ok_iff, exists_and_left, exists_eq, and_true]
  · exact fun e => build_eq_error_iff
  · exact fun t => build_eq_ok_iff_addVacant
  · exact fun cells' hperm hkeys t => build_perm hperm hkeys

/-- Cells of which two have the same symbols, and a list with an invalid cell behind a valid one. -/
theorem closing_built_and_added :
    ∃ empty, build (.ofList ['S', 'X']) (.ofList ['a', '$']) [] = .ok empty ∧
      empty.addVacant [⟨'X', '$', []⟩, ⟨'S', 'a', ['a', 'X', '$']⟩, ⟨'X', '$', ['X']⟩] =
        .ok closing ∧
      closing.tryCell ⟨'X', '$', ['ε']⟩ = closing ∧
      closing.addCell ⟨'X', '$', ['ε']⟩ =
        .error (.malformed (.entryUndeclared ⟨'X', '$', ['ε']⟩ 'ε')) ∧
      build (.ofList ['S', 'X']) (.ofList ['a', '$'])
          [⟨'S', 'a', []⟩, ⟨'S', 'S', []⟩, ⟨'a', 'a', []⟩] =
        .error (.malformed (.columnUndeclared ⟨'S', 'S', []⟩)) := by
  have hbuild : build (.ofList ['S', 'X']) (.ofList ['a', '$'])
      [⟨'X', '$', ['X']⟩, ⟨'S', 'a', ['a', 'X', '$']⟩, ⟨'X', '$', []⟩] = .ok closing := by rfl
  obtain ⟨-, hadd, -, -, hboth, -⟩ := build_and_addCell_agree (.ofList ['S', 'X'])
    (.ofList ['a', '$']) [⟨'X', '$', ['X']⟩, ⟨'S', 'a', ['a', 'X', '$']⟩, ⟨'X', '$', []⟩]
  obtain ⟨-, -, -, herror, -, -⟩ := build_and_addCell_agree (.ofList ['S', 'X'])
    (.ofList ['a', '$']) [⟨'S', 'a', []⟩, ⟨'S', 'S', []⟩, ⟨'a', 'a', []⟩]
  obtain ⟨empty, hempty, hadded⟩ := (hboth closing).1 hbuild
  have hbreaks : closing.Breaks ⟨'X', '$', ['ε']⟩ (.entryUndeclared ⟨'X', '$', ['ε']⟩ 'ε') :=
    .entry (by decide) (by decide) (List.nil_append ['ε']).symm
      (fun x hx => absurd hx List.not_mem_nil) (by decide)
  have hrefused := ((hadd closing ⟨'X', '$', ['ε']⟩).2 _).2.2 (.inl ⟨_, hbreaks, rfl⟩)
  have hcells : [⟨'S', 'a', []⟩, ⟨'S', 'S', []⟩, ⟨'a', 'a', []⟩] =
      [(⟨'S', 'a', []⟩ : Cell)] ++ ⟨'S', 'S', []⟩ :: [⟨'a', 'a', []⟩] := rfl
  refine ⟨empty, hempty, hadded, ((hadd closing _).2 _).1 hrefused, hrefused, ?_⟩
  refine (herror _).2 ⟨_, .cell ?_ hcells ?_ ?_, rfl⟩
  · exact alphabetFault?_eq_none_iff.1 rfl
  · intro d hd
    rw [List.mem_singleton.1 hd]
    exact cellFault?_eq_none_iff.1 rfl
  · exact .column (by decide) (by decide)

end Table

end PredictiveParsing
