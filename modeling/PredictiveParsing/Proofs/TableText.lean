import PredictiveParsing.Proofs.Filling
import PredictiveParsing.Proofs.JsonReading
import PredictiveParsing.View.Format

/-!
# The JSON text of a table loses nothing

The grid of a table names its symbols once, in the margins, and shows the cells by their places.
`Listing.read` takes the symbols and the cells out of a JSON text again: an empty place is no cell,
an empty list is a cell with an empty right side. Because all cells of a table lie in the grid, and
the rows and columns ascend as the cells do, it finds them all and in their order
(`Sound.flatMap_rowOf`); the table is built from what is found (`json_text_determines_table`).
-/
namespace PredictiveParsing

namespace Json

/-! ## Symbols and lists of them -/

def symbol? : Json → Option Symbol
  | str s =>
    match s.toList with
    | [c] => some c
    | _ => none
  | _ => none

def list? {α : Type} (item : Json → Option α) : Json → Option (List α)
  | arr items => items.mapM item
  | _ => none

def symbols? : Json → Option (List Symbol) := list? symbol?

theorem symbol?_ofSymbol (s : Symbol) : (ofSymbol s).symbol? = some s := by
  simp [ofSymbol, symbol?]

theorem list?_map {α : Type} {item : Json → Option α} {write : α → Json}
    (h : ∀ x, item (write x) = some x) (l : List α) : (arr (l.map write)).list? item = some l := by
  have hread := mapM_eq_some_map (f := item ∘ write) (g := id) (l := l) fun x _ => h x
  rw [list?, List.mapM_map, hread, List.map_id]

theorem symbols?_ofSymbols (l : List Symbol) : (ofSymbols l).symbols? = some l :=
  list?_map symbol?_ofSymbol l

end Json

/-! ## What a grid shows -/

namespace Grid

def entry? : Json → Option (Option (List Symbol))
  | .null => some none
  | j => j.symbols?.map some

def row? : Json → Option (Symbol × List (Option (List Symbol)))
  | .arr [left, row] => do
    let left ← left.symbol?
    let row ← row.list? entry?
    some (left, row)
  | _ => none

def rowCells (terminals : List Symbol) (row : Symbol × List (Option (List Symbol))) : List Cell :=
  (terminals.zip row.2).filterMap fun (s, entry) => entry.map (⟨row.1, s, ·⟩)

theorem entry?_entryJson (entry : Option (List Symbol)) :
    entry? (entryJson entry) = some entry := by
  cases entry with
  | none => rfl
  | some right =>
    have h := Json.symbols?_ofSymbols right
    simp only [Json.ofSymbols] at h
    simp [entryJson, Json.ofSymbols, entry?, h]

end Grid

structure Listing where
  terminals : List Symbol
  nonTerminals : List Symbol
  cells : List Cell
deriving DecidableEq

namespace Listing

def ofJson? (j : Json) : Option Listing := do
  let terminals ← (← j.field? "terminals").symbols?
  let rows ← (← j.field? "rows").list? Grid.row?
  some
    { terminals
      nonTerminals := rows.map Prod.fst
      cells := rows.flatMap (Grid.rowCells terminals) }

def read (text : String) : Option Listing := (Json.read text).bind ofJson?

def build (l : Listing) : Except Error Table :=
  Table.build (.ofList l.nonTerminals) (.ofList l.terminals) l.cells

theorem ofJson?_toJson (g : Grid) : ofJson? g.toJson = some
    { terminals := g.terminals.toList
      nonTerminals := g.rows.map Prod.fst
      cells := g.rows.flatMap (Grid.rowCells g.terminals.toList) } := by
  have hrow : ∀ row : Symbol × List (Option (List Symbol)),
      Grid.row? (.arr [.ofSymbol row.1, .arr (row.2.map Grid.entryJson)]) = some row := by
    intro row
    simp [Grid.row?, Json.symbol?_ofSymbol, Json.list?_map Grid.entry?_entryJson]
  have hrows := Json.list?_map hrow g.rows
  have hterminals := Json.symbols?_ofSymbols g.terminals.toList
  have hfirst : g.toJson.field? "terminals" = some (.ofSymbols g.terminals.toList) := rfl
  have hsecond : g.toJson.field? "rows" = some (.arr (g.rows.map fun row =>
      .arr [.ofSymbol row.1, .arr (row.2.map Grid.entryJson)])) := rfl
  simp [ofJson?, hfirst, hsecond, hterminals, hrows]

end Listing

theorem SymbolSet.ofList_toList (S : SymbolSet) : SymbolSet.ofList S.toList = S :=
  SymbolSet.ext fun _ => SymbolSet.mem_ofList

namespace Table

variable {t : Table}

def listing (t : Table) : Listing := ⟨t.terminals.toList, t.nonTerminals.toList, t.cells.toList⟩

def rowOf (t : Table) (a : Symbol) : List Cell :=
  t.terminals.toList.filterMap fun s => (t.get? a s).map (⟨a, s, ·⟩)

theorem mem_rowOf {a : Symbol} {c : Cell} : c ∈ t.rowOf a ↔
    c.nonTerminal = a ∧ c.terminal ∈ t.terminals ∧ t.get? a c.terminal = some c.right := by
  rw [rowOf, List.mem_filterMap]
  constructor
  · rintro ⟨s, hs, hc⟩
    obtain ⟨r, hr, rfl⟩ := Option.map_eq_some_iff.1 hc
    exact ⟨rfl, hs, hr⟩
  · rintro ⟨rfl, hs, hr⟩
    exact ⟨c.terminal, hs, by rw [hr]; rfl⟩

theorem rowOf_ascending (t : Table) (a : Symbol) : (t.rowOf a).Pairwise Cell.Precedes := by
  refine List.Pairwise.filterMap _ (fun s s' hs c hc c' hc' => ?_) t.terminals.ascending
  obtain ⟨r, -, rfl⟩ := Option.map_eq_some_iff.1 hc
  obtain ⟨r', -, rfl⟩ := Option.map_eq_some_iff.1 hc'
  exact .inr ⟨rfl, hs⟩

theorem Sound.flatMap_rowOf (ht : t.Sound) :
    t.nonTerminals.toList.flatMap t.rowOf = t.cells.toList := by
  have hascending : (t.nonTerminals.toList.flatMap t.rowOf).Pairwise Cell.Precedes := by
    refine List.pairwise_flatMap.2 ⟨fun a _ => t.rowOf_ascending a, ?_⟩
    refine t.nonTerminals.ascending.imp fun hab c hc d hd => ?_
    exact .inl ((mem_rowOf.1 hc).1 ▸ (mem_rowOf.1 hd).1 ▸ hab)
  have hsame : (⟨_, hascending⟩ : CellMap) = t.cells := by
    refine CellMap.ext fun a s => Option.ext fun r => ?_
    rw [CellMap.find?_eq_some_iff, List.mem_flatMap]
    constructor
    · rintro ⟨b, -, hc⟩
      obtain ⟨rfl, -, hr⟩ := mem_rowOf.1 hc
      exact hr
    · intro hr
      have hvalid := ht.valid_of_get? hr
      exact ⟨a, hvalid.row_mem, mem_rowOf.2 ⟨rfl, hvalid.column_mem, hr⟩⟩
  exact congrArg CellMap.toList hsame

theorem rowCells_map (t : Table) (a : Symbol) (l : List Symbol) :
    Grid.rowCells l (a, l.map (t.get? a)) = l.filterMap fun s => (t.get? a s).map (⟨a, s, ·⟩) := by
  unfold Grid.rowCells
  induction l with
  | nil => rfl
  | cons s l ih =>
    rw [List.map_cons, List.zip_cons_cons, List.filterMap_cons, List.filterMap_cons, ih]

theorem ofJson?_grid (t : Table) : Listing.ofJson? t.grid.toJson =
    some ⟨t.terminals.toList, t.nonTerminals.toList, t.nonTerminals.toList.flatMap t.rowOf⟩ := by
  have hnames : t.grid.rows.map Prod.fst = t.nonTerminals.toList := by
    simp [grid, Function.comp_def]
  have hcells : t.grid.rows.flatMap (Grid.rowCells t.grid.terminals.toList) =
      t.nonTerminals.toList.flatMap t.rowOf := by
    rw [grid, List.flatMap_map]
    exact congrArg (List.flatMap · _) (funext fun a => rowCells_map t a _)
  rw [Listing.ofJson?_toJson, hnames, hcells]
  rfl

theorem Sound.read_display (ht : t.Sound) : Listing.read (t.display .json) = some t.listing := by
  rw [Listing.read, display, Json.read_render, Option.bind_some, ofJson?_grid, ht.flatMap_rowOf]
  rfl

theorem Sound.build_listing (ht : t.Sound) : t.listing.build = .ok t := by
  rw [Listing.build, listing, SymbolSet.ofList_toList, SymbolSet.ofList_toList, build_eq_ok_iff]
  refine ⟨⟨ht.alphabets, fun c hc => (ht.cells_valid c hc).congr rfl rfl⟩, ?_⟩
  rw [CellMap.foldl_insert_toList]
  rfl

/-- The text is read back to the symbols and cells of the table, and these make up the table. -/
theorem json_text_determines_table (ht : t.Reachable) :
    Listing.read (t.display .json) =
      some ⟨t.terminals.toList, t.nonTerminals.toList, t.cells.toList⟩ ∧
    Table.build (.ofList t.nonTerminals.toList) (.ofList t.terminals.toList) t.cells.toList =
      .ok t ∧
    ∀ u : Table, u.Reachable → (t.display .json = u.display .json ↔ t = u) := by
  refine ⟨ht.sound.read_display, ht.sound.build_listing, fun u hu => ⟨fun h => ?_, fun h => ?_⟩⟩
  · have hlisting : t.listing = u.listing := by
      rw [← Option.some_inj, ← ht.sound.read_display, ← hu.sound.read_display, h]
    have hbuild := ht.sound.build_listing
    rw [hlisting, hu.sound.build_listing] at hbuild
    exact (Except.ok.inj hbuild).symm
  · rw [h]

def quoting : Table :=
  { terminals := .ofList ['"', '\\', '\x01']
    nonTerminals := .ofList ['A', 'é']
    cells := ((∅ : CellMap).insert ⟨'é', '"', []⟩).insert ⟨'é', '\x01', ['\\', 'A']⟩ }

theorem quoting_determined :
    quoting.display .json = "\x7b\"terminals\":[\"\\u0001\",\"\\\"\",\"\\\\\"],\"rows\":[" ++
      "[\"A\",[null,null,null]],[\"é\",[[\"\\\\\",\"A\"],[],null]]]\x7d" ∧
    quoting.Reachable ∧ Listing.read (quoting.display .json) =
      some ⟨['\x01', '"', '\\'], ['A', 'é'], [⟨'é', '\x01', ['\\', 'A']⟩, ⟨'é', '"', []⟩]⟩ ∧
    Table.build (.ofList ['A', 'é']) (.ofList ['\x01', '"', '\\'])
      [⟨'é', '\x01', ['\\', 'A']⟩, ⟨'é', '"', []⟩] = .ok quoting ∧
    quoting.display .json ≠ closing.display .json := by
  have hreachable : quoting.Reachable := .build
    (show Table.build (.ofList ['A', 'é']) (.ofList ['\x01', '"', '\\'])
      [⟨'é', '\x01', ['\\', 'A']⟩, ⟨'é', '"', []⟩] = .ok quoting from rfl)
  obtain ⟨hread, hbuild, hsame⟩ := json_text_determines_table hreachable
  refine ⟨by decide +kernel, hreachable, hread, hbuild, fun h => ?_⟩
  have hequal := (hsame closing closing_reachable).1 h
  exact absurd hequal (by decide)

end Table

end PredictiveParsing
