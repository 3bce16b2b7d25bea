import Mathlib.Data.List.MinMax
import Mathlib.Order.Nat
import PredictiveParsing.Proofs.ListCut
import PredictiveParsing.View.Format

/-!
# The plain text of a table is an aligned grid

A line and a column of the text are told by their names: one line and one column hold names, the
others belong to a symbol each. Where the entries come from names, a column is as wide as its
longest entry (`columnWidths_map`), so all lines have their separators at the same places
(`Table.plain_text_is_aligned`). The text is also the one that is found by indices
(`Table.plainByIndex?_grid`), none of which is out of range since every line has the same number of
entries.
-/
namespace PredictiveParsing

/-! ## Padding -/

def blanks (n : Nat) : String := String.ofList (List.replicate n ' ')

theorem flushRight_eq {width : Nat} {s : String} :
    flushRight width s = blanks (width - s.length) ++ s :=
  rfl

theorem length_flushRight {width : Nat} {s : String} (h : s.length ≤ width) :
    (flushRight width s).length = width := by
  rw [flushRight, String.length_append, String.length_ofList, List.length_replicate]
  omega

theorem length_intercalate_congr {κ : Type} {f g : κ → String} {columns : List κ} (sep : String)
    (h : ∀ c ∈ columns, (f c).length = (g c).length) :
    (sep.intercalate (columns.map f)).length = (sep.intercalate (columns.map g)).length := by
  induction columns with
  | nil => rfl
  | cons c columns ih =>
    obtain ⟨hc, hcolumns⟩ := List.forall_mem_cons.1 h
    cases columns with
    | nil => simpa using hc
    | cons d columns =>
      have hmore := ih hcolumns
      simp only [List.map_cons] at hmore
      simp only [List.map_cons, String.intercalate_cons_cons, String.length_append, hc, hmore]

/-! ## The width of a column -/

section Widths

variable {ι κ : Type} {entry : ι → κ → String} {rows : List ι} {columns : List κ} {i : ι} {c : κ}

def widest (entry : ι → κ → String) (rows : List ι) (c : κ) : Nat :=
  (rows.map fun i => (entry i c).length).foldr max 0

theorem le_widest (h : i ∈ rows) : (entry i c).length ≤ widest entry rows c :=
  List.le_max_of_le (List.mem_map_of_mem (f := fun i => (entry i c).length) h) (Nat.le_refl _)

theorem exists_length_eq_widest (h : rows ≠ []) :
    ∃ i ∈ rows, (entry i c).length = widest entry rows c := by
  induction rows with
  | nil => exact absurd rfl h
  | cons i rows ih =>
    rcases Nat.le_total (widest entry rows c) (entry i c).length with hle | hle
    · exact ⟨i, List.mem_cons_self, (Nat.max_eq_left hle).symm⟩
    · by_cases hrows : rows = []
      · subst hrows
        exact ⟨i, List.mem_cons_self, (Nat.max_eq_left (Nat.zero_le _)).symm⟩
      · obtain ⟨j, hj, hlength⟩ := ih hrows
        exact ⟨j, List.mem_cons_of_mem i hj, hlength.trans (Nat.max_eq_right hle).symm⟩

theorem columnWidths_map (h : rows ≠ []) :
    columnWidths (rows.map fun i => columns.map (entry i)) = columns.map (widest entry rows) := by
  induction rows with
  | nil => exact absurd rfl h
  | cons i rows ih =>
    cases rows with
    | nil => simp [columnWidths, widest]
    | cons j rows =>
      have hmore := ih (List.cons_ne_nil j rows)
      rw [List.map_cons] at hmore
      rw [List.map_cons, List.map_cons, columnWidths, hmore, List.map_map, List.zipWith_map,
        List.zipWith_self]
      · rfl
      · exact List.cons_ne_nil _ _

end Widths

/-! ## Taking entries by their indices -/

namespace Grid

def widthAt? (lines : List (List String)) (j : Nat) : Option Nat :=
  (lines.mapM fun row => row[j]?.map String.length).map (·.foldr max 0)

def fieldBy? (widths : List Nat) (entry : String × Nat) : Option String :=
  widths[entry.2]?.map (flushRight · entry.1)

def lineBy? (widths : List Nat) (line : List String) : Option String :=
  (line.zipIdx.mapM (fieldBy? widths)).map (" | ".intercalate ·)

/-- The plain text by indices: there is none if one of them is out of range. -/
def plainByIndex? (g : Grid) : Option String := do
  let header ← g.fields[0]?
  let widths ← (List.range header.length).mapM (widthAt? g.fields)
  let lines ← g.fields.mapM (lineBy? widths)
  some ("\n".intercalate lines)

theorem lineBy?_map {κ : Type} {width : κ → Nat} {entry : κ → String} {columns : List κ} :
    lineBy? (columns.map width) (columns.map entry) =
      some (" | ".intercalate (columns.map fun c => flushRight (width c) (entry c))) := by
  have hfields : (columns.map entry).zipIdx.mapM (fieldBy? (columns.map width)) =
      some ((columns.map entry).zipIdx.map fun e =>
        flushRight ((columns.map width)[e.2]?.getD 0) e.1) := by
    refine mapM_eq_some_map fun e he => ?_
    have hj : e.2 < columns.length := by
      simpa using (List.mem_zipIdx he).2.1
    simp [fieldBy?, hj]
  rw [lineBy?, hfields, Option.map_some]
  refine congrArg (fun fields => some (" | ".intercalate fields)) (List.ext_getElem ?_ ?_)
  · simp
  · intro j _ hj
    have hcolumn : j < columns.length := by simpa using hj
    simp [hcolumn]

theorem widthAt?_map {ι κ : Type} {entry : ι → κ → String} {rows : List ι} {columns : List κ}
    {j : Nat} (hj : j < columns.length) :
    widthAt? (rows.map fun i => columns.map (entry i)) j =
      some (widest entry rows columns[j]) := by
  have hlengths : (rows.map fun i => columns.map (entry i)).mapM
      (fun row => row[j]?.map String.length) =
        some (rows.map fun i => (entry i columns[j]).length) := by
    rw [List.mapM_map]
    refine mapM_eq_some_map fun i _ => ?_
    simp [hj]
  rw [widthAt?, hlengths]
  rfl

end Grid

/-! ## Lines and columns of a table -/

namespace Table

variable {t : Table}

def lineNames (t : Table) : List (Option Symbol) := none :: t.nonTerminals.toList.map some

def columnNames (t : Table) : List (Option Symbol) := none :: t.terminals.toList.map some

def content (t : Table) : Option Symbol → Option Symbol → String
  | none, none => ""
  | none, some s => s.toString
  | some a, none => a.toString
  | some a, some s =>
    match t.get? a s with
    | some r => (Production.mk a r).display
    | none => ""

def lineText (t : Table) (field : Option Symbol → Option Symbol → String) (l : Option Symbol) :
    String :=
  " | ".intercalate (t.columnNames.map (field l))

/-- The fields fill a grid: separators stand below one another, what is shown stands flush right
in its field, and no column is wider than need be. -/
structure Aligned (t : Table) (field : Option Symbol → Option Symbol → String) : Prop where
  length_eq : ∀ l ∈ t.lineNames, ∀ m ∈ t.lineNames,
    (t.lineText field l).length = (t.lineText field m).length
  separated : ∀ before after, t.columnNames = before ++ after → before ≠ [] → after ≠ [] →
    ∃ offset, ∀ l ∈ t.lineNames, ∃ left right, t.lineText field l = left ++ " | " ++ right ∧
      left.length = offset ∧ left = " | ".intercalate (before.map (field l)) ∧
      right = " | ".intercalate (after.map (field l))
  padded : ∀ l ∈ t.lineNames, ∀ c ∈ t.columnNames, ∃ n, field l c = blanks n ++ t.content l c
  tight : ∀ c ∈ t.columnNames, ∃ l ∈ t.lineNames, field l c = t.content l c

theorem fields_grid (t : Table) :
    t.grid.fields = t.lineNames.map fun l => t.columnNames.map (t.content l) := by
  have hentry : ∀ a s, Grid.entry a (t.get? a s) = t.content (some a) (some s) := by
    intro a s
    cases h : t.get? a s with
    | none => simp [Grid.entry, content, h]
    | some r => simp [Grid.entry, content, h]
  simp [Grid.fields, grid, lineNames, columnNames, content, hentry, Function.comp_def]

def width (t : Table) (c : Option Symbol) : Nat := widest t.content t.lineNames c

def field (t : Table) (l c : Option Symbol) : String := flushRight (t.width c) (t.content l c)

theorem columnWidths_grid (t : Table) : columnWidths t.grid.fields = t.columnNames.map t.width := by
  rw [fields_grid]
  exact columnWidths_map (List.cons_ne_nil _ _)

theorem plain_eq (t : Table) :
    t.display .plain = "\n".intercalate (t.lineNames.map (t.lineText t.field)) := by
  rw [display, Grid.plain, columnWidths_grid, fields_grid, List.map_map]
  refine congrArg ("\n".intercalate ·) (List.map_congr_left fun l _ => ?_)
  rw [Function.comp_apply, List.zipWith_map, List.zipWith_self]
  rfl

theorem length_field {l c : Option Symbol} (hl : l ∈ t.lineNames) :
    (t.field l c).length = t.width c :=
  length_flushRight (le_widest hl)

theorem aligned (t : Table) : t.Aligned t.field where
  length_eq := by
    intro l hl m hm
    refine length_intercalate_congr _ fun c _ => ?_
    rw [length_field hl, length_field hm]
  separated := by
    intro before after hcolumns hbefore hafter
    refine ⟨(" | ".intercalate (before.map (t.field none))).length, fun l hl => ?_⟩
    have hnone : none ∈ t.lineNames := List.mem_cons_self
    refine ⟨_, _, ?_, ?_, rfl, rfl⟩
    · rw [lineText, hcolumns, List.map_append]
      exact String.intercalate_append_of_ne_nil (by simpa using hbefore) (by simpa using hafter)
    · refine length_intercalate_congr _ fun c _ => ?_
      rw [length_field hl, length_field hnone]
  padded := fun l _ c _ => ⟨_, flushRight_eq⟩
  tight := by
    intro c _
    have hlongest : ∃ l ∈ t.lineNames, (t.content l c).length = t.width c :=
      exists_length_eq_widest (List.cons_ne_nil none (t.nonTerminals.toList.map some))
    obtain ⟨l, hl, hlength⟩ := hlongest
    refine ⟨l, hl, ?_⟩
    rw [field, flushRight_eq, hlength, Nat.sub_self]
    exact String.empty_append

theorem plainByIndex?_grid (t : Table) : t.grid.plainByIndex? = some (t.display .plain) := by
  have hwidths : (List.range t.columnNames.length).mapM (Grid.widthAt? t.grid.fields) =
      some (t.columnNames.map t.width) := by
    have hat : ∀ j ∈ List.range t.columnNames.length, Grid.widthAt? t.grid.fields j =
        some ((t.columnNames.map t.width)[j]?.getD 0) := by
      intro j hj
      have hj := List.mem_range.1 hj
      rw [fields_grid, Grid.widthAt?_map hj]
      simp [hj, width]
    rw [mapM_eq_some_map hat]
    refine congrArg some (List.ext_getElem (by simp) fun j _ hj => ?_)
    have hcolumn : j < t.columnNames.length := by simpa using hj
    simp [hcolumn]
  have hlines : t.grid.fields.mapM (Grid.lineBy? (t.columnNames.map t.width)) =
      some (t.lineNames.map (t.lineText t.field)) := by
    rw [fields_grid, List.mapM_map]
    exact mapM_eq_some_map fun l _ => Grid.lineBy?_map
  have hheader : t.grid.fields[0]? = some (t.columnNames.map (t.content none)) := by
    rw [fields_grid]
    rfl
  rw [plain_eq]
  simp [Grid.plainByIndex?, hheader, hwidths, hlines]

theorem plain_text_is_aligned (t : Table) :
    t.grid.plainByIndex? = some (t.display .plain) ∧
    t.lineNames.length = 1 + t.nonTerminals.size ∧
    t.columnNames.length = 1 + t.terminals.size ∧ t.terminals.toList.Pairwise (· < ·) ∧
    ∃ field, t.display .plain = "\n".intercalate (t.lineNames.map (t.lineText field)) ∧
      t.Aligned field := by
  refine ⟨t.plainByIndex?_grid, ?_, ?_, t.terminals.ascending, t.field, t.plain_eq, t.aligned⟩
  · rw [lineNames, List.length_cons, List.length_map, Nat.add_comm]
    rfl
  · rw [columnNames, List.length_cons, List.length_map, Nat.add_comm]
    rfl

end Table

end PredictiveParsing
