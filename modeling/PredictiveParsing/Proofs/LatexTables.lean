import PredictiveParsing.Proofs.Grouping

/-!
# No symbol breaks a LaTeX table

A character directly behind a backslash neither ends a column nor opens or closes a group. A text
is read from left to right with the number of groups that are open and the number of column ends
so far; a text that is `SelfContained` can stand anywhere, since it ends outside of each group that
it opens and not with a backslash. Every written symbol is of this kind and ends no column
(`selfContained_escape`), so only what is written between symbols decides how many columns a line
has.
-/
namespace PredictiveParsing

namespace Latex

/-! ## What stands behind no backslash -/

def bareFrom : Bool → List Char → List Char
  | _, [] => []
  | behind, c :: text => (if behind then [] else [c]) ++ bareFrom (c = '\\') text

def bare (text : List Char) : List Char := bareFrom false text

def columnEnds (text : String) : Nat := (bare text.toList).count '&'

structure Balanced (text : String) : Prop where
  closed_le : ∀ u, u <+: text.toList → (bare u).count '\x7d' ≤ (bare u).count '\x7b'
  closed_eq : (bare text.toList).count '\x7d' = (bare text.toList).count '\x7b'

inductive Shows : List String → String → Prop where
  | nil : Shows [] ""
  | last {line : String} : Shows [line] line
  | more {line gap text : String} {lines : List String} : gap ∈ ["\n", "\n ", "\\hline\n"] →
      Shows lines text → Shows (line :: lines) (line ++ "\\\\" ++ gap ++ text)

def DeclaresColumns (n : Nat) (text : String) : Prop :=
  ∃ opening layout rest, text = opening ++ "\x7b" ++ layout ++ "\x7d" ++ rest ∧
    opening ∈ ["\\[\\begin\x7barray\x7d", "\\begin\x7btabular\x7d"] ∧ '\x7d' ∉ layout.toList ∧
    layout.toList.countP (· ∈ ['l', 'c', 'r']) = n

/-- A table with these lines, each of which has as many columns as are declared. -/
structure Tabular (columns : Nat) (lines : List String) (text : String) : Prop where
  declared : DeclaresColumns columns text
  shown : ∃ before body after, text = before ++ body ++ after ∧ Shows lines body
  filled : ∀ line ∈ lines, columnEnds line + 1 = columns
  balanced : Balanced text

/-! ## Reading a text -/

/-- Whether a backslash stands right before, how many groups are open and how many columns have
ended. -/
structure Place where
  behind : Bool
  depth : Nat
  ends : Nat

def Place.next? (p : Place) (c : Char) : Option Place :=
  if p.behind then some { p with behind := c = '\\' }
  else if c = '\\' then some { p with behind := true }
  else if c = '\x7b' then some { p with depth := p.depth + 1 }
  else if c = '\x7d' then if p.depth = 0 then none else some { p with depth := p.depth - 1 }
  else if c = '&' then some { p with ends := p.ends + 1 }
  else some p

def read? (p : Place) (text : List Char) : Option Place := text.foldlM Place.next? p

theorem read?_append {p : Place} {u v : List Char} :
    read? p (u ++ v) = (read? p u).bind (read? · v) :=
  List.foldlM_append

theorem Place.next?_counts {p q : Place} {c : Char} (h : p.next? c = some q) :
    q.behind = decide (c = '\\') ∧
    q.ends = p.ends + (if p.behind then [] else [c]).count '&' ∧
    q.depth + (if p.behind then [] else [c]).count '\x7d' =
      p.depth + (if p.behind then [] else [c]).count '\x7b' := by
  grind [Place.next?]

theorem read?_counts {p q : Place} {text : List Char} (h : read? p text = some q) :
    q.ends = p.ends + (bareFrom p.behind text).count '&' ∧
    q.depth + (bareFrom p.behind text).count '\x7d' =
      p.depth + (bareFrom p.behind text).count '\x7b' ∧
    ∀ u, u <+: text →
      (bareFrom p.behind u).count '\x7d' ≤ p.depth + (bareFrom p.behind u).count '\x7b' := by
  induction text generalizing p with
  | nil =>
    obtain rfl := Option.some.inj h
    refine ⟨rfl, rfl, fun u hu => ?_⟩
    rw [List.prefix_nil.1 hu]
    exact Nat.zero_le _
  | cons c text ih =>
    obtain ⟨p', hp', hrest⟩ := Option.bind_eq_some_iff.1 h
    obtain ⟨hbehind, hends, hdepth⟩ := Place.next?_counts hp'
    obtain ⟨hends', hdepth', hbelow⟩ := ih hrest
    rw [hbehind] at hends' hdepth' hbelow
    simp only [bareFrom, List.count_append]
    refine ⟨by omega, by omega, fun u hu => ?_⟩
    rcases List.prefix_cons_iff.1 hu with rfl | ⟨v, rfl, hv⟩
    · exact Nat.zero_le _
    · have := hbelow v hv
      simp only [bareFrom, List.count_append]
      omega

/-! ## Texts that can stand anywhere -/

/-- The text ends at the depth at which it begins, and not with a backslash. -/
def SelfContained (n : Nat) (s : String) : Prop :=
  ∀ depth ends, read? ⟨false, depth, ends⟩ s.toList = some ⟨false, depth, ends + n⟩

namespace SelfContained

variable {m n : Nat} {s u v : String} {l : List String}

theorem columnEnds_eq (h : SelfContained n s) : columnEnds s = n := by
  have hends := (read?_counts (h 0 0)).1
  simpa [columnEnds, bare] using hends.symm

theorem balanced (h : SelfContained n s) : Balanced s := by
  obtain ⟨-, hdepth, hbelow⟩ := read?_counts (h 0 0)
  refine ⟨fun u hu => ?_, ?_⟩
  · simpa [bare] using hbelow u hu
  · simpa [bare] using hdepth

theorem append (hu : SelfContained m u) (hv : SelfContained n v) :
    SelfContained (m + n) (u ++ v) := by
  intro depth ends
  rw [String.toList_append, read?_append, hu, Option.bind_some, hv, Nat.add_assoc]

theorem ite {p : Prop} [Decidable p] (hu : p → SelfContained n u) (hv : ¬ p → SelfContained n v) :
    SelfContained n (if p then u else v) := by
  split
  · next hp => exact hu hp
  · next hp => exact hv hp

theorem join (h : ∀ x ∈ l, SelfContained n x) : SelfContained (n * l.length) (String.join l) := by
  induction l with
  | nil => exact fun _ _ => rfl
  | cons x l ih =>
    obtain ⟨hx, hl⟩ := List.forall_mem_cons.1 h
    rw [String.join_cons, List.length_cons, Nat.mul_succ, Nat.add_comm]
    exact hx.append (ih hl)

theorem intercalate (hs : SelfContained m s) (h : ∀ x ∈ l, SelfContained n x) :
    SelfContained (n * l.length + m * (l.length - 1)) (s.intercalate l) := by
  cases l with
  | nil => exact fun _ _ => rfl
  | cons x l =>
    obtain ⟨hx, hl⟩ := List.forall_mem_cons.1 h
    have hrest : ∀ y ∈ l.map (s ++ ·), SelfContained (m + n) y :=
      List.forall_mem_map.2 fun y hy => hs.append (hl y hy)
    have hcount : n * (x :: l).length + m * ((x :: l).length - 1) =
        n + (m + n) * (l.map (s ++ ·)).length := by
      simp only [List.length_cons, List.length_map, Nat.mul_succ, Nat.add_sub_cancel, Nat.add_mul]
      omega
    rw [hcount, intercalate_cons_eq]
    exact hx.append (join hrest)

end SelfContained

/-! ## Symbols and right sides -/

theorem selfContained_toString {s : Symbol} (hbackslash : s ≠ '\\') (hopen : s ≠ '\x7b')
    (hclose : s ≠ '\x7d') (hend : s ≠ '&') : SelfContained 0 s.toString := by
  intro depth ends
  simp [read?, Place.next?, hbackslash, hopen, hclose, hend]

theorem selfContained_escape (s : Symbol) : SelfContained 0 (escape s) := by
  refine .ite (fun hcommand => ?_) fun hcommand => ?_
  · simp only [List.mem_cons, List.not_mem_nil, or_false] at hcommand
    rcases hcommand with rfl | rfl | rfl | rfl | rfl | rfl | rfl <;> exact fun _ _ => rfl
  iterate 7 refine .ite (fun _ _ _ => rfl) fun _ => ?_
  refine .ite (fun _ _ _ => rfl) fun hbackslash => ?_
  simp only [List.mem_cons, List.not_mem_nil, or_false, not_or] at hcommand
  obtain ⟨hend, -, -, -, -, hopen, hclose⟩ := hcommand
  exact selfContained_toString hbackslash hopen hclose hend

/-- The opening text has one more group open at its end. -/
theorem selfContained_braces {n : Nat} {s : String} (opening : String)
    (hopening : ∀ depth ends, read? ⟨false, depth, ends⟩ opening.toList =
      some ⟨false, depth + 1, ends⟩) (h : SelfContained n s) :
    SelfContained n (opening ++ s ++ "\x7d") := by
  intro depth ends
  rw [String.toList_append, String.toList_append, read?_append, read?_append, hopening,
    Option.bind_some, h, Option.bind_some]
  rfl

theorem selfContained_text (s : Symbol) : SelfContained 0 (text s) :=
  selfContained_braces _ (fun _ _ => rfl) (selfContained_escape s)

theorem selfContained_symbol (terminals : SymbolSet) (s : Symbol) :
    SelfContained 0 (symbol terminals s) :=
  .ite (fun _ _ _ => rfl) fun _ =>
    .ite (fun _ => selfContained_text s) fun _ => selfContained_escape s

theorem selfContained_member (s : Symbol) : SelfContained 0 (member s) :=
  .ite (fun _ _ _ => rfl) fun _ => selfContained_escape s

theorem SelfContained.intercalate_plain {m : Nat} {s : String} {l : List String}
    (hs : SelfContained m s) (h : ∀ x ∈ l, SelfContained 0 x) :
    SelfContained (m * (l.length - 1)) (s.intercalate l) := by
  have hjoined := hs.intercalate h
  rwa [Nat.zero_mul, Nat.zero_add] at hjoined

theorem selfContained_rightSide (terminals : SymbolSet) (right : List Symbol) :
    SelfContained 0 (rightSide terminals right) := by
  have hsep : SelfContained 0 " \\ " := fun _ _ => rfl
  have hright := hsep.intercalate_plain (l := right.map (symbol terminals))
    (List.forall_mem_map.2 fun s _ => selfContained_symbol terminals s)
  rw [Nat.zero_mul] at hright
  exact .ite (fun _ _ _ => rfl) fun _ => hright

end Latex

open Latex

theorem RuleGroup.selfContained_latex {terminals : SymbolSet} {g : RuleGroup} (h : g.rights ≠ []) :
    SelfContained 2 (g.latex true terminals) := by
  have hsep : SelfContained 0 " \\mid " := fun _ _ => rfl
  have hrights := hsep.intercalate_plain (l := g.rights.map (rightSide terminals))
    (List.forall_mem_map.2 fun r _ => selfContained_rightSide terminals r)
  have harrow : SelfContained 2 " & \\rightarrow &" := fun _ _ => rfl
  rw [RuleGroup.latex, if_neg h, if_pos rfl]
  simpa using ((selfContained_escape g.left).append harrow).append hrights

theorem Summary.selfContained_latex (s : Summary) : SelfContained 3 s.latex := by
  have hlist (l : List Symbol) : SelfContained 0 ("\\ ".intercalate (l.map member)) := by
    have hsep : SelfContained 0 "\\ " := fun _ _ => rfl
    have hmembers := hsep.intercalate_plain (l := l.map member)
      (List.forall_mem_map.2 fun x _ => selfContained_member x)
    rwa [Nat.zero_mul] at hmembers
  have hbool (b : Bool) : SelfContained 0 (showBool b) := by
    cases b <;> exact fun _ _ => rfl
  have hsep : SelfContained 1 " & " := fun _ _ => rfl
  have hparts : ∀ x ∈ [escape s.name, showBool s.nullable, "\\ ".intercalate (s.first.map member),
      "\\ ".intercalate (s.follow.map member)], SelfContained 0 x := by
    simp only [List.forall_mem_cons]
    exact ⟨selfContained_escape s.name, hbool _, hlist _, hlist _, nofun⟩
  exact hsep.intercalate_plain hparts

namespace Grid

variable {g : Grid}

theorem selfContained_latexRow (row : Symbol × List (Option (List Symbol))) :
    SelfContained row.2.length (g.latexRow row) := by
  have hentry (e : Option (List Symbol)) : SelfContained 0 (g.latexEntry row.1 e) := by
    have harrow : SelfContained 0 " \\rightarrow " := fun _ _ => rfl
    cases e with
    | none => exact fun _ _ => rfl
    | some right =>
      exact ((selfContained_escape row.1).append harrow).append
        (selfContained_rightSide g.terminals right)
  have hsep : SelfContained 1 " & " := fun _ _ => rfl
  have hrow := hsep.intercalate_plain (l := escape row.1 :: row.2.map (g.latexEntry row.1))
    (List.forall_mem_cons.2 ⟨selfContained_escape row.1, List.forall_mem_map.2 fun e _ => hentry e⟩)
  simpa [latexRow] using hrow

theorem selfContained_latexOpening (g : Grid) : SelfContained 0 g.latexOpening := by
  have hcolumn : SelfContained 0 "|l" := fun _ _ => rfl
  have hcolumns := SelfContained.join (l := g.terminals.toList.map fun _ => "|l")
    (List.forall_mem_map.2 fun _ _ => hcolumn)
  rw [Nat.zero_mul] at hcolumns
  have hfeed : SelfContained 0 "\n" := fun _ _ => rfl
  have hlayout := selfContained_braces "\\[\\begin\x7barray\x7d\x7bc" (fun _ _ => rfl) hcolumns
  have hopening := hlayout.append hfeed
  rw [String.append_assoc] at hopening
  exact hopening

theorem selfContained_latexHeader (g : Grid) : SelfContained g.terminals.size g.latexHeader := by
  have hsep : SelfContained 1 " & " := fun _ _ => rfl
  have hheader := hsep.intercalate_plain (l := g.latexOpening :: g.terminals.toList.map text)
    (List.forall_mem_cons.2
      ⟨g.selfContained_latexOpening, List.forall_mem_map.2 fun s _ => selfContained_text s⟩)
  simpa [latexHeader, SymbolSet.size] using hheader

theorem declaresColumns_latexOpening (g : Grid) :
    DeclaresColumns (g.terminals.size + 1) g.latexOpening := by
  have hcount (l : List Symbol) : (String.join (l.map fun _ => "|l")).toList.countP
      (· ∈ ['l', 'c', 'r']) = l.length := by
    induction l with
    | nil => rfl
    | cons s l ih =>
      have hcolumn : "|l".toList.countP (· ∈ ['l', 'c', 'r']) = 1 := rfl
      rw [List.map_cons, String.join_cons, String.toList_append, List.countP_append, ih, hcolumn,
        List.length_cons, Nat.add_comm]
  refine ⟨"\\[\\begin\x7barray\x7d", "c" ++ String.join (g.terminals.toList.map fun _ => "|l"),
    "\n", ?_, by decide, ?_, ?_⟩
  · have hparts : g.latexOpening = ("\\[\\begin\x7barray\x7d" ++ "\x7b" ++ "c") ++
        String.join (g.terminals.toList.map fun _ => "|l") ++ ("\x7d" ++ "\n") := rfl
    rw [hparts]
    simp only [String.append_assoc]
  · simp [String.toList_join]
  · have hfirst : "c".toList.countP (· ∈ ['l', 'c', 'r']) = 1 := rfl
    rw [String.toList_append, List.countP_append, hcount, hfirst, Nat.add_comm]
    rfl

end Grid

/-! ## The three renderings -/

theorem Latex.shows_intercalate (gap : String) {l : List String}
    (hgap : gap ∈ ["\n", "\n ", "\\hline\n"]) : Shows l (("\\\\" ++ gap).intercalate l) := by
  induction l with
  | nil => exact .nil
  | cons x l ih =>
    cases l with
    | nil => exact String.intercalate_singleton ▸ .last
    | cons y l =>
      rw [String.intercalate_cons_cons, ← String.append_assoc]
      exact .more hgap ih

theorem Latex.DeclaresColumns.append {n : Nat} {text : String} (h : DeclaresColumns n text)
    (more : String) : DeclaresColumns n (text ++ more) := by
  obtain ⟨opening, layout, rest, rfl, hlayout⟩ := h
  exact ⟨opening, layout, rest ++ more, by simp only [String.append_assoc], hlayout⟩

theorem Latex.intercalate_enclosed (sep opening closing : String) (rows : List String) :
    sep.intercalate (opening :: rows ++ [closing]) =
      opening ++ (String.join (rows.map (sep ++ ·)) ++ (sep ++ closing)) := by
  rw [List.cons_append, intercalate_cons_eq, List.map_append, String.join_append]
  rfl

theorem Latex.exists_shown (opening closing : String) (rows : List String) :
    ∃ before body after, "\\\\\n".intercalate (opening :: rows ++ [closing]) =
      before ++ body ++ after ∧ Shows rows body := by
  rw [intercalate_enclosed]
  cases rows with
  | nil => exact ⟨opening, "", "\\\\\n" ++ closing, by simp, .nil⟩
  | cons row rows =>
    refine ⟨opening ++ "\\\\\n", "\\\\\n".intercalate (row :: rows), "\\\\\n" ++ closing, ?_,
      shows_intercalate "\n" (by decide)⟩
    simp only [intercalate_cons_eq, List.map_cons, String.join_cons, String.append_assoc]

theorem Latex.filled_of_selfContained {n : Nat} {lines : List String}
    (h : ∀ line ∈ lines, SelfContained n line) : ∀ line ∈ lines, columnEnds line + 1 = n + 1 :=
  fun line hline => congrArg (· + 1) (h line hline).columnEnds_eq

theorem Latex.tabular_of_rows (gap : String) {n : Nat} {opening header closing : String}
    {rows : List String} (hgap : gap ∈ ["\n", "\n "]) (hopening : SelfContained 0 opening)
    (hheader : SelfContained n header) (hrows : ∀ row ∈ rows, SelfContained n row)
    (hclosing : SelfContained 0 closing) (hcolumns : DeclaresColumns (n + 1) (opening ++ header)) :
    Tabular (n + 1) (header :: rows) (opening ++ header ++ "\\\\\\hline\n" ++
      ("\\\\" ++ gap).intercalate rows ++ closing) := by
  have hrule : SelfContained 0 "\\\\\\hline\n" := fun _ _ => rfl
  have hbreak : SelfContained 0 ("\\\\" ++ gap) := by
    simp only [List.mem_cons, List.not_mem_nil, or_false] at hgap
    rcases hgap with rfl | rfl <;> exact fun _ _ => rfl
  have htext := (((hopening.append hheader).append hrule).append (hbreak.intercalate hrows)).append
    hclosing
  refine ⟨?_, ?_, ?_, htext.balanced⟩
  · exact ((hcolumns.append _).append _).append _
  · have hgaps : gap ∈ ["\n", "\n "] ++ ["\\hline\n"] := List.mem_append_left _ hgap
    refine ⟨opening, header ++ "\\\\" ++ "\\hline\n" ++ ("\\\\" ++ gap).intercalate rows, closing,
      ?_, .more (by decide) (shows_intercalate gap hgaps)⟩
    have hsplit : "\\\\\\hline\n" = "\\\\" ++ "\\hline\n" := rfl
    rw [hsplit]
    simp only [String.append_assoc]
  · exact filled_of_selfContained (List.forall_mem_cons.2 ⟨hheader, hrows⟩)

namespace Grammar

theorem tabular_rules (g : Grammar) :
    Tabular 3 (g.ruleGroups.map (·.latex true g.terminals)) (g.displayRules .latex) := by
  have hline : ∀ line ∈ g.ruleGroups.map (·.latex true g.terminals), SelfContained 2 line :=
    List.forall_mem_map.2 fun group h => group.selfContained_latex (mem_ruleGroups.1 h).2
  have hopening : SelfContained 0 "\\[\\begin\x7barray\x7d\x7bcll\x7d" := fun _ _ => rfl
  have hcolumns : DeclaresColumns 3 "\\[\\begin\x7barray\x7d\x7bcll\x7d" :=
    ⟨"\\[\\begin\x7barray\x7d", "cll", "", rfl, by decide, by decide, by decide⟩
  have hclosing : SelfContained 0 "\\end\x7barray\x7d\\]" := fun _ _ => rfl
  have hbreak : SelfContained 0 "\\\\\n" := fun _ _ => rfl
  have hlines : ∀ x ∈ (g.ruleGroups.map (·.latex true g.terminals)).map ("\\\\\n" ++ ·),
      SelfContained 2 x :=
    List.forall_mem_map.2 fun line h => hbreak.append (hline line h)
  have htext : g.displayRules .latex = _ := intercalate_enclosed _ _ _ _
  refine ⟨?_, exists_shown _ _ _, filled_of_selfContained hline, ?_⟩
  · rw [htext]
    exact hcolumns.append _
  · rw [htext]
    exact (hopening.append ((SelfContained.join hlines).append (hbreak.append hclosing))).balanced

theorem tabular_sets (g : Grammar) :
    Tabular 4 (setsHeader :: g.summaries.map (·.latex)) (g.displaySets .latex) := by
  have hheader : SelfContained 3 setsHeader := fun _ _ => rfl
  have hline : ∀ line ∈ g.summaries.map (·.latex), SelfContained 3 line :=
    List.forall_mem_map.2 fun s _ => s.selfContained_latex
  have hopening : SelfContained 0 "\\begin\x7btabular\x7d\x7bc|c|c|c\x7d\n" := fun _ _ => rfl
  have hcolumns : DeclaresColumns 4 "\\begin\x7btabular\x7d\x7bc|c|c|c\x7d\n" :=
    ⟨"\\begin\x7btabular\x7d", "c|c|c|c", "\n", rfl, by decide, by decide, by decide⟩
  have hclosing : SelfContained 0 "\\\\\n\\end\x7btabular\x7d" := fun _ _ => rfl
  exact tabular_of_rows "\n " (by decide) hopening hheader hline hclosing
    (hcolumns.append _)

end Grammar

theorem Table.tabular_grid (t : Table) : Tabular (t.terminals.size + 1)
    (t.grid.latexHeader :: t.grid.rows.map t.grid.latexRow) (t.display .latex) := by
  have hempty : SelfContained 0 "" := fun _ _ => rfl
  have hclosing : SelfContained 0 "\n\\end\x7barray\x7d\\]" := fun _ _ => rfl
  have hrows : ∀ row ∈ t.grid.rows.map t.grid.latexRow, SelfContained t.terminals.size row := by
    refine List.forall_mem_map.2 fun row hrow => ?_
    obtain ⟨a, -, rfl⟩ := List.mem_map.1 hrow
    have hrow := t.grid.selfContained_latexRow (a, t.terminals.toList.map (t.get? a))
    rwa [List.length_map] at hrow
  have hcolumns : DeclaresColumns (t.terminals.size + 1) ("" ++ t.grid.latexHeader) := by
    rw [String.empty_append, Grid.latexHeader, intercalate_cons_eq]
    exact t.grid.declaresColumns_latexOpening.append _
  have htext := tabular_of_rows "\n" (by decide) hempty t.grid.selfContained_latexHeader
    hrows hclosing hcolumns
  rw [String.empty_append] at htext
  exact htext

theorem latex_tables_unbroken :
    (∀ g : Grammar,
      Tabular 3 (g.ruleGroups.map (·.latex true g.terminals)) (g.displayRules .latex) ∧
      Tabular 4 (Grammar.setsHeader :: g.summaries.map (·.latex)) (g.displaySets .latex)) ∧
    ∀ t : Table, Tabular (t.terminals.size + 1)
      (t.grid.latexHeader :: t.grid.rows.map t.grid.latexRow) (t.display .latex) :=
  ⟨fun g => ⟨g.tabular_rules, g.tabular_sets⟩, fun t => t.tabular_grid⟩

end PredictiveParsing
