import PredictiveParsing.Grammar.Text

/-!
# Reading what was written

A written production holds one arrow, the one behind its left side: its other characters are single
symbols with a blank beside each, so that a hyphen and a bracket that are symbols themselves never
come together (`arrowPieces_write`). Blanks are taken away again, and no line is lost or cut in two
(`lines_write`). So writing productions and reading the text gives the grammar of these productions
(`read_write`). What has been read from any text can be written, since reading leaves no blank in a
production (`visible_of_ofLines`).
-/
namespace PredictiveParsing

/-! ## Blanks between symbols -/

theorem isBlank_space : isBlank ' ' = true := by decide

theorem filter_intersperse_space {l : List Symbol} (h : ∀ s ∈ l, isBlank s = false) :
    (l.intersperse ' ').filter (fun c => !isBlank c) = l := by
  induction l with
  | nil => rfl
  | cons a l ih =>
    obtain ⟨ha, hl⟩ := List.forall_mem_cons.1 h
    cases l with
    | nil => simp [ha]
    | cons b l =>
      rw [List.intersperse_cons_cons, List.filter_cons_of_pos (by simp [ha]),
        List.filter_cons_of_neg (by simp [isBlank_space]), ih hl]

theorem mem_intersperse_space {l : List Symbol} {c : Char} (h : c ∈ l.intersperse ' ') :
    c = ' ' ∨ c ∈ l := by
  induction l with
  | nil => exact absurd h List.not_mem_nil
  | cons a l ih =>
    cases l with
    | nil => exact .inr h
    | cons b l =>
      simp only [List.intersperse_cons_cons, List.mem_cons] at h ih ⊢
      rcases h with rfl | rfl | h
      · exact .inr (.inl rfl)
      · exact .inl rfl
      · exact (ih h).imp_right .inr

theorem trimBlanks_space {a : Symbol} (h : isBlank a = false) : trimBlanks [a, ' '] = [a] := by
  simp [trimBlanks, h, isBlank_space]

/-! ## Arrows -/

theorem arrowPieces_cons {c : Char} {l : List Char} (h : c = '-' → l.head? ≠ some '>') :
    arrowPieces (c :: l) = (c :: (arrowPieces l).1, (arrowPieces l).2) := by
  rw [arrowPieces]
  intro rest hc hl
  exact h hc (by rw [hl]; rfl)

/-- A symbol with a blank behind it is no part of an arrow. -/
theorem arrowPieces_cons_space {c : Char} {l : List Char} :
    arrowPieces (c :: ' ' :: l) = (c :: ' ' :: (arrowPieces l).1, (arrowPieces l).2) := by
  rw [arrowPieces_cons fun _ => by simp, arrowPieces_cons fun h => absurd h (by decide)]

theorem arrowPieces_intersperse_space (l : List Symbol) :
    arrowPieces (l.intersperse ' ') = (l.intersperse ' ', []) := by
  induction l with
  | nil => rfl
  | cons a l ih =>
    cases l with
    | nil =>
      rw [List.intersperse_singleton, arrowPieces_cons fun _ => by simp]
      rfl
    | cons b l => rw [List.intersperse_cons_cons, arrowPieces_cons_space, ih]

namespace Production

variable {p : Production} {ps : List Production}

theorem arrowPieces_write :
    arrowPieces p.write = ([p.left, ' '], [' ' :: p.right.intersperse ' ']) := by
  rw [write, arrowPieces_cons_space, arrowPieces, arrowPieces_cons fun h => absurd h (by decide),
    arrowPieces_intersperse_space]

/-! ## Lines -/

def Visible (p : Production) : Prop := ∀ s ∈ p.left :: p.right, isBlank s = false

theorem ofLine_write (h : p.Visible) : ofLine p.write = .ok (some p) := by
  obtain ⟨hleft, hright⟩ := List.forall_mem_cons.1 h
  have hblank : p.write.all isBlank = false := by simp [write, hleft]
  rw [ofLine, hblank, arrowPieces_write]
  simp [trimBlanks_space hleft, isBlank_space, filter_intersperse_space hright]

theorem no_line_end_in_write (h : p.Visible) : ∀ c ∈ p.write, c ≠ '\n' ∧ c ≠ '\r' := by
  have hvisible : ∀ c, isBlank c = false → c ≠ '\n' ∧ c ≠ '\r' := by
    intro c hc
    constructor
    · rintro rfl
      exact absurd hc (by decide)
    · rintro rfl
      exact absurd hc (by decide)
  obtain ⟨hleft, hright⟩ := List.forall_mem_cons.1 h
  have hspaced : ∀ c ∈ p.right.intersperse ' ', c ≠ '\n' ∧ c ≠ '\r' := by
    intro c hc
    rcases mem_intersperse_space hc with rfl | hc
    · decide
    · exact hvisible c (hright c hc)
  simp only [write, List.forall_mem_cons]
  exact ⟨hvisible _ hleft, by decide, by decide, by decide, by decide, hspaced⟩

theorem lines_write (h : ∀ p ∈ ps, p.Visible) :
    lines (ps.flatMap fun p => p.write ++ ['\n']) = ps.map write := by
  induction ps with
  | nil => rfl
  | cons p ps ih =>
    obtain ⟨hp, hps⟩ := List.forall_mem_cons.1 h
    have hfeed : '\n' ∉ p.write := fun hc => (no_line_end_in_write hp _ hc).1 rfl
    have hreturn : p.write.getLast? ≠ some '\r' := fun hc =>
      (no_line_end_in_write hp _ (List.mem_of_getLast? hc)).2 rfl
    rw [List.flatMap_cons, List.append_assoc, List.singleton_append, lines_feed hfeed hreturn,
      ih hps, List.map_cons]

theorem ofLines_write (h : ∀ p ∈ ps, p.Visible) (n : Nat) : ofLines n (ps.map write) = .ok ps := by
  induction ps generalizing n with
  | nil => rfl
  | cons p ps ih =>
    obtain ⟨hp, hps⟩ := List.forall_mem_cons.1 h
    simp only [List.map_cons, ofLines, ofLine_write hp, ih hps, Except.map]

/-! ## What has been read -/

theorem not_isBlank_of_trimBlanks {l : List Char} {a : Symbol} (h : trimBlanks l = [a]) :
    isBlank a = false := by
  have hkept : (l.dropWhile isBlank).reverse.dropWhile isBlank = [a] := by
    rw [← List.reverse_reverse (List.dropWhile _ _)]
    exact congrArg List.reverse h
  have hhead := List.head?_dropWhile_not isBlank (l.dropWhile isBlank).reverse
  rw [hkept] at hhead
  simpa using hhead

theorem visible_of_ofLine {line : List Char} (h : ofLine line = .ok (some p)) : p.Visible := by
  unfold ofLine at h
  split at h
  · cases h
  · split at h
    · cases h
    · next left right _ =>
      split at h
      · cases h
      · next a ha =>
        cases h
        refine List.forall_mem_cons.2 ⟨not_isBlank_of_trimBlanks ha, fun s hs => ?_⟩
        simpa using (List.mem_filter.1 hs).2
      · cases h
    · cases h

theorem visible_of_ofLines {n : Nat} {ls : List (List Char)} (h : ofLines n ls = .ok ps) :
    ∀ p ∈ ps, p.Visible := by
  induction ls generalizing n ps with
  | nil =>
    cases h
    exact fun p hp => absurd hp List.not_mem_nil
  | cons line ls ih =>
    rw [ofLines] at h
    cases hline : ofLine line with
    | error fault =>
      rw [hline] at h
      cases h
    | ok read =>
      rw [hline] at h
      cases read with
      | none => exact ih h
      | some p =>
        cases hrest : ofLines (n + 1) ls with
        | error e =>
          simp only [hrest, Except.map] at h
          cases h
        | ok rest =>
          simp only [hrest, Except.map] at h
          cases h
          exact List.forall_mem_cons.2 ⟨visible_of_ofLine hline, ih hrest⟩

end Production

namespace Grammar

variable {g : Grammar} {p : Production} {ps : List Production}

theorem read_write_eq (h : ∀ p ∈ ps, p.Visible) : read (write ps) = ofProductions ps := by
  rw [read, write, String.toList_ofList, Production.lines_write h, Production.ofLines_write h]
  rfl

theorem exists_ofProductions_of_read {text : String} (h : read text = .ok g) :
    ∃ ps, (∀ p ∈ ps, p.Visible) ∧ ofProductions ps = .ok g := by
  unfold read at h
  cases hlines : Production.ofLines 1 (lines text.toList) with
  | error e =>
    rw [hlines] at h
    cases h
  | ok ps =>
    rw [hlines] at h
    exact ⟨ps, Production.visible_of_ofLines hlines, h⟩

theorem ofProductions_eq_ok_iff :
    ofProductions ps = .ok g ↔
      ∃ p rest, ps = p :: rest ∧ g.toPresentation = .ofProductions p.left ps := by
  cases ps with
  | nil => exact iff_of_false nofun fun ⟨_, _, h, _⟩ => nomatch h
  | cons p rest =>
    rw [ofProductions, build_eq_ok_iff]
    constructor
    · exact fun h => ⟨p, rest, rfl, h⟩
    · rintro ⟨_, _, he, h⟩
      cases he
      exact h

theorem mem_nonTerminals_ofProductions {s start : Symbol} :
    s ∈ (Presentation.ofProductions start ps).nonTerminals ↔ ∃ q ∈ ps, q.left = s := by
  simp [Presentation.ofProductions]

theorem mem_terminals_ofProductions {s start : Symbol} :
    s ∈ (Presentation.ofProductions start ps).terminals ↔
      (∃ q ∈ ps, s ∈ q.right) ∧ ∀ q ∈ ps, q.left ≠ s := by
  simp [Presentation.ofProductions]

theorem wellFormed_ofProductions
    (h : ∀ q ∈ p :: ps, ∀ s ∈ q.left :: q.right, s ∉ [endMark, epsilon]) :
    (Presentation.ofProductions p.left (p :: ps)).WellFormed := by
  refine ⟨⟨fun s hs hn => ?_, fun s hs => ?_, fun s hs => ?_⟩, ?_, fun q hq => ?_,
    fun q hq s hs => ?_⟩
  · obtain ⟨-, hfree⟩ := mem_terminals_ofProductions.1 hs
    obtain ⟨q, hq, hleft⟩ := mem_nonTerminals_ofProductions.1 hn
    exact hfree q hq hleft
  · obtain ⟨⟨q, hq, hright⟩, -⟩ := mem_terminals_ofProductions.1 hs
    exact h q hq s (List.mem_cons_of_mem _ hright)
  · obtain ⟨q, hq, rfl⟩ := mem_nonTerminals_ofProductions.1 hs
    exact h q hq _ List.mem_cons_self
  · exact mem_nonTerminals_ofProductions.2 ⟨p, List.mem_cons_self, rfl⟩
  · exact mem_nonTerminals_ofProductions.2 ⟨q, hq, rfl⟩
  · by_cases hn : ∃ q ∈ p :: ps, q.left = s
    · exact .inr (mem_nonTerminals_ofProductions.2 hn)
    · refine .inl (mem_terminals_ofProductions.2 ⟨⟨q, hq, hs⟩, fun r hr he => hn ⟨r, hr, he⟩⟩)

theorem read_write :
    (∀ ps : List Production, ps ≠ [] →
      (∀ q ∈ ps, ∀ s ∈ q.left :: q.right, isBlank s = false ∧ s ∉ [endMark, epsilon]) →
      ∃ g, read (write ps) = .ok g ∧ g.productions = ps ∧
        ps.head?.map Production.left = some g.start ∧
        (∀ s, s ∈ g.nonTerminals ↔ ∃ q ∈ ps, q.left = s) ∧
        ∀ s, s ∈ g.terminals ↔ (∃ q ∈ ps, s ∈ q.right) ∧ ∀ q ∈ ps, q.left ≠ s) ∧
    ∀ text g, read text = .ok g → read (write g.productions) = .ok g := by
  constructor
  · intro ps hne h
    obtain ⟨p, rest, rfl⟩ := List.exists_cons_of_ne_nil hne
    have hvisible : ∀ q ∈ p :: rest, q.Visible := fun q hq s hs => (h q hq s hs).1
    have hwf := wellFormed_ofProductions fun q hq s hs => (h q hq s hs).2
    refine ⟨⟨_, hwf⟩, ?_, rfl, rfl, fun s => mem_nonTerminals_ofProductions,
      fun s => mem_terminals_ofProductions⟩
    rw [read_write_eq hvisible]
    exact ofProductions_eq_ok_iff.2 ⟨p, rest, rfl, rfl⟩
  · intro text g h
    obtain ⟨ps, hvisible, hps⟩ := exists_ofProductions_of_read h
    obtain ⟨p, rest, rfl, hg⟩ := ofProductions_eq_ok_iff.1 hps
    have hproductions : g.productions = p :: rest := congrArg Presentation.productions hg
    rw [hproductions, read_write_eq hvisible, hps]

/-- Two productions in which the parts of an arrow and a bar are symbols, and a text with blanks and
empty lines between such productions. -/
theorem read_write_arrow_symbols :
    (∃ g, read "- -> > |\n- -> \n" = .ok g ∧ g.productions = [⟨'-', ['>', '|']⟩, ⟨'-', []⟩] ∧
      g.start = '-') ∧
    ∃ g, read "\n  S -> - >S \n\n  S->\n" = .ok g ∧
      write g.productions = "S -> - > S\nS -> \n" ∧ read "S -> - > S\nS -> \n" = .ok g := by
  obtain ⟨hwritten, hread⟩ := read_write
  constructor
  · have hsymbols : ∀ q ∈ ([⟨'-', ['>', '|']⟩, ⟨'-', []⟩] : List Production),
        ∀ s ∈ q.left :: q.right, isBlank s = false ∧ s ∉ [endMark, epsilon] := by
      simp only [List.forall_mem_cons, List.not_mem_nil, false_implies, implies_true, and_true]
      decide
    obtain ⟨g, hg, hproductions, hstart, -⟩ := hwritten _ (by decide) hsymbols
    exact ⟨g, hg, hproductions, (Option.some.inj hstart).symm⟩
  · let ps : List Production := [⟨'S', ['-', '>', 'S']⟩, ⟨'S', []⟩]
    have hwf : (Presentation.ofProductions 'S' ps).WellFormed :=
      Presentation.fault?_eq_none_iff.1 (by decide)
    have hg : ∃ g, read "\n  S -> - >S \n\n  S->\n" = .ok g ∧ g.productions = ps :=
      ⟨⟨_, hwf⟩, rfl, rfl⟩
    obtain ⟨g, hg, hproductions⟩ := hg
    have hagain := hread _ g hg
    rw [hproductions] at hagain
    exact ⟨g, hg, congrArg write hproductions, hagain⟩

end Grammar

end PredictiveParsing
