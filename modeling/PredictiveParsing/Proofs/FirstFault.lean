import Mathlib.Data.List.Forall2
import PredictiveParsing.Proofs.LineFaults
import PredictiveParsing.Proofs.ListCut

/-!
# The first fault in a text

A text is read up to its first bad line. If there is none, the productions that its lines say make
up a grammar but for reserved symbols among them: the alphabets are taken from the productions, so
they declare every symbol and do not overlap (`ofProductions_of_reserved`, `ofProductions_of_free`).
-/
namespace PredictiveParsing

/-! ## Reading lines -/

namespace Production

open Line (Blank Bad Faulty Says)

variable {n : Nat} {ls before after : List (List Char)} {line : List Char} {fault : LineFault}
  {ps : List Production}

theorem exists_ofLines (h : ∀ l ∈ ls, ¬ Bad l) :
    ∃ ps, List.Forall₂ Says (ls.filter (¬ Blank ·)) ps ∧ ∀ n, ofLines n ls = .ok ps := by
  induction ls with
  | nil => exact ⟨[], .nil, fun _ => rfl⟩
  | cons l ls ih =>
    obtain ⟨hl, hls⟩ := List.forall_mem_cons.1 h
    obtain ⟨ps, hps, hread⟩ := ih hls
    by_cases hblank : Blank l
    · refine ⟨ps, ?_, fun n => ?_⟩
      · rwa [List.filter_cons_of_neg (by simpa using hblank)]
      · rw [ofLines, Line.ofLine_of_blank hblank]
        exact hread (n + 1)
    · obtain ⟨p, hp⟩ := Line.exists_said hl hblank
      refine ⟨p :: ps, ?_, fun n => ?_⟩
      · rw [List.filter_cons_of_pos (by simpa using hblank)]
        exact .cons hp hps
      · rw [ofLines, hp.ofLine_eq, hread (n + 1)]
        rfl

theorem ofLines_of_fault (hbefore : ∀ l ∈ before, ¬ Bad l) (hline : Faulty line fault) (n : Nat) :
    ofLines n (before ++ line :: after) = .error (.badLine (n + before.length) fault) := by
  induction before generalizing n with
  | nil =>
    rw [List.nil_append, ofLines, hline.ofLine_eq]
    rfl
  | cons l before ih =>
    obtain ⟨hl, hbefore⟩ := List.forall_mem_cons.1 hbefore
    have hnumber : n + 1 + before.length = n + (l :: before).length := by
      rw [List.length_cons]
      omega
    have hrest := hnumber ▸ ih hbefore (n + 1)
    by_cases hblank : Blank l
    · rw [List.cons_append, ofLines, Line.ofLine_of_blank hblank]
      exact hrest
    · obtain ⟨p, hp⟩ := Line.exists_said hl hblank
      rw [List.cons_append, ofLines, hp.ofLine_eq, hrest]
      rfl

end Production

/-! ## Reading a text -/

namespace Grammar

open Line (Blank Bad Faulty Says)

variable {p : Production} {ps rest : List Production}

theorem mem_alphabets_ofProductions {s start : Symbol} :
    s ∈ (Presentation.ofProductions start ps).terminals.toList ++
        (Presentation.ofProductions start ps).nonTerminals.toList ↔
      ∃ q ∈ ps, s ∈ q.left :: q.right := by
  simp only [List.mem_append, SymbolSet.mem_toList, mem_terminals_ofProductions,
    mem_nonTerminals_ofProductions, List.mem_cons]
  constructor
  · rintro (⟨⟨q, hq, hs⟩, -⟩ | ⟨q, hq, hs⟩)
    · exact ⟨q, hq, .inr hs⟩
    · exact ⟨q, hq, .inl hs.symm⟩
  · rintro ⟨q, hq, hs⟩
    by_cases hleft : ∃ r ∈ ps, r.left = s
    · exact .inr hleft
    · refine .inl ⟨⟨q, hq, hs.resolve_left fun e => hleft ⟨q, hq, e.symm⟩⟩, fun r hr e => ?_⟩
      exact hleft ⟨r, hr, e⟩

/-- A reserved symbol is found before anything else, since the alphabets do not overlap. -/
theorem ofProductions_of_reserved
    (h : ∃ q ∈ p :: rest, ∃ s ∈ q.left :: q.right, s ∈ [endMark, epsilon]) :
    ∃ s ∈ [endMark, epsilon], (∃ q ∈ p :: rest, s ∈ q.left :: q.right) ∧
      ofProductions (p :: rest) = .error (.malformed (.reserved s)) := by
  obtain ⟨q, hq, s, hs, hreserved⟩ := h
  let g := Presentation.ofProductions p.left (p :: rest)
  have hoverlap : g.terminals.toList.find? (· ∈ g.nonTerminals) = none := by
    rw [List.find?_eq_none]
    intro t ht hn
    obtain ⟨-, hfree⟩ := mem_terminals_ofProductions.1 (SymbolSet.mem_toList.1 ht)
    obtain ⟨r, hr, hleft⟩ := mem_nonTerminals_ofProductions.1 (of_decide_eq_true hn)
    exact hfree r hr hleft
  cases hfind : (g.terminals.toList ++ g.nonTerminals.toList).find? (· ∈ [endMark, epsilon]) with
  | none =>
    have hmem : s ∈ g.terminals.toList ++ g.nonTerminals.toList :=
      mem_alphabets_ofProductions.2 ⟨q, hq, hs⟩
    exact absurd (decide_eq_true hreserved) (List.find?_eq_none.1 hfind s hmem)
  | some s' =>
    have hreserved' := List.find?_some hfind
    have hfault : g.fault? = some (.reserved s') := by
      simp only [Presentation.fault?, alphabetFault?, hoverlap, hfind]
      rfl
    exact ⟨s', of_decide_eq_true hreserved',
      mem_alphabets_ofProductions.1 (List.mem_of_find?_eq_some hfind), build_of_fault hfault⟩

theorem ofProductions_of_free
    (h : ∀ q ∈ p :: rest, ∀ s ∈ q.left :: q.right, s ∉ [endMark, epsilon]) :
    ∃ g, ofProductions (p :: rest) = .ok g ∧ g.productions = p :: rest ∧ g.start = p.left ∧
      (∀ s, s ∈ g.nonTerminals ↔ ∃ q ∈ p :: rest, q.left = s) ∧
      ∀ s, s ∈ g.terminals ↔ (∃ q ∈ p :: rest, s ∈ q.right) ∧ ∀ q ∈ p :: rest, q.left ≠ s := by
  refine ⟨⟨_, wellFormed_ofProductions h⟩, ?_, rfl, rfl, fun s => mem_nonTerminals_ofProductions,
    fun s => mem_terminals_ofProductions⟩
  exact ofProductions_eq_ok_iff.2 ⟨p, rest, rfl, rfl⟩

theorem exists_read_of_bad {text : String} (h : ∃ line ∈ lines text.toList, Bad line) :
    ∃ before line after fault, lines text.toList = before ++ line :: after ∧
      (∀ l ∈ before, ¬ Bad l) ∧ Bad line ∧ Faulty line fault ∧
      read text = .error (.badLine (before.length + 1) fault) := by
  obtain ⟨before, line, after, hlines, hbefore, hline⟩ := exists_cut_at_first h
  obtain ⟨fault, hfault⟩ := Line.exists_faulty hline
  refine ⟨before, line, after, fault, hlines, hbefore, hline, hfault, ?_⟩
  rw [read, hlines, Production.ofLines_of_fault hbefore hfault, Nat.add_comm]
  rfl

theorem exists_read_of_good {text : String} (h : ∀ line ∈ lines text.toList, ¬ Bad line) :
    ∃ ps, List.Forall₂ Says ((lines text.toList).filter (¬ Blank ·)) ps ∧
      read text = ofProductions ps := by
  obtain ⟨ps, hsays, hlines⟩ := Production.exists_ofLines h
  refine ⟨ps, hsays, ?_⟩
  rw [read, hlines]
  rfl

theorem error_of_ofProductions {e : Error} (h : ofProductions ps = .error e) :
    e = .malformed .noProductions ∨ ∃ s ∈ [endMark, epsilon], e = .malformed (.reserved s) := by
  cases ps with
  | nil =>
    cases h
    exact .inl rfl
  | cons p rest =>
    by_cases hreserved : ∃ q ∈ p :: rest, ∃ s ∈ q.left :: q.right, s ∈ [endMark, epsilon]
    · obtain ⟨s, hs, -, herror⟩ := ofProductions_of_reserved hreserved
      cases herror.symm.trans h
      exact .inr ⟨s, hs, rfl⟩
    · have hfree : ∀ q ∈ p :: rest, ∀ s ∈ q.left :: q.right, s ∉ [endMark, epsilon] :=
        fun q hq s hs hr => hreserved ⟨q, hq, s, hs, hr⟩
      obtain ⟨g, hg, -⟩ := ofProductions_of_free hfree
      cases hg.symm.trans h

/-- The first bad line with its fault; without one, the lines that are not blank say productions, of
which there are none, or some with a reserved symbol, or those of the grammar that is read. -/
theorem read_accepts_notation (text : String) :
    (∀ ls, Line.Cut text.toList ls ↔ lines text.toList = ls) ∧
    ((∃ line ∈ lines text.toList, Bad line) →
      ∃ before line after fault, lines text.toList = before ++ line :: after ∧
        (∀ l ∈ before, ¬ Bad l) ∧ Bad line ∧ Faulty line fault ∧
        read text = .error (.badLine (before.length + 1) fault)) ∧
    ((∀ line ∈ lines text.toList, ¬ Bad line) →
      ((∀ line ∈ lines text.toList, Blank line) →
        read text = .error (.malformed .noProductions)) ∧
      ((∃ line ∈ lines text.toList, ¬ Blank line) →
        ∃ ps, List.Forall₂ Says ((lines text.toList).filter (¬ Blank ·)) ps ∧
          ((∃ q ∈ ps, ∃ s ∈ q.left :: q.right, s ∈ [endMark, epsilon]) →
            ∃ s ∈ [endMark, epsilon], (∃ q ∈ ps, s ∈ q.left :: q.right) ∧
              read text = .error (.malformed (.reserved s))) ∧
          ((∀ q ∈ ps, ∀ s ∈ q.left :: q.right, s ∉ [endMark, epsilon]) →
            ∃ g, read text = .ok g ∧ g.productions = ps ∧
              ps.head?.map Production.left = some g.start ∧
              (∀ s, s ∈ g.nonTerminals ↔ ∃ q ∈ ps, q.left = s) ∧
              ∀ s, s ∈ g.terminals ↔ (∃ q ∈ ps, s ∈ q.right) ∧ ∀ q ∈ ps, q.left ≠ s))) ∧
    ∀ e, read text = .error e →
      (∃ number fault, e = .badLine number fault) ∨ e = .malformed .noProductions ∨
        ∃ s ∈ [endMark, epsilon], e = .malformed (.reserved s) := by
  refine ⟨fun _ => Line.cut_iff, exists_read_of_bad,
    fun hgood => ⟨fun hblank => ?_, fun hvisible => ?_⟩, fun e he => ?_⟩
  · obtain ⟨ps, hsays, hread⟩ := exists_read_of_good hgood
    have hnone : (lines text.toList).filter (¬ Blank ·) = [] :=
      List.filter_eq_nil_iff.2 fun line hline => by simpa using hblank line hline
    rw [hnone] at hsays
    cases hsays
    exact hread
  · obtain ⟨ps, hsays, hread⟩ := exists_read_of_good hgood
    obtain ⟨line, hline, hv⟩ := hvisible
    have hmem : line ∈ (lines text.toList).filter (¬ Blank ·) :=
      List.mem_filter.2 ⟨hline, decide_eq_true hv⟩
    cases ps with
    | nil =>
      rw [List.forall₂_nil_right_iff.1 hsays] at hmem
      exact absurd hmem List.not_mem_nil
    | cons p rest =>
      refine ⟨p :: rest, hsays, fun hreserved => ?_, fun hfree => ?_⟩
      · rw [hread]
        exact ofProductions_of_reserved hreserved
      · rw [hread]
        obtain ⟨g, hg, hproductions, hstart, halphabets⟩ := ofProductions_of_free hfree
        exact ⟨g, hg, hproductions, congrArg some hstart.symm, halphabets⟩
  · by_cases hbad : ∃ line ∈ lines text.toList, Bad line
    · obtain ⟨before, line, after, fault, -, -, -, -, herror⟩ := exists_read_of_bad hbad
      cases herror.symm.trans he
      exact .inl ⟨_, _, rfl⟩
    · obtain ⟨ps, -, hread⟩ := exists_read_of_good fun line hline hb => hbad ⟨line, hline, hb⟩
      exact .inr (error_of_ofProductions (hread.symm.trans he))

/-- Four texts: the third line is the first bad one, all lines are blank, a symbol is reserved, and
the parts of an arrow come together only without the blank between them. -/
theorem read_accepts_notation_of_four_texts :
    (∃ before line after fault,
      lines "S -> a\r\n\nS a -> x\n->".toList = before ++ line :: after ∧
        (∀ l ∈ before, ¬ Bad l) ∧ Bad line ∧ Faulty line fault ∧
        read "S -> a\r\n\nS a -> x\n->" = .error (.badLine (before.length + 1) fault)) ∧
    read "S -> a\r\n\nS a -> x\n->" = .error (.badLine 3 (.longLeft ['S', ' ', 'a'])) ∧
    read " \n\t" = .error (.malformed .noProductions) ∧
    (∃ s ∈ [endMark, epsilon], read "S -> ε" = .error (.malformed (.reserved s))) ∧
    ∃ g, read "S -> - >\n\nS->" = .ok g ∧ g.productions = [⟨'S', ['-', '>']⟩, ⟨'S', []⟩] := by
  obtain ⟨-, hbad, -⟩ := read_accepts_notation "S -> a\r\n\nS a -> x\n->"
  obtain ⟨-, -, hblank, -⟩ := read_accepts_notation " \n\t"
  obtain ⟨-, -, hreserved, -⟩ := read_accepts_notation "S -> ε"
  obtain ⟨-, -, hgood, -⟩ := read_accepts_notation "S -> - >\n\nS->"
  refine ⟨hbad ⟨"S a -> x".toList, by decide, by decide⟩, rfl,
    (hblank (by decide)).1 (by decide), ?_, ?_⟩
  · obtain ⟨ps, hsays, herror, -⟩ := (hreserved (by decide)).2 (by decide)
    have hlines : (lines "S -> ε".toList).filter (¬ Blank ·) = ["S -> ε".toList] := by decide
    rw [hlines] at hsays
    cases hsays with
    | cons hp hnone =>
      have hread := hp.eq_of_ofLine ⟨'S', ['ε']⟩ rfl
      obtain ⟨s, hs, -, herror⟩ :=
        herror ⟨_, List.mem_cons_self, 'ε', by rw [hread]; decide, by decide⟩
      exact ⟨s, hs, herror⟩
  · obtain ⟨ps, hsays, -, hfree⟩ := (hgood (by decide)).2 (by decide)
    have hlines : (lines "S -> - >\n\nS->".toList).filter (¬ Blank ·) =
        ["S -> - >".toList, "S->".toList] := by decide
    rw [hlines] at hsays
    cases hsays with
    | cons hp hsays =>
      cases hsays with
      | cons hq hnone =>
        cases hnone
        rw [hp.eq_of_ofLine ⟨'S', ['-', '>']⟩ rfl,
          hq.eq_of_ofLine ⟨'S', []⟩ rfl] at hfree
        obtain ⟨g, hread, hproductions, -⟩ := hfree (by simp [endMark, epsilon])
        exact ⟨g, hread, hproductions⟩

end Grammar

end PredictiveParsing
