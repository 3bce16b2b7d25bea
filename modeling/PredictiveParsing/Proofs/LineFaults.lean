import PredictiveParsing.Proofs.Notation

/-!
# What a line says

A text is cut into lines (`cut_iff`), and a line is told by the number of its arrows and by what
stands before the only one: it is blank, it has a fault, or it says one production. None of this
cuts the line up, as reading does, but reading finds out the same (`ofLine_of_blank`,
`Faulty.ofLine_eq`, `Says.ofLine_eq`), and these are all the cases there are (`exists_faulty`,
`exists_said`).
-/
namespace PredictiveParsing

namespace Line

/-! ## Kinds of lines -/

def Blank (text : List Char) : Prop := ∀ c ∈ text, isBlank c = true

instance (text : List Char) : Decidable (Blank text) :=
  decidable_of_iff (text.all isBlank = true) List.all_eq_true

def arrows (line : List Char) : Nat := (line.zip line.tail).count ('-', '>')

structure Trims (text core : List Char) : Prop where
  blanks_around : ∃ u v, text = u ++ core ++ v ∧ Blank u ∧ Blank v
  head_visible : ∀ c, core.head? = some c → isBlank c = false
  last_visible : ∀ c, core.getLast? = some c → isBlank c = false

def Bad (line : List Char) : Prop :=
  ¬ Blank line ∧ (arrows line ≠ 1 ∨
    ∃ left right core, line = left ++ '-' :: '>' :: right ∧ Trims left core ∧ core.length ≠ 1)

/-- What is wrong with a line, the number of arrows before the left side. -/
inductive Faulty (line : List Char) : LineFault → Prop where
  | noArrow : ¬ Blank line → arrows line = 0 → Faulty line .noArrow
  | manyArrows : 2 ≤ arrows line → Faulty line .manyArrows
  | noLeft {left right : List Char} : arrows line = 1 → line = left ++ '-' :: '>' :: right →
      Trims left [] → Faulty line .noLeft
  | longLeft {left right core : List Char} : arrows line = 1 →
      line = left ++ '-' :: '>' :: right → Trims left core → 2 ≤ core.length →
      Faulty line (.longLeft core)

inductive Says (line : List Char) : Production → Prop where
  | production {left right : List Char} {a : Symbol} : arrows line = 1 →
      line = left ++ '-' :: '>' :: right → Trims left [a] →
      Says line ⟨a, right.filter fun c => !isBlank c⟩

/-- A text cut into lines: a line feed ends one, and a carriage return right before it belongs to
the end. -/
inductive Cut : List Char → List (List Char) → Prop where
  | nil : Cut [] []
  | unended {line : List Char} : line ≠ [] → '\n' ∉ line → Cut line [line]
  | feed {line rest : List Char} {ls : List (List Char)} : '\n' ∉ line →
      line.getLast? ≠ some '\r' → Cut rest ls → Cut (line ++ '\n' :: rest) (line :: ls)
  | returnFeed {line rest : List Char} {ls : List (List Char)} : '\n' ∉ line → Cut rest ls →
      Cut (line ++ '\r' :: '\n' :: rest) (line :: ls)

variable {line left right text core rest : List Char} {fault : LineFault} {p : Production}

/-! ## Lines -/

theorem cut_lines (text : List Char) : Cut text (lines text) := by
  fun_induction lines text with
  | case1 => exact .nil
  | case2 rest ih => exact .feed List.not_mem_nil nofun ih
  | case3 rest ih => exact .returnFeed List.not_mem_nil ih
  | case4 c rest hc hr hrest ih =>
    rw [hrest] at ih
    cases ih
    refine .unended (List.cons_ne_nil c []) fun h => ?_
    exact hc (List.mem_singleton.1 h).symm
  | case5 c rest hc hr line more hrest ih =>
    rw [hrest] at ih
    have hcons : ∀ l, '\n' ∉ l → '\n' ∉ c :: l := fun l hl h =>
      hl ((List.mem_cons.1 h).resolve_left (Ne.symm hc))
    cases ih with
    | unended hne hline => exact .unended (List.cons_ne_nil c rest) (hcons _ hline)
    | feed hline hlast hcut =>
      refine .feed (hcons _ hline) ?_ hcut
      cases line with
      | nil => exact fun h => hr _ (Option.some.inj h) rfl
      | cons d line => rwa [List.getLast?_cons_cons]
    | returnFeed hline hcut => exact .returnFeed (hcons _ hline) hcut

theorem cut_iff {ls : List (List Char)} : Cut text ls ↔ lines text = ls := by
  constructor
  · intro h
    induction h with
    | nil => rw [lines]
    | unended hne hline => exact lines_unended hne hline
    | feed hline hlast _ ih => rw [lines_feed hline hlast, ih]
    | returnFeed hline _ ih => rw [lines_returnFeed hline, ih]
  · rintro rfl
    exact cut_lines text

/-! ## Arrows -/

theorem arrows_cons {c : Char} {l : List Char} :
    arrows (c :: l) = arrows l + if c = '-' ∧ l.head? = some '>' then 1 else 0 := by
  cases l with
  | nil => simp [arrows]
  | cons b l => simp [arrows, List.count_cons]

theorem arrows_append_arrow :
    arrows (left ++ '-' :: '>' :: right) = arrows left + 1 + arrows right := by
  induction left with
  | nil =>
    have hnone : arrows [] = 0 := rfl
    rw [List.nil_append, arrows_cons, arrows_cons, if_neg (by simp), if_pos ⟨rfl, rfl⟩, hnone]
    omega
  | cons c left ih =>
    have hhead : (left ++ '-' :: '>' :: right).head? = some '>' ↔ left.head? = some '>' := by
      cases left <;> simp
    rw [List.cons_append, arrows_cons, arrows_cons, ih]
    simp only [hhead]
    omega

theorem length_arrowPieces (line : List Char) : (arrowPieces line).2.length = arrows line := by
  fun_induction arrowPieces line with
  | case1 => rfl
  | case2 rest piece pieces hrest ih =>
    rw [hrest] at ih
    simpa [arrows_cons] using ih
  | case3 c rest hno piece pieces hrest ih =>
    rw [hrest] at ih
    have hnone : ¬ (c = '-' ∧ rest.head? = some '>') := by
      rintro ⟨rfl, hhead⟩
      obtain ⟨tail, rfl⟩ := List.head?_eq_some_iff.1 hhead
      exact hno tail rfl rfl
    rw [arrows_cons, if_neg hnone]
    exact ih

theorem arrowPieces_glue (line : List Char) :
    (arrowPieces line).1 ++ (arrowPieces line).2.flatMap (fun piece => '-' :: '>' :: piece) =
      line := by
  fun_induction arrowPieces line with
  | case1 => rfl
  | case2 rest piece pieces hrest ih =>
    rw [hrest] at ih
    simpa using ih
  | case3 c rest hno piece pieces hrest ih =>
    rw [hrest] at ih
    simpa using ih

theorem arrowPieces_of_none (h : arrows line = 0) : arrowPieces line = (line, []) := by
  have hlength := length_arrowPieces line
  have hglue := arrowPieces_glue line
  generalize arrowPieces line = pieces at hlength hglue
  obtain ⟨first, others⟩ := pieces
  obtain rfl : others = [] := List.eq_nil_of_length_eq_zero (hlength.trans h)
  rw [List.flatMap_nil, List.append_nil] at hglue
  rw [← hglue]

theorem exists_arrow (h : arrows line ≠ 0) : ∃ left right, line = left ++ '-' :: '>' :: right := by
  have hlength := length_arrowPieces line
  have hglue := arrowPieces_glue line
  generalize arrowPieces line = pieces at hlength hglue
  obtain ⟨first, others⟩ := pieces
  cases others with
  | nil => exact absurd hlength.symm h
  | cons piece others => exact ⟨first, _, hglue.symm⟩

theorem arrowPieces_append_arrow (h : arrows left = 0) :
    arrowPieces (left ++ '-' :: '>' :: right) =
      (left, (arrowPieces right).1 :: (arrowPieces right).2) := by
  induction left with
  | nil => rw [List.nil_append, arrowPieces]
  | cons c left ih =>
    rw [arrows_cons] at h
    have hc : c = '-' → (left ++ '-' :: '>' :: right).head? ≠ some '>' := by
      intro hc
      cases left with
      | nil => simp
      | cons b left =>
        intro hb
        rw [if_pos ⟨hc, hb⟩] at h
        omega
    rw [List.cons_append, arrowPieces_cons hc, ih (by omega)]

theorem arrowPieces_of_one (h : arrows line = 1) (hline : line = left ++ '-' :: '>' :: right) :
    arrowPieces line = (left, [right]) := by
  subst hline
  rw [arrows_append_arrow] at h
  rw [arrowPieces_append_arrow (by omega), arrowPieces_of_none (by omega)]

/-! ## Blanks at the ends -/

theorem blank_takeWhile : Blank (text.takeWhile isBlank) :=
  List.all_eq_true.1 List.all_takeWhile

theorem visible_of_head?_dropWhile {c : Char} (h : (text.dropWhile isBlank).head? = some c) :
    isBlank c = false := by
  have hhead := List.head?_dropWhile_not isBlank text
  rwa [h] at hhead

theorem trims_trimBlanks (text : List Char) : Trims text (trimBlanks text) := by
  let tail := ((text.dropWhile isBlank).reverse.takeWhile isBlank).reverse
  have hfront : text.takeWhile isBlank ++ text.dropWhile isBlank = text :=
    List.takeWhile_append_dropWhile
  have hback : trimBlanks text ++ tail = text.dropWhile isBlank := by
    rw [trimBlanks, ← List.reverse_append, List.takeWhile_append_dropWhile, List.reverse_reverse]
  refine ⟨⟨text.takeWhile isBlank, tail, ?_, blank_takeWhile, fun c hc => ?_⟩, fun c hc => ?_,
    fun c hc => ?_⟩
  · rw [List.append_assoc, hback, hfront]
  · exact blank_takeWhile c (List.mem_reverse.1 hc)
  · have hhead : (text.dropWhile isBlank).head? = some c := by
      rw [← hback, List.head?_append, hc, Option.some_or]
    exact visible_of_head?_dropWhile hhead
  · rw [trimBlanks, List.getLast?_reverse] at hc
    exact visible_of_head?_dropWhile hc

theorem dropWhile_blanks (hblank : Blank text)
    (hvisible : ∀ c, core.head? = some c → isBlank c = false) :
    (text ++ core).dropWhile isBlank = core := by
  rw [List.dropWhile_append_of_pos hblank]
  cases core with
  | nil => rfl
  | cons c core => simp [hvisible c rfl]

theorem Trims.blank (h : Trims text []) : Blank text := by
  obtain ⟨⟨u, v, rfl, hu, hv⟩, -, -⟩ := h
  rw [List.append_nil]
  exact List.forall_mem_append.2 ⟨hu, hv⟩

theorem Trims.trimBlanks_eq (h : Trims text core) : trimBlanks text = core := by
  cases core with
  | nil =>
    have hfront : (text ++ []).dropWhile isBlank = [] := dropWhile_blanks h.blank nofun
    rw [List.append_nil] at hfront
    rw [trimBlanks, hfront]
    rfl
  | cons c core =>
    obtain ⟨⟨u, v, rfl, hu, hv⟩, hhead, hlast⟩ := h
    have hfront : (u ++ (c :: core ++ v)).dropWhile isBlank = c :: core ++ v :=
      dropWhile_blanks hu hhead
    have hv' : Blank v.reverse := fun d hd => hv d (List.mem_reverse.1 hd)
    have hback : (v.reverse ++ (c :: core).reverse).dropWhile isBlank = (c :: core).reverse :=
      dropWhile_blanks hv' fun d hd => hlast d (by rwa [List.head?_reverse] at hd)
    rw [trimBlanks, List.append_assoc, hfront, List.reverse_append, hback, List.reverse_reverse]

/-! ## Reading a line -/

theorem not_blank_of_arrow (h : line = left ++ '-' :: '>' :: right) : ¬ Blank line := by
  subst h
  intro hblank
  have := hblank '-' (by simp)
  exact absurd this (by decide)

theorem all_isBlank_eq_false (h : ¬ Blank line) : line.all isBlank = false := by
  rw [← Bool.not_eq_true, List.all_eq_true]
  exact h

theorem ofLine_of_blank (h : Blank line) : Production.ofLine line = .ok none := by
  rw [Production.ofLine, if_pos (List.all_eq_true.2 h)]

theorem Faulty.ofLine_eq (h : Faulty line fault) : Production.ofLine line = .error fault := by
  rw [Production.ofLine]
  cases h with
  | noArrow hvisible hnone =>
    rw [all_isBlank_eq_false hvisible, arrowPieces_of_none hnone]
    rfl
  | manyArrows hmany =>
    have hsome : arrows line ≠ 0 := by omega
    obtain ⟨left, right, hline⟩ := exists_arrow hsome
    rw [all_isBlank_eq_false (not_blank_of_arrow hline)]
    have hlength := length_arrowPieces line
    generalize arrowPieces line = pieces at hlength
    rcases pieces with ⟨_, _ | ⟨_, _ | ⟨_, _⟩⟩⟩
    · exact absurd hlength (by rw [List.length_nil]; omega)
    · exact absurd hlength (by rw [List.length_singleton]; omega)
    · rfl
  | noLeft hone hline htrims =>
    rw [all_isBlank_eq_false (not_blank_of_arrow hline), arrowPieces_of_one hone hline]
    simp [htrims.trimBlanks_eq]
  | @longLeft left right core hone hline htrims hlong =>
    rw [all_isBlank_eq_false (not_blank_of_arrow hline), arrowPieces_of_one hone hline]
    rcases core with _ | ⟨_, _ | ⟨_, _⟩⟩
    · exact absurd hlong (by decide)
    · exact absurd hlong (Nat.not_succ_le_self 1)
    · simp [htrims.trimBlanks_eq]

theorem Says.ofLine_eq (h : Says line p) : Production.ofLine line = .ok (some p) := by
  obtain ⟨hone, hline, htrims⟩ := h
  rw [Production.ofLine, all_isBlank_eq_false (not_blank_of_arrow hline),
    arrowPieces_of_one hone hline]
  simp [htrims.trimBlanks_eq]

theorem Says.eq_of_ofLine (h : Says line p) (q : Production)
    (hread : Production.ofLine line = .ok (some q)) : p = q :=
  Option.some.inj (Except.ok.inj (h.ofLine_eq.symm.trans hread))

theorem exists_faulty (h : Bad line) : ∃ fault, Faulty line fault := by
  obtain ⟨hvisible, hbad⟩ := h
  rcases Nat.lt_trichotomy (arrows line) 1 with hnone | hone | hmany
  · exact ⟨_, .noArrow hvisible (by omega)⟩
  · obtain ⟨left, right, core, hline, htrims, hcore⟩ := hbad.resolve_left (absurd hone)
    match core with
    | [] => exact ⟨_, .noLeft hone hline htrims⟩
    | [_] => exact absurd rfl hcore
    | _ :: _ :: _ => exact ⟨_, .longLeft hone hline htrims (by simp)⟩
  · exact ⟨_, .manyArrows hmany⟩

theorem exists_said (h : ¬ Bad line) (hvisible : ¬ Blank line) : ∃ p, Says line p := by
  simp only [Bad, hvisible, not_false_eq_true, true_and, not_or, Classical.not_not] at h
  obtain ⟨hone, hleft⟩ := h
  have hsome : arrows line ≠ 0 := by omega
  obtain ⟨left, right, hline⟩ := exists_arrow hsome
  have htrims := trims_trimBlanks left
  by_cases hsingle : (trimBlanks left).length = 1
  · obtain ⟨a, ha⟩ := List.length_eq_one_iff.1 hsingle
    exact ⟨_, .production hone hline (ha ▸ htrims)⟩
  · exact absurd ⟨left, right, _, hline, htrims, hsingle⟩ hleft

theorem not_bad_of_ofLine {read : Option Production} (h : Production.ofLine line = .ok read) :
    ¬ Bad line := by
  intro hbad
  obtain ⟨fault, hfault⟩ := exists_faulty hbad
  exact absurd (hfault.ofLine_eq.symm.trans h) nofun

theorem bad_iff : Bad line ↔ (Production.ofLine line).isOk = false := by
  cases hread : Production.ofLine line with
  | error fault =>
    refine iff_of_true (Classical.byContradiction fun hgood => ?_) rfl
    by_cases hblank : Blank line
    · exact absurd ((ofLine_of_blank hblank).symm.trans hread) nofun
    · obtain ⟨p, hp⟩ := exists_said hgood hblank
      exact absurd (hp.ofLine_eq.symm.trans hread) nofun
  | ok read => exact iff_of_false (not_bad_of_ofLine hread) nofun

instance (line : List Char) : Decidable (Bad line) := decidable_of_iff _ bad_iff.symm

end Line

end PredictiveParsing
