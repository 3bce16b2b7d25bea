import PredictiveParsing.Proofs.SententialForms

/-!
# Alternatives that compete

`lookaheads?` puts to the analysis the two questions that tell when a production is predicted: what
its right side can begin with and, if that can be the empty string, what can follow its left side.
For a production of the grammar neither question is refused (`lookaheads?_eq_ok`), and the cells
that are placed are always valid (`table_ne_invalid`). So a table is missing only where two
alternatives of a symbol share a lookahead (`table_iff_alternatives_disjoint`).

An alternative does not compete with itself: one that vanishes may be placed in the same cell for
what it begins with and again for what follows it (`CellMap.place_again`). Even so, no symbol that
vanishes can begin with what follows it in a grammar with a table. The alternative that vanishes is
the one that begins with the common terminal, and it hands the overlap down to one of its symbols,
whose derivation of the empty string is smaller (`PredictsFor.not_follows_of_vanishes`).
-/
namespace PredictiveParsing

namespace CellMap

variable {p : Production} {cells cells' : CellMap}

theorem place_of_find? {s : Symbol} (h : cells.find? p.left s = some p.right) :
    cells.place p s = .ok cells := by
  simp [place, h]

theorem find?_of_place {s : Symbol} (h : cells.place p s = .ok cells') :
    cells'.find? p.left s = some p.right ∧
      ∀ a t r, cells.find? a t = some r → cells'.find? a t = some r := by
  unfold place at h
  split at h
  · next hvacant =>
    obtain rfl := Except.ok.inj h
    refine ⟨by simp [find?_insert, Cell.HasKey], fun a t r hr => ?_⟩
    rw [find?_insert, if_neg, hr]
    rintro ⟨rfl, rfl⟩
    rw [hvacant] at hr
    cases hr
  · next placed hs =>
    split at h
    · next e =>
      obtain rfl := Except.ok.inj h
      exact ⟨e ▸ hs, fun a t r hr => hr⟩
    · cases h

theorem find?_of_foldlM_place {l : List Symbol} (h : l.foldlM (place p) cells = .ok cells') :
    (∀ s ∈ l, cells'.find? p.left s = some p.right) ∧
      ∀ a t r, cells.find? a t = some r → cells'.find? a t = some r := by
  induction l generalizing cells with
  | nil =>
    cases h
    exact ⟨fun s hs => absurd hs List.not_mem_nil, fun a t r hr => hr⟩
  | cons s l ih =>
    rw [List.foldlM_cons] at h
    cases hone : cells.place p s with
    | error c =>
      rw [hone] at h
      cases h
    | ok m =>
      rw [hone] at h
      obtain ⟨hs, hkeep⟩ := find?_of_place hone
      obtain ⟨hl, hkeep'⟩ := ih h
      refine ⟨List.forall_mem_cons.2 ⟨hkeep' _ _ _ hs, hl⟩, fun a t r hr => ?_⟩
      exact hkeep' a t r (hkeep a t r hr)

/-- What a production has been placed for, it can be placed for again. -/
theorem place_again {l : List Symbol} (h : l.foldlM (place p) cells = .ok cells') {s : Symbol}
    (hs : s ∈ l) : cells'.place p s = .ok cells' :=
  place_of_find? ((find?_of_foldlM_place h).1 s hs)

end CellMap

namespace Grammar

variable {g : Grammar} {t : Table}

/-! ## Predictions as answers of the analysis -/

def lookaheads? (g : Grammar) (p : Production) : Except Error (List Symbol) := do
  let first ← g.first? p.right
  let follow ← if epsilon ∈ first then g.follow? p.left else .ok ∅
  return (first.filter (· ≠ epsilon)).toList ++ follow.toList

theorem filter_firstOf {α : List Symbol} :
    (g.analysis.firstOf α).filter (· ≠ epsilon) = g.analysis.starters α := by
  apply SymbolSet.ext
  intro s
  rw [SymbolSet.mem_filter, decide_eq_true_eq, mem_starters]
  constructor
  · intro ⟨hs, hne⟩
    exact (mem_firstOf hne).1 hs
  · intro h
    have hne := ne_epsilon_of_mem_terminals h.mem_terminals
    exact ⟨(mem_firstOf hne).2 h, hne⟩

theorem lookaheads?_eq_ok {p : Production} (hp : p ∈ g.productions) :
    g.lookaheads? p = .ok (g.analysis.predicting p) := by
  have hfirst := first?_eq_ok (g.wellFormed.right_declared p hp)
  have hfollow : g.follow? p.left = .ok (g.analysis.follow.get p.left) :=
    follow?_eq_ok_iff.2 ⟨g.wellFormed.left_mem p hp, rfl⟩
  simp only [lookaheads?, hfirst, hfollow, Analysis.predicting, ← filter_firstOf]
  by_cases h : g.analysis.vanishes p.right = true
  · simp [epsilon_mem_firstOf.2 h, h, bind, Except.bind, pure, Except.pure]
  · simp [mt epsilon_mem_firstOf.1 h, h, bind, Except.bind, pure, Except.pure]

theorem mem_lookaheads? {p : Production} (hp : p ∈ g.productions) {s : Symbol} :
    (∃ l, g.lookaheads? p = .ok l ∧ s ∈ l) ↔ g.Predicts p s := by
  rw [← mem_predicting]
  constructor
  · intro ⟨l, hl, hs⟩
    rw [lookaheads?_eq_ok hp] at hl
    cases hl
    exact hs
  · intro hs
    exact ⟨_, lookaheads?_eq_ok hp, hs⟩

theorem table_ne_invalid (e : Error) : g.table ≠ .error (.invalid e) := by
  unfold table
  split
  · exact nofun
  · next cells hc =>
    rw [build_predictedCells hc]
    exact nofun

theorem table_iff_alternatives_disjoint (g : Grammar) :
    (∀ p ∈ g.productions, g.lookaheads? p = .ok (g.analysis.predicting p)) ∧
    (∀ e, g.table ≠ .error (.invalid e)) ∧
    ((∃ t, g.table? = some t) ↔ ∀ a r q l m, ⟨a, r⟩ ∈ g.productions → ⟨a, q⟩ ∈ g.productions →
      r ≠ q → g.lookaheads? ⟨a, r⟩ = .ok l → g.lookaheads? ⟨a, q⟩ = .ok m → ∀ s ∈ l, s ∉ m) ∧
    ∀ t, g.table? = some t → t.nonTerminals = g.nonTerminals ∧
      t.terminals = g.terminals.insert endMark ∧ ∀ a s r, t.get? a s = some r ↔
        ⟨a, r⟩ ∈ g.productions ∧ ∃ l, g.lookaheads? ⟨a, r⟩ = .ok l ∧ s ∈ l := by
  refine ⟨fun p hp => lookaheads?_eq_ok hp, table_ne_invalid, ?_, fun t ht => ?_⟩
  · rw [← Option.isSome_iff_exists]
    refine isLL1_eq_true_iff.trans ⟨fun h => ?_, fun h => ?_⟩
    · intro a r q l m hr hq hne hl hm s hsl hsm
      have hsr := (mem_lookaheads? hr).1 ⟨l, hl, hsl⟩
      have hsq := (mem_lookaheads? hq).1 ⟨m, hm, hsm⟩
      exact hne (h a r q s hr hq hsr hsq)
    · intro a r q s hr hq hsr hsq
      by_contra hne
      obtain ⟨l, hl, hsl⟩ := (mem_lookaheads? hr).2 hsr
      obtain ⟨m, hm, hsm⟩ := (mem_lookaheads? hq).2 hsq
      exact h a r q l m hr hq hne hl hm s hsl hsm
  · have hp := predictsFor_of_table? ht
    refine ⟨hp.nonTerminals, hp.terminals, fun a s r => ?_⟩
    rw [hp.cell]
    exact and_congr_right fun hr => (mem_lookaheads? hr).symm

theorem nested_alternatives_disjoint :
    ⟨'S', ['(', 'S', ')', 'S']⟩ ∈ nested.productions ∧ ⟨'S', []⟩ ∈ nested.productions ∧
      nested.lookaheads? ⟨'S', ['(', 'S', ')', 'S']⟩ = .ok ['('] ∧
      nested.lookaheads? ⟨'S', []⟩ = .ok ['$', ')'] ∧ (∀ s ∈ ['('], s ∉ ['$', ')']) ∧
      ∃ t, nested.table? = some t ∧ t.get? 'S' ')' = some [] := by
  obtain ⟨-, -, hdisjoint, hcell⟩ := table_iff_alternatives_disjoint nested
  have hopen : ⟨'S', ['(', 'S', ')', 'S']⟩ ∈ nested.productions := by decide
  have hempty : ⟨'S', []⟩ ∈ nested.productions := by decide
  have hleft : nested.lookaheads? ⟨'S', ['(', 'S', ')', 'S']⟩ = .ok ['('] := rfl
  have hright : nested.lookaheads? ⟨'S', []⟩ = .ok ['$', ')'] := rfl
  obtain ⟨t, ht⟩ := Option.isSome_iff_exists.1 nested_isLL1
  have hapart := hdisjoint.1 ⟨t, ht⟩ 'S' _ _ _ _ hopen hempty nofun hleft hright
  have hfilled := ((hcell t ht).2.2 'S' ')' []).2 ⟨hempty, _, hright, by decide⟩
  exact ⟨hopen, hempty, hleft, hright, hapart, t, ht, hfilled⟩

/-! ## Overlaps inside an alternative -/

theorem PredictsFor.not_follows_of_vanishes (hp : g.PredictsFor t) {α : List Symbol}
    (h : g.Vanishes α) : ∀ x ∈ α, ∀ s, g.Begins [x] s → ¬ g.Follows x s := by
  induction h with
  | nil => exact fun x hx => absurd hx List.not_mem_nil
  | @cons p α hprod hright _ ihright ihα =>
    refine List.forall_mem_cons.2 ⟨fun s hbegins hfollows => ?_, ihα⟩
    obtain ⟨q, hq, hqs⟩ := (begins_singleton (g.wellFormed.left_mem p hprod)).1 hbegins
    -- the alternative that vanishes is the only one with this lookahead, so it begins with it too
    obtain rfl : p.right = q :=
      hp.right_unique hprod hq (.inr ⟨hright, hfollows⟩) (.inl hqs)
    obtain ⟨u, x, v, hsplit, hx⟩ := hqs.exists_symbol
    have hfollowed := followed_right hprod
    rw [hsplit] at hright hfollowed
    obtain ⟨-, hxv⟩ := vanishes_append.1 hright
    obtain ⟨hxvanishes, hv⟩ := vanishes_cons.1 hxv
    have hxfollows := hfollowed.follows hxvanishes.mem_nonTerminals (.inr ⟨hv, hfollows⟩)
    exact ihright x (by simp [hsplit]) s hx hxfollows

theorem first_disjoint_follow_of_nullable (h : g.table? = some t) :
    (∀ a ∈ g.nonTerminals, g.nullable? a = .ok true → ∃ f l, g.first? [a] = .ok f ∧
      g.follow? a = .ok l ∧ ∀ s ∈ g.terminals, s ∈ f → s ∉ l) ∧
    ∀ (p : Production) (l : List Symbol) (cells cells' : CellMap),
      l.foldlM (CellMap.place p) cells = .ok cells' → ∀ s ∈ l, cells'.place p s = .ok cells' := by
  refine ⟨fun a ha hn => ?_, fun p l cells cells' hl s hs => CellMap.place_again hl hs⟩
  have hvanishes := nullable?_eq_ok_true.1 hn
  refine ⟨_, _, first?_eq_ok (declares_singleton ha), follow?_eq_ok_iff.2 ⟨ha, rfl⟩, ?_⟩
  intro s hs hfirst hfollow
  have hbegins := (mem_firstOf (ne_epsilon_of_mem_terminals hs)).1 hfirst
  have hp := predictsFor_of_table? h
  exact hp.not_follows_of_vanishes hvanishes a List.mem_cons_self s hbegins (mem_follow.1 hfollow)

theorem nested_first_disjoint_follow :
    ∃ t, nested.table? = some t ∧ 'S' ∈ nested.nonTerminals ∧ nested.nullable? 'S' = .ok true ∧
      (∃ f l, nested.first? ['S'] = .ok f ∧ nested.follow? 'S' = .ok l ∧ '(' ∈ f ∧ '(' ∉ l) ∧
      ∃ cells, [')', '$'].foldlM (CellMap.place ⟨'S', []⟩) ∅ = .ok cells ∧
        cells.place ⟨'S', []⟩ ')' = .ok cells := by
  obtain ⟨t, ht⟩ := Option.isSome_iff_exists.1 nested_isLL1
  obtain ⟨hdisjoint, hagain⟩ := first_disjoint_follow_of_nullable ht
  have hS : 'S' ∈ nested.nonTerminals := by decide
  have hnullable : nested.nullable? 'S' = .ok true := rfl
  obtain ⟨f, l, hf, hl, hapart⟩ := hdisjoint 'S' hS hnullable
  have hfirst : nested.first? ['S'] = .ok (.ofList ['(', 'ε']) := rfl
  have hmem : '(' ∈ f := by
    obtain rfl := Except.ok.inj (hf.symm.trans hfirst)
    decide
  have hopen := hapart '(' (by decide) hmem
  have hplaced : [')', '$'].foldlM (CellMap.place ⟨'S', []⟩) ∅ =
      .ok (((∅ : CellMap).insert ⟨'S', ')', []⟩).insert ⟨'S', '$', []⟩) := rfl
  have hsame := hagain ⟨'S', []⟩ _ _ _ hplaced ')' List.mem_cons_self
  exact ⟨t, ht, hS, hnullable, ⟨f, l, hf, hl, hmem, hopen⟩, _, hplaced, hsame⟩

end Grammar

end PredictiveParsing
