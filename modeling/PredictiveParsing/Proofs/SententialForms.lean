import PredictiveParsing.Proofs.Language

/-!
# The analysis in terms of sentential forms

A sentential form of a string is what it derives. The answers of the analysis say what stands at the
front of sentential forms (`first_of_sentential_forms`), whether one of them is empty
(`nullability_is_exact`), and what stands behind a non-terminal in them
(`follow_of_sentential_forms`): a terminal in some form of some non-terminal, reached from
the start symbol or not, and the end marker where a form of the start symbol ends.
-/
namespace PredictiveParsing

namespace Grammar

variable {g : Grammar}

/-! ## Behind a non-terminal -/

theorem derives_of_vanishing_rest {a b : Symbol} {u v : List Symbol}
    (hp : ⟨b, u ++ a :: v⟩ ∈ g.productions) (hv : g.Vanishes v) (z : List Symbol) :
    g.Derives (b :: z) (u ++ a :: z) := by
  have hexpand : g.Derives (b :: z) (u ++ a :: v ++ z) := derives_of_mem hp z
  have hvanish : g.Derives (u ++ [a] ++ (v ++ z)) (u ++ [a] ++ z) :=
    ((vanishes_iff_derives.1 hv).append_right z).append_left (u ++ [a])
  simp only [List.append_assoc, List.cons_append, List.nil_append] at hexpand hvanish
  exact hexpand.trans hvanish

theorem Follows.exists_form {a t : Symbol} (h : g.Follows a t) :
    (∃ b ∈ g.nonTerminals, ∃ u v, g.Derives [b] (u ++ a :: t :: v)) ∨
      t = endMark ∧ ∃ u, g.Derives [g.start] (u ++ [a]) := by
  induction h with
  | start => exact .inr ⟨rfl, [], .refl⟩
  | @next a b t u v hp _ hb =>
    obtain ⟨-, β, hβ⟩ := begins_iff_derives.1 hb
    have hexpand : g.Derives [b] (u ++ a :: v ++ []) := derives_of_mem hp []
    have hbegin := hβ.append_left (u ++ [a])
    simp only [List.append_assoc, List.cons_append, List.nil_append, List.append_nil]
      at hexpand hbegin
    exact .inl ⟨b, g.wellFormed.left_mem _ hp, u, β, hexpand.trans hbegin⟩
  | @inherit a b t u v hp _ hv _ ih =>
    rcases ih with ⟨c, hc, x, y, hder⟩ | ⟨ht, x, hder⟩
    · have hform := hder.trans ((derives_of_vanishing_rest hp hv (t :: y)).append_left x)
      rw [← List.append_assoc] at hform
      exact .inl ⟨c, hc, x ++ u, y, hform⟩
    · have hform := hder.trans ((derives_of_vanishing_rest hp hv []).append_left x)
      rw [← List.append_assoc] at hform
      exact .inr ⟨ht, x ++ u, hform⟩

theorem follows_terminal_iff {a t : Symbol} (ha : a ∈ g.nonTerminals) (ht : t ∈ g.terminals) :
    g.Follows a t ↔ ∃ b ∈ g.nonTerminals, ∃ u v, g.Derives [b] (u ++ a :: t :: v) := by
  constructor
  · intro h
    refine h.exists_form.resolve_right fun hend => ?_
    exact not_declares_endMark (.inl (hend.1 ▸ ht))
  · intro ⟨b, _, u, v, hder⟩
    -- with nothing behind it, a single symbol is followed
    have hb : g.Followed (fun _ => False) [b] :=
      (followed_singleton b).mono fun _ h => h.elim
    exact (hb.derives hder).follows ha (.inl (.terminal ht))

theorem follows_endMark_iff {a : Symbol} (ha : a ∈ g.nonTerminals) :
    g.Follows a endMark ↔ ∃ u, g.Derives [g.start] (u ++ [a]) := by
  constructor
  · intro h
    rcases h.exists_form with ⟨b, hb, u, v, hder⟩ | ⟨-, hform⟩
    · have hdeclared := hder.declares (declares_singleton hb)
      exact absurd (hdeclared endMark (by simp)) not_declares_endMark
    · exact hform
  · intro ⟨u, hder⟩
    exact ((followed_singleton g.start).derives hder).follows ha (.inr ⟨.nil, .start⟩)

theorem follow?_eq_error {a : Symbol} (ha : a ∉ g.nonTerminals) :
    g.follow? a = .error (.unknownSymbol a) := by
  rw [follow?, if_neg ha]

theorem follow_of_sentential_forms (g : Grammar) :
    (∀ a ∈ g.nonTerminals, ∃ f, g.follow? a = .ok f ∧
      (∀ t ∈ g.terminals,
        t ∈ f ↔ ∃ b ∈ g.nonTerminals, ∃ u v, g.Derives [b] (u ++ a :: t :: v)) ∧
      (endMark ∈ f ↔ ∃ u, g.Derives [g.start] (u ++ [a])) ∧
      ∀ t ∈ f, t ∈ g.terminals ∨ t = endMark) ∧
    ∀ a, a ∉ g.nonTerminals → g.follow? a = .error (.unknownSymbol a) := by
  refine ⟨fun a ha => ?_, fun a ha => follow?_eq_error ha⟩
  refine ⟨_, follow?_eq_ok_iff.2 ⟨ha, rfl⟩, fun t ht => ?_, ?_, fun t ht => ?_⟩
  · rw [mem_follow, follows_terminal_iff ha ht]
  · rw [mem_follow, follows_endMark_iff ha]
  · exact (mem_follow.1 ht).mem

theorem nested_follow_of_sentential_forms :
    'U' ∈ nested.nonTerminals ∧ '(' ∈ nested.terminals ∧ '#' ∉ nested.nonTerminals ∧
      (∃ f, nested.follow? 'U' = .ok f ∧ '(' ∈ f) ∧
      nested.follow? '#' = .error (.unknownSymbol '#') := by
  have hexact := follow_of_sentential_forms nested
  have hU : 'U' ∈ nested.nonTerminals := by decide
  have hbracket : '(' ∈ nested.terminals := by decide
  have hother : '#' ∉ nested.nonTerminals := by decide
  obtain ⟨f, hf, hterminal, -, -⟩ := hexact.1 'U' hU
  have hrule : ⟨'U', ['U', '(']⟩ ∈ nested.productions := by decide
  have hform : nested.Derives ['U'] ([] ++ 'U' :: '(' :: []) := derives_of_mem hrule []
  have hmem : '(' ∈ f := (hterminal '(' hbracket).2 ⟨'U', hU, [], [], hform⟩
  exact ⟨hU, hbracket, hother, ⟨f, hf, hmem⟩, hexact.2 '#' hother⟩

/-! ## At the front -/

theorem first?_eq_error {α u v : List Symbol} {s : Symbol} (hα : α = u ++ s :: v)
    (hu : ∀ x ∈ u, g.Declares x) (hs : ¬ g.Declares s) :
    g.first? α = .error (.unknownSymbol s) := by
  have hfind : (α.find? fun x => ¬ g.Declares x) = some s :=
    List.find?_eq_some_iff_append.2 ⟨by simp [hs], u, v, hα, by simpa using hu⟩
  rw [first?, hfind]

theorem first?_eq_ok {α : List Symbol} (hα : ∀ x ∈ α, g.Declares x) :
    g.first? α = .ok (g.analysis.firstOf α) := by
  have hfind : (α.find? fun x => ¬ g.Declares x) = none :=
    List.find?_eq_none.2 (by simpa using hα)
  rw [first?, hfind]

theorem mem_firstOf {α : List Symbol} {t : Symbol} (ht : t ≠ epsilon) :
    t ∈ g.analysis.firstOf α ↔ g.Begins α t := by
  unfold Analysis.firstOf
  split
  · rw [SymbolSet.mem_insert, mem_starters, or_iff_right ht]
  · exact mem_starters

theorem first_of_sentential_forms (g : Grammar) (α : List Symbol) :
    (∀ u s v, α = u ++ s :: v → (∀ x ∈ u, g.Declares x) → ¬ g.Declares s →
      g.first? α = .error (.unknownSymbol s)) ∧
    ((∀ x ∈ α, g.Declares x) → ∃ f, g.first? α = .ok f ∧
      ∀ t, t ≠ epsilon → (t ∈ f ↔ t ∈ g.terminals ∧ ∃ β, g.Derives α (t :: β))) := by
  refine ⟨fun u s v hα hu hs => first?_eq_error hα hu hs, fun hα => ?_⟩
  refine ⟨_, first?_eq_ok hα, fun t ht => ?_⟩
  rw [mem_firstOf ht, begins_iff_derives]

theorem nested_first_of_sentential_forms :
    (¬ nested.Declares '#' ∧ nested.first? ['(', '#', '!'] = .error (.unknownSymbol '#')) ∧
      (∀ x ∈ ['S', 'U'], nested.Declares x) ∧ ∃ f, nested.first? ['S', 'U'] = .ok f ∧ '(' ∈ f := by
  have hother : ¬ nested.Declares '#' := by decide
  have hdeclared : ∀ x ∈ ['S', 'U'], nested.Declares x :=
    List.forall_mem_cons.2 ⟨by decide, List.forall_mem_singleton.2 (by decide)⟩
  have hrule : ⟨'S', ['(', 'S', ')', 'S']⟩ ∈ nested.productions := by decide
  obtain ⟨f, hf, hexact⟩ := (first_of_sentential_forms nested ['S', 'U']).2 hdeclared
  have hmem : '(' ∈ f :=
    (hexact '(' (by decide)).2 ⟨by decide, ['S', ')', 'S', 'U'], derives_of_mem hrule ['U']⟩
  have herror := (first_of_sentential_forms nested ['(', '#', '!']).1 ['('] '#' ['!'] rfl
    (List.forall_mem_singleton.2 (by decide)) hother
  exact ⟨⟨hother, herror⟩, hdeclared, f, hf, hmem⟩

/-! ## Nothing at all -/

theorem nullable?_eq_ok_true {a : Symbol} : g.nullable? a = .ok true ↔ g.Vanishes [a] := by
  unfold nullable?
  split
  · rw [Except.ok.injEq, decide_eq_true_eq]
    exact mem_nullableSet
  · next hn => exact iff_of_false nofun fun h => hn (.inr h.mem_nonTerminals)

theorem nullable?_eq_ok {a : Symbol} (ha : g.Declares a) :
    ∃ b, g.nullable? a = .ok b ∧ (b = true ↔ g.Vanishes [a]) := by
  refine ⟨decide (a ∈ g.analysis.nullable), by rw [nullable?, if_pos ha], ?_⟩
  rw [decide_eq_true_eq]
  exact mem_nullableSet

theorem nullable?_terminal {t : Symbol} (ht : t ∈ g.terminals) : g.nullable? t = .ok false := by
  obtain ⟨b, hb, hvanishes⟩ := nullable?_eq_ok (.inl ht)
  have hnone : b ≠ true := fun e =>
    not_mem_terminals_of_mem_nonTerminals (hvanishes.1 e).mem_nonTerminals ht
  rw [hb, eq_false_of_ne_true hnone]

theorem nullable?_eq_error {s : Symbol} (hs : ¬ g.Declares s) :
    g.nullable? s = .error (.unknownSymbol s) := by
  rw [nullable?, if_neg hs]

theorem epsilon_mem_firstOf {α : List Symbol} :
    epsilon ∈ g.analysis.firstOf α ↔ g.analysis.vanishes α = true := by
  unfold Analysis.firstOf
  split
  · next h => exact iff_of_true (SymbolSet.mem_insert.2 (.inl rfl)) h
  · next h =>
    refine iff_of_false (fun he => ?_) h
    exact ne_epsilon_of_mem_terminals (mem_starters.1 he).mem_terminals rfl

theorem nullability_is_exact (g : Grammar) :
    (∀ a ∈ g.nonTerminals, ∃ b, g.nullable? a = .ok b ∧ (b = true ↔ g.Derives [a] [])) ∧
    (∀ t ∈ g.terminals, g.nullable? t = .ok false) ∧
    (∀ s, ¬ g.Declares s → g.nullable? s = .error (.unknownSymbol s)) ∧
    ∀ α, (∀ s ∈ α, g.Declares s) → ∃ f, g.first? α = .ok f ∧
      (epsilon ∈ f ↔ g.Derives α []) ∧ (epsilon ∈ f ↔ ∀ s ∈ α, g.nullable? s = .ok true) := by
  refine ⟨fun a ha => ?_, fun t ht => nullable?_terminal ht, fun s hs => nullable?_eq_error hs,
    fun α hα => ?_⟩
  · simp only [← vanishes_iff_derives]
    exact nullable?_eq_ok (.inr ha)
  · have hvanishes : epsilon ∈ g.analysis.firstOf α ↔ g.Vanishes α :=
      epsilon_mem_firstOf.trans vanishes_nullableSet
    refine ⟨_, first?_eq_ok hα, hvanishes.trans vanishes_iff_derives, hvanishes.trans ?_⟩
    simp only [nullable?_eq_ok_true]
    exact vanishes_iff_forall

/-- A symbol that vanishes, one that does not, a terminal, one that is not of the grammar, and two
strings. -/
theorem nested_nullability :
    'S' ∈ nested.nonTerminals ∧ 'U' ∈ nested.nonTerminals ∧ '(' ∈ nested.terminals ∧
      ¬ nested.Declares '#' ∧ nested.nullable? 'S' = .ok true ∧ ¬ nested.Derives ['U'] [] ∧
      nested.nullable? '(' = .ok false ∧ nested.nullable? '#' = .error (.unknownSymbol '#') ∧
      nested.Derives ['S', 'S'] [] ∧ ¬ nested.Derives ['S', 'U'] [] := by
  obtain ⟨hnonTerminal, hterminal, hother, hstring⟩ := nullability_is_exact nested
  have hS : 'S' ∈ nested.nonTerminals := by decide
  have hU : 'U' ∈ nested.nonTerminals := by decide
  have hopen : '(' ∈ nested.terminals := by decide
  have hunknown : ¬ nested.Declares '#' := by decide
  have hrule : ⟨'S', []⟩ ∈ nested.productions := by decide
  obtain ⟨b, hb, hbS⟩ := hnonTerminal 'S' hS
  obtain ⟨c, hc, hcU⟩ := hnonTerminal 'U' hU
  obtain rfl : false = c := Except.ok.inj hc
  have hSS : ∀ s ∈ ['S', 'S'], nested.Declares s :=
    List.forall_mem_cons.2 ⟨.inr hS, declares_singleton hS⟩
  have hSU : ∀ s ∈ ['S', 'U'], nested.Declares s :=
    List.forall_mem_cons.2 ⟨.inr hS, declares_singleton hU⟩
  obtain ⟨e, he, heS, -⟩ := hstring ['S', 'S'] hSS
  obtain ⟨f, -, hfU, hfall⟩ := hstring ['S', 'U'] hSU
  have hreach : nested.Derives ['S', 'S'] [] := heS.1 (by cases he; decide)
  refine ⟨hS, hU, hopen, hunknown, ?_, ?_, hterminal '(' hopen, hother '#' hunknown, hreach, ?_⟩
  · rw [hb, hbS.2 (derives_of_mem hrule [])]
  · exact fun h => absurd (hcU.2 h) Bool.false_ne_true
  · intro h
    have hnullable := hfall.1 (hfU.2 h) 'U' (by simp)
    exact absurd (Except.ok.inj (hc.symm.trans hnullable)) Bool.false_ne_true

end Grammar

end PredictiveParsing
