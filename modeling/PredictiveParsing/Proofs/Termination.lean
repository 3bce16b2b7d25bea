import PredictiveParsing.Proofs.Simulation

/-!
# Recognition with the table of a grammar ends

An expansion reads nothing and can lengthen the stack, so what ends a run is the table. With a given
symbol next, a stack that is followed by it and can vanish does so after finitely many rounds
(`PredictsFor.exists_walk_of_spells` with the empty word), and one that can begin with it brings it
to the top and reads it (`PredictsFor.exists_walk_of_begins`). A filled cell belongs to one of the
two cases. So the machine halts whatever the stack and the input are
(`PredictsFor.exists_haltsWithin`), also for grammars with left recursion, cycles and symbols that
are of no use.
-/
namespace PredictiveParsing

namespace Grammar

variable {g : Grammar} {t : Table}

namespace PredictsFor

theorem exists_walk_of_vanishes (hp : g.PredictsFor t) {α : List Symbol} {E : Symbol → Prop}
    {c : Symbol} (h : g.Vanishes α) (hf : g.Followed E α) (hc : E c) :
    ∃ m, ∀ below rest, t.walk? m (α ++ below, c :: rest) = some (below, c :: rest) :=
  hp.exists_walk_of_spells (spells_iff.2 ⟨word_nil, vanishes_iff_derives.1 h⟩) hf hc

theorem exists_walk_of_begins (hp : g.PredictsFor t) {α : List Symbol} {E : Symbol → Prop}
    {c : Symbol} (h : g.Begins α c) (hf : g.Followed E α) :
    ∃ m left, ∀ below rest, t.walk? m (α ++ below, c :: rest) = some (left ++ below, rest) := by
  obtain ⟨hc, γ, hder⟩ := begins_iff_derives.1 h
  obtain ⟨left, hreads, -⟩ := exists_reads_of_derives word_nil hder
  obtain ⟨m, hwalk⟩ := hp.exists_walk_of_reads hreads hf (.inl (.terminal hc))
  refine ⟨m + 1, left, fun below rest => ?_⟩
  have htop := hwalk below rest
  rw [List.nil_append] at htop
  rw [Table.walk?_add, htop]
  exact hp.walk?_terminal hc (left ++ below) rest

/-- A symbol with a filled cell goes off the stack, or the next symbol of the input is read. -/
theorem exists_walk_of_cell (hp : g.PredictsFor t) {x current : Symbol} {right : List Symbol}
    (h : t.get? x current = some right) :
    ∃ m, (∀ below rest, t.walk? m (x :: below, current :: rest) = some (below, current :: rest)) ∨
      ∃ left, ∀ below rest,
        t.walk? m (x :: below, current :: rest) = some (left ++ below, rest) := by
  obtain ⟨hprod, hpredicts⟩ := hp.cell.1 h
  rcases hpredicts with hb | ⟨hv, hfollows⟩
  · have hbegins : g.Begins [x] current := .expand hprod hb
    obtain ⟨m, left, hwalk⟩ := hp.exists_walk_of_begins hbegins (followed_singleton x)
    exact ⟨m, .inr ⟨left, hwalk⟩⟩
  · have hvanishes : g.Vanishes [x] := .cons hprod hv .nil
    obtain ⟨m, hwalk⟩ := hp.exists_walk_of_vanishes hvanishes (followed_singleton x) hfollows
    exact ⟨m, .inl hwalk⟩

theorem exists_haltsWithin (hp : g.PredictsFor t) (stack rest : List Symbol) :
    ∃ n, t.haltsWithin n (stack, rest) = true := by
  -- the input is read from the front, and between two symbols of it the stack gets shorter
  induction rest generalizing stack with
  | nil => exact ⟨1, by cases stack <;> rfl⟩
  | cons current rest ih =>
    induction stack with
    | nil => exact ⟨1, rfl⟩
    | cons x stack ihs =>
      by_cases hx : x ∈ t.terminals
      · by_cases he : x = current
        · subst he
          obtain ⟨n, hn⟩ := ih stack
          exact ⟨1 + n, (Table.haltsWithin_add (Table.walk?_match hx stack rest)).trans hn⟩
        · exact ⟨1, by simp [Table.haltsWithin, Table.forward?, hx, he]⟩
      · cases hcell : t.get? x current with
        | none => exact ⟨1, by simp [Table.haltsWithin, Table.forward?, hx, hcell]⟩
        | some right =>
          obtain ⟨m, hwalk⟩ := hp.exists_walk_of_cell hcell
          rcases hwalk with hwalk | ⟨left, hwalk⟩
          · obtain ⟨n, hn⟩ := ihs
            exact ⟨m + n, (Table.haltsWithin_add (hwalk stack rest)).trans hn⟩
          · obtain ⟨n, hn⟩ := ih (left ++ stack)
            exact ⟨m + n, (Table.haltsWithin_add (hwalk stack rest)).trans hn⟩

theorem exists_run (hp : g.PredictsFor t) (input : List Symbol) (start : Symbol) :
    ∃ n outcome, t.run n (.initial input start) = some outcome ∧
      t.recognize input start = outcome := by
  have hrun : ∃ n, (t.run n (.initial input start)).isSome = true := by
    by_cases hs : start ∈ t.terminals
    · obtain ⟨outcome, ho⟩ := Table.step_of_terminal_start hp.reachable.sound input hs
      exact ⟨1, by rw [Table.run, ho]; rfl⟩
    · obtain ⟨n, hn⟩ := hp.exists_haltsWithin [start] input
      exact ⟨n, ((Configuration.Stacked.initial input hs).isSome_run n).trans hn⟩
  obtain ⟨n, hn⟩ := hrun
  obtain ⟨outcome, ho⟩ := Option.isSome_iff_exists.1 hn
  exact ⟨n, outcome, ho, hp.reachable.recognize_of_run ho⟩

theorem recognize_ne_unending (hp : g.PredictsFor t) (input : List Symbol) (start : Symbol) :
    t.recognize input start ≠ .error .unending := by
  obtain ⟨n, outcome, hrun, ho⟩ := hp.exists_run input start
  rw [ho]
  rintro rfl
  exact Table.run_ne_unending hrun

theorem exists_halt (hp : g.PredictsFor t) (input : List Symbol) {a : Symbol}
    (ha : a ∈ g.nonTerminals) :
    ∃ m s p, t.walk? m ([a], input) = some s ∧ t.forward? s = none ∧
      p + s.2.length = input.length ∧
      Rejection.ofOutcome? (t.recognize input a) = t.verdict p s := by
  have hstacked := Configuration.Stacked.initial input (hp.not_mem_terminals ha)
  obtain ⟨n, outcome, hrun, ho⟩ := hp.exists_run input a
  obtain ⟨m, s, p, hwalk, hhalt, hpos, hv⟩ := hstacked.exists_walk_of_run hrun
  refine ⟨m, s, p, hwalk, hhalt, ?_, ho ▸ hv⟩
  simpa [Configuration.initial] using hpos

end PredictsFor

def nested : Grammar :=
  ⟨{ terminals := .ofList ['(', ')']
     nonTerminals := .ofList ['S', 'U']
     productions := [⟨'S', ['(', 'S', ')', 'S']⟩, ⟨'S', []⟩, ⟨'U', ['U', '(']⟩]
     start := 'S' }, Presentation.fault?_eq_none_iff.1 (by decide)⟩

theorem nested_isLL1 : nested.isLL1 = true := by decide +kernel

theorem recognition_ends (h : g.table? = some t) (input : List Symbol) (start : Symbol) :
    ∃ n outcome, t.run n (.initial input start) = some outcome ∧
      t.recognize input start = outcome :=
  (predictsFor_of_table? h).exists_run input start

theorem nested_recognition_ends :
    ∃ t, nested.table? = some t ∧ ∃ n outcome, t.run n (.initial ['(', '(', '$'] 'U') =
      some outcome ∧ t.recognize ['(', '(', '$'] 'U' = outcome := by
  obtain ⟨t, ht⟩ := Option.isSome_iff_exists.1 nested_isLL1
  exact ⟨t, ht, recognition_ends ht ['(', '(', '$'] 'U'⟩

end Grammar

end PredictiveParsing
