import PredictiveParsing.Proofs.Competition

/-!
# Left recursion leaves no table

Nothing looks for left recursion when a table is built. It shows in the machine. Let a non-terminal
derive a string with itself in front, and let a symbol be ahead of that string. With a table and
this symbol next, the machine expands the non-terminal until it is on top of the stack again, and
reads nothing (`PredictsFor.uncovers_of_cycle`). Such a run never ends, but with the table of a
grammar every run does, so there is no table (`table?_eq_none_of_cycle`). It does not matter whether
the recursion is direct, goes through other symbols or is hidden behind symbols that vanish. The
symbol ahead is one that the non-terminal can begin with, or one that follows it if it vanishes and
derives just itself (`left_recursion_has_no_table`).
-/
namespace PredictiveParsing

namespace Grammar

variable {g : Grammar} {t : Table}

theorem PredictsFor.uncovers_of_cycle (hp : g.PredictsFor t) {a c : Symbol} {v : List Symbol}
    (hcycle : Relation.TransGen g.Produces [a] (a :: v)) (hc : g.Ahead (a :: v) (g.Follows a) c) :
    t.Uncovers c a a := by
  obtain ⟨right, hstep, hrest⟩ := Relation.TransGen.head'_iff.1 hcycle
  have hprod := produces_singleton.1 hstep
  have hpredicts : g.Predicts ⟨a, right⟩ c := hc.of_derives hrest
  -- nothing is read on the way from the right side back to `a`
  obtain ⟨left, hreads, hleft⟩ := exists_reads_of_derives word_nil hrest
  have hbehind := hc.of_derives (hleft.append_left [a])
  obtain ⟨m, hwalk⟩ := hp.exists_walk_of_reads hreads (followed_right hprod) hbehind
  refine ⟨1 + m, left, by omega, fun below rest => ?_⟩
  rw [Table.walk?_add, hp.walk?_predicted hprod hpredicts]
  exact hwalk below rest

theorem table?_eq_none_of_cycle {a c : Symbol} {v : List Symbol}
    (hcycle : Relation.TransGen g.Produces [a] (a :: v)) (hc : g.Ahead (a :: v) (g.Follows a) c) :
    g.table? = none := by
  cases ht : g.table? with
  | none => rfl
  | some t =>
    have hp := predictsFor_of_table? ht
    obtain ⟨n, hn⟩ := hp.exists_haltsWithin [a] [c]
    have hnever := Table.not_haltsWithin_of_uncovers_self (hp.uncovers_of_cycle hcycle hc) n [] []
    rw [hn] at hnever
    cases hnever

theorem left_recursion_has_no_table (g : Grammar) :
    (∀ a v f s, a ∈ g.nonTerminals → Relation.TransGen g.Produces [a] (a :: v) →
      g.first? [a] = .ok f → s ∈ f → s ∈ g.terminals → g.table? = none) ∧
    ∀ a f, a ∈ g.nonTerminals → Relation.TransGen g.Produces [a] [a] → g.nullable? a = .ok true →
      g.follow? a = .ok f → f ≠ ∅ → g.table? = none := by
  constructor
  · intro a v f s ha hcycle hf hs hterminal
    rw [first?_eq_ok (declares_singleton ha)] at hf
    obtain rfl := Except.ok.inj hf
    have hbegins := (mem_firstOf (ne_epsilon_of_mem_terminals hterminal)).1 hs
    exact table?_eq_none_of_cycle hcycle (.inl (begins_cons.2 (.inl hbegins)))
  · intro a f _ hcycle hn hf hne
    obtain ⟨-, rfl⟩ := follow?_eq_ok_iff.1 hf
    obtain ⟨c, hc⟩ := SymbolSet.exists_mem_of_ne_empty hne
    have hvanishes := nullable?_eq_ok_true.1 hn
    exact table?_eq_none_of_cycle hcycle (.inr ⟨hvanishes, mem_follow.1 hc⟩)

def hidden : Grammar :=
  ⟨{ terminals := .ofList ['a', 'b']
     nonTerminals := .ofList ['S', 'N']
     productions := [⟨'S', ['N', 'S', 'b']⟩, ⟨'S', ['a']⟩, ⟨'N', []⟩]
     start := 'S' }, Presentation.fault?_eq_none_iff.1 (by decide)⟩

def idle : Grammar :=
  ⟨{ terminals := .ofList []
     nonTerminals := .ofList ['S', 'N']
     productions := [⟨'S', ['N']⟩, ⟨'N', ['S']⟩, ⟨'N', []⟩]
     start := 'S' }, Presentation.fault?_eq_none_iff.1 (by decide)⟩

theorem hidden_and_idle_have_no_table :
    (Relation.TransGen hidden.Produces ['S'] ['S', 'b'] ∧
      hidden.first? ['S'] = .ok (.ofList ['a']) ∧ hidden.table? = none) ∧
    Relation.TransGen idle.Produces ['S'] ['S'] ∧ idle.nullable? 'S' = .ok true ∧
      idle.follow? 'S' = .ok (.ofList ['$']) ∧ idle.table? = none := by
  have hbehind : Relation.TransGen hidden.Produces ['S'] ['S', 'b'] :=
    .tail (.single (produces_singleton.2 (by decide)))
      (.step (p := ⟨'N', []⟩) [] ['S', 'b'] (by decide))
  have hround : Relation.TransGen idle.Produces ['S'] ['S'] :=
    .tail (.single (produces_singleton.2 (by decide : ⟨'S', ['N']⟩ ∈ idle.productions)))
      (produces_singleton.2 (by decide))
  have hfirst : hidden.first? ['S'] = .ok (.ofList ['a']) := rfl
  have hnullable : idle.nullable? 'S' = .ok true := rfl
  have hfollow : idle.follow? 'S' = .ok (.ofList ['$']) := rfl
  have hnone := (left_recursion_has_no_table hidden).1 'S' ['b'] _ 'a' (by decide) hbehind hfirst
    (by decide) (by decide)
  have hnone' := (left_recursion_has_no_table idle).2 'S' _ (by decide) hround hnullable hfollow
    (by decide)
  exact ⟨⟨hbehind, hfirst, hnone⟩, hround, hnullable, hfollow, hnone'⟩

end Grammar

end PredictiveParsing
