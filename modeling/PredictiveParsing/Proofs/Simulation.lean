import PredictiveParsing.Proofs.Prediction
import PredictiveParsing.Proofs.Reading
import PredictiveParsing.Proofs.StackWalk

/-!
# The stack machine follows leftmost derivations

With the table of a grammar, the part of the input that a walk has read and the symbols left on the
stack make up what the first stack derives from the left (`PredictsFor.leftDerives_of_walk?`).
Conversely the machine makes every reading after which the next symbol is ahead, as long as
`Follows` knows what comes behind the stack (`PredictsFor.exists_walk_of_reads`): the production
that the reading uses is predicted by the next symbol, and no other production is. So it finds a
derivation of the word ahead of it (`PredictsFor.exists_walk_of_spells`).
-/
namespace PredictiveParsing

namespace Grammar

variable {g : Grammar} {t : Table}

theorem Spells.exists_ahead {α w : List Symbol} {E : Symbol → Prop} {c : Symbol}
    (h : g.Spells α w) (hc : E c) (rest : List Symbol) :
    ∃ d z, w ++ c :: rest = d :: z ∧ g.Ahead α E d :=
  h.reads.exists_ahead (.inr ⟨.nil, hc⟩) rest

namespace PredictsFor

theorem mem_terminals (hp : g.PredictsFor t) {s : Symbol} :
    s ∈ t.terminals ↔ s = endMark ∨ s ∈ g.terminals := by
  rw [hp.terminals]
  exact SymbolSet.mem_insert

theorem terminal_of_declares (hp : g.PredictsFor t) {s : Symbol} (hs : g.Declares s) :
    s ∈ t.terminals ↔ s ∈ g.terminals := by
  rw [hp.mem_terminals]
  constructor
  · intro h
    rcases h with rfl | h
    · exact absurd hs not_declares_endMark
    · exact h
  · exact .inr

theorem not_mem_terminals (hp : g.PredictsFor t) {a : Symbol} (ha : a ∈ g.nonTerminals) :
    a ∉ t.terminals := by
  rw [hp.terminal_of_declares (.inr ha)]
  exact not_mem_terminals_of_mem_nonTerminals ha

theorem walk?_predicted (hp : g.PredictsFor t) {p : Production} (h : p ∈ g.productions)
    {current : Symbol} (hc : g.Predicts p current) (below rest : List Symbol) :
    t.walk? 1 (p.left :: below, current :: rest) = some (p.right ++ below, current :: rest) := by
  have hleft := hp.not_mem_terminals (g.wellFormed.left_mem p h)
  exact Table.walk?_expand hleft (hp.cell.2 ⟨h, hc⟩) below rest

theorem walk?_terminal (hp : g.PredictsFor t) {s : Symbol} (hs : s ∈ g.terminals)
    (below rest : List Symbol) : t.walk? 1 (s :: below, s :: rest) = some (below, rest) :=
  Table.walk?_match (hp.mem_terminals.2 (.inr hs)) below rest

theorem leftDerives_of_walk? (hp : g.PredictsFor t) {m : Nat} {α β s rest : List Symbol}
    (hα : ∀ x ∈ α, g.Declares x) (h : t.walk? m (α, s) = some (β, rest)) :
    ∃ u, s = u ++ rest ∧ g.Word u ∧ g.LeftDerives α (u ++ β) := by
  induction m generalizing α s with
  | zero =>
    cases h
    exact ⟨[], rfl, word_nil, .refl⟩
  | succ m ih =>
    obtain ⟨v, hv, hwalk⟩ := Table.walk?_succ_cases h
    obtain ⟨x, stack, current, tail, hs, hcases⟩ := Table.forward?_cases hv
    cases hs
    obtain ⟨hx, hstack⟩ := List.forall_mem_cons.1 hα
    rcases hcases with ⟨hterm, rfl, rfl⟩ | ⟨_, right, hright, rfl⟩
    · obtain ⟨u, rfl, hu, hder⟩ := ih hstack hwalk
      have hxg := (hp.terminal_of_declares hx).1 hterm
      have hword : g.Word [x] := word_cons.2 ⟨hxg, word_nil⟩
      exact ⟨x :: u, rfl, word_cons.2 ⟨hxg, hu⟩, hder.append_left hword⟩
    · obtain ⟨hprod, _⟩ := hp.cell.1 hright
      have hdeclares : ∀ y ∈ right ++ stack, g.Declares y :=
        List.forall_mem_append.2 ⟨g.wellFormed.right_declared _ hprod, hstack⟩
      obtain ⟨u, hu, hword, hder⟩ := ih hdeclares hwalk
      have hstep : g.LeftProduces (x :: stack) (right ++ stack) := .step stack word_nil hprod
      exact ⟨u, hu, hword, .head hstep hder⟩

theorem exists_walk_of_reads (hp : g.PredictsFor t) {α w β : List Symbol} {E : Symbol → Prop}
    {c : Symbol} (h : g.Reads α w β) (hf : g.Followed E α) (hc : g.Ahead β E c) :
    ∃ m, ∀ below rest,
      t.walk? m (α ++ below, w ++ c :: rest) = some (β ++ below, c :: rest) := by
  induction h with
  | done => exact ⟨0, fun _ _ => rfl⟩
  | @terminal s α w β hs _ ih =>
    obtain ⟨m, hwalk⟩ := ih hf.2 hc
    refine ⟨1 + m, fun below rest => ?_⟩
    rw [List.cons_append, List.cons_append, Table.walk?_add, hp.walk?_terminal hs]
    exact hwalk below rest
  | @expand p α w β hprod hreads ih =>
    obtain ⟨m, hwalk⟩ := ih (hf.expand hprod) hc
    refine ⟨1 + m, fun below rest => ?_⟩
    obtain ⟨d, z, hd, hahead⟩ := hreads.exists_ahead hc rest
    have hpredicts : g.Predicts p d :=
      (ahead_append.1 hahead).mono (hf.1 (g.wellFormed.left_mem p hprod))
    have hnext := hwalk below rest
    rw [hd] at hnext ⊢
    rw [List.cons_append, Table.walk?_add, hp.walk?_predicted hprod hpredicts,
      ← List.append_assoc]
    exact hnext

theorem exists_walk_of_spells (hp : g.PredictsFor t) {α w : List Symbol} {E : Symbol → Prop}
    {c : Symbol} (h : g.Spells α w) (hf : g.Followed E α) (hc : E c) :
    ∃ m, ∀ below rest, t.walk? m (α ++ below, w ++ c :: rest) = some (below, c :: rest) :=
  hp.exists_walk_of_reads h.reads hf (.inr ⟨.nil, hc⟩)

/-- A word that can stand before the end marker is read completely. -/
theorem exists_walk_of_derives (hp : g.PredictsFor t) {a : Symbol} {w : List Symbol}
    (hend : g.Follows a endMark) (hw : g.Word w) (hder : g.Derives [a] w) :
    ∃ m, t.walk? m ([a], w ++ [endMark]) = some ([], [endMark]) := by
  obtain ⟨m, hwalk⟩ :=
    hp.exists_walk_of_spells (spells_iff.2 ⟨hw, hder⟩) (followed_singleton a) hend
  exact ⟨m, hwalk [] []⟩

end PredictsFor

end Grammar

end PredictiveParsing
