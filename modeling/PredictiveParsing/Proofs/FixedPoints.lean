import Mathlib.Logic.Relation
import PredictiveParsing.Proofs.Exactness

/-!
# The loops of the analysis end

A loop goes round until a round reports no change (`Settles`), with no limit on the rounds. If a
report is exact, in that a step with one makes the value larger and a step without one leaves it
alone, then the loop ends, and every round but the last makes the value larger
(`Grows.growingLoop`). For nullable symbols and for what can follow, a step only adds to what is
stored. The first terminals of a non-terminal are computed anew and replace the stored set when the
sizes differ; that the report is exact rests on the invariant that the stored set is part of the
new one, also while the sets of other non-terminals change in the same round
(`FirstInvariant.replacesExactly`).
-/
namespace PredictiveParsing

section Loop

variable {α β : Type}

inductive Settles (round : α → Progress α) : α → α → Prop where
  | last {a : α} : (round a).changed = false → Settles round a (round a).value
  | again {a b : α} : (round a).changed = true → Settles round (round a).value b →
      Settles round a b

abbrev BeginsRound (round : α → Progress α) : α → α → Prop :=
  Relation.ReflTransGen fun a b => (round a).changed = true ∧ (round a).value = b

/-- In some round the value is `a` when these items are left to do. -/
def Stands (step : α → β → Progress α) (items : List β) (seed : α) (todo : List β) (a : α) : Prop :=
  ∃ start before, BeginsRound (sweep step items) seed start ∧ items = before ++ todo ∧
    (sweep step before start).value = a

/-- A loop that ends, and on its way never leaves a range and never changes the value other than by
making it larger, which it reports. -/
structure GrowingLoop (step : α → β → Progress α) (items : List β) (seed result : α)
    (Within : α → Prop) (Larger : α → α → Prop) : Prop where
  ends : Settles (sweep step items) seed result
  within : ∀ todo a, Stands step items seed todo a → Within a
  result_within : Within result
  step_larger : ∀ b todo a, Stands step items seed (b :: todo) a →
    (step a b).changed = true → Larger a (step a b).value
  step_same : ∀ b todo a, Stands step items seed (b :: todo) a →
    (step a b).changed = false → (step a b).value = a
  round_larger : ∀ a, BeginsRound (sweep step items) seed a →
    (sweep step items a).changed = true → Larger a (sweep step items a).value
  last_same : ∀ a, BeginsRound (sweep step items) seed a →
    (sweep step items a).changed = false → (sweep step items a).value = a

namespace Grows

variable {step : α → β → Progress α} {items todo : List β} {Good : α → Prop} {size : α → Nat}
  {seed a : α}

theorem good_of_beginsRound (h : Grows step items Good size) (hseed : Good seed)
    (ha : BeginsRound (sweep step items) seed a) : Good a := by
  induction ha with
  | refl => exact hseed
  | tail _ hround ih => exact hround.2 ▸ h.sweep_keeps ih

theorem good_of_stands (h : Grows step items Good size) (hseed : Good seed)
    (ha : Stands step items seed todo a) : Good a := by
  obtain ⟨start, before, hstart, rfl, rfl⟩ := ha
  have hbefore : Grows step before Good size := h.of_subset (List.subset_append_left before todo)
  exact hbefore.sweep_keeps (h.good_of_beginsRound hseed hstart)

theorem settles (h : Grows step items Good size) {bound : Nat}
    (bounded : ∀ a, Good a → size a ≤ bound) {n : Nat} (ha : Good a) (hn : bound < size a + n) :
    Settles (sweep step items) a (PredictiveParsing.saturate (sweep step items) n a) := by
  induction n generalizing a with
  | zero => exact absurd (bounded a ha) (by omega)
  | succ n ih =>
    simp only [PredictiveParsing.saturate]
    split
    · next hc =>
      have hlt := h.sweep_grows ha hc
      exact .again hc (ih (h.sweep_keeps ha) (by omega))
    · next hc => exact .last (by simpa using hc)

/-- The value that is computed with a limit on the rounds is that of the loop without one. -/
theorem growingLoop (h : Grows step items Good size) (bound : Nat)
    (bounded : ∀ a, Good a → size a ≤ bound) {Within : α → Prop} {Larger : α → α → Prop}
    (within : ∀ a, Good a → Within a) (trans : ∀ a b c, Larger a b → Larger b c → Larger a c)
    (advances : ∀ a, Good a → ∀ b ∈ items, (step a b).changed = true → Larger a (step a b).value)
    {n : Nat} (hseed : Good seed) (hn : bound < size seed + n) :
    GrowingLoop step items seed (PredictiveParsing.saturate (sweep step items) n seed) Within
      Larger := by
  have hmem : ∀ {b todo a}, Stands step items seed (b :: todo) a → Good a ∧ b ∈ items := by
    intro b todo a ha
    have hgood := h.good_of_stands hseed ha
    obtain ⟨_, before, _, hitems, _⟩ := ha
    exact ⟨hgood, by simp [hitems]⟩
  constructor
  · exact h.settles bounded hseed hn
  · exact fun todo a ha => within a (h.good_of_stands hseed ha)
  · exact within _ (h.saturate bound bounded hseed hn).1
  · exact fun b todo a ha hc => advances a (hmem ha).1 b (hmem ha).2 hc
  · exact fun b todo a ha hc => h.stays a (hmem ha).1 b (hmem ha).2 hc
  · exact fun a ha hc => h.sweep_advances trans advances (h.good_of_beginsRound hseed ha) hc
  · exact fun a ha hc => (h.sweep_stays (h.good_of_beginsRound hseed ha) hc).1

end Grows

end Loop

namespace Grammar

variable {g : Grammar}

structure ReplacesExactly (g : Grammar) (first : SetFamily) (a : Symbol) : Prop where
  included : first.get a ⊆ g.recomputedFirst g.analysis.nullable first a
  size_tells : (g.recomputedFirst g.analysis.nullable first a).size = (first.get a).size ↔
    g.recomputedFirst g.analysis.nullable first a = first.get a
  stored : (g.updateFirst g.analysis.nullable first a).value.get a =
    g.recomputedFirst g.analysis.nullable first a
  same_or_larger : (g.updateFirst g.analysis.nullable first a).value.get a = first.get a ∨
    (first.get a).size < ((g.updateFirst g.analysis.nullable first a).value.get a).size
  others : ∀ b, b ≠ a → (g.updateFirst g.analysis.nullable first a).value.get b = first.get b

theorem FirstInvariant.replacesExactly {first : SetFamily} (h : g.FirstInvariant first) {a : Symbol}
    (ha : a ∈ g.nonTerminals) : g.ReplacesExactly first a := by
  have hsub : first.get a ⊆ g.recomputedFirst g.analysis.nullable first a := h.stored a ha
  have heq : (g.recomputedFirst g.analysis.nullable first a).size = (first.get a).size →
      g.recomputedFirst g.analysis.nullable first a = first.get a := fun hsize =>
    SymbolSet.ext fun t => ⟨SymbolSet.subset_of_size_eq hsub hsize t, hsub t⟩
  have hstored : (g.updateFirst g.analysis.nullable first a).value.get a =
      g.recomputedFirst g.analysis.nullable first a := by
    simp only [updateFirst]
    split
    · next hsize => exact (heq hsize).symm
    · exact SetFamily.get_set_self
  refine ⟨hsub, ⟨heq, congrArg SymbolSet.size⟩, hstored, ?_, fun b hb => ?_⟩
  · rw [hstored]
    by_cases hsize : (g.recomputedFirst g.analysis.nullable first a).size = (first.get a).size
    · exact .inl (heq hsize)
    · exact .inr (SymbolSet.size_lt_of_ssubset (SymbolSet.ssubset_of_size_ne hsub hsize))
  · simp only [updateFirst]
    split
    · rfl
    · rw [SetFamily.get_set, if_neg hb]

/-- The three loops of the analysis, each begun when the one before it has ended. -/
theorem fixed_point_loops_end (g : Grammar) :
    GrowingLoop g.markNullable g.nonTerminalOrder ∅ g.analysis.nullable
      (· ⊆ g.nonTerminals) (· ⊂ ·) ∧
    GrowingLoop (g.updateFirst g.analysis.nullable) g.nonTerminalOrder g.firstSeed g.analysis.first
      (fun first => ∀ a, first.get a ⊆ g.terminals) (SetFamily.Enlarged g.nonTerminalOrder) ∧
    GrowingLoop (extendFollow g.analysis.nullable g.analysis.first) g.occurrences g.followSeed
      g.analysis.follow (fun follow => ∀ a, follow.get a ⊆ g.terminals.insert endMark)
      (SetFamily.Enlarged g.nonTerminalOrder) ∧
    ∀ a todo first, Stands (g.updateFirst g.analysis.nullable) g.nonTerminalOrder g.firstSeed
      (a :: todo) first → g.ReplacesExactly first a := by
  refine ⟨?_, ?_, ?_, fun a todo first hfirst => ?_⟩
  · apply markNullable_grows.growingLoop g.nonTerminals.size
    · exact fun _ => size_le_of_vanishes
    · exact fun _ hn a ha => (hn a ha).mem_nonTerminals
    · exact fun _ _ _ => SymbolSet.ssubset_trans
    · exact fun _ _ _ _ hc => markNullable_advances hc
    · exact fun _ ha => absurd ha SymbolSet.not_mem_empty
    · omega
  · apply updateFirst_grows.growingLoop (g.nonTerminals.size * g.terminals.size)
    · exact fun _ hf => hf.total_le
    · exact fun _ hf a t ht => (hf.sound a t ht).mem_terminals
    · exact fun _ _ _ => SetFamily.Enlarged.trans
    · exact fun _ hf _ ha hc => hf.updateFirst_advances ha hc
    · exact firstSeed_invariant
    · omega
  · apply extendFollow_grows.growingLoop (g.nonTerminals.size * (g.terminals.size + 1))
    · exact fun _ hf => hf.total_le
    · exact fun _ hf => hf.within
    · exact fun _ _ _ => SetFamily.Enlarged.trans
    · exact fun _ _ _ ho hc => extendFollow_advances ho hc
    · exact followSeed_invariant
    · omega
  · have hinvariant := updateFirst_grows.good_of_stands firstSeed_invariant hfirst
    obtain ⟨_, before, _, horder, _⟩ := hfirst
    have ha : a ∈ g.nonTerminalOrder := by simp [horder]
    exact hinvariant.replacesExactly (mem_nonTerminalOrder.1 ha)

def circular : Grammar :=
  ⟨{ terminals := .ofList ['z']
     nonTerminals := .ofList ['S', 'X']
     productions := [⟨'S', ['X', 'z']⟩, ⟨'S', []⟩, ⟨'X', ['S']⟩]
     start := 'S' }, Presentation.fault?_eq_none_iff.1 (by decide)⟩

/-- In the first round the set of the second non-terminal is computed from one that this round has
replaced. -/
theorem circular_loops_end :
    Stands (circular.updateFirst circular.analysis.nullable) circular.nonTerminalOrder
      circular.firstSeed ['X'] (circular.firstSeed.set 'S' (.ofList ['z'])) ∧
    ((circular.updateFirst circular.analysis.nullable
      (circular.firstSeed.set 'S' (.ofList ['z'])) 'X').value.get 'X').toList = ['z'] ∧
    Settles (sweep (circular.updateFirst circular.analysis.nullable) circular.nonTerminalOrder)
      circular.firstSeed circular.analysis.first ∧
    (circular.analysis.first.get 'S').toList = ['z'] := by
  have hstands : Stands (circular.updateFirst circular.analysis.nullable) circular.nonTerminalOrder
      circular.firstSeed ['X'] (circular.firstSeed.set 'S' (.ofList ['z'])) :=
    ⟨circular.firstSeed, ['S'], .refl, by decide, by decide⟩
  obtain ⟨-, hfirst, -, hreplaces⟩ := fixed_point_loops_end circular
  refine ⟨hstands, ?_, hfirst.ends, by decide⟩
  rw [(hreplaces 'X' [] _ hstands).stored]
  decide

end Grammar

end PredictiveParsing
