import PredictiveParsing.Proofs.Termination

/-!
# Errors are found as early as possible

A walk is the same on every input that agrees with this one up to the next symbol. So where the
machine is stuck, no sentence begins with what has been read and the symbol that comes next
(`PredictsFor.not_prefix_of_stuck`). What has been read, on the other hand, is always the beginning
of something that the start symbol derives.
-/
namespace PredictiveParsing

namespace Grammar

variable {g : Grammar} {t : Table}

namespace PredictsFor

theorem not_prefix_of_stuck (hp : g.PredictsFor t) {m : Nat} {x c : Symbol}
    {α u z : List Symbol} (hwalk : t.walk? m ([g.start], u ++ c :: z) = some (x :: α, c :: z))
    (hstuck : t.forward? (x :: α, c :: z) = none) {v : List Symbol} (hv : g.Sentence v) :
    ¬ u ++ [c] <+: v ++ [endMark] := by
  intro ⟨z', hz⟩
  have hinput : v ++ [endMark] = u ++ c :: z' := by
    rw [← hz, List.append_assoc]
    rfl
  obtain ⟨n, haccept⟩ := hp.exists_walk_of_derives .start hv.1 hv.2
  rw [hinput] at haccept
  have hwalk' := Table.walk?_lookahead hwalk z'
  have hstuck' := Table.forward?_eq_none_lookahead hstuck z'
  have hsame := Table.halt_unique hwalk' hstuck' haccept rfl
  cases hsame

end PredictsFor

theorem exists_sentence_of_productive (hprod : ∀ a ∈ g.nonTerminals, g.Productive a)
    {u β : List Symbol} (hu : g.Word u) (h : g.Derives [g.start] (u ++ β)) :
    ∃ v, g.Sentence v ∧ u <+: v := by
  obtain ⟨-, hβ⟩ := List.forall_mem_append.1 h.declares_of_start
  obtain ⟨w, hw⟩ := exists_spells hprod hβ
  obtain ⟨hword, hder⟩ := spells_iff.1 hw
  have hsentence : g.Sentence (u ++ w) :=
    ⟨word_append.2 ⟨hu, hword⟩, h.trans (hder.append_left u)⟩
  exact ⟨u ++ w, hsentence, List.prefix_append u w⟩

/-- What is known when the input is rejected: the machine refuses the next symbol, or the input or
the stack is used up. -/
theorem PredictsFor.exists_stuck (hp : g.PredictsFor t) {input : List Symbol} {reason : Rejection}
    (h : t.recognize input g.start = .error reason) :
    ∃ u α rest, input = u ++ rest ∧ g.Word u ∧ g.Derives [g.start] (u ++ α) ∧
      (reason.position? = some u.length ∧ (∃ c z, rest = c :: z ∧
          ∀ v, g.Sentence v → ¬ u ++ [c] <+: v ++ [endMark]) ∨
        reason = .leftOver rest ∧ rest ≠ [endMark] ∧ (rest = [] ∨ α = [])) := by
  have hstart := g.wellFormed.start_mem
  obtain ⟨m, ⟨α, rest⟩, p, hwalk, hhalt, hpos, hverdict⟩ := hp.exists_halt input hstart
  rw [h] at hverdict
  obtain ⟨u, rfl, hu, hder⟩ := hp.leftDerives_of_walk? (declares_singleton hstart) hwalk
  obtain rfl : p = u.length := by
    rw [List.length_append] at hpos
    exact Nat.add_right_cancel hpos
  refine ⟨u, α, rest, rfl, hu, hder.derives, ?_⟩
  rcases Table.verdict_eq_some_cases hverdict.symm with ⟨x, stack, c, z, hs, hposition⟩ | hleft
  · cases hs
    have hnone := fun v hv => hp.not_prefix_of_stuck hwalk hhalt (v := v) hv
    exact .inl ⟨hposition, c, z, rfl, hnone⟩
  · obtain ⟨hend, hreason, hempty⟩ := hleft
    exact .inr ⟨hreason, hend, hempty⟩

theorem rejection_is_earliest (h : g.table? = some t) (input : List Symbol) :
    (∀ reason n, t.recognize input g.start = .error reason → reason.position? = some n →
      n < input.length ∧
      (∀ v, g.Sentence v → ¬ input.take (n + 1) <+: v ++ [endMark]) ∧
      (∃ β, g.Derives [g.start] (input.take n ++ β)) ∧
      ((∀ a ∈ g.nonTerminals, g.Productive a) → ∃ v, g.Sentence v ∧ input.take n <+: v)) ∧
    (∀ rest, t.recognize input g.start = .error (.leftOver rest) →
      ∃ u, input = u ++ rest ∧
        (rest = [] ∧ (∃ β, g.Derives [g.start] (input ++ β)) ∨
          rest ≠ [] ∧ rest ≠ [endMark] ∧ g.Sentence u)) := by
  have hp := predictsFor_of_table? h
  constructor
  · intro reason n hr hn
    obtain ⟨u, α, rest, rfl, hu, hder, hstuck⟩ := hp.exists_stuck hr
    rcases hstuck with ⟨hposition, c, z, rfl, hnone⟩ | ⟨hleft, -, -⟩
    · obtain rfl : n = u.length := Option.some.inj (hn.symm.trans hposition)
      have hread : (u ++ c :: z).take (u.length + 1) = u ++ [c] := List.take_length_add_append 1
      have hlength : u.length < (u ++ c :: z).length := by
        rw [List.length_append, List.length_cons]
        omega
      rw [hread, List.take_left]
      exact ⟨hlength, hnone, ⟨α, hder⟩, fun hprod => exists_sentence_of_productive hprod hu hder⟩
    · rw [hleft] at hn
      cases hn
  · intro rest hr
    obtain ⟨u, α, rest', rfl, hu, hder, hstuck⟩ := hp.exists_stuck hr
    rcases hstuck with ⟨hposition, -⟩ | ⟨hleft, hend, hempty⟩
    · cases hposition
    · cases hleft
      refine ⟨u, rfl, ?_⟩
      by_cases hrest : rest = []
      · subst hrest
        rw [List.append_nil]
        exact .inl ⟨rfl, α, hder⟩
      · obtain rfl := hempty.resolve_left hrest
        rw [List.append_nil] at hder
        exact .inr ⟨hrest, hend, hu, hder⟩

theorem nested_rejection_is_earliest :
    ∃ t, nested.table? = some t ∧
      t.recognize ['(', '$'] 'S' = .error (.mismatch ')' '$' 1) ∧
      ∀ v, nested.Sentence v → ¬ ['(', '$'] <+: v ++ ['$'] := by
  have hreject : ∃ t, nested.table? = some t ∧
      t.recognize ['(', '$'] 'S' = .error (.mismatch ')' '$' 1) := by
    simp only [← Rejection.ofOutcome?_eq_some_iff, ← beq_iff_eq (a := Rejection.ofOutcome? _)]
    rw [← Option.any_eq_true]
    decide +kernel
  obtain ⟨t, ht, hreason⟩ := hreject
  have hnone := ((rejection_is_earliest ht ['(', '$']).1 _ 1 hreason rfl).2.1
  exact ⟨t, ht, hreason, hnone⟩

end Grammar

end PredictiveParsing
