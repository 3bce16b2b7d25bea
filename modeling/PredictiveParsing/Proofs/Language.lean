import PredictiveParsing.Proofs.Termination

/-!
# Recognition decides the language

The machine accepts just where it halts with an empty stack before the end marker. Then all that
was read is derived from the first symbol on the stack, and what is read up to the end marker is
accepted if it is derived and the end marker can follow (`recognizes_language`).
-/
namespace PredictiveParsing

namespace Grammar

variable {g : Grammar} {t : Table}

namespace PredictsFor

theorem recognize_eq_ok_iff (hp : g.PredictsFor t) {input : List Symbol} {a : Symbol}
    (ha : a ∈ g.nonTerminals) :
    (∃ tree, t.recognize input a = .ok tree) ↔
      ∃ m, t.walk? m ([a], input) = some ([], [endMark]) := by
  obtain ⟨n, s, p, hwalk, hhalt, -, hverdict⟩ := hp.exists_halt input ha
  rw [← Rejection.ofOutcome?_eq_none_iff, hverdict, Table.verdict_eq_none_iff]
  constructor
  · intro hs
    exact ⟨n, hs ▸ hwalk⟩
  · intro ⟨m, hm⟩
    exact Table.halt_unique hwalk hhalt hm rfl

theorem derives_of_recognize (hp : g.PredictsFor t) {input : List Symbol} {a : Symbol}
    {tree : ParseTree} (h : t.recognize input a = .ok tree) :
    a ∈ g.nonTerminals ∧ ∃ w, input = w ++ [endMark] ∧ g.Word w ∧ g.Derives [a] w := by
  have ha : a ∈ g.nonTerminals := by
    by_contra hn
    rw [← hp.nonTerminals] at hn
    obtain ⟨reason, hr⟩ := hp.reachable.recognize_of_not_mem hn input
    rw [hr] at h
    cases h
  obtain ⟨m, hm⟩ := (hp.recognize_eq_ok_iff ha).1 ⟨tree, h⟩
  obtain ⟨w, hw, hword, hder⟩ := hp.leftDerives_of_walk? (declares_singleton ha) hm
  rw [List.append_nil] at hder
  exact ⟨ha, w, hw, hword, hder.derives⟩

theorem recognize_of_derives (hp : g.PredictsFor t) {a : Symbol} (ha : a ∈ g.nonTerminals)
    (hend : g.Follows a endMark) {w : List Symbol} (hw : g.Word w) (hder : g.Derives [a] w) :
    ∃ tree, t.recognize (w ++ [endMark]) a = .ok tree :=
  (hp.recognize_eq_ok_iff ha).2 (hp.exists_walk_of_derives hend hw hder)

end PredictsFor

theorem follow?_eq_ok_iff {a : Symbol} {f : SymbolSet} :
    g.follow? a = .ok f ↔ a ∈ g.nonTerminals ∧ g.analysis.follow.get a = f := by
  unfold follow?
  split
  · next ha => exact ⟨fun h => ⟨ha, Except.ok.inj h⟩, fun h => congrArg _ h.2⟩
  · next ha => exact ⟨nofun, fun h => absurd h.1 ha⟩

theorem recognizes_language (h : g.table? = some t) :
    (∀ a input tree, t.recognize input a = .ok tree →
      a ∈ g.nonTerminals ∧ ∃ w, input = w ++ [endMark] ∧ g.Word w ∧ g.Derives [a] w) ∧
    (∀ a f w, a ∈ g.nonTerminals → g.follow? a = .ok f → endMark ∈ f → g.Word w →
      g.Derives [a] w → ∃ tree, t.recognize (w ++ [endMark]) a = .ok tree) ∧
    ∃ f, g.follow? g.start = .ok f ∧ endMark ∈ f := by
  have hp := predictsFor_of_table? h
  refine ⟨fun a input tree htree => hp.derives_of_recognize htree, ?_, ?_⟩
  · intro a f w ha hf hend hw hder
    obtain ⟨_, rfl⟩ := follow?_eq_ok_iff.1 hf
    exact hp.recognize_of_derives ha (mem_follow.1 hend) hw hder
  · have hstart := g.wellFormed.start_mem
    exact ⟨_, follow?_eq_ok_iff.2 ⟨hstart, rfl⟩, mem_follow.2 .start⟩

theorem nested_recognizes_brackets :
    ∃ t tree, nested.table? = some t ∧ t.recognize ['(', '(', ')', ')', '$'] 'S' = .ok tree ∧
      nested.Derives ['S'] ['(', '(', ')', ')'] := by
  have haccept : ∃ t, nested.table? = some t ∧
      (t.recognize ['(', '(', ')', ')', '$'] 'S').isOk = true := by
    rw [← Option.any_eq_true]
    decide +kernel
  obtain ⟨t, ht, hok⟩ := haccept
  cases htree : t.recognize ['(', '(', ')', ')', '$'] 'S' with
  | error reason =>
    rw [htree] at hok
    cases hok
  | ok tree =>
    obtain ⟨-, w, hw, -, hder⟩ := (recognizes_language ht).1 _ _ _ htree
    have hword : w ++ [endMark] = ['(', '(', ')', ')'] ++ [endMark] := hw.symm
    rw [List.append_cancel_right hword] at hder
    exact ⟨t, tree, ht, htree, hder⟩

end Grammar

end PredictiveParsing
