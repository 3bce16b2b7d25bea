import PredictiveParsing.Proofs.Arena
import PredictiveParsing.Proofs.Carrying
import PredictiveParsing.Proofs.SententialForms

/-!
# More productions

A grammar is carried into one with more productions by leaving every symbol as it is. So the sets
can only grow, and the table, if there still is one, keeps the cells that were filled
(`PredictsFor.partOf`). A tree that one table predicts for an input is predicted by every table
that it is a part of, since each node asks for a single filled cell (`PartOf.predictiveTree`).
-/
namespace PredictiveParsing

namespace Table

variable {t u : Table}

structure PartOf (t u : Table) : Prop where
  terminals : t.terminals = u.terminals
  cell : ∀ a s r, t.get? a s = some r → u.get? a s = some r

theorem PartOf.nodeAt (h : t.PartOf u) {input : List Symbol} {p : Nat} {x : Symbol}
    {children : List ParseTree} (hn : t.NodeAt input p x children) :
    u.NodeAt input p x children := by
  constructor
  · rw [← h.terminals]
    exact hn.leaf_below
  · intro hne
    obtain ⟨current, right, hcurrent, hcell, hbelow⟩ := hn.expanded hne
    exact ⟨current, right, hcurrent, h.cell x current right hcell, hbelow⟩

theorem PartOf.predictiveTree (h : t.PartOf u) {input : List Symbol} {start : Symbol}
    {tree : ParseTree} (ht : t.PredictiveTree input start tree) :
    u.PredictiveTree input start tree :=
  ⟨ht.root_eq, ht.root_inner, ht.input_eq, fun p x children ho =>
    h.nodeAt (ht.node_at p x children ho)⟩

theorem Reachable.recognize_eq_ok_iff (ht : t.Reachable) {input : List Symbol} {start : Symbol}
    {tree : ParseTree} :
    t.recognize input start = .ok tree ↔ t.PredictiveTree input start tree :=
  ht.recognize_eq_ok_iff_run.trans ht.run_accepts_iff

theorem PartOf.recognize (h : t.PartOf u) (ht : t.Reachable) (hu : u.Reachable)
    {input : List Symbol} {start : Symbol} {tree : ParseTree}
    (haccept : t.recognize input start = .ok tree) : u.recognize input start = .ok tree :=
  hu.recognize_eq_ok_iff.2 (h.predictiveTree (ht.recognize_eq_ok_iff.1 haccept))

end Table

namespace Grammar

variable {g h : Grammar} {t u : Table}

structure SubgrammarOf (g h : Grammar) : Prop where
  terminals : g.terminals = h.terminals
  nonTerminals : g.nonTerminals = h.nonTerminals
  start : g.start = h.start
  production : ∀ p ∈ g.productions, p ∈ h.productions

namespace SubgrammarOf

theorem carries (hsub : g.SubgrammarOf h) : Carries id g h := by
  refine ⟨fun s hs => hsub.terminals ▸ hs, fun s hs => hsub.nonTerminals ▸ hs, fun p hp => ?_,
    hsub.start, rfl⟩
  rw [Production.rename, List.map_id]
  exact hsub.production p hp

theorem vanishes (hsub : g.SubgrammarOf h) {α : List Symbol} (hα : g.Vanishes α) :
    h.Vanishes α := by
  rw [← List.map_id α]
  exact hsub.carries.vanishes hα

theorem begins (hsub : g.SubgrammarOf h) {α : List Symbol} {s : Symbol} (hα : g.Begins α s) :
    h.Begins α s := by
  rw [← List.map_id α]
  exact hsub.carries.begins hα

theorem predicts (hsub : g.SubgrammarOf h) {p : Production} {s : Symbol}
    (hp : g.Predicts p s) : h.Predicts p s := by
  have hcarried := hsub.carries.predicts hp
  rwa [Production.rename, List.map_id] at hcarried

theorem isLL1 (hsub : g.SubgrammarOf h) (hll : h.isLL1 = true) : g.isLL1 = true :=
  hsub.carries.isLL1 (show ∀ s, g.Declares s → id (id s) = s from fun _ _ => rfl) hll

theorem partOf (hsub : g.SubgrammarOf h) (ht : g.PredictsFor t) (hu : h.PredictsFor u) :
    t.PartOf u := by
  refine ⟨by rw [ht.terminals, hu.terminals, hsub.terminals], fun a s r hr => ?_⟩
  obtain ⟨hprod, hpredicts⟩ := ht.cell.1 hr
  exact hu.cell.2 ⟨hsub.production _ hprod, hsub.predicts hpredicts⟩

end SubgrammarOf

theorem more_productions_keep (hsub : g.SubgrammarOf h) :
    (∀ a ∈ g.nonTerminals, (a ∈ g.analysis.nullable → a ∈ h.analysis.nullable) ∧
      g.analysis.first.get a ⊆ h.analysis.first.get a ∧
      g.analysis.follow.get a ⊆ h.analysis.follow.get a) ∧
    ∀ u, h.table? = some u → ∃ t, g.table? = some t ∧
      (∀ a s r, t.get? a s = some r → u.get? a s = some r) ∧
      ∀ input start tree, t.recognize input start = .ok tree →
        u.recognize input start = .ok tree := by
  constructor
  · intro a _
    refine ⟨fun ha => ?_, fun s hs => ?_, fun s hs => ?_⟩
    · exact mem_nullableSet.2 (hsub.vanishes (mem_nullableSet.1 ha))
    · exact mem_first.2 (hsub.begins (mem_first.1 hs))
    · exact mem_follow.2 (hsub.carries.follows (mem_follow.1 hs))
  · intro u hu
    have hll : h.isLL1 = true := by rw [isLL1, hu, Option.isSome_some]
    obtain ⟨t, ht⟩ := Option.isSome_iff_exists.1 (hsub.isLL1 hll)
    have hpt := predictsFor_of_table? ht
    have hpu := predictsFor_of_table? hu
    have hpart := hsub.partOf hpt hpu
    exact ⟨t, ht, hpart.cell, fun input start tree haccept =>
      hpart.recognize hpt.reachable hpu.reachable haccept⟩

def balanced : Grammar :=
  ⟨{ nested.toPresentation with productions := [⟨'S', ['(', 'S', ')', 'S']⟩, ⟨'S', []⟩] },
    Presentation.fault?_eq_none_iff.1 (by decide)⟩

theorem balanced_more_productions_keep :
    balanced.SubgrammarOf nested ∧ ∃ t u tree, balanced.table? = some t ∧
      nested.table? = some u ∧ t.recognize ['(', ')', '$'] 'S' = .ok tree ∧
      u.recognize ['(', ')', '$'] 'S' = .ok tree := by
  have hsub : balanced.SubgrammarOf nested := ⟨rfl, rfl, rfl, by decide⟩
  obtain ⟨u, hu⟩ := Option.isSome_iff_exists.1 nested_isLL1
  obtain ⟨t, ht, -, haccepted⟩ := (more_productions_keep hsub).2 u hu
  have hok : balanced.table?.any fun t => (t.recognize ['(', ')', '$'] 'S').isOk := by
    decide +kernel
  rw [ht, Option.any_some] at hok
  cases htree : t.recognize ['(', ')', '$'] 'S' with
  | error reason =>
    rw [htree] at hok
    cases hok
  | ok tree => exact ⟨hsub, t, u, tree, ht, hu, htree, haccepted _ _ _ htree⟩

end Grammar

end PredictiveParsing
