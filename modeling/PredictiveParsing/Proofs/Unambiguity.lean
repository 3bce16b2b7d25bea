import PredictiveParsing.Proofs.Descent
import PredictiveParsing.Proofs.Language

/-!
# Grammars with a table are unambiguous

A derivation tree grows by the productions of the grammar alone. With a table, the symbol that comes
next while such a tree is read off its leaves predicts the production at each node, provided that
`Follows` knows what comes behind the tree. So every derivation tree is the one that predictive
descent builds from its leaves (`PredictsFor.readBy`), and two of them with the same root and the
same leaves are the same (`derivationTree_unique_of_isLL1`).
-/
namespace PredictiveParsing

open ParseTree

namespace Table.Parses

theorem append {t : Table} {α β s mid rest : List Symbol} {us vs : List ParseTree}
    (h : t.Parses α s us mid) (h' : t.Parses β mid vs rest) :
    t.Parses (α ++ β) s (us ++ vs) rest := by
  induction h with
  | nil => exact h'
  | terminal hx _ ih => exact .terminal hx (ih h')
  | expand hcell hr _ _ ih => exact .expand hcell hr (ih h')

end Table.Parses

namespace Grammar

variable {g : Grammar} {t : Table}

/-- Each inner node stands above one of the right sides of its label, and every leaf but those for
an empty right side is a terminal. -/
inductive DerivationTree (g : Grammar) : ParseTree → Prop where
  | terminal {s : Symbol} : s ∈ g.terminals → DerivationTree g (leaf s)
  | expand {p : Production} {us : List ParseTree} : p ∈ g.productions → us.map root = p.right →
      (∀ u ∈ us, DerivationTree g u) → DerivationTree g (branch p.left us)

theorem spells_forest {us : List ParseTree} (h : ∀ u ∈ us, g.Spells [u.root] u.leaves) :
    g.Spells (us.map root) (forestLeaves us) := by
  induction us with
  | nil => exact .nil
  | cons u us ih =>
    obtain ⟨hu, hus⟩ := List.forall_mem_cons.1 h
    rw [forestLeaves_cons]
    exact hu.append (ih hus)

theorem DerivationTree.spells {u : ParseTree} (h : g.DerivationTree u) :
    g.Spells [u.root] u.leaves := by
  induction h with
  | terminal hs =>
    rw [leaves_leaf (ne_epsilon_of_mem_terminals hs)]
    exact .terminal hs .nil
  | @expand p us hp hroots _ ih =>
    have hright := spells_forest ih
    rw [hroots] at hright
    rw [leaves_branch, root_branch]
    exact .expand hp (by rwa [List.append_nil])

def ReadBy (g : Grammar) (t : Table) (u : ParseTree) : Prop :=
  ∀ (E : Symbol → Prop) (c : Symbol) (rest : List Symbol), g.Followed E [u.root] → E c →
    t.Parses [u.root] (u.leaves ++ c :: rest) [u] (c :: rest)

theorem parses_forest {us : List ParseTree} (hus : ∀ u ∈ us, g.DerivationTree u)
    (hread : ∀ u ∈ us, g.ReadBy t u) {E : Symbol → Prop} {c : Symbol}
    (hf : g.Followed E (us.map root)) (hc : E c) (rest : List Symbol) :
    t.Parses (us.map root) (forestLeaves us ++ c :: rest) us (c :: rest) := by
  induction us with
  | nil => exact .nil
  | cons u us ih =>
    obtain ⟨-, hus⟩ := List.forall_mem_cons.1 hus
    obtain ⟨hu, hread⟩ := List.forall_mem_cons.1 hread
    obtain ⟨hfu, hfus⟩ := followed_append.1 (show g.Followed E ([u.root] ++ us.map root) from hf)
    have hlater := ih hus hread hfus
    -- the first tree is read with the symbol next that the trees behind it begin with
    obtain ⟨d, z, hd, hahead⟩ := (spells_forest fun v hv => (hus v hv).spells).exists_ahead hc rest
    rw [hd] at hlater
    rw [forestLeaves_cons, List.append_assoc, hd]
    exact (hu _ d z hfu hahead).append hlater

theorem PredictsFor.readBy (hp : g.PredictsFor t) {u : ParseTree} (h : g.DerivationTree u) :
    g.ReadBy t u := by
  induction h with
  | terminal hs =>
    intro E c rest _ _
    rw [leaves_leaf (ne_epsilon_of_mem_terminals hs)]
    exact .terminal (hp.mem_terminals.2 (.inr hs)) .nil
  | @expand p us hprod hroots hus ih =>
    intro E c rest hf hc
    have hfollows : ∀ s, E s → g.Follows p.left s := fun s hs =>
      hf.1 (g.wellFormed.left_mem p hprod) s (.inr ⟨.nil, hs⟩)
    have hfollowed : g.Followed E (us.map root) := hroots ▸ (followed_right hprod).mono hfollows
    have hchildren := parses_forest hus ih hfollowed hc rest
    obtain ⟨d, z, hd, hahead⟩ := (spells_forest fun v hv => (hus v hv).spells).exists_ahead hc rest
    rw [hroots] at hahead hchildren
    rw [hd] at hchildren
    rw [leaves_branch, hd]
    exact .expand (hp.cell.2 ⟨hprod, hahead.mono hfollows⟩) hchildren .nil

theorem derivationTree_unique_of_isLL1 (hll : g.isLL1 = true) :
    (∀ a f, a ∈ g.nonTerminals → g.follow? a = .ok f → f ≠ ∅ → ∀ u v, g.DerivationTree u →
      g.DerivationTree v → u.root = a → v.root = a → u.leaves = v.leaves → u = v) ∧
    ∃ f, g.follow? g.start = .ok f ∧ f ≠ ∅ := by
  constructor
  · intro a f _ hf hne u v hu hv hru hrv hleaves
    obtain ⟨t, ht⟩ := Option.isSome_iff_exists.1 hll
    have hp := predictsFor_of_table? ht
    obtain ⟨-, rfl⟩ := follow?_eq_ok_iff.1 hf
    obtain ⟨c, hc⟩ := SymbolSet.exists_mem_of_ne_empty hne
    have hread : ∀ w, g.DerivationTree w → w.root = a →
        t.Parses [a] (w.leaves ++ [c]) [w] [c] := by
      intro w hw hrw
      subst hrw
      exact hp.readBy hw _ c [] (followed_singleton w.root) (mem_follow.1 hc)
    have hsame := (hread u hu hru).unique hp.reachable.sound (hleaves ▸ hread v hv hrv)
    exact List.head_eq_of_cons_eq hsame.1
  · refine ⟨_, follow?_eq_ok_iff.2 ⟨g.wellFormed.start_mem, rfl⟩, fun e => ?_⟩
    have hend : endMark ∈ g.analysis.follow.get g.start := mem_follow.2 .start
    rw [e] at hend
    exact SymbolSet.not_mem_empty hend

def bracketPair : ParseTree := branch 'S' [leaf '(', branch 'S' [], leaf ')', branch 'S' []]

theorem derivationTree_bracketPair : nested.DerivationTree bracketPair := by
  have hempty : nested.DerivationTree (branch 'S' []) :=
    .expand (p := ⟨'S', []⟩) (by decide) rfl fun u hu => absurd hu List.not_mem_nil
  refine .expand (p := ⟨'S', ['(', 'S', ')', 'S']⟩) (by decide) rfl ?_
  simp only [List.forall_mem_cons]
  exact ⟨.terminal (by decide), hempty, .terminal (by decide), hempty,
    fun u hu => absurd hu List.not_mem_nil⟩

theorem nested_derivationTree_unique :
    nested.isLL1 = true ∧ nested.DerivationTree bracketPair ∧ bracketPair.leaves = ['(', ')'] ∧
      ∀ v, nested.DerivationTree v → v.root = 'S' → v.leaves = ['(', ')'] → bracketPair = v := by
  have hunique := (derivationTree_unique_of_isLL1 nested_isLL1).1 'S' _ (by decide)
    (follow?_eq_ok_iff.2 ⟨by decide, rfl⟩) (by decide +kernel)
  have hleaves : bracketPair.leaves = ['(', ')'] := rfl
  refine ⟨nested_isLL1, derivationTree_bracketPair, hleaves, fun v hv hroot hv' => ?_⟩
  exact hunique bracketPair v derivationTree_bracketPair hv rfl hroot (hleaves.trans hv'.symm)

end Grammar

end PredictiveParsing
