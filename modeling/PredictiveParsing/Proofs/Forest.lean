import PredictiveParsing.Recognizer.Run

/-!
# Forests

A forest is a list of trees, such as the children of a node. Statements about trees are proved for
forests, along the first tree: the forest of its children, then the trees behind it
(`forest_induction`). `Occurs` finds a subtree in a forest together with the place in the spelled
string at which its own leaves begin.
-/
namespace PredictiveParsing

namespace ParseTree

@[elab_as_elim]
theorem forest_induction {motive : List ParseTree → Prop} (nil : motive [])
    (cons : ∀ x children ts, motive children → motive ts → motive (node x children :: ts)) :
    ∀ ts, motive ts
  | [] => nil
  | node x children :: ts =>
    cons x children ts (forest_induction nil cons children) (forest_induction nil cons ts)

/-- A node above the trees of a right side, or above the sign for the empty string if there are
none. -/
def branch (x : Symbol) (ts : List ParseTree) : ParseTree :=
  node x (if ts = [] then [leaf epsilon] else ts)

/-- The subtree stands in the forest, and the forest spells this many symbols before the subtree
begins. -/
inductive Occurs : List ParseTree → Nat → ParseTree → Prop where
  | head {t : ParseTree} {ts : List ParseTree} : Occurs (t :: ts) 0 t
  | child {x : Symbol} {children ts : List ParseTree} {p : Nat} {u : ParseTree} :
      Occurs children p u → Occurs (node x children :: ts) p u
  | later {t u : ParseTree} {ts : List ParseTree} {p : Nat} :
      Occurs ts p u → Occurs (t :: ts) (t.leaves.length + p) u

@[simp] theorem root_leaf {x : Symbol} : (leaf x).root = x := rfl

@[simp] theorem root_branch {x : Symbol} {ts : List ParseTree} : (branch x ts).root = x := rfl

theorem branch_of_ne_nil {x : Symbol} {ts : List ParseTree} (h : ts ≠ []) :
    branch x ts = node x ts := by
  rw [branch, if_neg h]

theorem Occurs.children_of_leaf {x y : Symbol} {p : Nat} {children : List ParseTree}
    (h : Occurs [leaf y] p (node x children)) : children = [] := by
  cases h with
  | head => rfl
  | child h => cases h
  | later h => cases h

theorem leaves_leaf {x : Symbol} (h : x ≠ epsilon) : (leaf x).leaves = [x] := by
  rw [leaf, leaves, if_neg h]

theorem leaves_node {x : Symbol} {ts : List ParseTree} (h : ts ≠ []) :
    (node x ts).leaves = forestLeaves ts := by
  cases ts with
  | nil => exact absurd rfl h
  | cons t ts => rw [leaves, forestLeaves]

@[simp] theorem leaves_branch {x : Symbol} {ts : List ParseTree} :
    (branch x ts).leaves = forestLeaves ts := by
  by_cases h : ts = []
  · subst h
    rfl
  · rw [branch_of_ne_nil h, leaves_node h]

@[simp] theorem forestLeaves_cons {t : ParseTree} {ts : List ParseTree} :
    forestLeaves (t :: ts) = t.leaves ++ forestLeaves ts := by
  rw [forestLeaves]

theorem forestLeaves_singleton {t : ParseTree} : forestLeaves [t] = t.leaves := by
  rw [forestLeaves_cons, forestLeaves, List.append_nil]

end ParseTree

end PredictiveParsing
