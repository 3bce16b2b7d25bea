import PredictiveParsing.Proofs.Forest
import PredictiveParsing.Proofs.StackWalk

/-!
# Predictive descent

`Table.PredictiveTree` says of a tree, node by node, that it is the tree of an input: the next
symbol of the input chooses the cell whose right side stands below a node. `Table.Parses` is the
reading of the input that builds such trees, by recursion on the right sides, and
`predictiveTree_iff_parses` says that both mean the same trees, on every sound table. What is read
determines the trees (`Parses.unique`), and a walk of the stack machine that empties the stack
follows such a reading (`exists_parses_of_walk?`).
-/
namespace PredictiveParsing

open ParseTree

namespace Table

/-- What stands below a node that begins at this place of the input: the right side of the cell for
its label and the symbol of the input there, and of leaves only terminals and the sign for the empty
string, the latter by itself. -/
structure NodeAt (t : Table) (input : List Symbol) (p : Nat) (x : Symbol)
    (children : List ParseTree) : Prop where
  leaf_below : ∀ u ∈ children, u.isLeaf = true →
    u.root ∈ t.terminals ∨ u.root = epsilon ∧ children = [u]
  expanded : children ≠ [] → ∃ current right, input[p]? = some current ∧
    t.get? x current = some right ∧
      if right = [] then children = [leaf epsilon] else children.map root = right

structure PredictiveTree (t : Table) (input : List Symbol) (start : Symbol) (tree : ParseTree) :
    Prop where
  root_eq : tree.root = start
  root_inner : tree.isLeaf = false
  input_eq : input = tree.leaves ++ [endMark]
  node_at : ∀ p x children, Occurs [tree] p (node x children) → t.NodeAt input p x children

/-- The symbols are read from the input in order, a terminal off its front and every other symbol
by its right side; the trees are those of the symbols. -/
inductive Parses (t : Table) :
    List Symbol → List Symbol → List ParseTree → List Symbol → Prop where
  | nil {rest : List Symbol} : Parses t [] rest [] rest
  | terminal {x : Symbol} {α s rest : List Symbol} {ts : List ParseTree} :
      x ∈ t.terminals → Parses t α s ts rest → Parses t (x :: α) (x :: s) (leaf x :: ts) rest
  | expand {x current : Symbol} {right α s mid rest : List Symbol} {us ts : List ParseTree} :
      t.get? x current = some right → Parses t right (current :: s) us mid →
      Parses t α mid ts rest → Parses t (x :: α) (current :: s) (branch x us :: ts) rest

variable {t : Table}

theorem nodeAt_nil {input : List Symbol} {p : Nat} {x : Symbol} : t.NodeAt input p x [] :=
  ⟨fun _ hu => absurd hu List.not_mem_nil, fun h => absurd rfl h⟩

theorem Sound.ne_epsilon (ht : t.Sound) {x : Symbol} (hx : t.Declares x) : x ≠ epsilon := by
  intro e
  rcases hx with hx | hx
  · exact ht.alphabets.terminals_free x hx (List.mem_singleton.2 e)
  · exact ht.alphabets.nonTerminals_free x hx (List.mem_singleton.2 e)

theorem Sound.not_mem_terminals (ht : t.Sound) {x current : Symbol} {right : List Symbol}
    (h : t.get? x current = some right) : x ∉ t.terminals := fun hx =>
  ht.alphabets.disjoint x hx (ht.valid_of_get? h).row_mem

namespace Parses

variable {α β s rest : List Symbol} {ts : List ParseTree}

theorem map_root (h : t.Parses α s ts rest) : ts.map root = α := by
  induction h with
  | nil => rfl
  | terminal _ _ ih => rw [List.map_cons, ih, root_leaf]
  | expand _ _ _ _ ih => rw [List.map_cons, ih, root_branch]

theorem input_eq (ht : t.Sound) (h : t.Parses α s ts rest) : s = forestLeaves ts ++ rest := by
  induction h with
  | nil => rfl
  | terminal hx _ ih =>
    rw [forestLeaves_cons, leaves_leaf (ht.ne_epsilon (.inl hx)), List.append_assoc, ← ih]
    rfl
  | expand _ _ _ ihr ih =>
    rw [ihr, ih, forestLeaves_cons, leaves_branch, List.append_assoc]

/-- The table leaves no choice: the next symbol of the input decides the cell. -/
theorem unique (ht : t.Sound) {ts' : List ParseTree} {rest' : List Symbol}
    (h : t.Parses α s ts rest) (h' : t.Parses α s ts' rest') : ts = ts' ∧ rest = rest' := by
  induction h generalizing ts' rest' with
  | nil =>
    cases h'
    exact ⟨rfl, rfl⟩
  | terminal hx _ ih =>
    cases h' with
    | terminal _ h' =>
      obtain ⟨rfl, hrest⟩ := ih h'
      exact ⟨rfl, hrest⟩
    | expand hcell _ _ => exact absurd hx (ht.not_mem_terminals hcell)
  | expand hcell _ _ ihr ih =>
    cases h' with
    | terminal hx _ => exact absurd hx (ht.not_mem_terminals hcell)
    | expand hcell' hr h' =>
      obtain rfl := Option.some.inj (hcell.symm.trans hcell')
      obtain ⟨rfl, rfl⟩ := ihr hr
      obtain ⟨rfl, hrest⟩ := ih h'
      exact ⟨rfl, hrest⟩

theorem exists_of_append (h : t.Parses (α ++ β) s ts rest) :
    ∃ us vs mid, ts = us ++ vs ∧ t.Parses α s us mid ∧ t.Parses β mid vs rest := by
  induction α generalizing s ts with
  | nil => exact ⟨[], ts, s, rfl, .nil, h⟩
  | cons x α ih =>
    cases h with
    | terminal hx h =>
      obtain ⟨us, vs, mid, rfl, hα, hβ⟩ := ih h
      exact ⟨leaf x :: us, vs, mid, rfl, .terminal hx hα, hβ⟩
    | @expand _ _ _ _ _ _ _ ws _ hcell hr h =>
      obtain ⟨us, vs, mid, rfl, hα, hβ⟩ := ih h
      exact ⟨branch x ws :: us, vs, mid, rfl, .expand hcell hr hα, hβ⟩

end Parses

theorem exists_parses_of_walk? {m : Nat} {α s rest : List Symbol}
    (h : t.walk? m (α, s) = some ([], rest)) : ∃ ts, t.Parses α s ts rest := by
  induction m generalizing α s with
  | zero =>
    cases h
    exact ⟨[], .nil⟩
  | succ m ih =>
    obtain ⟨v, hv, hwalk⟩ := walk?_succ_cases h
    obtain ⟨x, stack, current, tail, hs, hcases⟩ := forward?_cases hv
    cases hs
    rcases hcases with ⟨hx, rfl, rfl⟩ | ⟨_, right, hright, rfl⟩
    · obtain ⟨ts, hts⟩ := ih hwalk
      exact ⟨leaf x :: ts, .terminal hx hts⟩
    · obtain ⟨ts, hts⟩ := ih hwalk
      obtain ⟨us, vs, mid, -, hr, hstack⟩ := hts.exists_of_append
      exact ⟨branch x us :: vs, .expand hright hr hstack⟩

/-! ## Node by node -/

namespace Parses

variable {α s rest : List Symbol} {ts : List ParseTree}

theorem mem_terminals_of_isLeaf (h : t.Parses α s ts rest) {u : ParseTree} (hu : u ∈ ts)
    (hleaf : u.isLeaf = true) : u.root ∈ t.terminals := by
  induction h with
  | nil => exact absurd hu List.not_mem_nil
  | terminal hx _ ih =>
    rcases List.mem_cons.1 hu with rfl | hu
    · exact hx
    · exact ih hu
  | @expand x _ _ _ _ _ _ us _ _ _ _ _ ih =>
    rcases List.mem_cons.1 hu with rfl | hu
    · by_cases hus : us = []
      · subst hus
        exact absurd hleaf Bool.false_ne_true
      · rw [branch_of_ne_nil hus] at hleaf
        exact absurd (List.isEmpty_iff.1 hleaf) hus
    · exact ih hu

theorem node_at_branch {x current : Symbol} {right s mid : List Symbol}
    {us : List ParseTree} (hcell : t.get? x current = some right)
    (h : t.Parses right (current :: s) us mid) (w : List Symbol) :
    t.NodeAt (w ++ current :: s) w.length x (branch x us).children := by
  have hroots := h.map_root
  have hnext : (w ++ current :: s)[w.length]? = some current := by
    rw [List.getElem?_append_right (Nat.le_refl _), Nat.sub_self, List.getElem?_cons_zero]
  by_cases hus : us = []
  · subst hus
    obtain rfl : right = [] := hroots.symm
    refine ⟨fun u hu _ => ?_, fun _ => ⟨current, [], hnext, hcell, rfl⟩⟩
    obtain rfl := List.mem_singleton.1 hu
    exact .inr ⟨rfl, rfl⟩
  · rw [branch_of_ne_nil hus]
    refine ⟨fun u hu hleaf => .inl (h.mem_terminals_of_isLeaf hu hleaf), fun _ => ?_⟩
    have hright : right ≠ [] := fun e => hus (List.map_eq_nil_iff.1 (hroots.trans e))
    exact ⟨current, right, hnext, hcell, by rwa [if_neg hright]⟩

theorem node_at (ht : t.Sound) (h : t.Parses α s ts rest) (w : List Symbol) {p : Nat} {x : Symbol}
    {children : List ParseTree} (ho : Occurs ts p (node x children)) :
    t.NodeAt (w ++ s) (w.length + p) x children := by
  -- `w` is what is read before, as places are counted from the beginning of the input
  induction h generalizing w p with
  | nil => cases ho
  | @terminal y α s rest ts hy _ ih =>
    cases ho with
    | head => exact nodeAt_nil
    | child ho => cases ho
    | @later _ _ _ p ho =>
      have hnode := ih (w ++ [y]) ho
      rw [List.append_assoc, List.length_append] at hnode
      rw [leaves_leaf (ht.ne_epsilon (.inl hy)), ← Nat.add_assoc]
      exact hnode
  | @expand y current right α s mid rest us ts hcell hr h ihr ih =>
    have hread := hr.input_eq ht
    cases ho with
    | head => exact node_at_branch hcell hr w
    | child ho =>
      split at ho
      · obtain rfl := ho.children_of_leaf
        exact nodeAt_nil
      · exact ihr w ho
    | @later _ _ _ p ho =>
      have hnode := ih (w ++ forestLeaves us) ho
      rw [List.append_assoc, ← hread, List.length_append, Nat.add_assoc] at hnode
      change t.NodeAt (w ++ current :: s) (w.length + ((branch y us).leaves.length + p)) x children
      rw [leaves_branch]
      exact hnode

end Parses

theorem exists_eq_cons_of_getElem? {w s : List Symbol} {current : Symbol}
    (h : (w ++ s)[w.length]? = some current) : ∃ rest, s = current :: rest := by
  rw [List.getElem?_append_right (Nat.le_refl _), Nat.sub_self, ← List.head?_eq_getElem?] at h
  exact List.head?_eq_some_iff.1 h

theorem parses_of_node_at (ht : t.Sound) (ts : List ParseTree) {w rest : List Symbol}
    (hnode : ∀ p x children, Occurs ts p (node x children) →
      t.NodeAt (w ++ (forestLeaves ts ++ rest)) (w.length + p) x children)
    (hleaf : ∀ u ∈ ts, u.isLeaf = true → u.root ∈ t.terminals) :
    t.Parses (ts.map root) (forestLeaves ts ++ rest) ts rest := by
  induction ts using forest_induction generalizing w rest with
  | nil => exact .nil
  | cons x children ts ihc ih =>
    obtain ⟨hx, hts⟩ := List.forall_mem_cons.1 hleaf
    have hfirst := hnode 0 x children .head
    have hlater : t.Parses (ts.map root) (forestLeaves ts ++ rest) ts rest := by
      refine ih (w := w ++ (node x children).leaves) (fun p y cs ho => ?_) hts
      have h := hnode _ y cs ho.later
      rw [forestLeaves_cons, List.append_assoc, ← Nat.add_assoc, ← List.length_append,
        ← List.append_assoc] at h
      exact h
    rw [forestLeaves_cons, List.append_assoc] at hfirst hnode ⊢
    by_cases hc : children = []
    · subst hc
      have hterm : x ∈ t.terminals := hx rfl
      change t.Parses (x :: ts.map root) ((leaf x).leaves ++ _) (leaf x :: ts) rest
      rw [leaves_leaf (ht.ne_epsilon (.inl hterm))]
      exact .terminal hterm hlater
    · obtain ⟨current, right, hnext, hcell, hbelow⟩ := hfirst.expanded hc
      have hdeclared := (ht.valid_of_get? hcell).right_declared
      rw [leaves_node hc] at hnext hnode ⊢
      obtain ⟨s, hs⟩ := exists_eq_cons_of_getElem? hnext
      by_cases hr : right = []
      · rw [if_pos hr] at hbelow
        subst hr hbelow
        have hbehind : forestLeaves ts ++ rest = current :: s := hs
        rw [hbehind] at hlater
        rw [hs]
        exact .expand hcell .nil hlater
      · rw [if_neg hr] at hbelow
        have hchildren : t.Parses right (current :: s) children (forestLeaves ts ++ rest) := by
          rw [← hs, ← hbelow]
          refine ihc (fun p y cs ho => hnode p y cs ho.child) fun u hu hl => ?_
          rcases hfirst.leaf_below u hu hl with hterm | ⟨he, hone⟩
          · exact hterm
          · have hmem : u.root ∈ right := hbelow ▸ List.mem_map_of_mem hu
            exact absurd he (ht.ne_epsilon (hdeclared _ hmem))
        have hexpand := Parses.expand hcell hchildren hlater
        rw [branch_of_ne_nil hc] at hexpand
        rw [hs]
        exact hexpand

theorem predictiveTree_iff_parses (ht : t.Sound) {input : List Symbol} {start : Symbol}
    {tree : ParseTree} :
    t.PredictiveTree input start tree ↔
      start ∉ t.terminals ∧ t.Parses [start] input [tree] [endMark] := by
  constructor
  · intro ⟨hroot, hinner, hinput, hnode⟩
    obtain ⟨x, children⟩ := tree
    obtain rfl : x = start := hroot
    rw [← forestLeaves_singleton] at hinput
    subst hinput
    have hc : children ≠ [] := fun e => by simp [e, isLeaf, ParseTree.children] at hinner
    obtain ⟨current, right, -, hcell, -⟩ := (hnode 0 x children .head).expanded hc
    refine ⟨ht.not_mem_terminals hcell, ?_⟩
    refine parses_of_node_at ht [node x children] (w := []) (fun p y cs ho => ?_) fun u hu hl => ?_
    · rw [List.length_nil, Nat.zero_add]
      exact hnode p y cs ho
    · obtain rfl := List.mem_singleton.1 hu
      exact absurd (hl.symm.trans hinner) nofun
  · intro ⟨hstart, h⟩
    have hroot : tree.root = start := List.head_eq_of_cons_eq h.map_root
    have hinput := h.input_eq ht
    rw [forestLeaves_singleton] at hinput
    refine ⟨hroot, ?_, hinput, fun p x children ho => ?_⟩
    · rw [Bool.eq_false_iff]
      intro hl
      exact hstart (hroot ▸ h.mem_terminals_of_isLeaf List.mem_cons_self hl)
    · have hnode := h.node_at ht [] ho
      rw [List.length_nil, Nat.zero_add] at hnode
      exact hnode

end Table

end PredictiveParsing
