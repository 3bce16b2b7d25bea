import Mathlib.Data.List.Nodup
import Mathlib.Data.List.Pairwise
import Mathlib.Logic.ExistsUnique
import PredictiveParsing.Proofs.Account
import PredictiveParsing.Proofs.ListCut

/-!
# The arena is a tree

The nodes below some nodes, in the order of a walk around their trees, are told by `Spans`. A round
that expands a node puts its new nodes into this order right behind it and leaves all else alone
(`Spans.expand`). So at any time the walk around the tree of the root comes by every node of the
arena once, and of the leaves that it comes by the machine has dealt with the first ones, and the
others are the stack (`Walked`). This is what a round preserves (`Walked.next`), whatever the cells
of the table. A node of the walk other than the root is a child of a node of the walk
(`Spans.perm_children`), and of just one as the walk comes by it once
(`Walked.existsUnique_parent`).
-/
namespace PredictiveParsing

/-! ## A list with one element replaced -/

section Graft

variable {x : Nat} {l new u v : List Nat}

def graft (x : Nat) (new l : List Nat) : List Nat := l.flatMap fun i => if i = x then new else [i]

theorem graft_append : graft x new (u ++ v) = graft x new u ++ graft x new v :=
  List.flatMap_append

theorem graft_self : graft x new (x :: l) = new ++ graft x new l := by
  simp [graft]

theorem graft_cons_of_ne {i : Nat} (h : i ≠ x) : graft x new (i :: l) = i :: graft x new l := by
  simp [graft, h]

theorem graft_of_notMem (h : x ∉ l) : graft x new l = l := by
  induction l with
  | nil => rfl
  | cons i l ih =>
    rw [List.mem_cons, not_or] at h
    rw [graft_cons_of_ne (Ne.symm h.1), ih h.2]

theorem graft_cut (h : (u ++ x :: v).Nodup) : graft x new (u ++ x :: v) = u ++ new ++ v := by
  obtain ⟨-, hv, hdisjoint⟩ := List.nodup_append.1 h
  have hu : x ∉ u := fun hx => hdisjoint x hx x List.mem_cons_self rfl
  rw [graft_append, graft_self, graft_of_notMem hu, graft_of_notMem (List.nodup_cons.1 hv).1,
    List.append_assoc]

theorem graft_perm (h : l.Nodup) (hx : x ∈ l) : (graft x (x :: new) l).Perm (l ++ new) := by
  obtain ⟨u, v, rfl⟩ := List.append_of_mem hx
  rw [graft_cut h, List.append_assoc, List.append_assoc, List.cons_append, List.cons_append]
  exact ((List.perm_append_comm).cons x).append_left u

theorem filter_graft {p q : Nat → Bool} (hnew : ∀ i ∈ new, q i = true) (hp : p x = true)
    (hq : q x = false) (h : ∀ i ∈ l, i ≠ x → q i = p i) :
    (graft x (x :: new) l).filter q = graft x new (l.filter p) := by
  induction l with
  | nil => rfl
  | cons i l ih =>
    obtain ⟨hi, hl⟩ := List.forall_mem_cons.1 h
    have ih := ih hl
    by_cases hix : i = x
    · subst hix
      rw [graft_self, List.filter_append, ih, List.filter_cons_of_neg (by simp [hq]),
        List.filter_eq_self.2 hnew, List.filter_cons_of_pos hp, graft_self]
    · rw [graft_cons_of_ne hix, List.filter_cons, List.filter_cons, hi hix, ih]
      split
      · rw [graft_cons_of_ne hix]
      · rfl

end Graft

namespace ParseTree

mutual

def nodeCount : ParseTree → Nat
  | node _ ts => forestCount ts + 1

def forestCount : List ParseTree → Nat
  | [] => 0
  | t :: ts => nodeCount t + forestCount ts

end

end ParseTree

open ParseTree

namespace Configuration

/-! ## The walk around the tree -/

def walk (c : Configuration) : Nat → Nat → List Nat
  | 0, i => [i]
  | depth + 1, i => i :: (c.children i).flatMap (c.walk depth)

def frontier (c : Configuration) : List Nat :=
  (c.walk c.nodes.size 0).filter fun i => c.children i = []

/-- Builds the tree below a node from the nodes that are found in the arena. There is no result if
one is not found, or if the depth is used up. -/
def build? (c : Configuration) : Nat → Nat → Option ParseTree
  | 0, _ => none
  | depth + 1, i => do
    let found ← c.nodes[i]?
    let children ← found.children.mapM (c.build? depth)
    return node found.label children

theorem nodeCount_subtree (c : Configuration) (k i : Nat) :
    (c.subtree k i).nodeCount = (c.walk k i).length := by
  induction k generalizing i with
  | zero => rfl
  | succ k ih =>
    have hforest : ∀ is : List Nat,
        forestCount (is.map (c.subtree k)) = (is.flatMap (c.walk k)).length := by
      intro is
      induction is with
      | nil => rfl
      | cons j js ihjs =>
        rw [List.map_cons, forestCount, ih, ihjs, List.flatMap_cons, List.length_append]
    rw [subtree, walk, nodeCount, hforest, List.length_cons]

/-- The walk around the trees below the first nodes comes by the second ones. Children come after
their parents, so that it ends. -/
inductive Spans (c : Configuration) : List Nat → List Nat → Prop where
  | nil : Spans c [] []
  | cons {i : Nat} {is js ks : List Nat} : i < c.nodes.size → (∀ j ∈ c.children i, i < j) →
      Spans c (c.children i) js → Spans c is ks → Spans c (i :: is) (i :: js ++ ks)

section Spans

variable {c d : Configuration} {is js : List Nat}

theorem getElem?_nodes {i : Nat} (h : i < c.nodes.size) :
    c.nodes[i]? = some ⟨c.label i, c.children i⟩ := by
  simp [label, children, Array.getElem?_eq_getElem h]

theorem children_of_size_le {i : Nat} (h : c.nodes.size ≤ i) : c.children i = [] := by
  simp [children, Array.getElem?_eq_none h]

namespace Spans

theorem lt (h : c.Spans is js) : ∀ j ∈ js, j < c.nodes.size := by
  induction h with
  | nil => exact fun j hj => absurd hj List.not_mem_nil
  | cons hi _ _ _ ihc ih =>
    rw [List.cons_append, List.forall_mem_cons, List.forall_mem_append]
    exact ⟨hi, ihc, ih⟩

theorem later (h : c.Spans is js) : ∀ i ∈ js, ∀ j ∈ c.children i, i < j := by
  induction h with
  | nil => exact fun j hj => absurd hj List.not_mem_nil
  | cons _ hlater _ _ ihc ih =>
    rw [List.cons_append, List.forall_mem_cons, List.forall_mem_append]
    exact ⟨hlater, ihc, ih⟩

/-- A node of the walk is one of those that it begins with, or a child of a node of the walk. -/
theorem perm_children (h : c.Spans is js) : js.Perm (is ++ js.flatMap c.children) := by
  induction h with
  | nil => exact .nil
  | @cons i is js ks _ _ _ _ ihc ih =>
    have hmiddle : (js ++ ks).Perm
        (is ++ (c.children i ++ (js.flatMap c.children ++ ks.flatMap c.children))) := by
      rw [← List.append_assoc (c.children i)]
      exact (ihc.append ih).trans (List.perm_append_comm_assoc _ is _)
    rw [List.cons_append, List.flatMap_cons, List.flatMap_append]
    exact hmiddle.cons i

theorem flatMap_walk (h : c.Spans is js) {k : Nat} (hk : ∀ i ∈ is, c.nodes.size ≤ i + k) :
    is.flatMap (c.walk k) = js := by
  induction h generalizing k with
  | nil => rfl
  | @cons i is js ks hi hlater _ _ ihc ih =>
    obtain ⟨hki, hkis⟩ := List.forall_mem_cons.1 hk
    cases k with
    | zero => omega
    | succ k =>
      rw [List.flatMap_cons, ih hkis, walk, ihc (forall_le_add_of_later hlater hki)]

theorem build?_eq (h : c.Spans is js) {k m : Nat} (hk : ∀ i ∈ is, c.nodes.size ≤ i + k)
    (hm : ∀ i ∈ is, c.nodes.size ≤ i + m) : ∀ i ∈ is, c.build? k i = some (c.subtree m i) := by
  induction h generalizing k m with
  | nil => exact fun i hi => absurd hi List.not_mem_nil
  | @cons i is js ks hi hlater _ _ ihc ih =>
    obtain ⟨hki, hkis⟩ := List.forall_mem_cons.1 hk
    obtain ⟨hmi, hmis⟩ := List.forall_mem_cons.1 hm
    refine List.forall_mem_cons.2 ⟨?_, ih hkis hmis⟩
    obtain ⟨k, rfl⟩ : ∃ n, k = n + 1 := ⟨k - 1, by omega⟩
    obtain ⟨m, rfl⟩ : ∃ n, m = n + 1 := ⟨m - 1, by omega⟩
    have hchildren : (c.children i).mapM (c.build? k) = some ((c.children i).map (c.subtree m)) :=
      mapM_eq_some_map
        (ihc (forall_le_add_of_later hlater hki) (forall_le_add_of_later hlater hmi))
    simp only [build?, getElem?_nodes hi, Option.bind_eq_bind, Option.bind_some, hchildren, subtree]
    rfl

theorem of_childless (h : ∀ i ∈ is, i < c.nodes.size ∧ c.children i = []) : c.Spans is is := by
  induction is with
  | nil => exact .nil
  | cons i is ih =>
    obtain ⟨⟨hi, hchildless⟩, his⟩ := List.forall_mem_cons.1 h
    have hspans : c.Spans (i :: is) (i :: [] ++ is) := by
      refine .cons hi ?_ ?_ (ih his)
      · rw [hchildless]
        exact fun j hj => absurd hj List.not_mem_nil
      · rw [hchildless]
        exact .nil
    exact hspans

theorem congr (h : c.Spans is js) (hnodes : d.nodes = c.nodes) : d.Spans is js := by
  have hchildren : ∀ i, c.children i = d.children i := fun i => by rw [children, children, hnodes]
  induction h with
  | nil => exact .nil
  | @cons i is js ks hi hlater _ _ ihc ih =>
    rw [hchildren] at hlater ihc
    exact .cons (hnodes ▸ hi) hlater ihc ih

end Spans

end Spans

/-! ## The walk after an expansion -/

def fresh (c : Configuration) (right : List Symbol) : List Nat :=
  List.range' c.nodes.size (if right = [] then [epsilon] else right).length

section Expand

variable {c : Configuration} {top : Nat} {below is js : List Nat} {right : List Symbol}

theorem fresh_ne_nil : c.fresh right ≠ [] := by
  rw [fresh, ne_eq, List.range'_eq_nil_iff, List.length_eq_zero_iff]
  split
  · exact List.cons_ne_nil _ _
  · next h => exact h

theorem size_expand_fresh :
    (c.expand top below right).nodes.size = c.nodes.size + (c.fresh right).length := by
  rw [size_expand, fresh, List.length_range']
  split <;> rfl

theorem mem_fresh {i : Nat} :
    i ∈ c.fresh right ↔ c.nodes.size ≤ i ∧ i < c.nodes.size + (c.fresh right).length := by
  rw [fresh, List.mem_range'_1, List.length_range']

theorem stack_expand_fresh :
    (c.expand top below right).stack = (if right = [] then [] else c.fresh right) ++ below :=
  rfl

theorem nodes_expand_nil (hrange : top < c.nodes.size) (h : c.children top = []) :
    (c.expand top below []).nodes = (c.nodes.push ⟨epsilon, []⟩).modify top fun n =>
      { n with children := n.children ++ [c.nodes.size] } := by
  have hchildren : c.nodes[top].children = [] := by
    simpa [children, Array.getElem?_eq_getElem hrange] using h
  refine Array.ext_getElem? fun i => ?_
  simp only [expand, if_true, Array.push_eq_append, Array.getElem?_append, Array.getElem?_modify,
    Array.size_modify]
  by_cases htop : top = i
  · subst htop
    simp [hchildren, hrange]
  · rw [if_neg htop, if_neg htop]
    rfl

theorem range_expand : List.range (c.expand top below right).nodes.size =
    List.range c.nodes.size ++ c.fresh right := by
  rw [size_expand_fresh, fresh, List.length_range', List.range_eq_range', List.range_eq_range',
    ← List.range'_append_1, Nat.zero_add]

theorem Spans.expand (h : c.Spans is js) (htop : c.children top = []) :
    (c.expand top below right).Spans is (graft top (top :: c.fresh right) js) := by
  induction h with
  | nil => exact .nil
  | @cons i is js ks hi hlater hc _ ihc ih =>
    have hsize : i < (c.expand top below right).nodes.size := by
      rw [size_expand_fresh]
      omega
    by_cases hit : i = top
    · subst hit
      rw [htop] at hc
      cases hc
      have hchildren : (c.expand i below right).children i = c.fresh right :=
        children_expand_top hi
      rw [List.cons_append, List.nil_append, graft_self]
      refine .cons hsize ?_ ?_ ih
      · rw [hchildren]
        exact fun j hj => Nat.lt_of_lt_of_le hi (mem_fresh.1 hj).1
      · rw [hchildren]
        exact of_childless fun j hj =>
          ⟨size_expand_fresh ▸ (mem_fresh.1 hj).2, children_expand_new (mem_fresh.1 hj).1⟩
    · rw [← children_expand_old hi (Ne.symm hit)] at hlater ihc
      rw [List.cons_append, graft_cons_of_ne hit, graft_append]
      exact .cons hsize hlater ihc ih

end Expand

end Configuration

namespace Table

variable {t : Table} {c d : Configuration} {input : List Symbol} {start : Symbol}
  {js done : List Nat}

/-- A node is processed by the round that meets it on top of the stack. The leaf for an empty right
side is never put there, and counts as processed. -/
def Processed (t : Table) (input : List Symbol) (start : Symbol) (c : Configuration) (i : Nat) :
    Prop :=
  (∃ b d, t.Reaches (.initial input start) b ∧ b.stack.head? = some i ∧ t.step b = .next d ∧
    t.Reaches d c) ∨
  0 < i ∧ c.label i = epsilon

theorem Processed.of_next (h : t.Reaches (.initial input start) c) {top : Nat} {below : List Nat}
    (htop : c.stack = top :: below) (hs : t.step c = .next d) : t.Processed input start d top :=
  .inl ⟨c, d, h, congrArg List.head? htop, hs, .refl⟩

theorem Processed.next {i : Nat} (h : t.Processed input start c i) (hi : i < c.nodes.size)
    (hs : t.step c = .next d) : t.Processed input start d i := by
  rcases h with ⟨b, e, hb, htop, hnext, he⟩ | ⟨hpos, hlabel⟩
  · exact .inl ⟨b, e, hb, htop, hnext, he.tail hs⟩
  · exact .inr ⟨hpos, (Configuration.label_next hs hi).2.trans hlabel⟩

/-! ## The walk in a run -/

/-- The walk around the tree comes by every node. The leaves that it comes by are some that are
processed, and behind them the stack. -/
structure Walked (t : Table) (input : List Symbol) (start : Symbol) (c : Configuration)
    (js done : List Nat) : Prop where
  spans : c.Spans [0] js
  perm : js.Perm (List.range c.nodes.size)
  leaves : js.filter (fun i => c.children i = []) = done ++ c.stack
  processed : ∀ i ∈ done, t.Processed input start c i

namespace Walked

theorem initial : t.Walked input start (.initial input start) [0] [] where
  spans := .of_childless fun i hi => by
    rw [List.mem_singleton.1 hi]
    exact ⟨Nat.zero_lt_one, rfl⟩
  perm := .refl _
  leaves := rfl
  processed := fun i hi => absurd hi List.not_mem_nil

theorem mem_iff (h : t.Walked input start c js done) {i : Nat} : i ∈ js ↔ i < c.nodes.size := by
  rw [h.perm.mem_iff, List.mem_range]

theorem nodup (h : t.Walked input start c js done) : js.Nodup :=
  h.perm.nodup_iff.2 List.nodup_range

theorem nodup_leaves (h : t.Walked input start c js done) : (done ++ c.stack).Nodup :=
  h.leaves ▸ h.nodup.filter _

theorem of_mem_leaves (h : t.Walked input start c js done) {i : Nat} (hi : i ∈ done ++ c.stack) :
    i < c.nodes.size ∧ c.children i = [] := by
  rw [← h.leaves, List.mem_filter, decide_eq_true_eq, h.mem_iff] at hi
  exact hi

theorem of_mem_stack (h : t.Walked input start c js done) {i : Nat} (hi : i ∈ c.stack) :
    i < c.nodes.size ∧ c.children i = [] :=
  h.of_mem_leaves (List.mem_append_right _ hi)

theorem processed_next (h : t.Walked input start c js done) (hs : t.step c = .next d) :
    ∀ i ∈ done, t.Processed input start d i := fun i hi =>
  (h.processed i hi).next (h.of_mem_leaves (List.mem_append_left _ hi)).1 hs

section Round

variable {top : Nat} {below : List Nat} {rest right : List Symbol}

theorem advance (h : t.Walked input start c js done) (hreach : t.Reaches (.initial input start) c)
    (htop : c.stack = top :: below) (hs : t.step c = .next (c.advance below rest)) :
    t.Walked input start (c.advance below rest) js (done ++ [top]) where
  spans := h.spans.congr rfl
  perm := h.perm
  leaves := by
    rw [List.append_assoc]
    exact h.leaves.trans (congrArg (done ++ ·) htop)
  processed := List.forall_mem_append.2
    ⟨h.processed_next hs, List.forall_mem_singleton.2 (.of_next hreach htop hs)⟩

/-- The node that is expanded is a leaf no more, and the new nodes are leaves in its place. -/
theorem leaves_expand (h : t.Walked input start c js done) (htop : c.stack = top :: below) :
    (graft top (top :: c.fresh right) js).filter
        (fun i => (c.expand top below right).children i = []) =
      done ++ c.fresh right ++ below := by
  obtain ⟨hrange, hchildless⟩ := h.of_mem_stack (Configuration.top_mem_stack htop)
  have hnodup := h.nodup_leaves
  have hleaves := h.leaves
  rw [htop] at hnodup hleaves
  rw [← graft_cut hnodup, ← hleaves]
  refine filter_graft (fun i hi => ?_) ?_ ?_ fun i hi hne => ?_
  · rw [decide_eq_true_eq, Configuration.children_expand_new (Configuration.mem_fresh.1 hi).1]
  · rw [decide_eq_true_eq, hchildless]
  · rw [decide_eq_false_iff_not, Configuration.children_expand_top hrange]
    exact Configuration.fresh_ne_nil
  · rw [Configuration.children_expand_old (h.mem_iff.1 hi) (Ne.symm hne)]

theorem expand (h : t.Walked input start c js done)
    (htop : c.stack = top :: below) (hs : t.step c = .next (c.expand top below right)) :
    ∃ done, t.Walked input start (c.expand top below right)
      (graft top (top :: c.fresh right) js) done := by
  obtain ⟨hrange, hchildless⟩ := h.of_mem_stack (Configuration.top_mem_stack htop)
  have hspans : (c.expand top below right).Spans [0] (graft top (top :: c.fresh right) js) :=
    h.spans.expand hchildless
  have hperm : (graft top (top :: c.fresh right) js).Perm
      (List.range (c.expand top below right).nodes.size) := by
    rw [Configuration.range_expand]
    exact (graft_perm h.nodup (h.mem_iff.2 hrange)).trans (h.perm.append_right _)
  have hleaves : _ = done ++ c.fresh right ++ below := h.leaves_expand htop
  by_cases hr : right = []
  · subst hr
    refine ⟨done ++ c.fresh [], hspans, hperm, hleaves, ?_⟩
    refine List.forall_mem_append.2 ⟨h.processed_next hs, List.forall_mem_singleton.2 (.inr ?_)⟩
    exact ⟨Nat.lt_of_le_of_lt (Nat.zero_le _) hrange, Configuration.label_expand_epsilon⟩
  · refine ⟨done, hspans, hperm, ?_, h.processed_next hs⟩
    rw [hleaves, Configuration.stack_expand_fresh, if_neg hr, List.append_assoc]

end Round

theorem next (h : t.Walked input start c js done) (hreach : t.Reaches (.initial input start) c)
    (hs : t.step c = .next d) : ∃ js done, t.Walked input start d js done := by
  obtain ⟨top, below, current, rest, htop, -, hcases⟩ := step_next_cases hs
  rcases hcases with ⟨-, -, rfl⟩ | ⟨-, right, -, rfl⟩
  · exact ⟨js, done ++ [top], h.advance hreach htop hs⟩
  · exact ⟨_, h.expand htop hs⟩

end Walked

theorem Reaches.walked (h : t.Reaches (.initial input start) c) :
    ∃ js done, t.Walked input start c js done := by
  induction h with
  | refl => exact ⟨[0], [], .initial⟩
  | tail h hs ih =>
    obtain ⟨js, done, hwalked⟩ := ih
    exact hwalked.next h hs

theorem Reaches.of_mem_stack (h : t.Reaches (.initial input start) c) {i : Nat}
    (hi : i ∈ c.stack) : i < c.nodes.size ∧ c.children i = [] := by
  obtain ⟨js, done, hwalked⟩ := Reaches.walked h
  exact hwalked.of_mem_stack hi

/-- The node that is taken off the stack has no children, so that an expansion by an empty right
side loses none. -/
theorem Reaches.nodes_expand_nil (h : t.Reaches (.initial input start) c) {top : Nat}
    {below : List Nat} (htop : c.stack = top :: below) : c.children top = [] ∧
      (c.expand top below []).nodes = (c.nodes.push ⟨epsilon, []⟩).modify top fun n =>
        { n with children := n.children ++ [c.nodes.size] } := by
  obtain ⟨hrange, hchildless⟩ := Reaches.of_mem_stack h (Configuration.top_mem_stack htop)
  exact ⟨hchildless, Configuration.nodes_expand_nil hrange hchildless⟩

theorem Reaches.position (h : t.Reaches (.initial input start) c) :
    c.position ≤ input.length ∧ input.drop c.position = c.rest := by
  induction h with
  | refl => exact ⟨Nat.zero_le _, rfl⟩
  | @tail c d _ hs ih =>
    obtain ⟨hle, hrest⟩ := ih
    refine ⟨?_, drop_position_of_next hrest hs⟩
    obtain ⟨top, below, current, rest, -, hr, hcases⟩ := step_next_cases hs
    rcases hcases with ⟨-, -, rfl⟩ | ⟨-, right, -, rfl⟩
    · have hlt : c.position < input.length := by
        rw [← Nat.not_le, ← List.drop_eq_nil_iff, hrest, hr]
        exact List.cons_ne_nil _ _
      exact hlt
    · exact hle

theorem Reaches.declared (ht : t.Sound) (h : t.Reaches (.initial input start) c) :
    ∀ i ∈ c.stack, 0 < i → t.Declares (c.label i) := by
  induction h with
  | refl =>
    intro i hi hpos
    rw [List.mem_singleton.1 hi] at hpos
    exact absurd hpos (Nat.lt_irrefl 0)
  | @tail c d h hs ih =>
    obtain ⟨top, below, current, rest, htop, -, hcases⟩ := step_next_cases hs
    have hmem := Configuration.mem_stack_of_below htop
    rcases hcases with ⟨-, -, rfl⟩ | ⟨-, right, hget, rfl⟩
    · exact fun i hi => ih i (hmem i hi)
    · intro i hi hpos
      rw [Configuration.stack_expand, List.mem_append, List.mem_range'_1] at hi
      rcases hi with ⟨hge, hlt⟩ | hold
      · obtain ⟨j, rfl⟩ := Nat.exists_eq_add_of_le hge
        have hj : j < right.length := by omega
        rw [Configuration.label_expand_new hj]
        exact (ht.valid_of_get? hget).right_declared _ (List.getElem_mem hj)
      · rw [Configuration.label_expand_old (Reaches.of_mem_stack h (hmem i hold)).1]
        exact ih i (hmem i hold) hpos

theorem Reaches.not_processed (ht : t.Sound) (h : t.Reaches (.initial input start) c) {i : Nat}
    (hi : i ∈ c.stack) : ¬ t.Processed input start c i := by
  rintro (⟨b, d, hb, htop, hs, hd⟩ | ⟨hpos, hlabel⟩)
  · obtain ⟨js, done, hwalked⟩ := Reaches.walked hb
    obtain ⟨below, hstack⟩ := List.head?_eq_some_iff.1 htop
    have hrange := (hwalked.of_mem_stack (List.mem_of_head? htop)).1
    have hbelow : i ∉ b.stack.tail := by
      have hnodup := (List.nodup_append.1 hwalked.nodup_leaves).2.1
      rw [hstack] at hnodup ⊢
      exact (List.nodup_cons.1 hnodup).1
    have hoff := Configuration.notMem_stack_next hs hrange hbelow
    exact (Reaches.children hd (Configuration.label_next hs hrange).1 hoff).1 hi
  · exact ht.ne_epsilon (Reaches.declared ht h i hi hpos) hlabel

/-! ## The arena -/

structure WellGrown (t : Table) (input : List Symbol) (start : Symbol) (c : Configuration) :
    Prop where
  position_le : c.position ≤ input.length
  rest_eq : input.drop c.position = c.rest
  stack_lt : ∀ i ∈ c.stack, i < c.nodes.size
  stack_nodup : c.stack.Nodup
  root_off : ∀ b, t.Reaches (.initial input start) b → t.step b = .next c → 0 ∉ c.stack
  children_lt : ∀ i, ∀ j ∈ c.children i, i < j ∧ j < c.nodes.size
  children_nodup : ∀ i, (c.children i).Nodup
  parent : ∀ j, 0 < j → j < c.nodes.size → ∃! i, j ∈ c.children i
  walk : (c.walk c.nodes.size 0).Perm (List.range c.nodes.size)
  frontier : ∃ done, c.frontier = done ++ c.stack ∧ (∀ i ∈ done, t.Processed input start c i) ∧
    ∀ i ∈ c.stack, ¬ t.Processed input start c i
  -- no index is out of range, and no depth is missed
  built : ∀ k, c.nodes.size ≤ k → c.build? k 0 = some c.tree
  nodeCount : c.tree.nodeCount = c.nodes.size

namespace Walked

theorem mem_of_child (h : t.Walked input start c js done) {i j : Nat} (hj : j ∈ c.children i) :
    i ∈ js := by
  rw [h.mem_iff, ← Nat.not_le]
  intro hle
  rw [Configuration.children_of_size_le hle] at hj
  exact List.not_mem_nil hj

theorem lt_of_child (h : t.Walked input start c js done) {i j : Nat} (hj : j ∈ c.children i) :
    i < j ∧ j < c.nodes.size := by
  have hi := h.mem_of_child hj
  have hmem : j ∈ [0] ++ js.flatMap c.children :=
    List.mem_append_right _ (List.mem_flatMap.2 ⟨i, hi, hj⟩)
  exact ⟨h.spans.later i hi j hj, h.spans.lt j (h.spans.perm_children.mem_iff.2 hmem)⟩

theorem nodup_flatMap_children (h : t.Walked input start c js done) :
    (js.flatMap c.children).Nodup :=
  (List.nodup_cons.1 (h.spans.perm_children.nodup_iff.1 h.nodup)).2

theorem nodup_children (h : t.Walked input start c js done) (i : Nat) : (c.children i).Nodup := by
  by_cases hi : i ∈ js
  · exact (List.nodup_flatMap.1 h.nodup_flatMap_children).1 i hi
  · rw [Configuration.children_of_size_le (Nat.not_lt.1 (mt h.mem_iff.2 hi))]
    exact List.nodup_nil

theorem existsUnique_parent (h : t.Walked input start c js done) {j : Nat} (hpos : 0 < j)
    (hj : j < c.nodes.size) : ∃! i, j ∈ c.children i := by
  have hmem : j ∈ 0 :: js.flatMap c.children := h.spans.perm_children.mem_iff.1 (h.mem_iff.2 hj)
  obtain ⟨i, hi, hchild⟩ :=
    List.mem_flatMap.1 ((List.mem_cons.1 hmem).resolve_left (Nat.ne_of_gt hpos))
  refine ⟨i, hchild, fun k hk => ?_⟩
  have hdisjoint := (List.nodup_flatMap.1 h.nodup_flatMap_children).2
  have hsymm : Std.Symm (Function.onFun List.Disjoint c.children) :=
    ⟨fun _ _ => List.disjoint_symm⟩
  by_contra hne
  exact hdisjoint.forall (h.mem_of_child hk) hi hne hk hchild

theorem walk_eq (h : t.Walked input start c js done) : c.walk c.nodes.size 0 = js := by
  have hwalk := h.spans.flatMap_walk (k := c.nodes.size) fun i _ => Nat.le_add_left _ i
  rwa [List.flatMap_singleton] at hwalk

theorem build?_eq (h : t.Walked input start c js done) {k : Nat} (hk : c.nodes.size ≤ k) :
    c.build? k 0 = some c.tree := by
  refine h.spans.build?_eq (List.forall_mem_singleton.2 ?_)
    (fun i _ => Nat.le_add_left _ i) 0 List.mem_cons_self
  rwa [Nat.zero_add]

theorem nodeCount_eq (h : t.Walked input start c js done) :
    c.tree.nodeCount = c.nodes.size := by
  rw [Configuration.tree, Configuration.nodeCount_subtree, h.walk_eq, h.perm.length_eq,
    List.length_range]

end Walked

theorem Reaches.wellGrown (ht : t.Sound) (h : t.Reaches (.initial input start) c) :
    t.WellGrown input start c := by
  obtain ⟨js, done, hwalked⟩ := Reaches.walked h
  obtain ⟨hposition, hrest⟩ := Reaches.position h
  exact {
    position_le := hposition
    rest_eq := hrest
    stack_lt := fun i hi => (Reaches.of_mem_stack h hi).1
    stack_nodup := (List.nodup_append.1 hwalked.nodup_leaves).2.1
    root_off := fun b hb hs => Reaches.root_notMem_of_next hb hs
    children_lt := fun i j hj => hwalked.lt_of_child hj
    children_nodup := hwalked.nodup_children
    parent := fun j hpos hj => hwalked.existsUnique_parent hpos hj
    walk := hwalked.walk_eq.symm ▸ hwalked.perm
    frontier := by
      refine ⟨done, ?_, hwalked.processed, fun i hi => Reaches.not_processed ht h hi⟩
      rw [Configuration.frontier, hwalked.walk_eq, hwalked.leaves]
    built := fun k hk => hwalked.build?_eq hk
    nodeCount := hwalked.nodeCount_eq }

theorem exists_reaches_of_run {n : Nat} {outcome : Except Rejection ParseTree}
    (h : t.run n c = some outcome) : ∃ d, t.Reaches c d ∧ t.step d = .done outcome := by
  induction n generalizing c with
  | zero => cases h
  | succ n ih =>
    simp only [run] at h
    cases hd : t.step c with
    | next d =>
      rw [hd] at h
      obtain ⟨e, hreach, he⟩ := ih h
      exact ⟨e, .head hd hreach, he⟩
    | done o =>
      rw [hd] at h
      cases h
      exact ⟨c, .refl, hd⟩

theorem tree_eq_of_done {tree : ParseTree} (h : t.step c = .done (.ok tree)) : c.tree = tree := by
  rcases step_done_cases h with ⟨top, below, current, rest, -, -, hcases⟩ | ⟨-, hend⟩
  · rcases hcases with ⟨-, -, e⟩ | ⟨-, -, e⟩
    · cases e
    · cases e
  · unfold Configuration.outcome at hend
    split at hend
    · exact (Except.ok.inj hend).symm
    · cases hend

theorem arena_is_tree (ht : t.Reachable) (input : List Symbol) (start : Symbol) :
    (∀ c, t.Reaches (.initial input start) c → t.WellGrown input start c) ∧
      ∀ tree, t.recognize input start = .ok tree →
        ∃ c, t.Reaches (.initial input start) c ∧ t.step c = .done (.ok tree) ∧
          (∀ k, c.nodes.size ≤ k → c.build? k 0 = some tree) ∧
          tree.nodeCount = c.nodes.size := by
  refine ⟨fun c hc => Reaches.wellGrown ht.sound hc, fun tree h => ?_⟩
  obtain ⟨n, hn⟩ := ht.recognize_eq_ok_iff_run.1 h
  obtain ⟨c, hc, hdone⟩ := exists_reaches_of_run hn
  have hgrown := Reaches.wellGrown ht.sound hc
  obtain rfl := tree_eq_of_done hdone
  exact ⟨c, hc, hdone, hgrown.built, hgrown.nodeCount⟩

/-- A node in the middle of the row of leaves has got a leaf that is never put on the stack. -/
theorem closing_arena_is_tree :
    closing.Reachable ∧
      (∃ c, closing.Reaches (.initial ['a', '$', '$'] 'S') c ∧ c.frontier = [1, 4, 3] ∧
        c.stack = [3] ∧ closing.WellGrown ['a', '$', '$'] 'S' c) ∧
      ∃ c, closing.Reaches (.initial ['a', '$', '$'] 'S') c ∧ c.nodes.size = 5 ∧
        c.build? 5 0 = some (branch 'S' [leaf 'a', branch 'X' [], leaf '$']) := by
  obtain ⟨hgrown, haccepted⟩ := arena_is_tree closing_reachable ['a', '$', '$'] 'S'
  have hreach : closing.Reaches (.initial ['a', '$', '$'] 'S') _ :=
    .head rfl (.head rfl (.head rfl .refl))
  obtain ⟨c, hc, -, hbuilt, hcount⟩ := haccepted _ (closing_reachable.recognize_of_run (n := 5) rfl)
  have hsize : c.nodes.size = 5 := hcount.symm
  exact ⟨closing_reachable, ⟨_, hreach, rfl, rfl, hgrown _ hreach⟩, c, hc, hsize,
    hbuilt 5 (Nat.le_of_eq hsize)⟩

end Table

end PredictiveParsing
