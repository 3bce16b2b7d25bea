import Mathlib.Logic.Relation
import PredictiveParsing.Proofs.Descent

/-!
# The machine builds the tree of predictive descent

A node that is off the stack is never changed again (`Reaches.children`), so a finished tree stays
in the arena (`Reaches.holds`), and since children have larger numbers than their parent, a cut at
the depth given by the size of the arena leaves all of it (`Holds.map_subtree`). What `Parses` reads
for the symbols of some nodes on the stack is read by the machine too, which leaves the trees of
the reading at these nodes (`Parses.exists_reaches`). With the walk on symbols for the other
direction, a run accepts with a tree just when this is the predictive tree of the input
(`Reachable.run_accepts_iff`).
-/
namespace PredictiveParsing

open ParseTree

namespace Table

variable {t : Table} {c d : Configuration}

abbrev Reaches (t : Table) : Configuration → Configuration → Prop :=
  Relation.ReflTransGen fun c d => t.step c = .next d

theorem Reaches.exists_run {n : Nat} {outcome : Except Rejection ParseTree} (h : t.Reaches c d)
    (hd : t.run n d = some outcome) : ∃ m, t.run m c = some outcome := by
  induction h using Relation.ReflTransGen.head_induction_on with
  | refl => exact ⟨n, hd⟩
  | head hs _ ih =>
    obtain ⟨m, hm⟩ := ih
    refine ⟨m + 1, ?_⟩
    rw [run, hs]
    exact hm

end Table

namespace Configuration

variable {t : Table} {c d : Configuration}

structure Pending (t : Table) (c : Configuration) : Prop extends Stacked t c where
  nodup : c.stack.Nodup
  childless : ∀ i ∈ c.stack, c.children i = []

/-- The nodes carry finished trees, whose nodes are off the stack and come after their parents. -/
inductive Holds (c : Configuration) : List Nat → List ParseTree → Prop where
  | nil : Holds c [] []
  | cons {i : Nat} {is : List Nat} {us ts : List ParseTree} :
      i < c.nodes.size → i ∉ c.stack → (∀ j ∈ c.children i, i < j) → Holds c (c.children i) us →
      Holds c is ts → Holds c (i :: is) (node (c.label i) us :: ts)

theorem forall_le_add_of_later {size i k : Nat} {js : List Nat} (hlater : ∀ j ∈ js, i < j)
    (h : size ≤ i + (k + 1)) : ∀ j ∈ js, size ≤ j + k := by
  intro j hj
  have := hlater j hj
  omega

/-- Down to a depth at which all numbers are used up, a finished tree is read off the arena. -/
theorem Holds.map_subtree {is : List Nat} {ts : List ParseTree} (h : c.Holds is ts) {k : Nat}
    (hk : ∀ i ∈ is, c.nodes.size ≤ i + k) : is.map (c.subtree k) = ts := by
  induction h generalizing k with
  | nil => rfl
  | @cons i is us ts hi _ hlater _ _ ihc ih =>
    obtain ⟨hki, hkis⟩ := List.forall_mem_cons.1 hk
    cases k with
    | zero => omega
    | succ k =>
      rw [List.map_cons, ih hkis, subtree, ihc (forall_le_add_of_later hlater hki)]

theorem Holds.append {is js : List Nat} {ts us : List ParseTree} (h : c.Holds is ts)
    (h' : c.Holds js us) : c.Holds (is ++ js) (ts ++ us) := by
  induction h with
  | nil => exact h'
  | cons hi hs hlater hc _ _ ih => exact .cons hi hs hlater hc ih

/-! ## What a round leaves alone -/

theorem children_expand_old {top i : Nat} {below : List Nat} {right : List Symbol}
    (h : i < c.nodes.size) (hne : top ≠ i) :
    (c.expand top below right).children i = c.children i := by
  simp only [children, expand, Array.getElem?_append, Array.size_modify, h, if_true,
    Array.getElem?_modify, hne, if_false]

theorem children_expand_top {top : Nat} {below : List Nat} {right : List Symbol}
    (h : top < c.nodes.size) : (c.expand top below right).children top =
      List.range' c.nodes.size (if right = [] then [epsilon] else right).length := by
  simp only [children, expand, Array.getElem?_append, Array.size_modify, h, if_true,
    Array.getElem?_modify, Array.getElem?_eq_getElem h]
  rfl

theorem children_expand_new {top i : Nat} {below : List Nat} {right : List Symbol}
    (h : c.nodes.size ≤ i) : (c.expand top below right).children i = [] := by
  have hi : ¬ i < c.nodes.size := by omega
  simp only [children, expand, Array.getElem?_append, Array.size_modify, hi, if_false,
    List.getElem?_toArray, List.getElem?_map, Option.map_map]
  cases (if right = [] then [epsilon] else right)[i - c.nodes.size]? <;> rfl

theorem label_expand_epsilon {top : Nat} {below : List Nat} :
    (c.expand top below []).label c.nodes.size = epsilon := by
  simp only [label, expand, Array.getElem?_append, Array.size_modify, Nat.lt_irrefl, if_false,
    Nat.sub_self]
  rfl

theorem label_next (h : t.step c = .next d) {i : Nat} (hi : i < c.nodes.size) :
    i < d.nodes.size ∧ d.label i = c.label i := by
  obtain ⟨top, below, current, rest, -, -, hcases⟩ := Table.step_next_cases h
  rcases hcases with ⟨-, -, rfl⟩ | ⟨-, right, -, rfl⟩
  · exact ⟨hi, rfl⟩
  · refine ⟨?_, label_expand_old hi⟩
    rw [size_expand]
    omega

theorem notMem_stack_expand {top i : Nat} {below : List Nat} {right : List Symbol}
    (hi : i < c.nodes.size) (h : i ∉ below) : i ∉ (c.expand top below right).stack := by
  rw [stack_expand, List.mem_append, List.mem_range'_1]
  rintro (hnew | hold)
  · omega
  · exact h hold

theorem notMem_stack_next (h : t.step c = .next d) {i : Nat} (hi : i < c.nodes.size)
    (hbelow : i ∉ c.stack.tail) : i ∉ d.stack := by
  obtain ⟨top, below, current, rest, hstack, -, hcases⟩ := Table.step_next_cases h
  rw [hstack, List.tail_cons] at hbelow
  rcases hcases with ⟨-, -, rfl⟩ | ⟨-, right, -, rfl⟩
  · exact hbelow
  · exact notMem_stack_expand hi hbelow

/-- A node that has been taken off the stack is never changed again. -/
theorem children_next (h : t.step c = .next d) {i : Nat} (hi : i < c.nodes.size)
    (hs : i ∉ c.stack) : i ∉ d.stack ∧ d.children i = c.children i := by
  refine ⟨notMem_stack_next h hi (mt List.mem_of_mem_tail hs), ?_⟩
  obtain ⟨top, below, current, rest, hstack, -, hcases⟩ := Table.step_next_cases h
  rw [hstack, List.mem_cons, not_or] at hs
  rcases hcases with ⟨-, -, rfl⟩ | ⟨-, right, -, rfl⟩
  · rfl
  · exact children_expand_old hi (Ne.symm hs.1)

theorem Holds.next {is : List Nat} {ts : List ParseTree} (hc : c.Holds is ts)
    (h : t.step c = .next d) : d.Holds is ts := by
  induction hc with
  | nil => exact .nil
  | cons hi hs hlater _ _ ihc ih =>
    obtain ⟨hi', hlabel⟩ := label_next h hi
    obtain ⟨hs', hchildren⟩ := children_next h hi hs
    rw [← hlabel]
    rw [← hchildren] at hlater ihc
    exact .cons hi' hs' hlater ihc ih

namespace Pending

theorem initial (input : List Symbol) {start : Symbol} (h : start ∉ t.terminals) :
    Pending t (.initial input start) := by
  refine ⟨.initial input h, List.pairwise_singleton _ 0, fun i hi => ?_⟩
  rw [List.mem_singleton.1 hi]
  rfl

theorem nodup_cons (hc : Pending t c) {top : Nat} {below : List Nat}
    (hs : c.stack = top :: below) : top ∉ below ∧ below.Nodup :=
  List.nodup_cons.1 (hs ▸ hc.nodup)

theorem next (hc : Pending t c) (h : t.step c = .next d) : Pending t d := by
  have hstacked := (hc.toStacked.forward_of_next h).2
  obtain ⟨top, below, current, rest, hs, -, hcases⟩ := Table.step_next_cases h
  obtain ⟨htop, hnodup⟩ := hc.nodup_cons hs
  have hbelow := hc.below_in_range hs
  have hchildless : ∀ i ∈ below, c.children i = [] := fun i hi =>
    hc.childless i (mem_stack_of_below hs i hi)
  rcases hcases with ⟨-, -, rfl⟩ | ⟨-, right, -, rfl⟩
  · exact ⟨hstacked, hnodup, hchildless⟩
  · refine ⟨hstacked, ?_, fun i hi => ?_⟩
    · rw [stack_expand, List.nodup_append]
      refine ⟨List.nodup_range', hnodup, fun i hi j hj => ?_⟩
      have := hbelow j hj
      rw [List.mem_range'_1] at hi
      omega
    · rw [stack_expand, List.mem_append, List.mem_range'_1] at hi
      rcases hi with hnew | hold
      · exact children_expand_new hnew.1
      · have hne : top ≠ i := fun e => htop (e ▸ hold)
        rw [children_expand_old (hbelow i hold) hne, hchildless i hold]

end Pending

end Configuration

/-! ## Runs -/

namespace Table

variable {t : Table} {c d : Configuration}

theorem Reaches.label (h : t.Reaches c d) {i : Nat} (hi : i < c.nodes.size) :
    i < d.nodes.size ∧ d.label i = c.label i := by
  induction h with
  | refl => exact ⟨hi, rfl⟩
  | tail _ hs ih =>
    obtain ⟨hrange, hlabel⟩ := ih
    obtain ⟨hrange', hlabel'⟩ := Configuration.label_next hs hrange
    exact ⟨hrange', hlabel'.trans hlabel⟩

theorem Reaches.children (h : t.Reaches c d) {i : Nat} (hi : i < c.nodes.size)
    (hs : i ∉ c.stack) : i ∉ d.stack ∧ d.children i = c.children i := by
  induction h with
  | refl => exact ⟨hs, rfl⟩
  | tail h hnext ih =>
    obtain ⟨hs', hchildren⟩ := ih
    obtain ⟨hs'', hchildren'⟩ := Configuration.children_next hnext (Reaches.label h hi).1 hs'
    exact ⟨hs'', hchildren'.trans hchildren⟩

theorem Reaches.holds (h : t.Reaches c d) {is : List Nat} {ts : List ParseTree}
    (hc : c.Holds is ts) : d.Holds is ts := by
  induction h with
  | refl => exact hc
  | tail _ hs ih => exact ih.next hs

theorem Reaches.map_label (h : t.Reaches c d) {is : List Nat}
    (his : ∀ i ∈ is, i < c.nodes.size) : is.map d.label = is.map c.label :=
  List.map_congr_left fun i hi => (Reaches.label h (his i hi)).2

end Table

namespace Configuration

variable {t : Table} {c d : Configuration}

theorem holds_leaf {i : Nat} (hi : i < c.nodes.size) (hs : i ∉ c.stack)
    (hc : c.children i = []) : c.Holds [i] [leaf (c.label i)] := by
  refine .cons hi hs ?_ ?_ .nil
  · rw [hc]
    exact fun j hj => absurd hj List.not_mem_nil
  · rw [hc]
    exact .nil

theorem holds_epsilon {top : Nat} {below : List Nat} (hbelow : ∀ i ∈ below, i < c.nodes.size) :
    (c.expand top below []).Holds [c.nodes.size] [leaf epsilon] := by
  rw [← label_expand_epsilon]
  apply holds_leaf
  · rw [size_expand, if_pos rfl]
    exact Nat.lt_succ_self _
  · intro hmem
    rw [stack_expand, List.length_nil, List.range'_zero, List.nil_append] at hmem
    exact Nat.lt_irrefl _ (hbelow _ hmem)
  · exact children_expand_new (Nat.le_refl _)

theorem Pending.holds_branch (hc : Pending t c) {top : Nat} {below : List Nat} {right : List Symbol}
    (hs : c.stack = top :: below) (h : t.Reaches (c.expand top below right) d)
    {us : List ParseTree} (hus : d.Holds (List.range' c.nodes.size right.length) us)
    (hroots : us.map root = right) : d.Holds [top] [branch (c.label top) us] := by
  have htop : top < c.nodes.size := hc.in_range top (top_mem_stack hs)
  have hbelow := hc.below_in_range hs
  have hrange : top < (c.expand top below right).nodes.size := by
    rw [size_expand]
    omega
  have hsettled : top ∉ (c.expand top below right).stack :=
    notMem_stack_expand htop (hc.nodup_cons hs).1
  obtain ⟨hrange', hlabel⟩ := h.label hrange
  obtain ⟨hsettled', hchildren⟩ := h.children hrange hsettled
  rw [label_expand_old htop] at hlabel
  rw [children_expand_top htop] at hchildren
  have hlater : ∀ j ∈ d.children top, top < j := by
    intro j hj
    rw [hchildren, List.mem_range'_1] at hj
    omega
  rw [← hlabel, branch]
  refine .cons hrange' hsettled' hlater ?_ .nil
  rw [hchildren]
  by_cases hr : right = []
  · subst hr
    obtain rfl := List.map_eq_nil_iff.1 hroots
    exact h.holds (holds_epsilon hbelow)
  · have hne : us ≠ [] := fun e => hr (by rw [← hroots, e, List.map_nil])
    rw [if_neg hr, if_neg hne]
    exact hus

end Configuration

namespace Table

variable {t : Table} {c d : Configuration}

/-- What is read by the symbols of some nodes on the stack is read by the machine, which hangs the
trees under these nodes. -/
theorem Parses.exists_reaches (ht : t.Sound) {α s rest : List Symbol} {ts : List ParseTree}
    (h : t.Parses α s ts rest) {is below : List Nat} (hc : Configuration.Pending t c)
    (hstack : c.stack = is ++ below) (hlabels : is.map c.label = α) (hrest : c.rest = s) :
    ∃ d, t.Reaches c d ∧ Configuration.Pending t d ∧ d.stack = below ∧ d.rest = rest ∧
      d.Holds is ts := by
  induction h generalizing c is below with
  | nil =>
    obtain rfl := List.map_eq_nil_iff.1 hlabels
    exact ⟨c, .refl, hc, hstack, hrest, .nil⟩
  | @terminal x α s rest ts hx _ ih =>
    obtain ⟨i, is, rfl, rfl, rfl⟩ := List.map_eq_cons_iff.1 hlabels
    rw [List.cons_append] at hstack
    have hstep := step_advance hstack hrest ((hc.matches_iff hstack).2 hx) rfl
    obtain ⟨d, hreach, hd, hbelow, hread, hholds⟩ := ih (hc.next hstep) rfl rfl rfl
    have hmem := Configuration.top_mem_stack hstack
    have hchildless := hc.childless i hmem
    have hleaf : (c.advance (is ++ below) s).Holds [i] [leaf (c.label i)] :=
      Configuration.holds_leaf (hc.in_range i hmem) (hc.nodup_cons hstack).1 hchildless
    exact ⟨d, .head hstep hreach, hd, hbelow, hread, (hreach.holds hleaf).append hholds⟩
  | @expand x current right α s mid rest us ts hcell hright _ ihr ih =>
    obtain ⟨i, is, rfl, rfl, rfl⟩ := List.map_eq_cons_iff.1 hlabels
    rw [List.cons_append] at hstack
    have hnot := mt (hc.matches_iff hstack).1 (ht.not_mem_terminals hcell)
    have hstep := step_expand hstack hrest hnot hcell
    obtain ⟨e, hreach, he, hestack, herest, hus⟩ :=
      ihr (hc.next hstep) Configuration.stack_expand Configuration.map_label_expand_new hrest
    have hreach' : t.Reaches c e := .head hstep hreach
    have his : ∀ j ∈ is, j < c.nodes.size := fun j hj =>
      hc.below_in_range hstack j (List.mem_append_left _ hj)
    obtain ⟨d, hreachd, hd, hbelow, hread, hholds⟩ := ih he hestack (hreach'.map_label his) herest
    have hbranch := hc.holds_branch hstack hreach hus hright.map_root
    exact ⟨d, hreach'.trans hreachd, hd, hbelow, hread, (hreachd.holds hbranch).append hholds⟩

theorem Parses.exists_run (ht : t.Sound) {input : List Symbol} {start : Symbol}
    {tree : ParseTree} (hstart : start ∉ t.terminals)
    (h : t.Parses [start] input [tree] [endMark]) :
    ∃ n, t.run n (.initial input start) = some (.ok tree) := by
  obtain ⟨d, hreach, -, hstack, hrest, hholds⟩ :=
    h.exists_reaches ht (Configuration.Pending.initial input hstart)
      (show (Configuration.initial input start).stack = [0] ++ [] from rfl) rfl rfl
  have htree : d.tree = tree :=
    List.head_eq_of_cons_eq (hholds.map_subtree (k := d.nodes.size) fun i _ => Nat.le_add_left _ _)
  have hdone : t.run 1 d = some (.ok tree) := by
    simp [run, step, hstack, Configuration.outcome, hrest, htree]
  exact hreach.exists_run hdone

theorem Reachable.run_accepts_iff (ht : t.Reachable) {input : List Symbol} {start : Symbol}
    {tree : ParseTree} :
    (∃ n, t.run n (.initial input start) = some (.ok tree)) ↔
      t.PredictiveTree input start tree := by
  rw [predictiveTree_iff_parses ht.sound]
  constructor
  · intro ⟨n, hn⟩
    have hstart : start ∉ t.terminals := by
      intro hs
      have hnon : start ∉ t.nonTerminals := ht.sound.alphabets.disjoint start hs
      obtain ⟨reason, hr⟩ := ht.recognize_of_not_mem hnon input
      rw [ht.recognize_of_run hn] at hr
      cases hr
    obtain ⟨m, s, p, hwalk, -, -, hv⟩ :=
      (Configuration.Stacked.initial input hstart).exists_walk_of_run hn
    obtain rfl := verdict_eq_none_iff.1 hv.symm
    obtain ⟨ts, hts⟩ := exists_parses_of_walk? hwalk
    obtain ⟨tree', rfl, -⟩ := List.map_eq_singleton_iff.1 hts.map_root
    obtain ⟨n', hn'⟩ := hts.exists_run ht.sound hstart
    obtain rfl := Except.ok.inj (run_unique hn hn')
    exact ⟨hstart, hts⟩
  · intro ⟨hstart, h⟩
    exact h.exists_run ht.sound hstart

theorem Reachable.recognize_eq_ok_iff_run (ht : t.Reachable) {input : List Symbol}
    {start : Symbol} {tree : ParseTree} :
    t.recognize input start = .ok tree ↔ ∃ n, t.run n (.initial input start) = some (.ok tree) := by
  constructor
  · exact fun h => exists_run_of_recognize h nofun
  · intro ⟨n, hn⟩
    exact ht.recognize_of_run hn

theorem recognition_is_predictive_descent (ht : t.Reachable) (input : List Symbol) (start : Symbol)
    (tree : ParseTree) :
    ((∃ n, t.run n (.initial input start) = some (.ok tree)) ↔
        t.PredictiveTree input start tree) ∧
      (t.recognize input start = .ok tree ↔ t.PredictiveTree input start tree) :=
  ⟨ht.run_accepts_iff, ht.recognize_eq_ok_iff_run.trans ht.run_accepts_iff⟩

def closing : Table :=
  { terminals := .ofList ['a', '$']
    nonTerminals := .ofList ['S', 'X']
    cells := ((∅ : CellMap).insert ⟨'S', 'a', ['a', 'X', '$']⟩).insert ⟨'X', '$', []⟩ }

theorem closing_reachable : closing.Reachable :=
  .build (show Table.build (.ofList ['S', 'X']) (.ofList ['a', '$'])
    [⟨'S', 'a', ['a', 'X', '$']⟩, ⟨'X', '$', []⟩] = .ok closing from rfl)

theorem closing_is_predictive_descent :
    closing.Reachable ∧
      closing.PredictiveTree ['a', '$', '$'] 'S'
        (branch 'S' [leaf 'a', branch 'X' [], leaf '$']) ∧
      closing.recognize ['a', '$', '$'] 'S' =
        .ok (branch 'S' [leaf 'a', branch 'X' [], leaf '$']) := by
  have h := recognition_is_predictive_descent closing_reachable ['a', '$', '$'] 'S'
    (branch 'S' [leaf 'a', branch 'X' [], leaf '$'])
  have htree := h.1.1 ⟨5, rfl⟩
  exact ⟨closing_reachable, htree, h.2.2 htree⟩

end Table

end PredictiveParsing
