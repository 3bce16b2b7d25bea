import PredictiveParsing.Recognizer.Run

/-!
The machine seen through the symbols on its stack. What a run does to the input and how long it
lasts depend on these symbols and the rest of the input alone
(`Configuration.Stacked.forward_of_next`, `Configuration.Stacked.forward_of_done`); the arena only
keeps the tree.
-/
namespace PredictiveParsing

namespace Table

section Step

variable {t : Table} {c d : Configuration} {top : Nat} {below : List Nat} {current : Symbol}
  {rest right : List Symbol}

theorem step_next_cases (h : t.step c = .next d) :
    ∃ top below current rest, c.stack = top :: below ∧ c.rest = current :: rest ∧
      ((top ≠ 0 ∧ c.label top ∈ t.terminals) ∧ c.label top = current ∧ d = c.advance below rest ∨
        ¬ (top ≠ 0 ∧ c.label top ∈ t.terminals) ∧ ∃ right,
          t.get? (c.label top) current = some right ∧ d = c.expand top below right) := by
  unfold step at h
  split at h
  · next top below current rest hs hr =>
    refine ⟨top, below, current, rest, hs, hr, ?_⟩
    simp only at h
    split at h
    · next ht =>
      split at h
      · next he =>
        cases h
        exact .inl ⟨ht, he, rfl⟩
      · cases h
    · next ht =>
      split at h
      · cases h
      · next right hg =>
        cases h
        exact .inr ⟨ht, right, hg, rfl⟩
  · cases h

/-- A round ends the run at a symbol that it refuses, or with the stack or the input used up. -/
theorem step_done_cases {outcome : Except Rejection ParseTree} (h : t.step c = .done outcome) :
    (∃ top below current rest, c.stack = top :: below ∧ c.rest = current :: rest ∧
      ((top ≠ 0 ∧ c.label top ∈ t.terminals) ∧ c.label top ≠ current ∧
          outcome = .error (.mismatch (c.label top) current c.position) ∨
        ¬ (top ≠ 0 ∧ c.label top ∈ t.terminals) ∧ t.get? (c.label top) current = none ∧
          outcome = .error (.noPrediction (c.label top) current c.position))) ∨
      (c.stack = [] ∨ c.rest = []) ∧ outcome = c.outcome := by
  unfold step at h
  split at h
  · next top below current rest hs hr =>
    refine .inl ⟨top, below, current, rest, hs, hr, ?_⟩
    simp only at h
    split at h
    · next ht =>
      split at h
      · cases h
      · next he =>
        cases h
        exact .inl ⟨ht, he, rfl⟩
    · next ht =>
      split at h
      · next hg =>
        cases h
        exact .inr ⟨ht, hg, rfl⟩
      · cases h
  · next hn =>
    cases h
    refine .inr ⟨?_, rfl⟩
    cases hs : c.stack with
    | nil => exact .inl rfl
    | cons top below =>
      cases hr : c.rest with
      | nil => exact .inr rfl
      | cons current rest => exact absurd hr (hn top below current rest hs)

theorem step_advance (hs : c.stack = top :: below) (hr : c.rest = current :: rest)
    (ht : top ≠ 0 ∧ c.label top ∈ t.terminals) (hl : c.label top = current) :
    t.step c = .next (c.advance below rest) := by
  simp only [step, hs, hr]
  rw [if_pos ht, if_pos hl]

theorem step_expand (hs : c.stack = top :: below) (hr : c.rest = current :: rest)
    (ht : ¬ (top ≠ 0 ∧ c.label top ∈ t.terminals))
    (hcell : t.get? (c.label top) current = some right) :
    t.step c = .next (c.expand top below right) := by
  simp only [step, hs, hr]
  rw [if_neg ht, hcell]

theorem step_mismatch (hs : c.stack = top :: below) (hr : c.rest = current :: rest)
    (ht : top ≠ 0 ∧ c.label top ∈ t.terminals) (hl : c.label top ≠ current) :
    t.step c = .done (.error (.mismatch (c.label top) current c.position)) := by
  simp only [step, hs, hr]
  rw [if_pos ht, if_neg hl]

theorem step_noPrediction (hs : c.stack = top :: below) (hr : c.rest = current :: rest)
    (ht : ¬ (top ≠ 0 ∧ c.label top ∈ t.terminals))
    (hcell : t.get? (c.label top) current = none) :
    t.step c = .done (.error (.noPrediction (c.label top) current c.position)) := by
  simp only [step, hs, hr]
  rw [if_neg ht, hcell]

theorem step_end (h : c.stack = [] ∨ c.rest = []) : t.step c = .done c.outcome := by
  unfold step
  split
  · next top below current rest hs hr =>
    rcases h with h | h
    · exact absurd (hs.symm.trans h) nofun
    · exact absurd (hr.symm.trans h) nofun
  · rfl

end Step

/-- One round on the symbols of the stack and the rest of the input, or nothing where the run
ends. -/
def forward? (t : Table) : List Symbol × List Symbol → Option (List Symbol × List Symbol)
  | (x :: stack, current :: rest) =>
    if x ∈ t.terminals then
      if x = current then some (stack, rest) else none
    else (t.get? x current).map fun right => (right ++ stack, current :: rest)
  | _ => none

def walk? (t : Table) : Nat → List Symbol × List Symbol → Option (List Symbol × List Symbol)
  | 0, s => some s
  | n + 1, s => (t.forward? s).bind (walk? t n)

def haltsWithin (t : Table) : Nat → List Symbol × List Symbol → Bool
  | 0, _ => false
  | n + 1, s =>
    match t.forward? s with
    | none => true
    | some s => haltsWithin t n s

theorem walk?_add {t : Table} {m n : Nat} {s : List Symbol × List Symbol} :
    t.walk? (m + n) s = (t.walk? m s).bind (t.walk? n) := by
  induction m generalizing s with
  | zero => simp [walk?]
  | succ m ih =>
    rw [Nat.succ_add]
    simp only [walk?, Option.bind_assoc]
    congr 1
    funext u
    exact ih

theorem haltsWithin_add {t : Table} {m n : Nat} {s u : List Symbol × List Symbol}
    (h : t.walk? m s = some u) : t.haltsWithin (m + n) s = t.haltsWithin n u := by
  induction m generalizing s with
  | zero =>
    cases h
    rw [Nat.zero_add]
  | succ m ih =>
    rw [Nat.succ_add]
    simp only [walk?, Option.bind_eq_some_iff] at h
    obtain ⟨v, hv, hu⟩ := h
    simp only [haltsWithin, hv]
    exact ih hu

theorem haltsWithin_mono {t : Table} {m n : Nat} {s : List Symbol × List Symbol} (hmn : m ≤ n)
    (h : t.haltsWithin m s = true) : t.haltsWithin n s = true := by
  induction m generalizing n s with
  | zero => exact absurd h Bool.false_ne_true
  | succ m ih =>
    obtain ⟨n, rfl⟩ : ∃ k, n = k + 1 := ⟨n - 1, by omega⟩
    simp only [haltsWithin] at h ⊢
    split
    · rfl
    · next u hu =>
      rw [hu] at h
      exact ih (by omega) h

theorem haltsWithin_of_walk? {t : Table} {m n : Nat} {s u : List Symbol × List Symbol}
    (h : t.walk? m s = some u) (hn : t.haltsWithin n s = true) :
    m ≤ n ∧ t.haltsWithin (n - m) u = true := by
  have hmn : m < n := by
    rcases Nat.lt_or_ge m n with hlt | hge
    · exact hlt
    · have hm := haltsWithin_add (n := 0) h
      have := haltsWithin_mono hge hn
      rw [Nat.add_zero, this] at hm
      exact absurd hm (by simp [haltsWithin])
  obtain ⟨k, rfl⟩ : ∃ k, n = m + k := ⟨n - m, by omega⟩
  rw [haltsWithin_add h] at hn
  rw [Nat.add_sub_cancel_left]
  exact ⟨by omega, hn⟩

end Table

namespace Configuration

theorem top_mem_stack {c : Configuration} {top : Nat} {below : List Nat}
    (h : c.stack = top :: below) : top ∈ c.stack := by
  rw [h]
  exact List.mem_cons_self

theorem mem_stack_of_below {c : Configuration} {top : Nat} {below : List Nat}
    (h : c.stack = top :: below) : ∀ i ∈ below, i ∈ c.stack := by
  rw [h]
  exact fun i hi => List.mem_cons_of_mem top hi

def labels (c : Configuration) : List Symbol := c.stack.map c.label

/-- The numbers on the stack are those of nodes, and the root is on it only by itself and is no
terminal. -/
structure Stacked (t : Table) (c : Configuration) : Prop where
  in_range : ∀ i ∈ c.stack, i < c.nodes.size
  root_alone : 0 ∈ c.stack → c.stack = [0] ∧ c.label 0 ∉ t.terminals

theorem label_expand_old {c : Configuration} {top i : Nat} {below : List Nat} {right : List Symbol}
    (h : i < c.nodes.size) : (c.expand top below right).label i = c.label i := by
  simp only [label, expand, Array.getElem?_append, Array.size_modify, h, if_true,
    Array.getElem?_modify]
  split
  · rw [Option.map_map]
    rfl
  · rfl

theorem label_expand_new {c : Configuration} {top j : Nat} {below : List Nat} {right : List Symbol}
    (h : j < right.length) : (c.expand top below right).label (c.nodes.size + j) = right[j] := by
  have hr : right ≠ [] := by
    intro e
    subst e
    exact absurd h (Nat.not_lt_zero j)
  have hj : ¬ c.nodes.size + j < c.nodes.size := by omega
  simp [label, expand, Array.getElem?_append, hr, hj, List.getElem?_map, List.getElem?_eq_getElem h]

theorem size_expand {c : Configuration} {top : Nat} {below : List Nat} {right : List Symbol} :
    (c.expand top below right).nodes.size =
      c.nodes.size + if right = [] then 1 else right.length := by
  simp only [expand, Array.size_append, Array.size_modify, List.size_toArray, List.length_map]
  split <;> rfl

theorem stack_expand {c : Configuration} {top : Nat} {below : List Nat} {right : List Symbol} :
    (c.expand top below right).stack = List.range' c.nodes.size right.length ++ below := by
  simp only [expand]
  split
  · next h => simp [h]
  · rfl

theorem map_label_expand_new {c : Configuration} {top : Nat} {below : List Nat}
    {right : List Symbol} :
    (List.range' c.nodes.size right.length).map (c.expand top below right).label = right := by
  apply List.ext_getElem
  · simp
  · intro j hj hj'
    simp only [List.getElem_map, List.getElem_range', Nat.one_mul]
    exact label_expand_new hj'

theorem labels_expand {c : Configuration} {top : Nat} {below : List Nat} {right : List Symbol}
    (h : ∀ i ∈ below, i < c.nodes.size) :
    (c.expand top below right).labels = right ++ below.map c.label := by
  rw [labels, stack_expand, List.map_append, map_label_expand_new]
  exact congrArg _ (List.map_congr_left fun i hi => label_expand_old (h i hi))

namespace Stacked

variable {t : Table} {c d : Configuration}

theorem initial (input : List Symbol) {start : Symbol} (h : start ∉ t.terminals) :
    Stacked t (.initial input start) := by
  refine ⟨?_, fun _ => ⟨rfl, h⟩⟩
  intro i hi
  rw [List.mem_singleton.1 hi]
  exact Nat.zero_lt_one

theorem below_in_range {top : Nat} {below : List Nat} (h : Stacked t c)
    (hs : c.stack = top :: below) : ∀ i ∈ below, i < c.nodes.size := fun i hi =>
  h.in_range i (mem_stack_of_below hs i hi)

theorem expand {top : Nat} {below : List Nat} {right : List Symbol} (h : Stacked t c)
    (hs : c.stack = top :: below) : Stacked t (c.expand top below right) := by
  have hpos : 0 < c.nodes.size := Nat.lt_of_le_of_lt (Nat.zero_le _) (h.in_range top (top_mem_stack hs))
  refine ⟨?_, ?_⟩
  · intro i hi
    rw [stack_expand, List.mem_append, List.mem_range'_1] at hi
    rw [size_expand]
    rcases hi with hi | hi
    · split
      · next e =>
        subst e
        simp at hi
        omega
      · omega
    · have := h.below_in_range hs i hi
      omega
  · intro h0
    rw [stack_expand, List.mem_append, List.mem_range'_1] at h0
    rcases h0 with h0 | h0
    · omega
    · have := (h.root_alone (by simp [hs, h0])).1
      rw [hs] at this
      simp only [List.cons.injEq] at this
      exact absurd h0 (by simp [this.2])

theorem advance {top : Nat} {below : List Nat} {rest : List Symbol} (h : Stacked t c)
    (hs : c.stack = top :: below) : Stacked t (c.advance below rest) := by
  refine ⟨h.below_in_range hs, fun h0 => ?_⟩
  have hb : 0 ∈ below := h0
  have := (h.root_alone (by simp [hs, hb])).1
  rw [hs] at this
  simp only [List.cons.injEq] at this
  exact absurd hb (by simp [this.2])

theorem matches_iff {top : Nat} {below : List Nat} (h : Stacked t c)
    (hs : c.stack = top :: below) :
    (top ≠ 0 ∧ c.label top ∈ t.terminals) ↔ c.label top ∈ t.terminals := by
  refine ⟨fun h => h.2, fun ht => ⟨?_, ht⟩⟩
  intro h0
  subst h0
  exact (h.root_alone (by simp [hs])).2 ht

theorem forward_of_next (h : Stacked t c) (hd : t.step c = .next d) :
    t.forward? (c.labels, c.rest) = some (d.labels, d.rest) ∧ Stacked t d := by
  obtain ⟨top, below, current, rest, hs, hr, hcases⟩ := Table.step_next_cases hd
  have hlabels : c.labels = c.label top :: below.map c.label := by simp [labels, hs]
  rw [h.matches_iff hs] at hcases
  rw [hlabels, hr, Table.forward?]
  rcases hcases with ⟨ht, he, rfl⟩ | ⟨ht, right, hg, rfl⟩
  · rw [if_pos ht, if_pos he]
    exact ⟨rfl, h.advance hs⟩
  · rw [if_neg ht, hg, Option.map_some, labels_expand (h.below_in_range hs), ← hr]
    exact ⟨rfl, h.expand hs⟩

theorem forward_of_done {outcome : Except Rejection ParseTree} (h : Stacked t c)
    (hd : t.step c = .done outcome) : t.forward? (c.labels, c.rest) = none := by
  rcases Table.step_done_cases hd with ⟨top, below, current, rest, hs, hr, hcases⟩ | ⟨hend, -⟩
  · have hlabels : c.labels = c.label top :: below.map c.label := by simp [labels, hs]
    rw [h.matches_iff hs] at hcases
    rw [hlabels, hr, Table.forward?]
    rcases hcases with ⟨ht, he, -⟩ | ⟨ht, hg, -⟩
    · rw [if_pos ht, if_neg he]
    · rw [if_neg ht, hg, Option.map_none]
  · rcases hend with hs | hr
    · rw [labels, hs]
      rfl
    · rw [hr]
      cases c.labels <;> rfl

theorem isSome_run (h : Stacked t c) (n : Nat) :
    (t.run n c).isSome = t.haltsWithin n (c.labels, c.rest) := by
  induction n generalizing c with
  | zero => rfl
  | succ n ih =>
    simp only [Table.run, Table.haltsWithin]
    cases hd : t.step c with
    | next d =>
      obtain ⟨hf, hs⟩ := h.forward_of_next hd
      rw [hf]
      exact ih hs
    | done outcome =>
      rw [h.forward_of_done hd]
      rfl

end Stacked

end Configuration

end PredictiveParsing
