import PredictiveParsing.Event
import PredictiveParsing.Proofs.Monotonicity

/-!
# What a run depends on

A round looks at the symbol on top of the stack, at the next symbol of the input, and at the cell
for these two. So two runs stay together for as long as the input is the same
(`looks_one_symbol_ahead`), and filling a vacant cell changes no run but those that asked for it
(`addCell_keeps_outcome`).
-/
namespace PredictiveParsing

open ParseTree (branch)

namespace Table

variable {t u : Table} {c c' d : Configuration} {k m n N : Nat} {input input' : List Symbol}
  {start : Symbol} {outcome outcome' : Except Rejection ParseTree} {reason : Rejection}

/-! ## The rounds of a run -/

theorem Reachable.log_of_run (ht : t.Reachable)
    (h : t.run n (.initial input start) = some outcome) :
    t.log input start = t.logWithin n input start := by
  have hlimit := ht.run_roundLimit h
  rw [log, logWithin, logWithin, hlimit, h, rounds_eq_of_run hlimit h]

theorem position?_of_outcome (h : c.outcome = .error reason) : reason.position? = none := by
  unfold Configuration.outcome at h
  split at h
  · cases h
  · cases h
    rfl

theorem position_le_of_next (hd : t.step c = .next d) : c.position ≤ d.position := by
  obtain ⟨top, below, current, rest, -, -, hcases⟩ := step_next_cases hd
  rcases hcases with ⟨-, -, rfl⟩ | ⟨-, right, -, rfl⟩
  · exact Nat.le_succ c.position
  · exact Nat.le_refl c.position

theorem position_of_round? {r : Round} (h : c.round? = some r) : r.position = c.position := by
  unfold Configuration.round? at h
  split at h
  · cases h
    rfl
  · cases h

theorem position_le_of_mem_rounds {r : Round} (h : r ∈ t.rounds n c) :
    c.position ≤ r.position := by
  induction n generalizing c with
  | zero => exact absurd h List.not_mem_nil
  | succ n ih =>
    simp only [rounds] at h
    rcases List.mem_append.1 h with hr | hr
    · exact Nat.le_of_eq (position_of_round? (Option.mem_toList.1 hr)).symm
    · cases hd : t.step c with
      | next d =>
        rw [hd] at hr
        exact Nat.le_trans (position_le_of_next hd) (ih hr)
      | done o =>
        rw [hd] at hr
        exact absurd hr List.not_mem_nil

theorem rounds_before_eq_nil (h : k ≤ c.position) :
    (t.rounds n c).filter (·.position < k) = [] := by
  refine List.filter_eq_nil_iff.2 fun r hr hlt => ?_
  have hle : k ≤ r.position := Nat.le_trans h (position_le_of_mem_rounds hr)
  exact absurd (of_decide_eq_true hlt) (Nat.not_lt_of_le hle)

theorem position_le_of_refused (h : t.run n c = some (.error reason))
    (hN : reason.position? = some N) : c.position ≤ N := by
  induction n generalizing c with
  | zero => cases h
  | succ n ih =>
    simp only [run] at h
    cases hd : t.step c with
    | next d =>
      rw [hd] at h
      exact Nat.le_trans (position_le_of_next hd) (ih h)
    | done o =>
      rw [hd] at h
      cases h
      rcases step_done_cases hd with ⟨top, below, current, rest, -, -, hcases⟩ | ⟨-, hend⟩
      · rcases hcases with ⟨-, -, e⟩ | ⟨-, -, e⟩
        · cases e
          exact Nat.le_of_eq (Option.some.inj hN)
        · cases e
          exact Nat.le_of_eq (Option.some.inj hN)
      · rw [position?_of_outcome hend.symm] at hN
        cases hN

end Table

/-! ## The next symbol of the input -/

namespace Configuration

/-- The same state but for what the input holds from the given position on. -/
structure Agree (k : Nat) (c d : Configuration) : Prop where
  nodes : c.nodes = d.nodes
  stack : c.stack = d.stack
  position : c.position = d.position
  rest : c.rest.take (k - c.position) = d.rest.take (k - c.position)

namespace Agree

variable {t : Table} {c c' d : Configuration} {k n N : Nat} {input input' rest : List Symbol}
  {start current : Symbol} {outcome : Except Rejection ParseTree} {reason : Rejection}

theorem initial (h : input.take k = input'.take k) (start : Symbol) :
    Agree k (.initial input start) (.initial input' start) := ⟨rfl, rfl, rfl, h⟩

theorem label (h : Agree k c d) (i : Nat) : c.label i = d.label i := by
  unfold Configuration.label
  rw [h.nodes]

theorem rest_nil (h : Agree k c d) (hk : c.position < k) (hr : c.rest = []) : d.rest = [] := by
  have hrest := h.rest
  rw [hr, List.take_nil, eq_comm, List.take_eq_nil_iff] at hrest
  exact hrest.resolve_left (by omega)

theorem exists_rest (h : Agree k c d) (hk : c.position < k) (hr : c.rest = current :: rest) :
    ∃ rest', d.rest = current :: rest' ∧
      rest.take (k - (c.position + 1)) = rest'.take (k - (c.position + 1)) := by
  have hrest := h.rest
  obtain ⟨j, hj⟩ : ∃ j, k - c.position = j + 1 := ⟨k - (c.position + 1), by omega⟩
  rw [hr, hj, List.take_succ_cons] at hrest
  cases hd : d.rest with
  | nil =>
    rw [hd] at hrest
    cases hrest
  | cons current' rest' =>
    rw [hd, List.take_succ_cons] at hrest
    obtain ⟨rfl, htake⟩ := List.cons.inj hrest
    obtain rfl : j = k - (c.position + 1) := by omega
    exact ⟨rest', rfl, htake⟩

theorem advance (h : Agree k c d) (below : List Nat) {rest' : List Symbol}
    (hrest : rest.take (k - (c.position + 1)) = rest'.take (k - (c.position + 1))) :
    Agree k (c.advance below rest) (d.advance below rest') :=
  ⟨h.nodes, rfl, congrArg (· + 1) h.position, hrest⟩

theorem expand (h : Agree k c d) (top : Nat) (below : List Nat) (right : List Symbol) :
    Agree k (c.expand top below right) (d.expand top below right) := by
  obtain ⟨nodes, stack, position, rest⟩ := c
  obtain ⟨rfl, rfl, rfl, hrest⟩ := h
  exact ⟨rfl, rfl, rfl, hrest⟩

theorem round?_eq (h : Agree k c d) (hk : c.position < k) : c.round? = d.round? := by
  unfold round?
  rw [← h.stack]
  cases c.stack with
  | nil => rfl
  | cons top below =>
    cases hr : c.rest with
    | nil => rw [h.rest_nil hk hr]
    | cons current rest =>
      obtain ⟨rest', hr', -⟩ := h.exists_rest hk hr
      rw [hr']
      simp only [h.label, h.position]

theorem step_next (h : Agree k c c') (hk : c.position < k) (hd : t.step c = .next d) :
    ∃ d', t.step c' = .next d' ∧ Agree k d d' := by
  obtain ⟨top, below, current, rest, hs, hr, hcases⟩ := Table.step_next_cases hd
  obtain ⟨rest', hr', hrest⟩ := h.exists_rest hk hr
  rw [h.stack] at hs
  rw [h.label] at hcases
  rcases hcases with ⟨ht, hl, rfl⟩ | ⟨ht, right, hcell, rfl⟩
  · exact ⟨_, Table.step_advance hs hr' ht hl, h.advance below hrest⟩
  · exact ⟨_, Table.step_expand hs hr' ht hcell, h.expand top below right⟩

theorem step_done (h : Agree k c c') (hk : c.position < k) (hd : t.step c = .done outcome) :
    ∃ outcome', t.step c' = .done outcome' ∧
      ∀ reason N, outcome = .error reason → reason.position? = some N → outcome' = outcome := by
  rcases Table.step_done_cases hd with ⟨top, below, current, rest, hs, hr, hcases⟩ | ⟨hend, rfl⟩
  · obtain ⟨rest', hr', -⟩ := h.exists_rest hk hr
    rw [h.stack] at hs
    rw [h.label, h.position] at hcases
    rcases hcases with ⟨ht, hl, rfl⟩ | ⟨ht, hcell, rfl⟩
    · exact ⟨_, Table.step_mismatch hs hr' ht hl, fun _ _ _ _ => rfl⟩
    · exact ⟨_, Table.step_noPrediction hs hr' ht hcell, fun _ _ _ _ => rfl⟩
  · have hend' : c'.stack = [] ∨ c'.rest = [] := hend.imp h.stack.symm.trans (h.rest_nil hk)
    refine ⟨_, Table.step_end hend', fun reason N he hN => ?_⟩
    rw [Table.position?_of_outcome he] at hN
    cases hN

/-- From position `k` on the runs may part, and no round of either is before it again. -/
theorem rounds_before (h : Agree k c c') (n : Nat) :
    (t.rounds n c).filter (·.position < k) = (t.rounds n c').filter (·.position < k) := by
  induction n generalizing c c' with
  | zero => rfl
  | succ n ih =>
    by_cases hk : c.position < k
    · simp only [Table.rounds, List.filter_append, h.round?_eq hk]
      cases hd : t.step c with
      | next d =>
        obtain ⟨d', hd', hagree⟩ := h.step_next hk hd
        rw [hd']
        simp only [ih hagree]
      | done o =>
        obtain ⟨o', ho', -⟩ := h.step_done hk hd
        rw [ho']
    · have hk' : ¬ c'.position < k := h.position ▸ hk
      rw [Table.rounds_before_eq_nil (Nat.le_of_not_lt hk),
        Table.rounds_before_eq_nil (Nat.le_of_not_lt hk')]

theorem run_refused (h : Agree k c c') (hN : reason.position? = some N) (hk : N < k)
    (hrun : t.run n c = some (.error reason)) : t.run n c' = some (.error reason) := by
  induction n generalizing c c' with
  | zero => cases hrun
  | succ n ih =>
    have hbefore : c.position < k :=
      Nat.lt_of_le_of_lt (Table.position_le_of_refused hrun hN) hk
    simp only [Table.run] at hrun ⊢
    cases hd : t.step c with
    | next d =>
      rw [hd] at hrun
      obtain ⟨d', hd', hagree⟩ := h.step_next hbefore hd
      rw [hd']
      exact ih hagree hrun
    | done o =>
      rw [hd] at hrun
      obtain ⟨o', ho', hsame⟩ := h.step_done hbefore hd
      rw [ho', hsame reason N (Option.some.inj hrun) hN]
      exact hrun

end Agree

end Configuration

namespace Table

variable {t u : Table} {c : Configuration} {cell : Cell} {k m n N : Nat}
  {input input' : List Symbol} {start : Symbol} {outcome : Except Rejection ParseTree}
  {reason : Rejection}

theorem Reachable.recognize_refused (ht : t.Reachable) (hagree : input.take k = input'.take k)
    (hN : reason.position? = some N) (hk : N < k) (h : t.recognize input start = .error reason) :
    t.recognize input' start = .error reason := by
  have hends : Except.error reason ≠ (.error .unending : Except Rejection ParseTree) := by
    intro e
    cases e
    cases hN
  obtain ⟨n, hn⟩ := exists_run_of_recognize h hends
  exact ht.recognize_of_run ((Configuration.Agree.initial hagree start).run_refused hN hk hn)

theorem looks_one_symbol_ahead (ht : t.Reachable) (hagree : input.take k = input'.take k) :
    (∀ m n outcome outcome', t.run m (.initial input start) = some outcome →
      t.run n (.initial input' start) = some outcome' →
      (t.rounds m (.initial input start)).filter (·.position < k) =
        (t.rounds n (.initial input' start)).filter (·.position < k)) ∧
    ∀ reason N, reason.position? = some N → N < k →
      (t.recognize input start = .error reason ↔ t.recognize input' start = .error reason) := by
  constructor
  · intro m n outcome outcome' hm hn
    have hlonger := run_mono (Nat.le_max_left m n) hm
    have hlonger' := run_mono (Nat.le_max_right m n) hn
    rw [rounds_eq_of_run hm hlonger, rounds_eq_of_run hn hlonger']
    exact (Configuration.Agree.initial hagree start).rounds_before (max m n)
  · intro reason N hN hk
    exact ⟨ht.recognize_refused hagree hN hk, ht.recognize_refused hagree.symm hN hk⟩

/-- With `k = 2`: one input is accepted and one is not, and both are refused at position 1. -/
theorem closing_looks_one_symbol_ahead :
    ['a', '$', '$'].take 2 = ['a', '$', 'a'].take 2 ∧
      (closing.rounds 9 (.initial ['a', '$', '$'] 'S')).filter (·.position < 2) =
        (closing.rounds 7 (.initial ['a', '$', 'a'] 'S')).filter (·.position < 2) ∧
      closing.recognize ['a', 'a', '$'] 'S' = .error (.noPrediction 'X' 'a' 1) ∧
      closing.recognize ['a', 'a', 'X', 'a'] 'S' = .error (.noPrediction 'X' 'a' 1) := by
  have hsame : ['a', '$', '$'].take 2 = ['a', '$', 'a'].take 2 := rfl
  have hsame' : ['a', 'a', '$'].take 2 = ['a', 'a', 'X', 'a'].take 2 := rfl
  have hrefused : closing.recognize ['a', 'a', '$'] 'S' = .error (.noPrediction 'X' 'a' 1) := rfl
  obtain ⟨hrounds, -⟩ := looks_one_symbol_ahead closing_reachable hsame
  obtain ⟨-, hrefusals⟩ := looks_one_symbol_ahead closing_reachable hsame'
  exact ⟨hsame, hrounds 9 7 _ _ rfl rfl, hrefused, (hrefusals _ 1 rfl (by decide)).1 hrefused⟩

/-! ## The cells that are asked for -/

theorem get?_of_addCell (h : t.addCell cell = .ok u) {a s : Symbol} (hother : ¬ cell.HasKey a s) :
    u.get? a s = t.get? a s := by
  obtain ⟨-, -, rfl⟩ := addCell_eq_ok_iff.1 h
  exact CellMap.find?_insert.trans (if_neg hother)

theorem partOf_of_addCell (h : t.addCell cell = .ok u) : t.PartOf u := by
  obtain ⟨-, hvacant, hu⟩ := addCell_eq_ok_iff.1 h
  refine ⟨by rw [hu], fun a s r hr => ?_⟩
  rw [get?_of_addCell h, hr]
  rintro ⟨rfl, rfl⟩
  exact absurd (hvacant.symm.trans hr) nofun

theorem PartOf.step_next (h : t.PartOf u) {d : Configuration} (hd : t.step c = .next d) :
    u.step c = .next d := by
  obtain ⟨top, below, current, rest, hs, hr, hcases⟩ := step_next_cases hd
  rw [h.terminals] at hcases
  rcases hcases with ⟨ht, hl, rfl⟩ | ⟨ht, right, hcell, rfl⟩
  · exact step_advance hs hr ht hl
  · exact step_expand hs hr ht (h.cell _ _ _ hcell)

theorem PartOf.step_done (h : t.PartOf u) (hd : t.step c = .done outcome)
    (hcell : ∀ a s N, outcome = .error (.noPrediction a s N) → u.get? a s = t.get? a s) :
    u.step c = .done outcome := by
  rcases step_done_cases hd with ⟨top, below, current, rest, hs, hr, hcases⟩ | ⟨hend, rfl⟩
  · rw [h.terminals] at hcases
    rcases hcases with ⟨ht, hl, rfl⟩ | ⟨ht, hvacant, rfl⟩
    · exact step_mismatch hs hr ht hl
    · exact step_noPrediction hs hr ht ((hcell _ _ _ rfl).trans hvacant)
  · exact step_end hend

theorem PartOf.run (h : t.PartOf u) (hrun : t.run n c = some outcome)
    (hcell : ∀ a s N, outcome = .error (.noPrediction a s N) → u.get? a s = t.get? a s) :
    u.run n c = some outcome ∧ u.rounds n c = t.rounds n c := by
  induction n generalizing c with
  | zero => cases hrun
  | succ n ih =>
    simp only [Table.run, rounds] at hrun ⊢
    cases hd : t.step c with
    | next d =>
      rw [hd] at hrun
      obtain ⟨hlater, hrounds⟩ := ih hrun
      rw [h.step_next hd]
      exact ⟨hlater, by simp only [hrounds]⟩
    | done o =>
      rw [hd] at hrun
      cases hrun
      rw [h.step_done hd hcell]
      exact ⟨rfl, rfl⟩

theorem addCell_keeps_outcome (ht : t.Reachable) (hadd : t.addCell cell = .ok u)
    (hrun : t.run n (.initial input start) = some outcome)
    (hother : ∀ N, outcome ≠ .error (.noPrediction cell.nonTerminal cell.terminal N)) :
    t.recognize input start = outcome ∧ u.recognize input start = outcome ∧
      u.log input start = t.log input start := by
  have hcell : ∀ a s N, outcome = .error (.noPrediction a s N) → u.get? a s = t.get? a s := by
    intro a s N ho
    refine get?_of_addCell hadd ?_
    rintro ⟨rfl, rfl⟩
    exact hother N ho
  have hu : u.Reachable := .add ht hadd
  obtain ⟨hrun', hrounds⟩ := (partOf_of_addCell hadd).run hrun hcell
  refine ⟨ht.recognize_of_run hrun, hu.recognize_of_run hrun', ?_⟩
  rw [hu.log_of_run hrun', ht.log_of_run hrun, logWithin, logWithin, hrun', hrun, hrounds]

/-- Three runs that do not ask for the cell that is added: one accepts, one leaves some input over,
and one is refused at another cell. -/
theorem closing_addCell_keeps_outcome :
    ∃ u, closing.addCell ⟨'X', 'a', ['a']⟩ = .ok u ∧
      u.recognize ['a', '$', '$'] 'S' = .ok (branch 'S' [.leaf 'a', branch 'X' [], .leaf '$']) ∧
      u.log ['a', '$', 'a'] 'S' = closing.log ['a', '$', 'a'] 'S' ∧
      u.recognize ['$', 'a'] 'S' = .error (.noPrediction 'S' '$' 0) := by
  obtain ⟨u, hadd⟩ : ∃ u, closing.addCell ⟨'X', 'a', ['a']⟩ = .ok u := ⟨_, rfl⟩
  have haccept : closing.run 6 (.initial ['a', '$', '$'] 'S') =
      some (.ok (branch 'S' [.leaf 'a', branch 'X' [], .leaf '$'])) := rfl
  have hleft : closing.run 6 (.initial ['a', '$', 'a'] 'S') =
      some (.error (.leftOver ['a'])) := rfl
  have hrefused : closing.run 1 (.initial ['$', 'a'] 'S') =
      some (.error (.noPrediction 'S' '$' 0)) := rfl
  obtain ⟨-, htree, -⟩ := addCell_keeps_outcome closing_reachable hadd haccept nofun
  obtain ⟨-, -, hlog⟩ := addCell_keeps_outcome closing_reachable hadd hleft nofun
  obtain ⟨-, hsame, -⟩ := addCell_keeps_outcome closing_reachable hadd hrefused (by simp)
  exact ⟨u, hadd, htree, hlog, hsame⟩

end Table

end PredictiveParsing
