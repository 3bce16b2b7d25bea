import PredictiveParsing.Proofs.Arena
import PredictiveParsing.Proofs.Dependence

/-!
# The account of a run

The log tells the rounds of a run and then the reason, if the input is rejected. What the machine
meets while it reads some symbols off the stack are the nodes of the trees that it builds, in
preorder (`Parses.exists_visits`), although the nodes are made from left to right and a stack gives
back last what it was given first. So the log of a run that accepts is a walk around the tree. On
every run the position moves on just behind a terminal that has been matched
(`position_of_consecutive`), and a refused symbol is what the last round met
(`getLast?_rounds_of_refused`). `Accounts` puts this together.
-/
namespace PredictiveParsing

namespace ParseTree

mutual

/-- The labels of the nodes in preorder, each with the place at which its own leaves begin. Leaves
for the empty string are left out. -/
def visits (p : Nat) : ParseTree → List (Symbol × Nat)
  | node x [] => if x = epsilon then [] else [(x, p)]
  | node x (t :: ts) => (x, p) :: (visits p t ++ forestVisits (p + t.leaves.length) ts)

def forestVisits (p : Nat) : List ParseTree → List (Symbol × Nat)
  | [] => []
  | t :: ts => visits p t ++ forestVisits (p + t.leaves.length) ts

end

theorem visits_leaf {p : Nat} {x : Symbol} (h : x ≠ epsilon) : (leaf x).visits p = [(x, p)] := by
  rw [leaf, visits, if_neg h]

theorem visits_branch {p : Nat} {x : Symbol} {ts : List ParseTree} :
    (branch x ts).visits p = (x, p) :: forestVisits p ts := by
  cases ts with
  | nil => simp [branch, leaf, visits, forestVisits]
  | cons t ts => rw [branch_of_ne_nil (List.cons_ne_nil t ts), visits, forestVisits]

end ParseTree

def Round.visit (r : Round) : Symbol × Nat := (r.symbol, r.position)

open ParseTree
open PredictiveParsing.Configuration (Stacked)

namespace Table

variable {t : Table} {c d : Configuration} {n : Nat} {input : List Symbol} {start : Symbol}
  {outcome : Except Rejection ParseTree} {r s : Round}

/-! ## One round after the other -/

theorem rounds_of_next (h : t.step c = .next d) :
    ∃ r, c.round? = some r ∧ ∀ n, t.rounds (n + 1) c = r :: t.rounds n d := by
  obtain ⟨top, below, current, rest, hs, hr, -⟩ := step_next_cases h
  have hround : c.round? = some ⟨c.label top, current, c.position⟩ := by
    simp only [Configuration.round?, hs, hr]
  refine ⟨_, hround, fun n => ?_⟩
  rw [rounds, hround, h]
  rfl

theorem rounds_of_done (h : t.step c = .done outcome) (n : Nat) :
    t.rounds (n + 1) c = c.round?.toList := by
  simp only [rounds, h, List.append_nil]

theorem rounds_of_stack_nil (h : c.stack = []) (n : Nat) : t.rounds n c = [] := by
  cases n with
  | zero => rfl
  | succ n =>
    rw [rounds_of_done (step_end (.inl h)), Configuration.round?, h]
    rfl

theorem head?_rounds (h : (t.rounds n c).head? = some r) : c.round? = some r := by
  cases n with
  | zero => cases h
  | succ n =>
    cases hd : t.step c with
    | next d =>
      obtain ⟨q, hq, hrounds⟩ := rounds_of_next hd
      rw [hrounds] at h
      rw [hq, ← h]
      rfl
    | done o =>
      rw [rounds_of_done hd] at h
      cases hc : c.round? with
      | none => rw [hc] at h; cases h
      | some q => rw [hc] at h; exact h

theorem position_of_next (h : t.step c = .next d) (hr : c.round? = some r) (hc : Stacked t c) :
    d.position =
      if r.symbol ∈ t.terminals ∧ r.symbol = r.current then r.position + 1 else r.position := by
  obtain ⟨top, below, current, rest, hs, hrest, hcases⟩ := step_next_cases h
  simp only [Configuration.round?, hs, hrest, Option.some.injEq] at hr
  subst hr
  rw [hc.matches_iff hs] at hcases
  rcases hcases with ⟨ht, hl, rfl⟩ | ⟨ht, right, -, rfl⟩
  · rw [if_pos ⟨ht, hl⟩]
    rfl
  · rw [if_neg fun h => ht h.1]
    rfl

theorem position_of_consecutive (hc : Stacked t c) {i : Nat} (hr : (t.rounds n c)[i]? = some r)
    (hs : (t.rounds n c)[i + 1]? = some s) : s.position =
      if r.symbol ∈ t.terminals ∧ r.symbol = r.current then r.position + 1 else r.position := by
  induction n generalizing c i with
  | zero => cases hr
  | succ n ih =>
    cases hd : t.step c with
    | next d =>
      obtain ⟨q, hq, hrounds⟩ := rounds_of_next hd
      rw [hrounds, List.getElem?_cons_succ] at hs
      rw [hrounds] at hr
      cases i with
      | zero =>
        obtain rfl := Option.some.inj hr
        rw [← List.head?_eq_getElem?] at hs
        rw [position_of_round? (head?_rounds hs)]
        exact position_of_next hd hq hc
      | succ i => exact ih (hc.forward_of_next hd).2 hr hs
    | done o =>
      rw [rounds_of_done hd, List.getElem?_eq_none] at hs
      · cases hs
      · cases c.round? <;> simp

theorem current_of_round? (h : input.drop c.position = c.rest) (hr : c.round? = some r) :
    input[r.position]? = some r.current := by
  unfold Configuration.round? at hr
  split at hr
  · next hrest =>
    cases hr
    rw [← List.head?_drop, h, hrest, List.head?_cons]
  · cases hr

theorem drop_position_of_next (h : input.drop c.position = c.rest) (hd : t.step c = .next d) :
    input.drop d.position = d.rest := by
  obtain ⟨top, below, current, rest, -, hr, hcases⟩ := step_next_cases hd
  rcases hcases with ⟨-, -, rfl⟩ | ⟨-, right, -, rfl⟩
  · change input.drop (c.position + 1) = rest
    rw [← List.drop_drop, h, hr]
    rfl
  · exact h

theorem current_of_mem_rounds (h : input.drop c.position = c.rest) (hr : r ∈ t.rounds n c) :
    input[r.position]? = some r.current := by
  induction n generalizing c with
  | zero => exact absurd hr List.not_mem_nil
  | succ n ih =>
    cases hd : t.step c with
    | next d =>
      obtain ⟨q, hq, hrounds⟩ := rounds_of_next hd
      rw [hrounds] at hr
      rcases List.mem_cons.1 hr with rfl | hr
      · exact current_of_round? h hq
      · exact ih (drop_position_of_next h hd) hr
    | done o =>
      rw [rounds_of_done hd] at hr
      exact current_of_round? h (Option.mem_toList.1 hr)

def refused? : Rejection → Option Round
  | .mismatch expected found position => some ⟨expected, found, position⟩
  | .noPrediction symbol current position => some ⟨symbol, current, position⟩
  | _ => none

theorem round?_of_refused {reason : Rejection} (h : t.step c = .done (.error reason))
    (hr : refused? reason = some r) : c.round? = some r := by
  rcases step_done_cases h with ⟨top, below, current, rest, hs, hrest, hcases⟩ | ⟨-, hend⟩
  · rw [Configuration.round?, hs, hrest]
    rcases hcases with ⟨-, -, e⟩ | ⟨-, -, e⟩
    · cases e
      exact hr
    · cases e
      exact hr
  · unfold Configuration.outcome at hend
    split at hend
    · cases hend
    · cases hend
      cases hr

theorem getLast?_rounds_of_refused {reason : Rejection} (h : t.run n c = some (.error reason))
    (hr : refused? reason = some r) : (t.rounds n c).getLast? = some r := by
  induction n generalizing c with
  | zero => cases h
  | succ n ih =>
    simp only [run] at h
    cases hd : t.step c with
    | next d =>
      rw [hd] at h
      obtain ⟨q, -, hrounds⟩ := rounds_of_next hd
      rw [hrounds, List.getLast?_cons, ih h, Option.getD_some]
    | done o =>
      rw [hd] at h
      cases h
      rw [rounds_of_done hd, round?_of_refused hd hr]
      rfl

theorem Reaches.root_notMem_of_next (h : t.Reaches (.initial input start) c)
    (hs : t.step c = .next d) : 0 ∉ d.stack := by
  have hpos : 0 < c.nodes.size := (h.label Nat.zero_lt_one).1
  refine Configuration.notMem_stack_next hs hpos ?_
  clear hs
  induction h with
  | refl => exact List.not_mem_nil
  | tail h hs ih =>
    have hearlier := (Reaches.label h Nat.zero_lt_one).1
    exact mt List.mem_of_mem_tail (Configuration.notMem_stack_next hs hearlier (ih hearlier))

theorem Reaches.eq_initial (h : t.Reaches (.initial input start) c)
    (htop : c.stack.head? = some 0) : c = .initial input start := by
  rcases h.cases_tail with rfl | ⟨b, hb, hs⟩
  · rfl
  · exact absurd (List.mem_of_head? htop) (Reaches.root_notMem_of_next hb hs)

/-! ## Around the tree -/

theorem map_visit_of_next (h : t.step c = .next d) {x : Symbol} {α : List Symbol}
    (hlabels : c.labels = x :: α) (n : Nat) : (t.rounds (n + 1) c).map Round.visit =
      (x, c.position) :: (t.rounds n d).map Round.visit := by
  obtain ⟨top, below, current, rest, hs, hrest, -⟩ := step_next_cases h
  obtain ⟨r, hr, hrounds⟩ := rounds_of_next h
  rw [Configuration.labels, hs, List.map_cons, List.cons.injEq] at hlabels
  simp only [Configuration.round?, hs, hrest, Option.some.injEq] at hr
  rw [hrounds, List.map_cons, ← hr, ← hlabels.1]
  rfl

/-- While some symbols are read off the stack, the machine meets the nodes of their trees. -/
theorem Parses.exists_visits (ht : t.Sound) {α β s rest : List Symbol} {ts : List ParseTree}
    (h : t.Parses α s ts rest) (hc : Stacked t c) (hlabels : c.labels = α ++ β)
    (hrest : c.rest = s) : ∃ m d, Stacked t d ∧ d.labels = β ∧ d.rest = rest ∧
      d.position = c.position + (forestLeaves ts).length ∧
      ∀ n, (t.rounds (m + n) c).map Round.visit =
        forestVisits c.position ts ++ (t.rounds n d).map Round.visit := by
  induction h generalizing c β with
  | nil => exact ⟨0, c, hc, hlabels, hrest, rfl, fun n => by rw [Nat.zero_add]; rfl⟩
  | @terminal x α s rest ts hx _ ih =>
    obtain ⟨top, below, hs, rfl, hbelow⟩ := List.map_eq_cons_iff.1 hlabels
    have hstep := step_advance hs hrest ((hc.matches_iff hs).2 hx) rfl
    have hleaf := leaves_leaf (ht.ne_epsilon (.inl hx))
    obtain ⟨m, d, hd, hβ, hread, hposition, hvisits⟩ :=
      ih (hc.forward_of_next hstep).2 hbelow rfl
    refine ⟨m + 1, d, hd, hβ, hread, ?_, fun n => ?_⟩
    · rw [hposition, forestLeaves_cons, hleaf, List.length_append, ← Nat.add_assoc]
      rfl
    · rw [Nat.add_right_comm, map_visit_of_next hstep hlabels, hvisits, forestVisits,
        visits_leaf (ht.ne_epsilon (.inl hx)), hleaf]
      rfl
  | @expand x current right α s mid rest us ts hcell hright _ ihr ih =>
    obtain ⟨top, below, hs, rfl, hbelow⟩ := List.map_eq_cons_iff.1 hlabels
    have hnot := mt (hc.matches_iff hs).1 (ht.not_mem_terminals hcell)
    have hstep := step_expand hs hrest hnot hcell
    have hexpanded : (c.expand top below right).labels = right ++ (α ++ β) := by
      rw [Configuration.labels_expand (hc.below_in_range hs), hbelow]
      rfl
    obtain ⟨k, e, he, hα, hmid, hpositione, hvisitse⟩ :=
      ihr (hc.forward_of_next hstep).2 hexpanded hrest
    obtain ⟨m, d, hd, hβ, hread, hposition, hvisits⟩ := ih he hα hmid
    refine ⟨k + m + 1, d, hd, hβ, hread, ?_, fun n => ?_⟩
    · rw [hposition, hpositione, forestLeaves_cons, leaves_branch, List.length_append,
        ← Nat.add_assoc]
      rfl
    · rw [Nat.add_right_comm, map_visit_of_next hstep hlabels, Nat.add_assoc, hvisitse, hvisits,
        hpositione, forestVisits, visits_branch, leaves_branch]
      simp only [List.cons_append, List.append_assoc]
      rfl

theorem visits_of_run (ht : t.Reachable) {tree : ParseTree}
    (h : t.run n (.initial input start) = some (.ok tree)) :
    (t.rounds n (.initial input start)).map Round.visit = tree.visits 0 := by
  obtain ⟨hstart, hread⟩ :=
    (predictiveTree_iff_parses ht.sound).1 (ht.run_accepts_iff.1 ⟨n, h⟩)
  obtain ⟨m, d, -, hlabels, -, -, hvisits⟩ := hread.exists_visits (β := []) ht.sound
    (Stacked.initial input hstart) rfl rfl
  have hstack : d.stack = [] := List.map_eq_nil_iff.1 hlabels
  rw [← rounds_eq_of_le (Nat.le_add_left n m) h, hvisits, rounds_of_stack_nil hstack]
  simp [forestVisits, Configuration.initial]

/-! ## The log -/

structure Accounts (t : Table) (input : List Symbol) (start : Symbol)
    (outcome : Except Rejection ParseTree) (rounds : List Round) : Prop where
  log_eq : t.log input start =
    rounds.map .round ++ (Rejection.ofOutcome? outcome).toList.map .rejection
  levels : (t.log input start).map Event.level =
    List.replicate rounds.length .trace ++
      (Rejection.ofOutcome? outcome).toList.map fun _ => .debug
  tree_visits : ∀ tree, outcome = .ok tree →
    rounds.map some = (tree.visits 0).map fun v => input[v.2]?.map fun s => ⟨v.1, s, v.2⟩
  current : ∀ r ∈ rounds, input[r.position]? = some r.current
  first : ∀ r, rounds.head? = some r → r.symbol = start ∧ r.position = 0
  -- so `0 < i` below says that the top is another node than the start node
  start_first : ∀ c, t.Reaches (.initial input start) c → c.stack.head? = some 0 →
    c = .initial input start
  moves : ∀ i r s, rounds[i]? = some r → rounds[i + 1]? = some s → s.position =
    if 0 < i ∧ r.symbol ∈ t.terminals ∧ r.symbol = r.current then r.position + 1 else r.position
  last : ∀ reason r, outcome = .error reason → refused? reason = some r →
    rounds.getLast? = some r

theorem round?_initial (h : (Configuration.initial input start).round? = some r) :
    r.symbol = start ∧ r.position = 0 := by
  unfold Configuration.round? at h
  split at h
  · next hs _ =>
    cases hs
    cases h
    exact ⟨rfl, rfl⟩
  · cases h

theorem Sound.position_of_consecutive (ht : t.Sound) {i : Nat}
    (hr : (t.rounds n (.initial input start))[i]? = some r)
    (hs : (t.rounds n (.initial input start))[i + 1]? = some s) : s.position =
      if 0 < i ∧ r.symbol ∈ t.terminals ∧ r.symbol = r.current then r.position + 1
      else r.position := by
  by_cases hstart : start ∈ t.terminals
  · -- there is no second round
    exfalso
    obtain ⟨o, ho⟩ := step_of_terminal_start ht input hstart
    cases n with
    | zero => cases hr
    | succ n =>
      rw [rounds_of_done ho, List.getElem?_eq_none] at hs
      · cases hs
      · cases (Configuration.initial input start).round? <;> simp
  · rw [Table.position_of_consecutive (Stacked.initial input hstart) hr hs]
    cases i with
    | zero =>
      rw [← List.head?_eq_getElem?] at hr
      have hsymbol := (round?_initial (head?_rounds hr)).1
      rw [if_neg fun h => hstart (hsymbol ▸ h.1), if_neg fun h => absurd h.1 (Nat.lt_irrefl 0)]
    | succ i => simp only [Nat.zero_lt_succ, true_and]

theorem log_accounts_for_run (ht : t.Reachable)
    (h : t.run n (.initial input start) = some outcome) :
    t.recognize input start = outcome ∧ ∃ rounds, t.Accounts input start outcome rounds := by
  have hlog : t.log input start = (t.rounds n (.initial input start)).map .round ++
      (Rejection.ofOutcome? outcome).toList.map .rejection := by
    rw [ht.log_of_run h, logWithin, h]
    cases outcome <;> rfl
  have hcurrent : ∀ r ∈ t.rounds n (.initial input start), input[r.position]? = some r.current :=
    fun r hr => current_of_mem_rounds rfl hr
  refine ⟨ht.recognize_of_run h, t.rounds n (.initial input start), hlog, ?_, ?_, hcurrent, ?_,
    fun c hc htop => hc.eq_initial htop, fun i r s hr hs => ht.sound.position_of_consecutive hr hs,
    ?_⟩
  · rw [hlog, List.map_append, List.map_map, List.map_map, ← List.map_const']
    rfl
  · rintro tree rfl
    rw [← visits_of_run ht h, List.map_map]
    refine List.map_congr_left fun r hr => ?_
    simp [Round.visit, hcurrent r hr]
  · exact fun r hr => round?_initial (head?_rounds hr)
  · rintro reason r rfl hr
    exact getLast?_rounds_of_refused h hr

/-- A run with no round for the leaf of an empty right side, and a run that is refused behind a
terminal that was matched. -/
theorem closing_log_accounts :
    closing.run 5 (.initial ['a', '$', '$'] 'S') =
        some (.ok (branch 'S' [leaf 'a', branch 'X' [], leaf '$'])) ∧
      closing.log ['a', '$', '$'] 'S' =
        [⟨'S', 'a', 0⟩, ⟨'a', 'a', 0⟩, ⟨'X', '$', 1⟩, ⟨'$', '$', 1⟩].map .round ∧
      closing.run 3 (.initial ['a', 'a'] 'S') = some (.error (.noPrediction 'X' 'a' 1)) ∧
      ∃ rounds : List Round, closing.log ['a', 'a'] 'S' =
          rounds.map .round ++ [.rejection (.noPrediction 'X' 'a' 1)] ∧
        rounds.getLast? = some ⟨'X', 'a', 1⟩ := by
  have haccepted : closing.run 5 (.initial ['a', '$', '$'] 'S') =
      some (.ok (branch 'S' [leaf 'a', branch 'X' [], leaf '$'])) := rfl
  have hrefused : closing.run 3 (.initial ['a', 'a'] 'S') =
      some (.error (.noPrediction 'X' 'a' 1)) := rfl
  obtain ⟨-, rounds, h⟩ := log_accounts_for_run closing_reachable haccepted
  obtain ⟨-, rounds', h'⟩ := log_accounts_for_run closing_reachable hrefused
  have hvisits : rounds.map some =
      [⟨'S', 'a', 0⟩, ⟨'a', 'a', 0⟩, ⟨'X', '$', 1⟩, ⟨'$', '$', 1⟩].map some :=
    h.tree_visits _ rfl
  have hrounds := (List.map_inj_right fun _ _ => Option.some.inj).1 hvisits
  refine ⟨haccepted, ?_, hrefused, rounds', h'.log_eq, h'.last _ _ rfl rfl⟩
  rw [h.log_eq, hrounds]
  rfl

end Table

end PredictiveParsing
