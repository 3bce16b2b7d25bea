import PredictiveParsing.Recognizer.Limit

/-!
# Walks of the stack machine

Facts about runs on the symbols of the stack and the rest of the input, for every table. A walk can
stop in one state only (`halt_unique`), it never looks behind the next symbol of the input
(`walk?_lookahead`), and the state it stops in tells how the run of the machine ends, as `verdict`
says (`Stacked.exists_walk_of_run`).
-/
namespace PredictiveParsing

def Rejection.ofOutcome? : Except Rejection ParseTree → Option Rejection
  | .ok _ => none
  | .error reason => some reason

def Rejection.position? : Rejection → Option Nat
  | .mismatch _ _ position => some position
  | .noPrediction _ _ position => some position
  | .leftOver _ => none
  | .unending => none

theorem Rejection.ofOutcome?_eq_none_iff {outcome : Except Rejection ParseTree} :
    ofOutcome? outcome = none ↔ ∃ tree, outcome = .ok tree := by
  cases outcome with
  | ok tree => exact iff_of_true rfl ⟨tree, rfl⟩
  | error reason => exact iff_of_false nofun nofun

theorem Rejection.ofOutcome?_eq_some_iff {outcome : Except Rejection ParseTree}
    {reason : Rejection} : ofOutcome? outcome = some reason ↔ outcome = .error reason := by
  cases outcome with
  | ok tree => exact iff_of_false nofun nofun
  | error r =>
    constructor
    · exact fun h => congrArg _ (Option.some.inj h)
    · exact fun h => congrArg _ (Except.error.inj h)

namespace Table

variable {t : Table}

/-- How a run ends that stops with these symbols on the stack and this rest of the input. -/
def verdict (t : Table) (position : Nat) : List Symbol × List Symbol → Option Rejection
  | (x :: _, current :: _) =>
    some (if x ∈ t.terminals then .mismatch x current position
      else .noPrediction x current position)
  | (_, rest) => if rest = [endMark] then none else some (.leftOver rest)

theorem verdict_eq_none_iff {p : Nat} {s : List Symbol × List Symbol} :
    t.verdict p s = none ↔ s = ([], [endMark]) := by
  obtain ⟨stack, rest⟩ := s
  cases stack with
  | nil => simp [verdict]
  | cons x stack => cases rest <;> simp [verdict]

theorem verdict_eq_some_cases {p : Nat} {s : List Symbol × List Symbol} {reason : Rejection}
    (h : t.verdict p s = some reason) :
    (∃ x stack current rest, s = (x :: stack, current :: rest) ∧ reason.position? = some p) ∨
      s.2 ≠ [endMark] ∧ reason = .leftOver s.2 ∧ (s.2 = [] ∨ s.1 = []) := by
  obtain ⟨stack, rest⟩ := s
  cases stack with
  | nil =>
    simp only [verdict] at h
    split at h
    · cases h
    · next hn => exact .inr ⟨hn, (Option.some.inj h).symm, .inr rfl⟩
  | cons x stack =>
    cases rest with
    | nil => exact .inr ⟨nofun, (Option.some.inj h).symm, .inl rfl⟩
    | cons current rest =>
      refine .inl ⟨x, stack, current, rest, rfl, ?_⟩
      simp only [verdict, Option.some.injEq] at h
      rw [← h]
      split <;> rfl

theorem forward?_cases {s s' : List Symbol × List Symbol} (h : t.forward? s = some s') :
    ∃ x stack current rest, s = (x :: stack, current :: rest) ∧
      (x ∈ t.terminals ∧ x = current ∧ s' = (stack, rest) ∨
        x ∉ t.terminals ∧ ∃ right, t.get? x current = some right ∧
          s' = (right ++ stack, current :: rest)) := by
  obtain ⟨stack, input⟩ := s
  cases stack with
  | nil => cases h
  | cons x stack =>
    cases input with
    | nil => cases h
    | cons current rest =>
      refine ⟨x, stack, current, rest, rfl, ?_⟩
      simp only [forward?] at h
      split at h
      · next hx =>
        split at h
        · next e => exact .inl ⟨hx, e, (Option.some.inj h).symm⟩
        · cases h
      · next hx =>
        obtain ⟨right, hr, e⟩ := Option.map_eq_some_iff.1 h
        exact .inr ⟨hx, right, hr, e.symm⟩

theorem walk?_match {x : Symbol} (hx : x ∈ t.terminals) (below rest : List Symbol) :
    t.walk? 1 (x :: below, x :: rest) = some (below, rest) := by
  simp [walk?, forward?, hx]

theorem walk?_succ_cases {m : Nat} {s s' : List Symbol × List Symbol}
    (h : t.walk? (m + 1) s = some s') : ∃ v, t.forward? s = some v ∧ t.walk? m v = some s' :=
  Option.bind_eq_some_iff.1 h

theorem walk?_suffix {m : Nat} {s s' : List Symbol × List Symbol} (h : t.walk? m s = some s') :
    s'.2 <:+ s.2 := by
  induction m generalizing s with
  | zero =>
    cases h
    exact List.suffix_refl _
  | succ m ih =>
    obtain ⟨v, hv, hs'⟩ := walk?_succ_cases h
    obtain ⟨x, stack, current, rest, rfl, hcases⟩ := forward?_cases hv
    rcases hcases with ⟨_, _, rfl⟩ | ⟨_, right, _, rfl⟩
    · exact (ih hs').trans (List.suffix_cons current rest)
    · have hrest := ih hs'
      exact hrest

theorem halt_unique {m n : Nat} {s a b : List Symbol × List Symbol}
    (ha : t.walk? m s = some a) (ha' : t.forward? a = none) (hb : t.walk? n s = some b)
    (hb' : t.forward? b = none) : a = b := by
  induction m generalizing n s with
  | zero =>
    cases ha
    cases n with
    | zero => exact Option.some.inj hb
    | succ n =>
      obtain ⟨v, hv, _⟩ := walk?_succ_cases hb
      exact absurd (ha'.symm.trans hv) nofun
  | succ m ih =>
    obtain ⟨v, hv, hva⟩ := walk?_succ_cases ha
    cases n with
    | zero =>
      cases hb
      exact absurd (hb'.symm.trans hv) nofun
    | succ n =>
      obtain ⟨w, hw, hwb⟩ := walk?_succ_cases hb
      obtain rfl : v = w := Option.some.inj (hv.symm.trans hw)
      exact ih hva hwb

theorem forward?_eq_none_lookahead {α z : List Symbol} {c : Symbol}
    (h : t.forward? (α, c :: z) = none) (z' : List Symbol) :
    t.forward? (α, c :: z') = none := by
  cases α with
  | nil => rfl
  | cons x α =>
    simp only [forward?] at h ⊢
    split at h
    · split at h
      · cases h
      · next hx he => rw [if_pos hx, if_neg he]
    · next hx =>
      rw [if_neg hx, Option.map_eq_none_iff]
      exact Option.map_eq_none_iff.1 h

/-- Up to the symbol that comes next, the walk does not depend on what is behind it. -/
theorem walk?_lookahead {m : Nat} {α β u z : List Symbol} {c : Symbol}
    (h : t.walk? m (α, u ++ c :: z) = some (β, c :: z)) (z' : List Symbol) :
    t.walk? m (α, u ++ c :: z') = some (β, c :: z') := by
  induction m generalizing α u with
  | zero =>
    simp only [walk?, Option.some.injEq, Prod.mk.injEq] at h ⊢
    obtain rfl : u = [] := List.append_left_eq_self.1 h.2
    exact ⟨h.1, rfl⟩
  | succ m ih =>
    obtain ⟨v, hv, hwalk⟩ := walk?_succ_cases h
    obtain ⟨x, stack, current, rest, hs, hcases⟩ := forward?_cases hv
    obtain ⟨rfl, hinput⟩ := Prod.mk.inj hs
    rcases hcases with ⟨hx, hmatch, rfl⟩ | ⟨hx, right, hright, rfl⟩
    · cases u with
      | nil =>
        obtain ⟨-, rfl⟩ := List.cons.inj hinput
        -- reading the next symbol would leave a rest that is too short
        have := (walk?_suffix hwalk).length_le
        simp only [List.length_cons] at this
        omega
      | cons d u =>
        obtain ⟨rfl, rfl⟩ := List.cons.inj hinput
        subst hmatch
        have hstep : t.forward? (x :: stack, x :: (u ++ c :: z')) = some (stack, u ++ c :: z') := by
          simp [forward?, hx]
        rw [List.cons_append, walk?, hstep]
        exact ih hwalk
    · have hstep : ∀ r, t.forward? (x :: stack, current :: r) =
          some (right ++ stack, current :: r) := by
        intro r
        simp [forward?, hx, hright]
      cases u with
      | nil =>
        obtain ⟨rfl, rfl⟩ := List.cons.inj hinput
        rw [List.nil_append, walk?, hstep]
        exact ih (u := []) hwalk
      | cons d u =>
        obtain ⟨rfl, rfl⟩ := List.cons.inj hinput
        rw [List.cons_append, walk?, hstep]
        exact ih (u := d :: u) hwalk

theorem Reachable.recognize_of_not_mem (ht : t.Reachable) {a : Symbol}
    (ha : a ∉ t.nonTerminals) (input : List Symbol) :
    ∃ reason, t.recognize input a = .error reason := by
  cases input with
  | nil =>
    have hrun : t.run 1 (.initial [] a) = some (.error (.leftOver [])) := rfl
    exact ⟨_, ht.recognize_of_run hrun⟩
  | cons current rest =>
    have hcell : t.get? a current = none :=
      Option.eq_none_iff_forall_ne_some.2 fun right hright =>
        ha (ht.sound.valid_of_get? hright).row_mem
    have hrun : t.run 1 (.initial (current :: rest) a) =
        some (.error (.noPrediction a current 0)) := by
      have hlabel : (Configuration.initial (current :: rest) a).label 0 = a := rfl
      simp only [Configuration.initial] at hlabel
      simp [run, step, Configuration.initial, hlabel, hcell]
    exact ⟨_, ht.recognize_of_run hrun⟩

end Table

namespace Configuration

namespace Stacked

variable {t : Table} {c d : Configuration}

theorem position_of_next (hd : t.step c = .next d) :
    d.position + d.rest.length = c.position + c.rest.length := by
  obtain ⟨top, below, current, rest, -, hr, hcases⟩ := Table.step_next_cases hd
  rcases hcases with ⟨-, -, rfl⟩ | ⟨-, right, -, rfl⟩
  · rw [hr]
    simp only [Configuration.advance, List.length_cons]
    omega
  · rfl

theorem verdict_of_done {outcome : Except Rejection ParseTree} (h : Stacked t c)
    (hd : t.step c = .done outcome) :
    Rejection.ofOutcome? outcome = t.verdict c.position (c.labels, c.rest) := by
  rcases Table.step_done_cases hd with ⟨top, below, current, rest, hs, hr, hcases⟩ | ⟨hend, rfl⟩
  · have hlabels : c.labels = c.label top :: below.map c.label := by simp [labels, hs]
    rw [h.matches_iff hs] at hcases
    rw [hlabels, hr, Table.verdict]
    rcases hcases with ⟨ht, -, rfl⟩ | ⟨ht, -, rfl⟩
    · rw [if_pos ht]
      rfl
    · rw [if_neg ht]
      rfl
  · have hv : t.verdict c.position (c.labels, c.rest) =
        if c.rest = [endMark] then none else some (.leftOver c.rest) := by
      rcases hend with hs | hr
      · rw [labels, hs]
        rfl
      · rw [hr]
        cases c.labels <;> rfl
    rw [hv]
    unfold outcome
    split <;> rfl

theorem exists_walk_of_run {n : Nat} {outcome : Except Rejection ParseTree} (h : Stacked t c)
    (hr : t.run n c = some outcome) :
    ∃ m s p, t.walk? m (c.labels, c.rest) = some s ∧ t.forward? s = none ∧
      p + s.2.length = c.position + c.rest.length ∧
      Rejection.ofOutcome? outcome = t.verdict p s := by
  induction n generalizing c with
  | zero => cases hr
  | succ n ih =>
    simp only [Table.run] at hr
    cases hd : t.step c with
    | next d =>
      rw [hd] at hr
      obtain ⟨hf, hs⟩ := h.forward_of_next hd
      obtain ⟨m, s, p, hwalk, hhalt, hp, hv⟩ := ih hs hr
      refine ⟨m + 1, s, p, ?_, hhalt, hp.trans (position_of_next hd), hv⟩
      rw [Table.walk?, hf]
      exact hwalk
    | done o =>
      rw [hd] at hr
      cases hr
      exact ⟨0, _, c.position, rfl, h.forward_of_done hd, rfl, h.verdict_of_done hd⟩

end Stacked

end Configuration

end PredictiveParsing
