import PredictiveParsing.Recognizer.Stack

/-!
The limit on rounds is long enough: a run that ends, ends within it
(`Table.Reachable.run_roundLimit`), so recognition is given up only where the machine never ends
(`Table.Reachable.recognize_eq_unending_iff`). With the next symbol of the input fixed, `Fate`
tells what becomes of a symbol on the stack, following expansions down to a given depth. A symbol
for which no depth up to the number of non-terminals is enough meets itself again below itself,
and so the run goes on for ever.
-/
namespace PredictiveParsing

/-- What becomes of symbols on the stack while the next symbol of the input stays: they vanish, or
the input moves on and some symbols are left of them, or the run ends, each after a number of
rounds; or the depth is not enough to tell. -/
inductive Fate where
  | vanish (rounds : Nat)
  | hit (rounds : Nat) (left : List Symbol)
  | stop (rounds : Nat)
  | deep

namespace Fate

def delay (n : Nat) : Fate → Fate
  | vanish m => vanish (n + m)
  | hit m left => hit (n + m) left
  | stop m => stop (n + m)
  | deep => deep

def ofList (f : Symbol → Fate) : List Symbol → Fate
  | [] => vanish 0
  | x :: xs =>
    match f x with
    | vanish m => (ofList f xs).delay m
    | hit m left => hit m (left ++ xs)
    | stop m => stop m
    | deep => deep

def Within (rounds left : Nat) : Fate → Prop
  | vanish m => m ≤ rounds
  | hit m l => m ≤ rounds ∧ l.length ≤ left
  | stop m => m ≤ rounds
  | deep => True

/-- The fate tells what the machine does, whatever lies below on the stack and behind in the
input. -/
def Tells (t : Table) (current : Symbol) (xs : List Symbol) : Fate → Prop
  | vanish m => ∀ below rest,
      t.walk? m (xs ++ below, current :: rest) = some (below, current :: rest)
  | hit m left => ∀ below rest,
      t.walk? m (xs ++ below, current :: rest) = some (left ++ below, rest)
  | stop m => ∀ below rest, t.haltsWithin m (xs ++ below, current :: rest) = true
  | deep => True

theorem eq_deep_of_delay {n : Nat} {f : Fate} (h : f.delay n = deep) : f = deep := by
  cases f with
  | vanish m => cases h
  | hit m left => cases h
  | stop m => cases h
  | deep => rfl

theorem Tells.delay {t : Table} {current : Symbol} {xs ys : List Symbol} {n : Nat} {f : Fate}
    (h : ∀ below rest,
      t.walk? n (xs ++ below, current :: rest) = some (ys ++ below, current :: rest))
    (hf : f.Tells t current ys) : (f.delay n).Tells t current xs := by
  cases f with
  | vanish m =>
    intro below rest
    rw [Table.walk?_add, h]
    exact hf below rest
  | hit m left =>
    intro below rest
    rw [Table.walk?_add, h]
    exact hf below rest
  | stop m =>
    intro below rest
    rw [Table.haltsWithin_add (h below rest)]
    exact hf below rest
  | deep => trivial

theorem Tells.ofList {t : Table} {current : Symbol} {f : Symbol → Fate}
    (h : ∀ x, (f x).Tells t current [x]) (xs : List Symbol) :
    (Fate.ofList f xs).Tells t current xs := by
  induction xs with
  | nil =>
    intro below rest
    rfl
  | cons x xs ih =>
    have hx := h x
    simp only [Fate.ofList]
    split
    · next m e =>
      rw [e] at hx
      exact Tells.delay (fun below rest => hx (xs ++ below) rest) ih
    · next m left e =>
      rw [e] at hx
      intro below rest
      rw [List.append_assoc]
      exact hx (xs ++ below) rest
    · next m e =>
      rw [e] at hx
      intro below rest
      exact hx (xs ++ below) rest
    · trivial

theorem Within.mono {a b c d : Nat} {f : Fate} (hab : a ≤ b) (hcd : c ≤ d) (h : f.Within a c) :
    f.Within b d := by
  cases f with
  | vanish m => exact Nat.le_trans h hab
  | hit m left => exact ⟨Nat.le_trans h.1 hab, Nat.le_trans h.2 hcd⟩
  | stop m => exact Nat.le_trans h hab
  | deep => trivial

theorem Within.delay {a b n : Nat} {f : Fate} (h : f.Within a b) :
    (f.delay n).Within (n + a) b := by
  cases f with
  | vanish m => exact Nat.add_le_add_left h n
  | hit m left => exact ⟨Nat.add_le_add_left h.1 n, h.2⟩
  | stop m => exact Nat.add_le_add_left h n
  | deep => trivial

theorem Within.ofList {a b : Nat} {f : Symbol → Fate} (h : ∀ x, (f x).Within a b)
    (xs : List Symbol) : (Fate.ofList f xs).Within (xs.length * a) (b + xs.length) := by
  induction xs with
  | nil => exact Nat.zero_le _
  | cons x xs ih =>
    have hx := h x
    have hlen : (x :: xs).length * a = a + xs.length * a := by
      rw [List.length_cons, Nat.succ_mul, Nat.add_comm]
    rw [hlen]
    simp only [Fate.ofList]
    split
    · next m e =>
      rw [e] at hx
      have hm : m ≤ a := hx
      exact ih.delay.mono (by omega) (by simp)
    · next m left e =>
      rw [e] at hx
      obtain ⟨hm, hl⟩ := hx
      refine ⟨by omega, ?_⟩
      rw [List.length_append, List.length_cons]
      omega
    · next m e =>
      rw [e] at hx
      have hm : m ≤ a := hx
      exact Nat.le_trans hm (by omega)
    · trivial

theorem ofList_eq_deep {f : Symbol → Fate} {xs : List Symbol} (h : Fate.ofList f xs = deep) :
    ∃ pre x post m, xs = pre ++ x :: post ∧ Fate.ofList f pre = vanish m ∧ f x = deep := by
  induction xs with
  | nil => cases h
  | cons x xs ih =>
    simp only [Fate.ofList] at h
    split at h
    · next m e =>
      obtain ⟨pre, y, post, k, rfl, hp, hy⟩ := ih (eq_deep_of_delay h)
      refine ⟨x :: pre, y, post, m + k, rfl, ?_, hy⟩
      simp only [Fate.ofList, e, hp, delay]
    · cases h
    · cases h
    · next e => exact ⟨[], x, xs, 0, rfl, rfl, e⟩

end Fate

namespace Table

def fate (t : Table) (current : Symbol) : Nat → Symbol → Fate
  | 0, x =>
    if x ∈ t.terminals then
      if x = current then .hit 1 [] else .stop 1
    else
      match t.get? x current with
      | none => .stop 1
      | some _ => .deep
  | k + 1, x =>
    if x ∈ t.terminals then
      if x = current then .hit 1 [] else .stop 1
    else
      match t.get? x current with
      | none => .stop 1
      | some right => (Fate.ofList (fate t current k) right).delay 1

theorem terminal_tells {t : Table} {current x : Symbol} (hx : x ∈ t.terminals) :
    (if x = current then Fate.hit 1 [] else .stop 1).Tells t current [x] := by
  split
  · next e =>
    subst e
    intro below rest
    simp [walk?, forward?, hx]
  · next e =>
    intro below rest
    simp [haltsWithin, forward?, hx, e]

theorem vacant_tells {t : Table} {current x : Symbol} (hx : x ∉ t.terminals)
    (hg : t.get? x current = none) : (Fate.stop 1).Tells t current [x] := by
  intro below rest
  simp [haltsWithin, forward?, hx, hg]

theorem walk?_expand {t : Table} {current x : Symbol} {right : List Symbol}
    (hx : x ∉ t.terminals) (hg : t.get? x current = some right) (below rest : List Symbol) :
    t.walk? 1 ([x] ++ below, current :: rest) = some (right ++ below, current :: rest) := by
  simp [walk?, forward?, hx, hg]

theorem fate_tells (t : Table) (current : Symbol) (k : Nat) (x : Symbol) :
    (t.fate current k x).Tells t current [x] := by
  induction k generalizing x with
  | zero =>
    simp only [fate]
    split
    · next hx => exact terminal_tells hx
    · next hx =>
      split
      · next hg => exact vacant_tells hx hg
      · trivial
  | succ k ih =>
    simp only [fate]
    split
    · next hx => exact terminal_tells hx
    · next hx =>
      split
      · next hg => exact vacant_tells hx hg
      · next right hg => exact (Fate.Tells.ofList ih right).delay (walk?_expand hx hg)

theorem one_le_treeSize (l k : Nat) : 1 ≤ treeSize l k := by
  cases k with
  | zero => exact Nat.le_refl 1
  | succ k => exact Nat.le_add_right 1 _

theorem length_le_longestRight {t : Table} {a s : Symbol} {right : List Symbol}
    (h : t.get? a s = some right) : right.length ≤ t.longestRight := by
  have hm := CellMap.find?_eq_some_iff.1 h
  unfold longestRight
  generalize t.cells.toList = l at hm
  induction l with
  | nil => exact absurd hm List.not_mem_nil
  | cons c l ih =>
    simp only [List.map_cons, List.foldr_cons]
    rcases List.mem_cons.1 hm with e | hm
    · subst e
      exact Nat.le_max_left _ _
    · exact Nat.le_trans (ih hm) (Nat.le_max_right _ _)

theorem terminal_within {x current : Symbol} {a b : Nat} (ha : 1 ≤ a) :
    (if x = current then Fate.hit 1 [] else .stop 1).Within a b := by
  split
  · exact ⟨ha, Nat.zero_le b⟩
  · exact ha

theorem fate_within (t : Table) (current : Symbol) (k : Nat) (x : Symbol) :
    (t.fate current k x).Within (treeSize t.longestRight k) (k * t.longestRight) := by
  induction k generalizing x with
  | zero =>
    simp only [fate]
    split
    · exact terminal_within (one_le_treeSize _ _)
    · split
      · exact one_le_treeSize _ _
      · trivial
  | succ k ih =>
    simp only [fate]
    split
    · exact terminal_within (one_le_treeSize _ _)
    · split
      · exact one_le_treeSize _ _
      · next right hg =>
        have hl := length_le_longestRight hg
        refine (Fate.Within.ofList ih right).delay.mono ?_ ?_
        · exact Nat.add_le_add_left (Nat.mul_le_mul_right _ hl) 1
        · rw [Nat.succ_mul]
          exact Nat.add_le_add_left hl _

/-- A symbol that is being expanded brings another one to the top of the stack while the input
stays. -/
def Uncovers (t : Table) (current x y : Symbol) : Prop :=
  ∃ m left, 0 < m ∧ ∀ below rest,
    t.walk? m (x :: below, current :: rest) = some (y :: left ++ below, current :: rest)

theorem Uncovers.trans {t : Table} {current x y z : Symbol} (hxy : t.Uncovers current x y)
    (hyz : t.Uncovers current y z) : t.Uncovers current x z := by
  obtain ⟨m, left, hm, hwalk⟩ := hxy
  obtain ⟨n, left', hn, hwalk'⟩ := hyz
  refine ⟨m + n, left' ++ left, by omega, fun below rest => ?_⟩
  have := hwalk' (left ++ below) rest
  rw [walk?_add, hwalk, Option.bind_some]
  simpa only [List.cons_append, List.append_assoc] using this

theorem not_haltsWithin_of_uncovers_self {t : Table} {current x : Symbol}
    (h : t.Uncovers current x x) (n : Nat) (below rest : List Symbol) :
    t.haltsWithin n (x :: below, current :: rest) = false := by
  obtain ⟨m, left, hm, hwalk⟩ := h
  induction n using Nat.strongRecOn generalizing below with
  | _ n ih =>
    cases hn : t.haltsWithin n (x :: below, current :: rest) with
    | false => rfl
    | true =>
      obtain ⟨hmn, hlater⟩ := haltsWithin_of_walk? (hwalk below rest) hn
      rw [List.cons_append, ih (n - m) (by omega)] at hlater
      exact hlater.symm

theorem exists_uncovers_of_deep {t : Table} {current x : Symbol} {k : Nat}
    (h : t.fate current (k + 1) x = .deep) :
    ∃ y, t.Uncovers current x y ∧ t.fate current k y = .deep := by
  simp only [fate] at h
  split at h
  · split at h <;> cases h
  · next hx =>
    split at h
    · cases h
    · next right hg =>
      obtain ⟨pre, y, post, m, rfl, hp, hy⟩ := Fate.ofList_eq_deep (Fate.eq_deep_of_delay h)
      refine ⟨y, ⟨1 + m, post, by omega, fun below rest => ?_⟩, hy⟩
      have hpre := Fate.Tells.ofList (fate_tells t current k) pre
      rw [hp] at hpre
      have hexpand := walk?_expand hx hg below rest
      rw [List.singleton_append] at hexpand
      rw [walk?_add, hexpand, Option.bind_some, List.append_assoc]
      exact hpre (y :: post ++ below) rest

theorem mem_nonTerminals_of_deep {t : Table} (ht : t.Sound) {current x : Symbol} {k : Nat}
    (h : t.fate current k x = .deep) : x ∈ t.nonTerminals := by
  cases k with
  | zero =>
    simp only [fate] at h
    split at h
    · split at h <;> cases h
    · split at h
      · cases h
      · next hg => exact (ht.valid_of_get? hg).row_mem
  | succ k =>
    simp only [fate] at h
    split at h
    · split at h <;> cases h
    · split at h
      · cases h
      · next hg => exact (ht.valid_of_get? hg).row_mem

/-- Going deeper than there are non-terminals, some symbol uncovers itself. -/
theorem exists_uncovers_self {t : Table} (ht : t.Sound) {current x : Symbol} {k : Nat}
    (h : t.fate current k x = .deep) {above : List Symbol} (hnodup : above.Nodup)
    (hmem : ∀ v ∈ above, v ∈ t.nonTerminals) (hover : ∀ v ∈ above, t.Uncovers current v x)
    (hsize : t.nonTerminals.size ≤ above.length + k) :
    ∃ y, t.Uncovers current y y ∧ (x = y ∨ t.Uncovers current x y) := by
  induction k generalizing x above with
  | zero =>
    by_cases hx : x ∈ above
    · exact ⟨x, hover x hx, .inl rfl⟩
    · exfalso
      have hnodup' : (x :: above).Nodup := List.nodup_cons.2 ⟨hx, hnodup⟩
      have hsub : x :: above ⊆ t.nonTerminals.toList := by
        intro v hv
        rcases List.mem_cons.1 hv with rfl | hv
        · exact mem_nonTerminals_of_deep ht h
        · exact hmem v hv
      have := hnodup'.length_le_of_subset hsub
      rw [List.length_cons] at this
      unfold SymbolSet.size at hsize
      omega
  | succ k ih =>
    by_cases hx : x ∈ above
    · exact ⟨x, hover x hx, .inl rfl⟩
    · obtain ⟨y, hxy, hy⟩ := exists_uncovers_of_deep h
      have hxN := mem_nonTerminals_of_deep ht h
      obtain ⟨z, hz, hyz⟩ := ih hy (List.nodup_cons.2 ⟨hx, hnodup⟩)
        (fun v hv => by
          rcases List.mem_cons.1 hv with rfl | hv
          · exact hxN
          · exact hmem v hv)
        (fun v hv => by
          rcases List.mem_cons.1 hv with rfl | hv
          · exact hxy
          · exact (hover v hv).trans hxy)
        (by rw [List.length_cons]; omega)
      refine ⟨z, hz, .inr ?_⟩
      rcases hyz with rfl | hyz
      · exact hxy
      · exact hxy.trans hyz

theorem fate_ne_deep {t : Table} (ht : t.Sound) {current x : Symbol} {below rest : List Symbol}
    {n : Nat} (h : t.haltsWithin n (x :: below, current :: rest) = true) :
    t.fate current t.nonTerminals.size x ≠ .deep := by
  intro hd
  obtain ⟨y, hy, hxy⟩ := exists_uncovers_self ht hd List.nodup_nil
    (fun v hv => absurd hv List.not_mem_nil) (fun v hv => absurd hv List.not_mem_nil)
    (by rw [List.length_nil]; omega)
  rcases hxy with rfl | ⟨m, left, _, hwalk⟩
  · rw [not_haltsWithin_of_uncovers_self hy] at h
    exact Bool.false_ne_true h
  · have := (haltsWithin_of_walk? (hwalk below rest) h).2
    rw [List.cons_append, not_haltsWithin_of_uncovers_self hy] at this
    exact Bool.false_ne_true this

theorem haltsWithin_bound {t : Table} (ht : t.Sound) {n : Nat} {rest stack : List Symbol}
    (h : t.haltsWithin n (stack, rest) = true) :
    t.haltsWithin (rest.length * ((stack.length + rest.length *
      (t.nonTerminals.size * t.longestRight)) * treeSize t.longestRight t.nonTerminals.size) + 1)
      (stack, rest) = true := by
  induction rest generalizing n stack with
  | nil =>
    have : t.forward? (stack, []) = none := by cases stack <;> rfl
    simp [haltsWithin, this]
  | cons current rest ih =>
    have htells := Fate.Tells.ofList (fate_tells t current t.nonTerminals.size) stack
    have hwithin := Fate.Within.ofList (fate_within t current t.nonTerminals.size) stack
    generalize hE : treeSize t.longestRight t.nonTerminals.size = E at ih hwithin ⊢
    generalize hA : t.nonTerminals.size * t.longestRight = A at ih hwithin ⊢
    have hfirst : stack.length * E ≤ (stack.length + (rest.length + 1) * A) * E :=
      Nat.mul_le_mul_right E (Nat.le_add_right _ _)
    rw [List.length_cons, Nat.succ_mul]
    generalize hf : Fate.ofList (t.fate current t.nonTerminals.size) stack = f at htells hwithin
    cases f with
    | vanish m =>
      have hwalk := htells [] rest
      rw [List.append_nil] at hwalk
      have hm : m ≤ stack.length * E := hwithin
      refine haltsWithin_mono (m := m + 1) (by omega) ?_
      rw [haltsWithin_add hwalk]
      rfl
    | hit m left =>
      have hwalk := htells [] rest
      rw [List.append_nil, List.append_nil] at hwalk
      obtain ⟨hm, hleft⟩ : m ≤ stack.length * E ∧ left.length ≤ A + stack.length := hwithin
      have hlater := ih (haltsWithin_of_walk? hwalk h).2
      have hrest : (left.length + rest.length * A) * E ≤
          (stack.length + (rest.length + 1) * A) * E := by
        refine Nat.mul_le_mul_right E ?_
        rw [Nat.succ_mul]
        omega
      have := Nat.mul_le_mul_left rest.length hrest
      refine haltsWithin_mono (m := m + (rest.length * ((left.length + rest.length * A) * E) + 1))
        (by omega) ?_
      rw [haltsWithin_add hwalk]
      exact hlater
    | stop m =>
      have hstop := htells [] rest
      rw [List.append_nil] at hstop
      have hm : m ≤ stack.length * E := hwithin
      exact haltsWithin_mono (by omega) hstop
    | deep =>
      exfalso
      obtain ⟨pre, x, post, m, rfl, hp, hx⟩ := Fate.ofList_eq_deep hf
      have hpre := Fate.Tells.ofList (fate_tells t current t.nonTerminals.size) pre
      rw [hp] at hpre
      have hlater := (haltsWithin_of_walk? (hpre (x :: post) rest) h).2
      exact fate_ne_deep ht hlater hx

theorem run_mono {t : Table} {m n : Nat} {c : Configuration} {outcome : Except Rejection ParseTree}
    (hmn : m ≤ n) (h : t.run m c = some outcome) : t.run n c = some outcome := by
  induction m generalizing n c with
  | zero => cases h
  | succ m ih =>
    obtain ⟨n, rfl⟩ : ∃ k, n = k + 1 := ⟨n - 1, by omega⟩
    simp only [run] at h ⊢
    split
    · next d hd =>
      rw [hd] at h
      exact ih (by omega) h
    · next o hd =>
      rw [hd] at h
      exact h

theorem run_unique {t : Table} {m n : Nat} {c : Configuration}
    {outcome outcome' : Except Rejection ParseTree} (h : t.run m c = some outcome)
    (h' : t.run n c = some outcome') : outcome = outcome' := by
  rcases Nat.le_total m n with hmn | hnm
  · exact Option.some.inj ((run_mono hmn h).symm.trans h')
  · exact Option.some.inj (h.symm.trans (run_mono hnm h'))

theorem rounds_eq_of_le {t : Table} {m n : Nat} {c : Configuration}
    {outcome : Except Rejection ParseTree} (hmn : m ≤ n) (h : t.run m c = some outcome) :
    t.rounds n c = t.rounds m c := by
  induction m generalizing n c with
  | zero => cases h
  | succ m ih =>
    obtain ⟨n, rfl⟩ : ∃ j, n = j + 1 := ⟨n - 1, by omega⟩
    simp only [run] at h
    simp only [rounds]
    cases hd : t.step c with
    | next d =>
      rw [hd] at h
      have hlater : t.rounds n d = t.rounds m d := ih (by omega) h
      simp only [hlater]
    | done o => rfl

theorem rounds_eq_of_run {t : Table} {m n : Nat} {c : Configuration}
    {outcome outcome' : Except Rejection ParseTree} (h : t.run m c = some outcome)
    (h' : t.run n c = some outcome') : t.rounds m c = t.rounds n c := by
  rcases Nat.le_total m n with hmn | hnm
  · exact (rounds_eq_of_le hmn h).symm
  · exact rounds_eq_of_le hnm h'

theorem step_of_terminal_start {t : Table} (ht : t.Sound) (input : List Symbol) {start : Symbol}
    (h : start ∈ t.terminals) : ∃ outcome, t.step (.initial input start) = .done outcome := by
  cases input with
  | nil => exact ⟨_, rfl⟩
  | cons current rest =>
    have hg : t.get? start current = none := by
      cases hg : t.get? start current with
      | none => rfl
      | some right => exact absurd (ht.valid_of_get? hg).row_mem (ht.alphabets.disjoint start h)
    refine ⟨.error (.noPrediction start current 0), ?_⟩
    simp only [step, Configuration.initial, ne_eq, not_true_eq_false, false_and, if_false]
    rw [show (Configuration.label _ 0) = start from rfl, hg]

theorem Reachable.run_roundLimit {t : Table} (ht : t.Reachable) {n : Nat} {input : List Symbol}
    {start : Symbol} {outcome : Except Rejection ParseTree}
    (h : t.run n (.initial input start) = some outcome) :
    t.run (t.roundLimit input) (.initial input start) = some outcome := by
  have hsome : (t.run (t.roundLimit input) (.initial input start)).isSome = true := by
    by_cases hs : start ∈ t.terminals
    · obtain ⟨o, ho⟩ := step_of_terminal_start ht.sound input hs
      simp only [roundLimit, run, ho, Option.isSome_some]
    · have hstacked := Configuration.Stacked.initial input hs
      have hn : t.haltsWithin n ([start], input) = true := by
        have := hstacked.isSome_run n
        rw [h] at this
        exact this.symm
      have := haltsWithin_bound ht.sound hn
      rw [hstacked.isSome_run]
      exact this
  obtain ⟨outcome', h'⟩ := Option.isSome_iff_exists.1 hsome
  rw [h', run_unique h h']

/-- The outcome of recognition is that of the run, however long the run takes. -/
theorem Reachable.recognize_of_run {t : Table} (ht : t.Reachable) {n : Nat} {input : List Symbol}
    {start : Symbol} {outcome : Except Rejection ParseTree}
    (h : t.run n (.initial input start) = some outcome) : t.recognize input start = outcome := by
  unfold recognize
  rw [ht.run_roundLimit h]
  rfl

theorem exists_run_of_recognize {t : Table} {input : List Symbol} {start : Symbol}
    {outcome : Except Rejection ParseTree} (h : t.recognize input start = outcome)
    (hends : outcome ≠ .error .unending) : ∃ n, t.run n (.initial input start) = some outcome := by
  unfold recognize at h
  cases hrun : t.run (t.roundLimit input) (.initial input start) with
  | none =>
    rw [hrun] at h
    exact absurd h.symm hends
  | some o =>
    rw [hrun] at h
    exact ⟨_, hrun.trans (congrArg some h)⟩

theorem step_ne_unending {t : Table} {c : Configuration} :
    t.step c ≠ .done (.error .unending) := by
  intro h
  rcases step_done_cases h with ⟨top, below, current, rest, -, -, hcases⟩ | ⟨-, hend⟩
  · rcases hcases with ⟨-, -, e⟩ | ⟨-, -, e⟩
    · cases e
    · cases e
  · unfold Configuration.outcome at hend
    split at hend <;> cases hend

theorem run_ne_unending {t : Table} {n : Nat} {c : Configuration} :
    t.run n c ≠ some (.error .unending) := by
  induction n generalizing c with
  | zero => exact nofun
  | succ n ih =>
    simp only [run]
    split
    · exact ih
    · next o ho =>
      intro h
      rw [Option.some.inj h] at ho
      exact step_ne_unending ho

/-- Recognition is given up exactly on the inputs with which the machine never ends. -/
theorem Reachable.recognize_eq_unending_iff {t : Table} (ht : t.Reachable) {input : List Symbol}
    {start : Symbol} :
    t.recognize input start = .error .unending ↔ ∀ n, t.run n (.initial input start) = none := by
  constructor
  · intro h n
    cases hn : t.run n (.initial input start) with
    | none => rfl
    | some outcome =>
      rw [ht.recognize_of_run hn] at h
      rw [h] at hn
      exact absurd hn run_ne_unending
  · intro h
    unfold recognize
    rw [h]
    rfl

end Table

end PredictiveParsing
