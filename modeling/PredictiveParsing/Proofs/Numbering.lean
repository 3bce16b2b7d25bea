import PredictiveParsing.Proofs.Grouping

/-!
# The numbers of symbols

While a grammar is built, its symbols are entered one by one in a register that has a slot for each
of them and finds their numbers by name. Left sides come up again and again and are entered once, so
that a register stays consistent: looking up a number and looking up a name are inverse to each
other (`Consistent.append`, `foldl_enter`). The rules are filled in last. The numbers of their
symbols are looked up without a check, and for a well-formed grammar they are all there
(`register?_eq`).
-/
namespace PredictiveParsing

inductive Slot where
  | nonTerminal (name : Symbol) (rules : List (List Nat))
  | terminal (name : Symbol)
deriving DecidableEq

def Slot.name : Slot → Symbol
  | nonTerminal name _ => name
  | terminal name => name

structure Register where
  slots : List Slot
  numbers : List (Symbol × Nat)
deriving DecidableEq

namespace Register

def names (r : Register) : List Symbol := r.slots.map Slot.name

def number? (r : Register) (s : Symbol) : Option Nat := r.numbers.lookup s

def append (r : Register) (slot : Slot) : Register :=
  ⟨r.slots ++ [slot], (slot.name, r.slots.length) :: r.numbers⟩

def enter (r : Register) (a : Symbol) : Register :=
  if (r.number? a).isSome then r else r.append (.nonTerminal a [])

/-- Adds a rule to the slot of its left side. There is no result if one of the symbols has no
number, or the number no slot. -/
def addRule? (r : Register) (p : Production) : Option Register := do
  let left ← r.number? p.left
  let right ← p.right.mapM r.number?
  match ← r.slots[left]? with
  | .nonTerminal a rules =>
    return { r with slots := r.slots.set left (.nonTerminal a (rules ++ [right])) }
  | .terminal _ => return r

/-- Numbers and names are the two directions of one correspondence. -/
def Consistent (r : Register) : Prop := ∀ s i, r.number? s = some i ↔ r.names[i]? = some s

end Register

namespace Presentation

def ofLists (terminals nonTerminals : List Symbol) (productions : List Production)
    (start : Symbol) : Presentation :=
  { terminals := .ofList terminals, nonTerminals := .ofList nonTerminals, productions, start }

def numbered (g : Presentation) : Register :=
  g.terminals.toList.foldl (fun r t => r.append (.terminal t))
    ((g.start :: g.productions.map (·.left) ++ g.nonTerminals.toList).foldl Register.enter ⟨[], []⟩)

def register? (g : Presentation) : Option Register :=
  g.productions.foldlM Register.addRule? g.numbered

end Presentation

theorem eraseDups_of_nodup {l : List Symbol} (h : l.Nodup) : l.eraseDups = l := by
  induction l with
  | nil => rfl
  | cons a l ih =>
    obtain ⟨ha, hl⟩ := List.nodup_cons.1 h
    have hfilter : l.filter (fun b => !b == a) = l := by
      refine List.filter_eq_self.2 fun b hb => ?_
      have hne : b ≠ a := fun e => ha (e ▸ hb)
      simp [hne]
    rw [List.eraseDups_cons, hfilter, ih hl]

theorem eraseDups_cons_append {l m : List Symbol} {a : Symbol} (hm : m.Nodup) :
    (a :: l ++ m).eraseDups =
      a :: ((l.filter (· ≠ a)).eraseDups ++ m.filter fun b => b ≠ a ∧ b ∉ l) := by
  have hne : (fun b => !b == a) = fun b => decide (b ≠ a) := by
    funext b
    by_cases h : b = a <;> simp [h]
  have hrest : (m.filter (· ≠ a)).removeAll (l.filter (· ≠ a)) =
      m.filter fun b => b ≠ a ∧ b ∉ l := by
    rw [List.removeAll, List.filter_filter]
    refine List.filter_congr fun b _ => ?_
    by_cases h : b = a <;> simp [h]
  rw [List.cons_append, List.eraseDups_cons, hne, List.filter_append, List.eraseDups_append, hrest,
    eraseDups_of_nodup (hm.filter _)]

namespace Register

variable {r : Register} {s a : Symbol} {slot : Slot}

theorem consistent_empty : Consistent ⟨[], []⟩ := fun _ _ => iff_of_false nofun nofun

theorem names_append : (r.append slot).names = r.names ++ [slot.name] := by
  simp [names, append]

theorem number?_append : (r.append slot).number? s =
    if s = slot.name then some r.slots.length else r.number? s := by
  simp only [number?, append, List.lookup_cons]
  by_cases h : s = slot.name
  · simp [h]
  · simp [h, beq_eq_false_iff_ne.2 h]

theorem Consistent.isSome_number? (h : r.Consistent) : (r.number? s).isSome ↔ s ∈ r.names := by
  rw [Option.isSome_iff_exists, List.mem_iff_getElem?]
  exact exists_congr fun i => h s i

theorem getElem?_concat_eq_some {l : List Symbol} {i : Nat} :
    (l ++ [a])[i]? = some s ↔ l[i]? = some s ∨ i = l.length ∧ s = a := by
  rcases Nat.lt_trichotomy i l.length with hlt | rfl | hgt
  · rw [List.getElem?_append_left hlt]
    exact (or_iff_left fun h => Nat.ne_of_lt hlt h.1).symm
  · simp [eq_comm]
  · have hnone : l[i]? = none := List.getElem?_eq_none (Nat.le_of_lt hgt)
    have hconcat : (l ++ [a])[i]? = none := List.getElem?_eq_none (by simp; omega)
    rw [hnone, hconcat]
    simp only [reduceCtorEq, false_or, false_iff]
    omega

theorem Consistent.append (h : r.Consistent) (hslot : slot.name ∉ r.names) :
    (r.append slot).Consistent := by
  intro s i
  have hlength : r.names.length = r.slots.length := List.length_map _
  rw [number?_append, names_append, getElem?_concat_eq_some, hlength]
  by_cases hs : s = slot.name
  · subst hs
    have hold : r.names[i]? ≠ some slot.name := fun e => hslot (List.mem_of_getElem? e)
    simp [hold, eq_comm]
  · simp [hs, h s i]

theorem Consistent.enter (h : r.Consistent) (a : Symbol) : (r.enter a).Consistent := by
  unfold Register.enter
  split
  · exact h
  · next ha => exact h.append (mt h.isSome_number?.2 ha)

/-- Entering symbols one by one leaves each where it came up first. -/
theorem foldl_enter (l : List Symbol) :
    (l.foldl Register.enter ⟨[], []⟩).Consistent ∧
      (l.foldl Register.enter ⟨[], []⟩).slots = l.eraseDups.map (Slot.nonTerminal · []) := by
  induction l using List.reverseRecOn with
  | nil => exact ⟨consistent_empty, rfl⟩
  | append_singleton l a ih =>
    obtain ⟨hconsistent, hslots⟩ := ih
    rw [List.foldl_concat]
    refine ⟨hconsistent.enter a, ?_⟩
    have hknown := hconsistent.isSome_number? (s := a)
    have hnames : (l.foldl Register.enter ⟨[], []⟩).names = l.eraseDups := by
      rw [names, hslots, List.map_map]
      exact List.map_id _
    rw [hnames, List.mem_eraseDups] at hknown
    rw [enter]
    by_cases ha : a ∈ l
    · rw [if_pos (hknown.2 ha), hslots, eraseDups_concat_of_mem ha]
    · rw [if_neg (mt hknown.1 ha), append, hslots, eraseDups_concat_of_notMem ha, List.map_append]
      rfl

theorem Consistent.foldl_append {l : List Symbol} (h : r.Consistent) (hl : l.Nodup)
    (hnew : ∀ t ∈ l, t ∉ r.names) :
    (l.foldl (fun r t => r.append (.terminal t)) r).Consistent ∧
      (l.foldl (fun r t => r.append (.terminal t)) r).slots = r.slots ++ l.map .terminal := by
  induction l generalizing r with
  | nil => exact ⟨h, (List.append_nil _).symm⟩
  | cons t l ih =>
    obtain ⟨ht, hl⟩ := List.nodup_cons.1 hl
    obtain ⟨htnew, hlnew⟩ := List.forall_mem_cons.1 hnew
    have hnames : ∀ u ∈ l, u ∉ (r.append (.terminal t)).names := by
      intro u hu
      rw [names_append, List.mem_append, List.mem_singleton]
      rintro (hold | rfl)
      · exact hlnew u hu hold
      · exact ht hu
    have happend : (r.append (.terminal t)).Consistent := Consistent.append h htnew
    obtain ⟨hconsistent, hslots⟩ := ih happend hl hnames
    refine ⟨hconsistent, ?_⟩
    rw [List.foldl_cons, hslots, Register.append, List.append_assoc]
    rfl

end Register

namespace Grammar

variable {g : Grammar} {s : Symbol}

/-! ## The standing order -/

theorem nodup_symbols (g : Grammar) : g.symbols.Nodup := by
  refine List.nodup_append.2 ⟨nodup_eraseDups _, g.terminals.nodup, fun a ha t ht e => ?_⟩
  subst e
  exact not_mem_terminals_of_mem_nonTerminals (mem_nonTerminalOrder.1 ha) ht

theorem symbols_eq (g : Grammar) : g.symbols = g.start ::
    (((g.productions.map (·.left)).filter (· ≠ g.start)).eraseDups ++
      g.nonTerminals.toList.filter (fun a => a ≠ g.start ∧ a ∉ g.productions.map (·.left))) ++
      g.terminals.toList := by
  rw [symbols, nonTerminalOrder, eraseDups_cons_append g.nonTerminals.nodup]

theorem index?_of_declares (h : g.Declares s) : g.index? s = some (g.symbols.idxOf s) :=
  idxOf?_of_mem (mem_symbols.2 h)

theorem index?_eq_some_iff {i : Nat} : g.index? s = some i ↔ g.name? i = some s := by
  rw [index?, name?]
  constructor
  · intro h
    obtain ⟨hi, hs, -⟩ := List.idxOf?_eq_some_iff.1 h
    rw [List.getElem?_eq_getElem hi, hs]
  · intro h
    obtain ⟨hi, rfl⟩ := List.getElem?_eq_some_iff.1 h
    rw [idxOf?_of_mem (List.getElem_mem hi), g.nodup_symbols.idxOf_getElem]

theorem exists_index?_iff : (∃ i, g.index? s = some i) ↔ g.Declares s := by
  rw [← mem_symbols, List.mem_iff_getElem?]
  exact exists_congr fun _ => index?_eq_some_iff

/-! ## The slots -/

/-- The slot of a symbol when the rules of some of the productions are in. -/
def slotWith (g : Grammar) (done : List Production) (s : Symbol) : Slot :=
  if s ∈ g.nonTerminals then
    .nonTerminal s ((done.filter (·.left = s)).map fun p => p.right.map g.symbols.idxOf)
  else .terminal s

def slot (g : Grammar) (s : Symbol) : Slot :=
  if s ∈ g.nonTerminals then .nonTerminal s (g.rules s) else .terminal s

theorem slotWith_productions : g.slotWith g.productions = g.slot := by
  funext s
  simp only [slotWith, slot, rules, alternatives, List.map_map]
  rfl

theorem name_slotWith {done : List Production} : (g.slotWith done s).name = s := by
  unfold slotWith
  split <;> rfl

theorem slots_numbered (g : Grammar) :
    g.numbered.Consistent ∧ g.numbered.slots = g.symbols.map (g.slotWith []) := by
  obtain ⟨hconsistent, hslots⟩ :=
    Register.foldl_enter (g.start :: g.productions.map (·.left) ++ g.nonTerminals.toList)
  have hnew : ∀ t ∈ g.terminals.toList, t ∉ Register.names
      ((g.start :: g.productions.map (·.left) ++ g.nonTerminals.toList).foldl
        Register.enter ⟨[], []⟩) := by
    intro t ht
    rw [Register.names, hslots, List.map_map]
    intro hmem
    obtain ⟨a, ha, rfl⟩ := List.mem_map.1 hmem
    exact not_mem_terminals_of_mem_nonTerminals (mem_nonTerminalOrder.1 ha) ht
  obtain ⟨hnumbered, hall⟩ := hconsistent.foldl_append g.terminals.nodup hnew
  refine ⟨hnumbered, ?_⟩
  rw [Presentation.numbered, hall, hslots, symbols, List.map_append]
  congr 1
  · refine List.map_congr_left fun a ha => ?_
    rw [slotWith, if_pos (mem_nonTerminalOrder.1 ha)]
    rfl
  · refine List.map_congr_left fun t ht => ?_
    rw [slotWith, if_neg fun hn => not_mem_terminals_of_mem_nonTerminals hn ht]

theorem number?_numbered (g : Grammar) (s : Symbol) : g.numbered.number? s = g.index? s := by
  obtain ⟨hconsistent, hslots⟩ := g.slots_numbered
  have hnames : g.numbered.names = g.symbols := by
    rw [Register.names, hslots, List.map_map]
    exact (List.map_congr_left fun s _ => name_slotWith).trans (List.map_id _)
  refine Option.ext fun i => ?_
  rw [hconsistent, hnames, index?_eq_some_iff]
  rfl

theorem map_slotWith_concat (done : List Production) {p : Production}
    (hleft : p.left ∈ g.nonTerminals) :
    (g.symbols.map (g.slotWith done)).set (g.symbols.idxOf p.left)
        (g.slotWith (done ++ [p]) p.left) =
      g.symbols.map (g.slotWith (done ++ [p])) := by
  refine List.ext_getElem? fun i => ?_
  rw [List.getElem?_set, List.getElem?_map, List.getElem?_map, List.length_map]
  split
  · next hi =>
    subst hi
    have hmem : p.left ∈ g.symbols := mem_symbols.2 (.inr hleft)
    rw [if_pos (List.idxOf_lt_length_of_mem hmem), List.getElem?_idxOf hmem]
    rfl
  · next hi =>
    cases hs : g.symbols[i]? with
    | none => rfl
    | some s =>
      have hne : p.left ≠ s := by
        rintro rfl
        obtain ⟨hlt, hget⟩ := List.getElem?_eq_some_iff.1 hs
        exact hi (by rw [← hget, g.nodup_symbols.idxOf_getElem])
      simp [slotWith, hne]

theorem addRule?_eq {r : Register} {done : List Production} {p : Production}
    (hp : p ∈ g.productions) (hnumber : ∀ s, r.number? s = g.index? s)
    (hslots : r.slots = g.symbols.map (g.slotWith done)) :
    r.addRule? p = some { r with slots := g.symbols.map (g.slotWith (done ++ [p])) } := by
  have hleft := g.wellFormed.left_mem p hp
  have hright : p.right.mapM r.number? = some (p.right.map g.symbols.idxOf) :=
    mapM_eq_some_map fun s hs =>
      (hnumber s).trans (index?_of_declares (g.wellFormed.right_declared p hp s hs))
  have hnumberLeft : r.number? p.left = some (g.symbols.idxOf p.left) :=
    (hnumber _).trans (index?_of_declares (.inr hleft))
  have hslot : r.slots[g.symbols.idxOf p.left]? = some (g.slotWith done p.left) := by
    rw [hslots, List.getElem?_map, List.getElem?_idxOf (mem_symbols.2 (.inr hleft))]
    rfl
  have hset := map_slotWith_concat done hleft
  rw [← hslots, slotWith, if_pos hleft] at hset
  rw [slotWith, if_pos hleft] at hslot
  simp only [Register.addRule?, hnumberLeft, hright, hslot, Option.bind_eq_bind, Option.bind_some,
    Option.pure_def]
  rw [← hset]
  simp

theorem foldlM_addRule? {r : Register} {done ps : List Production}
    (hps : ∀ p ∈ ps, p ∈ g.productions) (hnumber : ∀ s, r.number? s = g.index? s)
    (hslots : r.slots = g.symbols.map (g.slotWith done)) :
    ps.foldlM Register.addRule? r =
      some { r with slots := g.symbols.map (g.slotWith (done ++ ps)) } := by
  induction ps generalizing r done with
  | nil => simp [← hslots]
  | cons p ps ih =>
    obtain ⟨hp, hps⟩ := List.forall_mem_cons.1 hps
    rw [List.foldlM_cons, addRule?_eq hp hnumber hslots]
    have h := ih (r := { r with slots := g.symbols.map (g.slotWith (done ++ [p])) }) hps hnumber rfl
    rw [List.append_assoc] at h
    exact h

theorem register?_eq (g : Grammar) :
    g.register? = some { g.numbered with slots := g.symbols.map g.slot } := by
  have h : g.productions.foldlM Register.addRule? g.numbered = _ :=
    foldlM_addRule? (fun _ hp => hp) g.number?_numbered g.slots_numbered.2
  rw [List.nil_append, slotWith_productions] at h
  exact h

theorem lt_of_mem_rules {a : Symbol} {rule : List Nat} {i : Nat} (h : rule ∈ g.rules a)
    (hi : i ∈ rule) : i < g.symbols.length := by
  obtain ⟨right, hright, rfl⟩ := List.mem_map.1 h
  obtain ⟨s, hs, rfl⟩ := List.mem_map.1 hi
  have hdeclared := g.wellFormed.right_declared _ (mem_alternatives.1 hright) s hs
  exact List.idxOf_lt_length_of_mem (mem_symbols.2 hdeclared)

structure NumberedBy (g : Grammar) (r : Register) : Prop where
  slots : r.slots = g.symbols.map g.slot
  number : ∀ s, r.number? s = g.index? s
  name : ∀ i, r.names[i]? = g.name? i
  inverse : ∀ s i, g.index? s = some i ↔ i < g.symbols.length ∧ g.name? i = some s
  numbered : ∀ s, (∃ i, g.index? s = some i) ↔ g.Declares s
  standing : g.symbols = g.start ::
    (((g.productions.map (·.left)).filter (· ≠ g.start)).eraseDups ++
      g.nonTerminals.toList.filter (fun a => a ≠ g.start ∧ a ∉ g.productions.map (·.left))) ++
      g.terminals.toList
  in_range : ∀ a rules, .nonTerminal a rules ∈ r.slots → ∀ rule ∈ rules, ∀ i ∈ rule,
    i < r.slots.length

theorem names_eq {r : Register} (h : r.slots = g.symbols.map g.slot) : r.names = g.symbols := by
  rw [Register.names, h, ← slotWith_productions, List.map_map]
  exact (List.map_congr_left fun s _ => name_slotWith).trans (List.map_id _)

theorem numberedBy (g : Grammar) :
    g.NumberedBy { g.numbered with slots := g.symbols.map g.slot } where
  slots := rfl
  number := g.number?_numbered
  name := fun i => by rw [names_eq rfl, name?]
  inverse := by
    intro s i
    rw [index?_eq_some_iff, name?]
    exact (and_iff_right_of_imp fun h => (List.getElem?_eq_some_iff.1 h).1).symm
  numbered := fun s => exists_index?_iff
  standing := g.symbols_eq
  in_range := by
    intro a rules hmem rule hrule i hi
    obtain ⟨s, hs, hslot⟩ := List.mem_map.1 hmem
    unfold slot at hslot
    split at hslot
    · cases hslot
      rw [List.length_map]
      exact lt_of_mem_rules hrule hi
    · cases hslot

theorem wellFormed_ofLists_iff {terminals nonTerminals : List Symbol}
    {productions : List Production} {start : Symbol} :
    (Presentation.ofLists terminals nonTerminals productions start).WellFormed ↔
      (∀ s ∈ terminals, s ∉ nonTerminals) ∧
      (∀ s, s ∈ terminals ∨ s ∈ nonTerminals → s ≠ endMark ∧ s ≠ epsilon) ∧
      start ∈ nonTerminals ∧
      ∀ p ∈ productions, p.left ∈ nonTerminals ∧
        ∀ s ∈ p.right, s ∈ terminals ∨ s ∈ nonTerminals := by
  have hfree : ∀ s, s ∉ [endMark, epsilon] ↔ s ≠ endMark ∧ s ≠ epsilon := by simp
  constructor
  · rintro ⟨⟨hdisjoint, hterminals, hnonTerminals⟩, hstart, hleft, hright⟩
    simp only [Presentation.ofLists, Presentation.Declares, SymbolSet.mem_ofList, hfree]
      at hdisjoint hterminals hnonTerminals hstart hleft hright
    exact ⟨hdisjoint, fun s hs => hs.elim (hterminals s) (hnonTerminals s), hstart,
      fun p hp => ⟨hleft p hp, hright p hp⟩⟩
  · rintro ⟨hdisjoint, hreserved, hstart, hproductions⟩
    refine ⟨⟨?_, ?_, ?_⟩, ?_, ?_, ?_⟩ <;>
      simp only [Presentation.ofLists, Presentation.Declares, SymbolSet.mem_ofList, hfree]
    · exact hdisjoint
    · exact fun s hs => hreserved s (.inl hs)
    · exact fun s hs => hreserved s (.inr hs)
    · exact hstart
    · exact fun p hp => (hproductions p hp).1
    · exact fun p hp => (hproductions p hp).2

theorem built_exactly_when_wellFormed (terminals nonTerminals : List Symbol)
    (productions : List Production) (start : Symbol) :
    ((∃ g, build (.ofLists terminals nonTerminals productions start) = .ok g) ↔
      (∀ s ∈ terminals, s ∉ nonTerminals) ∧
      (∀ s, s ∈ terminals ∨ s ∈ nonTerminals → s ≠ endMark ∧ s ≠ epsilon) ∧
      start ∈ nonTerminals ∧
      ∀ p ∈ productions, p.left ∈ nonTerminals ∧
        ∀ s ∈ p.right, s ∈ terminals ∨ s ∈ nonTerminals) ∧
    ∀ g, build (.ofLists terminals nonTerminals productions start) = .ok g →
      g.toPresentation = .ofLists terminals nonTerminals productions start ∧
      ∃ r, g.register? = some r ∧ g.NumberedBy r := by
  refine ⟨?_, fun g hg => ⟨build_eq_ok_iff.1 hg, _, g.register?_eq, g.numberedBy⟩⟩
  rw [← wellFormed_ofLists_iff]
  constructor
  · rintro ⟨g, hg⟩
    exact build_eq_ok_iff.1 hg ▸ g.wellFormed
  · exact fun h => ⟨⟨_, h⟩, build_eq_ok_iff.2 rfl⟩

/-- A start symbol that is defined late, left sides that take turns, and a non-terminal without
productions, whose alphabets are listed with repetitions. -/
theorem scattered_built :
    build (.ofLists ['b', 'a', 'b'] ['U', 'S', 'A', 'U']
      [⟨'A', ['a']⟩, ⟨'S', ['A', 'b']⟩, ⟨'A', []⟩, ⟨'A', ['a']⟩] 'S') = .ok scattered ∧
    (∃ r, scattered.register? = some r ∧ r.names = ['S', 'A', 'U', 'a', 'b'] ∧
      r.number? 'U' = some 2) ∧
    ¬ ∃ i, scattered.index? 'x' = some i := by
  have hbuild : build (.ofLists ['b', 'a', 'b'] ['U', 'S', 'A', 'U']
      [⟨'A', ['a']⟩, ⟨'S', ['A', 'b']⟩, ⟨'A', []⟩, ⟨'A', ['a']⟩] 'S') = .ok scattered :=
    build_eq_ok_iff.2 (by decide)
  obtain ⟨-, r, hr, hnumbered⟩ := (built_exactly_when_wellFormed _ _ _ _).2 scattered hbuild
  refine ⟨hbuild, ⟨r, hr, ?_, ?_⟩, ?_⟩
  · rw [names_eq hnumbered.slots]
    decide
  · rw [hnumbered.number]
    decide
  · rw [hnumbered.numbered]
    decide

end Grammar

end PredictiveParsing
