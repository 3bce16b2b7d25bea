import PredictiveParsing.Symbol

/-!
A production replaces one symbol by a string of symbols. The empty right side is shown by the sign
for the empty string. A cell of a prediction table says which right side takes the place of a
non-terminal when a given terminal comes next. `CellMap` keeps at most one cell for each pair of
symbols, ascending in the non-terminal and then in the terminal.
-/
namespace PredictiveParsing

def showRight (right : List Symbol) : String :=
  if right = [] then epsilon.toString else String.ofList right

structure Production where
  left : Symbol
  right : List Symbol
deriving DecidableEq

namespace Production

def isEpsilon (p : Production) : Bool := p.right.isEmpty

def display (p : Production) : String := s!"{p.left} -> {showRight p.right}"

end Production

/-! ## Cells -/

structure Cell where
  nonTerminal : Symbol
  terminal : Symbol
  right : List Symbol
deriving DecidableEq

namespace Cell

def Precedes (c d : Cell) : Prop :=
  c.nonTerminal < d.nonTerminal ∨ c.nonTerminal = d.nonTerminal ∧ c.terminal < d.terminal

instance (c d : Cell) : Decidable (c.Precedes d) := inferInstanceAs (Decidable (_ ∨ _))

def HasKey (c : Cell) (a t : Symbol) : Prop := c.nonTerminal = a ∧ c.terminal = t

instance (c : Cell) (a t : Symbol) : Decidable (c.HasKey a t) := inferInstanceAs (Decidable (_ ∧ _))

theorem Precedes.trans {c d e : Cell} (hcd : c.Precedes d) (hde : d.Precedes e) : c.Precedes e := by
  rcases hcd with h | ⟨h, h'⟩ <;> rcases hde with k | ⟨k, k'⟩
  · exact .inl (Char.lt_trans h k)
  · exact .inl (k ▸ h)
  · exact .inl (h ▸ k)
  · exact .inr ⟨h.trans k, Char.lt_trans h' k'⟩

theorem Precedes.not_hasKey {c d : Cell} (h : c.Precedes d) :
    ¬ d.HasKey c.nonTerminal c.terminal := by
  rintro ⟨ha, ht⟩
  rcases h with h | ⟨_, h⟩
  · exact Char.lt_irrefl _ (ha ▸ h)
  · exact Char.lt_irrefl _ (ht ▸ h)

theorem hasKey_of_not_precedes {c d : Cell} (hcd : ¬ c.Precedes d) (hdc : ¬ d.Precedes c) :
    d.HasKey c.nonTerminal c.terminal := by
  simp only [Precedes, not_or, not_and] at hcd hdc
  have ha : d.nonTerminal = c.nonTerminal :=
    Char.le_antisymm (Char.not_lt.1 hcd.1) (Char.not_lt.1 hdc.1)
  exact ⟨ha, Char.le_antisymm (Char.not_lt.1 (hcd.2 ha.symm)) (Char.not_lt.1 (hdc.2 ha))⟩

end Cell

structure CellMap where
  toList : List Cell
  ascending : toList.Pairwise Cell.Precedes
deriving DecidableEq

namespace CellMap

def empty : CellMap := ⟨[], List.Pairwise.nil⟩

instance : EmptyCollection CellMap := ⟨empty⟩

def insertCell (c : Cell) : List Cell → List Cell
  | [] => [c]
  | d :: l =>
    if c.Precedes d then c :: d :: l
    else if d.Precedes c then d :: insertCell c l
    else c :: l

def findCell (a t : Symbol) : List Cell → Option (List Symbol)
  | [] => none
  | c :: l => if c.HasKey a t then some c.right else findCell a t l

theorem mem_insertCell {c x : Cell} {l : List Cell} (h : x ∈ insertCell c l) : x = c ∨ x ∈ l := by
  induction l with
  | nil => exact .inl (List.mem_singleton.1 h)
  | cons d l ih =>
    simp only [insertCell] at h
    split at h
    · exact List.mem_cons.1 h
    · split at h
      · rcases List.mem_cons.1 h with rfl | h
        · exact .inr List.mem_cons_self
        · exact (ih h).imp_right (List.mem_cons_of_mem _)
      · exact (List.mem_cons.1 h).imp_right (List.mem_cons_of_mem _)

theorem insertCell_ascending {c : Cell} {l : List Cell} (h : l.Pairwise Cell.Precedes) :
    (insertCell c l).Pairwise Cell.Precedes := by
  induction l with
  | nil => simp [insertCell]
  | cons d l ih =>
    obtain ⟨hd, hl⟩ := List.pairwise_cons.1 h
    simp only [insertCell]
    split
    · next hcd =>
      refine List.pairwise_cons.2 ⟨fun x hx => ?_, h⟩
      rcases List.mem_cons.1 hx with rfl | hx
      · exact hcd
      · exact hcd.trans (hd x hx)
    · split
      · next hdc =>
        refine List.pairwise_cons.2 ⟨fun x hx => ?_, ih hl⟩
        rcases mem_insertCell hx with rfl | hx
        · exact hdc
        · exact hd x hx
      · next hcd hdc =>
        obtain ⟨ha, ht⟩ := Cell.hasKey_of_not_precedes hcd hdc
        refine List.pairwise_cons.2 ⟨fun x hx => ?_, hl⟩
        have := hd x hx
        simpa only [Cell.Precedes, ha, ht] using this

def insert (m : CellMap) (c : Cell) : CellMap :=
  ⟨insertCell c m.toList, insertCell_ascending m.ascending⟩

def find? (m : CellMap) (a t : Symbol) : Option (List Symbol) := findCell a t m.toList

def size (m : CellMap) : Nat := m.toList.length

@[simp] theorem find?_empty {a t : Symbol} : (∅ : CellMap).find? a t = none := rfl

/-- A list in which the two symbols of a cell determine it is searched in any order. -/
theorem findCell_eq_some_iff_of_unique {l : List Cell}
    (h : ∀ c ∈ l, ∀ d ∈ l, d.HasKey c.nonTerminal c.terminal → d = c) {a t : Symbol}
    {r : List Symbol} : findCell a t l = some r ↔ ⟨a, t, r⟩ ∈ l := by
  induction l with
  | nil => exact iff_of_false nofun List.not_mem_nil
  | cons c l ih =>
    have hl := ih fun d hd e he => h d (List.mem_cons_of_mem c hd) e (List.mem_cons_of_mem c he)
    rw [findCell]
    split
    · next hk =>
      constructor
      · intro hr
        obtain ⟨rfl, rfl⟩ := hk
        obtain rfl := Option.some.inj hr
        exact List.mem_cons_self
      · intro hr
        rw [h _ hr c List.mem_cons_self hk]
    · next hk =>
      rw [hl, List.mem_cons]
      refine (or_iff_right fun e => hk ?_).symm
      subst e
      exact ⟨rfl, rfl⟩

theorem eq_of_hasKey_of_ascending {l : List Cell} (h : l.Pairwise Cell.Precedes) :
    ∀ c ∈ l, ∀ d ∈ l, d.HasKey c.nonTerminal c.terminal → d = c := by
  induction l with
  | nil => exact fun c hc => absurd hc List.not_mem_nil
  | cons b l ih =>
    obtain ⟨hb, hl⟩ := List.pairwise_cons.1 h
    intro c hc d hd hk
    rcases List.mem_cons.1 hc with rfl | hcl <;> rcases List.mem_cons.1 hd with rfl | hdl
    · rfl
    · exact absurd hk (hb d hdl).not_hasKey
    · exact absurd ⟨hk.1.symm, hk.2.symm⟩ (hb c hcl).not_hasKey
    · exact ih hl c hcl d hdl hk

theorem findCell_eq_some_iff {a t : Symbol} {r : List Symbol} {l : List Cell}
    (h : l.Pairwise Cell.Precedes) : findCell a t l = some r ↔ ⟨a, t, r⟩ ∈ l :=
  findCell_eq_some_iff_of_unique (eq_of_hasKey_of_ascending h)

theorem findCell_append {a t : Symbol} {l k : List Cell} :
    findCell a t (l ++ k) = (findCell a t l).or (findCell a t k) := by
  induction l with
  | nil => rfl
  | cons c l ih =>
    simp only [List.cons_append, findCell]
    split
    · rfl
    · exact ih

theorem find?_eq_some_iff {m : CellMap} {a t : Symbol} {r : List Symbol} :
    m.find? a t = some r ↔ ⟨a, t, r⟩ ∈ m.toList :=
  findCell_eq_some_iff m.ascending

theorem find?_insert {m : CellMap} {c : Cell} {a t : Symbol} :
    (m.insert c).find? a t = if c.HasKey a t then some c.right else m.find? a t := by
  obtain ⟨l, h⟩ := m
  simp only [find?, insert]
  clear h
  induction l with
  | nil => rfl
  | cons d l ih =>
    simp only [insertCell]
    split
    · rfl
    · split
      · next hdc =>
        simp only [findCell, ih]
        split
        · next hd =>
          obtain ⟨rfl, rfl⟩ := hd
          rw [if_neg hdc.not_hasKey]
        · rfl
      · next hcd hdc =>
        obtain ⟨ha, ht⟩ := Cell.hasKey_of_not_precedes hcd hdc
        by_cases hk : c.nonTerminal = a ∧ c.terminal = t <;>
          simp [findCell, Cell.HasKey, ha, ht, hk]

end CellMap

end PredictiveParsing
