/-!
Grammar symbols are single characters. Two of them are set apart: the end marker, which closes
every input, and the sign for the empty string, which stands in written sets and as the leaf of an
empty right side. No grammar may use either as a symbol of its own. Sets of symbols are kept as
strictly ascending lists, so that showing a set is showing its list. In a family each of finitely
many symbols has a set, and symbols without an entry have the empty one.
-/
namespace PredictiveParsing

abbrev Symbol := Char

def endMark : Symbol := '$'

def epsilon : Symbol := 'ε'

theorem endMark_ne_epsilon : endMark ≠ epsilon := by decide

/-! ## Sets of symbols -/

structure SymbolSet where
  toList : List Symbol
  ascending : toList.Pairwise (· < ·)
deriving DecidableEq

namespace SymbolSet

def insertAscending (a : Symbol) : List Symbol → List Symbol
  | [] => [a]
  | b :: l =>
    if a < b then a :: b :: l
    else if a = b then b :: l
    else b :: insertAscending a l

theorem mem_insertAscending {a x : Symbol} {l : List Symbol} :
    x ∈ insertAscending a l ↔ x = a ∨ x ∈ l := by
  induction l with
  | nil => simp [insertAscending]
  | cons b l ih =>
    simp only [insertAscending]
    split
    · simp
    · split
      · next h => subst h; simp
      · simp only [List.mem_cons, ih]
        grind

theorem insertAscending_ascending {a : Symbol} {l : List Symbol} (h : l.Pairwise (· < ·)) :
    (insertAscending a l).Pairwise (· < ·) := by
  induction l with
  | nil => simp [insertAscending]
  | cons b l ih =>
    obtain ⟨hb, hl⟩ := List.pairwise_cons.1 h
    simp only [insertAscending]
    split
    · next hab =>
      refine List.pairwise_cons.2 ⟨fun x hx => ?_, h⟩
      rcases List.mem_cons.1 hx with rfl | hx
      · exact hab
      · exact Char.lt_trans hab (hb x hx)
    · split
      · exact h
      · next hab hne =>
        refine List.pairwise_cons.2 ⟨fun x hx => ?_, ih hl⟩
        rcases mem_insertAscending.1 hx with rfl | hx
        · exact Std.lt_of_le_of_ne (Char.not_lt.1 hab) (Ne.symm hne)
        · exact hb x hx

instance : Membership Symbol SymbolSet := ⟨fun s a => a ∈ s.toList⟩

instance (a : Symbol) (s : SymbolSet) : Decidable (a ∈ s) :=
  inferInstanceAs (Decidable (a ∈ s.toList))

@[simp] theorem mem_toList {a : Symbol} {s : SymbolSet} : a ∈ s.toList ↔ a ∈ s := Iff.rfl

def empty : SymbolSet := ⟨[], List.Pairwise.nil⟩

instance : EmptyCollection SymbolSet := ⟨empty⟩

def insert (s : SymbolSet) (a : Symbol) : SymbolSet :=
  ⟨insertAscending a s.toList, insertAscending_ascending s.ascending⟩

def ofList (l : List Symbol) : SymbolSet := l.foldr (fun a s => s.insert a) ∅

def union (s t : SymbolSet) : SymbolSet := t.toList.foldr (fun a u => u.insert a) s

instance : Union SymbolSet := ⟨union⟩

def unions (l : List SymbolSet) : SymbolSet := l.foldr (· ∪ ·) ∅

def filter (p : Symbol → Bool) (s : SymbolSet) : SymbolSet :=
  ⟨s.toList.filter p, s.ascending.filter p⟩

def size (s : SymbolSet) : Nat := s.toList.length

instance : HasSubset SymbolSet := ⟨fun s t => ∀ a, a ∈ s → a ∈ t⟩

@[simp] theorem toList_empty : (∅ : SymbolSet).toList = [] := rfl

@[simp] theorem not_mem_empty {a : Symbol} : a ∉ (∅ : SymbolSet) := List.not_mem_nil

theorem exists_mem_of_ne_empty {s : SymbolSet} (h : s ≠ ∅) : ∃ a, a ∈ s := by
  obtain ⟨l, hl⟩ := s
  cases l with
  | nil => exact absurd rfl h
  | cons a l => exact ⟨a, List.mem_cons_self⟩

@[simp] theorem mem_insert {a x : Symbol} {s : SymbolSet} : x ∈ s.insert a ↔ x = a ∨ x ∈ s :=
  mem_insertAscending

@[simp] theorem mem_ofList {x : Symbol} {l : List Symbol} : x ∈ ofList l ↔ x ∈ l := by
  induction l with
  | nil => exact iff_of_false not_mem_empty List.not_mem_nil
  | cons a l ih => simp only [List.mem_cons, ← ih]; exact mem_insert

@[simp] theorem mem_union {x : Symbol} {s t : SymbolSet} : x ∈ s ∪ t ↔ x ∈ s ∨ x ∈ t := by
  have fold (l : List Symbol) :
      x ∈ l.foldr (fun a (u : SymbolSet) => u.insert a) s ↔ x ∈ s ∨ x ∈ l := by
    induction l with
    | nil => simp
    | cons a l ih => simp only [List.foldr_cons, mem_insert, ih, List.mem_cons]; grind
  exact fold t.toList

theorem mem_unions {x : Symbol} {l : List SymbolSet} : x ∈ unions l ↔ ∃ s ∈ l, x ∈ s := by
  induction l with
  | nil => exact iff_of_false not_mem_empty (by simp)
  | cons s l ih =>
    change x ∈ s ∪ unions l ↔ _
    rw [mem_union, ih]
    simp

@[simp] theorem mem_filter {x : Symbol} {p : Symbol → Bool} {s : SymbolSet} :
    x ∈ s.filter p ↔ x ∈ s ∧ p x = true :=
  List.mem_filter

end SymbolSet

/-! ## Families of sets -/

structure SetFamily where
  entries : List (Symbol × SymbolSet)
deriving DecidableEq

namespace SetFamily

def empty : SetFamily := ⟨[]⟩

instance : EmptyCollection SetFamily := ⟨empty⟩

def lookupEntry (a : Symbol) : List (Symbol × SymbolSet) → SymbolSet
  | [] => ∅
  | (b, s) :: l => if a = b then s else lookupEntry a l

def replaceEntry (a : Symbol) (s : SymbolSet) :
    List (Symbol × SymbolSet) → List (Symbol × SymbolSet)
  | [] => [(a, s)]
  | (b, t) :: l => if a = b then (a, s) :: l else (b, t) :: replaceEntry a s l

def get (f : SetFamily) (a : Symbol) : SymbolSet := lookupEntry a f.entries

def set (f : SetFamily) (a : Symbol) (s : SymbolSet) : SetFamily := ⟨replaceEntry a s f.entries⟩

@[simp] theorem get_empty {a : Symbol} : (∅ : SetFamily).get a = ∅ := rfl

theorem get_set {f : SetFamily} {a b : Symbol} {s : SymbolSet} :
    (f.set a s).get b = if b = a then s else f.get b := by
  obtain ⟨entries⟩ := f
  simp only [get, set]
  induction entries with
  | nil => simp [replaceEntry, lookupEntry]
  | cons e l ih =>
    obtain ⟨c, t⟩ := e
    simp only [replaceEntry]
    split
    · next h => subst h; simp only [lookupEntry]; split <;> rfl
    · next h =>
      simp only [lookupEntry]
      split
      · next hbc => subst hbc; rw [if_neg (fun hba => h hba.symm)]
      · exact ih

@[simp] theorem get_set_self {f : SetFamily} {a : Symbol} {s : SymbolSet} :
    (f.set a s).get a = s := by
  simp [get_set]

end SetFamily

end PredictiveParsing
