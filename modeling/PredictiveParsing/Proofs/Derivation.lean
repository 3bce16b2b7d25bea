import Mathlib.Logic.Relation
import PredictiveParsing.Grammar.Basic

/-!
# Derivations

A production replaces one occurrence of its left side by its right side. `Derives` is any number of
such steps, `LeftDerives` the steps that leave only terminals before the symbol they replace. A
word is a string of terminals. `Spells` derives a word from left to right, one symbol of the string
after the other, which is the order in which a stack is worked off; it tells the same words as
`Derives` (`spells_iff`).
-/
namespace PredictiveParsing

namespace Grammar

variable {g : Grammar}

inductive Produces (g : Grammar) : List Symbol → List Symbol → Prop where
  | step {p : Production} (u v : List Symbol) :
      p ∈ g.productions → Produces g (u ++ p.left :: v) (u ++ (p.right ++ v))

abbrev Derives (g : Grammar) : List Symbol → List Symbol → Prop :=
  Relation.ReflTransGen g.Produces

def Word (g : Grammar) (w : List Symbol) : Prop := ∀ s ∈ w, s ∈ g.terminals

inductive LeftProduces (g : Grammar) : List Symbol → List Symbol → Prop where
  | step {p : Production} {w : List Symbol} (v : List Symbol) :
      g.Word w → p ∈ g.productions → LeftProduces g (w ++ p.left :: v) (w ++ (p.right ++ v))

abbrev LeftDerives (g : Grammar) : List Symbol → List Symbol → Prop :=
  Relation.ReflTransGen g.LeftProduces

inductive Spells (g : Grammar) : List Symbol → List Symbol → Prop where
  | nil : Spells g [] []
  | terminal {t : Symbol} {α w : List Symbol} :
      t ∈ g.terminals → Spells g α w → Spells g (t :: α) (t :: w)
  | expand {p : Production} {α w : List Symbol} :
      p ∈ g.productions → Spells g (p.right ++ α) w → Spells g (p.left :: α) w

def Sentence (g : Grammar) (w : List Symbol) : Prop := g.Word w ∧ g.Derives [g.start] w

def Productive (g : Grammar) (a : Symbol) : Prop := ∃ w, g.Word w ∧ g.Derives [a] w

theorem not_declares_endMark : ¬ g.Declares endMark := by
  have ha := g.wellFormed.alphabets
  intro hd
  rcases hd with h | h
  · exact ha.terminals_free endMark h List.mem_cons_self
  · exact ha.nonTerminals_free endMark h List.mem_cons_self

theorem ne_epsilon_of_mem_terminals {s : Symbol} (hs : s ∈ g.terminals) : s ≠ epsilon := by
  intro e
  exact g.wellFormed.alphabets.terminals_free s hs (by rw [e]; decide)

theorem not_mem_terminals_of_mem_nonTerminals {a : Symbol} (h : a ∈ g.nonTerminals) :
    a ∉ g.terminals := fun ht => g.wellFormed.alphabets.disjoint a ht h

theorem declares_singleton {a : Symbol} (h : a ∈ g.nonTerminals) : ∀ s ∈ [a], g.Declares s :=
  List.forall_mem_singleton.2 (.inr h)

@[simp] theorem word_nil : g.Word [] := fun _ h => absurd h List.not_mem_nil

@[simp] theorem word_cons {s : Symbol} {w : List Symbol} :
    g.Word (s :: w) ↔ s ∈ g.terminals ∧ g.Word w := List.forall_mem_cons

@[simp] theorem word_append {u v : List Symbol} : g.Word (u ++ v) ↔ g.Word u ∧ g.Word v :=
  List.forall_mem_append

theorem produces_singleton {a : Symbol} {β : List Symbol} :
    g.Produces [a] β ↔ ⟨a, β⟩ ∈ g.productions := by
  constructor
  · intro h
    generalize hα : [a] = α at h
    obtain ⟨u, v, hp⟩ := h
    obtain ⟨rfl, e⟩ | ⟨-, e⟩ := List.singleton_eq_append_iff.1 hα
    · obtain ⟨rfl, rfl⟩ := List.cons.inj e
      rwa [List.append_nil]
    · cases e
  · intro hp
    simpa using Produces.step [] [] hp

theorem Produces.append_left {α β : List Symbol} (h : g.Produces α β) (u : List Symbol) :
    g.Produces (u ++ α) (u ++ β) := by
  obtain ⟨x, v, hp⟩ := h
  simpa only [List.append_assoc] using Produces.step (u ++ x) v hp

theorem Produces.append_right {α β : List Symbol} (h : g.Produces α β) (v : List Symbol) :
    g.Produces (α ++ v) (β ++ v) := by
  obtain ⟨u, x, hp⟩ := h
  simpa only [List.append_assoc, List.cons_append] using Produces.step u (x ++ v) hp

theorem Derives.append_left {α β : List Symbol} (h : g.Derives α β) (u : List Symbol) :
    g.Derives (u ++ α) (u ++ β) :=
  h.lift (u ++ ·) fun _ _ hs => hs.append_left u

theorem Derives.append_right {α β : List Symbol} (h : g.Derives α β) (v : List Symbol) :
    g.Derives (α ++ v) (β ++ v) :=
  h.lift (· ++ v) fun _ _ hs => hs.append_right v

theorem Derives.append {α α' β β' : List Symbol} (h : g.Derives α α') (h' : g.Derives β β') :
    g.Derives (α ++ β) (α' ++ β') :=
  (h.append_right β).trans (h'.append_left α')

theorem derives_of_mem {p : Production} (hp : p ∈ g.productions) (v : List Symbol) :
    g.Derives (p.left :: v) (p.right ++ v) :=
  Relation.ReflTransGen.single (Produces.step [] v hp)

theorem LeftProduces.produces {α β : List Symbol} (h : g.LeftProduces α β) : g.Produces α β := by
  obtain ⟨v, _, hp⟩ := h
  exact Produces.step _ v hp

theorem LeftDerives.derives {α β : List Symbol} (h : g.LeftDerives α β) : g.Derives α β :=
  Relation.ReflTransGen.mono (fun _ _ hs => hs.produces) _ _ h

theorem LeftProduces.append_right {α β : List Symbol} (h : g.LeftProduces α β) (v : List Symbol) :
    g.LeftProduces (α ++ v) (β ++ v) := by
  obtain ⟨x, hw, hp⟩ := h
  simpa only [List.append_assoc, List.cons_append] using LeftProduces.step (x ++ v) hw hp

theorem LeftProduces.append_left {α β w : List Symbol} (h : g.LeftProduces α β)
    (hw : g.Word w) : g.LeftProduces (w ++ α) (w ++ β) := by
  obtain ⟨v, hx, hp⟩ := h
  simpa only [List.append_assoc] using LeftProduces.step v (word_append.2 ⟨hw, hx⟩) hp

theorem LeftDerives.append_right {α β : List Symbol} (h : g.LeftDerives α β) (v : List Symbol) :
    g.LeftDerives (α ++ v) (β ++ v) :=
  h.lift (· ++ v) fun _ _ hs => hs.append_right v

theorem LeftDerives.append_left {α β w : List Symbol} (h : g.LeftDerives α β) (hw : g.Word w) :
    g.LeftDerives (w ++ α) (w ++ β) :=
  h.lift (w ++ ·) fun _ _ hs => hs.append_left hw

theorem Derives.declares {α β : List Symbol} (h : g.Derives α β)
    (hα : ∀ s ∈ α, g.Declares s) : ∀ s ∈ β, g.Declares s := by
  induction h with
  | refl => exact hα
  | tail _ hs ih =>
    obtain ⟨u, v, hp⟩ := hs
    simp only [List.forall_mem_append, List.forall_mem_cons] at ih ⊢
    exact ⟨ih.1, g.wellFormed.right_declared _ hp, ih.2.2⟩

theorem Derives.declares_of_start {α : List Symbol} (h : g.Derives [g.start] α) :
    ∀ s ∈ α, g.Declares s :=
  h.declares (declares_singleton g.wellFormed.start_mem)

theorem Spells.word {α w : List Symbol} (h : g.Spells α w) : g.Word w := by
  induction h with
  | nil => exact word_nil
  | terminal ht _ ih => exact word_cons.2 ⟨ht, ih⟩
  | expand _ _ ih => exact ih

theorem Spells.leftDerives {α w : List Symbol} (h : g.Spells α w) : g.LeftDerives α w := by
  induction h with
  | nil => exact Relation.ReflTransGen.refl
  | terminal ht _ ih => exact ih.append_left (word_cons.2 ⟨ht, word_nil⟩)
  | expand hp _ ih => exact Relation.ReflTransGen.head (LeftProduces.step _ word_nil hp) ih

theorem Spells.of_word {w : List Symbol} (h : g.Word w) : g.Spells w w := by
  induction w with
  | nil => exact .nil
  | cons s w ih =>
    obtain ⟨hs, hw⟩ := word_cons.1 h
    exact .terminal hs (ih hw)

theorem Spells.append {α β w x : List Symbol} (h : g.Spells α w) (h' : g.Spells β x) :
    g.Spells (α ++ β) (w ++ x) := by
  induction h with
  | nil => exact h'
  | terminal ht _ ih => exact .terminal ht ih
  | expand hp _ ih =>
    rw [List.append_assoc] at ih
    exact .expand hp ih

theorem Spells.contract {p : Production} (hp : p ∈ g.productions) {γ w : List Symbol}
    (h : g.Spells γ w) {u v : List Symbol} (hγ : γ = u ++ (p.right ++ v)) :
    g.Spells (u ++ p.left :: v) w := by
  -- the induction follows the derivation up to the place of the replacement
  induction h generalizing u with
  | nil =>
    obtain ⟨rfl, hv⟩ := List.append_eq_nil_iff.1 hγ.symm
    exact .expand hp (by rw [hv]; exact .nil)
  | terminal ht hα ih =>
    cases u with
    | nil => exact .expand hp (hγ ▸ .terminal ht hα)
    | cons s u =>
      obtain ⟨rfl, rfl⟩ := List.cons.inj hγ
      exact .terminal ht (ih rfl)
  | expand hq hα ih =>
    cases u with
    | nil => exact .expand hp (hγ ▸ .expand hq hα)
    | cons s u =>
      obtain ⟨rfl, rfl⟩ := List.cons.inj hγ
      have hu := ih (List.append_assoc _ u _).symm
      rw [List.append_assoc] at hu
      exact .expand hq hu

theorem spells_iff {α w : List Symbol} : g.Spells α w ↔ g.Word w ∧ g.Derives α w := by
  constructor
  · intro h
    exact ⟨h.word, h.leftDerives.derives⟩
  · intro ⟨hw, h⟩
    induction h using Relation.ReflTransGen.head_induction_on with
    | refl => exact .of_word hw
    | head hs _ ih =>
      obtain ⟨u, v, hp⟩ := hs
      exact ih.contract hp rfl

theorem exists_spells (hprod : ∀ a ∈ g.nonTerminals, g.Productive a) {α : List Symbol}
    (hα : ∀ s ∈ α, g.Declares s) : ∃ w, g.Spells α w := by
  induction α with
  | nil => exact ⟨[], .nil⟩
  | cons s α ih =>
    obtain ⟨hs, hrest⟩ := List.forall_mem_cons.1 hα
    obtain ⟨w, hw⟩ := ih hrest
    rcases hs with hterm | hnon
    · exact ⟨s :: w, .terminal hterm hw⟩
    · obtain ⟨u, hu⟩ := hprod s hnon
      exact ⟨u ++ w, (spells_iff.2 hu).append hw⟩

end Grammar

end PredictiveParsing
