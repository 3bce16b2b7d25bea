import Mathlib.Data.List.Sort
import Mathlib.Tactic.ByContra
import PredictiveParsing.Analysis
import PredictiveParsing.Symbol

/-!
# Saturation of sets and families

`Grows` says what is needed of the single step of a sweep: it keeps an invariant, a reported change
makes some size grow, and without one the value stays. Sweeping until nothing changes then ends in
a value that no step changes any more (`Grows.saturate`). The sizes are those of sets of symbols,
and for a family the sum of them (`total`).
-/
namespace PredictiveParsing

structure Grows {α β : Type} (step : α → β → Progress α) (items : List β) (Good : α → Prop)
    (size : α → Nat) : Prop where
  keeps : ∀ a, Good a → ∀ b ∈ items, Good (step a b).value
  grows : ∀ a, Good a → ∀ b ∈ items, (step a b).changed = true → size a < size (step a b).value
  stays : ∀ a, Good a → ∀ b ∈ items, (step a b).changed = false → (step a b).value = a

theorem sweep_cons {α β : Type} {step : α → β → Progress α} {b : β} {items : List β} {a : α} :
    sweep step (b :: items) a =
      ⟨(sweep step items (step a b).value).value,
        (step a b).changed || (sweep step items (step a b).value).changed⟩ := by
  have fold (l : List β) (p : Progress α) :
      l.foldl (fun p b => let q := step p.value b; ⟨q.value, p.changed || q.changed⟩) p =
        ⟨(sweep step l p.value).value, p.changed || (sweep step l p.value).changed⟩ := by
    induction l generalizing p with
    | nil => simp [sweep]
    | cons c l ih =>
      rw [sweep, List.foldl_cons, List.foldl_cons, ih, ih]
      simp only [Bool.false_or, Bool.or_assoc]
  exact fold items ⟨(step a b).value, false || (step a b).changed⟩

namespace Grows

variable {α β : Type} {step : α → β → Progress α} {items : List β} {Good : α → Prop}
  {size : α → Nat}

theorem of_subset {some : List β} (h : Grows step items Good size) (hsub : some ⊆ items) :
    Grows step some Good size :=
  ⟨fun a ha b hb => h.keeps a ha b (hsub hb), fun a ha b hb => h.grows a ha b (hsub hb),
    fun a ha b hb => h.stays a ha b (hsub hb)⟩

theorem tail {b : β} (h : Grows step (b :: items) Good size) : Grows step items Good size :=
  h.of_subset (List.subset_cons_self b items)

theorem sweep_keeps (h : Grows step items Good size) {a : α} (ha : Good a) :
    Good (sweep step items a).value := by
  induction items generalizing a with
  | nil => exact ha
  | cons b items ih =>
    rw [sweep_cons]
    exact ih h.tail (h.keeps a ha b List.mem_cons_self)

/-- Without a reported change no step of the round has changed anything. -/
theorem sweep_stays (h : Grows step items Good size) {a : α} (ha : Good a)
    (hc : (sweep step items a).changed = false) :
    (sweep step items a).value = a ∧ ∀ b ∈ items, (step a b).changed = false := by
  induction items generalizing a with
  | nil => exact ⟨rfl, fun b hb => absurd hb List.not_mem_nil⟩
  | cons b items ih =>
    rw [sweep_cons] at hc ⊢
    obtain ⟨hb, hrest⟩ := Bool.or_eq_false_iff.1 hc
    have hv := h.stays a ha b List.mem_cons_self hb
    rw [hv] at hrest ⊢
    obtain ⟨hvalue, hall⟩ := ih h.tail ha hrest
    exact ⟨hvalue, List.forall_mem_cons.2 ⟨hb, hall⟩⟩

theorem sweep_advances {R : α → α → Prop} (h : Grows step items Good size)
    (trans : ∀ a b c, R a b → R b c → R a c)
    (advances : ∀ a, Good a → ∀ b ∈ items, (step a b).changed = true → R a (step a b).value) {a : α}
    (ha : Good a) (hc : (sweep step items a).changed = true) :
    R a (sweep step items a).value := by
  induction items generalizing a with
  | nil => exact absurd hc Bool.false_ne_true
  | cons b items ih =>
    rw [sweep_cons] at hc ⊢
    have hb := h.keeps a ha b List.mem_cons_self
    have htail : ∀ a, Good a → ∀ c ∈ items, (step a c).changed = true → R a (step a c).value :=
      fun a ha c hc => advances a ha c (List.mem_cons_of_mem b hc)
    cases hs : (step a b).changed with
    | false =>
      have hv := h.stays a ha b List.mem_cons_self hs
      rw [hv] at hc ⊢
      exact ih h.tail htail ha (by simpa only [hs, Bool.false_or] using hc)
    | true =>
      have hab := advances a ha b List.mem_cons_self hs
      cases hr : (sweep step items (step a b).value).changed with
      | false =>
        rw [(h.tail.sweep_stays hb hr).1]
        exact hab
      | true => exact trans _ _ _ hab (ih h.tail htail hb hr)

theorem sweep_grows (h : Grows step items Good size) {a : α} (ha : Good a)
    (hc : (sweep step items a).changed = true) : size a < size (sweep step items a).value :=
  h.sweep_advances (R := fun a b => size a < size b) (fun _ _ _ => Nat.lt_trans) h.grows ha hc

theorem saturate (h : Grows step items Good size) (bound : Nat)
    (bounded : ∀ a, Good a → size a ≤ bound) {n : Nat} {a : α} (ha : Good a)
    (hn : bound < size a + n) :
    Good (saturate (sweep step items) n a) ∧ ∀ b ∈ items,
      (step (PredictiveParsing.saturate (sweep step items) n a) b).changed = false := by
  obtain ⟨hgood, hlast⟩ := saturate_settled (fun a ha => h.sweep_keeps ha)
    (fun a ha hc => h.sweep_grows ha hc) (fun a ha hc => (h.sweep_stays ha hc).1) bounded ha hn
  exact ⟨hgood, (h.sweep_stays hgood (congrArg Progress.changed hlast)).2⟩

end Grows

namespace SymbolSet

theorem ext {s t : SymbolSet} (h : ∀ a, a ∈ s ↔ a ∈ t) : s = t := by
  obtain ⟨l, hl⟩ := s
  obtain ⟨m, hm⟩ := t
  obtain rfl : l = m := hl.eq_of_mem_iff hm h
  rfl

theorem nodup {s : SymbolSet} : s.toList.Nodup :=
  s.ascending.imp fun h => Char.ne_of_lt h

theorem size_le_of_subset {s t : SymbolSet} (h : s ⊆ t) : s.size ≤ t.size :=
  s.nodup.length_le_of_subset h

instance : HasSSubset SymbolSet := ⟨fun s t => s ⊆ t ∧ ∃ a ∈ t, a ∉ s⟩

theorem ssubset_of_ssubset_of_subset {s t u : SymbolSet} (h : s ⊂ t) (h' : t ⊆ u) : s ⊂ u := by
  obtain ⟨hst, a, ht, hs⟩ := h
  exact ⟨fun x hx => h' x (hst x hx), a, h' a ht, hs⟩

theorem ssubset_trans {s t u : SymbolSet} (h : s ⊂ t) (h' : t ⊂ u) : s ⊂ u :=
  ssubset_of_ssubset_of_subset h h'.1

theorem ssubset_insert {s : SymbolSet} {a : Symbol} (h : a ∉ s) : s ⊂ s.insert a :=
  ⟨fun _ hx => mem_insert.2 (.inr hx), a, mem_insert.2 (.inl rfl), h⟩

theorem size_lt_of_ssubset {s t : SymbolSet} (h : s ⊂ t) : s.size < t.size := by
  obtain ⟨hst, a, ht, hs⟩ := h
  have hsub : a :: s.toList ⊆ t.toList := List.cons_subset.2 ⟨ht, hst⟩
  exact (List.nodup_cons.2 ⟨hs, s.nodup⟩).length_le_of_subset hsub

theorem subset_of_size_eq {s t : SymbolSet} (h : s ⊆ t) (hsize : t.size = s.size) : t ⊆ s := by
  intro x hx
  by_contra hs
  have := size_lt_of_ssubset ⟨h, x, hx, hs⟩
  omega

theorem ssubset_of_size_ne {s t : SymbolSet} (h : s ⊆ t) (hsize : t.size ≠ s.size) : s ⊂ t := by
  refine ⟨h, ?_⟩
  by_contra hno
  simp only [not_exists, not_and, not_not] at hno
  exact hsize (Nat.le_antisymm (size_le_of_subset hno) (size_le_of_subset h))

theorem size_insert_le {s : SymbolSet} {a : Symbol} : (s.insert a).size ≤ s.size + 1 := by
  have hsub : (s.insert a).toList ⊆ a :: s.toList := by
    intro x hx
    rw [List.mem_cons]
    exact mem_insert.1 hx
  exact (s.insert a).nodup.length_le_of_subset hsub

end SymbolSet

namespace SetFamily

def total (f : SetFamily) : List Symbol → Nat
  | [] => 0
  | a :: l => (f.get a).size + f.total l

variable {f f' : SetFamily} {l : List Symbol} {a : Symbol}

theorem total_le {k : Nat} (h : ∀ a ∈ l, (f.get a).size ≤ k) : f.total l ≤ l.length * k := by
  induction l with
  | nil => exact Nat.zero_le _
  | cons a l ih =>
    obtain ⟨ha, hl⟩ := List.forall_mem_cons.1 h
    have := ih hl
    rw [total, List.length_cons, Nat.succ_mul]
    omega

theorem total_le_total (h : ∀ b, (f.get b).size ≤ (f'.get b).size) : f.total l ≤ f'.total l := by
  induction l with
  | nil => exact Nat.le_refl 0
  | cons b l ih => exact Nat.add_le_add (h b) ih

theorem total_lt_total (h : ∀ b, (f.get b).size ≤ (f'.get b).size) (ha : a ∈ l)
    (hlt : (f.get a).size < (f'.get a).size) : f.total l < f'.total l := by
  induction l with
  | nil => exact absurd ha List.not_mem_nil
  | cons b l ih =>
    simp only [total]
    have hb := h b
    by_cases he : a = b
    · subst he
      have := total_le_total h (l := l)
      omega
    · have := ih ((List.mem_cons.1 ha).resolve_left he)
      omega

/-- No set loses a member, and one of those in the list gains one. -/
structure Enlarged (l : List Symbol) (f f' : SetFamily) : Prop where
  keeps : ∀ a, f.get a ⊆ f'.get a
  gains : ∃ a ∈ l, f.get a ⊂ f'.get a

theorem Enlarged.trans {f'' : SetFamily} (h : Enlarged l f f') (h' : Enlarged l f' f'') :
    Enlarged l f f'' := by
  obtain ⟨a, ha, hgains⟩ := h.gains
  exact ⟨fun b x hx => h'.keeps b x (h.keeps b x hx), a, ha,
    SymbolSet.ssubset_of_ssubset_of_subset hgains (h'.keeps a)⟩

theorem Enlarged.total_lt (h : Enlarged l f f') : f.total l < f'.total l := by
  obtain ⟨a, ha, hgains⟩ := h.gains
  exact total_lt_total (fun b => SymbolSet.size_le_of_subset (h.keeps b)) ha
    (SymbolSet.size_lt_of_ssubset hgains)

theorem enlarged_set {s : SymbolSet} (ha : a ∈ l) (hs : f.get a ⊂ s) :
    Enlarged l f (f.set a s) := by
  refine ⟨fun b => ?_, a, ha, by rwa [get_set_self]⟩
  rw [get_set]
  split
  · next h => exact h ▸ hs.1
  · exact fun _ hx => hx

end SetFamily

end PredictiveParsing
