/-!
# Lists cut at an element

A list is cut at the first element of a kind (`exists_cut_at_first`), or at an element of which it
depends on those before it whether it is of the kind (`FirstSuch`); the place is unique. A cut of a
list that is put together from lists is a cut of one of these (`exists_cut_of_flatMap`). A list is
read item by item if each of its items can be read (`mapM_eq_some_map`).
-/
namespace PredictiveParsing

theorem exists_cut_at_first {α : Type} {p : α → Prop} {l : List α} (h : ∃ x ∈ l, p x) :
    ∃ before x after, l = before ++ x :: after ∧ (∀ y ∈ before, ¬ p y) ∧ p x := by
  classical
  obtain ⟨y, hy, hpy⟩ := h
  have hsome : (l.find? fun x => p x).isSome = true :=
    List.find?_isSome.2 ⟨y, hy, decide_eq_true hpy⟩
  obtain ⟨x, hx⟩ := Option.isSome_iff_exists.1 hsome
  obtain ⟨hpx, before, after, rfl, hbefore⟩ := List.find?_eq_some_iff_append.1 hx
  exact ⟨before, x, after, rfl, fun z hz => by simpa using hbefore z hz, of_decide_eq_true hpx⟩

/-- The first element of a list for which something holds that may depend on what stands before. -/
structure FirstSuch {α : Type} (P : List α → α → Prop) (l before : List α) (x : α) : Prop where
  split : ∃ after, l = before ++ x :: after
  holds : P before x
  not_before : ∀ u y v, before = u ++ y :: v → ¬ P u y

namespace FirstSuch

variable {α : Type} {P : List α → α → Prop} {l before before' more : List α} {x x' : α}

theorem more_eq_nil (h : FirstSuch P l before x) (h' : FirstSuch P l (before ++ more) x') :
    more = [] ∧ x = x' := by
  obtain ⟨after, rfl⟩ := h.split
  obtain ⟨after', hsplit⟩ := h'.split
  rw [List.append_assoc, List.append_cancel_left_eq] at hsplit
  cases more with
  | nil => exact ⟨rfl, (List.cons.inj hsplit).1⟩
  | cons y more =>
    obtain ⟨rfl, -⟩ := List.cons.inj hsplit
    exact absurd h.holds (h'.not_before before x more rfl)

theorem unique (h : FirstSuch P l before x) (h' : FirstSuch P l before' x') :
    before = before' ∧ x = x' := by
  obtain ⟨after, hl⟩ := h.split
  obtain ⟨after', hl'⟩ := h'.split
  rcases List.append_eq_append_iff.1 (hl.symm.trans hl') with ⟨more, rfl, -⟩ | ⟨more, rfl, -⟩
  · obtain ⟨rfl, hx⟩ := h.more_eq_nil h'
    exact ⟨(List.append_nil before).symm, hx⟩
  · obtain ⟨rfl, hx⟩ := h'.more_eq_nil h
    exact ⟨List.append_nil before', hx.symm⟩

end FirstSuch

theorem exists_firstSuch {α : Type} {p : α → Prop} {l : List α} (h : ∃ x ∈ l, p x) :
    ∃ before x, FirstSuch (fun _ => p) l before x := by
  obtain ⟨before, x, after, rfl, hbefore, hx⟩ := exists_cut_at_first h
  refine ⟨before, x, ⟨after, rfl⟩, hx, ?_⟩
  rintro u y v rfl
  exact hbefore y (List.mem_append_right u List.mem_cons_self)

theorem exists_cut_of_flatMap {α β : Type} {f : α → List β} {l : List α} {u v : List β} {x : β}
    (h : l.flatMap f = u ++ x :: v) : ∃ earlier a later before after,
      l = earlier ++ a :: later ∧ f a = before ++ x :: after ∧ u = earlier.flatMap f ++ before := by
  induction l generalizing u with
  | nil => exact absurd h (by simp)
  | cons a l ih =>
    rw [List.flatMap_cons] at h
    rcases List.append_eq_append_iff.1 h with ⟨c, rfl, hl⟩ | ⟨c, hc, hl⟩
    · obtain ⟨earlier, b, later, before, after, rfl, hb, rfl⟩ := ih hl
      exact ⟨a :: earlier, b, later, before, after, rfl, hb, by simp⟩
    · cases c with
      | nil =>
        obtain ⟨earlier, b, later, before, after, rfl, hb, hu⟩ := ih (u := []) hl.symm
        obtain ⟨hearlier, rfl⟩ := List.append_eq_nil_iff.1 hu.symm
        refine ⟨a :: earlier, b, later, [], after, rfl, hb, ?_⟩
        rw [List.flatMap_cons, hearlier, hc, List.append_nil, List.append_nil, List.append_nil]
      | cons y c =>
        obtain ⟨rfl, -⟩ := List.cons.inj hl
        exact ⟨[], a, l, u, c, rfl, hc, rfl⟩

theorem mapM_eq_some_map {α β : Type} {f : α → Option β} {g : α → β} {l : List α}
    (h : ∀ x ∈ l, f x = some (g x)) : l.mapM f = some (l.map g) := by
  induction l with
  | nil => rfl
  | cons x l ih =>
    obtain ⟨hx, hl⟩ := List.forall_mem_cons.1 h
    simp [List.mapM_cons, hx, ih hl]

end PredictiveParsing
