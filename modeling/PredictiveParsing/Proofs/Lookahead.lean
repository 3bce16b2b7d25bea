import PredictiveParsing.Proofs.Derivation

/-!
# What a string can show next

Three least relations, without order or rounds: `Vanishes` of the strings that derive the empty
string, `Begins` of the terminals that a string can begin with, and `Follows` of what can stand
right after a non-terminal. The first two say what derivations do (`vanishes_iff_derives`,
`begins_iff_derives`).

`Ahead α E` are the symbols that can come next while `α` is still to be read and `E` comes behind
it. A string is `Followed` when `Follows` knows what can be ahead behind each of its non-terminals;
this survives every replacement (`Followed.derives`).
-/
namespace PredictiveParsing

namespace Grammar

variable {g : Grammar}

inductive Vanishes (g : Grammar) : List Symbol → Prop where
  | nil : Vanishes g []
  | cons {p : Production} {α : List Symbol} :
      p ∈ g.productions → Vanishes g p.right → Vanishes g α → Vanishes g (p.left :: α)

inductive Begins (g : Grammar) : List Symbol → Symbol → Prop where
  | terminal {t : Symbol} {α : List Symbol} : t ∈ g.terminals → Begins g (t :: α) t
  | expand {p : Production} {α : List Symbol} {t : Symbol} :
      p ∈ g.productions → Begins g p.right t → Begins g (p.left :: α) t
  | skip {a : Symbol} {α : List Symbol} {t : Symbol} :
      g.Vanishes [a] → Begins g α t → Begins g (a :: α) t

inductive Follows (g : Grammar) : Symbol → Symbol → Prop where
  | start : Follows g g.start endMark
  | next {a b t : Symbol} {u v : List Symbol} :
      ⟨b, u ++ a :: v⟩ ∈ g.productions → a ∈ g.nonTerminals → g.Begins v t → Follows g a t
  | inherit {a b t : Symbol} {u v : List Symbol} :
      ⟨b, u ++ a :: v⟩ ∈ g.productions → a ∈ g.nonTerminals → g.Vanishes v → Follows g b t →
      Follows g a t

def Ahead (g : Grammar) (α : List Symbol) (E : Symbol → Prop) (t : Symbol) : Prop :=
  g.Begins α t ∨ g.Vanishes α ∧ E t

def Predicts (g : Grammar) (p : Production) : Symbol → Prop := g.Ahead p.right (g.Follows p.left)

def Followed (g : Grammar) (E : Symbol → Prop) : List Symbol → Prop
  | [] => True
  | a :: α => (a ∈ g.nonTerminals → ∀ t, g.Ahead α E t → g.Follows a t) ∧ Followed g E α

theorem vanishes_append {u v : List Symbol} :
    g.Vanishes (u ++ v) ↔ g.Vanishes u ∧ g.Vanishes v := by
  constructor
  · intro h
    generalize e : u ++ v = α at h
    induction h generalizing u with
    | nil =>
      obtain ⟨rfl, rfl⟩ := List.append_eq_nil_iff.1 e
      exact ⟨.nil, .nil⟩
    | cons hp hr hα _ ih =>
      cases u with
      | nil =>
        obtain rfl : v = _ := e
        exact ⟨.nil, .cons hp hr hα⟩
      | cons s u =>
        obtain ⟨rfl, rfl⟩ := List.cons.inj e
        obtain ⟨hu, hv⟩ := ih rfl
        exact ⟨.cons hp hr hu, hv⟩
  · intro ⟨hu, hv⟩
    induction hu with
    | nil => exact hv
    | cons hp hr _ _ ih => exact .cons hp hr ih

theorem vanishes_cons {a : Symbol} {α : List Symbol} :
    g.Vanishes (a :: α) ↔ g.Vanishes [a] ∧ g.Vanishes α :=
  vanishes_append (u := [a])

theorem vanishes_iff_forall {α : List Symbol} : g.Vanishes α ↔ ∀ s ∈ α, g.Vanishes [s] := by
  induction α with
  | nil => exact iff_of_true .nil fun _ h => absurd h List.not_mem_nil
  | cons a α ih => rw [vanishes_cons, ih, List.forall_mem_cons]

theorem vanishes_singleton {a : Symbol} :
    g.Vanishes [a] ↔ ∃ r, ⟨a, r⟩ ∈ g.productions ∧ g.Vanishes r := by
  constructor
  · intro h
    cases h with
    | cons hp hr _ => exact ⟨_, hp, hr⟩
  · intro ⟨r, hp, hr⟩
    exact .cons hp hr .nil

theorem begins_append {u v : List Symbol} {t : Symbol} :
    g.Begins (u ++ v) t ↔ g.Begins u t ∨ g.Vanishes u ∧ g.Begins v t := by
  constructor
  · intro h
    generalize e : u ++ v = α at h
    induction h generalizing u with
    | terminal ht =>
      cases u with
      | nil =>
        obtain rfl : v = _ := e
        exact .inr ⟨.nil, .terminal ht⟩
      | cons s u =>
        obtain ⟨rfl, rfl⟩ := List.cons.inj e
        exact .inl (.terminal ht)
    | expand hp hr _ =>
      cases u with
      | nil =>
        obtain rfl : v = _ := e
        exact .inr ⟨.nil, .expand hp hr⟩
      | cons s u =>
        obtain ⟨rfl, rfl⟩ := List.cons.inj e
        exact .inl (.expand hp hr)
    | skip ha hα ih =>
      cases u with
      | nil =>
        obtain rfl : v = _ := e
        exact .inr ⟨.nil, .skip ha hα⟩
      | cons s u =>
        obtain ⟨rfl, rfl⟩ := List.cons.inj e
        rcases ih rfl with hu | ⟨hu, hv⟩
        · exact .inl (.skip ha hu)
        · exact .inr ⟨vanishes_cons.2 ⟨ha, hu⟩, hv⟩
  · intro h
    rcases h with h | ⟨hu, hv⟩
    · induction h with
      | terminal ht => exact .terminal ht
      | expand hp hr _ => exact .expand hp hr
      | skip ha _ ih => exact .skip ha ih
    · induction hu with
      | nil => exact hv
      | cons hp hr _ _ ih => exact .skip (.cons hp hr .nil) ih

theorem begins_cons {a : Symbol} {α : List Symbol} {t : Symbol} :
    g.Begins (a :: α) t ↔ g.Begins [a] t ∨ g.Vanishes [a] ∧ g.Begins α t :=
  begins_append (u := [a])

theorem not_begins_nil {t : Symbol} : ¬ g.Begins [] t := nofun

theorem begins_singleton {a t : Symbol} (ha : a ∈ g.nonTerminals) :
    g.Begins [a] t ↔ ∃ r, ⟨a, r⟩ ∈ g.productions ∧ g.Begins r t := by
  constructor
  · intro h
    cases h with
    | terminal ht => exact absurd ht (not_mem_terminals_of_mem_nonTerminals ha)
    | expand hp hr => exact ⟨_, hp, hr⟩
    | skip _ h => exact absurd h not_begins_nil
  · intro ⟨r, hp, hr⟩
    exact .expand hp hr

theorem Begins.exists_symbol {α : List Symbol} {t : Symbol} (h : g.Begins α t) :
    ∃ u x v, α = u ++ x :: v ∧ g.Begins [x] t := by
  induction α with
  | nil => exact absurd h not_begins_nil
  | cons a α ih =>
    rcases begins_cons.1 h with ha | ⟨-, hα⟩
    · exact ⟨[], a, α, rfl, ha⟩
    · obtain ⟨u, x, v, rfl, hx⟩ := ih hα
      exact ⟨a :: u, x, v, rfl, hx⟩

theorem Begins.mem_terminals {α : List Symbol} {t : Symbol} (h : g.Begins α t) :
    t ∈ g.terminals := by
  induction h with
  | terminal ht => exact ht
  | expand _ _ ih => exact ih
  | skip _ _ ih => exact ih

theorem Follows.mem {a t : Symbol} (h : g.Follows a t) : t ∈ g.terminals ∨ t = endMark := by
  induction h with
  | start => exact .inr rfl
  | next _ _ ht => exact .inl ht.mem_terminals
  | inherit _ _ _ _ ih => exact ih

/-! ## Derivations -/

theorem Vanishes.of_produces {α β : List Symbol} (h : g.Produces α β) (hβ : g.Vanishes β) :
    g.Vanishes α := by
  obtain ⟨u, v, hp⟩ := h
  obtain ⟨hu, hrv⟩ := vanishes_append.1 hβ
  obtain ⟨hr, hv⟩ := vanishes_append.1 hrv
  exact vanishes_append.2 ⟨hu, .cons hp hr hv⟩

theorem Begins.of_produces {α β : List Symbol} {t : Symbol} (h : g.Produces α β)
    (hβ : g.Begins β t) : g.Begins α t := by
  obtain ⟨u, v, hp⟩ := h
  rcases begins_append.1 hβ with hu | ⟨hu, hrv⟩
  · exact begins_append.2 (.inl hu)
  · refine begins_append.2 (.inr ⟨hu, ?_⟩)
    rcases begins_append.1 hrv with hr | ⟨hr, hv⟩
    · exact .expand hp hr
    · exact .skip (.cons hp hr .nil) hv

theorem vanishes_iff_derives {α : List Symbol} : g.Vanishes α ↔ g.Derives α [] := by
  constructor
  · intro h
    induction h with
    | nil => exact .refl
    | cons hp _ _ ihr ihα => exact (derives_of_mem hp _).trans (ihr.append ihα)
  · intro h
    induction h using Relation.ReflTransGen.head_induction_on with
    | refl => exact .nil
    | head hs _ ih => exact .of_produces hs ih

theorem begins_iff_derives {α : List Symbol} {t : Symbol} :
    g.Begins α t ↔ t ∈ g.terminals ∧ ∃ β, g.Derives α (t :: β) := by
  constructor
  · intro h
    refine ⟨h.mem_terminals, ?_⟩
    induction h with
    | @terminal t α _ => exact ⟨α, .refl⟩
    | @expand p α t hp _ ih =>
      obtain ⟨β, hβ⟩ := ih
      exact ⟨β ++ α, (derives_of_mem hp α).trans (hβ.append_right α)⟩
    | @skip a α t ha _ ih =>
      obtain ⟨β, hβ⟩ := ih
      exact ⟨β, ((vanishes_iff_derives.1 ha).append_right α).trans hβ⟩
  · intro ⟨ht, β, h⟩
    induction h using Relation.ReflTransGen.head_induction_on with
    | refl => exact .terminal ht
    | head hs _ ih => exact .of_produces hs ih

/-! ## Followed strings -/

theorem ahead_append {u v : List Symbol} {E : Symbol → Prop} {t : Symbol} :
    g.Ahead (u ++ v) E t ↔ g.Ahead u (g.Ahead v E) t := by
  simp only [Ahead, begins_append, vanishes_append, or_assoc, and_assoc, and_or_left]

theorem Ahead.mono {α : List Symbol} {E E' : Symbol → Prop} {t : Symbol}
    (hE : ∀ s, E s → E' s) (h : g.Ahead α E t) : g.Ahead α E' t :=
  h.imp_right fun ⟨hα, ht⟩ => ⟨hα, hE t ht⟩

theorem Ahead.of_produces {α β : List Symbol} {E : Symbol → Prop} {t : Symbol}
    (h : g.Produces α β) (hβ : g.Ahead β E t) : g.Ahead α E t :=
  hβ.imp (.of_produces h) fun ⟨hv, ht⟩ => ⟨.of_produces h hv, ht⟩

theorem Ahead.of_derives {α β : List Symbol} {E : Symbol → Prop} {t : Symbol}
    (h : g.Derives α β) (hβ : g.Ahead β E t) : g.Ahead α E t := by
  induction h using Relation.ReflTransGen.head_induction_on with
  | refl => exact hβ
  | head hs _ ih => exact .of_produces hs ih

theorem Followed.mono {α : List Symbol} {E E' : Symbol → Prop} (hE : ∀ s, E s → E' s)
    (h : g.Followed E' α) : g.Followed E α := by
  induction α with
  | nil => trivial
  | cons a α ih => exact ⟨fun ha t ht => h.1 ha t (ht.mono hE), ih h.2⟩

theorem followed_append {u v : List Symbol} {E : Symbol → Prop} :
    g.Followed E (u ++ v) ↔ g.Followed (g.Ahead v E) u ∧ g.Followed E v := by
  induction u with
  | nil => exact ⟨fun h => ⟨trivial, h⟩, fun h => h.2⟩
  | cons a u ih => simp only [List.cons_append, Followed, ih, ahead_append, and_assoc]

theorem followed_singleton (a : Symbol) : g.Followed (g.Follows a) [a] :=
  ⟨fun _ _ h => h.elim (fun hb => absurd hb not_begins_nil) And.right, trivial⟩

theorem Followed.follows {u v : List Symbol} {a t : Symbol} {E : Symbol → Prop}
    (h : g.Followed E (u ++ a :: v)) (ha : a ∈ g.nonTerminals) (ht : g.Ahead v E t) :
    g.Follows a t :=
  (followed_append.1 h).2.1 ha t ht

theorem followed_right {p : Production} (hp : p ∈ g.productions) :
    g.Followed (g.Follows p.left) p.right := by
  -- the part of the right side that is already read is kept, since the rules name it
  suffices h : ∀ u v, p.right = u ++ v → g.Followed (g.Follows p.left) v from h [] p.right rfl
  intro u v e
  induction v generalizing u with
  | nil => trivial
  | cons a v ih =>
    have hmem : ⟨p.left, u ++ a :: v⟩ ∈ g.productions := e ▸ hp
    refine ⟨fun ha t ht => ?_, ih (u ++ [a]) (by rw [e, List.append_assoc]; rfl)⟩
    rcases ht with hb | ⟨hv, hf⟩
    · exact .next hmem ha hb
    · exact .inherit hmem ha hv hf

theorem Followed.expand {p : Production} {α : List Symbol} {E : Symbol → Prop}
    (hp : p ∈ g.productions) (h : g.Followed E (p.left :: α)) : g.Followed E (p.right ++ α) :=
  followed_append.2 ⟨(followed_right hp).mono (h.1 (g.wellFormed.left_mem p hp)), h.2⟩

theorem Followed.derives {α β : List Symbol} {E : Symbol → Prop} (h : g.Derives α β)
    (hα : g.Followed E α) : g.Followed E β := by
  induction h with
  | refl => exact hα
  | tail _ hs ih =>
    obtain ⟨u, v, hp⟩ := hs
    obtain ⟨hu, hv⟩ := followed_append.1 ih
    exact followed_append.2 ⟨hu.mono fun _ ht => ht.of_produces (.step [] v hp), hv.expand hp⟩

end Grammar

end PredictiveParsing
