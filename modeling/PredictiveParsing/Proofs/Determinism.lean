import PredictiveParsing.Proofs.Simulation

/-!
# One lookahead decides

`LookaheadDecides` is the definition of LL(1) by derivations: in a leftmost derivation, the first
symbol of what is still to be read determines the production for the leftmost non-terminal. The
table asks for less, that no two productions of a non-terminal are predicted by one symbol. For a
reduced grammar both are the same (`isLL1_iff_lookaheadDecides`): `Follows` covers every derivation,
and a conflict in the table arises in a single context, since a leftmost derivation leads to every
non-terminal (`exists_context`) and to everything that can follow it (`Follows.exists_context`).
-/
namespace PredictiveParsing

namespace Grammar

variable {g : Grammar}

structure Reduced (g : Grammar) : Prop where
  reachable : ∀ a ∈ g.nonTerminals, ∃ u v, g.Derives [g.start] (u ++ a :: v)
  productive : ∀ a ∈ g.nonTerminals, g.Productive a

def LookaheadDecides (g : Grammar) : Prop :=
  ∀ w a b c d x y, g.Word w → a ∈ g.nonTerminals → g.LeftDerives [g.start] (w ++ a :: b) →
    ⟨a, c⟩ ∈ g.productions → ⟨a, d⟩ ∈ g.productions → g.Word x → g.Word y →
    g.Derives (c ++ b) x → g.Derives (d ++ b) y →
    (x ++ [endMark]).head? = (y ++ [endMark]).head? → c = d

/-- A leftmost derivation leads to the symbol, with this string behind it. -/
def Context (g : Grammar) (a : Symbol) (b : List Symbol) : Prop :=
  ∃ w, g.Word w ∧ g.LeftDerives [g.start] (w ++ a :: b)

abbrev AheadOfEnd (g : Grammar) (α : List Symbol) : Symbol → Prop := g.Ahead α (· = endMark)

theorem Context.start : g.Context g.start [] := ⟨[], word_nil, .refl⟩

theorem Context.declares {a : Symbol} {b : List Symbol} (h : g.Context a b) :
    ∀ s ∈ b, g.Declares s := by
  obtain ⟨w, -, hder⟩ := h
  have hform := hder.derives.declares_of_start
  rw [List.forall_mem_append, List.forall_mem_cons] at hform
  exact hform.2.2

theorem Context.expand (hprod : ∀ a ∈ g.nonTerminals, g.Productive a) {p : Production}
    {b u v : List Symbol} {a : Symbol} (h : g.Context p.left b) (hp : p ∈ g.productions)
    (hright : p.right = u ++ a :: v) : g.Context a (v ++ b) := by
  obtain ⟨w, hw, hder⟩ := h
  have hdeclares := g.wellFormed.right_declared p hp
  rw [hright, List.forall_mem_append] at hdeclares
  -- what stands before the symbol in the right side is derived to a word first
  obtain ⟨x, hx⟩ := exists_spells hprod hdeclares.1
  refine ⟨w ++ x, word_append.2 ⟨hw, hx.word⟩, hder.trans ?_⟩
  have hexpand : g.LeftDerives (w ++ p.left :: b) (w ++ (u ++ (a :: v ++ b))) := by
    have hstep := LeftProduces.step b hw hp
    rw [hright, List.append_assoc] at hstep
    exact .single hstep
  have hbefore : g.LeftDerives (w ++ (u ++ (a :: v ++ b))) (w ++ (x ++ (a :: v ++ b))) :=
    (hx.leftDerives.append_right (a :: v ++ b)).append_left hw
  have hboth := hexpand.trans hbefore
  rw [List.append_assoc]
  exact hboth

theorem exists_context (hprod : ∀ a ∈ g.nonTerminals, g.Productive a) {γ : List Symbol}
    (h : g.Derives [g.start] γ) {a : Symbol} (ha : a ∈ γ) : ∃ b, g.Context a b := by
  induction h generalizing a with
  | refl =>
    obtain rfl := List.mem_singleton.1 ha
    exact ⟨[], .start⟩
  | tail _ hs ih =>
    obtain ⟨u, v, hp⟩ := hs
    rw [List.mem_append, List.mem_append] at ha
    rcases ha with hu | hright | hv
    · exact ih (List.mem_append_left _ hu)
    · obtain ⟨b, hb⟩ := ih (List.mem_append_right u List.mem_cons_self)
      obtain ⟨u', v', hsplit⟩ := List.append_of_mem hright
      exact ⟨v' ++ b, hb.expand hprod hp hsplit⟩
    · exact ih (List.mem_append_right u (List.mem_cons_of_mem _ hv))

theorem Follows.exists_context (hr : g.Reduced) {a s : Symbol} (h : g.Follows a s) :
    ∃ b, g.Context a b ∧ g.AheadOfEnd b s := by
  induction h with
  | start => exact ⟨[], .start, .inr ⟨.nil, rfl⟩⟩
  | @next a p s u v hp _ hb =>
    obtain ⟨u', v', hder⟩ := hr.reachable p (g.wellFormed.left_mem _ hp)
    obtain ⟨b, hcontext⟩ :=
      Grammar.exists_context hr.productive hder (List.mem_append_right u' List.mem_cons_self)
    exact ⟨v ++ b, hcontext.expand hr.productive hp rfl, ahead_append.2 (.inl hb)⟩
  | @inherit a p s u v hp _ hv _ ih =>
    obtain ⟨b, hcontext, hahead⟩ := ih
    exact ⟨v ++ b, hcontext.expand hr.productive hp rfl, ahead_append.2 (.inr ⟨hv, hahead⟩)⟩

/-- Whatever predicts two productions of a non-terminal does so in one context. -/
theorem exists_common_context (hr : g.Reduced) {a s : Symbol} {c d : List Symbol}
    (ha : a ∈ g.nonTerminals) (hc : g.Predicts ⟨a, c⟩ s) (hd : g.Predicts ⟨a, d⟩ s) :
    ∃ b, g.Context a b ∧ g.AheadOfEnd (c ++ b) s ∧ g.AheadOfEnd (d ++ b) s := by
  by_cases hf : g.Follows a s
  · obtain ⟨b, hcontext, hahead⟩ := hf.exists_context hr
    have hreplace : ∀ e, g.Predicts ⟨a, e⟩ s → g.AheadOfEnd (e ++ b) s := fun e he =>
      ahead_append.2 (he.imp_right fun hv => ⟨hv.1, hahead⟩)
    exact ⟨b, hcontext, hreplace c hc, hreplace d hd⟩
  · obtain ⟨u, v, hder⟩ := hr.reachable a ha
    obtain ⟨b, hcontext⟩ :=
      exists_context hr.productive hder (List.mem_append_right u List.mem_cons_self)
    have hbegins : ∀ e, g.Predicts ⟨a, e⟩ s → g.AheadOfEnd (e ++ b) s := fun e he =>
      ahead_append.2 (.inl (he.resolve_right fun hv => hf hv.2))
    exact ⟨b, hcontext, hbegins c hc, hbegins d hd⟩

theorem Ahead.exists_word (hprod : ∀ a ∈ g.nonTerminals, g.Productive a) {α : List Symbol}
    {s : Symbol} (hα : ∀ x ∈ α, g.Declares x) (h : g.AheadOfEnd α s) :
    ∃ w, g.Word w ∧ g.Derives α w ∧ (w ++ [endMark]).head? = some s := by
  rcases h with hb | ⟨hv, rfl⟩
  · obtain ⟨hs, β, hder⟩ := begins_iff_derives.1 hb
    have hdeclares := List.forall_mem_cons.1 (hder.declares hα)
    obtain ⟨w, hw⟩ := exists_spells hprod hdeclares.2
    obtain ⟨hword, hderw⟩ := spells_iff.1 (Spells.terminal hs hw)
    exact ⟨s :: w, hword, hder.trans hderw, rfl⟩
  · exact ⟨[], word_nil, vanishes_iff_derives.1 hv, rfl⟩

theorem predicts_of_leftDerives {w b c x z : List Symbol} {a s : Symbol}
    (hder : g.LeftDerives [g.start] (w ++ a :: b)) (ha : a ∈ g.nonTerminals) (hx : g.Word x)
    (hderx : g.Derives (c ++ b) x) (hs : x ++ [endMark] = s :: z) : g.Predicts ⟨a, c⟩ s := by
  have hfollowed := (followed_singleton g.start).derives hder.derives
  obtain ⟨s', z', hs', hahead⟩ := (spells_iff.2 ⟨hx, hderx⟩).exists_ahead Follows.start []
  obtain ⟨rfl, -⟩ := List.cons.inj (hs.symm.trans hs')
  exact (ahead_append.1 hahead).mono fun _ ht => hfollowed.follows ha ht

theorem isLL1_iff_lookaheadDecides (hr : g.Reduced) : g.isLL1 = true ↔ g.LookaheadDecides := by
  rw [isLL1_eq_true_iff]
  constructor
  · intro h w a b c d x y hw ha hder hc hd hx hy hderx hdery hsame
    cases hs : x ++ [endMark] with
    | nil => exact absurd hs (List.append_ne_nil_of_right_ne_nil x nofun)
    | cons s z =>
      rw [hs, List.head?_cons] at hsame
      obtain ⟨z', hs'⟩ := List.head?_eq_some_iff.1 hsame.symm
      apply h a c d s hc hd
      · exact predicts_of_leftDerives hder ha hx hderx hs
      · exact predicts_of_leftDerives hder ha hy hdery hs'
  · intro h a c d s hc hd hcs hds
    have ha := g.wellFormed.left_mem _ hc
    obtain ⟨b, ⟨w, hw, hder⟩, hcb, hdb⟩ := exists_common_context hr ha hcs hds
    have hb := Context.declares ⟨w, hw, hder⟩
    have hdeclares : ∀ e, ⟨a, e⟩ ∈ g.productions → ∀ s ∈ e ++ b, g.Declares s := fun e he =>
      List.forall_mem_append.2 ⟨g.wellFormed.right_declared _ he, hb⟩
    obtain ⟨x, hx, hderx, hxs⟩ := hcb.exists_word hr.productive (hdeclares c hc)
    obtain ⟨y, hy, hdery, hys⟩ := hdb.exists_word hr.productive (hdeclares d hd)
    exact h w a b c d x y hw ha hder hc hd hx hy hderx hdery (hxs.trans hys.symm)

def brackets : Grammar :=
  ⟨{ terminals := .ofList ['(', ')']
     nonTerminals := .ofList ['S']
     productions := [⟨'S', ['(', 'S', ')', 'S']⟩, ⟨'S', []⟩]
     start := 'S' }, Presentation.fault?_eq_none_iff.1 (by decide)⟩

theorem brackets_reduced : brackets.Reduced := by
  have hempty : ⟨'S', []⟩ ∈ brackets.productions := by decide
  have honly : ∀ a ∈ brackets.nonTerminals, a = 'S' := by
    intro a ha
    exact List.mem_singleton.1 (SymbolSet.mem_ofList.1 ha)
  constructor
  · intro a ha
    rw [honly a ha]
    exact ⟨[], [], .refl⟩
  · intro a ha
    rw [honly a ha]
    exact ⟨[], word_nil, derives_of_mem hempty []⟩

theorem brackets_lookaheadDecides : brackets.Reduced ∧ brackets.LookaheadDecides :=
  ⟨brackets_reduced, (isLL1_iff_lookaheadDecides brackets_reduced).1 (by decide +kernel)⟩

end Grammar

end PredictiveParsing
