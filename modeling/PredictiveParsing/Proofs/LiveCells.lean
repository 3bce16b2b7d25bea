import PredictiveParsing.Proofs.Arena
import PredictiveParsing.Proofs.Determinism
import PredictiveParsing.Proofs.Language

/-!
# Every cell is needed

In a reduced grammar a leftmost derivation leads to every non-terminal with anything behind it that
can come next there, and the string can be read on to a word. The machine reads the word of this
derivation up to the non-terminal (`PredictsFor.exists_walk_of_reads`), and a walk on symbols is a
run of the machine (`Configuration.Stacked.exists_reaches_of_walk?`). So each filled cell is looked
up in the recognition of some sentence (`every_cell_is_looked_up`): neither `Begins` nor `Follows`
holds too much, and nothing is placed in vain.
-/
namespace PredictiveParsing

/-- The next round expands a node with this label by the cell for it and this symbol of the
input. -/
def Table.LooksUp (t : Table) (c : Configuration) (a s : Symbol) : Prop :=
  ∃ top below rest right, c.stack = top :: below ∧ c.rest = s :: rest ∧ c.label top = a ∧
    t.get? a s = some right ∧ t.step c = .next (c.expand top below right)

namespace Configuration.Stacked

variable {t : Table} {c : Configuration}

theorem exists_reaches_of_walk? {m : Nat} {s : List Symbol × List Symbol} (h : Stacked t c)
    (hwalk : t.walk? m (c.labels, c.rest) = some s) :
    ∃ d, t.Reaches c d ∧ Stacked t d ∧ (d.labels, d.rest) = s := by
  induction m generalizing c with
  | zero => exact ⟨c, .refl, h, Option.some.inj hwalk⟩
  | succ m ih =>
    obtain ⟨v, hv, hrest⟩ := Table.walk?_succ_cases hwalk
    cases hd : t.step c with
    | next d =>
      obtain ⟨hforward, hs⟩ := h.forward_of_next hd
      obtain rfl := Option.some.inj (hforward.symm.trans hv)
      obtain ⟨e, hreach, he⟩ := ih hs hrest
      exact ⟨e, .head hd hreach, he⟩
    | done outcome => exact absurd ((h.forward_of_done hd).symm.trans hv) nofun

theorem looksUp {a s : Symbol} {left rest right : List Symbol} (h : Stacked t c) (ht : t.Sound)
    (hc : (c.labels, c.rest) = (a :: left, s :: rest)) (hcell : t.get? a s = some right) :
    t.LooksUp c a s := by
  obtain ⟨hlabels, hrest⟩ := Prod.mk.inj hc
  obtain ⟨top, below, hstack, rfl, -⟩ := List.map_eq_cons_iff.1 hlabels
  have hnot := mt (h.matches_iff hstack).1 (ht.not_mem_terminals hcell)
  exact ⟨top, below, rest, right, hstack, hrest, rfl, hcell,
    Table.step_expand hstack hrest hnot hcell⟩

end Configuration.Stacked

namespace Grammar

variable {g : Grammar} {t : Table}

theorem PredictsFor.exists_sentence_of_cell (hp : g.PredictsFor t) (hr : g.Reduced) {a s : Symbol}
    {right : List Symbol} (hcell : t.get? a s = some right) :
    ∃ w m left rest, g.Sentence w ∧
      t.walk? m ([g.start], w ++ [endMark]) = some (a :: left, s :: rest) := by
  obtain ⟨hprod, hpredicts⟩ := hp.cell.1 hcell
  have ha := g.wellFormed.left_mem _ hprod
  obtain ⟨b, ⟨u, hu, hder⟩, hahead, -⟩ := exists_common_context hr ha hpredicts hpredicts
  have hdeclared : ∀ x ∈ right ++ b, g.Declares x := List.forall_mem_append.2
    ⟨g.wellFormed.right_declared _ hprod, Context.declares ⟨u, hu, hder⟩⟩
  obtain ⟨x, hx, hderx, hxs⟩ := hahead.exists_word hr.productive hdeclared
  have hexpand : g.Derives (a :: b) (right ++ b) := derives_of_mem hprod b
  have hon : g.Derives (a :: b) x := hexpand.trans hderx
  have hsentence : g.Sentence (u ++ x) :=
    ⟨word_append.2 ⟨hu, hx⟩, hder.derives.trans (hon.append_left u)⟩
  -- the stack holds `left`, which only derives the context
  obtain ⟨left, hreads, hleft⟩ := exists_reads_of_derives hu hder.derives
  have hform : g.Derives (a :: left) (right ++ b) := (hleft.append_left [a]).trans hexpand
  have hend : ∀ s, s = endMark → g.Follows g.start s := fun s e => e ▸ .start
  have hnext := (hahead.of_derives hform).mono hend
  obtain ⟨m, hwalk⟩ := hp.exists_walk_of_reads hreads (followed_singleton g.start) hnext
  obtain ⟨rest, hrest⟩ := List.head?_eq_some_iff.1 hxs
  refine ⟨u ++ x, m, left, rest, hsentence, ?_⟩
  have hread := hwalk [] rest
  rw [List.append_nil, List.append_nil, ← hrest] at hread
  rw [List.append_assoc, hread, hrest]

theorem every_cell_is_looked_up (h : g.table? = some t) (hr : g.Reduced) {a s : Symbol}
    {right : List Symbol} (hcell : t.get? a s = some right) :
    ∃ w tree c, g.Word w ∧ t.recognize (w ++ [endMark]) g.start = .ok tree ∧
      t.Reaches (.initial (w ++ [endMark]) g.start) c ∧ t.LooksUp c a s := by
  have hp := predictsFor_of_table? h
  have hstart := g.wellFormed.start_mem
  obtain ⟨w, m, left, rest, ⟨hw, hder⟩, hwalk⟩ := hp.exists_sentence_of_cell hr hcell
  obtain ⟨tree, htree⟩ := hp.recognize_of_derives hstart .start hw hder
  have hstacked := Configuration.Stacked.initial (w ++ [endMark]) (hp.not_mem_terminals hstart)
  obtain ⟨c, hreach, hc, hstate⟩ := hstacked.exists_reaches_of_walk? hwalk
  exact ⟨w, tree, c, hw, htree, hreach, hc.looksUp hp.reachable.sound hstate hcell⟩

theorem brackets_closing_cell_is_looked_up :
    ∃ t, brackets.table? = some t ∧ brackets.Reduced ∧ t.get? 'S' ')' = some [] ∧
      ∃ w tree c, brackets.Word w ∧ t.recognize (w ++ ['$']) 'S' = .ok tree ∧
        t.Reaches (.initial (w ++ ['$']) 'S') c ∧ t.LooksUp c 'S' ')' := by
  have hll : brackets.isLL1 = true := by decide +kernel
  obtain ⟨t, ht⟩ := Option.isSome_iff_exists.1 hll
  have hrule : ⟨'S', ['('] ++ 'S' :: [')', 'S']⟩ ∈ brackets.productions := by decide
  have hfollows : brackets.Follows 'S' ')' :=
    .next hrule (by decide) (.terminal (by decide))
  have hcell : t.get? 'S' ')' = some [] :=
    (predictsFor_of_table? ht).cell.2 ⟨by decide, .inr ⟨.nil, hfollows⟩⟩
  have hlooked := every_cell_is_looked_up ht brackets_reduced hcell
  exact ⟨t, ht, brackets_reduced, hcell, hlooked⟩

end Grammar

end PredictiveParsing
