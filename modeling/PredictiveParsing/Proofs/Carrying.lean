import PredictiveParsing.Proofs.Prediction

/-!
# Carrying one grammar into another

A map of symbols carries one grammar into another if it takes symbols, productions and the start
symbol of the first to such of the second. Then whatever vanishes, begins, follows or is predicted
in the first grammar does so in the second (`Carries.predicts`), and a conflict of the first is one
of the second unless the map makes two right sides the same (`Carries.isLL1`).
-/
namespace PredictiveParsing

def Production.rename (f : Symbol → Symbol) (p : Production) : Production :=
  ⟨f p.left, p.right.map f⟩

namespace Grammar

variable {f f' : Symbol → Symbol} {g h : Grammar}

structure Carries (f : Symbol → Symbol) (g h : Grammar) : Prop where
  terminal : ∀ s ∈ g.terminals, f s ∈ h.terminals
  nonTerminal : ∀ s ∈ g.nonTerminals, f s ∈ h.nonTerminals
  production : ∀ p ∈ g.productions, p.rename f ∈ h.productions
  start : f g.start = h.start
  keeps_endMark : f endMark = endMark

namespace Carries

theorem vanishes (hc : Carries f g h) {α : List Symbol} (hα : g.Vanishes α) :
    h.Vanishes (α.map f) := by
  induction hα with
  | nil => exact .nil
  | cons hp _ _ ihr ihα => exact .cons (hc.production _ hp) ihr ihα

theorem begins (hc : Carries f g h) {α : List Symbol} {s : Symbol} (hα : g.Begins α s) :
    h.Begins (α.map f) (f s) := by
  induction hα with
  | terminal hs => exact .terminal (hc.terminal _ hs)
  | expand hp _ ih => exact .expand (hc.production _ hp) ih
  | skip ha _ ih => exact .skip (hc.vanishes ha) ih

theorem occurrence (hc : Carries f g h) {a b : Symbol} {x v : List Symbol}
    (hp : ⟨b, x ++ a :: v⟩ ∈ g.productions) :
    ⟨f b, x.map f ++ f a :: v.map f⟩ ∈ h.productions := by
  have hrenamed := hc.production _ hp
  rwa [Production.rename, List.map_append, List.map_cons] at hrenamed

theorem follows (hc : Carries f g h) {a s : Symbol} (ha : g.Follows a s) :
    h.Follows (f a) (f s) := by
  induction ha with
  | start =>
    rw [hc.start, hc.keeps_endMark]
    exact .start
  | next hp ha hb => exact .next (hc.occurrence hp) (hc.nonTerminal _ ha) (hc.begins hb)
  | inherit hp ha hv _ ih =>
    exact .inherit (hc.occurrence hp) (hc.nonTerminal _ ha) (hc.vanishes hv) ih

theorem predicts (hc : Carries f g h) {p : Production} {s : Symbol} (hp : g.Predicts p s) :
    h.Predicts (p.rename f) (f s) :=
  hp.imp hc.begins fun ⟨hv, hs⟩ => ⟨hc.vanishes hv, hc.follows hs⟩

end Carries

theorem map_map_eq_self (hinv : ∀ s, g.Declares s → f' (f s) = s) {α : List Symbol}
    (hα : ∀ s ∈ α, g.Declares s) : (α.map f).map f' = α := by
  rw [List.map_map]
  exact (List.map_congr_left fun s hs => hinv s (hα s hs)).trans (List.map_id α)

/-- A conflict is carried along if the map can be undone on right sides. -/
theorem Carries.isLL1 (hc : Carries f g h) (hinv : ∀ s, g.Declares s → f' (f s) = s)
    (hll : h.isLL1 = true) : g.isLL1 = true := by
  rw [isLL1_eq_true_iff] at hll ⊢
  intro a r q s hr hq hrs hqs
  have hsame : r.map f = q.map f := hll (f a) _ _ (f s) (hc.production _ hr)
    (hc.production _ hq) (hc.predicts hrs) (hc.predicts hqs)
  have hundo : (r.map f).map f' = r := map_map_eq_self hinv (g.wellFormed.right_declared _ hr)
  rw [← hundo, hsame]
  exact map_map_eq_self hinv (g.wellFormed.right_declared _ hq)

end Grammar

end PredictiveParsing
