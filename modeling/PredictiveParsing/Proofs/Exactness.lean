import PredictiveParsing.Analysis
import PredictiveParsing.Proofs.Lookahead
import PredictiveParsing.Proofs.Saturation

/-!
# The analysis is exact

The sets that the analysis settles on are those of the least relations, for every grammar: the
nullable symbols (`vanishes_analysis`), what a string can begin with (`mem_starters`) and what can
follow a non-terminal (`mem_follow`). A stored set never holds too much, since every step adds only
what the relation allows; in the end it holds enough, since a value that no step changes is closed
under the rules of the relation.
-/
namespace PredictiveParsing

namespace Grammar

variable {g : Grammar}

theorem nodup_eraseDups (l : List Symbol) : l.eraseDups.Nodup := by
  induction hn : l.length using Nat.strongRecOn generalizing l with
  | _ n ih =>
    cases l with
    | nil => exact List.nodup_nil
    | cons a l =>
      rw [List.eraseDups_cons]
      have hlt : (l.filter fun b => !b == a).length < n :=
        hn ▸ Nat.lt_succ_of_le (List.length_filter_le _ l)
      refine List.nodup_cons.2 ⟨fun ha => ?_, ih _ hlt _ rfl⟩
      simp [List.mem_eraseDups] at ha

theorem length_nonTerminalOrder_le : g.nonTerminalOrder.length ≤ g.nonTerminals.size :=
  (nodup_eraseDups _).length_le_of_subset fun _ h => mem_nonTerminalOrder.1 h

/-! ## Nullable symbols -/

theorem vanishes_iff {nullable : SymbolSet} {α : List Symbol} :
    vanishes nullable α = true ↔ ∀ s ∈ α, s ∈ nullable := by
  simp [vanishes]

theorem Vanishes.mem_nonTerminals {a : Symbol} (h : g.Vanishes [a]) : a ∈ g.nonTerminals := by
  obtain ⟨r, hp, _⟩ := vanishes_singleton.1 h
  exact g.wellFormed.left_mem _ hp

theorem markNullable_advances {nullable : SymbolSet} {a : Symbol}
    (hc : (g.markNullable nullable a).changed = true) :
    nullable ⊂ (g.markNullable nullable a).value := by
  simp only [markNullable] at hc ⊢
  split at hc
  · next h =>
    rw [if_pos h]
    exact SymbolSet.ssubset_insert h.1
  · exact absurd hc Bool.false_ne_true

theorem markNullable_grows : Grows g.markNullable g.nonTerminalOrder
    (fun nullable => ∀ a ∈ nullable, g.Vanishes [a]) SymbolSet.size := by
  constructor
  · intro nullable hn a _
    simp only [markNullable]
    split
    · next h =>
      obtain ⟨r, hr, hv⟩ := List.any_eq_true.1 h.2
      have hright : g.Vanishes r :=
        vanishes_iff_forall.2 fun s hs => hn s (vanishes_iff.1 hv s hs)
      have ha : g.Vanishes [a] := vanishes_singleton.2 ⟨r, mem_alternatives.1 hr, hright⟩
      intro b hb
      rcases SymbolSet.mem_insert.1 hb with rfl | hb
      · exact ha
      · exact hn b hb
    · exact hn
  · exact fun nullable _ a _ hc => SymbolSet.size_lt_of_ssubset (markNullable_advances hc)
  · intro nullable _ a _ hc
    simp only [markNullable] at hc ⊢
    split at hc
    · exact absurd hc.symm Bool.false_ne_true
    · next h => rw [if_neg h]

theorem size_le_of_vanishes {nullable : SymbolSet} (hn : ∀ a ∈ nullable, g.Vanishes [a]) :
    nullable.size ≤ g.nonTerminals.size :=
  SymbolSet.size_le_of_subset fun a ha => (hn a ha).mem_nonTerminals

theorem nullableSet_settled : (∀ a ∈ g.nullableSet, g.Vanishes [a]) ∧
    ∀ a ∈ g.nonTerminalOrder, (g.markNullable g.nullableSet a).changed = false := by
  refine markNullable_grows.saturate g.nonTerminals.size (fun _ => size_le_of_vanishes)
    (fun a ha => absurd ha SymbolSet.not_mem_empty) ?_
  omega

theorem mem_nullableSet {a : Symbol} : a ∈ g.nullableSet ↔ g.Vanishes [a] := by
  obtain ⟨hsound, hlast⟩ := nullableSet_settled (g := g)
  refine ⟨hsound a, fun h => ?_⟩
  suffices hall : ∀ {α}, g.Vanishes α → ∀ s ∈ α, s ∈ g.nullableSet from
    hall h a (List.mem_singleton.2 rfl)
  intro α hα
  induction hα with
  | nil => exact fun s hs => absurd hs List.not_mem_nil
  | @cons p α hp _ _ ihr ihα =>
    refine List.forall_mem_cons.2 ⟨?_, ihα⟩
    have hc := hlast p.left (mem_nonTerminalOrder.2 (g.wellFormed.left_mem p hp))
    by_contra hn
    have hany : (g.alternatives p.left).any (vanishes g.nullableSet) = true :=
      List.any_eq_true.2 ⟨p.right, mem_alternatives.2 hp, vanishes_iff.2 ihr⟩
    rw [markNullable, if_pos ⟨hn, hany⟩] at hc
    exact absurd hc.symm Bool.false_ne_true

theorem vanishes_nullableSet {α : List Symbol} :
    vanishes g.nullableSet α = true ↔ g.Vanishes α := by
  simp only [vanishes_iff, vanishes_iff_forall (α := α), mem_nullableSet]

/-! ## What a string can begin with -/

theorem mem_starters_cons {first : SetFamily} {s t : Symbol} {α : List Symbol} :
    t ∈ starters g.nullableSet first (s :: α) ↔
      t ∈ first.get s ∨ g.Vanishes [s] ∧ t ∈ starters g.nullableSet first α := by
  rw [← mem_nullableSet, starters]
  by_cases h : s ∈ g.nullableSet
  · simp [h]
  · simp [h]

theorem starters_mono {first first' : SetFamily} (h : ∀ s, first.get s ⊆ first'.get s)
    {α : List Symbol} : starters g.nullableSet first α ⊆ starters g.nullableSet first' α := by
  induction α with
  | nil => exact fun _ ht => ht
  | cons s α ih =>
    intro t ht
    rcases mem_starters_cons.1 ht with hs | ⟨hv, hα⟩
    · exact mem_starters_cons.2 (.inl (h s t hs))
    · exact mem_starters_cons.2 (.inr ⟨hv, ih t hα⟩)

theorem begins_of_mem_starters {first : SetFamily}
    (h : ∀ s t, t ∈ first.get s → g.Begins [s] t) {α : List Symbol} {t : Symbol}
    (ht : t ∈ starters g.nullableSet first α) : g.Begins α t := by
  induction α with
  | nil => exact absurd ht SymbolSet.not_mem_empty
  | cons s α ih =>
    rcases mem_starters_cons.1 ht with hs | ⟨hv, hα⟩
    · exact begins_cons.2 (.inl (h s t hs))
    · exact begins_cons.2 (.inr ⟨hv, ih hα⟩)

theorem mem_recomputedFirst {first : SetFamily} {a t : Symbol} :
    t ∈ g.recomputedFirst g.nullableSet first a ↔
      ∃ r, ⟨a, r⟩ ∈ g.productions ∧ t ∈ starters g.nullableSet first r := by
  simp only [recomputedFirst, SymbolSet.mem_unions, List.mem_map, mem_alternatives]
  constructor
  · intro ⟨s, ⟨r, hr, hs⟩, ht⟩
    subst hs
    exact ⟨r, hr, ht⟩
  · intro ⟨r, hr, ht⟩
    exact ⟨_, ⟨r, hr, rfl⟩, ht⟩

theorem recomputedFirst_mono {first first' : SetFamily}
    (h : ∀ s, first.get s ⊆ first'.get s) {a : Symbol} :
    g.recomputedFirst g.nullableSet first a ⊆ g.recomputedFirst g.nullableSet first' a := by
  intro t ht
  obtain ⟨r, hr, ht⟩ := mem_recomputedFirst.1 ht
  exact mem_recomputedFirst.2 ⟨r, hr, starters_mono h t ht⟩

/-- A stored set is part of the recomputed one, so that it is replaced only by a larger set and a
comparison of sizes tells whether the two differ. -/
structure FirstInvariant (g : Grammar) (first : SetFamily) : Prop where
  sound : ∀ s t, t ∈ first.get s → g.Begins [s] t
  own : ∀ t ∈ g.terminals, t ∈ first.get t
  stored : ∀ a ∈ g.nonTerminals, first.get a ⊆ g.recomputedFirst g.nullableSet first a

theorem FirstInvariant.set {first : SetFamily} (h : g.FirstInvariant first) {a : Symbol}
    (ha : a ∈ g.nonTerminals) :
    g.FirstInvariant (first.set a (g.recomputedFirst g.nullableSet first a)) := by
  have hle : ∀ s, first.get s ⊆
      (first.set a (g.recomputedFirst g.nullableSet first a)).get s := by
    intro s t ht
    rw [SetFamily.get_set]
    split
    · next e =>
      subst e
      exact h.stored s ha t ht
    · exact ht
  refine ⟨fun s t ht => ?_, fun t ht => hle t t (h.own t ht), fun b hb t ht => ?_⟩
  · rw [SetFamily.get_set] at ht
    split at ht
    · next e =>
      subst e
      obtain ⟨r, hr, ht⟩ := mem_recomputedFirst.1 ht
      exact .expand hr (begins_of_mem_starters h.sound ht)
    · exact h.sound s t ht
  · refine recomputedFirst_mono hle t ?_
    rw [SetFamily.get_set] at ht
    split at ht
    · next e => exact e ▸ ht
    · exact h.stored b hb t ht

theorem FirstInvariant.updateFirst_advances {first : SetFamily} (h : g.FirstInvariant first)
    {a : Symbol} (ha : a ∈ g.nonTerminalOrder)
    (hc : (g.updateFirst g.nullableSet first a).changed = true) :
    SetFamily.Enlarged g.nonTerminalOrder first
      (g.updateFirst g.nullableSet first a).value := by
  simp only [updateFirst] at hc ⊢
  split at hc
  · exact absurd hc Bool.false_ne_true
  · next hsize =>
    rw [if_neg hsize]
    have hstored := h.stored a (mem_nonTerminalOrder.1 ha)
    exact SetFamily.enlarged_set ha (SymbolSet.ssubset_of_size_ne hstored hsize)

theorem updateFirst_grows : Grows (g.updateFirst g.nullableSet) g.nonTerminalOrder
    g.FirstInvariant fun first => first.total g.nonTerminalOrder := by
  constructor
  · intro first hf a ha
    simp only [updateFirst]
    split
    · exact hf
    · exact hf.set (mem_nonTerminalOrder.1 ha)
  · exact fun first hf a ha hc => (hf.updateFirst_advances ha hc).total_lt
  · intro first _ a _ hc
    simp only [updateFirst] at hc ⊢
    split at hc
    · next h => rw [if_pos h]
    · exact absurd hc.symm Bool.false_ne_true

theorem mem_firstSeed {s t : Symbol} :
    t ∈ g.firstSeed.get s ↔ t = s ∧ s ∈ g.terminals := by
  have lookup (l : List Symbol) :
      t ∈ SetFamily.lookupEntry s (l.map fun t => (t, SymbolSet.ofList [t])) ↔ t = s ∧ s ∈ l := by
    induction l with
    | nil => simp [SetFamily.lookupEntry]
    | cons u l ih =>
      simp only [List.map_cons, SetFamily.lookupEntry]
      split
      · next e => subst e; simp
      · next e => simp [ih, e]
  exact lookup g.terminals.toList

theorem firstSeed_invariant : g.FirstInvariant g.firstSeed := by
  refine ⟨fun s t ht => ?_, fun t ht => mem_firstSeed.2 ⟨rfl, ht⟩, fun a ha t ht => ?_⟩
  · obtain ⟨rfl, hs⟩ := mem_firstSeed.1 ht
    exact .terminal hs
  · exact absurd (mem_firstSeed.1 ht).2 (not_mem_terminals_of_mem_nonTerminals ha)

theorem FirstInvariant.total_le {first : SetFamily} (h : g.FirstInvariant first) :
    first.total g.nonTerminalOrder ≤ g.nonTerminals.size * g.terminals.size := by
  have hsize : ∀ a ∈ g.nonTerminalOrder, (first.get a).size ≤ g.terminals.size := fun a _ =>
    SymbolSet.size_le_of_subset fun t ht => (h.sound a t ht).mem_terminals
  have hlength := Nat.mul_le_mul_right g.terminals.size (length_nonTerminalOrder_le (g := g))
  exact Nat.le_trans (SetFamily.total_le hsize) hlength

theorem firstFamily_settled : g.FirstInvariant (g.firstFamily g.nullableSet) ∧
    ∀ a ∈ g.nonTerminalOrder,
      (g.updateFirst g.nullableSet (g.firstFamily g.nullableSet) a).changed = false :=
  updateFirst_grows.saturate (g.nonTerminals.size * g.terminals.size)
    (fun _ hf => hf.total_le) firstSeed_invariant (by omega)

theorem recomputedFirst_firstFamily {a : Symbol} (ha : a ∈ g.nonTerminals) :
    g.recomputedFirst g.nullableSet (g.firstFamily g.nullableSet) a ⊆
      (g.firstFamily g.nullableSet).get a := by
  obtain ⟨hinv, hlast⟩ := firstFamily_settled (g := g)
  have hc := hlast a (mem_nonTerminalOrder.2 ha)
  simp only [updateFirst] at hc
  split at hc
  · next h => exact SymbolSet.subset_of_size_eq (hinv.stored a ha) h
  · exact absurd hc.symm Bool.false_ne_true

theorem mem_starters_firstFamily {α : List Symbol} {t : Symbol} :
    t ∈ starters g.nullableSet (g.firstFamily g.nullableSet) α ↔ g.Begins α t := by
  have hinv := (firstFamily_settled (g := g)).1
  refine ⟨begins_of_mem_starters hinv.sound, fun h => ?_⟩
  induction h with
  | @terminal t α ht => exact mem_starters_cons.2 (.inl (hinv.own t ht))
  | @expand p α t hp _ ih =>
    have hleft := g.wellFormed.left_mem p hp
    have := recomputedFirst_firstFamily hleft t (mem_recomputedFirst.2 ⟨p.right, hp, ih⟩)
    exact mem_starters_cons.2 (.inl this)
  | skip ha _ ih => exact mem_starters_cons.2 (.inr ⟨ha, ih⟩)

/-! ## What can follow a non-terminal -/

theorem mem_splits {s : Symbol} {v α : List Symbol} :
    (s, v) ∈ splits α ↔ ∃ u, α = u ++ s :: v := by
  induction α with
  | nil => simp [splits]
  | cons b α ih =>
    simp only [splits, List.mem_cons, ih]
    constructor
    · intro h
      rcases h with e | ⟨u, rfl⟩
      · cases e
        exact ⟨[], rfl⟩
      · exact ⟨b :: u, rfl⟩
    · intro ⟨u, e⟩
      cases u with
      | nil =>
        cases e
        exact .inl rfl
      | cons c u =>
        cases e
        exact .inr ⟨u, rfl⟩

theorem mem_occurrences {o : Occurrence} :
    o ∈ g.occurrences ↔
      o.symbol ∈ g.nonTerminals ∧ ∃ u, ⟨o.left, u ++ o.symbol :: o.rest⟩ ∈ g.productions := by
  obtain ⟨b, a, v⟩ := o
  simp only [occurrences, List.mem_flatMap, List.mem_map, List.mem_filter, mem_alternatives,
    decide_eq_true_eq]
  constructor
  · intro ⟨b', _, r, hr, ⟨a', v'⟩, ⟨hs, ha⟩, e⟩
    cases e
    obtain ⟨u, rfl⟩ := mem_splits.1 hs
    exact ⟨ha, u, hr⟩
  · intro ⟨ha, u, hr⟩
    exact ⟨b, mem_nonTerminalOrder.2 (g.wellFormed.left_mem _ hr), _, hr, (a, v),
      ⟨mem_splits.2 ⟨u, rfl⟩, ha⟩, rfl⟩

def handed (g : Grammar) (follow : SetFamily) (o : Occurrence) : SymbolSet :=
  starters g.nullableSet (g.firstFamily g.nullableSet) o.rest ∪
    if vanishes g.nullableSet o.rest then follow.get o.left else ∅

theorem mem_handed {follow : SetFamily} {o : Occurrence} {t : Symbol} :
    t ∈ g.handed follow o ↔ g.Begins o.rest t ∨ g.Vanishes o.rest ∧ t ∈ follow.get o.left := by
  simp only [handed, SymbolSet.mem_union, mem_starters_firstFamily]
  by_cases h : g.Vanishes o.rest
  · simp [vanishes_nullableSet.2 h, h]
  · simp [mt vanishes_nullableSet.1 h, h]

structure FollowInvariant (g : Grammar) (follow : SetFamily) : Prop where
  sound : ∀ a t, t ∈ follow.get a → g.Follows a t
  start : endMark ∈ follow.get g.start

theorem follows_of_mem_handed {follow : SetFamily} (h : g.FollowInvariant follow)
    {o : Occurrence} (ho : o ∈ g.occurrences) {t : Symbol} (ht : t ∈ g.handed follow o) :
    g.Follows o.symbol t := by
  obtain ⟨hs, u, hp⟩ := mem_occurrences.1 ho
  rcases mem_handed.1 ht with hb | ⟨hv, hf⟩
  · exact .next hp hs hb
  · exact .inherit hp hs hv (h.sound _ _ hf)

theorem FollowInvariant.set {follow : SetFamily} (h : g.FollowInvariant follow) {o : Occurrence}
    (ho : o ∈ g.occurrences) :
    g.FollowInvariant (follow.set o.symbol (follow.get o.symbol ∪ g.handed follow o)) := by
  constructor
  · intro a t ht
    rw [SetFamily.get_set] at ht
    split at ht
    · next e =>
      subst e
      rcases SymbolSet.mem_union.1 ht with ht | ht
      · exact h.sound _ _ ht
      · exact follows_of_mem_handed h ho ht
    · exact h.sound a t ht
  · rw [SetFamily.get_set]
    split
    · next e => exact SymbolSet.mem_union.2 (.inl (e ▸ h.start))
    · exact h.start

theorem extendFollow_eq {follow : SetFamily} {o : Occurrence} :
    extendFollow g.nullableSet (g.firstFamily g.nullableSet) follow o =
      if (follow.get o.symbol ∪ g.handed follow o).size = (follow.get o.symbol).size then
        ⟨follow, false⟩
      else ⟨follow.set o.symbol (follow.get o.symbol ∪ g.handed follow o), true⟩ := rfl

theorem extendFollow_advances {follow : SetFamily} {o : Occurrence} (ho : o ∈ g.occurrences)
    (hc : (extendFollow g.nullableSet (g.firstFamily g.nullableSet) follow o).changed = true) :
    SetFamily.Enlarged g.nonTerminalOrder follow
      (extendFollow g.nullableSet (g.firstFamily g.nullableSet) follow o).value := by
  simp only [extendFollow_eq] at hc ⊢
  split at hc
  · exact absurd hc Bool.false_ne_true
  · next h =>
    rw [if_neg h]
    have hsub : follow.get o.symbol ⊆ follow.get o.symbol ∪ g.handed follow o :=
      fun _ hx => SymbolSet.mem_union.2 (.inl hx)
    exact SetFamily.enlarged_set (mem_nonTerminalOrder.2 (mem_occurrences.1 ho).1)
      (SymbolSet.ssubset_of_size_ne hsub h)

theorem extendFollow_grows :
    Grows (extendFollow g.nullableSet (g.firstFamily g.nullableSet)) g.occurrences
      g.FollowInvariant fun follow => follow.total g.nonTerminalOrder := by
  constructor
  · intro follow hf o ho
    simp only [extendFollow_eq]
    split
    · exact hf
    · exact hf.set ho
  · exact fun follow _ o ho hc => (extendFollow_advances ho hc).total_lt
  · intro follow _ o _ hc
    simp only [extendFollow_eq] at hc ⊢
    split at hc
    · next h => rw [if_pos h]
    · exact absurd hc.symm Bool.false_ne_true

theorem followSeed_invariant : g.FollowInvariant g.followSeed := by
  constructor
  · intro a t ht
    rw [followSeed, SetFamily.get_set] at ht
    split at ht
    · next e =>
      obtain rfl : t = endMark := by simpa using ht
      exact e ▸ .start
    · exact absurd ht SymbolSet.not_mem_empty
  · simp [followSeed]

theorem FollowInvariant.within {follow : SetFamily} (h : g.FollowInvariant follow) (a : Symbol) :
    follow.get a ⊆ g.terminals.insert endMark := fun t ht =>
  SymbolSet.mem_insert.2 (h.sound a t ht).mem.symm

theorem FollowInvariant.total_le {follow : SetFamily} (h : g.FollowInvariant follow) :
    follow.total g.nonTerminalOrder ≤ g.nonTerminals.size * (g.terminals.size + 1) := by
  have hsize : ∀ a ∈ g.nonTerminalOrder, (follow.get a).size ≤ g.terminals.size + 1 := fun a _ =>
    Nat.le_trans (SymbolSet.size_le_of_subset (h.within a)) SymbolSet.size_insert_le
  have hlength :=
    Nat.mul_le_mul_right (g.terminals.size + 1) (length_nonTerminalOrder_le (g := g))
  exact Nat.le_trans (SetFamily.total_le hsize) hlength

theorem followFamily_settled :
    g.FollowInvariant (g.followFamily g.nullableSet (g.firstFamily g.nullableSet)) ∧
    ∀ o ∈ g.occurrences, (extendFollow g.nullableSet (g.firstFamily g.nullableSet)
      (g.followFamily g.nullableSet (g.firstFamily g.nullableSet)) o).changed = false :=
  extendFollow_grows.saturate (g.nonTerminals.size * (g.terminals.size + 1))
    (fun _ hf => hf.total_le) followSeed_invariant (by omega)

theorem handed_followFamily {o : Occurrence} (ho : o ∈ g.occurrences) :
    g.handed (g.followFamily g.nullableSet (g.firstFamily g.nullableSet)) o ⊆
      (g.followFamily g.nullableSet (g.firstFamily g.nullableSet)).get o.symbol := by
  have hc := (followFamily_settled (g := g)).2 o ho
  simp only [extendFollow_eq] at hc
  split at hc
  · next h =>
    intro t ht
    exact SymbolSet.subset_of_size_eq (fun _ hx => SymbolSet.mem_union.2 (.inl hx)) h t
      (SymbolSet.mem_union.2 (.inr ht))
  · exact absurd hc.symm Bool.false_ne_true

/-! ## The questions put to the analysis -/

theorem vanishes_analysis {α : List Symbol} : g.analysis.vanishes α = true ↔ g.Vanishes α :=
  vanishes_nullableSet

theorem mem_starters {α : List Symbol} {t : Symbol} :
    t ∈ g.analysis.starters α ↔ g.Begins α t :=
  mem_starters_firstFamily

theorem mem_first {a t : Symbol} : t ∈ g.analysis.first.get a ↔ g.Begins [a] t := by
  rw [← mem_starters]
  refine Iff.trans ?_ (mem_starters_cons (g := g)).symm
  exact (or_iff_left fun ht => SymbolSet.not_mem_empty ht.2).symm

theorem mem_follow {a t : Symbol} : t ∈ g.analysis.follow.get a ↔ g.Follows a t := by
  have hinv := (followFamily_settled (g := g)).1
  refine ⟨hinv.sound a t, fun h => ?_⟩
  induction h with
  | start => exact hinv.start
  | @next a b t u v hp ha hb =>
    have ho : ⟨b, a, v⟩ ∈ g.occurrences := mem_occurrences.2 ⟨ha, u, hp⟩
    exact handed_followFamily ho t (mem_handed.2 (.inl hb))
  | @inherit a b t u v hp ha hv _ ih =>
    have ho : ⟨b, a, v⟩ ∈ g.occurrences := mem_occurrences.2 ⟨ha, u, hp⟩
    exact handed_followFamily ho t (mem_handed.2 (.inr ⟨hv, ih⟩))

end Grammar

end PredictiveParsing
