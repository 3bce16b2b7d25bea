import PredictiveParsing.Event
import PredictiveParsing.Proofs.Competition
import PredictiveParsing.Proofs.ListCut

/-!
# The conflict that is reported

When two alternatives compete, placing stops somewhere inside a loop over productions and a loop
over lookaheads, and reports a conflict. `FirstConflict` finds it without placing anything: the
first production that shares a lookahead with an earlier alternative, the first lookahead that it
shares, and the earliest alternative with that lookahead. There is at most one such conflict
(`FirstConflict.unique`), and it is the reported one (`StopsAt.firstConflict`), because up to the
point where the loops stop all placements with one key bring the same right side.
-/
namespace PredictiveParsing

namespace Grammar

variable {g : Grammar} {c c' : Conflict} {earlier earlier' : List Production} {p q : Production}
  {s : Symbol}

/-! ## Conflicts -/

def Awaits (g : Grammar) (p : Production) (s : Symbol) : Prop :=
  ∃ l, g.lookaheads? p = .ok l ∧ s ∈ l

def Shares (g : Grammar) (earlier : List Production) (p : Production) (s : Symbol) : Prop :=
  ∃ q ∈ earlier, q.left = p.left ∧ q.right ≠ p.right ∧ g.Awaits q s

/-- The conflict is between the first production that shares a lookahead, at the first lookahead
that it shares, and the first alternative that awaits this one. -/
structure FirstConflict (g : Grammar) (earlier : List Production) (c : Conflict) : Prop where
  production : FirstSuch (fun earlier p => ∃ s, g.Awaits p s ∧ g.Shares earlier p s) g.productions
    earlier c.production
  terminal : ∃ l before, g.lookaheads? c.production = .ok l ∧
    FirstSuch (fun _ s => g.Shares earlier c.production s) l before c.terminal
  placed : ∃ before, FirstSuch (fun _ q => q.left = c.production.left ∧ g.Awaits q c.terminal)
    g.productions before ⟨c.production.left, c.placed⟩

theorem FirstConflict.unique (h : g.FirstConflict earlier c) (h' : g.FirstConflict earlier' c') :
    c = c' := by
  obtain ⟨p, s, placed⟩ := c
  obtain ⟨p', s', placed'⟩ := c'
  obtain ⟨rfl, rfl⟩ : earlier = earlier' ∧ p = p' := h.production.unique h'.production
  obtain ⟨l, before, hl, hs⟩ := h.terminal
  obtain ⟨l', before', hl', hs'⟩ := h'.terminal
  obtain rfl := Except.ok.inj (hl.symm.trans hl')
  obtain ⟨-, rfl⟩ : before = before' ∧ s = s' := hs.unique hs'
  obtain ⟨u, hu⟩ := h.placed
  obtain ⟨u', hu'⟩ := h'.placed
  have hplaced := (hu.unique hu').2
  cases hplaced
  rfl

theorem awaits_iff (hp : p ∈ g.productions) : g.Awaits p s ↔ s ∈ g.analysis.predicting p := by
  unfold Awaits
  rw [lookaheads?_eq_ok hp]
  constructor
  · rintro ⟨l, hl, hs⟩
    cases hl
    exact hs
  · exact fun hs => ⟨_, rfl, hs⟩

theorem right_eq_of_placed {l : List Placement} {cells : CellMap}
    (h : l.foldlM CellMap.placeOne ∅ = .ok cells) {e e' : Placement} (he : e ∈ l) (he' : e' ∈ l)
    (hleft : e.1.left = e'.1.left) (hterminal : e.2 = e'.2) : e.1.right = e'.1.right := by
  obtain ⟨-, hall⟩ := CellMap.placed_nil.of_foldlM h
  rw [List.nil_append] at hall
  have hearliest := hall e he
  rw [hleft, hterminal] at hearliest
  exact Option.some.inj (hearliest.symm.trans (hall e' he'))

/-- Where the loops over productions and over lookaheads stop: what stands before has been placed,
and the right side in the way is that of an earlier alternative. -/
structure StopsAt (g : Grammar) (earlier : List Production) (before : List Symbol) (c : Conflict) :
    Prop where
  productions : ∃ later, g.productions = earlier ++ c.production :: later
  predicting : ∃ after, g.analysis.predicting c.production = before ++ c.terminal :: after
  placed : ∃ cells, (earlier.flatMap (fun p => (g.analysis.predicting p).map (p, ·)) ++
    before.map (c.production, ·)).foldlM CellMap.placeOne ∅ = .ok cells
  in_the_way : ⟨c.production.left, c.placed⟩ ∈ earlier ∧
    c.terminal ∈ g.analysis.predicting ⟨c.production.left, c.placed⟩
  right_ne : c.placed ≠ c.production.right

theorem exists_stopsAt (h : g.predictedCells = .error c) :
    ∃ earlier before, g.StopsAt earlier before c := by
  rw [predictedCells_eq] at h
  obtain ⟨u, v, cells, hk, hu, hplaced, hne⟩ := CellMap.placed_nil.of_foldlM_error h
  obtain ⟨earlier, p, later, before', after', hproductions, hp, rfl⟩ := exists_cut_of_flatMap hk
  obtain ⟨before, rest, hpredicting, rfl, hrest⟩ := List.map_eq_append_iff.1 hp
  obtain ⟨s, after, rfl, hs, -⟩ := List.map_eq_cons_iff.1 hrest
  obtain ⟨rfl, rfl⟩ := Prod.mk.inj hs
  refine ⟨earlier, before, ⟨later, hproductions⟩, ⟨after, hpredicting⟩, ⟨cells, hu⟩, ?_, hne⟩
  have hmem := CellMap.earliest_eq_some hplaced
  rw [List.nil_append, List.mem_append, List.mem_flatMap, List.mem_map] at hmem
  rcases hmem with ⟨q, hq, hqs⟩ | ⟨s, -, hs⟩
  · obtain ⟨s, hs, e⟩ := List.mem_map.1 hqs
    obtain ⟨rfl, rfl⟩ := Prod.mk.inj e
    exact ⟨hq, hs⟩
  · -- an alternative is not in its own way
    have hsame : c.production = ⟨c.production.left, c.placed⟩ := congrArg Prod.fst hs
    exact absurd (congrArg Production.right hsame).symm hne

namespace StopsAt

variable {before : List Symbol}

theorem mem_of_earlier (h : g.StopsAt earlier before c) (hq : q ∈ earlier) :
    q ∈ g.productions := by
  obtain ⟨later, hproductions⟩ := h.productions
  rw [hproductions]
  exact List.mem_append_left _ hq

theorem mem_production (h : g.StopsAt earlier before c) : c.production ∈ g.productions := by
  obtain ⟨later, hproductions⟩ := h.productions
  rw [hproductions]
  exact List.mem_append_right _ List.mem_cons_self

theorem mem_placed (h : g.StopsAt earlier before c) (hq : q ∈ earlier) (hs : g.Awaits q s) :
    (q, s) ∈ earlier.flatMap (fun p => (g.analysis.predicting p).map (p, ·)) ++
      before.map (c.production, ·) :=
  List.mem_append_left _ (List.mem_flatMap.2
    ⟨q, hq, List.mem_map_of_mem ((awaits_iff (h.mem_of_earlier hq)).1 hs)⟩)

theorem right_eq_of_earlier (h : g.StopsAt earlier before c) (hq : q ∈ earlier) (hp : p ∈ earlier)
    (hleft : q.left = p.left) (hqs : g.Awaits q s) (hps : g.Awaits p s) : q.right = p.right := by
  obtain ⟨cells, hplaced⟩ := h.placed
  exact right_eq_of_placed hplaced (h.mem_placed hq hqs) (h.mem_placed hp hps) hleft rfl

theorem right_eq_of_before (h : g.StopsAt earlier before c) (hq : q ∈ earlier) (hs : s ∈ before)
    (hleft : q.left = c.production.left) (hqs : g.Awaits q s) : q.right = c.production.right := by
  obtain ⟨cells, hplaced⟩ := h.placed
  have hown := List.mem_append_right
    (earlier.flatMap fun p => (g.analysis.predicting p).map (p, ·))
    (List.mem_map.2 ⟨s, hs, rfl⟩ : (c.production, s) ∈ before.map (c.production, ·))
  exact right_eq_of_placed hplaced (h.mem_placed hq hqs) hown hleft rfl

theorem awaits_in_the_way (h : g.StopsAt earlier before c) :
    g.Awaits ⟨c.production.left, c.placed⟩ c.terminal :=
  (awaits_iff (h.mem_of_earlier h.in_the_way.1)).2 h.in_the_way.2

theorem shares (h : g.StopsAt earlier before c) : g.Shares earlier c.production c.terminal :=
  ⟨_, h.in_the_way.1, rfl, h.right_ne, h.awaits_in_the_way⟩

theorem awaits (h : g.StopsAt earlier before c) : g.Awaits c.production c.terminal := by
  obtain ⟨after, hpredicting⟩ := h.predicting
  rw [awaits_iff h.mem_production, hpredicting]
  exact List.mem_append_right _ List.mem_cons_self

theorem exists_first_in_the_way (h : g.StopsAt earlier before c) : ∃ u,
    FirstSuch (fun _ q => q.left = c.production.left ∧ g.Awaits q c.terminal) g.productions u
      ⟨c.production.left, c.placed⟩ := by
  obtain ⟨later, hproductions⟩ := h.productions
  have hold : ∃ q ∈ earlier, q.left = c.production.left ∧ g.Awaits q c.terminal :=
    ⟨_, h.in_the_way.1, rfl, h.awaits_in_the_way⟩
  obtain ⟨u, q, ⟨v, hearlier⟩, ⟨hleft, hq⟩, hfirst⟩ := exists_firstSuch hold
  have hqu : q ∈ earlier := by
    rw [hearlier]
    exact List.mem_append_right u List.mem_cons_self
  have hright : q.right = c.placed :=
    h.right_eq_of_earlier hqu h.in_the_way.1 hleft hq h.awaits_in_the_way
  obtain ⟨left, right⟩ := q
  obtain rfl : left = c.production.left := hleft
  obtain rfl : right = c.placed := hright
  refine ⟨u, ⟨v ++ c.production :: later, ?_⟩, ⟨rfl, hq⟩, hfirst⟩
  rw [hproductions, hearlier, List.append_assoc]
  rfl

theorem firstConflict (h : g.StopsAt earlier before c) : g.FirstConflict earlier c := by
  refine ⟨⟨h.productions, ⟨_, h.awaits, h.shares⟩, ?_⟩, ?_, h.exists_first_in_the_way⟩
  · rintro u p v rfl ⟨s, hps, q, hq, hleft, hright, hqs⟩
    exact hright (h.right_eq_of_earlier (List.mem_append_left _ hq)
      (List.mem_append_right _ List.mem_cons_self) hleft hqs hps)
  · refine ⟨_, before, lookaheads?_eq_ok h.mem_production, h.predicting, h.shares, ?_⟩
    rintro u s v rfl ⟨q, hq, hleft, hright, hqs⟩
    exact hright (h.right_eq_of_before hq (List.mem_append_right u List.mem_cons_self) hleft hqs)

end StopsAt

theorem FirstConflict.table?_eq_none (h : g.FirstConflict earlier c) : g.table? = none := by
  cases ht : g.table? with
  | none => rfl
  | some t =>
    obtain ⟨after, hsplit⟩ := h.production.split
    obtain ⟨s, hps, q, hq, hleft, hright, hqs⟩ := h.production.holds
    have hp := predictsFor_of_table? ht
    have hpmem : c.production ∈ g.productions := by
      rw [hsplit]
      exact List.mem_append_right _ List.mem_cons_self
    have hqmem : ⟨c.production.left, q.right⟩ ∈ g.productions := by
      rw [hsplit, ← hleft]
      exact List.mem_append_left _ hq
    refine absurd (hp.right_unique hqmem hpmem ?_ ((mem_lookaheads? hpmem).1 hps)) hright
    rw [← hleft] at hqmem ⊢
    exact (mem_lookaheads? hqmem).1 hqs

theorem firstConflict_of_tableLog (h : g.table? = none) :
    ∃ earlier c, g.FirstConflict earlier c ∧ g.tableLog = [.conflict c] := by
  cases hc : g.predictedCells with
  | error c =>
    obtain ⟨earlier, before, hstop⟩ := exists_stopsAt hc
    exact ⟨earlier, c, hstop.firstConflict, by simp [tableLog, table, hc, Obstacle.event]⟩
  | ok cells =>
    rw [table?, table_eq_ok_iff.2 ⟨cells, hc, rfl⟩] at h
    cases h

/-- A grammar either has a table and nothing is said, or the one message is about the first
conflict. -/
theorem reported_conflict_is_first (g : Grammar) :
    (∀ t, g.table? = some t → g.tableLog = []) ∧
    (g.table? = none → ∃ earlier c, g.FirstConflict earlier c) ∧
    ∀ earlier c, g.FirstConflict earlier c → g.table? = none ∧ g.tableLog = [.conflict c] ∧
      g.tableLog.map (fun e => (e.level, e.message)) =
        [(.debug, s!"LL(1) conflict at ({c.production.left}, {c.terminal}): " ++
          s!"{c.production.left} -> {String.ofList c.placed} vs {c.production.display}")] := by
  refine ⟨fun t ht => ?_, fun h => ?_, fun earlier c h => ?_⟩
  · unfold table? at ht
    unfold tableLog
    cases htable : g.table with
    | ok u => rfl
    | error o =>
      rw [htable] at ht
      cases ht
  · obtain ⟨earlier, c, hfirst, -⟩ := firstConflict_of_tableLog h
    exact ⟨earlier, c, hfirst⟩
  · have hnone := h.table?_eq_none
    obtain ⟨earlier', c', h', hlog⟩ := firstConflict_of_tableLog hnone
    obtain rfl := h'.unique h
    rw [hlog]
    exact ⟨hnone, rfl, rfl⟩

def crowded : Grammar :=
  ⟨{ terminals := .ofList ['a', 'b', 'c']
     nonTerminals := .ofList ['S', 'A']
     productions := [⟨'S', ['c']⟩, ⟨'S', ['c']⟩, ⟨'S', ['b']⟩, ⟨'A', ['a']⟩, ⟨'A', ['c']⟩,
       ⟨'A', ['b']⟩, ⟨'S', ['A', 'c']⟩, ⟨'S', ['a']⟩]
     start := 'S' }, Presentation.fault?_eq_none_iff.1 (by decide)⟩

theorem crowded_conflict_reported :
    crowded.table? = none ∧ (∃ earlier, crowded.FirstConflict earlier
      ⟨⟨'S', ['A', 'c']⟩, 'b', ['b']⟩) ∧
      crowded.tableLog.map (fun e => (e.level, e.message)) =
        [(.debug, "LL(1) conflict at (S, b): S -> b vs S -> Ac")] := by
  obtain ⟨-, hconflict, hreported⟩ := reported_conflict_is_first crowded
  have hnone : crowded.table? = none := by decide +kernel
  obtain ⟨earlier, c, hfirst⟩ := hconflict hnone
  obtain ⟨-, hlog, hmessage⟩ := hreported earlier c hfirst
  have hshown : crowded.tableLog = [.conflict ⟨⟨'S', ['A', 'c']⟩, 'b', ['b']⟩] := by
    decide +kernel
  obtain rfl := Event.conflict.inj (List.singleton_inj.1 (hlog.symm.trans hshown))
  exact ⟨hnone, ⟨earlier, hfirst⟩, hmessage.trans (by decide +kernel)⟩

end Grammar

end PredictiveParsing
