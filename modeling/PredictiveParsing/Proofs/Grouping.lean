import Mathlib.Data.List.Basic
import Mathlib.Data.List.Induction
import PredictiveParsing.Proofs.Exactness
import PredictiveParsing.Proofs.ListCut
import PredictiveParsing.Grammar.Text
import PredictiveParsing.View.Format

/-!
# Productions grouped by their left sides

The standing order of the non-terminals has each of them once, and the start symbol and the left
sides as they come up first (`pairwise_idxOf_eraseDups`). So the groups, taken in this order, have
the productions of each left side as they stand in the grammar (`filter_groupedProductions`), from
which it follows that they have all of them, and nothing else. The same right sides are told by
indices in the rules of a symbol, which are filled in one pass over the productions
(`getElem?_storedRules`).
-/
namespace PredictiveParsing

/-! ## First occurrences -/

theorem eraseDups_concat_of_mem {l : List Symbol} {a : Symbol} (h : a ∈ l) :
    (l ++ [a]).eraseDups = l.eraseDups := by
  have hnone : [a].removeAll l = [] := by simp [List.removeAll, h]
  rw [List.eraseDups_append, hnone, List.eraseDups_nil, List.append_nil]

theorem eraseDups_concat_of_notMem {l : List Symbol} {a : Symbol} (h : a ∉ l) :
    (l ++ [a]).eraseDups = l.eraseDups ++ [a] := by
  have hself : [a].removeAll l = [a] := by simp [List.removeAll, h]
  rw [List.eraseDups_append, hself]
  rfl

theorem pairwise_idxOf_eraseDups (l : List Symbol) :
    l.eraseDups.Pairwise fun a b => l.idxOf a < l.idxOf b := by
  induction l using List.reverseRecOn with
  | nil => exact List.Pairwise.nil
  | append_singleton l c ih =>
    have hold : l.eraseDups.Pairwise fun a b => (l ++ [c]).idxOf a < (l ++ [c]).idxOf b := by
      refine ih.imp_of_mem fun {a b} ha hb hab => ?_
      rw [List.idxOf_append_of_mem (List.mem_eraseDups.1 ha),
        List.idxOf_append_of_mem (List.mem_eraseDups.1 hb)]
      exact hab
    by_cases hc : c ∈ l
    · rw [eraseDups_concat_of_mem hc]
      exact hold
    · rw [eraseDups_concat_of_notMem hc]
      refine List.pairwise_append.2 ⟨hold, List.pairwise_singleton _ c, fun a ha b hb => ?_⟩
      have ha := List.mem_eraseDups.1 ha
      obtain rfl := List.mem_singleton.1 hb
      rw [List.idxOf_append_of_mem ha, List.idxOf_append_of_notMem hc]
      have := List.idxOf_lt_length_of_mem ha
      omega

theorem flatMap_ite_eq {ι β : Type} {l : List ι} {key : ι → Symbol} {a : Symbol} {part : List β}
    (hkeys : (l.map key).Nodup) (hpart : a ∉ l.map key → part = []) :
    (l.flatMap fun x => if key x = a then part else []) = part := by
  induction l with
  | nil => exact (hpart List.not_mem_nil).symm
  | cons x l ih =>
    rw [List.map_cons] at hkeys hpart
    obtain ⟨hx, hl⟩ := List.nodup_cons.1 hkeys
    rw [List.flatMap_cons]
    by_cases hxa : key x = a
    · subst hxa
      have hrest : (l.flatMap fun y => if key y = key x then part else []) = [] := by
        refine List.flatMap_eq_nil_iff.2 fun y hy => if_neg fun e => hx ?_
        exact List.mem_map.2 ⟨y, hy, e⟩
      rw [if_pos rfl, hrest, List.append_nil]
    · rw [if_neg hxa, List.nil_append]
      refine ih hl fun ha => hpart fun hmem => ?_
      exact (List.mem_cons.1 hmem).elim (fun e => hxa e.symm) ha

theorem idxOf?_of_mem {l : List Symbol} {a : Symbol} (h : a ∈ l) :
    l.idxOf? a = some (l.idxOf a) := by
  induction l with
  | nil => exact absurd h List.not_mem_nil
  | cons b l ih =>
    rw [List.idxOf?_cons, List.idxOf_cons]
    by_cases hb : b = a
    · simp [hb]
    · have hl := (List.mem_cons.1 h).resolve_left (Ne.symm hb)
      simp [beq_eq_false_iff_ne.2 hb, ih hl]

theorem intercalate_cons_eq (sep first : String) {l : List String} :
    sep.intercalate (first :: l) = first ++ String.join (l.map (sep ++ ·)) := by
  induction l generalizing first with
  | nil => simp
  | cons x l ih =>
    rw [String.intercalate_cons_cons, ih, List.map_cons, String.join_cons, String.append_assoc,
      String.append_assoc]

theorem intercalate_flatMap {ι : Type} {sep : String} {parts : ι → List String} {l : List ι}
    (h : ∀ x ∈ l, parts x ≠ []) :
    sep.intercalate (l.map fun x => sep.intercalate (parts x)) =
      sep.intercalate (l.flatMap parts) := by
  induction l with
  | nil => rfl
  | cons x l ih =>
    obtain ⟨hx, hl⟩ := List.forall_mem_cons.1 h
    by_cases hnil : l = []
    · simp [hnil]
    · have hrest : l.flatMap parts ≠ [] := by
        obtain ⟨y, hy⟩ := List.exists_mem_of_ne_nil l hnil
        exact fun e => hl y hy (List.flatMap_eq_nil_iff.1 e y hy)
      rw [List.map_cons, String.intercalate_cons_of_ne_nil (by simpa using hnil), ih hl,
        List.flatMap_cons, String.intercalate_append_of_ne_nil hx hrest]

/-- A carriage return at the end of a line goes with the line feed, which ends one line anyway. -/
theorem length_lines_feed {line rest : List Char} (h : '\n' ∉ line) :
    (lines (line ++ '\n' :: rest)).length = (lines rest).length + 1 := by
  by_cases hlast : line.getLast? = some '\r'
  · obtain ⟨before, rfl⟩ := List.getLast?_eq_some_iff.1 hlast
    rw [List.append_assoc, List.singleton_append,
      lines_returnFeed fun hmem => h (List.mem_append_left _ hmem), List.length_cons]
  · rw [lines_feed h hlast, List.length_cons]

theorem length_lines_intercalate {ls : List String} (h : ∀ l ∈ ls, l ≠ "" ∧ '\n' ∉ l.toList) :
    (lines ("\n".intercalate ls).toList).length = ls.length := by
  induction ls with
  | nil => rfl
  | cons l ls ih =>
    obtain ⟨⟨hne, hl⟩, hls⟩ := List.forall_mem_cons.1 h
    cases ls with
    | nil =>
      have hlist : l.toList ≠ [] := fun e => hne (String.toList_eq_nil_iff.1 e)
      rw [String.intercalate_singleton, lines_unended hlist hl]
      rfl
    | cons m ls =>
      have htext : ("\n".intercalate (l :: m :: ls)).toList =
          l.toList ++ '\n' :: ("\n".intercalate (m :: ls)).toList := by
        rw [String.intercalate_cons_cons, String.toList_append, String.toList_append,
          List.append_assoc]
        rfl
      rw [htext, length_lines_feed hl, ih hls, List.length_cons (a := l)]

/-! ## Groups -/

theorem Production.toList_display (p : Production) :
    p.display.toList = p.left :: ' ' :: '-' :: '>' :: ' ' :: (showRight p.right).toList := by
  have hdisplay : p.display = p.left.toString ++ " -> " ++ showRight p.right := rfl
  simp [hdisplay]

namespace RuleGroup

def productions (group : RuleGroup) : List Production := group.rights.map (Production.mk group.left)

def lineTexts (group : RuleGroup) : List String :=
  match group.rights with
  | [] => []
  | r :: rest => (Production.mk group.left r).display :: rest.map fun r => "   | " ++ showRight r

theorem length_lineTexts {group : RuleGroup} : group.lineTexts.length = group.rights.length := by
  unfold lineTexts
  split
  · next h => rw [h]; rfl
  · next h => rw [h, List.length_cons, List.length_map, List.length_cons]

theorem of_mem_lineTexts {group : RuleGroup} {line : String} (h : line ∈ group.lineTexts) :
    ∃ r ∈ group.rights, line = (Production.mk group.left r).display ∨
      line = "   | " ++ showRight r := by
  cases hrights : group.rights with
  | nil => simp [lineTexts, hrights] at h
  | cons r rest =>
    simp only [lineTexts, hrights, List.mem_cons, List.mem_map] at h
    rcases h with rfl | ⟨q, hq, rfl⟩
    · exact ⟨r, List.mem_cons_self, .inl rfl⟩
    · exact ⟨q, List.mem_cons_of_mem r hq, .inr rfl⟩

theorem plain_eq {group : RuleGroup} : group.plain true = "\n".intercalate group.lineTexts := by
  cases h : group.rights with
  | nil => simp [plain, lineTexts, h]
  | cons r rest =>
    have hbar : ∀ r, "\n   | " ++ showRight r = "\n" ++ ("   | " ++ showRight r) := fun r => by
      rw [← String.append_assoc]
      rfl
    simp only [plain, lineTexts, h, if_true, intercalate_cons_eq, List.map_map]
    refine congrArg (_ ++ String.join ·) (List.map_congr_left fun r _ => hbar r)

end RuleGroup

namespace Grammar

variable {g : Grammar} {a : Symbol} {group : RuleGroup}

def DefinedBefore (g : Grammar) (a b : Symbol) : Prop :=
  b ≠ g.start ∧
    (a = g.start ∨ (g.productions.map (·.left)).idxOf a < (g.productions.map (·.left)).idxOf b)

/-- Goes through the productions once and adds each to the rules of its left side. Symbols are told
by their indices. -/
def storedRules (g : Grammar) : List (List (List Nat)) :=
  g.productions.foldl
    (fun store p =>
      store.modify (g.symbols.idxOf p.left) (· ++ [p.right.map g.symbols.idxOf]))
    (g.symbols.map fun _ => [])

theorem alternatives_ne_nil_iff : g.alternatives a ≠ [] ↔ a ∈ g.productions.map (·.left) := by
  simp [alternatives, List.filter_eq_nil_iff]

theorem map_left_ruleGroups : g.ruleGroups.map (·.left) =
    g.nonTerminalOrder.filter (g.alternatives · ≠ []) := by
  simp [ruleGroups, List.filter_map, Function.comp_def]

theorem mem_ruleGroups : group ∈ g.ruleGroups ↔
    group.rights = g.alternatives group.left ∧ group.rights ≠ [] := by
  obtain ⟨a, rights⟩ := group
  simp only [ruleGroups, List.mem_filter, List.mem_map, RuleGroup.mk.injEq, decide_eq_true_eq]
  constructor
  · rintro ⟨⟨b, -, rfl, rfl⟩, hne⟩
    exact ⟨rfl, hne⟩
  · rintro ⟨rfl, hne⟩
    obtain ⟨p, hp, rfl⟩ := List.mem_map.1 (alternatives_ne_nil_iff.1 hne)
    exact ⟨⟨_, mem_nonTerminalOrder.2 (g.wellFormed.left_mem p hp), rfl, rfl⟩, hne⟩

theorem nodup_map_left_ruleGroups (g : Grammar) : (g.ruleGroups.map (·.left)).Nodup := by
  rw [map_left_ruleGroups]
  exact (nodup_eraseDups _).filter _

def groupedProductions (g : Grammar) : List Production :=
  g.ruleGroups.flatMap (·.productions)

theorem productions_of_mem_ruleGroups (h : group ∈ g.ruleGroups) :
    group.productions = g.productions.filter (·.left = group.left) := by
  rw [RuleGroup.productions, (mem_ruleGroups.1 h).1, alternatives, List.map_map]
  refine (List.map_congr_left fun p hp => ?_).trans (List.map_id _)
  have hleft : p.left = group.left := by simpa using (List.mem_filter.1 hp).2
  rw [Function.comp_apply, ← hleft]
  rfl

theorem filter_groupedProductions (a : Symbol) :
    g.groupedProductions.filter (·.left = a) = g.productions.filter (·.left = a) := by
  have hpart : ∀ group ∈ g.ruleGroups, group.productions.filter (·.left = a) =
      if group.left = a then g.productions.filter (·.left = a) else [] := by
    intro group h
    rw [productions_of_mem_ruleGroups h, List.filter_filter]
    split
    · next e => simp [e]
    · next e =>
      refine List.filter_eq_nil_iff.2 fun p _ => ?_
      simp only [Bool.and_eq_true, decide_eq_true_eq, not_and]
      rintro rfl e'
      exact e e'.symm
  rw [groupedProductions, List.filter_flatMap, List.flatMap_congr hpart]
  refine flatMap_ite_eq g.nodup_map_left_ruleGroups fun ha =>
    List.filter_eq_nil_iff.2 fun p hp => ?_
  simp only [decide_eq_true_eq]
  rintro rfl
  have hne : g.alternatives p.left ≠ [] := alternatives_ne_nil_iff.2 (List.mem_map_of_mem hp)
  exact ha (List.mem_map.2 ⟨⟨p.left, g.alternatives p.left⟩, mem_ruleGroups.2 ⟨rfl, hne⟩, rfl⟩)

theorem groupedProductions_perm (g : Grammar) : g.groupedProductions.Perm g.productions := by
  refine List.perm_iff_count.2 fun p => ?_
  have hcount : ∀ l : List Production, l.count p = (l.filter (·.left = p.left)).count p := fun l =>
    (List.count_filter (by simp)).symm
  rw [hcount, filter_groupedProductions, ← hcount]

/-! ## The order of the groups -/

theorem definedBefore_of_idxOf_lt {b : Symbol} (ha : a ∈ g.productions.map (·.left))
    (hb : b ∈ g.productions.map (·.left))
    (h : (g.start :: g.productions.map (·.left) ++ g.nonTerminals.toList).idxOf a <
      (g.start :: g.productions.map (·.left) ++ g.nonTerminals.toList).idxOf b) :
    g.DefinedBefore a b := by
  rw [List.idxOf_append_of_mem (List.mem_cons_of_mem _ ha),
    List.idxOf_append_of_mem (List.mem_cons_of_mem _ hb)] at h
  have hstart : b ≠ g.start := by
    rintro rfl
    rw [List.idxOf_cons_self] at h
    exact absurd h (Nat.not_lt_zero _)
  refine ⟨hstart, ?_⟩
  by_cases hastart : a = g.start
  · exact .inl hastart
  · rw [List.idxOf_cons_ne _ (Ne.symm hastart), List.idxOf_cons_ne _ (Ne.symm hstart)] at h
    exact .inr (Nat.lt_of_succ_lt_succ h)

theorem pairwise_definedBefore (g : Grammar) :
    (g.ruleGroups.map (·.left)).Pairwise g.DefinedBefore := by
  rw [map_left_ruleGroups]
  refine ((pairwise_idxOf_eraseDups _).filter _).imp_of_mem fun {a b} ha hb hab => ?_
  have ha := alternatives_ne_nil_iff.1 (by simpa using (List.mem_filter.1 ha).2)
  have hb := alternatives_ne_nil_iff.1 (by simpa using (List.mem_filter.1 hb).2)
  exact definedBefore_of_idxOf_lt ha hb hab

/-! ## Rules told by indices -/

theorem name?_idxOf {s : Symbol} (h : g.Declares s) : g.name? (g.symbols.idxOf s) = some s :=
  List.getElem?_idxOf (mem_symbols.2 h)

theorem mapM_name? {r : List Symbol} (h : ∀ s ∈ r, g.Declares s) :
    (r.map g.symbols.idxOf).mapM g.name? = some r := by
  have hnames := mapM_eq_some_map (f := g.name? ∘ g.symbols.idxOf) (g := id)
    fun s hs => name?_idxOf (h s hs)
  rw [List.mapM_map, hnames, List.map_id]

theorem names_of_rules (g : Grammar) (a : Symbol) :
    (g.rules a).mapM (·.mapM g.name?) = some (g.alternatives a) := by
  have hright : ∀ r ∈ g.alternatives a, (r.map g.symbols.idxOf).mapM g.name? = some r :=
    fun r hr => mapM_name? (g.wellFormed.right_declared _ (mem_alternatives.1 hr))
  have hnames := mapM_eq_some_map (f := (·.mapM g.name?) ∘ List.map g.symbols.idxOf) (g := id)
    hright
  rw [rules, List.mapM_map, hnames, List.map_id]

theorem getElem?_foldl_modify {ps : List Production} {store : List (List (List Nat))} {i : Nat} :
    (ps.foldl (fun store p => store.modify (g.symbols.idxOf p.left)
      (· ++ [p.right.map g.symbols.idxOf])) store)[i]? =
      store[i]?.map (· ++ (ps.filter fun p => g.symbols.idxOf p.left = i).map fun p =>
        p.right.map g.symbols.idxOf) := by
  induction ps generalizing store with
  | nil => simp
  | cons p ps ih =>
    rw [List.foldl_cons, ih, List.getElem?_modify]
    by_cases hi : g.symbols.idxOf p.left = i
    · simp [hi, Function.comp_def]
    · simp [hi]

theorem getElem?_storedRules (h : a ∈ g.nonTerminals) :
    g.storedRules[g.symbols.idxOf a]? = some (g.rules a) := by
  have hmem : a ∈ g.symbols := mem_symbols.2 (.inr h)
  have hempty : (g.symbols.map fun _ => ([] : List (List Nat)))[g.symbols.idxOf a]? = some [] := by
    rw [List.getElem?_map, List.getElem?_idxOf hmem]
    rfl
  have hsame : g.productions.filter (fun p => g.symbols.idxOf p.left = g.symbols.idxOf a) =
      g.productions.filter (·.left = a) := by
    refine List.filter_congr fun p _ => decide_eq_decide.2 ?_
    rw [eq_comm, List.idxOf_inj hmem, eq_comm]
  rw [storedRules, getElem?_foldl_modify, hempty, hsame, rules, alternatives, List.map_map]
  rfl

/-! ## Lines -/

theorem rulesPlain_eq (g : Grammar) :
    g.rulesPlain = "\n".intercalate (g.ruleGroups.flatMap (·.lineTexts)) := by
  have hlines : ∀ group ∈ g.ruleGroups, group.lineTexts ≠ [] := by
    intro group h
    rw [ne_eq, ← List.length_eq_zero_iff, RuleGroup.length_lineTexts, List.length_eq_zero_iff]
    exact (mem_ruleGroups.1 h).2
  rw [← intercalate_flatMap hlines, rulesPlain]
  exact congrArg _ (List.map_congr_left fun group _ => group.plain_eq)

theorem length_lineTexts (g : Grammar) :
    (g.ruleGroups.flatMap (·.lineTexts)).length = g.productions.length := by
  have hlength : ∀ group : RuleGroup, group.lineTexts.length = group.productions.length := by
    intro group
    rw [RuleGroup.length_lineTexts, RuleGroup.productions, List.length_map]
  rw [← g.groupedProductions_perm.length_eq, groupedProductions, List.length_flatMap,
    List.length_flatMap]
  simp only [hlength]

theorem not_mem_showRight {r : List Symbol} {c : Char} (h : c ∉ r) (hc : c ≠ epsilon) :
    c ∉ (showRight r).toList := by
  unfold showRight
  split
  · simpa using hc
  · simpa using h

theorem unbroken_of_mem_lineTexts (hsymbols : ∀ s, g.Declares s → s ≠ '\n')
    (hgroup : group ∈ g.ruleGroups) {line : String} (h : line ∈ group.lineTexts) :
    line ≠ "" ∧ '\n' ∉ line.toList := by
  obtain ⟨r, hr, hline⟩ := RuleGroup.of_mem_lineTexts h
  rw [(mem_ruleGroups.1 hgroup).1, mem_alternatives] at hr
  have hleft : '\n' ≠ group.left := fun e =>
    hsymbols _ (.inr (g.wellFormed.left_mem _ hr)) e.symm
  have hright : '\n' ∉ (showRight r).toList :=
    not_mem_showRight (fun hmem => hsymbols _ (g.wellFormed.right_declared _ hr _ hmem) rfl)
      (by decide)
  rcases hline with rfl | rfl
  · have htext := Production.toList_display ⟨group.left, r⟩
    refine ⟨fun e => ?_, by simp [htext, hleft, hright]⟩
    rw [e] at htext
    cases htext
  · simp [hright]

/-- What the groups keep of the productions: all of them, the order of those with one left side,
and the order in which left sides come up. Their right sides are the rules of the left side, which
are kept by indices. -/
structure GroupedBy (g : Grammar) (groups : List RuleGroup) : Prop where
  lefts_nodup : (groups.map (·.left)).Nodup
  inhabited : ∀ group ∈ groups, group.rights ≠ []
  standing : (groups.map (·.left)).Sublist g.nonTerminalOrder
  defined : (groups.map (·.left)).Pairwise g.DefinedBefore
  rights : ∀ group ∈ groups,
    group.rights = (g.productions.filter (·.left = group.left)).map (·.right)
  rules : ∀ group ∈ groups, (g.rules group.left).mapM (·.mapM g.name?) = some group.rights
  stored : ∀ group ∈ groups, ∃ i, g.index? group.left = some i ∧
    g.storedRules[i]? = some (g.rules group.left)
  perm : (groups.flatMap (·.productions)).Perm g.productions
  stable : ∀ a, (groups.flatMap (·.productions)).filter (·.left = a) =
    g.productions.filter (·.left = a)

theorem groupedBy_ruleGroups (g : Grammar) : g.GroupedBy g.ruleGroups where
  lefts_nodup := g.nodup_map_left_ruleGroups
  inhabited := fun _ h => (mem_ruleGroups.1 h).2
  standing := by
    rw [map_left_ruleGroups]
    exact List.filter_sublist
  defined := g.pairwise_definedBefore
  rights := fun _ h => (mem_ruleGroups.1 h).1
  rules := fun group h => by rw [names_of_rules, (mem_ruleGroups.1 h).1]
  stored := by
    intro group h
    obtain ⟨hrights, hne⟩ := mem_ruleGroups.1 h
    rw [hrights] at hne
    obtain ⟨p, hp, hleft⟩ := List.mem_map.1 (alternatives_ne_nil_iff.1 hne)
    have hmem : group.left ∈ g.nonTerminals := hleft ▸ g.wellFormed.left_mem p hp
    exact ⟨_, idxOf?_of_mem (mem_symbols.2 (.inr hmem)), getElem?_storedRules hmem⟩
  perm := g.groupedProductions_perm
  stable := filter_groupedProductions

theorem grouping_keeps_productions (g : Grammar) :
    g.GroupedBy g.ruleGroups ∧
    g.displayRules .plain = "\n".intercalate (g.ruleGroups.flatMap (·.lineTexts)) ∧
    (g.ruleGroups.flatMap (·.lineTexts)).length = g.productions.length ∧
    ((∀ s, g.Declares s → s ≠ '\n') →
      (lines (g.displayRules .plain).toList).length = g.productions.length) := by
  refine ⟨g.groupedBy_ruleGroups, g.rulesPlain_eq, g.length_lineTexts, fun hsymbols => ?_⟩
  rw [displayRules, rulesPlain_eq, length_lines_intercalate, length_lineTexts]
  intro line hline
  obtain ⟨group, hgroup, hmem⟩ := List.mem_flatMap.1 hline
  exact unbroken_of_mem_lineTexts hsymbols hgroup hmem

def scattered : Grammar :=
  ⟨{ terminals := .ofList ['a', 'b']
     nonTerminals := .ofList ['A', 'S', 'U']
     productions := [⟨'A', ['a']⟩, ⟨'S', ['A', 'b']⟩, ⟨'A', []⟩, ⟨'A', ['a']⟩]
     start := 'S' }, Presentation.fault?_eq_none_iff.1 (by decide)⟩

theorem scattered_grouping : (∀ s, scattered.Declares s → s ≠ '\n') ∧
    scattered.ruleGroups = [⟨'S', [['A', 'b']]⟩, ⟨'A', [['a'], [], ['a']]⟩] ∧
    (scattered.rules 'A').mapM (·.mapM scattered.name?) = some [['a'], [], ['a']] ∧
    scattered.rules 'A' = [[3], [], [3]] ∧
    scattered.displayRules .plain = "S -> Ab\nA -> a\n   | ε\n   | a" ∧
    (lines (scattered.displayRules .plain).toList).length = 4 := by
  have hsymbols : ∀ s, scattered.Declares s → s ≠ '\n' := by
    rintro s hs rfl
    exact absurd hs (by decide)
  have hgroups : scattered.ruleGroups = [⟨'S', [['A', 'b']]⟩, ⟨'A', [['a'], [], ['a']]⟩] := by
    decide
  obtain ⟨hgrouped, -, -, hlines⟩ := grouping_keeps_productions scattered
  have hA : ⟨'A', [['a'], [], ['a']]⟩ ∈ scattered.ruleGroups := by decide
  exact ⟨hsymbols, hgroups, hgrouped.rules _ hA, by decide, by decide +kernel, hlines hsymbols⟩

end Grammar

end PredictiveParsing
