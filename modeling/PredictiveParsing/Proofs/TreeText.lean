import PredictiveParsing.Proofs.Forest

/-!
# The text of a tree determines the tree

Labels may be the very characters that set trees apart, so a parenthesis in the text of a tree can
be a label or a sign of structure. Which of the two it is, is known from its place alone: a label
stands at the beginning and behind each opening parenthesis or blank that is not a label itself. So
the text of a tree can be told from what follows it unless that begins with an opening parenthesis,
which would begin the children of a leaf.
-/
namespace PredictiveParsing

namespace ParseTree

variable {x : Symbol} {t u : ParseTree} {ts us : List ParseTree} {r r' : List Char}

def childrenText : List ParseTree → List Char
  | [] => []
  | t :: ts => '(' :: (t.display.toList ++ (displaySiblings ts).toList ++ [')'])

theorem toList_display : (node x ts).display.toList = x :: childrenText ts := by
  cases ts with
  | nil => simp [display, childrenText]
  | cons t ts => simp [display, childrenText]

theorem toList_displaySiblings_cons : (displaySiblings (t :: ts)).toList =
    ' ' :: (t.display.toList ++ (displaySiblings ts).toList) := by
  simp [displaySiblings]

/-- Trees behind a blank each, up to the parenthesis that closes them, are told apart. -/
def SiblingsKnown (ts : List ParseTree) : Prop :=
  ∀ us r r', (displaySiblings ts).toList ++ ')' :: r = (displaySiblings us).toList ++ ')' :: r' →
    ts = us ∧ r = r'

theorem SiblingsKnown.childrenText_append (h : SiblingsKnown ts) (hr : r.head? ≠ some '(')
    (hr' : r'.head? ≠ some '(') (heq : childrenText ts ++ r = childrenText us ++ r') :
    ts = us ∧ r = r' := by
  cases ts with
  | nil =>
    cases us with
    | nil => exact ⟨rfl, heq⟩
    | cons u us =>
      simp only [childrenText, List.nil_append] at heq
      rw [heq] at hr
      exact absurd rfl hr
  | cons t ts =>
    cases us with
    | nil =>
      simp only [childrenText, List.nil_append] at heq
      rw [← heq] at hr'
      exact absurd rfl hr'
    | cons u us =>
      refine h (u :: us) r r' ?_
      simp only [childrenText, List.cons_append, List.cons.injEq, true_and, List.append_assoc]
        at heq
      simpa [toList_displaySiblings_cons] using heq

theorem SiblingsKnown.display_append (h : SiblingsKnown ts) (hr : r.head? ≠ some '(')
    (hr' : r'.head? ≠ some '(')
    (heq : (node x ts).display.toList ++ r = u.display.toList ++ r') :
    node x ts = u ∧ r = r' := by
  obtain ⟨y, us⟩ := u
  rw [toList_display, toList_display, List.cons_append, List.cons_append, List.cons.injEq] at heq
  obtain ⟨rfl, hchildren⟩ := heq
  obtain ⟨rfl, hrest⟩ := h.childrenText_append hr hr' hchildren
  exact ⟨rfl, hrest⟩

theorem head?_displaySiblings_append :
    ((displaySiblings ts).toList ++ ')' :: r).head? ≠ some '(' := by
  cases ts with
  | nil => simp [displaySiblings]
  | cons t ts => simp [toList_displaySiblings_cons]

theorem siblingsKnown (ts : List ParseTree) : SiblingsKnown ts := by
  induction ts using forest_induction with
  | nil =>
    intro us r r' heq
    cases us with
    | nil => exact ⟨rfl, (List.cons.inj heq).2⟩
    | cons u us =>
      rw [toList_displaySiblings_cons] at heq
      exact absurd (List.cons.inj heq).1 (by decide)
  | cons x children ts ihchildren ih =>
    intro us r r' heq
    cases us with
    | nil =>
      rw [toList_displaySiblings_cons] at heq
      exact absurd (List.cons.inj heq).1 (by decide)
    | cons u us =>
      rw [toList_displaySiblings_cons, toList_displaySiblings_cons, List.cons_append,
        List.cons_append, List.append_assoc, List.append_assoc] at heq
      obtain ⟨rfl, hsiblings⟩ := ihchildren.display_append head?_displaySiblings_append
        head?_displaySiblings_append (List.cons.inj heq).2
      obtain ⟨rfl, hrest⟩ := ih us r r' hsiblings
      exact ⟨rfl, hrest⟩

theorem display_determines_tree :
    (∀ t u : ParseTree, t.display = u.display → t = u) ∧
    ∀ (t u : ParseTree) (r r' : String), r.toList.head? ≠ some '(' → r'.toList.head? ≠ some '(' →
      t.display ++ r = u.display ++ r' → t = u ∧ r = r' := by
  have hfollowed : ∀ (t u : ParseTree) (r r' : String), r.toList.head? ≠ some '(' →
      r'.toList.head? ≠ some '(' → t.display ++ r = u.display ++ r' → t = u ∧ r = r' := by
    intro ⟨x, ts⟩ u r r' hr hr' heq
    have hlists := congrArg String.toList heq
    rw [String.toList_append, String.toList_append] at hlists
    obtain ⟨htree, hrest⟩ := (siblingsKnown ts).display_append hr hr' hlists
    exact ⟨htree, String.toList_inj.1 hrest⟩
  refine ⟨fun t u heq => ?_, hfollowed⟩
  exact (hfollowed t u "" "" nofun nofun (by rw [heq])).1

/-- Every other character of this text is a label. Behind a leaf an opening parenthesis is taken
for the beginning of its children. -/
theorem parentheses_determined :
    (node '(' [leaf ' ', leaf '(']).display = "((  ()" ∧ ")".toList.head? ≠ some '(' ∧
    (node '(' [leaf ' ', leaf '(']).display ++ ")" =
      ((leaf '(').withChildren [leaf ' ', leaf '(']).display ++ ")" ∧
    node '(' [leaf ' ', leaf '('] = (leaf '(').withChildren [leaf ' ', leaf '('] ∧
    (leaf 'a').display ++ "(b)" = (node 'a' [leaf 'b']).display ++ "" := by
  have hfollowed : ")".toList.head? ≠ some '(' := by decide
  have htexts : (node '(' [leaf ' ', leaf '(']).display ++ ")" =
      ((leaf '(').withChildren [leaf ' ', leaf '(']).display ++ ")" := rfl
  obtain ⟨htree, -⟩ := display_determines_tree.2 _ _ _ _ hfollowed hfollowed htexts
  exact ⟨by decide +kernel, hfollowed, htexts, htree, by decide +kernel⟩

end ParseTree

end PredictiveParsing
