import PredictiveParsing.Grammar.Basic

/-!
Grammars written one production per line, a single symbol, an arrow and the right side, with
blanks anywhere between symbols. Left sides are the non-terminals, all other symbols are
terminals, and the first left side is the start symbol. Blanks are the characters with the
White_Space property of Unicode. A line ends at a line feed, which takes a carriage return right
before it along; a carriage return elsewhere is an ordinary character, and the end of the text
closes a line that has begun.
-/
namespace PredictiveParsing

/-! ## Lines -/

section Lines

def lines : List Char → List (List Char)
  | [] => []
  | '\n' :: rest => [] :: lines rest
  | '\r' :: '\n' :: rest => [] :: lines rest
  | c :: rest =>
    match lines rest with
    | [] => [[c]]
    | line :: more => (c :: line) :: more

variable {line rest : List Char}

theorem lines_cons {c : Char} (hc : c ≠ '\n') (hr : c = '\r' → rest.head? ≠ some '\n') :
    lines (c :: rest) =
      match lines rest with
      | [] => [[c]]
      | line :: more => (c :: line) :: more := by
  rw [lines.eq_def]
  split
  · next h => cases h
  · next h =>
    obtain ⟨rfl, -⟩ := List.cons.inj h
    exact absurd rfl hc
  · next h =>
    obtain ⟨rfl, rfl⟩ := List.cons.inj h
    exact absurd rfl (hr rfl)
  · next h =>
    obtain ⟨rfl, rfl⟩ := List.cons.inj h
    rfl

theorem head?_ne_feed (h : '\n' ∉ line) : line.head? ≠ some '\n' := fun e =>
  h (List.mem_of_mem_head? e)

theorem head?_append_ne_feed (hne : line ≠ []) (h : '\n' ∉ line) (rest : List Char) :
    (line ++ rest).head? ≠ some '\n' := by
  cases line with
  | nil => exact absurd rfl hne
  | cons c line => exact fun e => h (List.mem_cons.2 (.inl (Option.some.inj e).symm))

theorem lines_unended (hne : line ≠ []) (hline : '\n' ∉ line) : lines line = [line] := by
  induction line with
  | nil => exact absurd rfl hne
  | cons c line ih =>
    rw [List.mem_cons, not_or] at hline
    obtain ⟨hc, hline⟩ := hline
    rw [lines_cons (Ne.symm hc) fun _ => head?_ne_feed hline]
    cases line with
    | nil => rw [lines]
    | cons d line => rw [ih (List.cons_ne_nil d line) hline]

theorem lines_feed (hline : '\n' ∉ line) (hlast : line.getLast? ≠ some '\r') :
    lines (line ++ '\n' :: rest) = line :: lines rest := by
  induction line with
  | nil => rw [List.nil_append, lines]
  | cons c line ih =>
    rw [List.mem_cons, not_or] at hline
    obtain ⟨hc, hline⟩ := hline
    rw [List.cons_append]
    cases line with
    | nil =>
      have hr : c ≠ '\r' := fun e => hlast (congrArg some e)
      rw [lines_cons (Ne.symm hc) fun e => absurd e hr, ih hline nofun]
    | cons d line =>
      rw [List.getLast?_cons_cons] at hlast
      have hhead := head?_append_ne_feed (List.cons_ne_nil d line) hline ('\n' :: rest)
      rw [lines_cons (Ne.symm hc) fun _ => hhead, ih hline hlast]

theorem lines_returnFeed (hline : '\n' ∉ line) :
    lines (line ++ '\r' :: '\n' :: rest) = line :: lines rest := by
  induction line with
  | nil => rw [List.nil_append, lines]
  | cons c line ih =>
    rw [List.mem_cons, not_or] at hline
    obtain ⟨hc, hline⟩ := hline
    have hhead : (line ++ '\r' :: '\n' :: rest).head? ≠ some '\n' := by
      cases line with
      | nil => exact fun h => absurd (Option.some.inj h) (by decide)
      | cons d line => exact head?_append_ne_feed (List.cons_ne_nil d line) hline _
    rw [List.cons_append, lines_cons (Ne.symm hc) fun _ => hhead, ih hline]

end Lines

/-! ## Blanks and arrows -/

def blankRanges : List (Nat × Nat) :=
  [(0x0009, 0x000D), (0x0020, 0x0020), (0x0085, 0x0085), (0x00A0, 0x00A0), (0x1680, 0x1680),
    (0x2000, 0x200A), (0x2028, 0x2029), (0x202F, 0x202F), (0x205F, 0x205F), (0x3000, 0x3000)]

def isBlank (c : Char) : Bool := blankRanges.any fun r => r.1 ≤ c.toNat && c.toNat ≤ r.2

def trimBlanks (text : List Char) : List Char :=
  ((text.dropWhile isBlank).reverse.dropWhile isBlank).reverse

def arrowPieces : List Char → List Char × List (List Char)
  | [] => ([], [])
  | '-' :: '>' :: rest =>
    let (piece, pieces) := arrowPieces rest
    ([], piece :: pieces)
  | c :: rest =>
    let (piece, pieces) := arrowPieces rest
    (c :: piece, pieces)

/-! ## Reading and writing -/

namespace Production

def ofLine (line : List Char) : Except LineFault (Option Production) :=
  if line.all isBlank then .ok none
  else
    match arrowPieces line with
    | (_, []) => .error .noArrow
    | (left, [right]) =>
      match trimBlanks left with
      | [] => .error .noLeft
      | [a] => .ok (some ⟨a, right.filter fun c => !isBlank c⟩)
      | left => .error (.longLeft left)
    | _ => .error .manyArrows

def ofLines (n : Nat) : List (List Char) → Except Error (List Production)
  | [] => .ok []
  | line :: rest =>
    match ofLine line with
    | .error fault => .error (.badLine n fault)
    | .ok none => ofLines (n + 1) rest
    | .ok (some p) => (ofLines (n + 1) rest).map (p :: ·)

def write (p : Production) : List Char :=
  p.left :: ' ' :: '-' :: '>' :: ' ' :: p.right.intersperse ' '

end Production

namespace Grammar

def ofProductions : List Production → Except Error Grammar
  | [] => .error (.malformed .noProductions)
  | p :: rest => build (.ofProductions p.left (p :: rest))

def read (text : String) : Except Error Grammar :=
  (Production.ofLines 1 (lines text.toList)).bind ofProductions

def write (productions : List Production) : String :=
  String.ofList (productions.flatMap fun p => p.write ++ ['\n'])

end Grammar

end PredictiveParsing
