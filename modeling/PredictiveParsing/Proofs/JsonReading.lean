import PredictiveParsing.Json

/-!
# Compact JSON text is read back

`Json.read` is a reader of compact JSON text, by recursive descent: a value, or a list of items
with commas between them up to the closing bracket. The number that goes down with the nesting
starts at the length of the text, which is always enough (`readValue_render`). What is written is
read back (`read_render`), so a text stands for one value.
-/
namespace PredictiveParsing

namespace Json

/-! ## Strings -/

def hexValue? (c : Char) : Option Nat :=
  if '0' ≤ c ∧ c ≤ '9' then some (c.toNat - 48)
  else if 'a' ≤ c ∧ c ≤ 'f' then some (c.toNat - 87)
  else none

/-- The character with the given code; the halves of a surrogate pair are no characters. -/
def ofHex? (digits : List Char) : Option Char := do
  let values ← digits.mapM hexValue?
  let n := values.foldl (fun n d => 16 * n + d) 0
  if n.isValidChar then some (Char.ofNat n) else none

def unescape? : Char → Option Char
  | '"' => some '"'
  | '\\' => some '\\'
  | '/' => some '/'
  | 'b' => some '\x08'
  | 'f' => some '\x0c'
  | 'n' => some '\n'
  | 'r' => some '\r'
  | 't' => some '\t'
  | _ => none

def readString : List Char → Option (List Char × List Char)
  | [] => none
  | '"' :: rest => some ([], rest)
  | '\\' :: 'u' :: d :: e :: f :: g :: rest =>
    (ofHex? [d, e, f, g]).bind fun c => (readString rest).map (Prod.map (c :: ·) id)
  | '\\' :: letter :: rest =>
    (unescape? letter).bind fun c => (readString rest).map (Prod.map (c :: ·) id)
  | c :: rest => (readString rest).map (Prod.map (c :: ·) id)

theorem hexValue?_hexDigit : ∀ n < 16, hexValue? (hexDigit n) = some n := by decide

theorem ofHex?_hexDigit {c : Char} (h : c.toNat < 32) :
    ofHex? ['0', '0', hexDigit (c.toNat / 16), hexDigit (c.toNat % 16)] = some c := by
  have hzero : hexValue? '0' = some 0 := by decide
  have hhigh := hexValue?_hexDigit (c.toNat / 16) (by omega)
  have hlow := hexValue?_hexDigit (c.toNat % 16) (by omega)
  have hcode : 16 * (c.toNat / 16) + c.toNat % 16 = c.toNat := Nat.div_add_mod _ _
  have hvalid : c.toNat.isValidChar := c.valid
  simp [ofHex?, hzero, hhigh, hlow, hcode, hvalid, Char.ofNat_toNat]

theorem readString_plain {c : Char} (hquote : c ≠ '"') (hbackslash : c ≠ '\\')
    (rest : List Char) :
    readString (c :: rest) = (readString rest).map (Prod.map (c :: ·) id) := by
  rw [readString.eq_def]
  split <;> simp_all

theorem readString_escape (c : Char) (rest : List Char) :
    readString ((escape c).toList ++ rest) = (readString rest).map (Prod.map (c :: ·) id) := by
  by_cases hletter : c = '"' ∨ c = '\\' ∨ c = '\x08' ∨ c = '\x0c' ∨ c = '\n' ∨ c = '\r' ∨ c = '\t'
  · rcases hletter with rfl | rfl | rfl | rfl | rfl | rfl | rfl <;>
      simp [escape, readString, unescape?]
  · simp only [not_or] at hletter
    obtain ⟨hquote, hbackslash, hb, hf, hn, hr, ht⟩ := hletter
    simp only [escape, hquote, hbackslash, hb, hf, hn, hr, ht, if_false]
    split
    · next hcontrol =>
      have hcode := ofHex?_hexDigit hcontrol
      simp [readString, hcode]
    · rw [Char.toString_eq_singleton, String.toList_singleton]
      exact readString_plain hquote hbackslash rest

theorem toList_quote (s : String) :
    (quote s).toList = '"' :: (s.toList.flatMap fun c => (escape c).toList) ++ ['"'] := by
  simp [quote, String.toList_join, List.flatMap_map]

theorem readString_quoted (s rest : List Char) :
    readString ((s.flatMap fun c => (escape c).toList) ++ '"' :: rest) = some (s, rest) := by
  induction s with
  | nil => rfl
  | cons c s ih =>
    rw [List.flatMap_cons, List.append_assoc, readString_escape, ih]
    rfl

/-! ## Values -/

def readItems {α : Type} (item : List Char → Option (α × List Char)) (close : Char) :
    Nat → List Char → Option (List α × List Char)
  | 0, _ => none
  | n + 1, text =>
    match item text with
    | none => none
    | some (x, rest) =>
      match rest with
      | [] => none
      | c :: rest =>
        if c = close then some ([x], rest)
        else if c = ',' then (readItems item close n rest).map (Prod.map (x :: ·) id)
        else none

def readList {α : Type} (item : List Char → Option (α × List Char)) (close : Char) (n : Nat) :
    List Char → Option (List α × List Char)
  | [] => none
  | c :: rest => if c = close then some ([], rest) else readItems item close n (c :: rest)

def readField (value : List Char → Option (Json × List Char)) :
    List Char → Option ((String × Json) × List Char)
  | '"' :: text =>
    match readString text with
    | some (name, ':' :: rest) =>
      (value rest).map fun (j, rest) => ((String.ofList name, j), rest)
    | _ => none
  | _ => none

def readValue : Nat → List Char → Option (Json × List Char)
  | 0, _ => none
  | _ + 1, 'n' :: 'u' :: 'l' :: 'l' :: rest => some (null, rest)
  | _ + 1, 't' :: 'r' :: 'u' :: 'e' :: rest => some (bool true, rest)
  | _ + 1, 'f' :: 'a' :: 'l' :: 's' :: 'e' :: rest => some (bool false, rest)
  | _ + 1, '"' :: rest => (readString rest).map (Prod.map (str ∘ String.ofList) id)
  | n + 1, '[' :: rest => (readList (readValue n) ']' n rest).map (Prod.map arr id)
  | n + 1, '\x7b' :: rest =>
    (readList (readField (readValue n)) '\x7d' n rest).map (Prod.map obj id)
  | _, _ => none

def read (text : String) : Option Json :=
  match readValue (text.length + 1) text.toList with
  | some (j, []) => some j
  | _ => none

section Items

variable {α : Type} {item : List Char → Option (α × List Char)} {close : Char} {n : Nat}
  {l : List α}

theorem length_le_intercalate {s : List Char} {l : List (List Char)} :
    ∀ text ∈ l, text.length ≤ (s.intercalate l).length := by
  induction l with
  | nil => exact fun text h => absurd h List.not_mem_nil
  | cons x l ih =>
    cases l with
    | nil => simp [List.intercalate_singleton]
    | cons y l =>
      rw [List.intercalate_cons_cons, List.length_append, List.length_append]
      refine List.forall_mem_cons.2 ⟨by omega, fun text h => ?_⟩
      have := ih text h
      omega

theorem length_le_length_intercalate (l : List (List Char)) :
    l.length ≤ ([','].intercalate l).length + 1 := by
  induction l with
  | nil => exact Nat.zero_le _
  | cons x l ih =>
    cases l with
    | nil => exact Nat.le_add_left 1 _
    | cons y l =>
      rw [List.intercalate_cons_cons]
      simp only [List.length_append, List.length_cons] at ih ⊢
      omega

theorem readItems_intercalate (write : α → List Char) (hclose : close ≠ ',') (hne : l ≠ [])
    (hn : l.length ≤ n) (h : ∀ x ∈ l, ∀ rest, item (write x ++ rest) = some (x, rest))
    (rest : List Char) :
    readItems item close n ([','].intercalate (l.map write) ++ close :: rest) =
      some (l, rest) := by
  induction l generalizing n with
  | nil => exact absurd rfl hne
  | cons x l ih =>
    cases n with
    | zero => exact absurd hn (Nat.not_succ_le_zero _)
    | succ n =>
      obtain ⟨hx, hl⟩ := List.forall_mem_cons.1 h
      cases l with
      | nil =>
        rw [List.map_singleton, List.intercalate_singleton, readItems, hx]
        simp
      | cons y l =>
        have hmore := ih (List.cons_ne_nil y l) (Nat.le_of_succ_le_succ hn) hl
        rw [List.map_cons] at hmore
        rw [List.map_cons, List.map_cons, List.intercalate_cons_cons, List.append_assoc,
          List.append_assoc, readItems, hx]
        simp [hclose.symm, hmore]

theorem readList_intercalate (write : α → List Char) (hclose : close ≠ ',')
    (hn : ([','].intercalate (l.map write)).length < n)
    (h : ∀ x ∈ l, (write x).length < n → ∀ rest, item (write x ++ rest) = some (x, rest))
    (hhead : ∀ x ∈ l, ∃ c text, write x = c :: text ∧ c ≠ close) (rest : List Char) :
    readList item close n ([','].intercalate (l.map write) ++ close :: rest) =
      some (l, rest) := by
  cases l with
  | nil => simp [readList]
  | cons x l =>
    have hcount : (x :: l).length ≤ n := by
      have := length_le_length_intercalate ((x :: l).map write)
      rw [List.length_map] at this
      omega
    have hread : ∀ y ∈ x :: l, ∀ rest, item (write y ++ rest) = some (y, rest) := fun y hy =>
      h y hy (Nat.lt_of_le_of_lt (length_le_intercalate _ (List.mem_map_of_mem hy)) hn)
    have hitems := readItems_intercalate write hclose (List.cons_ne_nil x l) hcount hread rest
    obtain ⟨c, text, hx, hc⟩ := hhead x List.mem_cons_self
    have hfirst : ∃ more, [','].intercalate ((x :: l).map write) = c :: more := by
      rw [List.map_cons, hx]
      cases l with
      | nil => exact ⟨text, List.intercalate_singleton⟩
      | cons y l => exact ⟨_, List.intercalate_cons_cons⟩
    obtain ⟨more, hmore⟩ := hfirst
    rw [hmore] at hitems ⊢
    rw [List.cons_append, readList, if_neg hc, ← List.cons_append, hitems]

end Items

theorem renderItems_eq (items : List Json) : renderItems items = items.map render := by
  induction items with
  | nil => rfl
  | cons j items ih => rw [renderItems, ih, List.map_cons]

theorem renderFields_eq (fields : List (String × Json)) :
    renderFields fields = fields.map fun (name, j) => quote name ++ ":" ++ render j := by
  induction fields with
  | nil => rfl
  | cons f fields ih => rw [renderFields, ih, List.map_cons]

theorem toList_render_arr (items : List Json) : (arr items).render.toList =
    '[' :: ([','].intercalate (items.map fun j => j.render.toList) ++ [']']) := by
  simp [render, renderItems_eq, String.toList_intercalate, Function.comp_def]

def fieldText (f : String × Json) : List Char :=
  (quote f.1).toList ++ ':' :: f.2.render.toList

theorem toList_render_obj (fields : List (String × Json)) : (obj fields).render.toList =
    '\x7b' :: ([','].intercalate (fields.map fieldText) ++ ['\x7d']) := by
  simp [render, renderFields_eq, String.toList_intercalate, Function.comp_def]
  rfl

theorem render_head (j : Json) : ∃ c text, j.render.toList = c :: text ∧ c ≠ ']' := by
  cases j with
  | null => exact ⟨'n', _, rfl, by decide⟩
  | bool b =>
    cases b with
    | false => exact ⟨'f', _, rfl, by decide⟩
    | true => exact ⟨'t', _, rfl, by decide⟩
  | str s => exact ⟨'"', _, toList_quote s, by decide⟩
  | arr items => exact ⟨'[', _, toList_render_arr items, by decide⟩
  | obj fields => exact ⟨'\x7b', _, toList_render_obj fields, by decide⟩

theorem fieldText_head (f : String × Json) : ∃ c text, fieldText f = c :: text ∧ c ≠ '\x7d' := by
  rw [fieldText, toList_quote]
  exact ⟨'"', _, rfl, by decide⟩

theorem readField_fieldText {value : List Char → Option (Json × List Char)} {f : String × Json}
    (h : ∀ rest, value (f.2.render.toList ++ rest) = some (f.2, rest)) (rest : List Char) :
    readField value (fieldText f ++ rest) = some (f, rest) := by
  have htext : fieldText f ++ rest = '"' :: ((f.1.toList.flatMap fun c => (escape c).toList) ++
      '"' :: ':' :: (f.2.render.toList ++ rest)) := by
    simp [fieldText, toList_quote]
  rw [htext]
  simp [readField, readString_quoted, h]

theorem readValue_render {n : Nat} {j : Json} (h : j.render.toList.length < n)
    (rest : List Char) : readValue n (j.render.toList ++ rest) = some (j, rest) := by
  -- the parts of an array or an object are shorter than it, as they lose the brackets
  induction n generalizing j rest with
  | zero => exact absurd h (Nat.not_lt_zero _)
  | succ n ih =>
    cases j with
    | null => rfl
    | bool b => cases b <;> rfl
    | str s =>
      rw [render, toList_quote]
      simp [readValue, readString_quoted]
    | arr items =>
      rw [toList_render_arr] at h ⊢
      have hlist := readList_intercalate (fun j => j.render.toList) (by decide)
        (Nat.lt_of_succ_lt (by simpa using h)) (fun j _ hj => ih hj) (fun j _ => render_head j) rest
      simp [readValue, hlist]
    | obj fields =>
      rw [toList_render_obj] at h ⊢
      have hfield : ∀ f : String × Json, (fieldText f).length < n → ∀ rest,
          readField (readValue n) (fieldText f ++ rest) = some (f, rest) := by
        intro f hf
        have hvalue : f.2.render.toList.length < n := by
          simp only [fieldText, List.length_append, List.length_cons] at hf
          omega
        exact readField_fieldText (ih hvalue)
      have hlist := readList_intercalate fieldText (by decide)
        (Nat.lt_of_succ_lt (by simpa using h)) (fun f _ => hfield f) (fun f _ => fieldText_head f)
        rest
      simp [readValue, hlist]

theorem read_render (j : Json) : read j.render = some j := by
  have h := readValue_render (Nat.lt_succ_self j.render.toList.length) []
  rw [List.append_nil, String.length_toList] at h
  rw [read, h]

end Json

end PredictiveParsing
