import PredictiveParsing.CommandLine.Run
import PredictiveParsing.Proofs.Termination

/-!
# The command line beside the answers in JSON

The command line and the answers in JSON put questions about a grammar in two ways, and tell the same
(`command_line_agrees_with_reports`): the reason why a text is no grammar, the sets, the table, and
for each input the parse tree or the reason of its rejection. A line of the command line is told
from the answer alone (`Tells.unique`), because the value that stands for a tree determines the tree
(`ParseTree.sorted_toJson_injective`); so the other inputs of a run take no part in it.
-/
namespace PredictiveParsing

namespace Json

theorem ofSymbol_injective {a b : Char} (h : ofSymbol a = ofSymbol b) : a = b := by
  have hchars := congrArg String.toList (Json.str.inj h)
  simpa using hchars

end Json

namespace ParseTree

theorem sorted_toJson {root : Symbol} {children : List ParseTree} :
    (node root children).toJson.sorted =
      .obj [("children", .arr (Json.sortedItems (forestJson children))),
        ("root", .ofSymbol root)] := by
  rfl

mutual

theorem sorted_toJson_injective :
    ∀ {t u : ParseTree}, t.toJson.sorted = u.toJson.sorted → t = u
  | node _ _, node _ _, h => by
    simp only [sorted_toJson, Json.obj.injEq, List.cons.injEq, Prod.mk.injEq, Json.arr.injEq,
      true_and, and_true] at h
    rw [sortedItems_forestJson_injective h.1, Json.ofSymbol_injective h.2]

theorem sortedItems_forestJson_injective :
    ∀ {ts us : List ParseTree},
      Json.sortedItems (forestJson ts) = Json.sortedItems (forestJson us) → ts = us
  | [], [], _ => rfl
  | [], _ :: _, h => nomatch h
  | _ :: _, [], h => nomatch h
  | _ :: _, _ :: _, h => by
    obtain ⟨ht, hts⟩ := List.cons.inj h
    rw [sorted_toJson_injective ht, sortedItems_forestJson_injective hts]

end

end ParseTree

namespace Report

variable {text : String} {g : Grammar} {t : Table}

theorem field?_error_failure {message : String} :
    (failure message).field? "error" = some (.str message) := by
  rfl

theorem of_unread {e : Error} (he : Grammar.read text = .error e) :
    sets text = failure e.message ∧ table text = failure e.message ∧
      ∀ input, recognition text input = failure e.message := by
  simp only [sets, table, recognition, he, implies_true, and_self]

theorem of_noTable (hg : Grammar.read text = .ok g) (ht : g.table? = none) :
    table text = failure noTable ∧ ∀ input, recognition text input = failure noTable := by
  simp only [table, recognition, hg, ht, implies_true, and_self]

theorem recognition_eq (hg : Grammar.read text = .ok g) (ht : g.table? = some t)
    (input : String) :
    recognition text input = (outcome (t.recognize input.toList g.start)).sorted := by
  simp only [recognition, hg, ht]

end Report

namespace CommandLine

variable {args : List String} {read : Source → Except ReadFailure String} {o : Options}
  {text : String} {g : Grammar} {t : Table}

/-- The arguments make up the options, and the text is what is read at their source. -/
structure Asks (args : List String) (read : Source → Except ReadFailure String) (o : Options)
    (text : String) : Prop where
  options : Invocation.ofArguments args = .run o
  source : read o.source = .ok text

theorem scan_inputs {inputs : List String} (h : ∀ s ∈ inputs, isValue s = true) (o : Options) :
    Invocation.scan o (inputs.flatMap fun s => ["-a", s]) =
      .run { o with inputs := o.inputs ++ inputs } := by
  induction inputs generalizing o with
  | nil => simp [Invocation.scan]
  | cons s inputs ih =>
    obtain ⟨hs, hinputs⟩ := List.forall_mem_cons.1 h
    have harg : Argument.read "-a" = .setting .input none := by decide
    simp [Invocation.scan, harg, hs, Options.set?, ih hinputs]

theorem asks_inputs {inputs : List String} (h : ∀ s ∈ inputs, isValue s = true)
    (hread : read .standardInput = .ok text) :
    Asks (inputs.flatMap fun s => ["-a", s]) read { Options.empty with inputs } text :=
  ⟨scan_inputs h .empty, hread⟩

theorem asks_item_json {name : String} {item : Item} (h : Item.ofName? name = some item)
    (hread : read .standardInput = .ok text) :
    Asks [name, "-f", "json"] read
      { items := [item], format := some .json, inputs := [], file := none } text := by
  refine ⟨?_, hread⟩
  unfold Item.ofName? at h
  split at h <;> cases h <;> decide

theorem Asks.respond_eq (h : Asks args read o text) (hasked : o.items ≠ [] ∨ o.inputs ≠ []) :
    respond args read = o.answer (.ok text) := by
  have hidle : o.isIdle = false := by
    simpa [Options.isIdle, imp_iff_not_or] using hasked
  unfold respond
  rw [h.options]
  simp [Invocation.source?, Invocation.answer, hidle, h.source]

theorem Asks.respond_of_unread (h : Asks args read o text) (hasked : o.items ≠ [] ∨ o.inputs ≠ [])
    {e : Error} (he : Grammar.read text = .error e) :
    respond args read = .failure "" e.message := by
  rw [h.respond_eq hasked, Options.answer, he]

theorem Asks.respond_of_read (h : Asks args read o text) (hasked : o.items ≠ [] ∨ o.inputs ≠ [])
    (hg : Grammar.read text = .ok g) : respond args read = o.answerFor g := by
  rw [h.respond_eq hasked, Options.answer, hg]

inductive Tells (input : String) (answer : Json) : String → Prop where
  | accepted {tree : ParseTree} :
      answer.field? "accepted" = some (.bool true) →
      answer.field? "tree" = some tree.toJson.sorted →
      Tells input answer s!"{input}: accepted, {tree.display}\n"
  | rejected {reason : String} :
      answer.field? "accepted" = some (.bool false) →
      answer.field? "reason" = some (.str reason) →
      Tells input answer s!"{input}: rejected, {reason}\n"

theorem Tells.unique {input line line' : String} {answer : Json} (h : Tells input answer line)
    (h' : Tells input answer line') : line = line' := by
  -- an answer has a single value under `accepted`, so the two lines are of one kind
  cases h with
  | accepted ha ht =>
    cases h' with
    | accepted _ ht' =>
      rw [ParseTree.sorted_toJson_injective (Option.some.inj (ht.symm.trans ht'))]
    | rejected ha' _ => cases ha.symm.trans ha'
  | rejected ha hr =>
    cases h' with
    | accepted ha' _ => cases ha.symm.trans ha'
    | rejected _ hr' =>
      cases hr.symm.trans hr'
      rfl

theorem tells_outcomeLine {input : String} {outcome : Except Rejection ParseTree} :
    Tells input (Report.outcome outcome).sorted (outcomeLine input outcome) := by
  cases outcome with
  | ok tree => exact .accepted rfl rfl
  | error reason => exact .rejected rfl rfl

theorem Asks.respond_sets_json {file : Option String}
    (h : Asks args read { items := [.sets], format := some .json, inputs := [], file } text)
    (hg : Grammar.read text = .ok g) :
    respond args read = .success ((Report.sets text).render ++ "\n") := by
  rw [h.respond_of_read (.inl (List.cons_ne_nil _ _)) hg, Report.sets, hg]
  simp [Options.answerFor, Options.itemLines, Options.itemText, Grammar.displaySets]

theorem Asks.respond_table_json {file : Option String}
    (h : Asks args read { items := [.table], format := some .json, inputs := [], file } text)
    (hg : Grammar.read text = .ok g) (ht : g.table? = some t) :
    respond args read = .success ((Report.table text).render ++ "\n") := by
  rw [h.respond_of_read (.inl (List.cons_ne_nil _ _)) hg, Report.table, hg]
  simp [Options.answerFor, Options.itemLines, Options.itemText, Table.display, ht]

theorem Asks.respond_table_of_noTable {format : Option Format} {file : Option String}
    (h : Asks args read { items := [.table], format, inputs := [], file } text)
    (hg : Grammar.read text = .ok g) (ht : g.table? = none) :
    respond args read = .success "The grammar is not LL(1).\n" := by
  rw [h.respond_of_read (.inl (List.cons_ne_nil _ _)) hg]
  simp [Options.answerFor, Options.itemLines, Options.itemText, ht]

theorem Asks.respond_inputs (h : Asks args read o text) (hinputs : o.inputs ≠ [])
    (hg : Grammar.read text = .ok g) (ht : g.table? = some t) :
    respond args read = .success (o.itemLines g ++ o.inputLines g t) := by
  rw [h.respond_of_read (.inr hinputs) hg, Options.answerFor, if_neg hinputs, ht]

theorem Asks.respond_noTable (h : Asks args read o text) (hinputs : o.inputs ≠ [])
    (hg : Grammar.read text = .ok g) (ht : g.table? = none) :
    respond args read = .failure (o.itemLines g) Report.noTable := by
  rw [h.respond_of_read (.inr hinputs) hg, Options.answerFor, if_neg hinputs, ht]

/-- The parts are a text that is no grammar, the sets of a grammar, a grammar with a table, for which
`told` gives the line about an input, and a grammar without a table. -/
theorem command_line_agrees_with_reports (text : String) :
    (∀ e, Grammar.read text = .error e →
      (Report.sets text).field? "error" = some (.str e.message) ∧
      (Report.table text).field? "error" = some (.str e.message) ∧
      (∀ input, (Report.recognition text input).field? "error" = some (.str e.message)) ∧
      ∀ args read o, Asks args read o text → o.items ≠ [] ∨ o.inputs ≠ [] →
        respond args read = .failure "" e.message) ∧
    ∀ g, Grammar.read text = .ok g →
      (∀ args read file,
        Asks args read { items := [.sets], format := some .json, inputs := [], file } text →
        respond args read = .success ((Report.sets text).render ++ "\n")) ∧
      (∀ t, g.table? = some t →
        (∀ args read file,
          Asks args read { items := [.table], format := some .json, inputs := [], file } text →
          respond args read = .success ((Report.table text).render ++ "\n")) ∧
        (∀ input, t.recognize input g.start ≠ .error .unending) ∧
        ∃ told : String → String,
          (∀ input line,
            Tells (closed input) (Report.recognition text (closed input)) line ↔
              line = told input) ∧
          ∀ args read o, Asks args read o text → o.inputs ≠ [] →
            respond args read = .success (o.itemLines g ++ String.join (o.inputs.map told))) ∧
      (g.table? = none →
        (∀ args read format file,
          Asks args read { items := [.table], format, inputs := [], file } text →
          respond args read = .success "The grammar is not LL(1).\n") ∧
        (Report.table text).field? "error" = some (.str Report.noTable) ∧
        (∀ input, (Report.recognition text input).field? "error" = some (.str Report.noTable)) ∧
        ∀ args read o, Asks args read o text → o.inputs ≠ [] →
          respond args read = .failure (o.itemLines g) Report.noTable) := by
  constructor
  · intro e he
    obtain ⟨hsets, htable, hrecognition⟩ := Report.of_unread he
    refine ⟨hsets ▸ Report.field?_error_failure, htable ▸ Report.field?_error_failure,
      fun input => hrecognition input ▸ Report.field?_error_failure, ?_⟩
    exact fun args read o h hasked => h.respond_of_unread hasked he
  · intro g hg
    refine ⟨fun args read file h => h.respond_sets_json hg, fun t ht => ?_, fun ht => ?_⟩
    · refine ⟨fun args read file h => h.respond_table_json hg ht,
        fun input => (Grammar.predictsFor_of_table? ht).recognize_ne_unending _ _, ?_⟩
      refine ⟨fun input => outcomeLine (closed input)
        (t.recognize (closed input).toList g.start), fun input line => ?_, ?_⟩
      · rw [Report.recognition_eq hg ht]
        constructor
        · exact fun h => h.unique tells_outcomeLine
        · rintro rfl
          exact tells_outcomeLine
      · exact fun args read o h hinputs => h.respond_inputs hinputs hg ht
    · obtain ⟨htable, hrecognition⟩ := Report.of_noTable hg ht
      refine ⟨fun args read format file h => h.respond_table_of_noTable hg ht,
        htable ▸ Report.field?_error_failure,
        fun input => hrecognition input ▸ Report.field?_error_failure, ?_⟩
      exact fun args read o h hinputs => h.respond_noTable hinputs hg ht

def bracketText : String := "S -> (S)S\nS ->"

/-- A text with a table, asked for its sets and for two inputs, the first of which is accepted; and
two texts that fail, one as a grammar and one for want of a table. -/
theorem brackets_command_line_agrees :
    respond ["ff", "-f", "json"] (fun _ => .ok bracketText) =
      .success ((Report.sets bracketText).render ++ "\n") ∧
    (∃ told : String → String,
      Tells "()$" (Report.recognition bracketText "()$") (told "()") ∧
      Tells "($" (Report.recognition bracketText "($") (told "($") ∧
      respond ["-a", "()", "-a", "($"] (fun _ => .ok bracketText) =
        .success (told "()" ++ told "($")) ∧
    respond ["prod"] (fun _ => .ok "S") = .failure "" "Line 1: missing \"->\"" ∧
    respond ["prod", "-a", "a"] (fun _ => .ok "S -> a\nS -> a a") =
      .failure "S -> a\n   | aa\n" Report.noTable := by
  have hread : ∃ g, Grammar.read bracketText = .ok g ∧ g.isLL1 = true :=
    ⟨⟨.ofProductions 'S' [⟨'S', ['(', 'S', ')', 'S']⟩, ⟨'S', []⟩],
      Presentation.fault?_eq_none_iff.1 (by decide)⟩, rfl, by decide +kernel⟩
  have hunread : Grammar.read "S" = .error (.badLine 1 .noArrow) := rfl
  have hconflict : ∃ g, Grammar.read "S -> a\nS -> a a" = .ok g ∧ g.table? = none ∧
      g.displayRules .plain = "S -> a\n   | aa" :=
    ⟨⟨.ofProductions 'S' [⟨'S', ['a']⟩, ⟨'S', ['a', 'a']⟩],
      Presentation.fault?_eq_none_iff.1 (by decide)⟩, rfl, by decide +kernel, by decide +kernel⟩
  obtain ⟨g, hg, hll1⟩ := hread
  obtain ⟨t, ht⟩ := Option.isSome_iff_exists.1 hll1
  obtain ⟨hsets, htable, -⟩ := (command_line_agrees_with_reports bracketText).2 g hg
  obtain ⟨-, -, told, htold, hinputs⟩ := htable t ht
  have hvalues : ∀ s ∈ ["()", "($"], isValue s = true := by decide
  have hasks : Asks ["-a", "()", "-a", "($"] (fun _ => .ok bracketText)
      { Options.empty with inputs := ["()", "($"] } bracketText := asks_inputs hvalues rfl
  obtain ⟨g', hg', ht', hrules⟩ := hconflict
  refine ⟨hsets _ _ _ (asks_item_json rfl rfl), ⟨told, (htold "()" _).2 rfl, (htold "($" _).2 rfl,
    ?_⟩, ?_, ?_⟩
  · rw [hinputs _ _ _ hasks (by decide)]
    simp [Options.itemLines, Options.empty]
  · exact ((command_line_agrees_with_reports "S").1 _ hunread).2.2.2 _ _
      { items := [.productions], format := none, inputs := [], file := none } ⟨by decide, rfl⟩
      (by decide)
  · have hrespond := (((command_line_agrees_with_reports _).2 g' hg').2.2 ht').2.2.2
      ["prod", "-a", "a"] (fun _ => .ok _)
      { items := [.productions], format := none, inputs := ["a"], file := none }
      ⟨by decide, rfl⟩ (by decide)
    rw [hrespond]
    simp [Options.itemLines, Options.itemText, hrules]

end CommandLine

end PredictiveParsing
