import Evomark.Proofs.Json.ReadBack
import Evomark.Proofs.Markup.Delimited
import Evomark.Proofs.Markup.Nesting
import Evomark.Proofs.Markup.ReadClause
/-!
# Written parameters are read back

A value between parentheses is read as a parameter, wherever it stands and whatever follows it
(`Clause.param?_write`), and it is kept if all numbers in it are whole (`Clause.paramValue_compact`). So a
parameter that has been read is printed as one with the same value (`Clause.params_read_back`), unless there
are other numbers in it: their digits are scaled by a rounded power of ten, so that what is written for the
value of `1e-24` denotes another one (`Clause.not_readsBack_small`).
-/

namespace Evomark

open Markup Node

namespace Clause

/-- A value whose numbers are whole is kept. -/
theorem paramValue_compact {value : Json} (h : Json.IsGood Json.maxDepth value) (hwhole : value.isWhole = true) :
    paramValue value.compact = value := by
  rw [paramValue, Json.read_compact h hwhole]

/-- Whatever the text of a parameter is, its value is nested no deeper than the JSON reader goes. -/
theorem good_paramValue (raw : String) : Json.IsGood Json.maxDepth (paramValue raw) := by
  unfold paramValue
  split
  · rename_i value h
    exact Json.good_of_read h
  · exact Json.isGood_string _ raw

theorem good_of_param? {w v : Window} {raw : String} {value : Json} {span : Span}
    (h : param? w = some (.param raw value span, v)) : Json.IsGood Json.maxDepth value := by
  cases found_of_param? h with
  | param => exact good_paramValue _

/-! ## Nodes of parameters -/

/-- The node of a parameter. -/
def paramNode (raw : String) (value : Json) (span : Span) : Node :=
  .leaf { kind := .funcParam, content := raw, value := some value, span := some span }

/-- A parameter in front of other clauses is the first node of a call. -/
theorem head?_readClauses {w v : Window} {raw : String} {value : Json} {span : Span}
    (h : param? w = some (.param raw value span, v)) (read : Window → Contents) (rule : BodyRule)
    (bodyKind : Kind) (last : Option Json) :
    (readClauses read rule bodyKind last w.clauses.1).nodes.head? = some (paramNode raw value span) := by
  have hread : read? w = some (.param raw value span, v) := by rw [read?, h, Option.some_or]
  rw [Window.clauses_of_read? hread]
  rfl

/-- A parameter is printed as its value between parentheses. -/
theorem putNode_param (unit : List Char) (level : Nat) (prev : Option Kind) (raw : String) (value : Json)
    (span : Span) (ink : Ink) :
    putNode unit level prev (paramNode raw value span) ink = ink.put ('(' :: value.write ++ [')']) := by
  rw [paramNode, Node.leaf, putNode]
  simp [paramText, Ink.put]

/-- What is printed of the node is read up to its end as a parameter with the value of the node, wherever it
stands and whatever follows it. -/
def ReadsBack (n : Node) : Prop :=
  ∀ (unit : List Char) (level : Nat) (prev : Option Kind), ∃ text,
    (∀ ink, putNode unit level prev n ink = ink.put text) ∧
      ∀ (offset : Nat) (rest : List Char), ∃ raw value span stop,
        param? ⟨offset, text ++ rest⟩ = some (.param raw value span, ⟨stop, rest⟩) ∧
          n.label.value = some value

/-- That is so if the value is kept by its text. -/
theorem readsBack_iff {raw : String} {value : Json} {span : Span} :
    ReadsBack (paramNode raw value span) ↔ paramValue value.compact = value := by
  constructor
  · intro h
    obtain ⟨text, hput, hread⟩ := h [] 0 none
    have htext : text = '(' :: value.write ++ [')'] := by
      have hink := (hput []).symm.trans (putNode_param [] 0 none raw value span [])
      simpa [Ink.put] using hink
    obtain ⟨raw', value', span', stop, hparam, hvalue⟩ := hread 0 []
    have hwrite := param?_write 0 value []
    rw [htext, List.append_assoc, List.singleton_append, hwrite] at hparam
    obtain ⟨-, hsame, -⟩ := Clause.param.inj (Prod.mk.inj (Option.some.inj hparam)).1
    exact hsame.trans (Option.some.inj hvalue).symm
  · intro h unit level prev
    refine ⟨_, putNode_param unit level prev raw value span, fun offset rest => ?_⟩
    have hwrite := param?_write offset value rest
    rw [List.append_assoc, List.singleton_append]
    exact ⟨_, _, _, _, hwrite, congrArg some h.symm⟩

/-- A value with whole numbers, nested no deeper than the JSON reader goes, is read as a parameter wherever it is
written between parentheses: up to the closing one, with the value itself in the node of the parameter and with
its text as the span. And a parameter that has been read with such a value is printed as one that is read with
the same value. -/
theorem params_read_back (value : Json) (hwhole : value.isWhole = true) :
    (Json.IsGood Json.maxDepth value → ∀ (s : String) (w : Window) (rest : List Char), w.LiesIn s →
      w.chars = '(' :: value.write ++ ')' :: rest →
      let span : Span := ⟨w.offset + 1, w.offset + 1 + Text.byteLength value.write⟩
      param? w = some (.param value.compact value span, ⟨span.stop + 1, rest⟩) ∧
        Markup.textBetween s span.start span.stop = pure value.compact ∧
        ∀ read rule bodyKind last, (readClauses read rule bodyKind last w.clauses.1).nodes.head? =
          some (paramNode value.compact value span)) ∧
    ∀ (w v : Window) (raw : String) (span : Span),
      param? w = some (.param raw value span, v) → ReadsBack (paramNode raw value span) := by
  constructor
  · intro hgood s w rest hw hchars span
    have hread : param? w = some (.param value.compact value span, ⟨span.stop + 1, rest⟩) := by
      obtain ⟨offset, chars⟩ := w
      obtain rfl : chars = _ := hchars
      rw [param?_write, paramValue_compact hgood hwhole]
    have hinside : (Window.mk (w.offset + 1) value.write).LiesIn s := hw.part ['('] (')' :: rest) hchars
    exact ⟨hread, hinside.textBetween, head?_readClauses hread⟩
  · intro w v raw span hread
    exact readsBack_iff.2 (paramValue_compact (good_of_param? hread) hwhole)

/-- A value in which parentheses, quotes and backslashes stand in strings and keys. -/
def signs : Json :=
  .object [("\")é(", .array [.string "\\\")", .null, .int Number.minInteger]), ("(", .int Number.maxInteger)]

theorem params_read_back_signs :
    let w : Window := ⟨3, '(' :: signs.write ++ ")\x7bx)\x7d".toList⟩
    let s := "é#" ++ String.ofList w.chars ++ " b"
    let span : Span := ⟨4, 4 + Text.byteLength signs.write⟩
    Json.IsGood Json.maxDepth signs ∧ signs.isWhole = true ∧ w.LiesIn s ∧
      param? w = some (.param signs.compact signs span, ⟨span.stop + 1, "\x7bx)\x7d".toList⟩) ∧
      Markup.textBetween s span.start span.stop = pure signs.compact ∧
      ReadsBack (paramNode signs.compact signs span) := by
  intro w s span
  have hgood : Json.IsGood Json.maxDepth signs := by
    refine ⟨?_, by decide⟩
    simp only [signs, Json.IsSound, Json.AreSound, Json.FieldsSound, Json.int, Number.InRange, Table.Ordered]
    decide
  have hw : w.LiesIn s := ⟨"é#".toList, " b".toList, by simp [s], rfl⟩
  obtain ⟨hwritten, hprinted⟩ := params_read_back signs rfl
  obtain ⟨hread, htext, -⟩ := hwritten hgood s w _ hw rfl
  exact ⟨hgood, rfl, hw, hread, htext, hprinted w _ _ _ hread⟩

/-- A small number whose text denotes the number below it. -/
theorem not_readsBack_small :
    param? (.ofSource "(1e-24)") = some (.param "1e-24" (paramValue "1e-24") ⟨1, 6⟩, ⟨7, []⟩) ∧
      (paramValue "1e-24").write = "1.0000000000000001e-24".toList ∧
      (paramValue "1.0000000000000001e-24").write = "1e-24".toList ∧
      ¬ ReadsBack (paramNode "1e-24" (paramValue "1e-24") ⟨1, 6⟩) := by
  have hwrite : (paramValue "1e-24").write = "1.0000000000000001e-24".toList := by decide +kernel
  have hless : (paramValue "1.0000000000000001e-24").write = "1e-24".toList := by decide +kernel
  have hread : param? (.ofSource "(1e-24)") =
      some (.param "1e-24" (paramValue "1e-24") ⟨1, 6⟩, ⟨7, []⟩) := by
    have hsplit : splitParens 0 false "1e-24)".toList = some ("1e-24".toList, []) := by decide +kernel
    have htrim : Text.trim "1e-24".toList = "1e-24".toList := by decide
    have hw : Window.ofSource "(1e-24)" = ⟨0, '(' :: "1e-24)".toList⟩ := rfl
    rw [hw, param?]
    simp only [if_true, hsplit, htrim, String.ofList_toList]
    generalize paramValue "1e-24" = value
    rfl
  refine ⟨hread, hwrite, hless, fun h => ?_⟩
  have hkept := readsBack_iff.1 h
  rw [Json.compact, hwrite, String.ofList_toList] at hkept
  rw [← hkept, hless] at hwrite
  exact absurd hwrite (by decide)

end Clause

end Evomark
