import Evomark.Proofs.Exec.Step
import Evomark.Proofs.Exec.Synthesis
import Evomark.Proofs.Exec.Walk
import Evomark.Proofs.Json.Collapsed
/-!
# The value of a `json` body

A line without a use of a variable is read as one literal, and the text of a body that holds it is the
line with its blanks collapsed (`synthesize_line`). So an assignment whose `json` body holds the compact
text of a value binds that value, with the spaces in its strings and keys collapsed, and a pass goes on
behind it without a warning (`exec_json`).
-/

namespace Evomark

open Markup Text

/-! ## Bodies on one line -/

/-- A line without a use of a variable is read as one literal. -/
theorem literalNodes_line {cs : List Char} (h : Solid cs) (hb : '\n' ∉ cs)
    (ha : cs.IsChain (Apart ['%'])) :
    literalNodes cs = [.leaf { kind := .literal, content := String.ofList cs }] := by
  have hread := @literalNodesFrom_line cs [] [] hb (by simpa using ha)
  have hnormal : normalizeLines cs = cs := by
    rw [normalizeLines_eq, lines_of_not_mem hb, h.trim_eq, if_neg h.ne_nil]
    rfl
  rw [List.append_nil, List.append_nil, literalNodesFrom, literalOf, List.reverse_reverse, hnormal] at hread
  rw [literalNodes, hread]
  exact if_neg (by simpa using h.ne_nil)

/-- The text of such a line, in a state that it leaves as it is. -/
theorem synthesize_line {cs : List Char} (h : Solid cs) (hb : '\n' ∉ cs)
    (ha : cs.IsChain (Apart ['%'])) (s : ExecState) :
    synthesize s (literalNodes cs) = (some (String.ofList (collapseBlanks false cs)), [], s) := by
  have hliteral (content : String) :
      synthesize s [.leaf { kind := .literal, content }] =
        (some (String.ofList (normalizeText (content.toList ++ [' ']))), [], s) := rfl
  rw [literalNodes_line h hb ha, hliteral, String.toList_ofList, normalizeText_line_space h hb]

/-! ## Assignments -/

section

variable {rules : Table ExecRule} {n command : Node} {rest : List Node}

/-- The host bound last is found by its name. -/
theorem ExecState.hostOf?_bind (s : ExecState) (h : Host) : (s.bind h).hostOf? h.name = some h := by
  have hbound : (s.bind h).bound? h.name = some s.hosts.length := by
    rw [bound?, bind, Table.get?_insert, if_pos rfl]
  rw [hostOf?, hbound]
  exact List.getElem?_concat_length

/-- The host of a value that a `json` body denotes. -/
def jsonHost (name : String) (value : Json) : Host :=
  { name, type := .obj, defined := true, content := .frozen (some value) }

/-- An assignment binds what the text of its `json` body denotes. -/
theorem runStep_of_read (hr : rules.get? "json" = some .json) (hn : n.kind = .varAssign)
    (hc : n.children = command :: rest) (hk : command.kind = .cmd) (hname : command.content = "json")
    {s : ExecState} {text : String}
    (hs : synthesize s (ExecRule.bodyItems command) = (some text, [], s)) {value : Json}
    (hread : Json.read text = .ok value) :
    runStep rules n s = .ok (n, s.bind (jsonHost n.content value)) := by
  have hrun : ExecRule.json.run command (some { name := n.content }) s =
      .ok ⟨command, some (jsonHost n.content value), s⟩ := by
    simp only [ExecRule.run, hs, hread]
    rfl
  have hstep : runStep rules n s = runAssignment rules n s := by
    unfold runStep
    simp only [hn]
  have hsame : n.withChildren (command :: rest) = n := by
    rw [← hc]
    cases n
    rfl
  rw [hstep, runAssignment_ok hc hk (hname ▸ hr) hrun, hsame]
  rfl

/-- A pass leaves an assignment that binds a host as it is, and goes on behind it. -/
theorem exec_of_bind {host : Host} (hn : n.kind = .varAssign)
    (hstep : ∀ s, runStep rules n s = .ok (n, s.bind host)) (label : Label) (behind : List Node)
    (ctx : Context) :
    let walk := runNodes rules behind ((ExecState.ofContext ctx).bind host).next
    exec rules ⟨label, n :: behind⟩ ctx = ⟨⟨label, n :: walk.nodes⟩, walk.state, walk.outcome⟩ := by
  have hcommand : n.kind.isCommand = true := by rw [hn]; rfl
  have hmarker : n.isMarker = false := by rw [Node.isMarker, hn]; rfl
  have hwalk := @runNodes_of_ok rules n n behind _ _ hcommand hmarker (hstep (.ofContext ctx)) rfl
  show Pass.mk ⟨label, (runNodes rules (n :: behind) _).nodes⟩ _ _ = _
  rw [hwalk]
  rfl

/-- An assignment whose `json` body holds the compact text of a value with whole numbers binds that
value, with the spaces in its strings and keys collapsed. -/
theorem runStep_json (hr : rules.get? "json" = some .json) (hn : n.kind = .varAssign)
    (hc : n.children = command :: rest) (hk : command.kind = .cmd) (hname : command.content = "json")
    {value : Json} (hbody : ExecRule.bodyItems command = literalNodes value.write)
    (hgood : Json.IsGood Json.maxDepth value) (hwhole : value.isWhole = true)
    (ha : value.write.IsChain (Apart ['%'])) (s : ExecState) :
    runStep rules n s = .ok (n, s.bind (jsonHost n.content (value.mapStrings spacesCollapsed))) := by
  have htext : synthesize s (ExecRule.bodyItems command) =
      (some (String.ofList (collapseBlanks false value.write)), [], s) := by
    rw [hbody]
    exact synthesize_line value.solid_write value.not_break_mem_write ha s
  exact runStep_of_read hr hn hc hk hname htext (Json.read_collapsed hgood hwhole)

/-- An assignment whose `json` body holds the compact text of a value with whole numbers binds that value,
with the spaces in its strings and keys collapsed, whatever the state is. A pass over a document that
starts with it leaves no warning behind it and goes on from there. The value is not changed if nowhere in
its text two spaces are side by side. -/
theorem exec_json (hr : rules.get? "json" = some .json) (hn : n.kind = .varAssign)
    (hc : n.children = command :: rest) (hk : command.kind = .cmd) (hname : command.content = "json")
    {value : Json} (hbody : ExecRule.bodyItems command = literalNodes value.write)
    (hgood : Json.IsGood Json.maxDepth value) (hwhole : value.isWhole = true)
    (ha : value.write.IsChain (Apart ['%'])) :
    let host := jsonHost n.content (value.mapStrings spacesCollapsed)
    (∀ s, runStep rules n s = .ok (n, s.bind host) ∧ (s.bind host).hostOf? n.content = some host) ∧
      (∀ label behind ctx,
        let walk := runNodes rules behind ((ExecState.ofContext ctx).bind host).next
        exec rules ⟨label, n :: behind⟩ ctx = ⟨⟨label, n :: walk.nodes⟩, walk.state, walk.outcome⟩) ∧
      (value.write.IsChain (fun c d => ¬ (c = ' ' ∧ d = ' ')) →
        value.mapStrings spacesCollapsed = value) := by
  intro host
  have hstep (s : ExecState) : runStep rules n s = .ok (n, s.bind host) :=
    runStep_json hr hn hc hk hname hbody hgood hwhole ha s
  exact ⟨fun s => ⟨hstep s, s.hostOf?_bind host⟩, exec_of_bind hn hstep,
    Json.mapStrings_spacesCollapsed hgood hwhole⟩

end

/-- The assignment of what a `json` body between braces denotes. -/
def jsonAssignment (name : String) (cs : List Char) : Node :=
  ⟨{ kind := .varAssign, content := name }, [⟨{ kind := .cmd, content := "json" },
    [⟨{ kind := .body, layout := some .inline }, literalNodes cs⟩]⟩]⟩

/-- A value of which a field is lost, since its key becomes that of another. -/
theorem exec_json_keys :
    let value := Json.object [("a  b", .int 7), ("a b", .array [.string "x   y", .null])]
    let n := jsonAssignment "o" value.write
    let host := jsonHost "o" (value.mapStrings spacesCollapsed)
    (∀ s, runStep Registry.standard.execution n s = .ok (n, s.bind host) ∧
        (s.bind host).hostOf? "o" = some host) ∧
      (∀ label behind ctx,
        let walk := runNodes Registry.standard.execution behind ((ExecState.ofContext ctx).bind host).next
        exec Registry.standard.execution ⟨label, n :: behind⟩ ctx =
          ⟨⟨label, n :: walk.nodes⟩, walk.state, walk.outcome⟩) ∧
      (value.write.IsChain (fun c d => ¬ (c = ' ' ∧ d = ' ')) →
        value.mapStrings spacesCollapsed = value) :=
  exec_json rfl rfl rfl rfl rfl rfl
    ⟨by
      simp only [Json.IsSound, Json.AreSound, Json.FieldsSound, Json.int, Number.InRange, Table.Ordered]
      decide, by decide⟩
    (by decide) (by decide)

/-- A string with two spaces side by side is bound with one of them. -/
theorem exec_json_spaces :
    let value := Json.string "a  b"
    let pass := exec Registry.standard.execution ⟨{ kind := .root }, [jsonAssignment "o" value.write]⟩ {}
    Json.IsGood Json.maxDepth value ∧ value.isWhole = true ∧ value.write.IsChain (Apart ['%']) ∧
      pass.outcome = .completed ∧ pass.state.hostOf? "o" = some (jsonHost "o" (.string "a b")) ∧
      Json.string "a b" ≠ value := by
  intro value pass
  have ha : value.write.IsChain (Apart ['%']) := by decide
  have hstep (s : ExecState) : runStep Registry.standard.execution (jsonAssignment "o" value.write) s =
      .ok (jsonAssignment "o" value.write, s.bind (jsonHost "o" (.string "a b"))) :=
    runStep_json rfl rfl rfl rfl rfl rfl (Json.isGood_string _ _) rfl ha s
  have hpass := exec_of_bind rfl hstep { kind := .root } [] {}
  refine ⟨Json.isGood_string _ _, rfl, ha, ?_, ?_, by simp [value]⟩
  · show (exec _ _ _).outcome = _
    rw [hpass]
    rfl
  · show (exec _ _ _).state.hostOf? "o" = _
    rw [hpass]
    exact ExecState.hostOf?_bind (.ofContext {}) (jsonHost "o" (.string "a b"))

end Evomark
