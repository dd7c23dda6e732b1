import Evomark.Document.Tree
import Evomark.Proofs.Markup.Inner
import Evomark.Proofs.Markup.ReadClause
/-!
# Reading step by step

`Markup.parse` cuts a window into segments first and makes nodes of them afterwards. A `Reader` does both
at once: it goes through a window from front to back and puts each node below the current one as soon as
it is met. Each of its steps, `prose`, `function`, `reference`, `command` and `assignment`, says whether it
took anything, and `Reader.core` takes steps until there is none left.

To read a body, a reader narrows its window to the inside of the body and makes the body the current node;
behind the body it takes both back. How bodies are read is a parameter of the steps, and only readers with
less before them than the step had can be asked for (`Reads`). So `core` recurs on what is left to read,
which every step makes shorter.
-/

namespace Evomark.Markup

/-- Settings laid over those there are. -/
def overlay (config : Table Json) (settings : List (String × Table Json)) : Table Json :=
  settings.foldl (fun config (space, settings) => mergeSettings config space settings) config

/-- The state of reading. -/
structure Reader where
  /-- The window that is being read. -/
  window : Window
  /-- What is left of it. -/
  rest : Window
  /-- The node that new nodes are put below. -/
  current : Nat
  tree : Tree
  /-- The settings of each namespace. -/
  config : Table Json
  /-- Some window could not be read to its end. -/
  aborted : Bool

namespace Reader

/-- A new node below the current one, and its number. -/
def push (r : Reader) (label : Label) : Nat × Reader :=
  let (id, tree) := r.tree.pushChild r.current label
  (id, { r with tree })

/-- A new node below the current one, which becomes the current node itself, and its number. -/
def enter (r : Reader) (label : Label) : Nat × Reader :=
  let (id, opened) := r.push label
  (id, { opened with current := id })

/-- New nodes without children below the current one. -/
def pushLeaves (r : Reader) (ns : List Node) : Reader := ns.foldl (fun r n => (r.push n.label).2) r

/-- A warning below the root. -/
def warn (r : Reader) (message : String) : Reader :=
  { r with tree := (r.tree.pushChild Tree.root (warningNode message).label).2 }

/-- The parent of a node becomes the current node. -/
def ascend (r : Reader) (id : Nat) : Reader := { r with current := (r.tree.parent? id).getD Tree.root }

/-- The reader at the end of its window. -/
def finish (r : Reader) : Reader := { r with rest := ⟨r.window.stop, []⟩ }

/-- The current node with some text. -/
def keep (r : Reader) (content : String) : Reader :=
  { r with tree := r.tree.modify r.current fun s => { s with label := { s.label with content } } }

/-- The whole window becomes the text of the current node. -/
def takeRaw (r : Reader) : Reader := r.finish.keep (String.ofList r.window.chars)

/-- Settings laid over those there are. -/
def settle (r : Reader) (settings : List (String × Table Json)) : Reader :=
  { r with config := overlay r.config settings }

/-- How windows are read that have fewer than `n` characters left. -/
abbrev Reads (n : Nat) : Type := (r : Reader) → r.rest.length < n → Bool × Reader

/-- A step that takes something makes what is left shorter; one that takes nothing changes nothing. -/
structure Advances (r : Reader) (found : Bool × Reader) : Prop where
  shorter : found.1 = true → found.2.rest.length < r.rest.length
  unchanged : found.1 = false → found.2 = r

namespace Advances

variable {r r' : Reader} {found : Bool × Reader}

theorem of_shorter (h : r'.rest.length < r.rest.length) : r.Advances (true, r') := ⟨fun _ => h, nofun⟩

theorem of_unchanged : r.Advances (false, r) := ⟨nofun, fun _ => rfl⟩

theorem length_le (h : r.Advances found) : found.2.rest.length ≤ r.rest.length := by
  cases hf : found.1 with
  | true => exact Nat.le_of_lt (h.shorter hf)
  | false => rw [h.unchanged hf]

/-- A step that is tried when another has taken nothing. -/
theorem orElse {other : Bool × Reader} (h : r.Advances found) (h' : found.2.Advances other) :
    r.Advances (if found.1 then found else other) := by
  cases hf : found.1 with
  | true => exact h
  | false => exact h.unchanged hf ▸ h'

end Advances

/-! ## Bodies -/

section

variable {n : Nat} (read : Reads n)

/-- A window read by a rule. `param` is the last parameter before the body. -/
def runRule (rule : BodyRule) (param : Option Json) (r : Reader) (h : r.rest.length < n) : Bool × Reader :=
  match rule with
  | .box => read r h
  | .code => (true, r.takeRaw)
  | .literal => (true, (r.pushLeaves (literalNodes r.rest.chars)).finish)
  | .config space =>
    let found := readSettings space param (String.ofList r.window.chars)
    (true, (r.takeRaw.pushLeaves found.children).settle found.settings)
  | .reject => (false, r)
  | .shout =>
    let content := Text.uppercase (String.ofList r.window.chars)
    (true, (r.pushLeaves [.leaf { kind := .literal, content, value := param }]).finish)

/-- The body `id` read by a rule. Behind it the reader goes on as before. -/
def body (rule : BodyRule) (param : Option Json) (id : Nat) (inner : Window) (r : Reader)
    (h : inner.length < n) : Reader :=
  let (_, inside) := runRule read rule param { r with window := inner, rest := inner, current := id } h
  { inside with window := r.window, rest := r.rest, current := r.current }

/-- As many clauses as there are, each below the current node, and the last parameter among them. -/
def clauses (rule : BodyRule) (kind : Kind) (param : Option Json) (r : Reader) (h : r.rest.length ≤ n) :
    Option Json × Reader :=
  match hc : Clause.read? r.rest with
  | none => (param, r)
  | some (.param raw value span, rest) =>
    let opened := { r with rest }.push
      { kind := .funcParam, content := raw, value := some value, span := some span }
    clauses rule kind (some value) opened.2 (Nat.le_trans (Nat.le_of_lt (Clause.length_read? hc)) h)
  | some (.body layout inner, rest) =>
    let opened := { r with rest }.push
      { kind, layout := some layout, span := some ⟨inner.offset, inner.stop⟩ }
    clauses rule kind param
      (body read rule param opened.1 inner opened.2 (Nat.lt_of_lt_of_le (Clause.within_read? hc) h))
      (Nat.le_trans (Nat.le_of_lt (Clause.length_read? hc)) h)
termination_by r.rest.length
decreasing_by
  · exact Clause.length_read? hc
  · exact Clause.length_read? hc

theorem rest_clauses (rule : BodyRule) (kind : Kind) (param : Option Json) (r : Reader)
    (h : r.rest.length ≤ n) : (clauses read rule kind param r h).2.rest = r.rest.clauses.2 := by
  fun_induction clauses read rule kind param r h with
  | case1 param r h hc => rw [Window.clauses_of_none hc]
  | case2 param r h raw value span rest hc opened ih =>
    rw [ih, Window.clauses_of_read? hc]
    rfl
  | case3 param r h layout inner rest hc opened ih =>
    rw [Window.clauses_of_read? hc]
    exact ih

theorem current_clauses (rule : BodyRule) (kind : Kind) (param : Option Json) (r : Reader)
    (h : r.rest.length ≤ n) : (clauses read rule kind param r h).2.current = r.current := by
  fun_induction clauses read rule kind param r h with
  | case1 param r h hc => rfl
  | case2 param r h raw value span rest hc opened ih => exact ih
  | case3 param r h layout inner rest hc opened ih => exact ih

theorem clauses_of_read?_none {rule : BodyRule} {kind : Kind} {param : Option Json} {r : Reader}
    {h : r.rest.length ≤ n} (hc : Clause.read? r.rest = none) :
    clauses read rule kind param r h = (param, r) := by
  rw [clauses]
  split
  · rfl
  · rename_i hsome
    rw [hc] at hsome
    cases hsome
  · rename_i hsome
    rw [hc] at hsome
    cases hsome

theorem length_clauses_le {rule : BodyRule} {kind : Kind} {param : Option Json} {r : Reader}
    {h : r.rest.length ≤ n} : (clauses read rule kind param r h).2.rest.length ≤ r.rest.length := by
  rw [rest_clauses]
  exact Window.length_clauses_le _

/-! ## Constructs -/

/-- Text up to the next construct or empty line. -/
def prose (r : Reader) : Bool × Reader :=
  let (raw, rest) := Segment.splitProse r.rest.chars
  if raw.isEmpty then (false, r)
  else
    let content := Text.normalizeLines raw
    let r' := if content.isEmpty then r else (r.push { kind := .text, content := String.ofList content }).2
    (true, { r' with rest := r.rest.after raw rest })

theorem advances_prose (r : Reader) : r.Advances r.prose := by
  rw [prose]
  cases hs : Segment.splitProse r.rest.chars with
  | mk raw rest =>
    simp only
    split
    · exact .of_unchanged
    · rename_i hraw
      refine .of_shorter (Segment.length_prose? (s := .prose raw) ?_)
      rw [Segment.prose?, hs]
      simp only [hraw, if_false, Bool.false_eq_true]

/-- The window starts with a name behind `sigil`. -/
def startsWith (r : Reader) (sigil : Char) : Bool := Window.startsConstruct sigil r.rest.chars

/-- The reader behind a sigil and a name. -/
def behindName (r : Reader) : Reader := { r with rest := r.rest.tail.afterName }

/-- A new node with the name behind a sigil, which becomes the current node, and its number. -/
def named (r : Reader) (kind : Kind) : Nat × Reader :=
  r.behindName.enter { kind, content := r.rest.tail.name }

theorem length_behindName_le (r : Reader) : r.behindName.rest.length ≤ r.rest.length :=
  Nat.le_trans (Window.length_afterName_le _) (Window.length_tail_le _)

theorem length_behindName {r : Reader} {sigil : Char} (h : r.startsWith sigil = true) :
    r.behindName.rest.length < r.rest.length :=
  Nat.lt_of_le_of_lt (Window.length_afterName_le _)
    (Window.length_tail_lt (Window.chars_ne_nil_of_startsConstruct h))

/-- The children of a node are parameters. -/
def hasOnlyParams (r : Reader) (id : Nat) : Bool :=
  (r.tree.children id).all fun c => r.tree.kind c == .funcParam

/-- A function with its clauses. While it has nothing but parameters, a function behind it is its body. -/
def functionWithin (g : Grammar) (r : Reader) (h : r.rest.length ≤ n) :
    { found : Bool × Reader // r.Advances found } :=
  if hs : r.startsWith '#' then
    let rule := g.functionRule r.rest.tail.name
    let opened := r.named .func
    have hopened : opened.2.rest.length < r.rest.length := length_behindName hs
    let front := clauses read rule .funcBody none opened.2 (Nat.le_trans (Nat.le_of_lt hopened) h)
    have hfront : front.2.rest.length < r.rest.length := Nat.lt_of_le_of_lt (length_clauses_le read) hopened
    if front.2.hasOnlyParams opened.1 && front.2.startsWith '#' then
      let below := front.2.enter { kind := .funcBody, layout := some .directChild }
      let hosted := functionWithin g below.2 (Nat.le_trans (Nat.le_of_lt hfront) h)
      have hhosted : hosted.1.2.rest.length < r.rest.length := Nat.lt_of_le_of_lt hosted.2.length_le hfront
      let behind := clauses read rule .funcBody front.1 { hosted.1.2 with current := opened.1 }
        (Nat.le_trans (Nat.le_of_lt hhosted) h)
      ⟨(true, behind.2.ascend opened.1), .of_shorter (Nat.lt_of_le_of_lt (length_clauses_le read) hhosted)⟩
    else ⟨(true, front.2.ascend opened.1), .of_shorter hfront⟩
  else ⟨(false, r), .of_unchanged⟩
termination_by r.rest.length
decreasing_by exact hfront

/-- A function. -/
def function (g : Grammar) (r : Reader) (h : r.rest.length ≤ n) : Bool × Reader :=
  (functionWithin read g r h).1

theorem function_eq (g : Grammar) (r : Reader) (h : r.rest.length ≤ n) :
    function read g r h =
      if hs : r.startsWith '#' then
        let rule := g.functionRule r.rest.tail.name
        let opened := r.named .func
        have hopened : opened.2.rest.length < r.rest.length := length_behindName hs
        let front := clauses read rule .funcBody none opened.2 (Nat.le_trans (Nat.le_of_lt hopened) h)
        have hfront : front.2.rest.length ≤ n :=
          Nat.le_trans (length_clauses_le read) (Nat.le_trans (Nat.le_of_lt hopened) h)
        if front.2.hasOnlyParams opened.1 && front.2.startsWith '#' then
          let below := front.2.enter { kind := .funcBody, layout := some .directChild }
          let hosted := function read g below.2 hfront
          have hhosted : hosted.2.rest.length ≤ n :=
            Nat.le_trans (functionWithin read g below.2 hfront).2.length_le hfront
          let behind := clauses read rule .funcBody front.1 { hosted.2 with current := opened.1 } hhosted
          (true, behind.2.ascend opened.1)
        else (true, front.2.ascend opened.1)
      else (false, r) := by
  rw [function, functionWithin]
  split
  · simp only
    split <;> rfl
  · rfl

theorem advances_function (g : Grammar) (r : Reader) (h : r.rest.length ≤ n) :
    r.Advances (function read g r h) := (functionWithin read g r h).2

/-- A reference sign with a name, and the function it names. -/
def reference (g : Grammar) (r : Reader) (h : r.rest.length ≤ n) : Bool × Reader :=
  if r.rest.chars.head? = some '@' then
    let name := r.rest.tail.name
    match ht : Segment.afterEquals? r.behindName.rest with
    | none => (true, r.behindName.warn (referenceWarning name))
    | some target =>
      if target.chars.head? == some '#' then
        let opened := { r with rest := target }.enter { kind := .ref, content := name }
        let found := function read g opened.2
          (Nat.le_trans (Segment.length_afterEquals? ht) (Nat.le_trans (length_behindName_le r) h))
        (true, (if found.1 then found.2 else found.2.warn (referenceWarning name)).ascend opened.1)
      else (true, { r with rest := target }.warn (referenceWarning name))
  else (false, r)

theorem advances_reference (g : Grammar) (r : Reader) (h : r.rest.length ≤ n) :
    r.Advances (reference read g r h) := by
  rw [reference]
  split
  · rename_i hs
    have hname : r.behindName.rest.length < r.rest.length :=
      Nat.lt_of_le_of_lt (Window.length_afterName_le _)
        (Window.length_tail_lt fun hnil => by rw [hnil] at hs; cases hs)
    split
    · exact .of_shorter hname
    · rename_i target ht
      have htarget := Nat.lt_of_le_of_lt (Segment.length_afterEquals? ht) hname
      split
      · have hfound (opened : Reader) (h : opened.rest.length ≤ n) :=
          (advances_function read g opened h).length_le
        refine .of_shorter (Nat.lt_of_le_of_lt ?_ htarget)
        simp only [ascend]
        split <;> exact hfound _ _
      · exact .of_shorter htarget
  · exact .of_unchanged

/-- A command with its clauses. -/
def command (g : Grammar) (r : Reader) (h : r.rest.length ≤ n) : Bool × Reader :=
  if hs : r.startsWith '$' then
    let opened := r.named .cmd
    let behind := clauses read (g.commandRule r.rest.tail.name) .body none opened.2
      (Nat.le_trans (Nat.le_of_lt (length_behindName hs)) h)
    (true, behind.2.ascend opened.1)
  else (false, r)

theorem advances_command (g : Grammar) (r : Reader) (h : r.rest.length ≤ n) :
    r.Advances (command read g r h) := by
  rw [command]
  split
  · rename_i hs
    exact .of_shorter (Nat.lt_of_le_of_lt (length_clauses_le read) (length_behindName hs))
  · exact .of_unchanged

/-- A use of a variable, or an assignment with its command. What turns out to have no command is taken
back. -/
def assignment (g : Grammar) (r : Reader) (h : r.rest.length ≤ n) : Bool × Reader :=
  if r.startsWith '%' then
    let name := r.rest.tail.name
    match ht : Segment.afterEquals? r.behindName.rest with
    | none => (true, (r.behindName.push { kind := .varUse, content := name }).2)
    | some target =>
      let opened := { r with rest := target }.enter { kind := .varAssign, content := name }
      let found := command read g opened.2
        (Nat.le_trans (Segment.length_afterEquals? ht) (Nat.le_trans (length_behindName_le r) h))
      let back := found.2.ascend opened.1
      (true, if found.1 then back
        else { back with tree := back.tree.remove opened.1 }.warn (assignmentWarning name))
  else (false, r)

theorem advances_assignment (g : Grammar) (r : Reader) (h : r.rest.length ≤ n) :
    r.Advances (assignment read g r h) := by
  rw [assignment]
  split
  · rename_i hs
    have hname := length_behindName hs
    split
    · exact .of_shorter hname
    · rename_i target ht
      have htarget := Nat.lt_of_le_of_lt (Segment.length_afterEquals? ht) hname
      have hfound (opened : Reader) (h : opened.rest.length ≤ n) :=
        (advances_command read g opened h).length_le
      refine .of_shorter (Nat.lt_of_le_of_lt ?_ htarget)
      split <;> exact hfound _ _
  · exact .of_unchanged

/-- The first of the steps that takes something. -/
def step (g : Grammar) (r : Reader) (h : r.rest.length ≤ n) : Bool × Reader :=
  let asProse := r.prose
  have h₁ := Nat.le_trans r.advances_prose.length_le h
  let asFunction := function read g asProse.2 h₁
  have h₂ := Nat.le_trans (advances_function read g asProse.2 h₁).length_le h₁
  let asReference := reference read g asFunction.2 h₂
  have h₃ := Nat.le_trans (advances_reference read g asFunction.2 h₂).length_le h₂
  let asCommand := command read g asReference.2 h₃
  have h₄ := Nat.le_trans (advances_command read g asReference.2 h₃).length_le h₃
  if asProse.1 then asProse
  else if asFunction.1 then asFunction
  else if asReference.1 then asReference
  else if asCommand.1 then asCommand
  else assignment read g asCommand.2 h₄

/-- Steps that have taken nothing leave the reader to the next. -/
theorem step_eq (g : Grammar) (r : Reader) (h : r.rest.length ≤ n) :
    step read g r h =
      if r.prose.1 then r.prose
      else if (function read g r h).1 then function read g r h
      else if (reference read g r h).1 then reference read g r h
      else if (command read g r h).1 then command read g r h
      else assignment read g r h := by
  have hsame {found : Bool × Reader} (hadvances : r.Advances found) (hf : found.1 = false) :
      found = (false, r) := Prod.ext hf (hadvances.unchanged hf)
  cases hprose : r.prose.1 with
  | true => simp only [step, hprose, if_true]
  | false =>
    simp only [step, hsame r.advances_prose hprose, if_false, Bool.false_eq_true]
    cases hfunction : (function read g r h).1 with
    | true => simp only [if_true]
    | false =>
      simp only [hsame (advances_function read g r h) hfunction, if_false, Bool.false_eq_true]
      cases hreference : (reference read g r h).1 with
      | true => simp only [if_true]
      | false =>
        simp only [hsame (advances_reference read g r h) hreference, if_false, Bool.false_eq_true]
        cases hcommand : (command read g r h).1 with
        | true => simp only [if_true]
        | false => simp only [hsame (advances_command read g r h) hcommand, if_false, Bool.false_eq_true]

theorem advances_step (g : Grammar) (r : Reader) (h : r.rest.length ≤ n) : r.Advances (step read g r h) :=
  r.advances_prose.orElse <| (advances_function read g _ _).orElse <|
    (advances_reference read g _ _).orElse <| (advances_command read g _ _).orElse
      (advances_assignment read g _ _)

variable {read} in
theorem length_of_step {g : Grammar} {r r' : Reader} {h : r.rest.length ≤ n}
    (hs : step read g r h = (true, r')) : r'.rest.length < r.rest.length := by
  have hadvances := advances_step read g r h
  rw [hs] at hadvances
  exact hadvances.shorter rfl

end

/-! ## Windows -/

/-- A window read step by step to its end, or up to where no step takes anything. Line feeds are passed
over. -/
def core (g : Grammar) (r : Reader) : Bool × Reader :=
  if _hnil : r.rest.chars = [] then (true, r)
  else if r.rest.chars.head? = some '\n' then core g { r with rest := r.rest.tail }
  else
    match _hs : step (n := r.rest.length) (fun r' _ => core g r') g r (Nat.le_refl _) with
    | (true, r') => core g r'
    | (false, r') => (false, { r' with aborted := true })
termination_by r.rest.length
decreasing_by
  · exact Window.length_tail_lt ‹_›
  · assumption
  · exact length_of_step ‹_›

/-- One round of reading a window, given how windows are read with less before them. -/
def round (g : Grammar) (recur : Reader → Bool × Reader) (r : Reader) : Bool × Reader :=
  if r.rest.chars = [] then (true, r)
  else if r.rest.chars.head? = some '\n' then recur { r with rest := r.rest.tail }
  else
    match step (n := r.rest.length) (fun r' _ => recur r') g r (Nat.le_refl _) with
    | (true, r') => recur r'
    | (false, r') => (false, { r' with aborted := true })

/-- A window is read round after round. -/
theorem core_eq_round (g : Grammar) (r : Reader) : core g r = round g (core g) r := by
  rw [core, round]
  split
  · rfl
  · split
    · rfl
    · split <;> rename_i hs <;> rw [hs]

/-- The rounds come to an end on every input: they leave no choice of what is read. -/
theorem eq_core_of_round {g : Grammar} {recur : Reader → Bool × Reader} (h : ∀ r, recur r = round g recur r)
    (r : Reader) : recur r = core g r := by
  rw [h, core_eq_round, round, round]
  split
  · rfl
  · split
    · exact eq_core_of_round h _
    · have hreads : (fun r' _ => recur r' : Reads r.rest.length) = fun r' _ => core g r' :=
        funext fun r' => funext fun _ => eq_core_of_round h r'
      rw [hreads]
      split
      · exact eq_core_of_round h _
      · rfl
termination_by r.rest.length
decreasing_by
  · assumption
  · exact length_of_step ‹_›
  · exact Window.length_tail_lt ‹_›

end Reader

end Evomark.Markup
