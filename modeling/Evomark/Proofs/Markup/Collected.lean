import Evomark.Proofs.Document.Everywhere
import Evomark.Proofs.Markup.Overlay
import Evomark.Proofs.Markup.Registered
import Evomark.Proofs.Markup.Separators
/-!
# Settings of a document

The settings that are collected beside a document are those the document holds itself. `Node.blocks` finds the
configuration blocks in a document: the bodies of functions and commands whose rule makes them such. A block
that is a dictionary in its language holds a node for that, any other block a warning, and nothing else makes
such nodes (`Collects.nodes`). `Collects` is followed from what a body gives up to a window, the functions that
are hosted in between (`collects_readFunction`). So a namespace has the union of the dictionaries of its nodes
in reading order, whether or not the source was read to its end (`settings_of_document`).
-/

namespace Evomark

open Markup

/-! ## Blocks -/

/-- A configuration block: the namespace its settings go to, its language and its text. -/
structure SettingsBlock where
  space : String
  language : String
  text : String

/-- The settings of a block, unless it is malformed. -/
def SettingsBlock.settings? (b : SettingsBlock) : Option (String × Table Json) :=
  (readDictionary b.text b.language).toOption.map fun dictionary => (b.space, dictionary)

/-- The node for settings of a namespace. -/
def settingsNode (settings : String × Table Json) : Node :=
  .leaf { kind := .configDict, content := settings.1, value := some (.object settings.2) }

namespace Node

/-- The settings that a node is for. -/
def settings? : Node → Option (String × Table Json)
  | ⟨{ kind := .configDict, content := space, value := some (.object dictionary), .. }, _⟩ =>
    some (space, dictionary)
  | _ => none

/-- The settings in a document, in reading order. -/
def settings (n : Node) : List (String × Table Json) := n.subtrees.filterMap settings?

/-- How the bodies of a node are read. -/
def bodyRule? (g : Grammar) (label : Label) : Option BodyRule :=
  match label.kind with
  | .func => some (g.functionRule label.content)
  | .cmd => some (g.commandRule label.content)
  | _ => none

theorem bodyRule?_of_isBody {g : Grammar} {label : Label} (h : label.kind.isBody = true) :
    bodyRule? g label = none := by
  unfold bodyRule?
  split
  · exact absurd ‹_› (Node.ne_of_isBody h rfl)
  · exact absurd ‹_› (Node.ne_of_isBody h rfl)
  · rfl

/-- A body with delimiters in the source. -/
def isDelimited (n : Node) : Bool := n.kind.isBody && n.label.span.isSome

/-- The configuration block that a node is, if it is among nodes whose bodies are read by `rule`. `param` is the
value of the last parameter before it. -/
def block? (rule : Option BodyRule) (param : Option Json) (n : Node) : Option SettingsBlock :=
  match rule with
  | some (.config space) => if n.isDelimited then some ⟨space, languageOf param, n.content⟩ else none
  | _ => none

mutual

/-- The configuration blocks in a node, in reading order. -/
def blocks (g : Grammar) : Node → List SettingsBlock
  | ⟨label, children⟩ => blocksUnder g (bodyRule? g label) none children

/-- The configuration blocks among the children of a node and in them, if its bodies are read by `rule`. `param`
is the value of the last parameter before them. -/
def blocksUnder (g : Grammar) (rule : Option BodyRule) : Option Json → List Node → List SettingsBlock
  | _, [] => []
  | param, n :: rest =>
    (n.block? rule param).elim (n.blocks g) ([·]) ++
      blocksUnder g rule (if n.kind = .funcParam then n.label.value else param) rest

end

theorem block?_eq_none {rule : Option BodyRule} {param : Option Json} {n : Node}
    (h : (∀ space, rule ≠ some (.config space)) ∨ n.isDelimited = false) : n.block? rule param = none := by
  unfold block?
  split
  · rename_i space
    rw [if_neg (by simpa using h.resolve_left fun hrule => hrule space rfl)]
  · rfl

theorem blocksUnder_none (g : Grammar) (param : Option Json) (ns : List Node) :
    blocksUnder g none param ns = ns.flatMap (blocks g) := by
  induction ns generalizing param with
  | nil => rfl
  | cons n rest ih =>
    rw [blocksUnder, ih, List.flatMap_cons]
    rfl

end Node

open Node

/-! ## Nodes that hold their settings -/

/-- The settings are those of the configuration blocks under the nodes that are not malformed, and there is a
node for each, in order, and no other such node. -/
structure Collects (g : Grammar) (rule : Option BodyRule) (param : Option Json) (ns : List Node)
    (settings : List (String × Table Json)) : Prop where
  nodes : (subtreesAll ns).filter (·.kind == .configDict) = settings.map settingsNode
  blocks : (blocksUnder g rule param ns).filterMap SettingsBlock.settings? = settings

namespace Collects

variable {g : Grammar} {rule : Option BodyRule} {param : Option Json} {n : Node} {ns ms : List Node}
  {a b : List (String × Table Json)}

theorem nil : Collects g rule param [] [] := ⟨rfl, rfl⟩

theorem append (h : Collects g none none ns a) (h' : Collects g none none ms b) :
    Collects g none none (ns ++ ms) (a ++ b) where
  nodes := by rw [subtreesAll_append, List.filter_append, h.nodes, h'.nodes, List.map_append]
  blocks := by
    rw [blocksUnder_none, List.flatMap_append, ← blocksUnder_none g none ns, ← blocksUnder_none g none ms,
      List.filterMap_append, h.blocks, h'.blocks]

theorem flatMap {α : Type} {nodes : α → List Node} {settings : α → List (String × Table Json)} {items : List α}
    (h : ∀ item ∈ items, Collects g none none (nodes item) (settings item)) :
    Collects g none none (items.flatMap nodes) (items.flatMap settings) := by
  induction items with
  | nil => exact nil
  | cons item rest ih =>
    obtain ⟨hitem, hrest⟩ := List.forall_mem_cons.1 h
    exact hitem.append (ih hrest)

theorem node {label : Label} (hk : label.kind ≠ .configDict) (h : Collects g (bodyRule? g label) none ns a) :
    Collects g none none [⟨label, ns⟩] a where
  nodes := by
    rw [subtreesAll, subtreesAll, List.append_nil, subtrees,
      List.filter_cons_of_neg (by simpa [Node.kind] using hk), h.nodes]
  blocks := by
    rw [blocksUnder_none, List.flatMap_singleton, Node.blocks]
    exact h.blocks

theorem body {label : Label} (hk : label.kind.isBody = true) (h : Collects g none none ns a) :
    Collects g none none [⟨label, ns⟩] a := by
  refine node (Node.ne_of_isBody hk rfl) ?_
  rwa [bodyRule?_of_isBody hk]

theorem leaf {label : Label} (hk : label.kind ≠ .configDict) : Collects g none none [.leaf label] [] :=
  node hk nil

theorem leaves (h : ∀ n ∈ ns, ∃ label, n = .leaf label ∧ label.kind ≠ .configDict) :
    Collects g none none ns [] := by
  induction ns with
  | nil => exact nil
  | cons n rest ih =>
    obtain ⟨⟨label, rfl, hk⟩, hrest⟩ := List.forall_mem_cons.1 h
    exact (leaf hk).append (ih hrest)

/-- A child that is no configuration block itself, before others. -/
theorem cons (hn : Collects g none none [n] a) (hplain : n.block? rule param = none)
    (h : Collects g rule (if n.kind = .funcParam then n.label.value else param) ns b) :
    Collects g rule param (n :: ns) (a ++ b) where
  nodes := by
    rw [← List.singleton_append, subtreesAll_append, List.filter_append, hn.nodes, h.nodes, List.map_append]
  blocks := by
    have hown := hn.blocks
    rw [blocksUnder_none, List.flatMap_singleton] at hown
    rw [blocksUnder, hplain, Option.elim_none, List.filterMap_append, hown, h.blocks]

/-- A child that is a configuration block, before others. -/
theorem cons_block {block : SettingsBlock}
    (hn : (subtrees n).filter (·.kind == .configDict) = (block.settings?.map settingsNode).toList)
    (hblock : n.block? rule param = some block)
    (h : Collects g rule (if n.kind = .funcParam then n.label.value else param) ns b) :
    Collects g rule param (n :: ns) (block.settings?.toList ++ b) where
  nodes := by
    rw [subtreesAll, List.filter_append, hn, h.nodes, List.map_append, Option.toList_map]
  blocks := by
    rw [blocksUnder, hblock, Option.elim_some, List.singleton_append, List.filterMap_cons, h.blocks]
    cases block.settings? <;> rfl

theorem ordered (h : Collects g rule param ns a) : ∀ entry ∈ a, entry.2.Ordered := by
  intro entry hentry
  rw [← h.blocks] at hentry
  obtain ⟨block, -, hblock⟩ := List.mem_filterMap.1 hentry
  unfold SettingsBlock.settings? at hblock
  cases hread : readDictionary block.text block.language with
  | error e =>
    rw [hread] at hblock
    cases hblock
  | ok dictionary =>
    rw [hread] at hblock
    obtain rfl := Option.some.inj hblock
    exact ordered_of_readDictionary hread

theorem settings (h : Collects g none none [n] a) : n.settings = a := by
  have hfilter : n.settings = (n.subtrees.filter (·.kind == .configDict)).filterMap settings? := by
    rw [Node.settings, List.filterMap_filter]
    refine List.filterMap_congr fun m _ => ?_
    split
    · rfl
    · rename_i hk
      unfold settings?
      split
      · exact absurd rfl hk
      · rfl
  have hnodes := h.nodes
  rw [subtreesAll, subtreesAll, List.append_nil] at hnodes
  rw [hfilter, hnodes, List.filterMap_map]
  exact List.filterMap_some

end Collects

/-! ## Reading -/

namespace Markup

variable {g : Grammar} {read : Window → Contents} {b : List (String × Table Json)}

theorem content_readSettings (space : String) (param : Option Json) (raw : String) :
    (readSettings space param raw).content = raw := by
  unfold readSettings
  split <;> rfl

theorem settings_readSettings (space : String) (param : Option Json) (raw : String) :
    (readSettings space param raw).settings = (SettingsBlock.settings? ⟨space, languageOf param, raw⟩).toList := by
  unfold readSettings SettingsBlock.settings?
  cases readDictionary raw (languageOf param) <;> rfl

/-- A configuration block holds a node for its settings, or a warning if it is malformed. -/
theorem nodes_readSettings (space : String) (param : Option Json) (raw : String) :
    (subtreesAll (readSettings space param raw).children).filter (·.kind == .configDict) =
      ((SettingsBlock.settings? ⟨space, languageOf param, raw⟩).map settingsNode).toList := by
  unfold readSettings SettingsBlock.settings?
  cases readDictionary raw (languageOf param) <;> rfl

theorem collects_readSettings {space raw : String} {param : Option Json} {label : Label} {ns : List Node}
    (hbody : label.kind.isBody = true) (hspan : label.span.isSome = true) (hraw : label.content = raw)
    (h : Collects g (some (.config space)) param ns b) :
    Collects g (some (.config space)) param (⟨label, (readSettings space param raw).children⟩ :: ns)
      ((readSettings space param raw).settings ++ b) := by
  subst hraw
  have hdict : label.kind ≠ .configDict := Node.ne_of_isBody hbody rfl
  have hparam : label.kind ≠ .funcParam := Node.ne_of_isBody hbody rfl
  rw [settings_readSettings]
  refine .cons_block ?_ ?_ ?_
  · rw [subtrees, List.filter_cons_of_neg (by simpa [Node.kind] using hdict), nodes_readSettings]
  · rw [block?, isDelimited, Node.kind, hbody, hspan]
    rfl
  · rwa [Node.kind, if_neg hparam]

section

variable (hread : ∀ w, Collects g none none (read w).inside.children (read w).inside.settings)

include hread

theorem collects_readBody {rule : BodyRule} (hrule : ∀ space, rule ≠ .config space) (param : Option Json)
    (w : Window) :
    Collects g none none (readBody read rule param w).children (readBody read rule param w).settings := by
  cases rule with
  | box => exact hread w
  | code | reject => exact .nil
  | literal =>
    refine .leaves fun n hn => ?_
    cases isItem_of_mem_literalNodesFrom hn with
    | literal | use | sep => exact ⟨_, rfl, Kind.noConfusion⟩
  | config space => exact absurd rfl (hrule space)
  | shout => exact .leaf Kind.noConfusion

theorem collects_readClauses (rule : BodyRule) {kind : Kind} (hk : kind.isBody = true) (param : Option Json)
    (clauses : List Clause) {tail : List Node} (htail : ∀ param, Collects g (some rule) param tail b) :
    let parts := readClauses read rule kind param clauses
    Collects g (some rule) param (parts.nodes ++ tail) (parts.settings ++ b) := by
  induction clauses generalizing param with
  | nil => exact htail param
  | cons clause more ih =>
    cases clause with
    | param raw value span =>
      exact Collects.cons (a := []) (.leaf Kind.noConfusion) (block?_eq_none (.inr rfl)) (ih (some value))
    | body layout inner =>
      have hrest := ih param
      simp only [readClauses, List.cons_append, List.append_assoc]
      -- a configuration block has settings of its own, any other body those of its nodes
      by_cases hrule : ∃ space, rule = .config space
      · obtain ⟨space, rfl⟩ := hrule
        exact collects_readSettings hk rfl (content_readSettings ..) hrest
      · have hother space : rule ≠ .config space := fun heq => hrule ⟨space, heq⟩
        have hbody := collects_readBody hread hother param inner
        refine .cons (.body hk hbody) (block?_eq_none (.inl fun space => mt Option.some.inj (hother space))) ?_
        rwa [Node.kind, if_neg (Node.ne_of_isBody hk rfl)]

theorem collects_readCommand (call : Call) :
    Collects g none none (readCommand g read call).node.toList (readCommand g read call).settings := by
  have hparts := collects_readClauses hread (g.commandRule call.name) (rfl : Kind.body.isBody = true) none
    call.clauses (fun _ => .nil)
  simp only [List.append_nil] at hparts
  exact .node Kind.noConfusion hparts

theorem collects_readFunction (call : Call) (nested : List Call) :
    Collects g none none (readFunction g read call nested).node.toList
      (readFunction g read call nested).settings := by
  induction nested generalizing call with
  | nil =>
    have hparts := collects_readClauses hread (g.functionRule call.name) (rfl : Kind.funcBody.isBody = true) none
      call.clauses (fun _ => .nil)
    simp only [List.append_nil] at hparts
    exact .node Kind.noConfusion hparts
  | cons next more ih =>
    -- the body in place of which the next function stands has no delimiters, so it is no block
    refine .node Kind.noConfusion (collects_readClauses hread _ rfl none call.clauses fun param => ?_)
    rw [← List.append_nil (readFunction g read next more).settings]
    exact .cons (.body rfl (ih next)) (block?_eq_none (.inr rfl)) .nil

theorem collects_readSegment (segment : Segment) :
    Collects g none none (readSegment g read segment).node.toList (readSegment g read segment).settings := by
  cases segment with
  | prose raw =>
    simp only [readSegment]
    split
    · exact .nil
    · exact .leaf Kind.noConfusion
  | function call nested => exact collects_readFunction hread call nested
  | reference name call nested => exact .node Kind.noConfusion (collects_readFunction hread call nested)
  | danglingReference | danglingAssignment => exact .nil
  | emptyReference | use => exact .leaf Kind.noConfusion
  | command call => exact collects_readCommand hread call
  | assignment name call => exact .node Kind.noConfusion (collects_readCommand hread call)

end

/-- What a window gives holds its settings. -/
theorem collects_readWindow (g : Grammar) (fuel : Nat) (w : Window) :
    Collects g none none (readWindow g fuel w).inside.children (readWindow g fuel w).inside.settings := by
  induction fuel generalizing w with
  | zero => exact .nil
  | succ fuel ih =>
    simp only [Contents.inside, readWindow, List.filterMap_eq_flatMap_toList, List.flatMap_map]
    exact .flatMap fun segment _ => collects_readSegment ih segment

theorem collects_document (g : Grammar) (initial : Table Json) (source : String) :
    Collects g none none [(parse g initial source).document]
      ((contents g (.ofSource source)).findings.flatMap (·.settings)) := by
  refine .node Kind.noConfusion ?_
  show Collects g none none (List.flatMap Finding.rootNodes (List.map _ _)) (List.flatMap _ (List.map _ _))
  rw [List.flatMap_map, List.flatMap_map]
  refine .flatMap fun segment _ => ?_
  rw [← List.append_nil (Finding.settings _)]
  exact (collects_readSegment (collects_readWindow g _) segment).append <|
    .leaves (List.forall_mem_map.2 fun message _ => ⟨_, rfl, Kind.noConfusion⟩)

/-- A document holds the settings that are collected beside it. -/
theorem collects_parse (g : Grammar) (initial : Table Json) (source : String) :
    let parsed := parse g initial source
    Collects g none none [parsed.document] parsed.document.settings ∧
      parsed.config = overlay initial parsed.document.settings := by
  have hcollects := collects_document g initial source
  simp only [hcollects.settings]
  exact ⟨hcollects, rfl⟩

end Markup

/-- What is collected beside a document is what the document holds: there is a node for each configuration block
that is not malformed, in reading order, and no other such node. Under a namespace of the registry, and under each
namespace that has such a node, there is the union of the dictionaries of its nodes, and there are no other
namespaces. -/
theorem settings_of_document {r : Registry} (hr : r.Built) (source : String) :
    let parsed := r.parse source
    let settings := parsed.document.settings
    parsed.document.subtrees.filter (·.kind == .configDict) = settings.map settingsNode ∧
      (parsed.document.blocks r.grammar).filterMap SettingsBlock.settings? = settings ∧
      parsed.config.Ordered ∧
      (∀ space, (parsed.config.get? space).isSome = true ↔
        (r.namespaces.get? space).isSome = true ∨ dictionariesOf space settings ≠ []) ∧
      ∀ space value, parsed.config.get? space = some value →
        ∃ fields, value = .object fields ∧ IsUnion (dictionariesOf space settings) fields := by
  intro parsed settings
  obtain ⟨hcollects, hconfig⟩ : Collects r.grammar none none [parsed.document] settings ∧
      parsed.config = overlay r.namespaces settings := collects_parse r.grammar r.namespaces source
  have hnodes := hcollects.nodes
  rw [subtreesAll, subtreesAll, List.append_nil] at hnodes
  have hblocks := hcollects.blocks
  rw [blocksUnder_none, List.flatMap_singleton] at hblocks
  have hget (space : String) := get?_overlay hr.namespaces settings space
  have hunion (space : String) : IsUnion (dictionariesOf space settings) (joined (dictionariesOf space settings)) :=
    isUnion_joined (ordered_of_mem_dictionariesOf hcollects.ordered)
  refine ⟨hnodes, hblocks, ?_, fun space => ?_, fun space value hvalue => ?_⟩
  · exact hconfig ▸ ordered_overlay hr.namespaces.ordered settings
  · rw [hconfig, hget]
    split <;> simp_all
  · rw [hconfig, hget] at hvalue
    split at hvalue
    · exact ⟨_, (Option.some.inj hvalue).symm, hunion space⟩
    · cases hvalue

/-- Blocks of two namespaces in three languages: inside of a box, hosted by another and side by side. One of them
is malformed, and the source is not read to its end. -/
theorem settings_of_document_nested :
    let r : Registry :=
      { Registry.standard.addNamespace "y" with
        functions := Registry.standard.functions.insert "set" (.config "x") }
    let parsed := r.parse <| "#box\x7b#config\x7b\x7b\"b\": 1, \"a\": 1\x7d\x7d #config\x7bbad\x7d\x7d@v = " ++
      "#config(string)#set(yaml)\x7bk: [v]\x7d #config(string)\x7b\"a\": 2\x7d\x7b\"c\": 3\x7d #"
    r.Built ∧ parsed.complete = false ∧
      (parsed.document.blocks r.grammar).map (fun block => (block.space, block.settings?.isSome)) =
        [("env", true), ("env", false), ("x", true), ("env", true), ("env", true)] ∧
      parsed.config.map (fun entry => (entry.1, entry.2.compact)) =
        [("env", "\x7b\"a\":2,\"b\":1,\"c\":3\x7d"), ("x", "\x7b\"k\":[\"v\"]\x7d"), ("y", "\x7b\x7d")] ∧
      parsed.document.subtrees.filter (·.kind == .configDict) = parsed.document.settings.map settingsNode ∧
      ∃ fields, parsed.config.get? "env" = some (.object fields) ∧
        IsUnion (dictionariesOf "env" parsed.document.settings) fields := by
  intro r parsed
  have hadd : (Registry.standard.addNamespace "y").addFunction "set" (.config "x") = .ok r := rfl
  have hr : r.Built := .function (.settings .standard "y") hadd
  obtain ⟨hnodes, -, -, hspaces, hunion⟩ := settings_of_document hr _
  obtain ⟨value, hvalue⟩ := Option.isSome_iff_exists.1 ((hspaces "env").2 (.inl rfl))
  obtain ⟨fields, rfl, hfields⟩ := hunion "env" value hvalue
  exact ⟨hr, by decide +kernel, by decide +kernel, by decide +kernel, hnodes, fields, hvalue, hfields⟩

end Evomark
