import Evomark.Registry
import Evomark.Proofs.Markup.Segmented
/-!
# The shape of parsed documents

Under a grammar whose rules keep what stands in a body (`Grammar.Keeps`), as those of the standard
registry do, a document without warnings consists of elements (`isFlow_parse`).
-/

namespace Evomark

open Markup

/-- Bodies of functions are boxes or kept as texts, and those of commands are literal. -/
structure Grammar.Keeps (g : Grammar) : Prop where
  functions : ∀ name, g.functionRule name = .box ∨ g.functionRule name = .code ∨
    ∃ space, g.functionRule name = .config space
  commands : ∀ name, g.commandRule name = .literal

namespace Grammar.Keeps

variable {g : Grammar} (hg : g.Keeps)

include hg

/-- Only bodies of commands are literal. -/
theorem literal_function (name : String) :
    g.functionRule name = .literal ↔ Kind.funcBody = .body := by
  refine iff_of_false (fun h => ?_) (by decide)
  rcases hg.functions name with hf | hf | ⟨space, hf⟩ <;> rw [hf] at h <;> cases h

theorem literal_command (name : String) : g.commandRule name = .literal ↔ Kind.body = .body :=
  iff_of_true (hg.commands name) rfl

end Grammar.Keeps

theorem keeps_standard : Registry.standard.grammar.Keeps := by
  have hf : Registry.standard.functions =
      [("box", .box), ("code", .code), ("config", .config "env")] := rfl
  have hc : Registry.standard.commands = [("init", .literal), ("json", .literal),
      ("require", .literal), ("save", .literal), ("t", .literal), ("upper", .literal)] := rfl
  refine ⟨fun name => ?_, fun name => ?_⟩
  · simp only [Grammar.functionRule, Registry.grammar, hf, Table.get?]
    by_cases hbox : "box" = name
    · simp [hbox]
    · by_cases hcode : "code" = name
      · simp [hbox, hcode]
      · by_cases hconfig : "config" = name <;> simp [hbox, hcode, hconfig]
  · simp only [Grammar.commandRule, Registry.grammar, hc, Table.get?]
    repeat' split
    all_goals rfl

namespace Node

mutual

/-- There is no node of a kind among the node and those below it. -/
def Lacks (kind : Kind) : Node → Prop
  | ⟨label, children⟩ => label.kind ≠ kind ∧ LacksAll kind children

/-- There is no node of a kind among the nodes and those below them. -/
def LacksAll (kind : Kind) : List Node → Prop
  | [] => True
  | n :: rest => Lacks kind n ∧ LacksAll kind rest

end

theorem lacksAll_iff {kind : Kind} {ns : List Node} : LacksAll kind ns ↔ ∀ n ∈ ns, n.Lacks kind := by
  induction ns with
  | nil => simp [LacksAll]
  | cons n rest ih => simp [LacksAll, ih]

mutual

theorem lacks_iff (kind : Kind) (depth : Nat) : ∀ n : Node,
    n.Lacks kind ↔ ∀ entry ∈ preorderFrom depth n, entry.2.kind ≠ kind
  | ⟨label, children⟩ => by
    rw [Lacks, preorderFrom, List.forall_mem_cons, lacksAll_iff_preorder kind (depth + 1) children]

theorem lacksAll_iff_preorder (kind : Kind) (depth : Nat) : ∀ ns : List Node,
    LacksAll kind ns ↔ ∀ entry ∈ preorderAll depth ns, entry.2.kind ≠ kind
  | [] => by simp [LacksAll, preorderAll]
  | n :: rest => by
    rw [LacksAll, preorderAll, List.forall_mem_append, lacks_iff kind depth n,
      lacksAll_iff_preorder kind depth rest]

end

end Node

namespace Markup

variable {g : Grammar}

/-! ## Literal bodies -/

theorem apart_of_not_startsConstruct {sign c : Char} {rest : List Char}
    (h : ¬ Window.startsConstruct sign (c :: rest) = true) (d : Char) (hd : rest.head? = some d) :
    Apart [sign] c d := by
  rintro ⟨hc, hd'⟩
  obtain ⟨more, rfl⟩ := List.head?_eq_some_iff.1 hd
  rw [List.mem_singleton] at hc
  exact h (by simp [Window.startsConstruct, hc, hd'])

/-- A literal before a use or a separator, if there is one. -/
theorem isFlow_literalOf_append {run : List Char} {prev : Option Kind} {rest : List Node}
    (h : run.reverse.IsChain (Apart ['%'])) (hp : prev ≠ some .literal)
    (hrest : ∀ prev, IsFlow g false false prev rest) :
    IsFlow g false false prev (literalOf run ++ rest) := by
  unfold literalOf
  simp only
  split
  · exact hrest prev
  · rename_i hne
    refine ⟨⟨rfl, rfl, rfl, ⟨?_, ?_, by simp, ?_⟩, hp⟩, hrest _⟩
    · simp only [Node.leaf, Node.content, String.toList_ofList, Text.normalizeLines_normalizeLines]
    · simpa [Node.leaf, Node.content] using hne
    · simp only [Node.leaf, Node.content, String.toList_ofList]
      exact Text.isChain_normalizeLines (fun c _ h => absurd h.2 (by decide))
        (fun c _ h => absurd h.1 (by decide)) h

theorem apart_of_isGapChar {c d : Char} (h : isGapChar c = true ∨ isGapChar d = true) :
    Apart ['%'] c d := by
  rintro ⟨hc, hd⟩
  rw [List.mem_singleton] at hc
  rcases h with h | h
  · rw [hc] at h
    exact absurd h (by decide)
  · simp only [isGapChar, Bool.or_eq_true, beq_iff_eq] at h
    rcases h with ((rfl | rfl) | rfl) | rfl <;> exact absurd hd (by decide)

/-- No construct is read into the run before it. -/
theorem isFlow_literalNodesFrom {run cs : List Char} {prev : Option Kind}
    (h : (run.reverse ++ cs.take 1).IsChain (Apart ['%'])) (hp : prev ≠ some .literal) :
    IsFlow g false false prev (literalNodesFrom run cs) := by
  fun_induction literalNodesFrom run cs generalizing prev with
  | case1 run =>
    rw [← List.append_nil (literalOf run)]
    exact isFlow_literalOf_append h.left_of_append hp fun _ => by simp [IsFlow]
  | case2 run c rest hs ih =>
    refine isFlow_literalOf_append h.left_of_append hp fun prev => ⟨⟨rfl, rfl, rfl, ?_⟩, ?_⟩
    · exact Segment.isName_of_startsConstruct (w := ⟨0, c :: rest⟩) hs
    · refine ih ?_ (by simp [useOf, Node.leaf, Node.kind])
      cases rest.dropWhile Window.isNameChar <;> simp
  | case3 run rest hs gap hg =>
    rename_i ih
    refine isFlow_literalOf_append h.left_of_append hp fun prev =>
      ⟨⟨rfl, rfl, rfl, _, hg, rfl⟩, ih ?_ (by simp [sepOf, Node.leaf, Node.kind])⟩
    cases rest.dropWhile isGapChar <;> simp
  | case4 run rest hs gap hg =>
    rename_i ih
    refine ih ?_ hp
    have hgap : ∀ c ∈ '\n' :: rest.takeWhile isGapChar, isGapChar c = true := by
      rw [List.forall_mem_cons]
      exact ⟨by decide, fun c hc => List.mem_takeWhile_imp hc⟩
    rw [List.reverse_append, List.reverse_reverse, List.append_assoc, List.isChain_append]
    refine ⟨h.left_of_append, ?_, fun c _ d hd => ?_⟩
    · rw [List.isChain_append]
      refine ⟨?_, ?_, fun c hc d _ => apart_of_isGapChar (.inl (hgap c (List.mem_of_mem_getLast? hc)))⟩
      · exact (List.isChain_isInfix _).imp_of_mem_imp fun c d hc _ _ => apart_of_isGapChar (.inl (hgap c hc))
      · cases rest.dropWhile isGapChar <;> simp
    · rw [List.cons_append, List.head?_cons, Option.mem_some_iff] at hd
      rw [← hd]
      exact apart_of_isGapChar (.inr (by decide))
  | case5 run c rest hs hc ih =>
    refine ih ?_ hp
    rw [List.take_succ_cons, List.take_zero] at h
    rw [List.reverse_cons, List.isChain_append]
    refine ⟨h, ?_, fun x hx d hd => ?_⟩
    · cases rest <;> simp
    · rw [List.getLast?_concat, Option.mem_some_iff] at hx
      rw [← hx]
      refine apart_of_not_startsConstruct hs d ?_
      cases rest with
      | nil => simp at hd
      | cons e more => simpa using hd

theorem isFlow_literalNodes (cs : List Char) : IsFlow g false false none (literalNodes cs) :=
  isFlow_literalNodesFrom (by cases cs <;> simp) (by simp)

/-! ## Prose -/

/-- A line feed neither starts a construct nor stands behind a sign that does. -/
theorem isProse_of_isRawProse {raw : List Char} (h : IsRawProse raw) (hne : Text.normalizeLines raw ≠ []) :
    IsProse (String.ofList (Text.normalizeLines raw)) := by
  refine ⟨?_, ?_, fun c hmem => ?_, ?_⟩
  · simp only [String.toList_ofList, Text.normalizeLines_normalizeLines]
  · rwa [String.toList_ofList]
  · rw [String.toList_ofList] at hmem
    rcases Text.mem_normalizeLines hmem with rfl | hmem
    · decide
    · exact h.allowed c hmem
  · rw [String.toList_ofList]
    exact Text.isChain_normalizeLines (fun c _ h => absurd h.2 (by decide))
      (fun c _ h => absurd h.1 (by decide)) h.apart

/-! ## Bodies and clauses -/

section

variable {read : Window → Contents}

/-- What reading a window gives if there is no warning among it: elements. -/
def ReadsElements (g : Grammar) (read : Window → Contents) : Prop :=
  ∀ w, (read w).inside.warnings = [] → Node.LacksAll .warning (read w).inside.children →
    ∀ n ∈ (read w).inside.children, IsElement g false n

theorem isFlow_of_elements {marked : Bool} {prev : Option Kind} {ns : List Node}
    (h : ∀ n ∈ ns, IsElement g marked n) : IsFlow g marked true prev ns := by
  induction ns generalizing prev with
  | nil => simp [IsFlow]
  | cons n rest ih =>
    rw [List.forall_mem_cons] at h
    have hk : n.kind ≠ .sep := h.1.kind_ne (by decide)
    unfold IsFlow
    rw [if_pos rfl, if_neg hk]
    exact ⟨h.1, ih h.2⟩

theorem isBody_readBody (hread : ReadsElements g read) {rule : BodyRule}
    (hr : rule = .box ∨ rule = .code ∨ (∃ space, rule = .config space) ∨ rule = .literal)
    (bodyKind : Kind) (span : Option Span) {layout : Layout} {inner : Window} {param : Option Json}
    (hf : (Clause.body layout inner).Formed) (hw : (readBody read rule param inner).warnings = [])
    (hn : Node.LacksAll .warning (readBody read rule param inner).children) :
    layout ≠ .directChild ∧
      IsBody g false rule param
        ⟨{ kind := bodyKind, content := (readBody read rule param inner).content
           layout := some layout, span := span },
          (readBody read rule param inner).children⟩ := by
  have hlayout : layout ≠ .directChild := by
    rintro rfl
    exact hf
  have hdelimited : ∀ {content : String} {keeps : Bool},
      (keeps = true → content.toList = inner.chars) → (keeps = false → content = "") →
      IsDelimited { kind := bodyKind, content, layout := some layout, span } keeps := by
    intro content keeps hkeeps hdrops
    cases layout with
    | directChild => exact hf
    | code opening closing => exact hf
    | inline =>
      cases keeps with
      | true =>
        show '\n' ∉ content.toList
        rw [hkeeps rfl]
        exact hf
      | false => simp [IsDelimited, hdrops rfl]
    | block =>
      intro hk
      rw [hkeeps hk]
      exact hf
  refine ⟨hlayout, ?_⟩
  rcases hr with rfl | rfl | ⟨space, rfl⟩ | rfl
  · exact ⟨hdelimited (by simp) (fun _ => rfl), rfl, isFlow_of_elements (hread inner hw hn)⟩
  · exact ⟨hdelimited (fun _ => String.toList_ofList ..) (by simp), rfl⟩
  · have hcontent : (readSettings space param (String.ofList inner.chars)).content =
        String.ofList inner.chars := by
      unfold readSettings
      split <;> rfl
    refine ⟨hdelimited (fun _ => ?_) (by simp), ?_, ?_⟩
    · exact (congrArg String.toList hcontent).trans (String.toList_ofList ..)
    · simp only [readBody, hcontent]
    · intro n hmem
      have := Node.lacksAll_iff.1 hn n hmem
      obtain ⟨label, children⟩ := n
      exact this.1
  · exact ⟨hdelimited (by simp) (fun _ => rfl), rfl, isFlow_literalNodes _⟩

theorem isClauses_readClauses (hread : ReadsElements g read) {rule : BodyRule}
    (hr : rule = .box ∨ rule = .code ∨ (∃ space, rule = .config space) ∨ rule = .literal)
    {bodyKind : Kind} (hb : bodyKind.isBody = true) {hosts : Bool} {param : Option Json}
    {clauses : List Clause} (hf : ∀ c ∈ clauses, c.Formed)
    (hw : (readClauses read rule bodyKind param clauses).warnings = [])
    (hn : Node.LacksAll .warning (readClauses read rule bodyKind param clauses).nodes) :
    IsClauses g false rule bodyKind param hosts (readClauses read rule bodyKind param clauses).nodes := by
  induction clauses generalizing param hosts with
  | nil => simp [readClauses, IsClauses]
  | cons clause more ih =>
    rw [List.forall_mem_cons] at hf
    cases clause with
    | param raw value span => exact ⟨rfl, rfl, rfl, ih hf.2 hw hn.2⟩
    | body layout inner =>
      simp only [readClauses, List.append_eq_nil_iff] at hw
      obtain ⟨hlayout, hbody⟩ := isBody_readBody hread hr bodyKind (some ⟨inner.offset, inner.stop⟩)
        hf.1 hw.1 hn.1.2
      exact isClauses_body_cons hb rfl rfl (by simpa using hlayout) hbody (ih hf.2 hw.2 hn.2)

/-- Parameters in front of what a call hosts. -/
theorem isClauses_params_append {rule : BodyRule} {param : Option Json} {clauses : List Clause}
    {tail : List Node} (hp : clauses.all (·.isParam) = true)
    (ht : ∀ param, IsClauses g false rule .funcBody param true tail) :
    IsClauses g false rule .funcBody param true
      ((readClauses read rule .funcBody param clauses).nodes ++ tail) := by
  induction clauses generalizing param with
  | nil => exact ht param
  | cons clause more ih =>
    rw [List.all_cons, Bool.and_eq_true] at hp
    cases clause with
    | param raw value span => exact ⟨rfl, rfl, rfl, ih hp.2⟩
    | body layout inner => simp [Clause.isParam] at hp

theorem isElement_readCommand (hg : g.Keeps) (hread : ReadsElements g read) {call : Call}
    (hf : call.Formed) (hw : (readCommand g read call).warnings = []) {n : Node}
    (hc : (readCommand g read call).node = some n) (hn : n.Lacks .warning) :
    n.kind = .cmd ∧ IsElement g false n := by
  obtain rfl := Option.some.inj hc
  refine ⟨rfl, ⟨rfl, rfl⟩, hf.1, ?_⟩
  exact isClauses_readClauses hread (.inr (.inr (.inr (hg.commands _)))) rfl hf.2 hw hn.2

theorem isElement_readFunction (hg : g.Keeps) (hread : ReadsElements g read) {call : Call}
    {nested : List Call} (hf : call.ChainFormed nested)
    (hw : (readFunction g read call nested).warnings = []) {n : Node}
    (hc : (readFunction g read call nested).node = some n) (hn : n.Lacks .warning) :
    n.kind = .func ∧ IsElement g false n := by
  have hr : ∀ name, g.functionRule name = .box ∨ g.functionRule name = .code ∨
      (∃ space, g.functionRule name = .config space) ∨ g.functionRule name = .literal := fun name => by
    obtain h | h | h := hg.functions name
    · exact .inl h
    · exact .inr (.inl h)
    · exact .inr (.inr (.inl h))
  induction nested generalizing call n with
  | nil =>
    obtain rfl := Option.some.inj hc
    exact ⟨rfl, ⟨rfl, rfl⟩, hf.1, isClauses_readClauses hread (hr _) rfl hf.2 hw hn.2⟩
  | cons next more ih =>
    obtain ⟨hcall, hparams, hnext⟩ := hf
    obtain rfl := Option.some.inj hc
    simp only [readFunction, List.append_eq_nil_iff] at hw
    have hhosted := (Node.lacksAll_iff.1 hn.2) _ (List.mem_append_right _ (List.mem_singleton_self _))
    cases hnode : (readFunction g read next more).node with
    | none => cases more <;> simp [readFunction] at hnode
    | some m =>
      rw [hnode] at hhosted
      obtain ⟨hk, hm⟩ := ih hnext hw.2 hnode hhosted.2.1
      refine ⟨rfl, ⟨rfl, rfl⟩, hcall.1, ?_⟩
      refine isClauses_params_append hparams fun param => ?_
      exact isClauses_host rfl rfl rfl rfl ⟨hk, rfl, hm⟩

theorem isElement_readSegment (hg : g.Keeps) (hread : ReadsElements g read) {segment : Segment}
    (hf : segment.Formed) (hw : (readSegment g read segment).warnings = []) {n : Node}
    (hc : (readSegment g read segment).node = some n) (hn : n.Lacks .warning) :
    IsElement g false n := by
  cases segment with
  | prose raw =>
    simp only [readSegment] at hc
    split at hc
    · simp at hc
    · rename_i hne
      obtain rfl := Option.some.inj hc
      exact ⟨⟨rfl, rfl⟩, isProse_of_isRawProse hf (by simpa using hne), rfl⟩
  | function call nested => exact (isElement_readFunction hg hread hf hw hc hn).2
  | reference name call nested =>
    obtain rfl := Option.some.inj hc
    cases hnode : (readFunction g read call nested).node with
    | none => cases nested <;> simp [readFunction] at hnode
    | some m =>
      rw [hnode] at hn
      obtain ⟨hk, hm⟩ := isElement_readFunction hg hread hf.2 hw hnode hn.2.1
      exact ⟨⟨rfl, rfl⟩, hf.1, hk, rfl, hm⟩
  | danglingReference | danglingAssignment => simp [readSegment] at hc
  | emptyReference name => simp [readSegment] at hw
  | command call => exact (isElement_readCommand hg hread hf hw hc hn).2
  | use name =>
    obtain rfl := Option.some.inj hc
    exact ⟨⟨rfl, rfl⟩, hf, by simp⟩
  | assignment name call =>
    obtain rfl := Option.some.inj hc
    obtain ⟨hk, hm⟩ := isElement_readCommand hg hread hf.2 hw rfl hn.2.1
    exact ⟨⟨rfl, rfl⟩, hf.1, hk, rfl, hm⟩

end

/-- What a window gives are elements. -/
theorem readsElements_readWindow (hg : g.Keeps) (fuel : Nat) :
    ReadsElements g (readWindow g fuel) := by
  induction fuel with
  | zero => exact fun w _ _ n hn => by simp [readWindow, Contents.inside] at hn
  | succ fuel ih =>
    intro w hw hl n hn
    simp only [readWindow, Contents.inside, List.mem_filterMap, List.mem_map] at hn
    obtain ⟨f, ⟨segment, hs, rfl⟩, hf⟩ := hn
    simp only [readWindow, Contents.inside, List.flatMap_eq_nil_iff, List.forall_mem_map] at hw
    refine isElement_readSegment hg ih (Window.formed_of_mem_segments hs) (hw segment hs) hf ?_
    exact Node.lacksAll_iff.1 hl n (List.mem_filterMap.2 ⟨_, List.mem_map_of_mem hs, hf⟩)

/-- A document without warnings consists of elements. -/
theorem isFlow_parse (hg : g.Keeps) (initial : Table Json) (source : String)
    (hn : ∀ entry ∈ (parse g initial source).document.preorder, entry.2.kind ≠ .warning) :
    IsFlow g false true none (parse g initial source).document.children := by
  have hlacks := (Node.lacks_iff .warning 0 _).2 hn
  have hroot : ∀ n ∈ (parse g initial source).document.children, n.Lacks .warning :=
    Node.lacksAll_iff.1 hlacks.2
  have hwarnings : ∀ f ∈ (contents g (.ofSource source)).findings, f.warnings = [] := by
    intro f hf
    refine List.eq_nil_iff_forall_not_mem.2 fun message hm => ?_
    have : warningNode message ∈ (parse g initial source).document.children :=
      List.mem_flatMap.2 ⟨f, hf, List.mem_append_right _ (List.mem_map_of_mem hm)⟩
    exact (hroot _ this).1 rfl
  refine isFlow_of_elements fun n hmem => ?_
  obtain ⟨f, hf, hnode⟩ := List.mem_flatMap.1 hmem
  rw [Finding.rootNodes, hwarnings f hf, List.map_nil, List.append_nil, Option.mem_toList] at hnode
  refine readsElements_readWindow hg _ (.ofSource source) ?_ ?_ n (List.mem_filterMap.2 ⟨f, hf, hnode⟩)
  · exact List.flatMap_eq_nil_iff.2 hwarnings
  · rw [Node.lacksAll_iff]
    intro m hm
    obtain ⟨f, hf, hnode⟩ := List.mem_filterMap.1 hm
    refine hroot m (List.mem_flatMap.2 ⟨f, hf, ?_⟩)
    exact List.mem_append_left _ (Option.mem_toList.2 hnode)

end Markup

end Evomark
