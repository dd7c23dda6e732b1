import Evomark.Registry
import Evomark.Proofs.Markup.ReadBack
import Evomark.Proofs.Markup.Shifted
import Evomark.Proofs.Markup.Visible
/-!
# Grouping and hosting

A source that stands between the braces of a box is read there as it is read alone, further on, and its
warnings go behind the box (`parse_grouped`). A function that a box with nothing but parameters hosts is
read as it is read between the braces of the box (`parse_hosted`).

Both rest on three facts: a body between braces is cut where the inside ends if the inside is balanced
(`Clause.read?_braced`), parameters are cut the same whatever follows them (`exists_clauses_params`), and
reading does not depend on where a window stands (`contents_shift`).
-/

namespace Evomark

open Markup

/-! ## Parameters in front of other clauses -/

/-- The text is a parameter and nothing else. -/
def IsParameter (text : String) : Prop := (Clause.param? (.ofSource text)).map (·.2.chars) = some []

instance (text : String) : Decidable (IsParameter text) :=
  inferInstanceAs (Decidable ((Clause.param? (.ofSource text)).map (·.2.chars) = some []))

theorem IsParameter.exists_param {text : String} (h : IsParameter text) :
    ∃ clause rest, Clause.param? (.ofSource text) = some (clause, rest) ∧ rest.chars = [] := by
  obtain ⟨⟨clause, rest⟩, hparam, hrest⟩ := Option.map_eq_some_iff.1 h
  exact ⟨clause, rest, hparam, hrest⟩

namespace Clause

theorem param?_append {w rest : Window} {c : Clause} (h : param? w = some (c, rest)) (more : List Char) :
    param? ⟨w.offset, w.chars ++ more⟩ = some (c, ⟨rest.offset, rest.chars ++ more⟩) := by
  obtain ⟨offset, cs⟩ := w
  cases cs with
  | nil => simp [param?] at h
  | cons d tail =>
    simp only [param?, List.cons_append] at h ⊢
    split at h
    · rename_i hd
      rw [if_pos hd]
      cases hs : splitParens 0 false tail with
      | none => simp [hs] at h
      | some found =>
        simp only [hs, Option.some.injEq, Prod.mk.injEq] at h
        obtain ⟨rfl, rfl⟩ := h
        rw [splitParens_append hs]
    · simp at h

theorem isParam_of_param? {w rest : Window} {c : Clause} (h : param? w = some (c, rest)) :
    c.isParam = true := by
  unfold param? at h
  split at h
  · simp at h
  · split at h
    · split at h
      · simp at h
      · obtain ⟨rfl, -⟩ := Prod.mk.inj (Option.some.inj h)
        rfl
    · simp at h

/-- The node of a clause, if it is a parameter. -/
def paramNode? : Clause → Option Node
  | param raw value span =>
    some (.leaf { kind := .funcParam, content := raw, value := some value, span := some span })
  | body .. => none

theorem kind_paramNode? {c : Clause} {n : Node} (h : c.paramNode? = some n) : n.kind = .funcParam := by
  cases c with
  | body layout inner => simp [paramNode?] at h
  | param raw value span =>
    obtain rfl := Option.some.inj h
    rfl

end Clause

theorem Window.clauses_nil (offset : Nat) : (Window.mk offset []).clauses = ([], ⟨offset, []⟩) :=
  clauses_of_none rfl

/-- Parameters are cut the same whatever follows them. -/
theorem exists_clauses_params {params : List String} (h : ∀ p ∈ params, IsParameter p) (offset : Nat) :
    ∃ clauses stop, (∀ c ∈ clauses, c.isParam = true) ∧ ∀ more : List Char,
      (Window.mk offset (params.flatMap String.toList ++ more)).clauses =
        (clauses ++ (Window.mk stop more).clauses.1, (Window.mk stop more).clauses.2) := by
  induction params generalizing offset with
  | nil => exact ⟨[], offset, by simp, fun more => rfl⟩
  | cons p rest ih =>
    rw [List.forall_mem_cons] at h
    obtain ⟨hp, hrest⟩ := h
    obtain ⟨c, behind, hc, hbehind⟩ := hp.exists_param
    obtain ⟨clauses, stop, hparams, hcut⟩ := ih hrest (offset + behind.offset)
    refine ⟨c.shift offset :: clauses, stop, ?_, fun more => ?_⟩
    · rw [List.forall_mem_cons, Clause.isParam_shift]
      exact ⟨Clause.isParam_of_param? hc, hparams⟩
    · have hread : Clause.read? ⟨offset, (p :: rest).flatMap String.toList ++ more⟩ =
          some (c.shift offset, ⟨offset + behind.offset, rest.flatMap String.toList ++ more⟩) := by
        have hparam := Clause.param?_append hc (rest.flatMap String.toList ++ more)
        rw [hbehind, List.nil_append] at hparam
        have hshift := Clause.param?_shift offset ⟨0, p.toList ++ (rest.flatMap String.toList ++ more)⟩
        rw [show Clause.param? ⟨0, p.toList ++ (rest.flatMap String.toList ++ more)⟩ = _ from hparam]
          at hshift
        rw [Clause.read?, List.flatMap_cons, List.append_assoc]
        rw [show Clause.param? ⟨offset, p.toList ++ (rest.flatMap String.toList ++ more)⟩ = _ from hshift]
        rfl
      rw [Window.clauses_of_read? hread, hcut more]
      rfl

namespace Markup

section

variable {g : Grammar}

/-- Parameters in front of clauses of a box add their nodes and nothing else. -/
theorem readClauses_params (read : Window → Contents) (bodyKind : Kind) (param : Option Json)
    {clauses : List Clause} (h : ∀ c ∈ clauses, c.isParam = true) (more : List Clause) :
    ∃ last, readClauses read .box bodyKind param (clauses ++ more) =
      let behind := readClauses read .box bodyKind last more
      { behind with nodes := clauses.filterMap (·.paramNode?) ++ behind.nodes } := by
  induction clauses generalizing param with
  | nil => exact ⟨param, rfl⟩
  | cons c rest ih =>
    rw [List.forall_mem_cons] at h
    cases c with
    | body layout inner => exact absurd h.1 Bool.false_ne_true
    | param raw value span =>
      obtain ⟨last, hlast⟩ := ih (some value) h.2
      refine ⟨last, ?_⟩
      rw [List.cons_append, readClauses, hlast]
      rfl

theorem head_of_calls? {w rest : Window} {call : Call} {nested : List Call}
    (h : Segment.calls? w = some (call, nested, rest)) : ∃ more, w.chars = '#' :: more := by
  rw [Segment.calls?_eq, Option.map_eq_some_iff] at h
  obtain ⟨⟨first, behind⟩, hcall, -⟩ := h
  unfold Segment.call? at hcall
  split at hcall
  · rename_i hs
    exact ⟨_, (Window.cons_tail_of_startsConstruct hs).symm⟩
  · simp at hcall

/-- A window that is a function and nothing else gives what the function gives. -/
theorem contents_function {w rest : Window} {call : Call} {nested : List Call}
    (h : Segment.calls? w = some (call, nested, rest)) (hrest : rest.chars = []) :
    contents g w = ⟨[readFunction g (contents g) call nested], rest⟩ := by
  obtain ⟨more, hmore⟩ := head_of_calls? h
  have hread : Segment.read? w = some (.function call nested, rest) := by
    rw [read?_of_prose (by rw [hmore]; rfl), Segment.function?, h]
    rfl
  have hstop : rest.segments = ([], rest) := by
    obtain ⟨stop, cs⟩ := rest
    obtain rfl : cs = [] := hrest
    exact Window.segments_nil stop
  rw [contents_eq, Window.segments_of_read? (by rw [hmore]; simp) hread, hstop]
  rfl

/-- A source that is a function and nothing else. -/
theorem parse_function {source : String} {call : Call} {nested : List Call} {rest : Window}
    (h : Segment.calls? (.ofSource source) = some (call, nested, rest)) (hrest : rest.chars = [])
    (initial : Table Json) :
    parse g initial source =
      let found := readFunction g (contents g) call nested
      { document := .root found.rootNodes
        config := found.settings.foldl (fun config (space, settings) => mergeSettings config space settings)
          initial
        complete := found.complete } := by
  simp only [parse, contents_function h hrest, Contents.complete, hrest, List.flatMap_cons, List.flatMap_nil,
    List.append_nil, List.isEmpty_nil, List.all_cons, List.all_nil, Bool.true_and, Bool.and_true]

theorem head?_params {params : List String} (h : ∀ p ∈ params, IsParameter p) {more : List Char}
    (hmore : ∀ c, more.head? = some c → Window.isNameChar c = false) :
    ∀ c, (params.flatMap String.toList ++ more).head? = some c → Window.isNameChar c = false := by
  cases params with
  | nil => exact hmore
  | cons p rest =>
    obtain ⟨clause, behind, hp, -⟩ := (h p (.head _)).exists_param
    intro c hc
    unfold Clause.param? at hp
    split at hp
    · simp at hp
    · rename_i d tail hd
      split at hp
      · rename_i hparen
        rw [List.flatMap_cons, show p.toList = d :: tail from hd] at hc
        obtain rfl := Option.some.inj hc
        rw [hparen]
        rfl
      · simp at hp

/-- What stands before the first clause of a function. -/
theorem calls?_of_clauses {name : String} (hname : IsName name) {text : List Char}
    (htext : ∀ c, text.head? = some c → Window.isNameChar c = false) {clauses : List Clause} {rest : Window}
    (h : (Window.mk (Text.byteLength name.toList + 1) text).clauses = (clauses, rest)) :
    Segment.call? '#' ⟨0, '#' :: name.toList ++ text⟩ = some (⟨name, clauses⟩, rest) := by
  have hstart : 0 + Text.byteLength ('#' :: name.toList) = Text.byteLength name.toList + 1 := by
    rw [Text.byteLength_cons, Nat.zero_add, Nat.add_comm]
    rfl
  have hcall := call?_eq '#' hname htext 0
  rw [hstart, h] at hcall
  exact hcall

end

/-! ## Nodes and warnings at the root -/

theorem kind_readSegment (g : Grammar) (read : Window → Contents) (s : Segment) :
    ∀ n ∈ (readSegment g read s).node, n.kind ≠ .warning := by
  intro n hn
  cases s with
  | prose raw =>
    simp only [readSegment] at hn
    split at hn
    · simp at hn
    · obtain rfl := Option.mem_some.1 hn
      exact Kind.noConfusion
  | function call nested =>
    cases nested <;> obtain rfl := Option.mem_some.1 hn <;> exact Kind.noConfusion
  | danglingReference | danglingAssignment => simp [readSegment] at hn
  | reference | emptyReference | command | use | assignment =>
    obtain rfl := Option.mem_some.1 hn
    exact Kind.noConfusion

section

variable {findings : List Finding}

theorem filter_rootNodes_nodes (h : ∀ f ∈ findings, ∀ n ∈ f.node, n.kind ≠ .warning) :
    (findings.flatMap (·.rootNodes)).filter (·.kind != .warning) = findings.filterMap (·.node) := by
  induction findings with
  | nil => rfl
  | cons f rest ih =>
    rw [List.forall_mem_cons] at h
    have hwarnings : (f.warnings.map warningNode).filter (·.kind != .warning) = [] := by
      simp [List.filter_eq_nil_iff, warningNode, Node.leaf, Node.kind]
    rw [List.flatMap_cons, List.filter_append, ih h.2, Finding.rootNodes, List.filter_append, hwarnings]
    cases hn : f.node with
    | none => simp [hn]
    | some n => simp [hn, h.1 n hn]

theorem filter_rootNodes_warnings (h : ∀ f ∈ findings, ∀ n ∈ f.node, n.kind ≠ .warning) :
    (findings.flatMap (·.rootNodes)).filter (·.kind == .warning) =
      (findings.flatMap (·.warnings)).map warningNode := by
  induction findings with
  | nil => rfl
  | cons f rest ih =>
    rw [List.forall_mem_cons] at h
    have hwarnings : (f.warnings.map warningNode).filter (·.kind == .warning) =
        f.warnings.map warningNode := by
      simp [List.filter_eq_self, warningNode, Node.leaf, Node.kind]
    rw [List.flatMap_cons, List.filter_append, ih h.2, Finding.rootNodes, List.filter_append, hwarnings,
      List.flatMap_cons, List.map_append]
    cases hn : f.node with
    | none => simp
    | some n => simp [h.1 n hn]

end

end Markup

/-! ## Grouping -/

theorem Registry.functionRule_box {name : String}
    (h : name = "box" ∨ Registry.standard.functions.get? name = none) :
    Registry.standard.grammar.functionRule name = .box := by
  rcases h with rfl | h
  · rfl
  · rw [Grammar.functionRule]
    show ((Registry.standard.functions.get? name).or _).getD .box = _
    rw [h]
    rfl

section

variable {name source : String}

/-- A source between the braces of a box is read as it is read alone: completely or not, with the same
settings, its nodes below the box and its warnings behind it. All that changes is where things stand. -/
theorem parse_grouped (hname : IsName name)
    (hbox : name = "box" ∨ Registry.standard.functions.get? name = none)
    (hs : Clause.splitBraces 0 (source.toList ++ ['\x7d']) = some (source.toList, [])) :
    let alone := Registry.standard.parse source
    let grouped := Registry.standard.parse ("#" ++ name ++ "\x7b" ++ source ++ "\x7d")
    let start := Text.byteLength name.toList + 2
    grouped.complete = alone.complete ∧ grouped.config = alone.config ∧
      grouped.document = .root
        (⟨{ kind := .func, content := name },
          [⟨{ kind := .funcBody
              layout := some (if source.toList.contains '\n' then .block else .inline)
              span := some ⟨start, start + Text.byteLength source.toList⟩ },
            (alone.document.children.filter (·.kind != .warning)).map (Node.shift start)⟩]⟩ ::
          alone.document.children.filter (·.kind == .warning)) := by
  intro alone grouped start
  obtain ⟨g, hg⟩ : ∃ g, Registry.standard.grammar = g := ⟨_, rfl⟩
  have hrule : g.functionRule name = .box := hg ▸ Registry.functionRule_box hbox
  -- the only clause of the function
  obtain ⟨body, hbody⟩ : ∃ body : Clause, body =
      .body (if source.toList.contains '\n' then .block else .inline) ⟨start, source.toList⟩ := ⟨_, rfl⟩
  obtain ⟨rest, hrest, hclauses⟩ : ∃ rest : Window, rest.chars = [] ∧
      (Window.mk (Text.byteLength name.toList + 1) ('\x7b' :: source.toList ++ ['\x7d'])).clauses =
        ([body], rest) := by
    have hread := Clause.read?_braced hs (Text.byteLength name.toList + 1) []
    rw [List.append_nil] at hread
    refine ⟨⟨(Window.mk start source.toList).stop + 1, []⟩, rfl, ?_⟩
    rw [Window.clauses_of_read? hread, Window.clauses_nil, hbody]
  have hcalls : Segment.calls? (.ofSource ("#" ++ name ++ "\x7b" ++ source ++ "\x7d")) =
      some (⟨name, [body]⟩, [], rest) := by
    have hcall := calls?_of_clauses hname (fun c hc => by obtain rfl := Option.some.inj hc; rfl) hclauses
    have hsource : ("#" ++ name ++ "\x7b" ++ source ++ "\x7d").toList =
        '#' :: name.toList ++ ('\x7b' :: source.toList ++ ['\x7d']) := by
      simp
    rw [Window.ofSource, hsource]
    refine Segment.calls?_of_last hcall fun hparams => ?_
    rw [hbody] at hparams
    exact absurd hparams Bool.false_ne_true
  -- the inside of the braces is the source, further on
  have hinside : contents g ⟨start, source.toList⟩ = (contents g (.ofSource source)).shift start :=
    contents_shift g start (.ofSource source)
  have hnodes : ∀ f ∈ (contents g (.ofSource source)).findings, ∀ n ∈ f.node, n.kind ≠ .warning := by
    rw [contents_eq]
    simp only [List.forall_mem_map]
    exact fun s _ => kind_readSegment g _ s
  have hgrouped : grouped = _ := parse_function (g := Registry.standard.grammar) hcalls hrest _
  rw [hgrouped, hg]
  simp only [readFunction, hrule, hbody, readClauses, readBody, hinside, Contents.inside_shift]
  subst hg
  have hothers : alone.document.children.filter (·.kind != .warning) = _ := filter_rootNodes_nodes hnodes
  have hwarnings : alone.document.children.filter (·.kind == .warning) = _ := filter_rootNodes_warnings hnodes
  refine ⟨Bool.and_true _, by rw [List.append_nil]; rfl, ?_⟩
  rw [hothers, hwarnings, List.append_nil, ← Node.shiftAll_eq]
  rfl

theorem parse_grouped_unfinished :
    let source := "a @fig text\n\n#q( [1] )\x7b%x = y \\\x7d\x7d #code=>#=| # b"
    let alone := Registry.standard.parse source
    let grouped := Registry.standard.parse ("#" ++ "note" ++ "\x7b" ++ source ++ "\x7d")
    let start := Text.byteLength "note".toList + 2
    grouped.complete = alone.complete ∧ grouped.config = alone.config ∧
      grouped.document = .root
        (⟨{ kind := .func, content := "note" },
          [⟨{ kind := .funcBody
              layout := some (if source.toList.contains '\n' then .block else .inline)
              span := some ⟨start, start + Text.byteLength source.toList⟩ },
            (alone.document.children.filter (·.kind != .warning)).map (Node.shift start)⟩]⟩ ::
          alone.document.children.filter (·.kind == .warning)) :=
  parse_grouped ⟨'n', ['o', 't', 'e'], rfl, rfl, List.all_eq_true.1 rfl⟩ (.inr rfl) (by decide +kernel)

end

/-! ## Hosting -/

/-- The text is a function, with the functions it hosts, and nothing else. -/
def IsFunction (text : String) : Prop := (Segment.calls? (.ofSource text)).map (·.2.2.chars) = some []

instance (text : String) : Decidable (IsFunction text) :=
  inferInstanceAs (Decidable ((Segment.calls? (.ofSource text)).map (·.2.2.chars) = some []))

theorem IsFunction.exists_calls {text : String} (h : IsFunction text) :
    ∃ call nested rest, Segment.calls? (.ofSource text) = some (call, nested, rest) ∧ rest.chars = [] := by
  obtain ⟨⟨call, nested, rest⟩, hcalls, hrest⟩ := Option.map_eq_some_iff.1 h
  exact ⟨call, nested, rest, hcalls, hrest⟩

section

variable {hosted : String} {call : Call} {nested : List Call} {rest : Window}
  (hhosted : Segment.calls? (.ofSource hosted) = some (call, nested, rest))

include hhosted

/-- The functions are the same wherever they stand. -/
theorem calls?_at (k : Nat) : Segment.calls? ⟨k, hosted.toList⟩ =
    some (call.shift k, nested.map (Call.shift k), rest.shift k) := by
  have hcalls := Segment.calls?_shift k (.ofSource hosted)
  rw [hhosted] at hcalls
  exact hcalls

/-- What they give is the same but for where it stands. -/
theorem readFunction_at (g : Grammar) (k : Nat) :
    readFunction g (contents g) (call.shift k) (nested.map (Call.shift k)) =
      (readFunction g (contents g) call nested).shift k :=
  readFunction_shift (fun w _ => contents_shift g k w) (Segment.within_calls? hhosted)

/-- A body with functions and nothing else holds what they give. -/
theorem inside_at (g : Grammar) (hrest : rest.chars = []) {below : Node}
    (hbelow : (readFunction g (contents g) call nested).node = some below) (k : Nat) :
    (contents g ⟨k, hosted.toList⟩).inside =
      { children := [below.shift k]
        warnings := (readFunction g (contents g) call nested).warnings
        settings := (readFunction g (contents g) call nested).settings
        complete := (readFunction g (contents g) call nested).complete } := by
  rw [contents_function (calls?_at hhosted k) hrest, readFunction_at hhosted]
  simp [Contents.inside, Contents.complete, Finding.shift, Window.shift, hbelow, hrest]

end

section

variable {r : Registry} {name hosted : String} {params : List String} {clauses : List Clause} {stop : Nat}

/-- Functions right behind the parameters of a function are hosted by it. -/
theorem calls?_direct {call : Call} {nested : List Call} {rest : Window} (hname : IsName name)
    (hparams : ∀ p ∈ params, IsParameter p) (hall : clauses.all (·.isParam) = true)
    (hcut : ∀ more : List Char,
      (Window.mk (Text.byteLength name.toList + 1) (params.flatMap String.toList ++ more)).clauses =
        (clauses ++ (Window.mk stop more).clauses.1, (Window.mk stop more).clauses.2))
    (hhosted : Segment.calls? (.ofSource hosted) = some (call, nested, rest)) :
    Segment.calls? (.ofSource ("#" ++ name ++ String.join params ++ hosted)) =
      some (⟨name, clauses⟩, call.shift stop :: nested.map (Call.shift stop), rest.shift stop) := by
  obtain ⟨more, hmore⟩ := head_of_calls? hhosted
  have hnone : Clause.read? ⟨stop, hosted.toList⟩ = none := Clause.read?_none fun c hc => by
    rw [show hosted.toList = '#' :: more from hmore] at hc
    obtain rfl := Option.some.inj hc
    decide
  have hclauses := hcut hosted.toList
  rw [Window.clauses_of_none hnone, List.append_nil] at hclauses
  have hfirst := calls?_of_clauses hname (head?_params hparams fun c hc => by
    rw [show hosted.toList = '#' :: more from hmore] at hc
    obtain rfl := Option.some.inj hc
    rfl) hclauses
  have hsource : ("#" ++ name ++ String.join params ++ hosted).toList =
      '#' :: name.toList ++ (params.flatMap String.toList ++ hosted.toList) := by
    simp [String.toList_join]
  rw [Window.ofSource, hsource]
  exact Segment.calls?_of_host hfirst hall (calls?_at hhosted stop)

/-- A text between braces behind the parameters of a function is its body. -/
theorem calls?_braced (hname : IsName name) (hparams : ∀ p ∈ params, IsParameter p)
    (hcut : ∀ more : List Char,
      (Window.mk (Text.byteLength name.toList + 1) (params.flatMap String.toList ++ more)).clauses =
        (clauses ++ (Window.mk stop more).clauses.1, (Window.mk stop more).clauses.2))
    (hs : Clause.splitBraces 0 (hosted.toList ++ ['\x7d']) = some (hosted.toList, [])) :
    ∃ behind : Window, behind.chars = [] ∧
      Segment.calls? (.ofSource ("#" ++ name ++ String.join params ++ "\x7b" ++ hosted ++ "\x7d")) =
        some (⟨name, clauses ++
          [.body (if hosted.toList.contains '\n' then .block else .inline) ⟨stop + 1, hosted.toList⟩]⟩, [],
          behind) := by
  obtain ⟨body, hbody⟩ : ∃ body : Clause, body =
      .body (if hosted.toList.contains '\n' then .block else .inline) ⟨stop + 1, hosted.toList⟩ := ⟨_, rfl⟩
  have hread := Clause.read?_braced hs stop []
  rw [List.append_nil] at hread
  have hclauses := hcut ('\x7b' :: hosted.toList ++ ['\x7d'])
  rw [Window.clauses_of_read? hread, Window.clauses_nil, ← hbody] at hclauses
  have hfirst := calls?_of_clauses hname (head?_params hparams fun c hc => by
    obtain rfl := Option.some.inj hc
    rfl) hclauses
  have hsource : ("#" ++ name ++ String.join params ++ "\x7b" ++ hosted ++ "\x7d").toList =
      '#' :: name.toList ++ (params.flatMap String.toList ++ ('\x7b' :: hosted.toList ++ ['\x7d'])) := by
    simp [String.toList_join]
  refine ⟨⟨(Window.mk (stop + 1) hosted.toList).stop + 1, []⟩, rfl, ?_⟩
  rw [Window.ofSource, hsource, ← hbody]
  refine Segment.calls?_of_last hfirst fun hall => ?_
  rw [hbody, List.all_append, Bool.and_eq_true] at hall
  exact absurd hall.2 Bool.false_ne_true

/-- A function hosted by a box with nothing but parameters is read as it is read between the braces of
the box: completely or not, with the same settings and the same nodes. Only the layout of the body that
holds it tells the two apart, and where things stand. -/
theorem parse_hosted (hname : IsName name) (hbox : r.grammar.functionRule name = .box)
    (hparams : ∀ p ∈ params, IsParameter p) (hhosted : IsFunction hosted)
    (hs : Clause.splitBraces 0 (hosted.toList ++ ['\x7d']) = some (hosted.toList, [])) :
    let direct := r.parse ("#" ++ name ++ String.join params ++ hosted)
    let braced := r.parse ("#" ++ name ++ String.join params ++ "\x7b" ++ hosted ++ "\x7d")
    direct.complete = braced.complete ∧ direct.config = braced.config ∧
      ∃ nodes below warnings, (∀ n ∈ nodes, n.kind = .funcParam) ∧
        let host (layout : Layout) : Node :=
          ⟨{ kind := .func, content := name },
            nodes ++ [⟨{ kind := .funcBody, layout := some layout }, below⟩]⟩
        direct.document.unplaced = .root (host .directChild :: warnings) ∧
          braced.document.unplaced =
            .root (host (if hosted.toList.contains '\n' then .block else .inline) :: warnings) := by
  intro direct braced
  obtain ⟨call, nested, rest, hcall, hrest⟩ := hhosted.exists_calls
  obtain ⟨g, hg⟩ : ∃ g, r.grammar = g := ⟨_, rfl⟩
  rw [hg] at hbox
  obtain ⟨clauses, stop, hall, hcut⟩ := exists_clauses_params hparams (Text.byteLength name.toList + 1)
  have hdirect := calls?_direct hname hparams (List.all_eq_true.2 hall) hcut hcall
  obtain ⟨behind, hbehind, hbraced⟩ := calls?_braced hname hparams hcut hs
  -- the hosted function, wherever it stands
  obtain ⟨below, hbelow⟩ : ∃ n, (readFunction g (contents g) call nested).node = some n :=
    (kind_readFunction g (contents g) call nested).imp fun n hn => hn.1
  have hinside := inside_at hcall g hrest hbelow (stop + 1)
  have hread := readFunction_at hcall g stop
  obtain ⟨found, hfound⟩ : ∃ found, readFunction g (contents g) call nested = found := ⟨_, rfl⟩
  rw [hfound] at hbelow hinside hread
  have hwarnings (warnings : List String) :
      Node.unplacedAll (warnings.map warningNode) = warnings.map warningNode := by
    rw [Node.unplacedAll_eq, List.map_map]
    rfl
  obtain ⟨last, hnodes⟩ := readClauses_params (contents g) .funcBody none hall []
  obtain ⟨last', hnodes'⟩ := readClauses_params (contents g) .funcBody none hall
    [.body (if hosted.toList.contains '\n' then .block else .inline) ⟨stop + 1, hosted.toList⟩]
  rw [List.append_nil] at hnodes
  have hdirect' : direct = _ := parse_function (g := r.grammar) hdirect hrest _
  have hbraced' : braced = _ := parse_function (g := r.grammar) hbraced hbehind _
  rw [hdirect', hbraced', hg]
  simp only [readFunction, hbox, hnodes, hnodes', hread, readClauses, readBody, hinside, List.append_nil,
    List.nil_append, Bool.true_and, Bool.and_true]
  refine ⟨rfl, rfl, Node.unplacedAll (clauses.filterMap (·.paramNode?)), [below.unplaced],
    found.warnings.map warningNode, ?_, ?_, ?_⟩
  · rw [Node.unplacedAll_eq, List.forall_mem_map]
    intro n hn
    obtain ⟨c, -, hc⟩ := List.mem_filterMap.1 hn
    rw [Node.kind_unplaced]
    exact Clause.kind_paramNode? hc
  · simp [Finding.rootNodes, Finding.shift, hbelow, directBody, Node.root, Node.unplaced, Node.unplacedAll,
      Node.unplacedAll_append, Node.unplaced_shift, Label.unplaced, hwarnings]
  · simp [Finding.rootNodes, Node.root, Node.unplaced, Node.unplacedAll, Node.unplacedAll_append,
      Node.unplaced_shift, Label.unplaced, hwarnings]

theorem parse_hosted_chain :
    let params := ["(1)", "( \x7ba: 2\x7d )"]
    let hosted := "#q(2)#code\x7bx \x7b\x7d\\\x7d\x7d(3)\x7b@r x # y\n\x7d"
    let direct := Registry.standard.parse ("#" ++ "note" ++ String.join params ++ hosted)
    let braced := Registry.standard.parse ("#" ++ "note" ++ String.join params ++ "\x7b" ++ hosted ++ "\x7d")
    direct.complete = braced.complete ∧ direct.config = braced.config ∧
      ∃ nodes below warnings, (∀ n ∈ nodes, n.kind = .funcParam) ∧
        let host (layout : Layout) : Node :=
          ⟨{ kind := .func, content := "note" },
            nodes ++ [⟨{ kind := .funcBody, layout := some layout }, below⟩]⟩
        direct.document.unplaced = .root (host .directChild :: warnings) ∧
          braced.document.unplaced =
            .root (host (if hosted.toList.contains '\n' then .block else .inline) :: warnings) :=
  parse_hosted ⟨'n', ['o', 't', 'e'], rfl, rfl, List.all_eq_true.1 rfl⟩ (Registry.functionRule_box (.inr rfl))
    (by decide +kernel) (by decide +kernel) (by decide +kernel)

end

end Evomark
