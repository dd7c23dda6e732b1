import Evomark.Proofs.Markup.ReadClause
/-!
# Reading calls

The text of the clauses of a call is read as these clauses (`clauses_gives`), and the text of a call
as this call, with those that it hosts (`readsFunction`, `readsCommand`).
-/

namespace Evomark.Markup

open Node

variable {g : Grammar} {marked : Bool} {unit : List Char} {level : Nat}

/-! ## Bodies -/

theorem languageOf_readSettings {space raw : String} {param param' : Option Json}
    (h : languageOf param' = languageOf param) :
    readSettings space param' raw = readSettings space param raw := by
  rw [readSettings, readSettings, h]

theorem insideOf_of_kept {label : Label} {children : List Node} (h : label.content ≠ "") :
    insideOf unit level label children = label.content.toList := by
  have hne : ¬ label.content.toList.isEmpty = true := by
    rw [List.isEmpty_iff, String.toList_eq_nil_iff]
    exact h
  exact if_neg hne

/-- A body that keeps its text has nothing else between its delimiters. -/
theorem insideOf_of_keepsText {label : Label} {children : List Node} (hd : IsDelimited label true)
    (hflow : ∀ level edge, edge ≠ .begun → flowText unit level none edge children = []) :
    insideOf unit level label children = label.content.toList := by
  by_cases hc : label.content = ""
  · rw [insideOf, insideText_of_empty hc]
    unfold IsDelimited at hd
    rw [hc] at hd ⊢
    cases hl : label.layout with
    | none => rw [hl] at hd; exact hd.elim
    | some layout =>
      rw [hl] at hd
      cases layout with
      | block => exact absurd (hd rfl) (by simp)
      | code => exact hflow level .filled (by decide)
      | inline => exact hflow level .opened (by decide)
      | directChild => exact hd.elim
  · exact insideOf_of_kept hc

theorem break_mem_insideOf {label : Label} {children : List Node} {keeps : Bool}
    (hd : IsDelimited label keeps) (hkeeps : label.content ≠ "" → keeps = true)
    (hl : label.layout = some .block) : '\n' ∈ insideOf unit level label children := by
  by_cases hc : label.content = ""
  · rw [insideOf, insideText_of_empty hc, hl]
    simp
  · rw [insideOf_of_kept hc]
    unfold IsDelimited at hd
    rw [hl] at hd
    exact hd (hkeeps hc)

/-- What is inside a body is read as it stands in the document. -/
theorem body_gives (hu : ∀ c ∈ unit, Text.isBlank c = true) {rule : BodyRule} {param param' : Option Json}
    {label : Label} {children : List Node} (hbody : IsBody g marked rule param ⟨label, children⟩)
    (hk : label.kind.isBody = true) (hrule : rule = .literal ↔ label.kind = .body)
    (hparam : languageOf param' = languageOf param)
    (he : IsFlow g marked true none children → ∀ n ∈ children, n.kind ≠ .text → n.kind ≠ .sep →
      ReadsNode g unit (levelInside label.layout level) n)
    {fuel : Nat} (start : Nat) (hf : (insideOf unit level label children).length < fuel) :
    (readBody (readWindow g fuel) rule param' ⟨start, insideOf unit level label children⟩).Gives
      label.content (Node.reread ⟨label, children⟩).children := by
  unfold IsBody at hbody
  have hreread : rule ≠ .literal → (Node.reread ⟨label, children⟩).children = rereadAll children := by
    intro hr
    have hkind : label.kind ≠ .body := fun h => hr (hrule.2 h)
    rw [reread]
    cases hlabel : label.kind <;> rw [hlabel] at hk <;> first | rfl | exact absurd hk (by decide) | exact absurd hlabel hkind
  cases rule with
  | box =>
    obtain ⟨-, hc, hflow⟩ := hbody
    rw [hreread (by simp), hc]
    exact (readsAs_insideOf hu hc hflow (he hflow) start fuel hf).inside
  | literal =>
    obtain ⟨-, hc, hflow⟩ := hbody
    refine ⟨rfl, rfl, hc.symm, ?_⟩
    show unplacedAll (literalNodes (insideOf unit level label children)) = _
    rw [literalNodes_insideOf hu hc hflow, unplacedAll_rereadItems, reread, hrule.1 rfl]
  | code =>
    obtain ⟨hd, rfl⟩ := hbody
    have hinside : insideOf unit level label [] = label.content.toList :=
      insideOf_of_keepsText hd fun level edge he => by rw [flowText, if_neg he]
    rw [hreread (by simp)]
    refine ⟨rfl, rfl, ?_, rfl⟩
    show String.ofList (insideOf unit level label []) = _
    rw [hinside, String.ofList_toList]
  | config space =>
    obtain ⟨hd, hchildren, hwarn⟩ := hbody
    obtain ⟨value, hvalue⟩ := children_readSettings (hchildren ▸ hwarn)
    rw [← hchildren] at hvalue
    have hinside : insideOf unit level label children = label.content.toList := by
      refine insideOf_of_keepsText hd fun level edge he => ?_
      rw [hvalue]
      rw [flowText, if_neg (by simp [Node.leaf, Node.kind]),
        if_pos (show (Node.leaf _).kind = Kind.configDict from rfl), flowText, if_neg he]
    have hread : readBody (readWindow g fuel) (.config space) param'
        ⟨start, insideOf unit level label children⟩ = readSettings space param label.content := by
      show readSettings space param' (String.ofList (insideOf unit level label children)) = _
      rw [hinside, String.ofList_toList, languageOf_readSettings hparam]
    rw [hread, hreread (by simp)]
    have hsettings : (readSettings space param label.content).complete = true ∧
        (readSettings space param label.content).warnings = [] ∧
        (readSettings space param label.content).content = label.content := by
      unfold readSettings
      split <;> exact ⟨rfl, rfl, rfl⟩
    refine ⟨hsettings.1, hsettings.2.1, hsettings.2.2, ?_⟩
    rw [← hchildren, hvalue]
    rfl
  | reject | shout => exact hbody.elim

/-! ## Clauses -/

/-- Clauses are these nodes and nothing else, from windows read to their ends. -/
structure Clauses.Gives (parts : Clauses) (ns : List Node) : Prop where
  complete : parts.complete = true
  warnings : parts.warnings = []
  nodes : unplacedAll parts.nodes = ns

theorem length_delimited (layout : Layout) (inside : List Char) :
    inside.length < (delimited layout inside).length := by
  cases layout <;>
  · simp only [delimited, List.length_append, List.length_cons, List.length_nil]
    omega

/-- No clause starts here. -/
def StopsClauses (rest : List Char) : Prop :=
  ∀ c, rest.head? = some c → c ≠ '(' ∧ c ≠ '\x7b' ∧ c ≠ '='

theorem paramText_of_value {label : Label} {value : Json} (hv : label.value = some value) :
    paramText label = value.write := by
  rw [paramText, hv]

theorem value_rereadParam {label : Label} {value : Json} (hv : label.value = some value) :
    (rereadParam label).value = some (Clause.paramValue value.compact) := by
  rw [rereadParam, paramText_of_value hv]
  rfl

theorem reread_param {label : Label} {value : Json} (hk : label.kind = .funcParam)
    (hl : label.layout = none) (hv : label.value = some value) :
    Node.reread ⟨label, []⟩ = .leaf { kind := .funcParam, content := value.compact
                                      value := some (Clause.paramValue value.compact) } := by
  obtain ⟨kind, content, value', span, layout, slot⟩ := label
  obtain rfl : kind = .funcParam := hk
  obtain rfl : layout = none := hl
  obtain rfl : value' = some value := hv
  rfl

theorem closes_of_isReadable {label : Label} {children : List Node} (hk : label.kind.isBody = true)
    (h : isReadable unit level ⟨label, children⟩ = true) :
    closes (label.layout.getD .inline) (insideOf unit level label children) = true ∧
      areReadable unit (levelInside label.layout level) children = true := by
  unfold isReadable at h
  cases hkind : label.kind <;> rw [hkind] at hk h <;> try exact absurd hk (by decide)
  all_goals
    rw [Bool.and_eq_true, Bool.and_eq_true] at h
    exact ⟨h.1.1, h.2⟩

/-- The layout of a body. -/
theorem IsBody.layout {rule : BodyRule} {param : Option Json} {label : Label} {children : List Node}
    (h : IsBody g marked rule param ⟨label, children⟩) :
    ∃ keeps, IsDelimited label keeps ∧ (label.content ≠ "" → keeps = true) := by
  unfold IsBody at h
  cases rule with
  | box | literal => exact ⟨false, h.1, fun hne => absurd h.2.1 hne⟩
  | code | config => exact ⟨true, h.1, fun _ => rfl⟩
  | reject | shout => exact h.elim

theorem IsBody.layout_eq {rule : BodyRule} {param : Option Json} {label : Label} {children : List Node}
    (h : IsBody g marked rule param ⟨label, children⟩) :
    label.layout = some (label.layout.getD .inline) := by
  obtain ⟨keeps, hd, -⟩ := h.layout
  unfold IsDelimited at hd
  cases hl : label.layout with
  | none => rw [hl] at hd; exact hd.elim
  | some layout => rfl

theorem reread_body {label : Label} {children : List Node} (hk : label.kind.isBody = true)
    (hv : label.value = none) (hl : label.layout = some (label.layout.getD .inline)) :
    Node.reread ⟨label, children⟩ =
      ⟨{ kind := label.kind, content := label.content, layout := some (label.layout.getD .inline) },
        (Node.reread ⟨label, children⟩).children⟩ := by
  have hlabel : (Node.reread ⟨label, children⟩).label = label.unplaced := by
    rw [reread]
    cases hkind : label.kind <;> first | rfl | (rw [hkind] at hk; exact absurd hk (by decide))
  have hunplaced : label.unplaced =
      { kind := label.kind, content := label.content, layout := some (label.layout.getD .inline) } := by
    rw [← hl, ← hv]
    rfl
  rw [← hunplaced, ← hlabel]
  cases Node.reread ⟨label, children⟩
  rfl

/-- A body that closes is read with its layout. -/
theorem read?_body {rule : BodyRule} {param : Option Json} {label : Label} {children : List Node}
    (h : IsBody g marked rule param ⟨label, children⟩)
    (hcloses : closes (label.layout.getD .inline) (insideOf unit level label children) = true)
    (offset : Nat) (rest : List Char) :
    ∃ start stop,
      Clause.read? ⟨offset, delimited (label.layout.getD .inline) (insideOf unit level label children) ++ rest⟩ =
        some (.body (label.layout.getD .inline) ⟨start, insideOf unit level label children⟩, ⟨stop, rest⟩) := by
  obtain ⟨keeps, hd, hkeeps⟩ := h.layout
  obtain ⟨layout, hl⟩ : ∃ layout, label.layout = some layout := ⟨_, h.layout_eq⟩
  rw [hl, Option.getD_some] at hcloses ⊢
  refine Clause.read?_delimited ?_ ?_ ?_ hcloses offset rest
  · rintro rfl
    exact break_mem_insideOf hd hkeeps hl
  · rintro rfl
    unfold IsDelimited at hd
    rw [hl] at hd
    exact hd
  · rintro opening closing rfl
    unfold IsDelimited at hd
    rw [hl] at hd
    exact hd

/-- The nodes in the boxes below a call are read back. -/
def BodiesRead (g : Grammar) (marked : Bool) (unit : List Char) (level : Nat) (ns : List Node) : Prop :=
  ∀ n ∈ ns, n.kind.isBody = true → IsFlow g marked true none n.children →
    ∀ m ∈ n.children, m.kind ≠ .text → m.kind ≠ .sep →
      ReadsNode g unit (levelInside n.label.layout level) m

/-- A parameter in front of clauses that are read. -/
theorem Clauses.Gives.param {read : Window → Contents} {rule : BodyRule} {bodyKind : Kind} {label : Label}
    {value : Json} {more : List Node} {clauses : List Clause} {span : Span}
    (h : (readClauses read rule bodyKind (some (Clause.paramValue value.compact)) clauses).Gives
      (rereadAll more))
    (hk : label.kind = .funcParam) (hl : label.layout = none) (hv : label.value = some value)
    (param : Option Json) :
    (readClauses read rule bodyKind param
      (.param value.compact (Clause.paramValue value.compact) span :: clauses)).Gives
      (rereadAll (⟨label, []⟩ :: more)) := by
  obtain ⟨hcomplete, hwarnings, hnodes⟩ := h
  refine ⟨hcomplete, hwarnings, ?_⟩
  rw [rereadAll_clause (by simp [hk]), reread_param hk hl hv, ← hnodes]
  rfl

/-- A body in front of clauses that are read. -/
theorem Clauses.Gives.body {read : Window → Contents} {rule : BodyRule} {param : Option Json} {label : Label}
    {children more : List Node} {clauses : List Clause} {inside : Window}
    (h : (readClauses read rule label.kind param clauses).Gives (rereadAll more))
    (hinside : (readBody read rule param inside).Gives label.content (Node.reread ⟨label, children⟩).children)
    (hk : label.kind.isBody = true) (hv : label.value = none)
    (hl : label.layout = some (label.layout.getD .inline)) :
    (readClauses read rule label.kind param (.body (label.layout.getD .inline) inside :: clauses)).Gives
      (rereadAll (⟨label, children⟩ :: more)) := by
  obtain ⟨hcomplete, hwarnings, hnodes⟩ := h
  obtain ⟨hcomplete', hwarnings', hcontent', hchildren'⟩ := hinside
  refine ⟨?_, ?_, ?_⟩
  · simp only [readClauses, hcomplete, hcomplete', Bool.and_self]
  · simp only [readClauses, hwarnings, hwarnings', List.append_nil]
  · rw [rereadAll_clause ⟨ne_of_isBody hk rfl, ne_of_isBody hk rfl⟩, reread_body hk hv hl, ← hchildren',
      ← hcontent', ← hnodes]
    rfl

/-- A parameter that is read back as readably as it is written says the same of the language. -/
theorem languageOf_paramValue {label : Label} {value : Json} (hk : label.kind = .funcParam)
    (hv : label.value = some value) (hr : isReadable unit level ⟨label, []⟩ = true) :
    languageOf (some (Clause.paramValue value.compact)) = languageOf (some value) := by
  rw [isReadable, hk] at hr
  simp only [keepsValue, Bool.and_eq_true, beq_iff_eq, hv] at hr
  have hlanguage := hr.2
  rwa [value_rereadParam hv] at hlanguage

/-- The clauses below a call that hosts no other are read from their text. -/
theorem clauses_gives (hu : ∀ c ∈ unit, Text.isBlank c = true) {rule : BodyRule} {bodyKind : Kind}
    (hb : bodyKind.isBody = true) (hrule : rule = .literal ↔ bodyKind = .body) {hosts : Bool}
    {rest : List Char} (hrest : StopsClauses rest) {ns : List Node}
    (hn : ∀ n ∈ ns, n.kind.isBody = true → n.label.layout ≠ some .directChild)
    (hr : areReadable unit level ns = true)
    (he : BodiesRead g marked unit level ns)
    {param param' : Option Json} (h : IsClauses g marked rule bodyKind param hosts ns)
    (hparam : languageOf param' = languageOf param) (offset : Nat) :
    ∃ clauses stop,
      (Window.mk offset (clausesText unit level ns ++ rest)).clauses = (clauses, ⟨stop, rest⟩) ∧
      (∀ fuel, (clausesText unit level ns).length ≤ fuel →
        (readClauses (readWindow g fuel) rule bodyKind param' clauses).Gives (rereadAll ns)) ∧
      (clauses.all (·.isParam) = true ↔ ∀ n ∈ ns, n.kind.isBody = false) := by
  induction ns generalizing param param' hosts offset with
  | nil =>
    refine ⟨[], offset, ?_, fun fuel _ => ⟨rfl, rfl, rfl⟩, by simp⟩
    exact Window.clauses_of_none (Clause.read?_none hrest)
  | cons n more ih =>
    rw [List.forall_mem_cons] at hn
    obtain ⟨hbody', hrest'⟩ := List.forall_mem_cons.1 he
    rw [areReadable, Bool.and_eq_true] at hr
    obtain ⟨label, children⟩ := n
    obtain ⟨hk, rfl, hl, value, hv, hmore⟩ | ⟨hk, -, -, hmore⟩ | ⟨hk, -, hl, -⟩ | ⟨hk, hv, hl, hbody, hmore⟩ :=
      h.cases
    · obtain ⟨span, stop, hread⟩ := Clause.read?_param offset value (clausesText unit level more ++ rest)
      obtain ⟨clauses, last, hclauses, hgives, hparams⟩ :=
        ih hn.2 hr.2 hrest' hmore (languageOf_paramValue hk hv hr.1) stop
      rw [clausesText_of_isClause _ _ _ _ (by rw [hk]; rfl), nodeText_of_param _ _ _ hk,
        paramText_of_value hv]
      refine ⟨.param value.compact (Clause.paramValue value.compact) span :: clauses, last, ?_,
        fun fuel hf => ?_, ?_⟩
      · have htext : '(' :: value.write ++ [')'] ++ clausesText unit level more ++ rest =
            '(' :: value.write ++ ')' :: (clausesText unit level more ++ rest) := by simp
        rw [htext, Window.clauses_of_read? hread, hclauses]
      · rw [List.length_append] at hf
        exact (hgives fuel (by omega)).param hk hl hv _
      · rw [List.all_cons, List.forall_mem_cons, Bool.and_eq_true, hparams]
        exact and_congr_left fun _ => iff_of_true rfl (show label.kind.isBody = false by rw [hk]; rfl)
    · have hreread : rereadAll (⟨label, children⟩ :: more) = rereadAll more := by
        rw [rereadAll, if_pos (.inr hk)]
      have hbodies : (∀ n ∈ Node.mk label children :: more, n.kind.isBody = false) ↔
          ∀ n ∈ more, n.kind.isBody = false := by
        rw [List.forall_mem_cons]
        exact and_iff_right (show label.kind.isBody = false by rw [hk]; rfl)
      rw [clausesText_of_result _ _ _ _ hk, hreread, hbodies]
      exact ih hn.2 hr.2 hrest' hmore hparam offset
    · exact absurd hl (hn.1 (show label.kind.isBody = true by rw [hk]; exact hb))
    · have hkbody : label.kind.isBody = true := by rw [hk]; exact hb
      obtain ⟨hcloses, hreadable⟩ := closes_of_isReadable hkbody hr.1
      obtain ⟨start, stop, hread⟩ := read?_body hbody hcloses offset (clausesText unit level more ++ rest)
      obtain ⟨clauses, last, hclauses, hgives, hparams⟩ := ih hn.2 hr.2 hrest' hmore hparam stop
      rw [clausesText_of_isClause _ _ _ _ (isClause_of_isBody hkbody), nodeText_of_isBody _ _ _ hkbody,
        if_neg hl]
      refine ⟨.body (label.layout.getD .inline) ⟨start, insideOf unit level label children⟩ :: clauses, last, ?_,
        fun fuel hf => ?_, ?_⟩
      · rw [List.append_assoc]
        exact (Window.clauses_of_read? hread).trans (by rw [hclauses])
      · rw [List.length_append] at hf
        have hlength := length_delimited (label.layout.getD .inline) (insideOf unit level label children)
        have hinside := body_gives hu hbody hkbody (by rw [hk]; exact hrule) hparam (hbody' hkbody) start
          (Nat.lt_of_lt_of_le hlength (Nat.le_trans (Nat.le_add_right _ _) hf))
        have hmore := hgives fuel (by omega)
        rw [← hk] at hmore ⊢
        exact hmore.body hinside hkbody hv hbody.layout_eq
      · rw [List.all_cons, List.forall_mem_cons, Bool.and_eq_true]
        exact iff_of_false (fun h => Bool.noConfusion h.1)
          fun h => absurd h.1 (by rw [show (Node.mk label children).kind.isBody = true from hkbody]; decide)

/-! ## Calls -/

/-- What stands below a call: clauses, or parameters and the body that hosts another call. -/
theorem IsClauses.split {rule : BodyRule} {bodyKind : Kind} {ns : List Node}
    {param : Option Json} {hosts : Bool} (h : IsClauses g marked rule bodyKind param hosts ns) :
    (∀ n ∈ ns, n.kind.isBody = true → n.label.layout ≠ some .directChild) ∨
      ∃ front label children, ns = front ++ [⟨label, children⟩] ∧ hosts = true ∧
        IsClauses g marked rule bodyKind param hosts front ∧ (∀ n ∈ front, n.kind.isBody = false) ∧
        label.kind = bodyKind ∧ label.value = none ∧ label.layout = some .directChild ∧ label.content = "" ∧
        IsCall g marked .func children := by
  induction ns generalizing param hosts with
  | nil => exact .inl (by simp)
  | cons n more ih =>
    obtain ⟨label, children⟩ := n
    obtain ⟨hk, rfl, hl, value, hv, hmore⟩ | ⟨hk, hm, hbody, hmore⟩ | ⟨hk, hv, hl, hh, rfl, hc, hcall⟩ |
      ⟨hk, hv, hl, hbody, hmore⟩ := h.cases
    · have hnot : (Node.mk label []).kind.isBody = false := by rw [Node.kind, hk]; rfl
      obtain hn | ⟨front, label', children', rfl, hh, hfront, hparams, hhost⟩ := ih hmore
      · refine .inl ?_
        rw [List.forall_mem_cons]
        exact ⟨fun h => absurd h (by simp [hnot]), hn⟩
      · refine .inr ⟨⟨label, []⟩ :: front, label', children', rfl, hh, ?_, ?_, hhost⟩
        · unfold IsClauses
          simp only [Node.kind, hk]
          exact ⟨trivial, hl, by rw [hv]; rfl, by rw [hv]; exact hfront⟩
        · rw [List.forall_mem_cons]
          exact ⟨hnot, hparams⟩
    · have hnot : (Node.mk label children).kind.isBody = false := by rw [Node.kind, hk]; rfl
      obtain hn | ⟨front, label', children', rfl, hh, hfront, hparams, hhost⟩ := ih hmore
      · refine .inl ?_
        rw [List.forall_mem_cons]
        exact ⟨fun h => absurd h (by simp [hnot]), hn⟩
      · refine .inr ⟨⟨label, children⟩ :: front, label', children', rfl, hh, ?_, ?_, hhost⟩
        · unfold IsClauses
          simp only [Node.kind, hk]
          exact ⟨hm, hbody, hfront⟩
        · rw [List.forall_mem_cons]
          exact ⟨hnot, hparams⟩
    · exact .inr ⟨[], label, children, rfl, hh, by simp [IsClauses], by simp, hk, hv, hl, hc, hcall⟩
    · obtain hn | ⟨front, label', children', rfl, hh, -⟩ := ih hmore
      · refine .inl ?_
        rw [List.forall_mem_cons]
        exact ⟨fun _ => hl, hn⟩
      · exact absurd hh (by decide)

/-- A name behind a sign ends where no character of a name follows. -/
theorem call?_eq (sigil : Char) {name : String} (hname : IsName name) {more : List Char}
    (hmore : ∀ c, more.head? = some c → Window.isNameChar c = false) (offset : Nat) :
    Segment.call? sigil ⟨offset, sigil :: name.toList ++ more⟩ =
      some (⟨name, (Window.mk (offset + Text.byteLength (sigil :: name.toList)) more).clauses.1⟩,
        (Window.mk (offset + Text.byteLength (sigil :: name.toList)) more).clauses.2) := by
  obtain ⟨htake, hdrop⟩ := Text.takeWhile_append_stop hname.all hmore
  obtain ⟨c, rest, hc, hstart, -⟩ := hname
  have hs : Window.startsConstruct sigil (sigil :: name.toList ++ more) = true := by
    rw [hc]
    simp [Window.startsConstruct, hstart]
  have hchars : (Window.mk offset (sigil :: name.toList ++ more)).tail.chars = name.toList ++ more := rfl
  have hwindow : (Window.mk offset (sigil :: name.toList ++ more)).tail.name = name := by
    rw [Window.name, hchars, htake, String.ofList_toList]
  have hafter : (Window.mk offset (sigil :: name.toList ++ more)).tail.afterName =
      ⟨offset + Text.byteLength (sigil :: name.toList), more⟩ := by
    rw [Window.afterName, Window.dropWhile, hchars, htake, hdrop, Text.byteLength_cons]
    exact congrArg (Window.mk · more) (Nat.add_assoc _ _ _)
  rw [Segment.call?, if_pos hs, hwindow, hafter]

/-- The text of a clause starts with no character of a name. -/
theorem head?_clausesText {rule : BodyRule} {bodyKind : Kind} (hb : bodyKind.isBody = true) {ns : List Node}
    {param : Option Json} {hosts : Bool} (h : IsClauses g marked rule bodyKind param hosts ns) :
    ∀ c, (clausesText unit level ns).head? = some c → Window.isNameChar c = false := by
  intro c hc
  induction ns generalizing param hosts with
  | nil => simp [clausesText] at hc
  | cons n more ih =>
    obtain ⟨label, children⟩ := n
    obtain ⟨hk, rfl, hl, value, hv, hmore⟩ | ⟨hk, -, -, hmore⟩ | ⟨hk, -, hl, -, -, -, hcall⟩ |
      ⟨hk, hv, hl, hbody, hmore⟩ := h.cases
    · rw [clausesText_of_isClause _ _ _ _ (by rw [hk]; rfl), nodeText_of_param _ _ _ hk] at hc
      obtain rfl := Option.some.inj hc
      rfl
    · rw [clausesText_of_result _ _ _ _ hk] at hc
      exact ih hmore hc
    · have hkbody : label.kind.isBody = true := by rw [hk]; exact hb
      rw [clausesText_of_isClause _ _ _ _ (isClause_of_isBody hkbody), nodeText_of_isBody _ _ _ hkbody,
        if_pos hl] at hc
      cases children with
      | nil => exact hcall.elim
      | cons m tail =>
        unfold IsCall at hcall
        obtain ⟨label', children'⟩ := m
        obtain ⟨hm, -, -⟩ := hcall
        have hm : label'.kind = .func := hm
        rw [callText, nodeText, hm] at hc
        obtain rfl := Option.some.inj hc
        rfl
    · have hkbody : label.kind.isBody = true := by rw [hk]; exact hb
      rw [clausesText_of_isClause _ _ _ _ (isClause_of_isBody hkbody), nodeText_of_isBody _ _ _ hkbody,
        if_neg hl] at hc
      obtain ⟨keeps, hd, -⟩ := hbody.layout
      have hlayout := hbody.layout_eq
      unfold IsDelimited at hd
      rw [hlayout] at hd
      cases hgetD : label.layout.getD .inline <;> rw [hgetD] at hc hd
      case directChild => exact hd.elim
      case code opening closing =>
        obtain ⟨n, rfl⟩ := Nat.exists_eq_succ_of_ne_zero (Nat.ne_of_gt hd.2)
        obtain rfl := Option.some.inj hc
        rfl
      all_goals
        obtain rfl := Option.some.inj hc
        rfl

end Evomark.Markup
