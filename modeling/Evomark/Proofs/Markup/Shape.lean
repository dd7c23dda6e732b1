import Evomark.Markup.Reading
import Evomark.Proofs.Text.Lines
/-!
# The shape of documents

What a document that has been read looks like, and what passes make of it: `IsElement` says it of a
node in a box, `IsClauses` of what stands below a call, `IsFlow` of what stands in a body. Passes
add results and the separators of markers; a document in which there are none is not `marked`.
-/

namespace Evomark.Markup

/-- A name that can stand behind a sign. -/
def IsName (name : String) : Prop :=
  ∃ c rest, name.toList = c :: rest ∧ Window.isNameStart c = true ∧
    ∀ d ∈ rest, Window.isNameChar d = true

/-- The code points of the characters of names. -/
theorem range_of_isNameChar {c : Char} (h : Window.isNameChar c = true) :
    65 ≤ c.toNat ∧ c.toNat ≤ 90 ∨ 97 ≤ c.toNat ∧ c.toNat ≤ 122 ∨ c.toNat = 95 ∨
      48 ≤ c.toNat ∧ c.toNat ≤ 57 := by
  simp only [Window.isNameChar, Window.isNameStart, Bool.or_eq_true, Bool.and_eq_true,
    decide_eq_true_eq, beq_iff_eq] at h
  rcases h with ((h | h) | rfl) | h
  · exact .inr (.inl h)
  · exact .inl h
  · exact .inr (.inr (.inl rfl))
  · exact .inr (.inr (.inr h))

theorem not_white_of_isNameChar {c : Char} (h : Window.isNameChar c = true) :
    Text.isWhite c = false := by
  have := range_of_isNameChar h
  simp only [Text.isWhite, Bool.or_eq_false_iff, Bool.and_eq_false_iff, decide_eq_false_iff_not,
    beq_eq_false_iff_ne]
  omega

theorem isNameChar_of_isDigit {c : Char} (h : c.isDigit = true) : Window.isNameChar c = true := by
  simp only [Char.isDigit, Bool.and_eq_true, decide_eq_true_eq] at h
  simp only [Window.isNameChar, Bool.or_eq_true, Bool.and_eq_true, decide_eq_true_eq]
  exact .inr h

theorem isNameChar_of_isNameStart {c : Char} (h : Window.isNameStart c = true) :
    Window.isNameChar c = true := by
  simp [Window.isNameChar, h]

theorem IsName.all {name : String} (h : IsName name) : ∀ c ∈ name.toList, Window.isNameChar c = true := by
  obtain ⟨c, rest, hname, hc, hrest⟩ := h
  rw [hname, List.forall_mem_cons]
  exact ⟨isNameChar_of_isNameStart hc, hrest⟩

/-- Neighbours that do not start a construct with one of the signs. -/
def Apart (signs : List Char) (c d : Char) : Prop := ¬ (c ∈ signs ∧ Window.isNameStart d = true)

instance (signs : List Char) : DecidableRel (Apart signs) := fun c d =>
  inferInstanceAs (Decidable (¬ (c ∈ signs ∧ Window.isNameStart d = true)))

theorem not_startsConstruct {signs : List Char} {sign c : Char} {rest : List Char} (hsign : sign ∈ signs)
    (h : ∀ d, rest.head? = some d → Apart signs c d) : ¬ Window.startsConstruct sign (c :: rest) = true := by
  intro hs
  cases rest with
  | nil => exact Bool.false_ne_true hs
  | cons d more =>
    simp only [Window.startsConstruct, Bool.and_eq_true, beq_iff_eq] at hs
    exact h d rfl ⟨hs.1 ▸ hsign, hs.2⟩

/-- A normal text that is not empty, has none of the banned characters, and starts no construct with
one of the signs. -/
structure IsRun (banned signs : List Char) (content : String) : Prop where
  normal : Text.normalizeLines content.toList = content.toList
  ne_nil : content.toList ≠ []
  allowed : ∀ c ∈ content.toList, c ∉ banned
  apart : content.toList.IsChain (Apart signs)

theorem IsRun.solid {banned signs : List Char} {content : String} (h : IsRun banned signs content) :
    Text.Solid content.toList := by
  have hs := Text.solid_normalizeLines (h.normal.trans_ne h.ne_nil)
  rwa [h.normal] at hs

/-- The text of prose. -/
def IsProse (content : String) : Prop := IsRun ['#', '@'] ['$', '%'] content

/-- The text of a literal. -/
def IsLiteral (content : String) : Prop := IsRun [] ['%'] content

/-- A label that has a kind and a text only. -/
def IsPlain (label : Label) : Prop := label.value = none ∧ label.layout = none

/-- The body stands between delimiters. If it keeps its text, a line feed in it decides between the
braces. -/
def IsDelimited (label : Label) (keepsText : Bool) : Prop :=
  match label.layout with
  | some .inline => '\n' ∉ label.content.toList
  | some .block => keepsText = true → '\n' ∈ label.content.toList
  | some (.code opening closing) => opening = closing ∧ 0 < opening
  | _ => False

/-- A node in a literal body, behind a node of kind `prev`. -/
def IsLiteralItem (prev : Option Kind) (n : Node) : Prop :=
  n.children = [] ∧ n.label.layout = none ∧
    match n.kind with
    | .literal => n.label.value = none ∧ IsLiteral n.content ∧ prev ≠ some .literal
    | .varUse => n.label.value = none ∧ IsName n.content
    | .sep => n.content = "" ∧ ∃ count : Nat, 2 ≤ count ∧ n.label.value = some (.int count)
    | _ => False

mutual

/-- A node in a box. -/
def IsElement (g : Grammar) (marked : Bool) : Node → Prop
  | ⟨label, children⟩ =>
    IsPlain label ∧
      match label.kind with
      | .text => IsProse label.content ∧ children = []
      | .func =>
        IsName label.content ∧
          IsClauses g marked (g.functionRule label.content) .funcBody none true children
      | .cmd =>
        IsName label.content ∧
          IsClauses g marked (g.commandRule label.content) .body none false children
      | .ref => (∀ c ∈ label.content.toList, Window.isNameChar c = true) ∧ IsCall g marked .func children
      | .varUse => IsName label.content ∧ ∀ n ∈ children, marked = true ∧ n.kind = .literal
      | .varAssign => IsName label.content ∧ IsCall g marked .cmd children
      | _ => False

/-- One call and nothing else. -/
def IsCall (g : Grammar) (marked : Bool) (kind : Kind) : List Node → Prop
  | [] => False
  | n :: rest => n.kind = kind ∧ rest = [] ∧ IsElement g marked n

/-- What stands below a call: parameters and bodies that are read by the rule, given the last
parameter before them. A call with nothing but parameters may host another call. -/
def IsClauses (g : Grammar) (marked : Bool) (rule : BodyRule) (bodyKind : Kind)
    (param : Option Json) (hosts : Bool) : List Node → Prop
  | [] => True
  | n :: rest =>
    match n.kind with
    | .funcParam =>
      n.children = [] ∧ n.label.layout = none ∧ n.label.value.isSome = true ∧
        IsClauses g marked rule bodyKind n.label.value hosts rest
    | .literal =>
      marked = true ∧ bodyKind = .body ∧ IsClauses g marked rule bodyKind param hosts rest
    | kind =>
      kind = bodyKind ∧ n.label.value = none ∧
        if n.label.layout = some .directChild then
          hosts = true ∧ rest = [] ∧ n.content = "" ∧ IsHost g marked n
        else IsBody g marked rule param n ∧ IsClauses g marked rule bodyKind param false rest

/-- The body of a call that hosts another. -/
def IsHost (g : Grammar) (marked : Bool) : Node → Prop
  | ⟨_, children⟩ => IsCall g marked .func children

/-- A body between delimiters. -/
def IsBody (g : Grammar) (marked : Bool) (rule : BodyRule) (param : Option Json) : Node → Prop
  | ⟨label, children⟩ =>
    match rule with
    | .box => IsDelimited label false ∧ label.content = "" ∧ IsFlow g marked true none children
    | .literal => IsDelimited label false ∧ label.content = "" ∧ IsFlow g marked false none children
    | .code => IsDelimited label true ∧ children = []
    | .config space =>
      IsDelimited label true ∧ children = (readSettings space param label.content).children ∧
        ∀ n ∈ children, n.kind ≠ .warning
    | _ => False

/-- The nodes of a body, the first of them behind a node of kind `prev`. In a box a separator belongs
to the marker before it. -/
def IsFlow (g : Grammar) (marked inBox : Bool) (prev : Option Kind) : List Node → Prop
  | [] => True
  | n :: rest =>
    (if inBox = true then
        if n.kind = .sep then
          marked = true ∧ prev = some .cmd ∧ n.label.sepCount = 1 ∧ n.children = []
        else IsElement g marked n
      else IsLiteralItem prev n) ∧
      IsFlow g marked inBox (some n.kind) rest

end

/-! ## Cases -/

theorem sepCount_of_value {label : Label} {count : Nat} (h : label.value = some (.int count)) :
    label.sepCount = count := by
  rw [Label.sepCount, h]
  show (if 0 ≤ (count : Int) then some (count : Int).toNat else none).getD 1 = count
  rw [if_pos (Int.natCast_nonneg count)]
  rfl

variable {g : Grammar} {marked : Bool}

/-- What a call has first below it: a parameter, a result, the body that hosts another call, or a
body between delimiters. -/
theorem IsClauses.cases {rule : BodyRule} {bodyKind : Kind} {param : Option Json} {hosts : Bool}
    {label : Label} {children rest : List Node}
    (h : IsClauses g marked rule bodyKind param hosts (⟨label, children⟩ :: rest)) :
    (label.kind = .funcParam ∧ children = [] ∧ label.layout = none ∧
        ∃ value, label.value = some value ∧ IsClauses g marked rule bodyKind (some value) hosts rest) ∨
      (label.kind = .literal ∧ marked = true ∧ bodyKind = .body ∧
        IsClauses g marked rule bodyKind param hosts rest) ∨
      (label.kind = bodyKind ∧ label.value = none ∧ label.layout = some .directChild ∧ hosts = true ∧
        rest = [] ∧ label.content = "" ∧ IsCall g marked .func children) ∨
      (label.kind = bodyKind ∧ label.value = none ∧ label.layout ≠ some .directChild ∧
        IsBody g marked rule param ⟨label, children⟩ ∧
        IsClauses g marked rule bodyKind param false rest) := by
  unfold IsClauses at h
  split at h
  · rename_i hk
    obtain ⟨hc, hl, hv, hrest⟩ := h
    obtain ⟨value, hv⟩ := Option.isSome_iff_exists.1 hv
    rw [hv] at hrest
    exact .inl ⟨hk, hc, hl, value, hv, hrest⟩
  · rename_i hk
    exact .inr (.inl ⟨hk, h⟩)
  · obtain ⟨hk, hv, h⟩ := h
    split at h
    · rename_i hl
      obtain ⟨hh, hr, hc, hhost⟩ := h
      unfold IsHost at hhost
      exact .inr (.inr (.inl ⟨hk, hv, hl, hh, hr, hc, hhost⟩))
    · rename_i hl
      exact .inr (.inr (.inr ⟨hk, hv, hl, h⟩))

/-- A body between delimiters in front of other clauses. -/
theorem isClauses_body_cons {rule : BodyRule} {bodyKind : Kind} {param : Option Json} {hosts : Bool}
    {label : Label} {children rest : List Node} (hb : bodyKind.isBody = true)
    (hk : label.kind = bodyKind) (hv : label.value = none) (hl : label.layout ≠ some .directChild)
    (hbody : IsBody g marked rule param ⟨label, children⟩)
    (hrest : IsClauses g marked rule bodyKind param false rest) :
    IsClauses g marked rule bodyKind param hosts (⟨label, children⟩ :: rest) := by
  unfold IsClauses
  cases bodyKind <;> try exact absurd hb (by decide)
  all_goals
    simp only [Node.kind, hk]
    exact ⟨trivial, hv, by rw [if_neg hl]; exact ⟨hbody, hrest⟩⟩

/-- The body that holds what a call hosts. -/
theorem isClauses_host {rule : BodyRule} {param : Option Json} {label : Label} {children : List Node}
    (hk : label.kind = .funcBody) (hv : label.value = none) (hl : label.layout = some .directChild)
    (hc : label.content = "") (h : IsCall g marked .func children) :
    IsClauses g marked rule .funcBody param true [⟨label, children⟩] := by
  unfold IsClauses
  simp only [Node.kind, hk]
  refine ⟨trivial, hv, ?_⟩
  rw [if_pos hl]
  exact ⟨trivial, trivial, hc, by rw [IsHost]; exact h⟩

theorem IsElement.of_text {n : Node} (h : IsElement g marked n) (hk : n.kind = .text) :
    IsProse n.content ∧ n.children = [] := by
  obtain ⟨label, children⟩ := n
  have hk : label.kind = .text := hk
  unfold IsElement at h
  rw [hk] at h
  exact h.2

theorem IsElement.kind_cases {n : Node} (h : IsElement g marked n) :
    n.kind = .text ∨ n.kind = .func ∨ n.kind = .cmd ∨ n.kind = .ref ∨ n.kind = .varUse ∨
      n.kind = .varAssign := by
  obtain ⟨label, children⟩ := n
  unfold IsElement at h
  simp only [Node.kind]
  cases hk : label.kind <;> rw [hk] at h <;> first | exact h.2.elim | simp

/-- No element has another kind. -/
theorem IsElement.kind_ne {n : Node} (h : IsElement g marked n) {kind : Kind}
    (hk : kind ∉ [Kind.text, .func, .cmd, .ref, .varUse, .varAssign]) : n.kind ≠ kind := by
  rintro rfl
  rcases h.kind_cases with h | h | h | h | h | h <;> simp [h] at hk

/-- What stands in a body first: in a box a separator behind a marker, or an element. -/
theorem IsFlow.cases {inBox : Bool} {prev : Option Kind} {n : Node} {rest : List Node}
    (h : IsFlow g marked inBox prev (n :: rest)) :
    IsFlow g marked inBox (some n.kind) rest ∧
      ((inBox = true ∧ n.kind = .sep ∧ marked = true ∧ prev = some .cmd ∧ n.label.sepCount = 1 ∧
          n.children = []) ∨
        (inBox = true ∧ n.kind ≠ .sep ∧ IsElement g marked n) ∨
        (inBox = false ∧ IsLiteralItem prev n)) := by
  unfold IsFlow at h
  refine ⟨h.2, ?_⟩
  have h := h.1
  split at h
  · rename_i hb
    split at h
    · rename_i hk
      exact .inl ⟨hb, hk, h⟩
    · rename_i hk
      exact .inr (.inl ⟨hb, hk, h⟩)
  · rename_i hb
    exact .inr (.inr ⟨by simpa using hb, h⟩)

/-- A body of settings without a warning holds their dictionary. -/
theorem children_readSettings {space : String} {param : Option Json} {raw : String}
    (h : ∀ n ∈ (readSettings space param raw).children, n.kind ≠ .warning) :
    ∃ value, (readSettings space param raw).children =
      [.leaf { kind := .configDict, content := space, value := some value }] := by
  unfold readSettings at h ⊢
  split
  · exact ⟨_, rfl⟩
  · rename_i e he
    rw [he] at h
    exact absurd rfl (h _ (.head _))

/-- The children of a body: nodes as in a box or as in a literal body, or a dictionary. -/
theorem IsBody.children_cases {rule : BodyRule} {param : Option Json} {label : Label}
    {children : List Node} (h : IsBody g marked rule param ⟨label, children⟩) :
    (∃ inBox, IsFlow g marked inBox none children) ∨
      ∃ space value, children = [.leaf { kind := .configDict, content := space, value := some value }] := by
  unfold IsBody at h
  cases rule with
  | box => exact .inl ⟨true, h.2.2⟩
  | literal => exact .inl ⟨false, h.2.2⟩
  | code =>
    rw [h.2]
    exact .inl ⟨true, by simp [IsFlow]⟩
  | config space =>
    obtain ⟨value, hc⟩ := children_readSettings (h.2.1 ▸ h.2.2)
    exact .inr ⟨space, value, h.2.1.trans hc⟩
  | reject | shout => exact h.elim

/-! ## Documents without marks -/

mutual

theorem IsElement.marked : ∀ {n : Node}, IsElement g false n → IsElement g true n
  | ⟨label, children⟩, h => by
    unfold IsElement at h ⊢
    refine ⟨h.1, ?_⟩
    have h := h.2
    cases hk : label.kind <;> rw [hk] at h <;> try exact h.elim
    case text => exact h
    case func => exact ⟨h.1, IsClauses.marked h.2⟩
    case cmd => exact ⟨h.1, IsClauses.marked h.2⟩
    case ref => exact ⟨h.1, IsCall.marked h.2⟩
    case varAssign => exact ⟨h.1, IsCall.marked h.2⟩
    case varUse => exact ⟨h.1, fun n hn => absurd (h.2 n hn).1 (by decide)⟩

theorem IsCall.marked {kind : Kind} : ∀ {ns : List Node}, IsCall g false kind ns → IsCall g true kind ns
  | n :: rest, h => by
    unfold IsCall at h ⊢
    exact ⟨h.1, h.2.1, IsElement.marked h.2.2⟩

theorem IsClauses.marked {rule : BodyRule} {bodyKind : Kind} : ∀ {param : Option Json} {hosts : Bool}
    {ns : List Node}, IsClauses g false rule bodyKind param hosts ns →
      IsClauses g true rule bodyKind param hosts ns
  | _, _, [], _ => by
    unfold IsClauses
    trivial
  | param, hosts, ⟨label, children⟩ :: rest, h => by
    unfold IsClauses at h ⊢
    split
    · rename_i hk
      rw [hk] at h
      exact ⟨h.1, h.2.1, h.2.2.1, IsClauses.marked h.2.2.2⟩
    · rename_i hk
      rw [hk] at h
      exact absurd h.1 (by decide)
    · rename_i hp hl
      simp only at h
      refine ⟨h.1, h.2.1, ?_⟩
      have h := h.2.2
      split
      · rename_i hd
        rw [if_pos hd] at h
        unfold IsHost at h ⊢
        exact ⟨h.1, h.2.1, h.2.2.1, IsCall.marked h.2.2.2⟩
      · rename_i hd
        rw [if_neg hd] at h
        exact ⟨IsBody.marked h.1, IsClauses.marked h.2⟩

theorem IsBody.marked {rule : BodyRule} {param : Option Json} : ∀ {n : Node},
    IsBody g false rule param n → IsBody g true rule param n
  | ⟨label, children⟩, h => by
    unfold IsBody at h ⊢
    cases rule with
    | box | literal => exact ⟨h.1, h.2.1, IsFlow.marked h.2.2⟩
    | code | config => exact h
    | reject | shout => exact h.elim

theorem IsFlow.marked {inBox : Bool} : ∀ {prev : Option Kind} {ns : List Node},
    IsFlow g false inBox prev ns → IsFlow g true inBox prev ns
  | _, [], _ => by
    unfold IsFlow
    trivial
  | prev, n :: rest, h => by
    unfold IsFlow at h ⊢
    refine ⟨?_, IsFlow.marked h.2⟩
    have h := h.1
    split
    · rename_i hb
      rw [if_pos hb] at h
      split
      · rename_i hs
        rw [if_pos hs] at h
        exact absurd h.1 (by decide)
      · rename_i hs
        rw [if_neg hs] at h
        exact IsElement.marked h
    · rename_i hb
      rwa [if_neg hb] at h

end

end Evomark.Markup
