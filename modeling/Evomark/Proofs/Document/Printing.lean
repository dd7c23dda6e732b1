import Evomark.Proofs.Document.Written
import Evomark.Proofs.Markup.Shape
/-!
# What is written is printed

For a document of the shape that reading and passes give it, the printer writes what `flowText` says
(`putNodes_eq`, `printWith_eq`). The printer decides by what has been written last; `Edge.Fits` says
that the decision is the one `flowText` makes.
-/

namespace Evomark

open Markup Text

/-! ## How texts end -/

/-- A text whose last character is neither white nor an opening brace, so that a space follows it. -/
def Ends (cs : List Char) : Prop := ∃ front c, cs = front ++ [c] ∧ isWhite c = false ∧ c ≠ '\x7b'

namespace Ends

theorem append {ds : List Char} (h : Ends ds) (cs : List Char) : Ends (cs ++ ds) := by
  obtain ⟨front, c, rfl, hc⟩ := h
  exact ⟨cs ++ front, c, (List.append_assoc ..).symm, hc⟩

theorem append_of_nil_or {cs ds : List Char} (h : Ends cs) (hd : ds = [] ∨ Ends ds) :
    Ends (cs ++ ds) := by
  rcases hd with rfl | hd
  · rwa [List.append_nil]
  · exact hd.append cs

theorem singleton {c : Char} (hc : isWhite c = false ∧ c ≠ '\x7b') : Ends [c] := ⟨[], c, rfl, hc⟩

/-- A sign with a name ends with the name, or with the sign. -/
theorem sign {sign : Char} {name : List Char} (hs : isWhite sign = false ∧ sign ≠ '\x7b')
    (hn : ∀ c ∈ name, Window.isNameChar c = true) : Ends (sign :: name) := by
  rcases List.eq_nil_or_concat name with rfl | ⟨front, c, rfl⟩
  · exact singleton hs
  · have hc := hn c (by simp)
    refine ⟨sign :: front, c, by simp, not_white_of_isNameChar hc, ?_⟩
    rintro rfl
    revert hc
    decide

end Ends

theorem ends_delimited (layout : Layout) (inside : List Char) : Ends (Node.delimited layout inside) := by
  cases layout <;> exact (Ends.singleton (by decide)).append _

mutual

theorem ends_nodeText {g : Grammar} {marked : Bool} (unit : List Char) (level : Nat) : ∀ {n : Node},
    IsElement g marked n → n.kind ≠ .text → Ends (n.nodeText unit level)
  | ⟨label, children⟩, h, hk => by
    unfold IsElement at h
    unfold Node.nodeText
    cases hkind : label.kind <;> rw [hkind] at h <;> try exact h.2.elim
    case text => exact absurd hkind hk
    case func =>
      exact (Ends.sign (by decide) h.2.1.all).append_of_nil_or (ends_clausesText unit level rfl h.2.2)
    case cmd =>
      exact (Ends.sign (by decide) h.2.1.all).append_of_nil_or (ends_clausesText unit level rfl h.2.2)
    case ref => exact (ends_callText unit level (by decide) h.2.2).append _
    case varUse => exact Ends.sign (by decide) h.2.1.all
    case varAssign => exact (ends_callText unit level (by decide) h.2.2).append _

theorem ends_callText {g : Grammar} {marked : Bool} {kind : Kind} (unit : List Char) (level : Nat)
    (hk : kind ≠ .text) : ∀ {ns : List Node}, IsCall g marked kind ns → Ends (Node.callText unit level ns)
  | n :: rest, h => by
    unfold IsCall at h
    unfold Node.callText
    exact ends_nodeText unit level h.2.2 (by rw [h.1]; exact hk)

theorem ends_clausesText {g : Grammar} {marked : Bool} {rule : BodyRule} {bodyKind : Kind}
    {param : Option Json} {hosts : Bool} (unit : List Char) (level : Nat) (hb : bodyKind.isBody = true) :
    ∀ {ns : List Node}, IsClauses g marked rule bodyKind param hosts ns →
      Node.clausesText unit level ns = [] ∨ Ends (Node.clausesText unit level ns)
  | [], _ => .inl rfl
  | ⟨label, children⟩ :: rest, h => by
    obtain ⟨hk, -, -, value, -, hrest⟩ | ⟨hk, -, -, hrest⟩ | ⟨hk, -, hl, -, rfl, -, hcall⟩ |
      ⟨hk, -, hl, -, hrest⟩ := h.cases
    · rw [Node.clausesText_of_isClause _ _ _ _ (by rw [hk]; rfl), Node.nodeText_of_param _ _ _ hk]
      exact .inr (((Ends.singleton (by decide)).append _).append_of_nil_or
        (ends_clausesText unit level hb hrest))
    · rw [Node.clausesText_of_result _ _ _ _ hk]
      exact ends_clausesText unit level hb hrest
    · rw [Node.clausesText_of_isClause _ _ _ _ (Node.isClause_of_isBody (hk ▸ hb)),
        Node.nodeText_of_isBody _ _ _ (hk ▸ hb), if_pos hl]
      exact .inr ((ends_callText unit level (by decide) hcall).append_of_nil_or (.inl rfl))
    · rw [Node.clausesText_of_isClause _ _ _ _ (Node.isClause_of_isBody (hk ▸ hb)),
        Node.nodeText_of_isBody _ _ _ (hk ▸ hb), if_neg hl]
      exact .inr ((ends_delimited _ _).append_of_nil_or (ends_clausesText unit level hb hrest))

end

/-- An indented text ends as the text does. -/
theorem exists_indented {content : List Char} (indent : List Char) (h : Solid content) :
    ∃ front c, content.getLast? = some c ∧ isWhite c = false ∧ indented indent content = front ++ [c] := by
  obtain ⟨front, c, rfl, hc⟩ := h.last
  have hbreak : c ≠ '\n' := by
    rintro rfl
    exact absurd hc (by decide)
  exact ⟨indented indent front, c, by simp, hc, by simp [indented, hbreak]⟩

/-! ## How the line stands -/

namespace Edge

/-- What has been written, up to the indentation of a line that has just begun, as `edge` says. -/
def Fits (indent : List Char) (edge : Edge) (ink base : Ink) : Prop :=
  match edge with
  | .opened => ink = base ∧ (ink = [] ∨ ∃ more, ink = '\x7b' :: more)
  | .begun => ink = indent.reverse ++ base ∧ ∃ more, base = '\n' :: more
  | .filled => ink = base ∧ ∃ c more, ink = c :: more ∧ isWhite c = false ∧ c ≠ '\x7b'

variable {indent : List Char} {edge : Edge} {ink base : Ink}

theorem Fits.space (hi : ∀ c ∈ indent, isBlank c = true) (h : Fits indent edge ink base) :
    ink.space = (Node.edgeText indent edge).reverse ++ base := by
  cases edge with
  | opened =>
    obtain ⟨rfl, rfl | ⟨more, rfl⟩⟩ := h <;> rfl
  | begun =>
    obtain ⟨rfl, more, rfl⟩ := h
    show Ink.space (indent.reverse ++ '\n' :: more) = indent.reverse ++ '\n' :: more
    cases hr : indent.reverse with
    | nil => rfl
    | cons c rest =>
      have hc : isWhite c = true := isWhite_of_isBlank (hi c (List.mem_reverse.1 (hr ▸ .head _)))
      simp [Ink.space, hc]
  | filled =>
    obtain ⟨rfl, c, more, rfl, hc, hb⟩ := h
    simp [Ink.space, Node.edgeText, hc, hb]

theorem Fits.trimBlanks (hi : ∀ c ∈ indent, isBlank c = true) (h : Fits indent edge ink base) :
    ink.trimBlanks = base := by
  cases edge with
  | opened =>
    obtain ⟨rfl, rfl | ⟨more, rfl⟩⟩ := h <;> rfl
  | begun =>
    obtain ⟨rfl, more, rfl⟩ := h
    rw [Ink.trimBlanks, List.dropWhile_append_of_pos fun c hc => hi c (List.mem_reverse.1 hc)]
    rfl
  | filled =>
    obtain ⟨rfl, c, more, rfl, hc, -⟩ := h
    have : ¬ isBlank c = true := fun hb => by simp [isWhite_of_isBlank hb] at hc
    rw [Ink.trimBlanks, List.dropWhile_cons_of_neg this]

theorem Fits.of_ends {cs : List Char} (h : Ends cs) (indent : List Char) (ink : Ink) :
    Fits indent .filled (cs.reverse ++ ink) (cs.reverse ++ ink) := by
  obtain ⟨front, c, rfl, hc⟩ := h
  exact ⟨rfl, c, front.reverse ++ ink, by simp, hc⟩

end Edge

/-! ## Texts -/

theorem foldl_put_lines (indent : List Char) (more : List (List Char)) (ink : Ink) :
    more.foldl (fun ink line => ink.put ('\n' :: (indent ++ line))) ink =
      (more.flatMap fun line => '\n' :: (indent ++ line)).reverse ++ ink := by
  induction more generalizing ink with
  | nil => rfl
  | cons line more ih =>
    rw [List.foldl_cons, ih, List.flatMap_cons, List.reverse_append, List.append_assoc]
    rfl

theorem indented_eq (indent : List Char) {cs first : List Char} {more : List (List Char)}
    (h : splitLines cs = first :: more) :
    indented indent cs = first ++ more.flatMap fun line => '\n' :: (indent ++ line) := by
  induction cs generalizing first more with
  | nil =>
    obtain ⟨rfl, rfl⟩ := List.cons.inj h
    rfl
  | cons c rest ih =>
    obtain ⟨first', more', hf⟩ := exists_splitLines rest
    rw [indented, List.flatMap_cons, ← indented, ih hf]
    by_cases hc : c = '\n'
    · rw [hc, splitLines, if_pos rfl, hf] at h
      obtain ⟨rfl, rfl⟩ := List.cons.inj h
      simp [hc]
    · rw [splitLines_cons hc hf] at h
      obtain ⟨rfl, rfl⟩ := List.cons.inj h
      simp [hc]

theorem putLines_eq (indent cs : List Char) (ink : Ink) :
    ink.putLines indent cs = (indented indent cs).reverse ++ ink := by
  obtain ⟨first, more, h⟩ := exists_splitLines cs
  rw [Ink.putLines, h, indented_eq indent h, List.reverse_append, List.append_assoc]
  exact foldl_put_lines indent more _

namespace Node

theorem putText_eq {indent : List Char} {prev : Option Kind} {edge : Edge} {ink base : Ink} {n : Node}
    (hi : ∀ c ∈ indent, isBlank c = true) (hf : edge.Fits indent ink base)
    (hne : n.content.toList ≠ []) :
    putText indent prev n.kind n.content.toList ink =
      (gapText indent prev edge n ++ indented indent n.content.toList).reverse ++ base := by
  have hempty : n.content.toList.isEmpty = false := by
    simpa [List.isEmpty_iff] using hne
  simp only [putText, hempty, Bool.false_eq_true, if_false, gapText, putLines_eq, List.reverse_append,
    List.append_assoc, Bool.and_eq_true, beq_iff_eq]
  congr 1
  by_cases ht : n.kind = .text ∧ prev = some .text
  · rw [if_pos ht, if_pos ht, hf.trimBlanks hi]
    simp [Ink.put]
  · rw [if_neg ht, if_neg ht]
    by_cases hu : (n.kind = .text ∧ prev = some .varUse) ∧ n.content.toList.head? = some '='
    · rw [if_pos hu, if_pos (and_assoc.1 hu), hf.trimBlanks hi]
      simp [Ink.put]
    · rw [if_neg hu, if_neg fun h => hu (and_assoc.2 h), hf.space hi]

theorem putSep_eq {indent : List Char} {edge : Edge} {ink base : Ink} {count : Nat}
    (hi : ∀ c ∈ indent, isBlank c = true) (hf : edge.Fits indent ink base) (hc : 0 < count) :
    Edge.Fits indent .begun (putSep indent count ink) ((breaks edge count).reverse ++ base) := by
  obtain ⟨count, rfl⟩ := Nat.exists_eq_succ_of_ne_zero (Nat.ne_of_gt hc)
  have hbreaks : (if base.head? = some '\n' then ['\n'] else List.replicate (count + 1) '\n') =
      breaks edge (count + 1) := by
    cases edge with
    | opened => obtain ⟨rfl, rfl | ⟨more, rfl⟩⟩ := hf <;> rfl
    | begun =>
      obtain ⟨-, more, rfl⟩ := hf
      rfl
    | filled =>
      obtain ⟨rfl, c, more, rfl, hw, -⟩ := hf
      refine if_neg fun h => ?_
      rw [List.head?_cons, Option.some.injEq] at h
      rw [h] at hw
      exact absurd hw (by decide)
  rw [putSep, hf.trimBlanks hi, hbreaks]
  refine ⟨rfl, ?_⟩
  unfold breaks
  split
  · exact ⟨_, rfl⟩
  · rw [List.reverse_replicate]
    exact ⟨_, rfl⟩

/-! ## Nodes -/

theorem isBlank_of_mem_indentation {unit : List Char} (hu : ∀ c ∈ unit, isBlank c = true) (level : Nat) :
    ∀ c ∈ indentation unit level, isBlank c = true :=
  fun c hc => hu c (mem_of_mem_indentation hc)

/-- White space in front of a brace is trimmed up to the brace. -/
theorem trimWhite_brace (cs : List Char) (ink : Ink) :
    Ink.trimWhite (cs.reverse ++ '\x7b' :: ink) = (trimEnd cs).reverse ++ '\x7b' :: ink := by
  rw [Ink.trimWhite, List.dropWhile_append]
  split
  · rename_i h
    rw [trimEnd, dropEndWhile, List.isEmpty_iff.1 h]
    rfl
  · rw [trimEnd, dropEndWhile, List.reverse_reverse]

theorem putNode_of_isBody {unit : List Char} {level : Nat} {prev : Option Kind} {label : Label}
    {children : List Node} {ink : Ink} (h : label.kind.isBody = true) :
    putNode unit level prev ⟨label, children⟩ ink =
      putBody unit level label (fun level => putNodes unit level none children)
        (putCalls unit level (fun kind => kind == .func || kind == .cmd) children) ink := by
  unfold putNode
  cases hk : label.kind <;> rw [hk] at h <;> first | rfl | exact absurd h (by decide)

/-- A body is written between its delimiters if its children are written as `flow` says. -/
theorem putBody_eq (unit : List Char) (level : Nat) {label : Label} (inside : Nat → Ink → Ink)
    (hosted : Ink → Ink) (flow : Nat → Edge → List Char) (ink : Ink)
    (hl : label.layout ≠ some .directChild)
    (h : ∀ level edge ink base, edge.Fits (indentation unit level) ink base →
      inside level ink = (flow level edge).reverse ++ base) :
    putBody unit level label inside hosted ink =
      (delimited (label.layout.getD .inline) (insideText unit level label flow)).reverse ++ ink := by
  unfold putBody insideText
  simp only
  have hinline : label.layout.getD .inline ≠ .directChild := by
    cases hlayout : label.layout with
    | none => simp
    | some layout =>
      rintro rfl
      exact hl hlayout
  cases hlayout : label.layout.getD .inline with
  | directChild => exact absurd hlayout hinline
  | inline =>
    cases hraw : label.content.toList.isEmpty with
    | true =>
      have hin := h level .opened ('\x7b' :: ink) ('\x7b' :: ink) ⟨rfl, .inr ⟨ink, rfl⟩⟩
      simp only [if_true, delimited, Ink.put, List.reverse_singleton, List.singleton_append, hin]
      simp
    | false => simp [delimited, Ink.put]
  | code opening closing =>
    cases hraw : label.content.toList.isEmpty with
    | true =>
      simp only [if_true, delimited]
      rw [h level .filled _ ('>' :: (List.replicate opening '=' ++ ink))
        ⟨by simp [Ink.put], '>', List.replicate opening '=' ++ ink, by simp [Ink.put], by decide⟩]
      simp [Ink.put]
    | false => simp [delimited, Ink.put]
  | block =>
    cases hraw : label.content.toList.isEmpty with
    | true =>
      simp only [if_true, delimited]
      rw [h (level + 1) .begun _ ('\n' :: '\x7b' :: ink) ⟨by simp [Ink.put], '\x7b' :: ink, rfl⟩]
      have htrim := trimWhite_brace ('\n' :: flow (level + 1) .begun) ink
      rw [List.reverse_cons, List.append_assoc, List.singleton_append] at htrim
      rw [htrim]
      simp [Ink.put]
    | false => simp [delimited, Ink.put]

theorem putNodes_nil_eq {unit : List Char} (level : Nat) {prev : Option Kind} {edge : Edge}
    {ink base : Ink} (hf : edge.Fits (indentation unit level) ink base) :
    putNodes unit level prev [] ink = (flowText unit level prev edge []).reverse ++ base := by
  cases edge <;> exact hf.1

theorem putNode_sep {unit : List Char} {level : Nat} {prev : Option Kind} {n : Node} {ink : Ink}
    (h : n.kind = .sep) :
    putNode unit level prev n ink = putSep (indentation unit level) n.label.sepCount ink := by
  obtain ⟨label, children⟩ := n
  have h : label.kind = .sep := h
  rw [putNode, h]

theorem putNode_of_run {unit : List Char} {level : Nat} {prev : Option Kind} {n : Node} {ink : Ink}
    (h : n.kind = .text ∨ n.kind = .literal) :
    putNode unit level prev n ink =
      putText (indentation unit level) prev n.kind n.content.toList ink := by
  obtain ⟨label, children⟩ := n
  rw [putNode]
  rcases h with h | h <;>
  · have hl : label.kind = _ := h
    rw [hl, h]
    rfl

section

variable {g : Grammar} {marked : Bool} {unit : List Char}

/-- A text or a literal in a body. -/
theorem putNode_run (hu : ∀ c ∈ unit, isBlank c = true) {level : Nat} {prev : Option Kind} {edge : Edge} {ink base : Ink} {n : Node}
    {banned signs : List Char} (hf : edge.Fits (indentation unit level) ink base)
    (hk : n.kind = .text ∨ n.kind = .literal) (hn : IsRun banned signs n.content) :
    putNode unit level prev n ink =
        (gapText (indentation unit level) prev edge n ++ nodeText unit level n).reverse ++ base ∧
      n.edgeBehind.Fits (indentation unit level) (putNode unit level prev n ink)
        (putNode unit level prev n ink) := by
  have hi := isBlank_of_mem_indentation hu level
  have hput : putNode unit level prev n ink =
      (gapText (indentation unit level) prev edge n ++ nodeText unit level n).reverse ++ base := by
    rw [putNode_of_run hk, nodeText_of_run unit level hk]
    exact putText_eq hi hf hn.ne_nil
  refine ⟨hput, ?_⟩
  obtain ⟨front, c, hlast, hc, htext⟩ := exists_indented (indentation unit level) hn.solid
  rw [hput, nodeText_of_run unit level hk, htext, edgeBehind_of_run hk, hlast]
  by_cases hb : c = '\x7b'
  · rw [hb, if_pos rfl]
    exact ⟨rfl, .inr ⟨front.reverse ++ (gapText (indentation unit level) prev edge n).reverse ++ base,
      by simp⟩⟩
  · rw [if_neg (by simpa using hb)]
    exact ⟨rfl, c, front.reverse ++ (gapText (indentation unit level) prev edge n).reverse ++ base,
      by simp, hc, hb⟩

section

variable {level : Nat} {prev : Option Kind} {edge : Edge} {ink base : Ink} {n : Node} {rest : List Node}

theorem putNodes_sep_eq (hu : ∀ c ∈ unit, isBlank c = true) (hk : n.kind = .sep)
    (hf : edge.Fits (indentation unit level) ink base) (hc : 0 < n.label.sepCount)
    (hrest : ∀ {ink base : Ink}, Edge.Fits (indentation unit level) .begun ink base →
      putNodes unit level (some .sep) rest ink =
        (flowText unit level (some .sep) .begun rest).reverse ++ base) :
    putNodes unit level prev (n :: rest) ink =
      (flowText unit level prev edge (n :: rest)).reverse ++ base := by
  rw [putNodes, flowText, if_pos hk, putNode_sep hk, List.reverse_append, List.append_assoc, hk]
  exact hrest (putSep_eq (isBlank_of_mem_indentation hu level) hf hc)

theorem putNodes_run_eq {banned signs : List Char} (hu : ∀ c ∈ unit, isBlank c = true)
    (hk : n.kind = .text ∨ n.kind = .literal) (hf : edge.Fits (indentation unit level) ink base)
    (hn : IsRun banned signs n.content)
    (hrest : ∀ {edge : Edge} {ink base : Ink}, edge.Fits (indentation unit level) ink base →
      putNodes unit level (some n.kind) rest ink =
        (flowText unit level (some n.kind) edge rest).reverse ++ base) :
    putNodes unit level prev (n :: rest) ink =
      (flowText unit level prev edge (n :: rest)).reverse ++ base := by
  obtain ⟨hput, hf'⟩ := putNode_run hu hf hk hn
  have hs : n.kind ≠ .sep ∧ n.kind ≠ .configDict := by rcases hk with hk | hk <;> simp [hk]
  rw [putNodes, hrest hf', hput, flowText, if_neg hs.1, if_neg hs.2]
  simp

theorem putNodes_call_eq (hu : ∀ c ∈ unit, isBlank c = true)
    (hk : n.kind ≠ .text ∧ n.kind ≠ .literal ∧ n.kind ≠ .sep ∧ n.kind ≠ .configDict)
    (hf : edge.Fits (indentation unit level) ink base)
    (hput : putNode unit level prev n ink = (nodeText unit level n).reverse ++ ink.space)
    (hends : Ends (nodeText unit level n))
    (hrest : ∀ {edge : Edge} {ink base : Ink}, edge.Fits (indentation unit level) ink base →
      putNodes unit level (some n.kind) rest ink =
        (flowText unit level (some n.kind) edge rest).reverse ++ base) :
    putNodes unit level prev (n :: rest) ink =
      (flowText unit level prev edge (n :: rest)).reverse ++ base := by
  have hgap : gapText (indentation unit level) prev edge n = edgeText (indentation unit level) edge := by
    rw [gapText, if_neg fun h => hk.1 h.1, if_neg fun h => hk.1 h.1]
  rw [putNodes, hput, hrest (.of_ends hends _ _), hf.space (isBlank_of_mem_indentation hu level),
    flowText, if_neg hk.2.2.1, if_neg hk.2.2.2, edgeBehind_of_call ⟨hk.1, hk.2.1⟩, hgap]
  simp

end

mutual

/-- An element is written behind a space. -/
theorem putNode_eq (hu : ∀ c ∈ unit, isBlank c = true) (level : Nat) : ∀ {n : Node}, IsElement g marked n → n.kind ≠ .text →
    ∀ (prev : Option Kind) (ink : Ink),
      putNode unit level prev n ink = (nodeText unit level n).reverse ++ ink.space
  | ⟨label, children⟩, h, hk, prev, ink => by
    unfold IsElement at h
    unfold putNode nodeText
    cases hkind : label.kind <;> rw [hkind] at h <;> try exact h.2.elim
    case text => exact absurd hkind hk
    case func | cmd =>
      simp only
      rw [putClauses_eq hu level rfl h.2.2]
      simp [Ink.put]
    case ref =>
      simp only
      rw [putCalls_eq hu level _ rfl h.2.2]
      simp [Ink.put]
    case varUse => simp [Ink.put]
    case varAssign =>
      simp only
      rw [putCall_eq hu level (by decide) h.2.2 _ rfl]
      simp [Ink.put]

/-- A call that stands alone is written without a space, behind white space. -/
theorem putCall_eq (hu : ∀ c ∈ unit, isBlank c = true) (level : Nat) {kind : Kind} (hk : kind ≠ .text) : ∀ {ns : List Node},
    IsCall g marked kind ns → ∀ ink : Ink, ink.space = ink →
      putNodes unit level none ns ink = (callText unit level ns).reverse ++ ink
  | n :: rest, h, ink, hink => by
    unfold IsCall at h
    obtain ⟨hn, rfl, h⟩ := h
    rw [putNodes, putNodes, callText, putNode_eq hu level h (by rw [hn]; exact hk), hink]

theorem putCalls_eq (hu : ∀ c ∈ unit, isBlank c = true) (level : Nat) (wanted : Kind → Bool) (hw : wanted .func = true) :
    ∀ {ns : List Node}, IsCall g marked .func ns → ∀ ink : Ink,
      putCalls unit level wanted ns ink = (callText unit level ns).reverse ++ ink
  | ⟨label, children⟩ :: rest, h, ink => by
    unfold IsCall at h
    obtain ⟨hn, rfl, h⟩ := h
    have hn : label.kind = .func := hn
    unfold IsElement at h
    rw [hn] at h
    unfold putCalls callText nodeText
    rw [hn, if_pos hw, putCalls, putClauses_eq hu level rfl h.2.2]
    simp [Ink.put, sigil]

theorem putClauses_eq (hu : ∀ c ∈ unit, isBlank c = true) (level : Nat) {rule : BodyRule} {bodyKind : Kind} {param : Option Json}
    {hosts : Bool} (hb : bodyKind.isBody = true) :
    ∀ {ns : List Node}, IsClauses g marked rule bodyKind param hosts ns → ∀ ink : Ink,
      putClauses unit level ns ink = (clausesText unit level ns).reverse ++ ink
  | [], _, _ => rfl
  | ⟨label, children⟩ :: rest, h, ink => by
    unfold putClauses
    obtain ⟨hk, -, -, value, -, hrest⟩ | ⟨hk, -, -, hrest⟩ | ⟨hk, -, hl, -, rfl, -, hcall⟩ |
      ⟨hk, -, hl, hbody, hrest⟩ := h.cases
    · have hc : isClause label.kind = true := by rw [hk]; rfl
      rw [clausesText_of_isClause _ _ _ _ hc, nodeText_of_param _ _ _ hk]
      show putClauses unit level rest (if isClause label.kind = true then _ else _) = _
      rw [if_pos hc, putClauses_eq hu level hb hrest, putNode, hk]
      simp [Ink.put]
    · rw [clausesText_of_result _ _ _ _ hk]
      show putClauses unit level rest (if isClause label.kind = true then _ else _) = _
      rw [if_neg (by rw [hk]; decide), putClauses_eq hu level hb hrest]
    · have hc : isClause label.kind = true := isClause_of_isBody (hk ▸ hb)
      rw [clausesText_of_isClause _ _ _ _ hc, nodeText_of_isBody _ _ _ (hk ▸ hb), if_pos hl]
      show putClauses unit level [] (if isClause label.kind = true then _ else _) = _
      rw [if_pos hc, putNode_of_isBody (hk ▸ hb), putBody, hl]
      show putClauses unit level [] (putCalls unit level _ children ink) = _
      rw [putCalls_eq hu level _ rfl hcall]
      simp [putClauses, clausesText]
    · have hc : isClause label.kind = true := isClause_of_isBody (hk ▸ hb)
      rw [clausesText_of_isClause _ _ _ _ hc, nodeText_of_isBody _ _ _ (hk ▸ hb), if_neg hl]
      show putClauses unit level rest (if isClause label.kind = true then _ else _) = _
      rw [if_pos hc, putClauses_eq hu level hb hrest, putNode_of_isBody (hk ▸ hb),
        putBody_eq unit level _ _ (fun level edge => flowText unit level none edge children) ink hl]
      · simp
      · intro level edge ink base hf
        obtain ⟨inBox, hflow⟩ | ⟨space, value, rfl⟩ := hbody.children_cases
        · exact putNodes_eq hu level hflow hf
        · exact @putNodes_nil_eq unit level (some .configDict) edge ink base hf

/-- The nodes of a body. -/
theorem putNodes_eq (hu : ∀ c ∈ unit, isBlank c = true) (level : Nat) {inBox : Bool} : ∀ {ns : List Node} {prev : Option Kind} {edge : Edge}
    {ink base : Ink}, IsFlow g marked inBox prev ns → edge.Fits (indentation unit level) ink base →
      putNodes unit level prev ns ink = (flowText unit level prev edge ns).reverse ++ base
  | [], prev, edge, ink, base, h, hf => putNodes_nil_eq level hf
  | n :: rest, prev, edge, ink, base, h, hf => by
    have hi := isBlank_of_mem_indentation hu level
    obtain ⟨hrest, ⟨-, hk, -, -, hcount, -⟩ | ⟨-, hk, helement⟩ | ⟨-, hitem⟩⟩ := h.cases
    · exact putNodes_sep_eq hu hk hf (by rw [hcount]; decide) fun hf' =>
        putNodes_eq hu level (hk ▸ hrest) hf'
    · by_cases ht : n.kind = .text
      · exact putNodes_run_eq hu (.inl ht) hf (helement.of_text ht).1 fun hf' =>
          putNodes_eq hu level hrest hf'
      · have hl : n.kind ≠ .literal := helement.kind_ne (by decide)
        have hd : n.kind ≠ .configDict := helement.kind_ne (by decide)
        exact putNodes_call_eq hu ⟨ht, hl, hk, hd⟩ hf (putNode_eq hu level helement ht prev ink)
          (ends_nodeText unit level helement ht) fun hf' => putNodes_eq hu level hrest hf'
    · obtain ⟨-, -, hitem⟩ := hitem
      cases hk : n.kind <;> rw [hk] at hitem <;> try exact hitem.elim
      case literal =>
        exact putNodes_run_eq hu (.inr hk) hf hitem.2.1 fun hf' => putNodes_eq hu level hrest hf'
      case varUse =>
        obtain ⟨label, children⟩ := n
        have hl : label.kind = .varUse := hk
        have hput : putNode unit level prev ⟨label, children⟩ ink =
            (nodeText unit level ⟨label, children⟩).reverse ++ ink.space := by
          rw [putNode, nodeText, hl]
          simp [Ink.put]
        have hends : Ends (nodeText unit level ⟨label, children⟩) := by
          rw [nodeText, hl]
          exact Ends.sign (by decide) hitem.2.all
        exact putNodes_call_eq hu (by simp [hk]) hf hput hends fun hf' => putNodes_eq hu level hrest hf'
      case sep =>
        obtain ⟨-, count, hcount, hvalue⟩ := hitem
        refine putNodes_sep_eq hu hk hf ?_ fun hf' => putNodes_eq hu level (hk ▸ hrest) hf'
        rw [sepCount_of_value hvalue]
        omega

end

end

/-- The text of a document. -/
theorem printWith_eq {g : Grammar} {marked : Bool} {unit : String} {document : Node}
    (hu : ∀ c ∈ unit.toList, isBlank c = true) (h : IsFlow g marked true none document.children) :
    document.printWith unit = String.ofList (flowText unit.toList 0 none .opened document.children) := by
  rw [printWith, putNodes_eq hu 0 h (show Edge.Fits _ .opened [] [] from ⟨rfl, .inl rfl⟩)]
  simp

end Node

end Evomark
