import Evomark.Proofs.Document.Written
import Evomark.Proofs.Text.Visible
/-!
# What is visible of a printed document

The visible characters of a printed document are those of its nodes, one after the other
(`Node.seenAll`): however the printer spaces, indents and trims, it neither adds nor drops one
(`Node.visible_printWith`). This holds of every document, whether or not it was read from a source.
-/

namespace Evomark

open Text

namespace Ink

/-- The visible characters of what has been written. -/
def seen (ink : Ink) : List Char := visible ink.reverse

@[simp] theorem seen_put (text : List Char) (ink : Ink) : (ink.put text).seen = ink.seen ++ visible text := by
  simp [seen, put]

@[simp] theorem seen_space (ink : Ink) : ink.space.seen = ink.seen := by
  cases ink with
  | nil => rfl
  | cons c more =>
    rw [space]
    split
    · rfl
    · exact (seen_put [' '] (c :: more)).trans (List.append_nil _)

theorem seen_dropWhile {p : Char → Bool} (h : ∀ c, p c = true → isWhite c = true) (ink : Ink) :
    seen (ink.dropWhile p) = ink.seen := by
  rw [seen, visible_reverse, visible_dropWhile h, ← visible_reverse, seen]

@[simp] theorem seen_trimBlanks (ink : Ink) : ink.trimBlanks.seen = ink.seen :=
  seen_dropWhile (fun _ => isWhite_of_isBlank) ink

@[simp] theorem seen_trimWhite (ink : Ink) : ink.trimWhite.seen = ink.seen :=
  seen_dropWhile (fun _ h => h) ink

theorem seen_foldl_put {indent : List Char} (hi : visible indent = []) (more : List (List Char))
    (ink : Ink) :
    seen (more.foldl (fun ink line => ink.put ('\n' :: (indent ++ line))) ink) =
      ink.seen ++ more.flatMap visible := by
  induction more generalizing ink with
  | nil => simp
  | cons line more ih =>
    have hline : visible ('\n' :: (indent ++ line)) = visible line := by
      show visible (['\n'] ++ (indent ++ line)) = _
      rw [visible_append, visible_append, hi]
      rfl
    rw [List.foldl_cons, ih, seen_put, hline, List.append_assoc, List.flatMap_cons]

/-- However the lines of a text are indented, the text is seen. -/
theorem seen_putLines {indent : List Char} (hi : visible indent = []) (text : List Char) (ink : Ink) :
    (ink.putLines indent text).seen = ink.seen ++ visible text := by
  obtain ⟨first, more, h⟩ := exists_splitLines text
  have htext : visible text = visible first ++ more.flatMap visible := by
    rw [← List.flatMap_cons, ← h, ← visible_joinLines, joinLines_splitLines]
  rw [putLines, h]
  show seen (more.foldl _ (ink.put first)) = _
  rw [seen_foldl_put hi, seen_put, htext, List.append_assoc]

end Ink

namespace Node

open Ink

/-! ## What is visible of a node -/

/-- What is visible of a body: the calls it hosts, or the text it keeps, or its children between the
delimiters. -/
def seenBody (label : Label) (inside hosted : List Char) : List Char :=
  match label.layout.getD .inline with
  | .directChild => hosted
  | layout =>
    delimited layout (if label.content.toList.isEmpty then inside else visible label.content.toList)

mutual

/-- The visible characters of a node. -/
def seen : Node → List Char
  | ⟨label, children⟩ =>
    let name := visible label.content.toList
    match label.kind with
    | .root => seenAll children
    | .text | .literal => name
    | .func => '#' :: name ++ seenClauses children
    | .cmd => '$' :: name ++ seenClauses children
    | .varUse => '%' :: name
    | .varAssign => '%' :: name ++ '=' :: seenAll children
    | .ref => '@' :: name ++ '=' :: seenCalls (· == .func) children
    | .funcParam => '(' :: visible (paramText label) ++ [')']
    | .body | .funcBody =>
      seenBody label (seenAll children) (seenCalls (fun kind => kind == .func || kind == .cmd) children)
    | .sep | .warning | .error | .configDict => []

/-- The visible characters of some nodes, one after the other. -/
def seenAll : List Node → List Char
  | [] => []
  | n :: rest => seen n ++ seenAll rest

/-- The visible characters of the clauses among the nodes. -/
def seenClauses : List Node → List Char
  | [] => []
  | n :: rest => (if isClause n.kind then seen n else []) ++ seenClauses rest

/-- The visible characters of the calls among the nodes that `wanted` chooses. -/
def seenCalls (wanted : Kind → Bool) : List Node → List Char
  | [] => []
  | ⟨label, children⟩ :: rest =>
    (if wanted label.kind then
      sigil label.kind :: visible label.content.toList ++ seenClauses children
    else []) ++ seenCalls wanted rest

end

theorem seenAll_append (ns ms : List Node) : seenAll (ns ++ ms) = seenAll ns ++ seenAll ms := by
  induction ns with
  | nil => rfl
  | cons n rest ih => rw [List.cons_append, seenAll, seenAll, ih, List.append_assoc]

theorem seenClauses_append (ns ms : List Node) :
    seenClauses (ns ++ ms) = seenClauses ns ++ seenClauses ms := by
  induction ns with
  | nil => rfl
  | cons n rest ih => rw [List.cons_append, seenClauses, seenClauses, ih, List.append_assoc]

theorem seenAll_singleton (n : Node) : seenAll [n] = n.seen := by
  rw [seenAll, seenAll, List.append_nil]

/-- A call is seen in the same way wherever it stands. -/
theorem seenCalls_singleton {wanted : Kind → Bool} {n : Node} (hk : n.kind = .func ∨ n.kind = .cmd)
    (hw : wanted n.kind = true) : seenCalls wanted [n] = n.seen := by
  obtain ⟨label, children⟩ := n
  have hw : wanted label.kind = true := hw
  rw [seenCalls, seenCalls, if_pos hw, List.append_nil, seen]
  rcases hk with hk | hk <;>
  · have hk : label.kind = _ := hk
    rw [hk]
    rfl

/-! ## The printer -/

theorem seen_putSep {indent : List Char} (hi : visible indent = []) (count : Nat) (ink : Ink) :
    (putSep indent count ink).seen = ink.seen := by
  have hbreaks :
      visible (if ink.trimBlanks.head? = some '\n' then ['\n'] else List.replicate count '\n') = [] := by
    refine visible_blank fun c hc => ?_
    split at hc
    · rw [List.mem_singleton.1 hc]
      rfl
    · rw [List.eq_of_mem_replicate hc]
      rfl
  simp only [putSep, seen_put, seen_trimBlanks, hbreaks, hi, List.append_nil]

theorem seen_putText {indent : List Char} (hi : visible indent = []) (prev : Option Kind) (kind : Kind)
    (content : List Char) (ink : Ink) :
    (putText indent prev kind content ink).seen = ink.seen ++ visible content := by
  have hbreak : visible ['\n'] = [] := rfl
  have hbreaks : visible ['\n', '\n'] = [] := rfl
  unfold putText
  simp only
  split
  · rename_i h
    rw [List.isEmpty_iff.1 h, visible_nil, List.append_nil]
  · rw [seen_putLines hi]
    congr 1
    split
    · simp [hi, hbreaks]
    · split
      · simp [hi, hbreak]
      · exact seen_space ink

theorem seen_putBody {unit : List Char} (hu : ∀ level, visible (indentation unit level) = [])
    (level : Nat) (label : Label) {inside : Nat → Ink → Ink} {hosted : Ink → Ink}
    {insideSeen hostedSeen : List Char}
    (hinside : ∀ level ink, (inside level ink).seen = ink.seen ++ insideSeen)
    (hhosted : ∀ ink, (hosted ink).seen = ink.seen ++ hostedSeen) (ink : Ink) :
    (putBody unit level label inside hosted ink).seen =
      ink.seen ++ seenBody label insideSeen hostedSeen := by
  have hfence : ∀ n, visible (List.replicate n '=') = List.replicate n '=' := visible_replicate rfl
  have hopen : visible ['\x7b'] = ['\x7b'] := rfl
  have hclose : visible ['\x7d'] = ['\x7d'] := rfl
  have hbreak : visible ['\n'] = [] := rfl
  have harrow : visible ['>'] = ['>'] := rfl
  have hbar : visible ['|'] = ['|'] := rfl
  unfold putBody seenBody
  simp only
  cases label.layout.getD .inline with
  | directChild => exact hhosted ink
  | inline =>
    cases label.content.toList.isEmpty <;>
      simp [hinside, delimited, hopen, hclose]
  | code opening closing =>
    cases label.content.toList.isEmpty <;>
      simp [hinside, delimited, hfence, harrow, hbar]
  | block =>
    cases label.content.toList.isEmpty <;>
      simp [hinside, delimited, hopen, hclose, hbreak, hu]

mutual

theorem seen_putNode {unit : List Char} (hu : ∀ level, visible (indentation unit level) = [])
    (level : Nat) (prev : Option Kind) : ∀ (n : Node) (ink : Ink),
    (putNode unit level prev n ink).seen = ink.seen ++ n.seen
  | ⟨label, children⟩, ink => by
    have hsign : ∀ c : Char, isWhite c = false → visible [c] = [c] := fun c h => visible_cons h []
    have hassign : visible [' ', '=', ' '] = ['='] := rfl
    unfold putNode seen
    cases label.kind with
    | root => exact seen_putNodes hu level none children ink
    | text => exact seen_putText (hu level) prev .text _ ink
    | literal => exact seen_putText (hu level) prev .literal _ ink
    | func =>
      simp only [seen_putClauses hu level children, seen_put, seen_space, hsign '#' rfl]
      simp
    | cmd =>
      simp only [seen_putClauses hu level children, seen_put, seen_space, hsign '$' rfl]
      simp
    | varUse => simp [hsign '%' rfl]
    | varAssign =>
      simp only [seen_putNodes hu level none children, seen_put, seen_space, hsign '%' rfl, hassign]
      simp
    | ref =>
      simp only [seen_putCalls hu level _ children, seen_put, seen_space, hsign '@' rfl, hsign '=' rfl]
      simp
    | sep => exact (seen_putSep (hu level) _ ink).trans (List.append_nil _).symm
    | funcParam => simp [hsign '(' rfl, hsign ')' rfl]
    | body | funcBody =>
      exact seen_putBody hu level label (fun level ink => seen_putNodes hu level none children ink)
        (seen_putCalls hu level _ children) ink
    | warning | error | configDict => exact (List.append_nil _).symm

theorem seen_putNodes {unit : List Char} (hu : ∀ level, visible (indentation unit level) = [])
    (level : Nat) (prev : Option Kind) : ∀ (ns : List Node) (ink : Ink),
    (putNodes unit level prev ns ink).seen = ink.seen ++ seenAll ns
  | [], ink => by rw [putNodes, seenAll, List.append_nil]
  | n :: rest, ink => by
    rw [putNodes, seen_putNodes hu level (some n.kind) rest, seen_putNode hu level prev n, seenAll,
      List.append_assoc]

theorem seen_putClauses {unit : List Char} (hu : ∀ level, visible (indentation unit level) = [])
    (level : Nat) : ∀ (ns : List Node) (ink : Ink),
    (putClauses unit level ns ink).seen = ink.seen ++ seenClauses ns
  | [], ink => by rw [putClauses, seenClauses, List.append_nil]
  | n :: rest, ink => by
    rw [putClauses, seen_putClauses hu level rest, seenClauses, ← List.append_assoc]
    split
    · rw [seen_putNode hu level none n]
    · rw [List.append_nil]

theorem seen_putCalls {unit : List Char} (hu : ∀ level, visible (indentation unit level) = [])
    (level : Nat) (wanted : Kind → Bool) : ∀ (ns : List Node) (ink : Ink),
    (putCalls unit level wanted ns ink).seen = ink.seen ++ seenCalls wanted ns
  | [], ink => by rw [putCalls, seenCalls, List.append_nil]
  | ⟨label, children⟩ :: rest, ink => by
    have hsigil : visible [sigil label.kind] = [sigil label.kind] := by
      unfold sigil
      split <;> rfl
    rw [putCalls, seen_putCalls hu level wanted rest, seenCalls, ← List.append_assoc]
    split
    · rw [seen_putClauses hu level children]
      simp [hsigil]
    · rw [List.append_nil]

end

/-- Printing neither adds nor drops a visible character. -/
theorem visible_printWith {unit : String} (hu : IsBlankText unit.toList) (n : Node) :
    visible (n.printWith unit).toList = seenAll n.children := by
  have hindent : ∀ level, visible (indentation unit.toList level) = [] :=
    fun level => visible_blank fun c hc => hu c (mem_of_mem_indentation hc)
  rw [printWith, String.toList_ofList]
  exact seen_putNodes hindent 0 none n.children []

end Node

end Evomark
