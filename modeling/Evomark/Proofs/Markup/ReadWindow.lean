import Evomark.Proofs.Document.Reread
import Evomark.Proofs.Document.Printing
import Evomark.Proofs.Markup.Segmented
/-!
# Reading windows piece by piece

`ReadsAs g cs ns` says that a window onto `cs` is read to its end without a warning and gives the
nodes `ns`, wherever it stands in a source. It follows piece by piece: line feeds
(`ReadsAs.line`), prose (`ReadsAs.prose`) and elements (`ReadsAs.element`) may stand before what is
read, and gaps before elements make no difference (`ReadsAs.gap`).
-/

namespace Evomark

open Markup

/-! ## Prose -/

namespace Segment

/-- Neighbours at which prose goes on: they start no construct and are not both line feeds. -/
def Runs (c d : Char) : Prop := Apart ['$', '%'] c d ∧ ¬ (c = '\n' ∧ d = '\n')

/-- Prose goes on through a text without number and reference signs. -/
theorem splitProse_append_eq {text : List Char} (more : List Char) (ha : ∀ c ∈ text, c ∉ ['#', '@'])
    (h : (text ++ more.take 1).IsChain Runs) :
    splitProse (text ++ more) = (text ++ (splitProse more).1, (splitProse more).2) := by
  induction text with
  | nil => rfl
  | cons c rest ih =>
    rw [List.forall_mem_cons] at ha
    rw [List.cons_append, List.isChain_cons] at h
    have hsign : ¬ (c == '#' || c == '@') = true := by simpa using ha.1
    have hhead : ∀ d, (rest ++ more).head? = some d → Runs c d := by
      intro d hd
      refine h.1 d ?_
      cases rest with
      | nil => cases more <;> simp_all
      | cons e tail => simpa using hd
    have hstart : ¬ ((c == '$' || c == '%') && Window.startsConstruct c (c :: (rest ++ more))) = true := by
      intro hs
      rw [Bool.and_eq_true] at hs
      exact not_startsConstruct (by simpa using hs.1) (fun d hd => (hhead d hd).1) hs.2
    have hbreak : ¬ (c == '\n' && (rest ++ more).head? == some '\n') = true := by
      intro hb
      simp only [Bool.and_eq_true, beq_iff_eq] at hb
      exact (hhead '\n' hb.2).2 ⟨hb.1, rfl⟩
    rw [List.cons_append, splitProse, if_neg hsign, if_neg hstart, if_neg hbreak, ih ha.2 h.2]
    rfl

/-- The text starts an element: no prose is read from it. -/
def Starts (cs : List Char) : Prop :=
  ∃ sign rest, cs = sign :: rest ∧
    (sign = '#' ∨ sign = '@' ∨ ((sign = '$' ∨ sign = '%') ∧ Window.startsConstruct sign cs = true))

theorem Starts.splitProse_eq {cs : List Char} (h : Starts cs) : splitProse cs = ([], cs) := by
  obtain ⟨sign, rest, rfl, h⟩ := h
  rw [splitProse]
  rcases h with rfl | rfl | ⟨hs, hc⟩
  · rfl
  · rfl
  · rw [if_neg (by rcases hs with rfl | rfl <;> decide), if_pos]
    rw [hc]
    rcases hs with rfl | rfl <;> rfl

theorem Starts.append {cs : List Char} (h : Starts cs) (more : List Char) : Starts (cs ++ more) := by
  obtain ⟨sign, rest, rfl, h⟩ := h
  refine ⟨sign, rest ++ more, rfl, h.imp_right fun h => h.imp_right fun h => ⟨h.1, ?_⟩⟩
  cases rest with
  | nil => simp [Window.startsConstruct] at h
  | cons d tail => exact h.2

theorem Starts.runs {cs : List Char} (h : Starts cs) {c d : Char} (hd : cs.head? = some d) : Runs c d := by
  obtain ⟨sign, rest, rfl, h⟩ := h
  obtain rfl := Option.some.inj hd
  have hsign : sign = '#' ∨ sign = '@' ∨ sign = '$' ∨ sign = '%' :=
    h.imp_right fun h => h.imp_right And.left
  rcases hsign with rfl | rfl | rfl | rfl <;>
    exact ⟨fun h => absurd h.2 (by decide), fun h => absurd h.2 (by decide)⟩

end Segment

/-! ## Segments of a window -/

namespace Window

theorem segments_nil (offset : Nat) : (Window.mk offset []).segments = ([], ⟨offset, []⟩) := by
  rw [segments]
  simp

theorem segments_break (offset : Nat) (cs : List Char) :
    (Window.mk offset ('\n' :: cs)).segments = (Window.mk offset ('\n' :: cs)).tail.segments := by
  rw [segments]
  simp

theorem segments_of_read? {w next : Window} {segment : Segment} (hw : w.chars.head? ≠ some '\n')
    (h : Segment.read? w = some (segment, next)) :
    w.segments = (segment :: next.segments.1, next.segments.2) := by
  rw [segments.eq_def]
  have hne : w.chars ≠ [] := by
    intro he
    have := Segment.length_read? h
    simp [length, he] at this
  rw [dif_neg hne, if_neg hw]
  split
  · rename_i he
    rw [h] at he
    cases he
  · rename_i he
    rw [h] at he
    obtain ⟨rfl, rfl⟩ := Prod.mk.inj (Option.some.inj he)
    rfl

end Window

/-! ## Readings -/

namespace Markup

variable {g : Grammar} {cs : List Char} {ns : List Node}

/-- The finding gives a node and nothing else, from windows read to their ends. -/
structure Finding.Gives (f : Finding) (n : Node) : Prop where
  complete : f.complete = true
  warnings : f.warnings = []
  node : f.node.map Node.unplaced = some n

/-- The contents are nodes and nothing else, from windows read to their ends. -/
structure Contents.Gives (c : Contents) (ns : List Node) : Prop where
  rest : c.rest.chars = []
  findings : ∀ f ∈ c.findings, f.complete = true ∧ f.warnings = []
  nodes : Node.unplacedAll (c.findings.filterMap (·.node)) = ns

/-- A window onto the text is read as these nodes. -/
def ReadsAs (g : Grammar) (cs : List Char) (ns : List Node) : Prop :=
  ∀ offset fuel, cs.length < fuel → (readWindow g fuel ⟨offset, cs⟩).Gives ns

/-- The nodes of prose. -/
def proseNodes (raw : List Char) : List Node :=
  if Text.normalizeLines raw = [] then []
  else [.leaf { kind := .text, content := String.ofList (Text.normalizeLines raw) }]

/-- What may stand behind an element: nothing, or a space or a line feed. Behind a use of a variable
no equality sign may follow on its line. -/
def Follows (kind : Kind) (rest : List Char) : Prop :=
  (∀ c, rest.head? = some c → c = ' ' ∨ c = '\n') ∧
    (kind = .varUse → (rest.dropWhile Segment.isSpace).head? ≠ some '=')

/-- The text of an element, whatever may follow it, is read as one node. -/
def ReadsElement (g : Grammar) (text : List Char) (n : Node) : Prop :=
  ∀ offset rest, Follows n.kind rest →
    ∃ segment stop, Segment.read? ⟨offset, text ++ rest⟩ = some (segment, ⟨stop, rest⟩) ∧
      ∀ fuel, text.length ≤ fuel → (readSegment g (readWindow g fuel) segment).Gives n

namespace ReadsAs

theorem nil : ReadsAs g [] [] := by
  intro offset fuel hf
  obtain ⟨fuel, rfl⟩ := Nat.exists_eq_succ_of_ne_zero (Nat.ne_of_gt hf)
  simp only [readWindow, Window.segments_nil]
  exact ⟨rfl, by simp, rfl⟩

theorem line (h : ReadsAs g cs ns) : ReadsAs g ('\n' :: cs) ns := by
  intro offset fuel hf
  obtain ⟨fuel, rfl⟩ := Nat.exists_eq_succ_of_ne_zero (Nat.ne_of_gt (Nat.zero_lt_of_lt hf))
  have htail := h (offset + Text.byteLength ['\n']) (fuel + 1) (Nat.lt_of_succ_lt hf)
  simp only [readWindow, Window.segments_break] at htail ⊢
  exact htail

/-- A segment in front of what is read. -/
theorem segment {text rest : List Char} (hw : (text ++ rest).head? ≠ some '\n') (hpos : text ≠ [])
    {found : List Node}
    (hs : ∀ offset, ∃ segment stop, Segment.read? ⟨offset, text ++ rest⟩ = some (segment, ⟨stop, rest⟩) ∧
      ∀ fuel, text.length ≤ fuel →
        let f := readSegment g (readWindow g fuel) segment
        f.complete = true ∧ f.warnings = [] ∧ Node.unplacedAll f.node.toList = found)
    (h : ReadsAs g rest ns) : ReadsAs g (text ++ rest) (found ++ ns) := by
  intro offset fuel hf
  obtain ⟨fuel, rfl⟩ := Nat.exists_eq_succ_of_ne_zero (Nat.ne_of_gt (Nat.zero_lt_of_lt hf))
  obtain ⟨segment, stop, hread, hgives⟩ := hs offset
  have hlength : 0 < text.length := List.length_pos_iff.2 hpos
  rw [List.length_append] at hf
  obtain ⟨hrest, hfindings, hnodes⟩ := h stop (fuel + 1) (by omega)
  obtain ⟨hcomplete, hwarnings, hnode⟩ := hgives fuel (by omega)
  simp only [readWindow, Window.segments_of_read? hw hread, List.map_cons] at hrest hfindings hnodes ⊢
  refine ⟨hrest, ?_, ?_⟩
  · rw [List.forall_mem_cons]
    exact ⟨⟨hcomplete, hwarnings⟩, hfindings⟩
  · simp only
    rw [List.filterMap_eq_flatMap_toList] at hnodes ⊢
    rw [List.flatMap_cons, Node.unplacedAll_append, hnode, hnodes]

/-- Prose in front of what is read. -/
theorem prose {raw rest : List Char} (hw : raw.head? ≠ some '\n') (hpos : raw ≠ [])
    (hp : Segment.splitProse (raw ++ rest) = (raw, rest)) (h : ReadsAs g rest ns) :
    ReadsAs g (raw ++ rest) (proseNodes raw ++ ns) := by
  refine h.segment ?_ hpos fun offset => ?_
  · obtain ⟨c, more, rfl⟩ := List.exists_cons_of_ne_nil hpos
    exact hw
  have hread : Segment.prose? ⟨offset, raw ++ rest⟩ =
      some (.prose raw, (Window.mk offset (raw ++ rest)).after raw rest) := by
    rw [Segment.prose?]
    simp only [hp]
    rw [if_neg (by simpa using hpos)]
  refine ⟨.prose raw, offset + Text.byteLength raw, ?_, fun fuel hf => ?_⟩
  · rw [Segment.read?, hread]
    rfl
  · simp only [readSegment, proseNodes, List.isEmpty_iff]
    by_cases hn : Text.normalizeLines raw = []
    · rw [if_pos hn, if_pos hn]
      exact ⟨rfl, rfl, rfl⟩
    · rw [if_neg hn, if_neg hn]
      exact ⟨rfl, rfl, rfl⟩

/-- An element in front of what is read. -/
theorem element {text rest : List Char} {n : Node} (hs : Segment.Starts text) (he : ReadsElement g text n)
    (hstop : Follows n.kind rest) (h : ReadsAs g rest ns) : ReadsAs g (text ++ rest) (n :: ns) := by
  obtain ⟨sign, more, rfl, hsign⟩ := hs
  show ReadsAs g (sign :: more ++ rest) ([n] ++ ns)
  refine h.segment ?_ (List.cons_ne_nil _ _) fun offset => ?_
  · intro hn
    obtain rfl : sign = '\n' := Option.some.inj hn
    rcases hsign with h | h | ⟨h | h, -⟩ <;> exact absurd h (by decide)
  · obtain ⟨segment, stop, hread, hgives⟩ := he offset rest hstop
    refine ⟨segment, stop, hread, fun fuel hf => ?_⟩
    obtain ⟨hcomplete, hwarnings, hnode⟩ := hgives fuel hf
    obtain ⟨m, hm, rfl⟩ := Option.map_eq_some_iff.1 hnode
    exact ⟨hcomplete, hwarnings, by rw [hm]; rfl⟩

end ReadsAs

/-! ## Gaps and texts -/

theorem isWhite_of_isGapChar {c : Char} (h : isGapChar c = true) : Text.isWhite c = true := by
  simp only [isGapChar, Bool.or_eq_true, beq_iff_eq] at h
  rcases h with ((rfl | rfl) | rfl) | rfl <;> rfl

theorem isGapChar_of_isBlank {c : Char} (h : Text.isBlank c = true) : isGapChar c = true := by
  simp only [Text.isBlank, Bool.or_eq_true, beq_iff_eq] at h
  rcases h with rfl | rfl <;> rfl

theorem not_sign_of_isGapChar {c : Char} (h : isGapChar c = true) : c ∉ ['#', '@'] := by
  intro hs
  have hs : c = '#' ∨ c = '@' := by simpa using hs
  rcases hs with rfl | rfl <;> exact absurd h (by decide)

theorem runs_of_isGapChar {c d : Char} (h : isGapChar c = true ∨ isGapChar d = true)
    (hb : ¬ (c = '\n' ∧ d = '\n')) : Segment.Runs c d := by
  refine ⟨fun hsign => ?_, hb⟩
  rcases h with h | h
  · have hc : c = '$' ∨ c = '%' := by simpa using hsign.1
    rcases hc with rfl | rfl <;> exact absurd h (by decide)
  · simp only [isGapChar, Bool.or_eq_true, beq_iff_eq] at h
    rcases h with ((rfl | rfl) | rfl) | rfl <;> exact absurd hsign.2 (by decide)

theorem runs_of_apart {text : List Char} (h : text.IsChain (Apart ['$', '%']))
    (hb : text.IsChain fun c d => ¬ (c = '\n' ∧ d = '\n')) : text.IsChain Segment.Runs := by
  induction text with
  | nil => exact .nil
  | cons c rest ih =>
    rw [List.isChain_cons] at h hb ⊢
    exact ⟨fun d hd => ⟨h.1 d hd, hb.1 d hd⟩, ih h.2 hb.2⟩

/-- A gap without an empty line, or the part of it before its first empty line. -/
theorem gap_cases {ws : List Char} (h : ∀ c ∈ ws, isGapChar c = true) :
    ws.IsChain Segment.Runs ∨
      ∃ front back, ws = front ++ '\n' :: '\n' :: back ∧ (front ++ ['\n']).IsChain Segment.Runs := by
  induction ws with
  | nil => exact .inl .nil
  | cons c rest ih =>
    rw [List.forall_mem_cons] at h
    by_cases hb : c = '\n' ∧ rest.head? = some '\n'
    · obtain ⟨rfl, hb⟩ := hb
      obtain ⟨back, rfl⟩ := List.head?_eq_some_iff.1 hb
      exact .inr ⟨[], back, rfl, .singleton _⟩
    have hc : ∀ d, rest.head? = some d → Segment.Runs c d := fun d hd =>
      runs_of_isGapChar (.inl h.1) fun hcd => hb ⟨hcd.1, hd.trans (congrArg some hcd.2)⟩
    obtain hrest | ⟨front, back, rfl, hfront⟩ := ih h.2
    · exact .inl (List.isChain_cons.2 ⟨hc, hrest⟩)
    · refine .inr ⟨c :: front, back, rfl, List.isChain_cons.2 ⟨fun d hd => hc d ?_, hfront⟩⟩
      cases front <;> exact hd

theorem proseNodes_of_blank {ws : List Char} (h : ∀ c ∈ ws, isGapChar c = true) : proseNodes ws = [] :=
  if_pos (Text.normalizeLines_blank fun c hc => isWhite_of_isGapChar (h c hc))

/-- What follows prose without a further character of it: nothing, or an element. -/
theorem prose_gap {ws : List Char} (hws : ∀ c ∈ ws, isGapChar c = true) (hchain : ws.IsChain Segment.Runs)
    (hcs : cs = [] ∨ Segment.Starts cs) : Segment.splitProse (ws ++ cs) = (ws, cs) := by
  have hsplit : Segment.splitProse cs = ([], cs) := by
    rcases hcs with rfl | hs
    · rfl
    · exact hs.splitProse_eq
  rw [Segment.splitProse_append_eq cs (fun c hc hs => ?_), hsplit, List.append_nil]
  · rw [List.isChain_append]
    refine ⟨hchain, ?_, fun c hc d hd => ?_⟩
    · cases cs <;> simp
    · have hd : cs.head? = some d := by rwa [List.head?_take, if_neg (by decide)] at hd
      rcases hcs with rfl | hs
      · exact absurd hd (by simp)
      · exact hs.runs hd
  · exact not_sign_of_isGapChar (hws c hc) hs

section

variable {content : String} {indent : List Char}

theorem exists_head?_indented (indent : List Char) (hc : IsProse content) :
    ∃ first, (Text.indented indent content.toList).head? = some first ∧ '\n' ≠ first := by
  obtain ⟨first, more, hfirst, hwhite⟩ := hc.solid.head
  refine ⟨first, by rw [Text.head?_indented, hfirst, List.head?_cons], ?_⟩
  rintro rfl
  exact absurd hwhite (by decide)

theorem runs_indented (hc : IsProse content) (hi : ∀ c ∈ indent, Text.isBlank c = true) :
    (Text.indented indent content.toList).IsChain Segment.Runs := by
  refine Text.isChain_indented (fun c hmem d => ?_) ?_
  · have hgap : isGapChar c = true := isGapChar_of_isBlank (hi c hmem)
    have hb : c ≠ '\n' := by
      rintro rfl
      exact absurd (hi _ hmem) (by decide)
    exact ⟨runs_of_isGapChar (.inl hgap) fun h => hb h.1, runs_of_isGapChar (.inr hgap) fun h => hb h.2⟩
  · have hbreaks := Text.isChain_break_normalizeLines content.toList
    rw [hc.normal] at hbreaks
    exact runs_of_apart hc.apart hbreaks

theorem not_sign_of_mem_indented (hc : IsProse content) (hi : ∀ c ∈ indent, Text.isBlank c = true) :
    ∀ c ∈ Text.indented indent content.toList, c ∉ ['#', '@'] := by
  intro c hmem
  obtain ⟨d, hd, hcd⟩ := List.mem_flatMap.1 hmem
  split at hcd
  · rcases List.mem_cons.1 hcd with rfl | hcd
    · decide
    · exact not_sign_of_isGapChar (isGapChar_of_isBlank (hi c hcd))
  · rw [List.mem_singleton.1 hcd]
    exact hc.allowed d hd

/-- Prose goes on through a text between gaps. -/
theorem splitProse_text {ws more : List Char} (hc : IsProse content)
    (hi : ∀ c ∈ indent, Text.isBlank c = true) (hws : ∀ c ∈ ws, isGapChar c = true)
    (hchain : ws.IsChain Segment.Runs)
    (hnext : ∀ c, c ≠ '\n' → ∀ d, more.head? = some d → Segment.Runs c d) :
    Segment.splitProse (ws ++ Text.indented indent content.toList ++ more) =
      (ws ++ Text.indented indent content.toList ++ (Segment.splitProse more).1,
        (Segment.splitProse more).2) := by
  refine Segment.splitProse_append_eq more ?_ ?_
  · rw [List.forall_mem_append]
    exact ⟨fun c hmem => not_sign_of_isGapChar (hws c hmem), not_sign_of_mem_indented hc hi⟩
  obtain ⟨front, last, -, hlastwhite, hlast⟩ := exists_indented indent hc.solid
  rw [List.append_assoc, List.isChain_append]
  refine ⟨hchain, ?_, fun c hcl d hd => ?_⟩
  · rw [List.isChain_append]
    refine ⟨runs_indented hc hi, ?_, fun c hcl d hd => ?_⟩
    · cases more <;> simp
    · rw [hlast, List.getLast?_concat, Option.mem_some_iff] at hcl
      rw [Option.mem_def, List.head?_take, if_neg (by decide)] at hd
      refine hnext c ?_ d hd
      rintro rfl
      rw [hcl] at hlastwhite
      exact absurd hlastwhite (by decide)
  · refine runs_of_isGapChar (.inl (hws c (List.mem_of_mem_getLast? hcl))) ?_
    rintro ⟨-, rfl⟩
    obtain ⟨first, hfirst, hne⟩ := exists_head?_indented indent hc
    rw [List.head?_append, hfirst] at hd
    exact hne (Option.mem_some_iff.1 hd).symm

end

namespace ReadsAs

/-- Empty lines in a gap make no difference. -/
theorem gap_of
    (h : ∀ ws : List Char, (∀ c ∈ ws, isGapChar c = true) → ws.head? ≠ some '\n' →
      ws.IsChain Segment.Runs → ReadsAs g (ws ++ cs) ns)
    {ws : List Char} (hws : ∀ c ∈ ws, isGapChar c = true) : ReadsAs g (ws ++ cs) ns := by
  induction hn : ws.length using Nat.strong_induction_on generalizing ws with
  | _ n ih =>
    by_cases hhead : ws.head? = some '\n'
    · obtain ⟨rest, rfl⟩ := List.head?_eq_some_iff.1 hhead
      rw [List.forall_mem_cons] at hws
      exact (ih rest.length (by rw [← hn, List.length_cons]; omega) hws.2 rfl).line
    · obtain hchain | ⟨front, back, rfl, hfront⟩ := gap_cases hws
      · exact h ws hws hhead hchain
      · rw [List.forall_mem_append, List.forall_mem_cons] at hws
        have hback := ih ('\n' :: back).length (by simp at hn ⊢; omega) hws.2.2 rfl
        have hraw : ∀ c ∈ front ++ ['\n'], isGapChar c = true := by
          rw [List.forall_mem_append]
          exact ⟨hws.1, by simp [isGapChar]⟩
        have hsplit : Segment.splitProse ((front ++ ['\n']) ++ ('\n' :: back ++ cs)) =
            (front ++ ['\n'], '\n' :: back ++ cs) := by
          show Segment.splitProse ((front ++ ['\n']) ++ '\n' :: (back ++ cs)) = _
          rw [List.append_assoc, Segment.splitProse_append_eq _ (fun c hc hs => ?_) hfront]
          · rfl
          · exact not_sign_of_isGapChar (hws.1 c hc) hs
        have hread := hback.prose ?_ (by simp) hsplit
        · rw [proseNodes_of_blank hraw] at hread
          simpa using hread
        · cases front with
          | nil => exact absurd rfl hhead
          | cons c more => exact hhead

/-- A gap before an element, or before the end, makes no difference. -/
theorem gap {ws : List Char} (hws : ∀ c ∈ ws, isGapChar c = true) (hcs : cs = [] ∨ Segment.Starts cs)
    (h : ReadsAs g cs ns) : ReadsAs g (ws ++ cs) ns := by
  refine gap_of (fun ws hws hhead hchain => ?_) hws
  by_cases hne : ws = []
  · rw [hne]
    exact h
  · have hread := h.prose hhead hne (prose_gap hws hchain hcs)
    rwa [proseNodes_of_blank hws] at hread

/-- A text between gaps. What follows it, `behind ++ cs`, is prose up to `cs`. -/
theorem text {content : String} {indent ws behind : List Char} (hc : IsProse content)
    (hi : ∀ c ∈ indent, Text.isBlank c = true) (hws : ∀ c ∈ ws, isGapChar c = true)
    (hbehind : ∀ c ∈ behind, isGapChar c = true)
    (hsplit : Segment.splitProse (behind ++ cs) = (behind, cs))
    (hnext : ∀ c, c ≠ '\n' → ∀ d, (behind ++ cs).head? = some d → Segment.Runs c d)
    (h : ReadsAs g cs ns) :
    ReadsAs g (ws ++ (Text.indented indent content.toList ++ (behind ++ cs)))
      (.leaf { kind := .text, content } :: ns) := by
  refine gap_of (fun ws hws hhead hchain => ?_) hws
  have hprose := splitProse_text hc hi hws hchain hnext
  rw [hsplit] at hprose
  have hnormal : Text.normalizeLines (ws ++ Text.indented indent content.toList ++ behind) =
      content.toList := by
    rw [Text.normalizeLines_append_blank fun c hmem => isWhite_of_isGapChar (hbehind c hmem),
      Text.normalizeLines_blank_append fun c hmem => isWhite_of_isGapChar (hws c hmem),
      Text.normalizeLines_indented fun c hmem => Text.isWhite_of_isBlank (hi c hmem), hc.normal]
  obtain ⟨first, hfirst, hfirstbreak⟩ := exists_head?_indented indent hc
  have hread := h.prose ?_ ?_ (by rw [List.append_assoc]; exact hprose)
  · rw [proseNodes, hnormal, if_neg hc.ne_nil, String.ofList_toList] at hread
    simp only [List.append_assoc] at hread
    exact hread
  · rw [List.append_assoc, List.head?_append]
    cases hhead' : ws.head? with
    | none =>
      rw [Option.none_or, List.head?_append, hfirst]
      exact fun h => hfirstbreak (Option.some.inj h).symm
    | some c =>
      rw [hhead'] at hhead
      exact hhead
  · intro hnil
    have hnil := (List.append_eq_nil_iff.1 (List.append_eq_nil_iff.1 hnil).1).2
    rw [hnil] at hfirst
    exact absurd hfirst (by simp)

end ReadsAs

end Markup

end Evomark
