import Evomark.Proofs.Markup.ReadWindow
import Evomark.Proofs.Text.Paragraphs
import Evomark.Toolchain
/-!
# Prose

A source in which no construct can start is read to its end, whatever the rules are, and gives a text for
each of its paragraphs (`Toolchain.parse_prose`). Printed, the paragraphs stand with a blank line between any
two, and that text has the same paragraphs (`Toolchain.format_prose`).
-/

namespace Evomark

open Markup Text

/-- A text in which no construct starts: without number and reference signs, and with no name behind the
sign of a command or of a variable. -/
structure Signless (cs : List Char) : Prop where
  allowed : ∀ c ∈ cs, c ∉ ['#', '@']
  apart : cs.IsChain (Apart ['$', '%'])

namespace Signless

variable {cs ds : List Char}

theorem of_infix (h : Signless cs) (hd : ds <:+: cs) : Signless ds :=
  ⟨fun c hc => h.allowed c (hd.subset hc), h.apart.infix hd⟩

theorem apart_break (c : Char) : Apart ['$', '%'] c '\n' ∧ Apart ['$', '%'] '\n' c :=
  ⟨fun h => absurd h.2 (by decide), fun h => absurd h.1 (by decide)⟩

theorem normalizeLines (h : Signless cs) : Signless (normalizeLines cs) := by
  refine ⟨fun c hc => ?_, isChain_normalizeLines (fun c _ => (apart_break c).1) (fun c _ => (apart_break c).2)
    h.apart⟩
  obtain rfl | hc := mem_normalizeLines hc
  · decide
  · exact h.allowed c hc

theorem cons_break (h : Signless cs) : Signless ('\n' :: cs) := by
  constructor
  · rw [List.forall_mem_cons]
    exact ⟨by decide, h.allowed⟩
  · exact List.isChain_cons.2 ⟨fun c _ => (apart_break c).2, h.apart⟩

theorem append_break (h : Signless cs) (hd : Signless ('\n' :: ds)) : Signless (cs ++ '\n' :: ds) := by
  constructor
  · rw [List.forall_mem_append]
    exact ⟨h.allowed, hd.allowed⟩
  · refine List.isChain_append.2 ⟨h.apart, hd.apart, fun c _ d hd => ?_⟩
    obtain rfl := Option.some.inj hd
    exact (apart_break c).1

/-- Paragraphs in which no construct starts, put together. -/
theorem putParagraphs {ps : List (List Char)} (h : ∀ p ∈ ps, Signless p) : Signless (putParagraphs ps) := by
  induction ps with
  | nil => exact ⟨by simp [Text.putParagraphs, join], .nil⟩
  | cons p ps ih =>
    rw [List.forall_mem_cons] at h
    cases ps with
    | nil => exact h.1
    | cons q ps =>
      rw [putParagraphs_cons_cons]
      exact h.1.append_break (ih h.2).cons_break.cons_break

theorem of_mem_paragraphs (h : Signless cs) {p : List Char} (hp : p ∈ paragraphs cs) : Signless p := by
  obtain ⟨s, hs, rfl⟩ := exists_of_mem_paragraphs hp
  exact (h.of_infix hs).normalizeLines

end Signless

/-! ## Segments -/

namespace Segment

/-- A stretch is taken as prose, with the first of the line feeds that follow it. -/
theorem splitProse_stretch {s : List Char} (h : Signless s) (hs : Unbroken s) (hlast : s.getLast? ≠ some '\n')
    (more : List Char) : splitProse (s ++ '\n' :: '\n' :: more) = (s ++ ['\n'], '\n' :: more) := by
  rw [splitProse_append_eq _ h.allowed]
  · rfl
  · refine List.isChain_append.2 ⟨runs_of_apart h.apart hs, .singleton _, fun c hc d hd => ?_⟩
    obtain rfl := Option.some.inj hd
    refine ⟨(Signless.apart_break c).1, fun hb => hlast ?_⟩
    rw [← hb.1]
    exact hc

theorem splitProse_last {s : List Char} (h : Signless s) (hs : Unbroken s) : splitProse s = (s, []) := by
  have hsplit := @splitProse_append_eq s [] h.allowed (by simpa using runs_of_apart h.apart hs)
  simpa [splitProse] using hsplit

end Segment

namespace Window

theorem segments_breaks (n : Nat) (cs : List Char) (offset : Nat) :
    ∃ stop, (Window.mk offset (List.replicate n '\n' ++ cs)).segments = (Window.mk stop cs).segments := by
  induction n generalizing offset with
  | zero => exact ⟨offset, rfl⟩
  | succ n ih =>
    rw [List.replicate_succ, List.cons_append, segments_break]
    exact ih _

theorem segments_of_splitProse {cs raw rest : List Char} (hcs : cs.head? ≠ some '\n') (hraw : raw ≠ [])
    (h : Segment.splitProse cs = (raw, rest)) (offset : Nat) :
    ∃ stop, (Window.mk offset cs).segments =
      (.prose raw :: (Window.mk stop rest).segments.1, (Window.mk stop rest).segments.2) := by
  have hprose : Segment.prose? ⟨offset, cs⟩ = some (.prose raw, (Window.mk offset cs).after raw rest) := by
    rw [Segment.prose?]
    simp only [h]
    rw [if_neg (by simpa using hraw)]
  have hread : Segment.read? ⟨offset, cs⟩ = some (.prose raw, (Window.mk offset cs).after raw rest) := by
    rw [Segment.read?, hprose]
    rfl
  exact ⟨_, segments_of_read? hcs hread⟩

/-- A stretch in front of a run of line feeds is one segment, or none. -/
theorem segments_run {s : List Char} (h : Signless s) (hs : Unbroken s) (hlast : s.getLast? ≠ some '\n') (k : Nat)
    (rest : List Char) (offset : Nat) :
    ∃ raws stop, normalized raws = normalized [s] ∧
      (Window.mk offset (s ++ (List.replicate (k + 2) '\n' ++ rest))).segments =
        (raws.map .prose ++ (Window.mk stop rest).segments.1, (Window.mk stop rest).segments.2) := by
  obtain ⟨n, t, rfl, hhead⟩ := exists_breaks s
  have hlines : normalizeLines t = normalizeLines (List.replicate n '\n' ++ t) :=
    (normalizeLines_blank_append (isBlankText_breaks n) t).symm
  rw [List.append_assoc]
  obtain ⟨start, hstart⟩ := segments_breaks n (t ++ (List.replicate (k + 2) '\n' ++ rest)) offset
  cases t with
  | nil =>
    obtain ⟨stop, hstop⟩ := segments_breaks (k + 2) rest start
    exact ⟨[], stop, normalized_congr hlines, hstart.trans hstop⟩
  | cons c more =>
    have ht : Signless (c :: more) := h.of_infix (List.suffix_append _ _).isInfix
    have htlast : (c :: more).getLast? ≠ some '\n' := fun he => hlast (by rw [List.getLast?_append, he]; rfl)
    obtain ⟨next, hnext⟩ := segments_of_splitProse (by exact hhead) (by simp)
      (Segment.splitProse_stretch ht (List.isChain_append.1 hs).2.1 htlast (List.replicate k '\n' ++ rest)) start
    obtain ⟨stop, hstop⟩ := segments_breaks (k + 1) rest next
    rw [List.replicate_succ, List.cons_append] at hstop
    rw [hstop] at hnext
    refine ⟨[c :: more ++ ['\n']], stop, normalized_congr ?_, hstart.trans hnext⟩
    exact (normalizeLines_append_blank (isBlankText_breaks 1) _).trans hlines

/-- The last stretch is one segment, or none. -/
theorem segments_last {s : List Char} (h : Signless s) (hs : Unbroken s) (offset : Nat) :
    ∃ raws stop, normalized raws = normalized [s] ∧
      (Window.mk offset s).segments = (raws.map .prose, ⟨stop, []⟩) := by
  obtain ⟨n, t, rfl, hhead⟩ := exists_breaks s
  have hlines : normalizeLines t = normalizeLines (List.replicate n '\n' ++ t) :=
    (normalizeLines_blank_append (isBlankText_breaks n) t).symm
  obtain ⟨start, hstart⟩ := segments_breaks n t offset
  cases t with
  | nil => exact ⟨[], start, normalized_congr hlines, hstart.trans (segments_nil start)⟩
  | cons c more =>
    have ht : Signless (c :: more) := h.of_infix (List.suffix_append _ _).isInfix
    obtain ⟨stop, hstop⟩ := segments_of_splitProse hhead (List.cons_ne_nil _ _)
      (Segment.splitProse_last ht (List.isChain_append.1 hs).2.1) start
    rw [segments_nil] at hstop
    exact ⟨[c :: more], stop, normalized_congr hlines, hstart.trans hstop⟩

/-- The segments of prose are its stretches, up to white space at their ends and stretches of nothing else. -/
theorem segments_stretched {cs : List Char} {ss : List (List Char)} (h : Stretched cs ss) (hcs : Signless cs)
    (offset : Nat) :
    ∃ raws stop, normalized raws = normalized ss ∧
      (Window.mk offset cs).segments = (raws.map .prose, ⟨stop, []⟩) := by
  induction h generalizing offset with
  | last hs => exact segments_last hcs hs offset
  | @run s rest ss k hs hlast _ _ ih =>
    have hs' : Signless s := hcs.of_infix (List.prefix_append _ _).isInfix
    have hrest : Signless rest :=
      hcs.of_infix ((List.suffix_append _ _).trans (List.suffix_append _ _)).isInfix
    obtain ⟨front, start, hfront, hsegments⟩ := segments_run hs' hs hlast k rest offset
    obtain ⟨raws, stop, hraws, hmore⟩ := ih hrest start
    refine ⟨front ++ raws, stop, ?_, ?_⟩
    · rw [normalized_append, hfront, hraws, ← normalized_append, List.singleton_append]
    · rw [hsegments, hmore, List.map_append]

end Window

/-! ## Documents -/

namespace Toolchain

/-- The text of a paragraph. -/
def textNode (content : List Char) : Node := .leaf { kind := .text, content := String.ofList content }

variable (g : Grammar) (read : Window → Contents) (raws : List (List Char))

theorem rootNodes_prose :
    ((raws.map Segment.prose).map (readSegment g read)).flatMap (·.rootNodes) = (normalized raws).map textNode := by
  induction raws with
  | nil => rfl
  | cons raw raws ih =>
    rw [← List.singleton_append, normalized_append, List.map_append, List.map_append, List.flatMap_append, ih,
      List.map_append]
    congr 1
    by_cases h : normalizeLines raw = [] <;> simp [readSegment, normalized, h, Finding.rootNodes, textNode]

theorem finding_prose (raw : List Char) :
    (readSegment g read (.prose raw)).complete = true ∧ (readSegment g read (.prose raw)).settings = [] := by
  by_cases h : normalizeLines raw = [] <;> simp [readSegment, h]

/-- A source in which no construct starts is read to its end. Its paragraphs are its texts, and there is
nothing else. -/
theorem parse_prose (t : Toolchain) {source : String} (h : Signless source.toList) :
    t.parse source =
      { document := .root ((paragraphs source.toList).map textNode)
        config := t.registry.namespaces
        complete := true } := by
  obtain ⟨raws, stop, hraws, hsegments⟩ :=
    Window.segments_stretched (stretched_stretches source.toList) h 0
  let g := t.registry.grammar
  let read := readWindow g (Window.ofSource source).length
  have hcontents : contents g (.ofSource source) = ⟨(raws.map Segment.prose).map (readSegment g read), ⟨stop, []⟩⟩ := by
    rw [contents, readWindow, Window.ofSource, hsegments]
    rfl
  have hsettings : ((raws.map Segment.prose).map (readSegment g read)).flatMap (·.settings) = [] := by
    simp [List.flatMap_eq_nil_iff, (finding_prose g read _).2]
  have hcomplete : (Contents.mk ((raws.map Segment.prose).map (readSegment g read)) ⟨stop, []⟩).complete = true := by
    simp [Contents.complete, (finding_prose g read _).1]
  have hnodes := rootNodes_prose g read raws
  rw [hraws] at hnodes
  rw [Toolchain.parse, Registry.parse, Markup.parse]
  simp only [show t.registry.grammar = g from rfl, hcontents, hcomplete, hsettings, hnodes]
  rfl

/-! ## Printing -/

theorem indented_nil (cs : List Char) : indented [] cs = cs := by
  induction cs with
  | nil => rfl
  | cons c rest ih =>
    rw [indented, List.flatMap_cons, ← indented, ih]
    split
    · rename_i hc
      rw [hc]
      rfl
    · rfl

theorem putText_paragraph (prev : Option Kind) {p : List Char} (hp : p ≠ []) (hprev : prev ≠ some .varUse)
    (ink : Ink) :
    Node.putText [] prev .text p ink =
      p.reverse ++ if prev = some .text then ink.trimBlanks.put ['\n', '\n'] else ink.space := by
  have huse : (prev == some Kind.varUse) = false := beq_eq_false_iff_ne.2 hprev
  have hbehind (ink : Ink) : ink.put [] = ink := rfl
  simp only [Node.putText, List.isEmpty_iff, if_neg hp, putLines_eq, indented_nil, huse, hbehind]
  by_cases h : prev = some .text <;> simp [h]

/-- A paragraph behind another is printed with a blank line in front of it. -/
theorem putNode_behind (unit : List Char) {p last : List Char} (hp : IsParagraph p) (hlast : IsParagraph last)
    (ink : Ink) :
    Node.putNode unit 0 (some .text) (textNode p) (last.reverse ++ ink) =
      p.reverse ++ Ink.put ['\n', '\n'] (last.reverse ++ ink) := by
  have htrim : Ink.trimBlanks (last.reverse ++ ink) = last.reverse ++ ink := by
    obtain ⟨front, c, rfl, hc⟩ := hlast.solid.last
    rw [List.reverse_append, List.reverse_singleton, List.singleton_append, List.cons_append, Ink.trimBlanks,
      List.dropWhile_cons_of_neg (by simp [not_isBlank_of_not_isWhite hc])]
  have hput := putText_paragraph (some .text) hp.1 (by decide) (last.reverse ++ ink)
  rw [if_pos rfl, htrim] at hput
  rw [textNode, Node.leaf, Node.putNode]
  simp only [String.toList_ofList]
  exact hput

theorem putNode_first (unit : List Char) {p : List Char} (hp : IsParagraph p) :
    Node.putNode unit 0 none (textNode p) [] = p.reverse := by
  have hput := putText_paragraph none hp.1 (by decide) []
  rw [textNode, Node.leaf, Node.putNode]
  simp only [String.toList_ofList]
  exact hput.trans (List.append_nil _)

/-- Paragraphs are printed behind the last one before them, with a blank line in front of each. -/
theorem putNodes_textNodes (unit : List Char) {ps : List (List Char)} (hps : ∀ p ∈ ps, IsParagraph p)
    {last : List Char} (hlast : IsParagraph last) (ink : Ink) :
    Node.putNodes unit 0 (some .text) (ps.map textNode) (last.reverse ++ ink) =
      (putParagraphs (last :: ps)).reverse ++ ink := by
  induction ps generalizing last ink with
  | nil => rfl
  | cons p ps ih =>
    rw [List.forall_mem_cons] at hps
    rw [List.map_cons, Node.putNodes, putNode_behind unit hps.1 hlast]
    have hrest := ih hps.2 hps.1 (Ink.put ['\n', '\n'] (last.reverse ++ ink))
    rw [putParagraphs_cons_cons, List.reverse_append, List.reverse_append, List.append_assoc, List.append_assoc]
    exact hrest

theorem print_textNodes (t : Toolchain) {ps : List (List Char)} (hps : ∀ p ∈ ps, IsParagraph p) :
    t.print (.root (ps.map textNode)) = String.ofList (putParagraphs ps) := by
  have hput : Node.putNodes t.indentUnit.toList 0 none (ps.map textNode) [] = (putParagraphs ps).reverse := by
    cases ps with
    | nil => rfl
    | cons p ps =>
      rw [List.forall_mem_cons] at hps
      rw [List.map_cons, Node.putNodes, putNode_first _ hps.1]
      have hrest := putNodes_textNodes t.indentUnit.toList hps.2 hps.1 []
      rw [List.append_nil, List.append_nil] at hrest
      exact hrest
  rw [Toolchain.print, Node.printWith]
  exact congrArg String.ofList ((congrArg List.reverse hput).trans (List.reverse_reverse _))

/-- A source in which no construct starts gives a text for each of its paragraphs, and is printed as its
paragraphs with a blank line between any two, which is printed as it stands. -/
theorem format_prose (t : Toolchain) {source : String} (h : Signless source.toList) :
    t.parse source =
        { document := .root ((paragraphs source.toList).map textNode)
          config := t.registry.namespaces
          complete := true } ∧
      t.format source = String.ofList (putParagraphs (paragraphs source.toList)) ∧
      t.format (t.format source) = t.format source := by
  have hformat {source : String} (h : Signless source.toList) :
      t.format source = String.ofList (putParagraphs (paragraphs source.toList)) := by
    rw [format, parse_prose t h, print_textNodes t fun p hp => isParagraph_of_mem hp]
  have hagain : Signless (t.format source).toList := by
    rw [hformat h, String.toList_ofList]
    exact .putParagraphs fun p hp => h.of_mem_paragraphs hp
  refine ⟨parse_prose t h, hformat h, ?_⟩
  rw [hformat hagain, hformat h, String.toList_ofList, paragraphs_putParagraphs fun p hp => isParagraph_of_mem hp]

/-- Lines that end in a carriage return as well, signs without names, and a stretch of white space only. -/
theorem format_prose_signs :
    let source := "\n a $5\r\n\tb = 50% \n\n \u00a0\r\n\n\n% é$"
    Signless source.toList ∧
      (Toolchain.parse {} source).document = .root [textNode "a $5\nb = 50%".toList, textNode "% é$".toList] ∧
      Toolchain.format {} source = "a $5\nb = 50%\n\n% é$" ∧
      Toolchain.format {} (Toolchain.format {} source) = Toolchain.format {} source := by
  intro source
  have h : Signless source.toList := ⟨forall_mem_of_all (by decide +kernel), by decide +kernel⟩
  have hparagraphs : paragraphs source.toList = ["a $5\nb = 50%".toList, "% é$".toList] := by decide +kernel
  obtain ⟨hparse, hprint, hagain⟩ := format_prose {} h
  rw [hparagraphs] at hparse hprint
  exact ⟨h, by rw [hparse]; rfl, hprint.trans (by decide +kernel), hagain⟩

end Toolchain

end Evomark
