import Evomark.Exec.Synthesis
import Evomark.Proofs.Document.Printing
import Evomark.Proofs.Markup.ReadClause
import Evomark.Proofs.Markup.Separators
import Evomark.Proofs.Text.Normal
/-!
# The text of a body that has been printed

Printing a literal body and reading it again changes its separators: the last is lost on lines of its
own, and the first there stands for two line feeds. Neither changes the text of the body, for that
leaves out the line feeds at its ends (`synthesizesAs_rereadItems`), so that a printed body gives the same
text, from the same hosts and with the same warnings, in every state (`synthesize_printed`).
-/

namespace Evomark

open Markup Node

/-- The nodes use the same variables, and what is put together from them is normalized to the same
text. -/
structure SynthesizesAs (ns ms : List Node) : Prop where
  names : usedNames ns = usedNames ms
  text : ∀ s hosts, Text.normalizeText (assemble s hosts ns).1 = Text.normalizeText (assemble s hosts ms).1
  state : ∀ s hosts, (assemble s hosts ns).2 = (assemble s hosts ms).2

namespace SynthesizesAs

variable {ns ms ls : List Node}

theorem trans (h : SynthesizesAs ns ms) (h' : SynthesizesAs ms ls) : SynthesizesAs ns ls where
  names := h.names.trans h'.names
  text s hosts := (h.text s hosts).trans (h'.text s hosts)
  state s hosts := (h.state s hosts).trans (h'.state s hosts)

theorem synthesize_eq (h : SynthesizesAs ns ms) (s : ExecState) : synthesize s ns = synthesize s ms := by
  unfold synthesize
  simp only [h.names, h.text, h.state]

end SynthesizesAs

/-! ## Pieces -/

/-- A node gives a piece of the text, and leaves a state and hosts to those behind it. -/
theorem assemble_cons (s : ExecState) (hosts : List Nat) (n : Node) :
    ∃ piece t more, ∀ rest,
      assemble s hosts (n :: rest) = (piece ++ (assemble t more rest).1, (assemble t more rest).2) := by
  have hnone (h : ∀ rest, assemble s hosts (n :: rest) = assemble s hosts rest) :
      ∃ piece t more, ∀ rest,
        assemble s hosts (n :: rest) = (piece ++ (assemble t more rest).1, (assemble t more rest).2) :=
    ⟨[], s, hosts, h⟩
  cases hk : n.kind
  case varUse =>
    cases hosts with
    | nil => exact hnone fun rest => by conv_lhs => unfold assemble; simp only [hk]
    | cons id hosts =>
      refine ⟨((s.lookText id).1.getD "").toList ++ [' '], (s.lookText id).2, hosts, fun rest => ?_⟩
      conv_lhs => unfold assemble; simp only [hk]
      simp
  case literal =>
    refine ⟨n.content.toList ++ [' '], s, hosts, fun rest => ?_⟩
    conv_lhs => unfold assemble; simp only [hk]
    simp
  case sep =>
    refine ⟨List.replicate n.label.sepCount '\n', s, hosts, fun rest => ?_⟩
    conv_lhs => unfold assemble; simp only [hk]
  all_goals exact hnone fun rest => by conv_lhs => unfold assemble; simp only [hk]

/-- What is put together from the separator of a gap and the nodes behind it. -/
theorem assemble_gapNodes_append (count : Nat) (s : ExecState) (hosts : List Nat) (rest : List Node) :
    assemble s hosts (gapNodes count ++ rest) =
      (List.replicate (if 2 ≤ count then count else 0) '\n' ++ (assemble s hosts rest).1,
        (assemble s hosts rest).2) := by
  unfold gapNodes
  split
  · have hcount : (sepOf count).label.sepCount = count := sepCount_of_value rfl
    have hk : (sepOf count).kind = .sep := rfl
    rw [List.singleton_append]
    conv_lhs => unfold assemble; simp only [hk, hcount]
  · rfl

/-! ## The line feeds at the ends -/

theorem usedNames_append (ns ms : List Node) : usedNames (ns ++ ms) = usedNames ns ++ usedNames ms := by
  simp [usedNames]

theorem usedNames_gapNodes (count : Nat) : usedNames (gapNodes count) = [] := by
  unfold gapNodes
  split <;> rfl

theorem usedNames_settle {atEnd : Nat → List Node} (he : ∀ k, usedNames (atEnd k) = []) (count : Nat)
    (items : List Node) : usedNames (settle atEnd count items) = usedNames items := by
  induction items generalizing count with
  | nil => exact he count
  | cons n rest ih =>
    have hcons : usedNames (n :: rest) = usedNames [n] ++ usedNames rest := usedNames_append [n] rest
    rw [settle, hcons]
    split
    · rename_i hk
      have hn : usedNames [n] = [] := by simp [usedNames, hk]
      rw [ih, hn, List.nil_append]
    · have hleaf : usedNames [Node.leaf n.label.unplaced] = usedNames [n] := by
        by_cases hv : n.label.kind = .varUse <;>
          simp [usedNames, Node.leaf, Node.kind, Node.content, Label.unplaced, hv]
      rw [← List.singleton_append, usedNames_append, usedNames_append,
        usedNames_gapNodes, hleaf, ih, List.nil_append]

/-- What is put together with the gap at the end and without it. -/
theorem assemble_settle_end (count : Nat) (items : List Node) (s : ExecState) (hosts : List Nat) :
    ∃ i, assemble s hosts (settle gapNodes count items) =
      ((assemble s hosts (settle (fun _ => []) count items)).1 ++ List.replicate i '\n',
        (assemble s hosts (settle (fun _ => []) count items)).2) := by
  induction items generalizing count s hosts with
  | nil =>
    have hgap := assemble_gapNodes_append count s hosts []
    rw [List.append_nil] at hgap
    rw [settle, settle, hgap, assemble]
    exact ⟨_, by rw [List.append_nil, List.nil_append]⟩
  | cons n rest ih =>
    rw [settle, settle]
    split
    · exact ih _ s hosts
    · obtain ⟨piece, t, more, hpiece⟩ := assemble_cons s hosts (.leaf n.label.unplaced)
      obtain ⟨i, hi⟩ := ih 0 t more
      refine ⟨i, ?_⟩
      simp only [assemble_gapNodes_append, hpiece, hi, List.append_assoc]

/-- What is put together behind one gap and behind another. -/
theorem assemble_settle_front (k l : Nat) (items : List Node) (s : ExecState) (hosts : List Nat) :
    ∃ i j text t, assemble s hosts (settle gapNodes k items) = (List.replicate i '\n' ++ text, t) ∧
      assemble s hosts (settle gapNodes l items) = (List.replicate j '\n' ++ text, t) := by
  induction items generalizing k l with
  | nil =>
    have hgap (count : Nat) := assemble_gapNodes_append count s hosts []
    simp only [List.append_nil] at hgap
    exact ⟨_, _, _, _, hgap k, hgap l⟩
  | cons n rest ih =>
    rw [settle, settle]
    split
    · exact ih _ _
    · exact ⟨_, _, _, _, assemble_gapNodes_append k .., assemble_gapNodes_append l ..⟩

theorem synthesizesAs_settle_end (count : Nat) (items : List Node) :
    SynthesizesAs (settle (fun _ => []) count items) (settle gapNodes count items) where
  names := by rw [usedNames_settle fun _ => rfl, usedNames_settle usedNames_gapNodes]
  text s hosts := by
    obtain ⟨i, hi⟩ := assemble_settle_end count items s hosts
    rw [hi, Text.normalizeText_append_breaks]
  state s hosts := by
    obtain ⟨i, hi⟩ := assemble_settle_end count items s hosts
    rw [hi]

theorem synthesizesAs_settle_front (k l : Nat) (items : List Node) :
    SynthesizesAs (settle gapNodes k items) (settle gapNodes l items) where
  names := by rw [usedNames_settle usedNames_gapNodes, usedNames_settle usedNames_gapNodes]
  text s hosts := by
    obtain ⟨i, j, text, t, hk, hl⟩ := assemble_settle_front k l items s hosts
    rw [hk, hl, Text.normalizeText_breaks_append, Text.normalizeText_breaks_append]
  state s hosts := by
    obtain ⟨i, j, text, t, hk, hl⟩ := assemble_settle_front k l items s hosts
    rw [hk, hl]

theorem synthesizesAs_rereadItems (layout : Option Layout) (items : List Node) :
    SynthesizesAs (rereadItems layout items) (settle gapNodes 0 items) := by
  unfold rereadItems
  split
  · exact (synthesizesAs_settle_end 1 items).trans (synthesizesAs_settle_front 1 0 items)
  · exact synthesizesAs_settle_front 0 0 items

example : rereadItems (some .block) [sepOf 4, useOf "x", sepOf 3, useOf "y", sepOf 2] =
    [sepOf 2, useOf "x", sepOf 3, useOf "y"] := rfl

/-! ## Printed bodies -/

/-- What the printer writes for a literal body that has been read. -/
theorem putNode_literalNodes {unit : List Char} (hu : ∀ c ∈ unit, Text.isBlank c = true) (level : Nat)
    (prev : Option Kind) {label : Label} (hk : label.kind = .body) (hl : label.layout ≠ some .directChild)
    (text : List Char) (ink : Ink) :
    putNode unit level prev ⟨label, literalNodes text⟩ ink =
      ink.put (delimited (label.layout.getD .inline) (insideOf unit level label (literalNodes text))) := by
  have hflow := isFlow_literalNodes (g := Registry.standard.grammar) text
  rw [putNode_of_isBody (by rw [hk]; rfl), putBody_eq unit level _ _
    (fun level edge => flowText unit level none edge (literalNodes text)) ink hl]
  · rfl
  · exact fun level edge ink base hf => putNodes_eq hu level hflow hf

/-- Where the only white space of a text is that of gaps, the nodes of its literal body can be printed:
what is read between the delimiters gives the same text, from the same hosts, with the same warnings
and with the same state left. -/
theorem synthesize_printed {text : List Char}
    (ht : ∀ c ∈ text, Text.isWhite c = true → isGapChar c = true) {unit : List Char}
    (hu : ∀ c ∈ unit, Text.isBlank c = true) (level : Nat) (prev : Option Kind) {label : Label}
    (hk : label.kind = .body) (hc : label.content = "") (hl : label.layout ≠ some .directChild)
    (ink : Ink) :
    ∃ inside,
      putNode unit level prev ⟨label, literalNodes text⟩ ink =
          ink.put (delimited (label.layout.getD .inline) inside) ∧
        ∀ s, synthesize s (literalNodes inside) = synthesize s (literalNodes text) := by
  refine ⟨_, putNode_literalNodes hu level prev hk hl text ink, fun s => ?_⟩
  have hread : literalNodes (insideOf unit level label (literalNodes text)) =
      rereadItems label.layout (literalNodes text) :=
    literalNodes_insideOf hu hc (isFlow_literalNodes (g := Registry.standard.grammar) text)
  calc synthesize s (literalNodes (insideOf unit level label (literalNodes text)))
    _ = synthesize s (rereadItems label.layout (literalNodes text)) := by rw [hread]
    _ = synthesize s (settle gapNodes 0 (literalNodes text)) :=
      (synthesizesAs_rereadItems _ _).synthesize_eq s
    _ = synthesize s (literalNodes text) := by rw [settle_literalNodes ht]

/-- A body on lines of its own whose printing loses the separator at its end and two of the four line
feeds at its start. -/
theorem synthesize_printed_block :
    ∃ inside,
      putNode ['\t'] 1 none ⟨{ kind := .body, layout := some .block },
          literalNodes "\n\n\n\n a  b \r\n%x\n\n \n%y c\n\n".toList⟩ [] =
          Ink.put (delimited .block inside) [] ∧
        ∀ s, synthesize s (literalNodes inside) =
          synthesize s (literalNodes "\n\n\n\n a  b \r\n%x\n\n \n%y c\n\n".toList) :=
  synthesize_printed (Text.forall_mem_of_all rfl) (Text.forall_mem_of_all rfl) 1 none rfl rfl
    (by decide) []

end Evomark
