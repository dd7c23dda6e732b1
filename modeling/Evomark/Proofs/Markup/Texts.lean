import Evomark.Proofs.Markup.ReadNodes
/-!
# The texts of parsed documents

A text node holds a normal text in which nothing else than text begins (`IsProse`), and so does a literal
(`IsLiteral`). `Node.Worded` says so of a node. In a document that has been read it holds of all nodes
(`worded_parse`), whether the document is well formed or not: every text stands where a window has been cut before the
next construct, and every literal where a body has been cut before a use or a separator. Trimming the lines of such a
run afterwards puts no characters together that stood apart but for a line feed between them.
-/

namespace Evomark

open Markup

/-- The content of a text node is prose, and that of a literal is literal. -/
structure Node.Worded (n : Node) : Prop where
  prose : n.kind = .text → IsProse n.content
  literal : n.kind = .literal → IsLiteral n.content

namespace Markup

/-- The texts of a document that has been read are prose and literals. -/
theorem worded_parse {g : Grammar} (hg : g.Keeps) (initial : Table Json) (source : String) :
    ∀ n ∈ (parse g initial source).document.subtrees, n.Worded := by
  intro n hn
  have hread := isRead_parse g initial source n hn
  exact ⟨hread.prose, hread.literal hg⟩

/-! ## What a run of text is -/

section

variable {banned signs : List Char} {content : String}

/-- The lines of a normal text are what is left of them. -/
theorem IsRun.solid_lines (h : IsRun banned signs content) :
    ∀ line ∈ Text.splitLines content.toList, Text.Solid line := by
  have hlines : Text.lines content.toList ≠ [] := by
    intro hnil
    refine h.ne_nil (h.normal.symm.trans ?_)
    rw [Text.normalizeLines_eq, hnil]
    rfl
  intro line hline
  rw [← h.normal, Text.normalizeLines_eq,
    Text.splitLines_joinLines hlines fun l hl => (Text.solid_of_mem_lines hl).2] at hline
  exact (Text.solid_of_mem_lines hline).1

/-- Between two line feeds stands something visible. -/
theorem IsRun.no_blank_line (h : IsRun banned signs content) {front gap back : List Char}
    (hcut : content.toList = front ++ '\n' :: (gap ++ '\n' :: back)) : ∃ c ∈ gap, Text.isWhite c = false := by
  obtain ⟨line, more, hsplit⟩ := Text.exists_splitLines gap
  have hmem : line ∈ Text.splitLines content.toList := by
    rw [hcut, Text.splitLines_append_break, Text.splitLines_append_break, hsplit]
    simp
  obtain ⟨c, rest, rfl, hc⟩ := (h.solid_lines line hmem).head
  have hline : c :: rest <:+: gap := Text.infix_of_mem_splitLines (hsplit ▸ .head _)
  exact ⟨c, hline.subset (.head _), hc⟩

/-- No construct starts in it. -/
theorem IsRun.not_infix (h : IsRun banned signs content) {sign c : Char} (hsign : sign ∈ signs)
    (hc : Window.isNameStart c = true) : ¬ [sign, c] <:+: content.toList := by
  rintro ⟨front, back, hcut⟩
  rw [List.append_assoc] at hcut
  exact List.isChain_iff_forall_rel_of_append_cons_cons.1 h.apart hcut.symm ⟨hsign, hc⟩

end

/-- In every document that has been read, a text node or a literal holds a text that is not empty, and whose lines all
start and end with something visible. In a text node there is no `#`, no `@`, and no `$` or `%` before what can start
a name; in a literal there is no `%` before what can start a name, and no line without anything visible in it. -/
theorem texts_parse (source : String) :
    (∀ n ∈ (Registry.standard.parse source).document.subtrees, n.kind = .text →
      let text := n.content.toList
      text ≠ [] ∧ (∀ line ∈ Text.splitLines text, Text.Solid line) ∧ '#' ∉ text ∧ '@' ∉ text ∧
        ∀ sign ∈ ['$', '%'], ∀ c, Window.isNameStart c = true → ¬ [sign, c] <:+: text) ∧
    ∀ n ∈ (Registry.standard.parse source).document.subtrees, n.kind = .literal →
      let text := n.content.toList
      text ≠ [] ∧ (∀ line ∈ Text.splitLines text, Text.Solid line) ∧
        (∀ c, Window.isNameStart c = true → ¬ ['%', c] <:+: text) ∧
        ∀ front gap back, text = front ++ '\n' :: (gap ++ '\n' :: back) → ∃ c ∈ gap, Text.isWhite c = false := by
  have hworded := worded_parse keeps_standard Registry.standard.namespaces source
  refine ⟨fun n hn hk => ?_, fun n hn hk => ?_⟩
  · have hprose := (hworded n hn).prose hk
    refine ⟨hprose.ne_nil, hprose.solid_lines, fun hmem => ?_, fun hmem => ?_, fun sign hsign c hc => ?_⟩
    · exact hprose.allowed '#' hmem (.head _)
    · exact hprose.allowed '@' hmem (.tail _ (.head _))
    · exact hprose.not_infix hsign hc
  · have hliteral := (hworded n hn).literal hk
    exact ⟨hliteral.ne_nil, hliteral.solid_lines, fun c hc => hliteral.not_infix (.head _) hc,
      fun _ _ _ => hliteral.no_blank_line⟩

end Markup

end Evomark
