import Evomark.Toolchain
import Evomark.Proofs.Markup.Nested
import Evomark.Proofs.Markup.Nesting
/-!
# Code between fences

Code between fences is kept as it stands and printed as it was read (`Toolchain.fenced_verbatim`): braces,
signs, line feeds and other fences in it have no meaning. The only text that cannot stand between fences of
some length is one in which the closing fence of that length stands. It may well end with equality signs,
since a closing fence is looked for from the left and has a bar at its end (`Clause.splitAt?_closingFence`).
-/

namespace Evomark.Toolchain

open Markup

/-- A text as code between fences of `n` equality signs. -/
def fencedCode (n : Nat) (text : String) : String :=
  let signs := String.ofList (List.replicate n '=')
  "#code" ++ signs ++ ">" ++ text ++ signs ++ "|"

/-- The node of a text between such fences at the start of a source. -/
def codeNode (n : Nat) (text : String) : Node :=
  let start := n + 6
  ⟨{ kind := .func, content := "code" },
    [.leaf {
      kind := .funcBody, content := text, layout := some (.code n n)
      span := some ⟨start, start + Text.byteLength text.toList⟩ }]⟩

theorem toList_fencedCode (n : Nat) (text : String) : (fencedCode n text).toList =
    '#' :: "code".toList ++ (List.replicate n '=' ++ '>' :: text.toList ++ Clause.closingFence n) := by
  simp [fencedCode, Clause.closingFence, String.toList_append]

section

variable {n : Nat} {text : String} (hn : 0 < n) (h : ¬ Clause.closingFence n <:+: text.toList)

include hn h

/-- The source is one function with one body, the text, and nothing follows it. -/
theorem calls?_fencedCode : ∃ stop, Segment.calls? (.ofSource (fencedCode n text)) =
    some (⟨"code", [.body (.code n n) ⟨n + 6, text.toList⟩]⟩, [], ⟨stop, []⟩) := by
  have hread := Clause.read?_fenced hn (Clause.splitAt?_closingFence h) 5 []
  rw [List.append_nil] at hread
  have hclauses := Window.clauses_of_read? hread
  rw [Window.clauses_nil, show 5 + n + 1 = n + 6 by omega] at hclauses
  have hname : IsName "code" := ⟨'c', "ode".toList, rfl, rfl, List.all_eq_true.1 rfl⟩
  have hsigns : ∀ c, (List.replicate n '=' ++ '>' :: text.toList ++ Clause.closingFence n).head? = some c →
      Window.isNameChar c = false := by
    obtain ⟨m, rfl⟩ := Nat.exists_eq_succ_of_ne_zero (Nat.ne_of_gt hn)
    intro c hc
    obtain rfl := Option.some.inj hc
    rfl
  have hcall := calls?_of_clauses hname hsigns hclauses
  rw [Window.ofSource, toList_fencedCode]
  exact ⟨_, Segment.calls?_of_last hcall fun hparams => absurd hparams Bool.false_ne_true⟩

theorem parse_fencedCode {t : Toolchain} (ht : t.registry.grammar.functionRule "code" = .code) :
    t.parse (fencedCode n text) =
      { document := .root [codeNode n text], config := t.registry.namespaces, complete := true } := by
  obtain ⟨stop, hcalls⟩ := calls?_fencedCode hn h
  rw [Toolchain.parse, Registry.parse, parse_function hcalls rfl]
  simp only [readFunction, ht, readClauses, readBody, String.ofList_toList]
  rfl

end

/-- Code is printed between its fences, whatever it is. -/
theorem print_codeNode (t : Toolchain) (n : Nat) (text : String) :
    t.print (.root [codeNode n text]) = fencedCode n text := by
  rw [← String.toList_inj, toList_fencedCode, Toolchain.print, Node.printWith, String.toList_ofList]
  simp only [Node.root, codeNode, Node.leaf, Node.putNodes, Node.putNode, Node.putClauses, Node.isClause, Node.kind,
    Node.putBody, if_true, Option.getD_some, Ink.put, Ink.space]
  -- a body without a text is printed as its children, of which there are none
  by_cases hempty : text.toList = [] <;> simp [hempty, Clause.closingFence]

/-- A text in which the closing fence does not stand is kept between fences as it is: the source is read to its
end as a function with one body, which has the text and nothing below it, and is printed as it stands. -/
theorem fenced_verbatim {t : Toolchain} (ht : t.registry.grammar.functionRule "code" = .code) {n : Nat}
    (hn : 0 < n) {text : String} (h : ¬ Clause.closingFence n <:+: text.toList) :
    t.parse (fencedCode n text) =
        { document := .root [codeNode n text], config := t.registry.namespaces, complete := true } ∧
      t.format (fencedCode n text) = fencedCode n text := by
  have hparse := parse_fencedCode hn h ht
  refine ⟨hparse, ?_⟩
  rw [format, hparse, print_codeNode]

/-- A text with signs of every kind, a shorter closing fence, a longer opening one, and equality signs at its
end. -/
theorem fenced_verbatim_signs :
    let text := "#é\x7b\n =| \\ ===> $a\x7d%b ===x|\n=="
    ¬ Clause.closingFence 2 <:+: text.toList ∧
      fencedCode 2 text = "#code==>#é\x7b\n =| \\ ===> $a\x7d%b ===x|\n====|" ∧
      (Toolchain.parse {} (fencedCode 2 text)).document.children.map (·.children.map (·.content)) = [[text]] ∧
      (Toolchain.parse {} (fencedCode 2 text)).complete = true ∧
      Toolchain.format {} (fencedCode 2 text) = fencedCode 2 text := by
  intro text
  have h : ¬ Clause.closingFence 2 <:+: text.toList := by decide +kernel
  obtain ⟨hparse, hformat⟩ := @fenced_verbatim {} rfl 2 (by decide) text h
  rw [hparse]
  exact ⟨h, by decide +kernel, rfl, rfl, hformat⟩

end Evomark.Toolchain
