import Evomark.Proofs.Exec.History
import Evomark.Proofs.Exec.TreePass
import Evomark.Proofs.Markup.Built
/-!
# Trees stay well-formed

A tree starts as a root only or is read from a source (`Tree.Initial`), and changes by edits at attached
nodes and by passes over its commands (`Tree.Change`). All of this is done by edits at attached nodes, so the
links of the trees that come of it agree at all times, and a node that has been removed never comes back
(`Tree.wellFormed_of_changes`). What a tree shows that has been read and passed over is what `parse` and
`exec` make of the source (`Tree.document_passes`).
-/

namespace Evomark

/-- The tree into which a source is read. -/
def Registry.readTree (r : Registry) (source : String) : Tree :=
  (Markup.Reader.core r.grammar (.ofSource r.namespaces source)).2.tree

namespace Tree

/-- A tree that work starts from: a root only, or one into which a source is read. -/
inductive Initial : Tree → Prop
  | empty : Initial empty
  | read (r : Registry) (source : String) : Initial (r.readTree source)

/-- What happens to a tree: an edit at an attached node, or a pass over its commands. -/
inductive Change : Tree → Tree → Prop
  | edit {t : Tree} (e : Edit) (he : t.isAttached e.target = true) : Change t (e.apply t)
  | pass {t : Tree} (r : Registry) (ctx : Context) : Change t (t.pass r.execution ctx).tree

/-- Changes one after the other. -/
def Changes : Tree → Tree → Prop := Relation.ReflTransGen Change

section

variable {s t u : Tree}

theorem Initial.edits (h : s.Initial) : Tree.empty.Edits s := by
  cases h with
  | empty => exact .refl
  | read r source => exact (Markup.Reader.core_ofSource r.grammar r.namespaces source).2.2.2

theorem Change.edits (h : t.Change u) (ht : t.Sound) : t.Edits u := by
  cases h with
  | edit e he => exact .edit e he
  | pass r ctx => exact (ht.pass ht.shows_document r.execution ctx).1

theorem Changes.edits (h : t.Changes u) (ht : t.Sound) : t.Edits u := by
  induction h with
  | refl => exact .refl
  | tail _ hchange ih => exact ih.trans (hchange.edits (ih.sound ht))

/-- Whatever happens to a tree is done by edits at attached nodes: its links agree, and nodes once removed stay
removed. A pass over a tree ends as a pass over its document and leaves the same document. -/
theorem wellFormed_of_changes (hs : s.Initial) (ht : s.Changes t) (hu : t.Changes u) :
    u.WellFormed ∧ (∀ id, t.Removed id → u.Removed id) ∧ empty.Edits t ∧ t.Edits u ∧
      ∀ (r : Registry) (ctx : Context),
        (u.pass r.execution ctx).tree.document.unslotted = (r.exec u.document ctx).document.unslotted ∧
        (u.pass r.execution ctx).state = (r.exec u.document ctx).state ∧
        (u.pass r.execution ctx).outcome = (r.exec u.document ctx).outcome := by
  have hsound := hs.edits.sound sound_empty
  have hst := ht.edits hsound
  have htsound := hst.sound hsound
  have htu := hu.edits htsound
  have husound := htu.sound htsound
  refine ⟨husound.wellFormed, fun id hid => htu.removed htsound hid, hs.edits.trans hst, htu, fun r ctx => ?_⟩
  obtain ⟨hedits, hshows, hstate, houtcome⟩ := husound.pass husound.shows_document r.execution ctx
  exact ⟨hshows.unslotted_document (hedits.sound husound), hstate, houtcome⟩

end

/-- A text put below the root and removed again is not brought back by a pass and a further text. -/
theorem wellFormed_of_changes_removed :
    let t := (empty.pushChild root { kind := .text, content := "a" }).2.remove 1
    let passed := (t.pass Registry.standard.execution {}).tree
    let u := (passed.pushChild root { kind := .text, content := "b" }).2
    t.Removed 1 ∧ u.WellFormed ∧ u.Removed 1 := by
  intro t passed u
  have hpush : Change empty (empty.pushChild root { kind := .text, content := "a" }).2 :=
    .edit (.push root { kind := .text, content := "a" }) rfl
  have ht : empty.Changes t := .tail (.single hpush) (.edit (.remove 1) (by decide))
  have hremoved : t.Removed 1 := removed_remove (by decide) (by decide)
  have hpass : t.Changes passed := .single (.pass Registry.standard {})
  have hpassed : passed.Sound :=
    (hpass.edits ((ht.edits sound_empty).sound sound_empty)).sound ((ht.edits sound_empty).sound sound_empty)
  have hu : t.Changes u :=
    hpass.tail (.edit (.push root { kind := .text, content := "b" }) hpassed.root_attached)
  obtain ⟨hwell, hstays, -⟩ := wellFormed_of_changes .empty ht hu
  exact ⟨hremoved, hwell, hstays 1 hremoved⟩

/-! ## Sources read and executed -/

/-- A tree after passes one after the other. -/
def passes (t : Tree) (rules : Table ExecRule) (ctxs : List Context) : Tree :=
  ctxs.foldl (fun t ctx => (t.pass rules ctx).tree) t

theorem Sound.passes {t : Tree} (ht : t.Sound) {document : Node} (hn : t.Shows root document)
    (rules : Table ExecRule) (ctxs : List Context) :
    (t.passes rules ctxs).Sound ∧ (t.passes rules ctxs).Shows root (afterPasses rules document ctxs) := by
  induction ctxs generalizing t document with
  | nil => exact ⟨ht, hn⟩
  | cons ctx rest ih =>
    obtain ⟨hedits, hshows, -⟩ := ht.pass hn rules ctx
    exact ih (hedits.sound ht) hshows

/-- A tree into which a source is read shows, after any passes over it, what passes over the document of the
source leave. -/
theorem document_passes (r : Registry) (source : String) (ctxs : List Context) :
    ((r.readTree source).passes r.execution ctxs).document.unslotted =
      (afterPasses r.execution (r.parse source).document ctxs).unslotted := by
  obtain ⟨hdocument, -, -, hedits⟩ := Markup.Reader.core_ofSource r.grammar r.namespaces source
  have ht : (r.readTree source).Sound := hedits.sound sound_empty
  have hn : (r.readTree source).Shows root (r.parse source).document := by
    rw [Registry.parse, ← hdocument]
    exact shows_unslotted.2 ht.shows_document
  obtain ⟨hsound, hshows⟩ := ht.passes hn r.execution ctxs
  exact hshows.unslotted_document hsound

end Tree

end Evomark
