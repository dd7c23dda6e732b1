import Evomark.Proofs.Markup.Nesting
import Evomark.Proofs.Markup.ByteSteps
/-!
# Reading by bytes gives the document

What a reader does by bytes when it looks into bodies, too: the steps that read a window inside another one are
related under the assumption that shorter windows are read alike, and a window is read by its steps. So a source
is read by bytes as it is by characters, and no byte, text or node is asked for that is not there.
-/

namespace Evomark.Markup.Reader

/-! ## One clause more -/

section

variable {n : Nat} {read : Reads n} {rule : BodyRule} {kind : Kind} {param : Option Json} {r : Reader}
  {h : r.rest.length ≤ n} {rest : Window}

theorem clauses_of_param {raw : String} {value : Json} {span : Span}
    (hc : Clause.read? r.rest = some (.param raw value span, rest)) :
    clauses read rule kind param r h = clauses read rule kind (some value) (r.behindParam raw value span rest)
      (Nat.le_trans (Nat.le_of_lt (Clause.length_read? hc)) h) := by
  rw [clauses]
  split
  · rename_i hnone
    rw [hc] at hnone
    cases hnone
  · rename_i hsome
    obtain ⟨⟨rfl, rfl, rfl⟩, rfl⟩ : _ ∧ _ := by simpa [hc] using hsome
    rfl
  · rename_i hsome
    rw [hc] at hsome
    cases hsome

theorem clauses_of_body {layout : Layout} {inner : Window}
    (hc : Clause.read? r.rest = some (.body layout inner, rest)) :
    clauses read rule kind param r h = clauses read rule kind param
      (body read rule param (r.openBody kind layout inner rest).1 inner (r.openBody kind layout inner rest).2
        (Nat.lt_of_lt_of_le (Clause.within_read? hc) h))
      (Nat.le_trans (Nat.le_of_lt (Clause.length_read? hc)) h) := by
  rw [clauses]
  split
  · rename_i hnone
    rw [hc] at hnone
    cases hnone
  · rename_i hsome
    rw [hc] at hsome
    cases hsome
  · rename_i hsome
    obtain ⟨⟨rfl, rfl⟩, rfl⟩ : _ ∧ _ := by simpa [hc] using hsome
    rfl

end

/-! ## Behind an equality sign -/

section

variable {n : Nat} {read : Reads n} {g : Grammar} {r : Reader} {h : r.rest.length ≤ n} {target : Window}

theorem reference_of_none (hs : r.rest.chars.head? = some '@')
    (ht : Segment.afterEquals? r.behindName.rest = none) :
    reference read g r h = (true, r.behindName.warn (referenceWarning r.rest.tail.name)) := by
  rw [reference, if_pos hs]
  simp only
  split
  · rfl
  · rename_i ht'
    rw [ht] at ht'
    cases ht'

theorem reference_of_some (hs : r.rest.chars.head? = some '@')
    (ht : Segment.afterEquals? r.behindName.rest = some target) :
    reference read g r h =
      if target.chars.head? == some '#' then
        let opened := { r with rest := target }.enter { kind := .ref, content := r.rest.tail.name }
        let found := function read g opened.2
          (Nat.le_trans (Segment.length_afterEquals? ht) (Nat.le_trans (length_behindName_le r) h))
        (true, (if found.1 then found.2 else found.2.warn (referenceWarning r.rest.tail.name)).ascend opened.1)
      else (true, { r with rest := target }.warn (referenceWarning r.rest.tail.name)) := by
  rw [reference, if_pos hs]
  simp only
  split
  · rename_i ht'
    rw [ht] at ht'
    cases ht'
  · rename_i target' ht'
    obtain rfl : target = target' := Option.some.inj (ht.symm.trans ht')
    rfl

theorem assignment_of_none (hs : r.startsWith '%' = true)
    (ht : Segment.afterEquals? r.behindName.rest = none) :
    assignment read g r h = (true, (r.behindName.push { kind := .varUse, content := r.rest.tail.name }).2) := by
  rw [assignment, if_pos hs]
  simp only
  split
  · rfl
  · rename_i ht'
    rw [ht] at ht'
    cases ht'

theorem assignment_of_some (hs : r.startsWith '%' = true)
    (ht : Segment.afterEquals? r.behindName.rest = some target) :
    assignment read g r h =
      let opened := { r with rest := target }.enter { kind := .varAssign, content := r.rest.tail.name }
      let found := command read g opened.2
        (Nat.le_trans (Segment.length_afterEquals? ht) (Nat.le_trans (length_behindName_le r) h))
      let back := found.2.ascend opened.1
      (true, if found.1 then back
        else { back with tree := back.tree.remove opened.1 }.warn (assignmentWarning r.rest.tail.name)) := by
  rw [assignment, if_pos hs]
  simp only
  split
  · rename_i ht'
    rw [ht] at ht'
    cases ht'
  · rename_i target' ht'
    obtain rfl : target = target' := Option.some.inj (ht.symm.trans ht')
    rfl

end

/-! ## Bodies -/

/-- Windows read to their ends, with fewer than `n` characters left. -/
abbrev reads (g : Grammar) (n : Nat) : Reads n := fun r _ => core g r

section

variable {g : Grammar} {s : String} {n : Nat}
  (hread : ∀ r : Reader, r.rest.length < n → r.StandsIn s →
    ByteReader.core s g r.byBytes = pure (Prod.map id byBytes (core g r)))

include hread

theorem byBytes_runRule (rule : BodyRule) (param : Option Json) {r : Reader} (h : r.rest.length < n)
    (hr : r.StandsIn s) :
    ByteReader.runRule s g rule param r.byBytes =
      pure (Prod.map id byBytes (runRule (reads g n) rule param r h)) := by
  have hlt := hr.ready.lt
  have hraw : r.takeRaw.current < r.takeRaw.tree.slots.size :=
    Nat.lt_of_lt_of_le hlt r.keepsParents_takeRaw.size_le
  rw [ByteReader.runRule.eq_def]
  cases rule with
  | box => exact hread r h hr
  | code =>
    simp only [takeRaw_eq hr, pure_bind]
    rfl
  | literal =>
    have hrun : RunTo s r.window.stop r.rest.offset r.rest.offset [] r.rest.chars :=
      ⟨hr.rest, rfl, hr.spans.stop_eq⟩
    simp only [byBytes_pos, literals_eq hlt hrun, pure_bind]
    rfl
  | config space =>
    simp only [takeRaw_eq hr, pure_bind, byBytes_pushLeaves hraw]
    rfl
  | reject => rfl
  | shout =>
    simp only [byBytes_start, byBytes_stop, hr.window.textBetween, pure_bind, byBytes_pushLeaves hlt]
    rfl

theorem byBytes_body (rule : BodyRule) (param : Option Json) {id : Nat} {inner : Window} {r : Reader}
    (h : inner.length < n) (hr : Ready r.tree id) (hinner : inner.LiesIn s) :
    ByteReader.body s g rule param id ⟨inner.offset, inner.stop⟩ r.byBytes =
      pure (body (reads g n) rule param id inner r h).byBytes := by
  have hrun := byBytes_runRule hread rule param
    (r := { r with window := inner, rest := inner, current := id }) h ⟨hinner, .refl _, hr⟩
  rw [ByteReader.body, show ({ r.byBytes with
    start := inner.offset, pos := inner.offset, stop := inner.stop, current := id } : ByteReader) =
      ({ r with window := inner, rest := inner, current := id } : Reader).byBytes from rfl, hrun, pure_bind]
  rfl

/-! ## Clauses -/

omit hread in
theorem keepsParents_reads (r : Reader) (h : r.rest.length < n) : r.tree.KeepsParents (reads g n r h).2.tree :=
  (keeps_core g r).parents

omit hread in
theorem stands_body (rule : BodyRule) (kind : Kind) (param : Option Json) {r : Reader} (hr : r.StandsIn s)
    (layout : Layout) {inner rest : Window} (hrest : r.rest.LeadsTo rest) (h : inner.length < n) :
    (body (reads g n) rule param (r.openBody kind layout inner rest).1 inner
      (r.openBody kind layout inner rest).2 h).StandsIn s :=
  (hr.goOn hrest).keeps ((keeps_push _ _).trans (keeps_body keepsParents_reads rule param _ inner _ h))
    ((gives_body (fun r _ hr => gives_core g r hr) rule param { r with rest } hr.ready _ rfl inner h).ready hr.ready)

omit hread in
theorem stands_clauses (rule : BodyRule) (kind : Kind) (param : Option Json) {r : Reader} (h : r.rest.length ≤ n)
    (hr : r.StandsIn s) (hroot : r.current ≠ Tree.root) :
    (clauses (reads g n) rule kind param r h).2.StandsIn s :=
  hr.keeps (keeps_clauses keepsParents_reads rule kind param r h)
    ((gives_clauses (fun r _ hr => gives_core g r hr) rule kind param r h hr.ready hroot).ready hr.ready)

omit hread in
theorem bodyClause_of_none {rule : BodyRule} {kind : Kind} {param : Option Json} {found : Bool} {r : Reader}
    (hr : r.StandsIn s) (hbody : Clause.body? r.rest = none) :
    ByteReader.bodyClause s g rule kind param found r.byBytes = pure (found, param, r.byBytes) := by
  rw [ByteReader.bodyClause, takeBody_eq kind hr, hbody, pure_bind]

theorem bodyClause_of_some {rule : BodyRule} {kind : Kind} {param : Option Json} {found : Bool} {r : Reader}
    (hr : r.StandsIn s) {layout : Layout} {inner rest : Window} (h : inner.length < n)
    (hbody : Clause.body? r.rest = some (.body layout inner, rest)) :
    ByteReader.bodyClause s g rule kind param found r.byBytes =
      pure (true, param, (body (reads g n) rule param (r.openBody kind layout inner rest).1 inner
        (r.openBody kind layout inner rest).2 h).byBytes) := by
  obtain ⟨_, _, hsame, hinner⟩ := Clause.inside_of_body? hbody
  cases hsame
  rw [ByteReader.bodyClause, takeBody_eq kind hr, hbody, pure_bind]
  simp only
  rw [byBytes_body hread rule param h (hr.ready.pushChild _) (hinner hr.rest), pure_bind]

/-- A loop over clauses goes on where there are none left. -/
theorem eq_of_clauses {α : Type} {rule : BodyRule} (kind : Kind) {f k : Option Json → ByteReader → Attempt α}
    (hf : ∀ param b, f param b = do
      let (found, param, b) ← ByteReader.clause s g rule kind param b
      if found then f param b else k param b)
    (param : Option Json) (r : Reader) (h : r.rest.length ≤ n) (hr : r.StandsIn s) :
    f param r.byBytes = k (clauses (reads g n) rule kind param r h).1
      (clauses (reads g n) rule kind param r h).2.byBytes := by
  rw [hf, ByteReader.clause, takeParam_eq hr, pure_bind]
  cases hparam : Clause.param? r.rest with
  | none =>
    simp only [Option.none_or]
    cases hbody : Clause.body? r.rest with
    | none =>
      have hnone : Clause.read? r.rest = none := by rw [Clause.read?, hparam, hbody]; rfl
      rw [bodyClause_of_none hr hbody, clauses_of_read?_none _ hnone]
      rfl
    | some found =>
      obtain ⟨c, rest⟩ := found
      obtain ⟨layout, inner, rfl, -⟩ := Clause.inside_of_body? hbody
      have hc := Clause.read?_of_body? hbody
      have hlength := Clause.length_read? hc
      have hinner := Nat.lt_of_lt_of_le (Clause.within_read? hc) h
      rw [bodyClause_of_some hread hr hinner hbody, pure_bind, clauses_of_body hc]
      exact eq_of_clauses kind hf param _ _ (stands_body rule kind param hr layout (Clause.leadsTo_read? hc) hinner)
  | some found =>
    obtain ⟨c, rest⟩ := found
    have hisParam := Clause.isParam_of_param? hparam
    cases c with
    | body => cases hisParam
    | param raw value span =>
      have hc : Clause.read? r.rest = some (.param raw value span, rest) := by
        rw [Clause.read?, hparam]
        rfl
      have hlength := Clause.length_read? hc
      have hopened : (r.behindParam raw value span rest).StandsIn s := (hr.goOn (Clause.leadsTo_read? hc)).push _
      rw [clauses_of_param hc]
      simp only [Option.some_or, Option.isSome_some]
      cases hbody : Clause.body? rest with
      | none =>
        rw [bodyClause_of_none hopened hbody, pure_bind]
        exact eq_of_clauses kind hf (some value) _ _ hopened
      | some found =>
        obtain ⟨c, behind⟩ := found
        obtain ⟨layout, inner, rfl, -⟩ := Clause.inside_of_body? hbody
        have hc' := Clause.read?_of_body? hbody
        have hlength' := Clause.length_read? hc'
        have hinner := Nat.lt_of_lt_of_le (Clause.within_read? hc') (Nat.le_trans (Nat.le_of_lt hlength) h)
        rw [bodyClause_of_some hread hopened hinner hbody, pure_bind, clauses_of_body hc']
        exact eq_of_clauses kind hf (some value) _ _
          (stands_body rule kind (some value) hopened layout (Clause.leadsTo_read? hc') hinner)
termination_by r.rest.length
decreasing_by
  · exact hlength
  · exact hlength
  · exact Nat.lt_trans hlength' hlength

/-! ## Constructs -/

omit hread in
theorem startsAt_byBytes {r : Reader} {sigil : Char} (hs : sigil.toNat < 128) (hr : r.StandsIn s) :
    startsAt s r.byBytes.stop r.byBytes.pos sigil = pure (r.startsWith sigil) := startsAt_eq hs hr.spans

omit hread in
theorem signAt_byBytes {r : Reader} {sign : Char} (hs : sign.toNat < 128) (hr : r.StandsIn s) :
    signAt s r.byBytes.stop r.byBytes.pos sign = pure (r.rest.chars.head? == some sign) := signAt_eq hs hr.spans

omit hread in
/-- The name behind a sign. -/
theorem takeName_tail {r : Reader} {c : Char} {rest : List Char} (hr : r.StandsIn s)
    (hchars : r.rest.chars = c :: rest) (hc : c.toNat < 128) :
    ByteReader.takeName s { r.byBytes with pos := r.byBytes.pos + 1 } =
      pure (r.rest.tail.name, r.behindName.byBytes) := by
  have htail := hr.goOn (Window.leadsTo_tail r.rest)
  rw [byBytes_pos, byBytes_goOn _ (offset_tail hchars hc).symm, takeName_eq htail.rest htail.stop_eq]
  rfl

omit hread in
theorem byBytes_named {r : Reader} (hr : r.StandsIn s) (kind : Kind) :
    r.behindName.byBytes.enter { kind, content := r.rest.tail.name } =
      pure ((r.named kind).1, (r.named kind).2.byBytes) := byBytes_enter (r := r.behindName) hr.ready.lt _

omit hread in
theorem stands_named {r : Reader} (hr : r.StandsIn s) (kind : Kind) : (r.named kind).2.StandsIn s :=
  (hr.goOn (leadsTo_behindName r)).enter _

omit hread in
/-- When reading has gone on below a node, the node is still there to climb from. -/
theorem ascend_of_keeps {r r' : Reader} (hr : r.StandsIn s) (h : r.Keeps r') :
    r'.byBytes.ascend r.current = pure (r'.ascend r.current).byBytes :=
  byBytes_ascend (Nat.lt_of_lt_of_le hr.ready.lt h.parents.size_le)

theorem byBytes_command (r : Reader) (h : r.rest.length ≤ n) (hr : r.StandsIn s) :
    ByteReader.command s g r.byBytes = pure (Prod.map id byBytes (command (reads g n) g r h)) := by
  rw [ByteReader.command, startsAt_byBytes (by decide) hr, pure_bind, command]
  by_cases hs : r.startsWith '$' = true
  · have hchars := (Window.cons_tail_of_startsConstruct hs).symm
    have hlength : (r.named .cmd).2.rest.length ≤ n := Nat.le_trans (Nat.le_of_lt (length_behindName hs)) h
    have hclauses := eq_of_clauses hread .body (f := ByteReader.commandClauses s g (g.commandRule r.rest.tail.name))
      (k := fun _ b => pure b) (fun param b => by rw [ByteReader.commandClauses]) none
      (r.named .cmd).2 hlength (stands_named hr .cmd)
    have hkeeps := keeps_clauses (keepsParents_reads (g := g)) (g.commandRule r.rest.tail.name) .body none
      (r.named .cmd).2 hlength
    rw [dif_pos hs, if_pos hs, takeName_tail hr hchars (by decide), pure_bind]
    simp only
    rw [byBytes_named hr, pure_bind]
    simp only
    rw [hclauses, pure_bind, show (r.named .cmd).1 = (r.named .cmd).2.current from rfl,
      ascend_of_keeps (stands_named hr .cmd) hkeeps, pure_bind]
    rfl
  · rw [dif_neg hs, if_neg hs]
    rfl

omit hread in
/-- A function that has a body has it for good. -/
theorem hasOnlyParams_of_extends {r : Reader} (r' : Reader) {added : Nat → List Node} (ht : r.tree.Sound)
    (h : r.tree.Extends r'.tree added) {id : Nat} (hr : r.hasOnlyParams id = false) :
    r'.hasOnlyParams id = false := by
  rw [hasOnlyParams, List.all_eq_false] at hr ⊢
  obtain ⟨c, hc, hkind⟩ := hr
  have hstays {q : Nat} (hq : q < r.tree.slots.size) : r'.tree.label q = r.tree.label q ∧
      ∃ ids, r'.tree.children q = r.tree.children q ++ ids := by
    obtain ⟨slot, hslot⟩ := Tree.exists_slot? hq
    obtain ⟨ids, hids, -⟩ := h.slot? hslot
    rw [Tree.label, Tree.label, Tree.children, Tree.children, hslot, hids]
    exact ⟨rfl, ids, rfl⟩
  obtain ⟨-, ids, hchildren⟩ := hstays (Tree.lt_of_mem_children hc)
  refine ⟨c, hchildren ▸ List.mem_append_left _ hc, ?_⟩
  rw [Tree.kind, (hstays (Tree.lt_of_isAttached (ht.child hc).2.2.1)).1]
  exact hkind

omit hread in
theorem hasOnlyParams_enter {r : Reader} (hr : r.StandsIn s) {label : Label} (hlabel : label.kind ≠ .funcParam) :
    (r.enter label).2.hasOnlyParams r.current = false := by
  have hslot := Tree.slot?_pushChild (q := r.current) label hr.ready.lt
  have hnew := Tree.slot?_pushChild (q := r.tree.slots.size) label hr.ready.lt
  have hold : r.tree.slot? r.current = some _ := Array.getElem?_eq_getElem hr.ready.lt
  rw [if_neg (Nat.ne_of_lt hr.ready.lt), if_pos rfl, hold] at hslot
  rw [if_pos rfl] at hnew
  rw [hasOnlyParams, List.all_eq_false, show (r.enter label).2.tree = (r.tree.pushChild r.current label).2 from rfl]
  refine ⟨r.tree.slots.size, ?_, ?_⟩
  · rw [Tree.children, hslot]
    exact List.mem_append_right _ (.head _)
  · rw [Tree.kind, Tree.label, hnew, beq_iff_eq]
    exact hlabel

omit hread in
theorem host_of_last {rule : BodyRule} {param : Option Json} {r : Reader} (hr : r.StandsIn s)
    (h : (r.hasOnlyParams r.current && r.startsWith '#') = false) :
    ByteReader.host s g rule r.current param r.byBytes = pure r.byBytes := by
  rw [ByteReader.host, byBytes_hasOnlyParams hr.ready.sound hr.ready.lt, pure_bind,
    startsAt_byBytes (by decide) hr, andThen_pure, pure_bind, h, if_neg Bool.false_ne_true]

omit hread in
theorem host_of_next {rule : BodyRule} {param : Option Json} {r : Reader} (hr : r.StandsIn s)
    (h : (r.hasOnlyParams r.current && r.startsWith '#') = true) :
    ByteReader.host s g rule r.current param r.byBytes = (do
      let (_, b) ← ByteReader.function s g
        (r.enter { kind := .funcBody, layout := some .directChild }).2.byBytes
      ByteReader.functionClauses s g rule r.current param { b with current := r.current }) := by
  rw [ByteReader.host, byBytes_hasOnlyParams hr.ready.sound hr.ready.lt, pure_bind,
    startsAt_byBytes (by decide) hr, andThen_pure, pure_bind, h, if_pos rfl, byBytes_enter hr.ready.lt, pure_bind]

omit hread in
/-- A step that has taken something only adds to the tree. -/
theorem Takes.grown {r : Reader} {found : Bool × Reader} {o : Option (Finding × Window)} (h : r.Takes found o)
    (hfound : found.1 = true) :
    (∃ added, r.tree.Extends found.2.tree added) ∧ ∀ p, Ready r.tree p → Ready found.2.tree p := by
  cases o with
  | none => rw [h] at hfound; cases hfound
  | some o => exact ⟨⟨_, h.2.2.grown⟩, fun p hp => h.2.2.ready hp⟩

/-- The body of a function that hosts another. -/
abbrev direct (r : Reader) : Reader := (r.enter { kind := .funcBody, layout := some .directChild }).2

/-- The reader behind the function that the current one hosts. -/
def hosted (g : Grammar) (r : Reader) (h : r.rest.length ≤ n) : Reader :=
  { (function (reads g n) g r.direct h).2 with current := r.current }

omit hread in
/-- Behind the function that it hosts, a function has more than parameters. -/
theorem stands_hosted {r : Reader} (hr : r.StandsIn s) (hs : r.startsWith '#' = true) (h : r.rest.length ≤ n) :
    (r.hosted g h).StandsIn s ∧ (r.hosted g h).hasOnlyParams r.current = false := by
  have hbelow : r.direct.StandsIn s := hr.enter _
  have hkeeps := keeps_function (keepsParents_reads (g := g)) g r.direct h
  have hfound : (function (reads g n) g r.direct h).1 = true := (fst_function _ g r.direct h).trans hs
  obtain ⟨⟨added, hgrown⟩, hready⟩ :=
    (takes_function (fun r _ hr => gives_core g r hr) r.direct h hbelow.ready).grown hfound
  have hstands := hbelow.keeps hkeeps (hready _ hbelow.ready)
  refine ⟨⟨hstands.window, hstands.leadsTo, hready _ ((gives_push hr.ready _).ready hr.ready)⟩, ?_⟩
  exact hasOnlyParams_of_extends (r.hosted g h) hbelow.ready.sound hgrown (hasOnlyParams_enter hr nofun)

/-- A function that has more than parameters hosts no other. -/
theorem functionClauses_of_hosted (rule : BodyRule) (param : Option Json) {r : Reader} (h : r.rest.length ≤ n)
    (hr : r.StandsIn s) (hroot : r.current ≠ Tree.root) (hparams : r.hasOnlyParams r.current = false) :
    ByteReader.functionClauses s g rule r.current param r.byBytes =
      pure (clauses (reads g n) rule .funcBody param r h).2.byBytes := by
  have hbehind := stands_clauses (g := g) rule .funcBody param h hr hroot
  have hcurrent := current_clauses (reads g n) rule .funcBody param r h
  have hgives := gives_clauses (fun r _ hr => gives_core g r hr) rule .funcBody param r h hr.ready hroot
  have hmore := hasOnlyParams_of_extends (clauses (reads g n) rule .funcBody param r h).2 hr.ready.sound
    hgives.grown hparams
  rw [eq_of_clauses hread .funcBody (f := ByteReader.functionClauses s g rule r.current)
    (k := ByteReader.host s g rule r.current)
    (fun param b => by rw [ByteReader.functionClauses]) param r h hr, ← hcurrent]
  exact host_of_last hbehind (by rw [hcurrent, hmore]; rfl)

/-- A function that hosts another goes on behind it, and then climbs to its parent. -/
theorem ascend_of_next {rule : BodyRule} {param : Option Json} {r : Reader} (hr : r.StandsIn s)
    (hroot : r.current ≠ Tree.root) (hhost : (r.hasOnlyParams r.current && r.startsWith '#') = true)
    (h : r.rest.length ≤ n) (hhosted : (r.hosted g h).rest.length ≤ n)
    (hfunction : ByteReader.function s g r.direct.byBytes =
      pure (Prod.map id byBytes (function (reads g n) g r.direct h))) :
    (ByteReader.host s g rule r.current param r.byBytes >>= fun b => b.ascend r.current) =
      pure ((clauses (reads g n) rule .funcBody param (r.hosted g h) hhosted).2.ascend r.current).byBytes := by
  obtain ⟨hback, hparams⟩ := stands_hosted (g := g) hr (Bool.and_eq_true_iff.1 hhost).2 h
  have hrest : ByteReader.functionClauses s g rule r.current param (r.hosted g h).byBytes = _ :=
    functionClauses_of_hosted hread rule param hhosted hback hroot hparams
  have hhosts : ByteReader.host s g rule r.current param r.byBytes =
      ByteReader.functionClauses s g rule r.current param (r.hosted g h).byBytes := by
    rw [host_of_next hr hhost, hfunction, pure_bind]
    rfl
  have hascend := ascend_of_keeps hback
    (keeps_clauses (keepsParents_reads (g := g)) rule .funcBody param _ hhosted)
  rw [hhosts, hrest, pure_bind]
  exact hascend

theorem byBytes_function (r : Reader) (h : r.rest.length ≤ n) (hr : r.StandsIn s) :
    ByteReader.function s g r.byBytes = pure (Prod.map id byBytes (function (reads g n) g r h)) := by
  rw [ByteReader.function, startsAt_byBytes (by decide) hr, pure_bind, function_eq]
  by_cases hs : r.startsWith '#' = true
  · have hchars := (Window.cons_tail_of_startsConstruct hs).symm
    have hnamed := stands_named hr .func
    have hlength : (r.named .func).2.rest.length ≤ n := Nat.le_trans (Nat.le_of_lt (length_behindName hs)) h
    have hclauses := eq_of_clauses hread .funcBody
      (f := ByteReader.functionClauses s g (g.functionRule r.rest.tail.name) (r.named .func).1)
      (k := ByteReader.host s g (g.functionRule r.rest.tail.name) (r.named .func).1)
      (fun param b => by rw [ByteReader.functionClauses]) none (r.named .func).2 hlength hnamed
    have hfront := stands_clauses (g := g) (g.functionRule r.rest.tail.name) .funcBody none hlength hnamed
      hr.ready.fresh
    have hcurrent := current_clauses (reads g n) (g.functionRule r.rest.tail.name) .funcBody none
      (r.named .func).2 hlength
    have hshort : (clauses (reads g n) (g.functionRule r.rest.tail.name) .funcBody none (r.named .func).2
        hlength).2.rest.length < r.rest.length :=
      Nat.lt_of_le_of_lt (length_clauses_le _) (length_behindName hs)
    rw [dif_pos hs, if_pos hs, takeName_tail hr hchars (by decide), pure_bind]
    simp only
    rw [byBytes_named hr, pure_bind]
    simp only
    rw [hclauses]
    obtain ⟨front, heq⟩ : ∃ front, front = clauses (reads g n) (g.functionRule r.rest.tail.name) .funcBody none
      (r.named .func).2 hlength := ⟨_, rfl⟩
    simp only [← heq] at hfront hcurrent hshort ⊢
    have hid : (r.named .func).1 = front.2.current := hcurrent.symm
    have hroot : front.2.current ≠ Tree.root := hid ▸ hr.ready.fresh
    rw [hid]
    cases hhost : front.2.hasOnlyParams front.2.current && front.2.startsWith '#' with
    | false =>
      rw [host_of_last hfront hhost, pure_bind, byBytes_ascend hfront.ready.lt, pure_bind]
      rfl
    | true =>
      have hbound := Nat.le_trans (Nat.le_of_lt hshort) h
      have hhosted : (front.2.hosted g hbound).rest.length ≤ n :=
        Nat.le_trans (advances_function (reads g n) g front.2.direct hbound).length_le hbound
      have hfunction := byBytes_function front.2.direct hbound (hfront.enter _)
      rw [← bind_assoc, ascend_of_next hread hfront hroot hhost hbound hhosted hfunction, pure_bind]
      rfl
  · rw [dif_neg hs, if_neg hs]
    rfl
termination_by r.rest.length
decreasing_by
  subst heq
  exact hshort

omit hread in
/-- The window behind an equality sign, if there is one. -/
theorem behindEquals_behindName {r : Reader} (hr : r.StandsIn s) :
    ByteReader.behindEquals s r.behindName.byBytes =
      pure ((Segment.afterEquals? r.behindName.rest).map (·.offset)) :=
  behindEquals_eq (hr.goOn (leadsTo_behindName r))

/-- A function below a reference, and a warning where there is none. -/
theorem byBytes_referred (r : Reader) (label : Label) (message : String) (h : r.rest.length ≤ n)
    (hr : r.StandsIn s) :
    (do
      let (id, b) ← r.byBytes.enter label
      let (found, b) ← ByteReader.function s g b
      let b ← if found then pure b else b.warn message
      let b ← b.ascend id
      pure (true, b)) =
      (let found := function (reads g n) g (r.enter label).2 h
      pure (true, ((if found.1 then found.2 else found.2.warn message).ascend (r.enter label).1).byBytes) :
        Attempt (Bool × ByteReader)) := by
  obtain ⟨opened, hopen⟩ : ∃ opened, opened = r.enter label := ⟨_, rfl⟩
  have hopened : opened.2.StandsIn s := hopen ▸ hr.enter _
  have hid : opened.1 = opened.2.current := hopen ▸ rfl
  have hlength : opened.2.rest.length ≤ n := hopen ▸ h
  have hkeeps := keeps_function (keepsParents_reads (g := g)) g opened.2 hlength
  rw [byBytes_enter hr.ready.lt, pure_bind]
  simp only [← hopen]
  rw [byBytes_function hread _ hlength hopened, pure_bind, hid]
  obtain ⟨found, hfound⟩ : ∃ found, function (reads g n) g opened.2 hlength = found := ⟨_, rfl⟩
  rw [hfound] at hkeeps ⊢
  obtain ⟨taken, r'⟩ := found
  have hroot := Nat.lt_of_lt_of_le hopened.ready.root.lt hkeeps.parents.size_le
  cases taken with
  | true =>
    simp only [Prod.map, id, if_true, pure_bind]
    rw [ascend_of_keeps hopened hkeeps, pure_bind]
  | false =>
    simp only [Prod.map, id, if_false, Bool.false_eq_true]
    rw [byBytes_warn hroot, pure_bind, ascend_of_keeps hopened (hkeeps.trans (keeps_warn _ _)), pure_bind]

theorem byBytes_reference (r : Reader) (h : r.rest.length ≤ n) (hr : r.StandsIn s) :
    ByteReader.reference s g r.byBytes = pure (Prod.map id byBytes (reference (reads g n) g r h)) := by
  rw [ByteReader.reference, signAt_byBytes (by decide) hr, pure_bind]
  by_cases hs : r.rest.chars.head? = some '@'
  · obtain ⟨rest, hchars⟩ := List.head?_eq_some_iff.1 hs
    rw [if_pos (beq_iff_eq.2 hs), takeName_tail hr hchars (by decide), pure_bind]
    simp only
    rw [behindEquals_behindName hr, pure_bind]
    cases ht : Segment.afterEquals? r.behindName.rest with
    | none =>
      rw [reference_of_none hs ht]
      simp only [Option.map_none]
      rw [byBytes_warn (r := r.behindName) hr.ready.root.lt, pure_bind]
      rfl
    | some target =>
      have htarget := hr.goOn ((leadsTo_behindName r).trans (Segment.leadsTo_afterEquals? ht))
      have hsign : signAt s r.behindName.byBytes.stop target.offset '#' = pure (target.chars.head? == some '#') :=
        signAt_byBytes (by decide) htarget
      have hgoOn : { r.behindName.byBytes with pos := target.offset } =
          ({ r with rest := target } : Reader).byBytes := rfl
      rw [reference_of_some hs ht, Option.map_some]
      simp only
      rw [hsign, pure_bind, hgoOn]
      split
      · exact byBytes_referred hread _ _ _ (Nat.le_trans (Segment.length_afterEquals? ht)
          (Nat.le_trans (length_behindName_le r) h)) htarget
      · rw [byBytes_warn htarget.ready.root.lt, pure_bind]
        rfl
  · rw [reference, if_neg hs, if_neg (mt beq_iff_eq.1 hs)]
    rfl

/-- A command below an assignment, which is taken back with a warning where there is none. -/
theorem byBytes_assigned (r : Reader) (label : Label) (message : String) (h : r.rest.length ≤ n)
    (hr : r.StandsIn s) :
    (do
      let (id, b) ← r.byBytes.enter label
      let (found, b) ← ByteReader.command s g b
      let b ← b.ascend id
      if found then pure (true, b)
      else
        let b ← b.remove id
        let b ← b.warn message
        pure (true, b)) =
      (let opened := r.enter label
      let found := command (reads g n) g opened.2 h
      let back := found.2.ascend opened.1
      pure (true, (if found.1 then back
        else { back with tree := back.tree.remove opened.1 }.warn message).byBytes) :
        Attempt (Bool × ByteReader)) := by
  obtain ⟨opened, hopen⟩ : ∃ opened, opened = r.enter label := ⟨_, rfl⟩
  have hopened : opened.2.StandsIn s := hopen ▸ hr.enter _
  have hid : opened.1 = opened.2.current := hopen ▸ rfl
  have hlength : opened.2.rest.length ≤ n := hopen ▸ h
  have hkeeps := keeps_command (keepsParents_reads (g := g)) g opened.2 hlength
  have hadvances := advances_command (reads g n) g opened.2 hlength
  rw [byBytes_enter hr.ready.lt, pure_bind]
  simp only [← hopen]
  rw [byBytes_command hread _ hlength hopened, pure_bind, hid]
  obtain ⟨found, hfound⟩ : ∃ found, command (reads g n) g opened.2 hlength = found := ⟨_, rfl⟩
  rw [hfound] at hkeeps hadvances ⊢
  obtain ⟨taken, r'⟩ := found
  simp only [Prod.map, id]
  rw [ascend_of_keeps hopened hkeeps, pure_bind]
  cases taken with
  | true => rfl
  | false =>
    obtain rfl : r' = opened.2 := hadvances.unchanged rfl
    simp only [if_false, Bool.false_eq_true]
    have hroot : Tree.root < (opened.2.tree.remove opened.2.current).slots.size :=
      (Tree.size_remove opened.2.tree opened.2.current).symm ▸ hopened.ready.root.lt
    rw [byBytes_remove (r := opened.2.ascend opened.2.current) hopened.ready.sound hopened.ready.attached,
      pure_bind, byBytes_warn hroot, pure_bind]

theorem byBytes_assignment (r : Reader) (h : r.rest.length ≤ n) (hr : r.StandsIn s) :
    ByteReader.assignment s g r.byBytes = pure (Prod.map id byBytes (assignment (reads g n) g r h)) := by
  rw [ByteReader.assignment, startsAt_byBytes (by decide) hr, pure_bind]
  by_cases hs : r.startsWith '%' = true
  · have hchars := (Window.cons_tail_of_startsConstruct hs).symm
    rw [if_pos hs, takeName_tail hr hchars (by decide), pure_bind]
    simp only
    rw [behindEquals_behindName hr, pure_bind]
    cases ht : Segment.afterEquals? r.behindName.rest with
    | none =>
      rw [assignment_of_none hs ht]
      simp only [Option.map_none]
      rw [byBytes_push (r := r.behindName) hr.ready.lt, pure_bind]
      rfl
    | some target =>
      have htarget := hr.goOn ((leadsTo_behindName r).trans (Segment.leadsTo_afterEquals? ht))
      have hgoOn : { r.behindName.byBytes with pos := target.offset } =
          ({ r with rest := target } : Reader).byBytes := rfl
      rw [assignment_of_some hs ht, Option.map_some]
      simp only
      rw [hgoOn]
      exact byBytes_assigned hread _ _ _ (Nat.le_trans (Segment.length_afterEquals? ht)
        (Nat.le_trans (length_behindName_le r) h)) htarget
  · rw [assignment, if_neg hs, if_neg hs]
    rfl

/-- What a step has taken is handed on, and where it has taken nothing the next one starts as it did. -/
theorem byBytes_step (r : Reader) (h : r.rest.length ≤ n) (hr : r.StandsIn s) :
    ByteReader.step s g r.byBytes = pure (Prod.map id byBytes (step (reads g n) g r h)) := by
  have htaken {found : Bool × Reader} (hf : found.1 = true) :
      (pure (true, found.2.byBytes) : Attempt (Bool × ByteReader)) = pure (Prod.map id byBytes found) := by
    rw [← hf]
    rfl
  have hsame {found : Bool × Reader} (hadvances : r.Advances found) (hf : ¬found.1 = true) : found.2 = r :=
    hadvances.unchanged (Bool.eq_false_iff.2 hf)
  rw [ByteReader.step, step_eq, prose_eq hr, pure_bind]
  simp only
  by_cases hprose : r.prose.1 = true
  · rw [if_pos hprose, if_pos hprose, htaken hprose]
  rw [if_neg hprose, if_neg hprose, hsame r.advances_prose hprose, byBytes_function hread r h hr, pure_bind]
  simp only [Prod.map, id]
  by_cases hfunction : (function (reads g n) g r h).1 = true
  · rw [if_pos hfunction, if_pos hfunction, htaken hfunction]
    rfl
  rw [if_neg hfunction, if_neg hfunction, hsame (advances_function _ g r h) hfunction,
    byBytes_reference hread r h hr, pure_bind]
  simp only [Prod.map, id]
  by_cases hreference : (reference (reads g n) g r h).1 = true
  · rw [if_pos hreference, if_pos hreference, htaken hreference]
    rfl
  rw [if_neg hreference, if_neg hreference, hsame (advances_reference _ g r h) hreference,
    byBytes_command hread r h hr, pure_bind]
  simp only [Prod.map, id]
  by_cases hcommand : (command (reads g n) g r h).1 = true
  · rw [if_pos hcommand, if_pos hcommand, htaken hcommand]
    rfl
  rw [if_neg hcommand, if_neg hcommand, hsame (advances_command _ g r h) hcommand]
  exact byBytes_assignment hread r h hr

omit hread in
/-- Behind a step that has taken something stands a reader as before it. -/
theorem stands_step {r r' : Reader} (h : r.rest.length ≤ n) (hr : r.StandsIn s)
    (hs : step (reads g n) g r h = (true, r')) : r'.StandsIn s := by
  have hkeeps := keeps_step (keepsParents_reads (g := g)) g r h
  have htakes := takes_step (fun r _ hr => gives_core g r hr) r h hr.ready
  rw [hs] at hkeeps htakes
  exact hr.keeps hkeeps ((htakes.grown rfl).2 _ hr.ready)

end

/-! ## Windows -/

/-- A window in a source is read by offsets as it is by characters, and nothing is misread. -/
theorem byBytes_core (g : Grammar) {s : String} (r : Reader) (hr : r.StandsIn s) :
    ByteReader.core s g r.byBytes = pure (Prod.map id byBytes (core g r)) := by
  have hspans := hr.spans
  rw [ByteReader.core, core_eq_round, round, byBytes_stop, byBytes_pos]
  by_cases hnil : r.rest.chars = []
  · rw [hnil] at hspans
    have hstop := hspans.nil
    rw [if_neg (by omega), if_pos hnil]
    rfl
  · obtain ⟨c, rest, hchars⟩ := List.exists_cons_of_ne_nil hnil
    rw [hchars] at hspans
    obtain ⟨b, hbyte, hb, hlt, -⟩ := hspans.head
    rw [if_pos hlt, if_neg hnil, hbyte, pure_bind, hchars, List.head?_cons]
    simp only [Option.some.injEq, (hb.eq_iff (by decide) : b = '\n' ↔ c = '\n')]
    split
    · rename_i hc
      have hshort : r.rest.tail.length < r.rest.length := Window.length_tail_lt hnil
      have hoffset := offset_tail hchars (hc ▸ by decide)
      have hrec := byBytes_core g _ (hr.goOn (Window.leadsTo_tail r.rest))
      rw [← byBytes_goOn _ hoffset.symm] at hrec
      exact hrec
    · have hstep := byBytes_step (n := r.rest.length) (fun r' _ hr' => byBytes_core g r' hr') r (Nat.le_refl _) hr
      rw [hstep, pure_bind]
      cases hs : step (reads g r.rest.length) g r (Nat.le_refl _) with
      | mk taken r' =>
        cases taken with
        | true =>
          have hshort := length_of_step hs
          exact byBytes_core g r' (stands_step (Nat.le_refl _) hr hs)
        | false => rfl
termination_by r.rest.length

/-! ## Sources -/

theorem stands_ofSource (initial : Table Json) (s : String) : (ofSource initial s).StandsIn s :=
  ⟨Window.liesIn_ofSource s, .refl _, ready_empty⟩

theorem byBytes_ofSource (initial : Table Json) (s : String) :
    (ofSource initial s).byBytes = ByteReader.ofSource initial s := by
  rw [ByteReader.ofSource, utf8ByteSize_eq, ← Nat.zero_add (Text.byteLength s.toList)]
  rfl

/-- Every source can be read by bytes: reading comes to an end, never asks for a byte behind the source, for a
text with an end inside a character, for less than nothing or for a node that is not there, and gives the
document, the settings and the verdict of the source. -/
theorem parse_byBytes (g : Grammar) (initial : Table Json) (source : String) :
    ByteReader.parse g initial source = pure (Markup.parse g initial source) := by
  obtain ⟨hdocument, hconfig, haborted, -⟩ := core_ofSource g initial source
  rw [ByteReader.parse, ← byBytes_ofSource, byBytes_core g _ (stands_ofSource initial source), pure_bind]
  have hcomplete : (!(core g (ofSource initial source)).2.aborted) = (Markup.parse g initial source).complete := by
    rw [haborted, Bool.not_not]
  exact congrArg pure (congr (congrArg₂ Parsed.mk hdocument hconfig) hcomplete)

end Evomark.Markup.Reader
