import Evomark.Registry
import Evomark.Proofs.Markup.Inner
import Evomark.Proofs.Markup.Delimited
/-!
# Where reading stops

Some segment starts wherever something is left of a window, unless a number sign stands there that starts no
function (`Segment.stuck_of_read?`). Inside of a body that number sign may be cut off from what stands behind it.
But a body ends where its closing delimiter starts, and no name starts with a brace or an equality sign
(`Window.Ends`). So the number sign has no name behind it in the source either: a source that is not read to its
end has such a number sign (`exists_stray_of_incomplete`).
-/

namespace Evomark

open Markup

/-! ## Where no segment starts -/

namespace Segment

theorem exists_reference? {w : Window} (h : w.chars.head? = some '@') : (reference? w).isSome = true := by
  obtain ⟨rest, hchars⟩ := List.head?_eq_some_iff.1 h
  rw [reference?, hchars]
  simp only [if_true]
  split
  · rfl
  · split
    · split <;> rfl
    · rfl

theorem exists_assignmentOrUse? {w : Window} (h : Window.startsConstruct '%' w.chars = true) :
    (assignmentOrUse? w).isSome = true := by
  rw [assignmentOrUse?, if_pos h]
  simp only
  split
  · rfl
  · split <;> rfl

/-- Where no segment starts, a number sign stands that starts no function. -/
theorem stuck_of_read? {w : Window} (hne : w.chars ≠ []) (h : read? w = none) :
    w.chars.head? = some '#' ∧ Window.startsConstruct '#' w.chars = false := by
  simp only [read?, Option.or_eq_none_iff] at h
  obtain ⟨hprose, hfunction, hreference, hcommand, hassignment⟩ := h
  obtain ⟨c, rest, hchars⟩ := List.exists_cons_of_ne_nil hne
  have hsplit : (splitProse w.chars).1 = [] := by
    by_contra hsome
    simp [prose?, hsome] at hprose
  have hcall {sigil : Char} (h : call? sigil w = none) : Window.startsConstruct sigil w.chars = false := by
    rw [call?] at h
    split at h
    · cases h
    · exact Bool.eq_false_iff.2 ‹_›
  have hhead : w.chars.head? = some c := by rw [hchars]; rfl
  have hsign := sign_of_splitProse (hchars ▸ hsplit)
  rw [← hchars] at hsign
  rcases hsign with rfl | rfl | ⟨rfl | rfl, hstart⟩
  · refine ⟨hhead, hcall ?_⟩
    by_contra hsome
    obtain ⟨⟨call, next⟩, hcall⟩ := Option.ne_none_iff_exists'.1 hsome
    obtain ⟨call, nested, next, hcalls⟩ := exists_calls? hcall
    rw [function?, hcalls] at hfunction
    cases hfunction
  · have := exists_reference? hhead
    rw [hreference] at this
    cases this
  · rw [hcall (Option.map_eq_none_iff.1 hcommand)] at hstart
    cases hstart
  · have := exists_assignmentOrUse? hstart
    rw [hassignment] at this
    cases this

end Segment

/-- What is left of a window behind its segments starts with a number sign that starts no function. -/
theorem Window.stuck_of_segments {w : Window} (h : w.segments.2.chars ≠ []) :
    w.segments.2.chars.head? = some '#' ∧ startsConstruct '#' w.segments.2.chars = false := by
  fun_induction Window.segments w with
  | case1 w hnil => exact absurd hnil h
  | case2 w hw hn ih => exact ih h
  | case3 w hw hn hread => exact Segment.stuck_of_read? hw hread
  | case4 w hw hn segment next hr more rest hs ih =>
    rw [hs] at ih
    exact ih h

/-! ## What is incomplete -/

namespace Markup

variable {g : Grammar} {read : Window → Contents}

/-- Some body among the clauses is read as a window that is not read to its end. -/
def Unfinished (read : Window → Contents) (clauses : List Clause) : Prop :=
  ∃ layout inner, .body layout inner ∈ clauses ∧ (read inner).complete = false

theorem Unfinished.mono {clauses clauses' : List Clause} (h : Unfinished read clauses)
    (hsub : ∀ c ∈ clauses, c ∈ clauses') : Unfinished read clauses' := by
  obtain ⟨layout, inner, hmem, hc⟩ := h
  exact ⟨layout, inner, hsub _ hmem, hc⟩

theorem unfinished_of_readBody {rule : BodyRule} {param : Option Json} {w : Window}
    (h : (readBody read rule param w).complete = false) : (read w).complete = false := by
  cases rule with
  | box => exact h
  | config space =>
    simp only [readBody, readSettings] at h
    split at h <;> cases h
  | code | literal | reject | shout => cases h

theorem unfinished_of_readClauses {rule : BodyRule} {kind : Kind} {param : Option Json} {clauses : List Clause}
    (h : (readClauses read rule kind param clauses).complete = false) : Unfinished read clauses := by
  induction clauses generalizing param with
  | nil => cases h
  | cons c more ih =>
    cases c with
    | param raw value span => exact (ih h).mono fun _ => .tail _
    | body layout inner =>
      rcases Bool.and_eq_false_iff.1 h with h | h
      · exact ⟨layout, inner, .head _, unfinished_of_readBody h⟩
      · exact (ih h).mono fun _ => .tail _

theorem unfinished_of_readFunction {call : Call} {nested : List Call}
    (h : (readFunction g read call nested).complete = false) :
    Unfinished read ((call :: nested).flatMap (·.clauses)) := by
  induction nested generalizing call with
  | nil =>
    rw [List.flatMap_singleton]
    exact unfinished_of_readClauses h
  | cons next more ih =>
    rw [List.flatMap_cons]
    rcases Bool.and_eq_false_iff.1 h with h | h
    · exact (unfinished_of_readClauses h).mono fun _ => List.mem_append_left _
    · exact (ih h).mono fun _ => List.mem_append_right _

theorem unfinished_of_readSegment {segment : Segment} (h : (readSegment g read segment).complete = false) :
    Unfinished read segment.clauses := by
  cases segment with
  | prose raw =>
    simp only [readSegment] at h
    split at h <;> cases h
  | function call nested | reference name call nested => exact unfinished_of_readFunction h
  | command call | assignment name call =>
    rw [Segment.clauses, Segment.calls, List.flatMap_singleton]
    exact unfinished_of_readClauses h
  | danglingReference | emptyReference | use | danglingAssignment => cases h

/-- A window that is not read to its end stops at a number sign that starts no function, or there is such a
window in it. -/
theorem stuck_or_unfinished {w : Window} (h : (contents g w).complete = false) :
    w.segments.2.chars ≠ [] ∨ Unfinished (contents g) (w.segments.1.flatMap Segment.clauses) := by
  rw [contents_eq, Contents.complete, Bool.and_eq_false_iff, List.isEmpty_eq_false_iff] at h
  refine h.imp_right fun hfindings => ?_
  obtain ⟨f, hf, hc⟩ := List.all_eq_false.1 hfindings
  obtain ⟨segment, hs, rfl⟩ := List.mem_map.1 hf
  exact (unfinished_of_readSegment (Bool.eq_false_iff.2 hc)).mono fun c hc => List.mem_flatMap.2 ⟨segment, hs, hc⟩

end Markup

/-! ## What stands behind a window -/

/-- The window lies in the source, and what stands behind it cannot start a name. -/
def Window.Ends (s : String) (w : Window) : Prop :=
  ∃ before after, s.toList = before ++ w.chars ++ after ∧ w.offset = Text.byteLength before ∧
    ∀ c, after.head? = some c → isNameStart c = false

theorem Window.Ends.liesIn {s : String} {w : Window} (h : w.Ends s) : w.LiesIn s := by
  obtain ⟨before, after, hs, hoffset, -⟩ := h
  exact ⟨before, after, hs, hoffset⟩

/-- What is left of the window has the same behind it. -/
theorem Window.Ends.leadsTo {s : String} {w v : Window} (h : w.Ends s) (hv : w.LeadsTo v) : v.Ends s := by
  obtain ⟨before, after, hs, hoffset, hafter⟩ := h
  obtain ⟨taken, hchars, hstart⟩ := hv
  refine ⟨before ++ taken, after, by rw [hs, hchars]; simp, ?_, hafter⟩
  rw [hstart, hoffset, Text.byteLength_append]

theorem Delimiters.isNameStart_closer (d : Delimiters) : Window.isNameStart d.closer = false := by
  cases d <;> rfl

/-- Behind the inside of a body stands what closes it. -/
theorem Clause.StandsIn.ends {s : String} {layout : Layout} {inner : Window}
    (h : (Clause.body layout inner).StandsIn s) : inner.Ends s := by
  obtain ⟨d, -, ⟨before, after, hs, hstart⟩, -, hmatch⟩ := h
  obtain ⟨back, hclosing⟩ := hmatch.closing_eq
  refine ⟨before ++ d.opening, d.closing ++ after, by rw [hs]; simp, hstart, fun c hc => ?_⟩
  rw [hclosing] at hc
  obtain rfl := Option.some.inj hc
  exact d.isNameStart_closer

/-! ## Stray number signs -/

namespace Markup

/-- At the offset stands a number sign that is the last byte of the source, or the byte behind it is none that
can start a name. -/
structure Stray (s : String) (p : Nat) : Prop where
  sign : byteAt s p = pure '#'
  alone : p + 1 = s.utf8ByteSize ∨ ∃ b, byteAt s (p + 1) = pure b ∧ Window.isNameStart b = false

/-- The number sign at which a window stops is a stray one. -/
theorem stray_of_stuck {s : String} {w : Window} (h : w.Ends s) (hhead : w.chars.head? = some '#')
    (hstart : Window.startsConstruct '#' w.chars = false) : Stray s w.offset := by
  obtain ⟨before, after, hs, hoffset, hafter⟩ := h
  obtain ⟨rest, hchars⟩ := List.head?_eq_some_iff.1 hhead
  have hlies : (Window.mk w.offset ('#' :: (rest ++ after))).LiesIn s :=
    ⟨before, [], by rw [hs, hchars]; simp, hoffset⟩
  obtain ⟨hsign, -, hbehind⟩ := (spans_of_liesIn hlies).sign (by decide)
  refine ⟨hsign, ?_⟩
  cases hrest : rest ++ after with
  | nil =>
    refine .inl ?_
    rw [utf8ByteSize_eq, hs, hchars, List.append_assoc, List.cons_append, hrest, Text.byteLength_append, hoffset]
    rfl
  | cons d more =>
    rw [hrest] at hbehind
    obtain ⟨b, hbyte, hb, -, -⟩ := hbehind.head
    refine .inr ⟨b, hbyte, ?_⟩
    rw [hb.test fun c => not_isNameStart]
    cases rest with
    | nil => exact hafter d (by rw [List.nil_append] at hrest; rw [hrest]; rfl)
    | cons e more' =>
      obtain ⟨rfl, -⟩ := List.cons.inj hrest
      simpa [hchars, Window.startsConstruct] using hstart

/-- A window that is not read to its end has a stray number sign in it. -/
theorem exists_stray (g : Grammar) {s : String} {w : Window} (h : w.Ends s)
    (hc : (contents g w).complete = false) : ∃ p, Stray s p := by
  have hpasses := w.passes_segments s
  rcases stuck_or_unfinished hc with hstuck | ⟨layout, inner, hmem, hinner⟩
  · obtain ⟨hhead, hstart⟩ := Window.stuck_of_segments hstuck
    exact ⟨_, stray_of_stuck (h.leadsTo hpasses.leadsTo) hhead hstart⟩
  · have hends := ((hpasses.inOrder h.liesIn).standsIn _ hmem).ends
    obtain ⟨segment, hs, hclause⟩ := List.mem_flatMap.1 hmem
    obtain ⟨call, hcall, hbody⟩ := List.mem_flatMap.1 hclause
    have hshort : inner.length < w.length := w.within_segments segment hs call hcall _ hbody
    exact exists_stray g hends hinner
termination_by w.length

end Markup

/-- A source that is not read to its end has a number sign in it that is the last byte of the source, or that
no letter or underscore stands behind. -/
theorem exists_stray_of_incomplete {source : String} (h : (Registry.standard.parse source).complete = false) :
    ∃ p, Markup.Stray source p :=
  Markup.exists_stray Registry.standard.grammar
    ⟨[], [], by simp [Window.ofSource], rfl, fun _ hc => by cases hc⟩ h

/-- The number sign is cut off from what stands behind the braces. -/
theorem exists_stray_of_incomplete_braces :
    (Registry.standard.parse "#box\x7ba #\x7db").complete = false ∧ ∃ p, Markup.Stray "#box\x7ba #\x7db" p :=
  have h : (Registry.standard.parse "#box\x7ba #\x7db").complete = false := by decide +kernel
  ⟨h, exists_stray_of_incomplete h⟩

end Evomark
