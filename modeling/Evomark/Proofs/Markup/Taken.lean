import Evomark.Proofs.Document.Written
import Evomark.Proofs.Text.Visible
import Evomark.Proofs.Markup.Segmented
/-!
# What segments take of a window

A window is cut into segments without losing a visible character: those of the window are those of
its segments, in their order, and of what is left (`Window.visible_segments`). For an assignment or a
reference that is not complete the segment does not tell what was taken (`Segment.dangles`).
-/

namespace Evomark

open Text Node

namespace Window

theorem name_append_afterName (w : Window) : w.name.toList ++ w.afterName.chars = w.chars := by
  rw [name, String.toList_ofList]
  exact List.takeWhile_append_dropWhile

theorem visible_dropWhile {p : Char → Bool} (h : ∀ c, p c = true → isWhite c = true) (w : Window) :
    visible (w.dropWhile p).chars = visible w.chars := Text.visible_dropWhile h w.chars

end Window

namespace Clause

/-! ## Clauses -/

/-- The visible characters of a clause. -/
def seen : Clause → List Char
  | param raw _ _ => '(' :: visible raw.toList ++ [')']
  | body layout inner => delimited layout (visible inner.chars)

theorem visible_read? {w w' : Window} {c : Clause} (h : read? w = some (c, w')) :
    visible w.chars = c.seen ++ visible w'.chars := by
  cases found_of_read? h with
  | param =>
    rw [visible_cons rfl, visible_append, visible_cons rfl]
    simp [seen, visible_trim]
  | @braced offset inner rest =>
    rw [visible_cons rfl, visible_append, visible_cons rfl]
    cases inner.contains '\n' <;> simp [seen, delimited]
  | @fenced offset n inner rest =>
    have hclosing : visible (closingFence n) = closingFence n := by
      rw [closingFence, visible_append, visible_replicate rfl]
      rfl
    rw [visible_append, visible_replicate rfl, visible_cons rfl, visible_append, visible_append, hclosing]
    simp [seen, delimited, closingFence]

end Clause

theorem Window.visible_clauses (w : Window) :
    visible w.chars = w.clauses.1.flatMap Clause.seen ++ visible w.clauses.2.chars := by
  fun_induction Window.clauses w with
  | case1 => rfl
  | case2 w clause next h more rest hn ih =>
    rw [hn] at ih
    rw [Clause.visible_read? h, ih, List.flatMap_cons, List.append_assoc]

/-! ## Calls -/

/-- The visible characters of a call behind its sign. -/
def Call.seen (call : Call) : List Char := visible call.name.toList ++ call.clauses.flatMap Clause.seen

/-- The visible characters of a function and of those it hosts. -/
def Call.seenChain (call : Call) : List Call → List Char
  | [] => '#' :: call.seen
  | next :: more => '#' :: call.seen ++ next.seenChain more

namespace Segment

/-- The construct is not complete, and the segment does not tell what was taken. -/
def dangles : Segment → Bool
  | .danglingReference _ | .danglingAssignment _ => true
  | _ => false

/-- The visible characters of a segment. -/
def seen : Segment → List Char
  | .prose raw => visible raw
  | .function call nested => call.seenChain nested
  | .reference name call nested => '@' :: visible name.toList ++ '=' :: call.seenChain nested
  | .emptyReference name => '@' :: visible name.toList ++ ['=']
  | .command call => '$' :: call.seen
  | .use name => '%' :: visible name.toList
  | .assignment name call => '%' :: visible name.toList ++ '=' :: '$' :: call.seen
  | .danglingReference _ | .danglingAssignment _ => []

theorem visible_call? {sigil : Char} (hs : isWhite sigil = false) {w w' : Window} {call : Call}
    (h : call? sigil w = some (call, w')) :
    visible w.chars = sigil :: call.seen ++ visible w'.chars := by
  obtain ⟨hstart, rfl, rfl⟩ := eq_of_call? h
  rw [← Window.cons_tail_of_startsConstruct hstart, visible_cons hs,
    ← Window.name_append_afterName w.tail, visible_append, Window.visible_clauses w.tail.afterName]
  simp [Call.seen]

theorem visible_calls? {w w' : Window} {call : Call} {nested : List Call}
    (h : calls? w = some (call, nested, w')) :
    visible w.chars = call.seenChain nested ++ visible w'.chars := by
  fun_induction calls? w generalizing call nested w' with
  | case1 => simp at h
  | case2 w c rest hc _ next more rest' hn ih =>
    simp only [Option.some.injEq, Prod.mk.injEq] at h
    obtain ⟨rfl, rfl, rfl⟩ := h
    rw [visible_call? rfl hc, ih hn, Call.seenChain, List.append_assoc]
  | case3 w c rest hc | case4 w c rest hc =>
    simp only [Option.some.injEq, Prod.mk.injEq] at h
    obtain ⟨rfl, rfl, rfl⟩ := h
    exact visible_call? rfl hc

theorem visible_afterEquals? {w w' : Window} (h : afterEquals? w = some w') :
    visible w.chars = '=' :: visible w'.chars := by
  have hspace : ∀ c, isSpace c = true → isWhite c = true := by
    intro c hc
    rw [show c = ' ' by simpa [isSpace] using hc]
    rfl
  have hgap : ∀ c, isGap c = true → isWhite c = true := by
    intro c hc
    rcases (by simpa [isGap] using hc : c = ' ' ∨ c = '\n') with rfl | rfl <;> rfl
  rw [← Window.visible_dropWhile hspace w]
  unfold afterEquals? at h
  split at h
  · simp at h
  · rename_i c rest hw
    split at h
    · rename_i hc
      obtain rfl := Option.some.inj h
      rw [← Window.cons_tail hw, hc, visible_cons rfl, Window.visible_dropWhile hgap]
    · simp at h

/-! ## Segments -/

/-- A sign with a name behind it. -/
theorem visible_name {w : Window} {sign : Char} (hs : isWhite sign = false) (h : sign :: w.tail.chars = w.chars) :
    visible w.chars = sign :: visible w.tail.name.toList ++ visible w.tail.afterName.chars := by
  rw [← h, visible_cons hs, ← Window.name_append_afterName w.tail, visible_append]
  rfl

theorem visible_read? {w w' : Window} {s : Segment} (h : read? w = some (s, w'))
    (hd : s.dangles = false) : visible w.chars = s.seen ++ visible w'.chars := by
  have hname (hsign : w.chars.head? = some '@') : '@' :: w.tail.chars = w.chars := by
    obtain ⟨rest, hchars⟩ := List.head?_eq_some_iff.1 hsign
    exact Window.cons_tail hchars
  cases found_of_read? h with
  | prose =>
    rw [← splitProse_append w.chars, visible_append]
    simp [seen, splitProse_append, Window.after]
  | function hcalls => exact visible_calls? hcalls
  | reference hsign htarget hcalls =>
    rw [visible_name rfl (hname hsign), visible_afterEquals? htarget, visible_calls? hcalls]
    simp [seen]
  | emptyReference hsign htarget =>
    rw [visible_name rfl (hname hsign), visible_afterEquals? htarget]
    simp [seen]
  | command hcall => exact visible_call? rfl hcall
  | use hstart => exact visible_name rfl (Window.cons_tail_of_startsConstruct hstart)
  | assignment hstart htarget hcall =>
    rw [visible_name rfl (Window.cons_tail_of_startsConstruct hstart), visible_afterEquals? htarget,
      visible_call? rfl hcall]
    simp [seen]
  | nameless | danglingReference | danglingAssignment => exact absurd hd (by simp [dangles])

end Segment

/-- The visible characters of a window are those of its segments and of what is left. -/
theorem Window.visible_segments {w : Window} (h : ∀ s ∈ w.segments.1, s.dangles = false) :
    visible w.chars = w.segments.1.flatMap Segment.seen ++ visible w.segments.2.chars := by
  fun_induction Window.segments w with
  | case1 => rfl
  | case2 w hw hn ih =>
    obtain ⟨rest, hrest⟩ := List.head?_eq_some_iff.1 hn
    rw [← ih h, ← Window.cons_tail hrest]
    rfl
  | case3 => rfl
  | case4 w hw hn segment next hr more rest hs ih =>
    rw [hs] at ih
    rw [List.forall_mem_cons] at h
    rw [Segment.visible_read? hr h.1, ih h.2, List.flatMap_cons, List.append_assoc]

end Evomark
