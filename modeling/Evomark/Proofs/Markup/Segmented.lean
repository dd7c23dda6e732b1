import Evomark.Proofs.Markup.Found
import Evomark.Proofs.Markup.Shape
/-!
# The shape of segments

What every segment of a window looks like (`Segment.Formed`): names are names, prose starts no
construct, the layout of a body agrees with its inside, and only the last call of a chain has a
body. `formed_of_mem_segments` says that the segments of a window are so formed.
-/

namespace Evomark

open Markup

namespace Clause

/-- The layout of a body agrees with its inside. -/
def Formed : Clause → Prop
  | .param .. => True
  | .body .inline inner => '\n' ∉ inner.chars
  | .body .block inner => '\n' ∈ inner.chars
  | .body (.code opening closing) _ => opening = closing ∧ 0 < opening
  | .body .directChild _ => False

theorem formed_of_read? {w w' : Window} {c : Clause} (h : read? w = some (c, w')) : c.Formed := by
  cases found_of_read? h with
  | param => trivial
  | braced =>
    split
    · rename_i hn
      exact List.contains_iff_mem.1 hn
    · rename_i hn
      exact fun hmem => hn (List.contains_iff_mem.2 hmem)
  | fenced hn => exact ⟨rfl, hn⟩

end Clause

/-- The clauses of a window are well formed. -/
theorem Window.formed_of_mem_clauses {w : Window} {c : Clause} (h : c ∈ w.clauses.1) : c.Formed := by
  fun_induction Window.clauses w with
  | case1 => simp at h
  | case2 w clause next hr more rest hn ih =>
    rw [hn] at ih
    rcases List.mem_cons.1 h with rfl | h
    · exact Clause.formed_of_read? hr
    · exact ih h

/-- A call has a name and well-formed clauses. -/
def Call.Formed (call : Call) : Prop := IsName call.name ∧ ∀ c ∈ call.clauses, c.Formed

/-- Only the last of some calls, each hosted by the one before it, has a body. -/
def Call.ChainFormed (call : Call) : List Call → Prop
  | [] => call.Formed
  | next :: more => call.Formed ∧ call.clauses.all (·.isParam) = true ∧ next.ChainFormed more

/-- The text of prose as it stands in the source. -/
structure IsRawProse (raw : List Char) : Prop where
  allowed : ∀ c ∈ raw, c ∉ ['#', '@']
  apart : raw.IsChain (Apart ['$', '%'])

namespace Segment

/-- A segment as windows are cut into. -/
def Formed : Segment → Prop
  | .prose raw => IsRawProse raw
  | .function call nested => call.ChainFormed nested
  | .reference name call nested =>
    (∀ c ∈ name.toList, Window.isNameChar c = true) ∧ call.ChainFormed nested
  | .danglingReference _ | .emptyReference _ | .danglingAssignment _ => True
  | .command call => call.Formed
  | .use name => IsName name
  | .assignment name call => IsName name ∧ call.Formed

theorem isNameChar_of_mem_name (w : Window) : ∀ c ∈ w.name.toList, Window.isNameChar c = true := by
  intro c hc
  rw [Window.name, String.toList_ofList] at hc
  exact List.mem_takeWhile_imp hc

theorem isName_of_startsConstruct {sigil : Char} {w : Window}
    (h : Window.startsConstruct sigil w.chars = true) : IsName w.tail.name := by
  unfold Window.startsConstruct at h
  split at h
  · rename_i c d rest hw
    have hd : Window.isNameStart d = true := by
      rw [Bool.and_eq_true] at h
      exact h.2
    refine ⟨d, rest.takeWhile Window.isNameChar, ?_, hd, fun e he => List.mem_takeWhile_imp he⟩
    simp [Window.name, Window.tail, Window.after, hw, isNameChar_of_isNameStart hd]
  · simp at h

theorem isRawProse_splitProse (cs : List Char) : IsRawProse (splitProse cs).1 := by
  fun_induction splitProse cs with
  | case1 => exact ⟨by simp, .nil⟩
  | case2 => exact ⟨by simp, .nil⟩
  | case3 => exact ⟨by simp, .nil⟩
  | case4 c rest hs hc hn =>
    exact ⟨by simp, .singleton _⟩
  | case5 c rest hs hc hn raw after hr ih =>
    rw [hr] at ih
    refine ⟨?_, List.isChain_cons.2 ⟨fun d hd => ?_, ih.apart⟩⟩
    · rw [List.forall_mem_cons]
      exact ⟨by simpa using hs, ih.allowed⟩
    · rintro ⟨hsign, hd'⟩
      obtain ⟨more, hmore⟩ : ∃ more, rest = d :: more := by
        have happend := splitProse_append rest
        rw [hr] at happend
        obtain ⟨front, rfl⟩ := List.head?_eq_some_iff.1 hd
        exact ⟨front ++ after, happend.symm⟩
      refine hc ?_
      rw [hmore]
      simp only [List.mem_cons, List.not_mem_nil, or_false] at hsign
      simpa [Window.startsConstruct, hd'] using hsign

theorem formed_of_call? {sigil : Char} {w w' : Window} {call : Call}
    (h : call? sigil w = some (call, w')) : call.Formed := by
  obtain ⟨hs, rfl, -⟩ := eq_of_call? h
  exact ⟨isName_of_startsConstruct hs, fun c hc => Window.formed_of_mem_clauses hc⟩

theorem formed_of_calls? {w w' : Window} {call : Call} {more : List Call}
    (h : calls? w = some (call, more, w')) : call.ChainFormed more := by
  fun_induction calls? w generalizing call more w' with
  | case1 => simp at h
  | case2 w c rest hc hparams next more' rest' hn ih =>
    simp only [Option.some.injEq, Prod.mk.injEq] at h
    obtain ⟨rfl, rfl, -⟩ := h
    exact ⟨formed_of_call? hc, hparams, ih hn⟩
  | case3 w c rest hc =>
    simp only [Option.some.injEq, Prod.mk.injEq] at h
    obtain ⟨rfl, rfl, -⟩ := h
    exact formed_of_call? hc
  | case4 w c rest hc =>
    simp only [Option.some.injEq, Prod.mk.injEq] at h
    obtain ⟨rfl, rfl, -⟩ := h
    exact formed_of_call? hc

theorem formed_of_read? {w w' : Window} {s : Segment} (h : read? w = some (s, w')) : s.Formed := by
  cases found_of_read? h with
  | prose => exact isRawProse_splitProse _
  | function hcalls => exact formed_of_calls? hcalls
  | reference _ _ hcalls => exact ⟨isNameChar_of_mem_name _, formed_of_calls? hcalls⟩
  | emptyReference | nameless | danglingReference | danglingAssignment => trivial
  | command hcall => exact formed_of_call? hcall
  | use hstart => exact isName_of_startsConstruct hstart
  | assignment hstart _ hcall => exact ⟨isName_of_startsConstruct hstart, formed_of_call? hcall⟩

end Segment

/-- The segments of a window are well formed. -/
theorem Window.formed_of_mem_segments {w : Window} {s : Segment} (h : s ∈ w.segments.1) :
    s.Formed := by
  fun_induction Window.segments w with
  | case1 => simp at h
  | case2 w hw hn ih => exact ih h
  | case3 => simp at h
  | case4 w hw hn segment next hr more rest hs ih =>
    rw [hs] at ih
    rcases List.mem_cons.1 h with rfl | h
    · exact Segment.formed_of_read? hr
    · exact ih h

end Evomark
