import Mathlib.Data.List.TakeWhile
import Evomark.Markup.Segment
/-!
# What a window starts with

`Clause.Found` lists the ways in which a window can start with a clause, and `Segment.Found` those in which it can
start with a segment: what has been taken, and what is left. Whatever is said of a clause or a segment that is
read (`Clause.found_of_read?`, `Segment.found_of_read?`) is shown by these cases.
-/

namespace Evomark

open Text

namespace Window

theorem cons_tail {w : Window} {c : Char} {rest : List Char} (h : w.chars = c :: rest) :
    c :: w.tail.chars = w.chars := by
  rw [tail, after, h]
  rfl

theorem cons_tail_of_startsConstruct {sigil : Char} {w : Window}
    (h : startsConstruct sigil w.chars = true) : sigil :: w.tail.chars = w.chars := by
  cases hw : w.chars with
  | nil => exact absurd hw (chars_ne_nil_of_startsConstruct h)
  | cons c rest =>
    have hc : c = sigil := by
      rw [hw] at h
      cases rest with
      | nil => exact absurd h (by simp [startsConstruct])
      | cons d more => exact (by simpa [startsConstruct] using h : c = sigil ∧ _).1
    rw [← hc, cons_tail hw, hw]

end Window

/-! ## Clauses -/

namespace Clause

theorem eq_of_extend {front inner rest : List Char} {found : Option (List Char × List Char)}
    (h : extend front found = some (inner, rest)) :
    ∃ more, found = some (more, rest) ∧ inner = front ++ more := by
  simp only [extend, Option.map_eq_some_iff, Prod.mk.injEq] at h
  obtain ⟨⟨more, rest'⟩, hfound, rfl, rfl⟩ := h
  exact ⟨more, hfound, rfl⟩

theorem eq_of_splitBraces {depth : Nat} {cs inner rest : List Char}
    (h : splitBraces depth cs = some (inner, rest)) : cs = inner ++ '\x7d' :: rest := by
  fun_induction splitBraces depth cs generalizing inner with
  | case1 | case2 => simp at h
  | case5 =>
    simp only [Option.some.injEq, Prod.mk.injEq] at h
    obtain ⟨rfl, rfl⟩ := h
    simp_all
  | case3 _ _ _ ih | case4 _ _ _ ih | case6 _ _ _ _ ih | case7 _ _ _ _ _ _ ih =>
    obtain ⟨more, hmore, rfl⟩ := eq_of_extend h
    simp [ih hmore]

theorem eq_of_splitParens {depth : Nat} {quoted : Bool} {cs inner rest : List Char}
    (h : splitParens depth quoted cs = some (inner, rest)) : cs = inner ++ ')' :: rest := by
  fun_induction splitParens depth quoted cs generalizing inner with
  | case1 | case2 => simp at h
  | case7 =>
    simp only [Option.some.injEq, Prod.mk.injEq] at h
    obtain ⟨rfl, rfl⟩ := h
    simp_all
  | case3 _ _ _ ih | case4 _ _ _ _ ih | case5 _ _ _ _ ih | case6 _ _ _ _ _ ih
  | case8 _ _ _ _ _ _ ih | case9 _ _ _ _ _ _ _ _ ih =>
    obtain ⟨more, hmore, rfl⟩ := eq_of_extend h
    simp [ih hmore]

theorem eq_of_splitAt? {sep cs before after : List Char}
    (h : splitAt? sep cs = some (before, after)) : cs = before ++ sep ++ after := by
  fun_induction splitAt? sep cs generalizing before with
  | case1 hs =>
    simp only [Option.some.injEq, Prod.mk.injEq] at h
    obtain ⟨rfl, rfl⟩ := h
    simp_all
  | case2 => simp at h
  | case3 c rest hs =>
    simp only [Option.some.injEq, Prod.mk.injEq] at h
    obtain ⟨rfl, rfl⟩ := h
    obtain ⟨more, hmore⟩ := List.isPrefixOf_iff_prefix.1 hs
    rw [← hmore, List.drop_left, List.nil_append]
  | case4 c rest hs ih =>
    simp only [Option.map_eq_some_iff, Prod.mk.injEq] at h
    obtain ⟨⟨before', after'⟩, hrest, rfl, rfl⟩ := h
    rw [ih hrest]
    simp

/-- A window that starts with a clause, the clause, and what is left. -/
inductive Found : Window → Clause → Window → Prop
  | param {offset : Nat} {inner rest : List Char}
    (h : splitParens 0 false (inner ++ ')' :: rest) = some (inner, rest)) :
    Found ⟨offset, '(' :: (inner ++ ')' :: rest)⟩
      (.param (String.ofList (trim inner)) (paramValue (String.ofList (trim inner)))
        ⟨offset + 1, offset + 1 + byteLength inner⟩)
      ⟨offset + 1 + byteLength inner + 1, rest⟩
  | braced {offset : Nat} {inner rest : List Char}
    (h : splitBraces 0 (inner ++ '\x7d' :: rest) = some (inner, rest)) :
    Found ⟨offset, '\x7b' :: (inner ++ '\x7d' :: rest)⟩
      (.body (if inner.contains '\n' then .block else .inline) ⟨offset + 1, inner⟩)
      ⟨offset + 1 + byteLength inner + 1, rest⟩
  | fenced {offset n : Nat} {inner rest : List Char} (hn : 0 < n)
    (h : splitAt? (closingFence n) (inner ++ closingFence n ++ rest) = some (inner, rest)) :
    Found ⟨offset, List.replicate n '=' ++ '>' :: (inner ++ closingFence n ++ rest)⟩
      (.body (.code n n) ⟨offset + n + 1, inner⟩)
      ⟨offset + n + 1 + byteLength inner + n + 1, rest⟩

variable {w v : Window} {c : Clause}

theorem found_of_param? (h : param? w = some (c, v)) : Found w c v := by
  obtain ⟨offset, chars⟩ := w
  unfold param? at h
  split at h
  · cases h
  · rename_i d content hchars
    split at h
    · rename_i hd
      split at h
      · cases h
      · rename_i inner rest hs
        obtain ⟨rfl, rfl⟩ := Prod.mk.inj (Option.some.inj h)
        obtain rfl := eq_of_splitParens hs
        obtain rfl : chars = '(' :: _ := hd ▸ hchars
        exact .param hs
    · cases h

theorem found_of_body? (h : body? w = some (c, v)) : Found w c v := by
  obtain ⟨offset, chars⟩ := w
  rw [body?, Option.or_eq_some_iff] at h
  rcases h with h | ⟨-, h⟩
  · unfold braced? at h
    split at h
    · cases h
    · rename_i d content hchars
      split at h
      · rename_i hd
        split at h
        · cases h
        · rename_i inner rest hs
          obtain ⟨rfl, rfl⟩ := Prod.mk.inj (Option.some.inj h)
          obtain rfl := eq_of_splitBraces hs
          obtain rfl : chars = '\x7b' :: _ := hd ▸ hchars
          exact .braced hs
      · cases h
  · obtain ⟨n, hn⟩ : ∃ n, (chars.takeWhile (· == '=')).length = n := ⟨_, rfl⟩
    have hsigns : chars.takeWhile (· == '=') = List.replicate n '=' :=
      List.eq_replicate_iff.2 ⟨hn, fun c hc => by simpa using List.mem_takeWhile_imp hc⟩
    unfold fenced? at h
    simp only [hn] at h
    split at h
    · cases h
    · rename_i d content hcontent
      split at h
      · cases h
      · rename_i hpos
        split at h
        · rename_i hd
          split at h
          · cases h
          · rename_i inner rest hs
            obtain ⟨rfl, rfl⟩ := Prod.mk.inj (Option.some.inj h)
            obtain rfl := eq_of_splitAt? hs
            obtain rfl : chars = List.replicate n '=' ++ '>' :: _ := by
              rw [← hd, ← hcontent, ← hsigns, List.takeWhile_append_dropWhile]
            exact .fenced (Nat.pos_of_ne_zero hpos) hs
        · cases h

theorem found_of_read? (h : read? w = some (c, v)) : Found w c v := by
  rw [read?, Option.or_eq_some_iff] at h
  rcases h with h | ⟨-, h⟩
  · exact found_of_param? h
  · exact found_of_body? h

end Clause

/-! ## Segments -/

namespace Segment

variable {w v : Window}

theorem eq_of_call? {sigil : Char} {call : Call} (h : call? sigil w = some (call, v)) :
    Window.startsConstruct sigil w.chars = true ∧ call = ⟨w.tail.name, w.tail.afterName.clauses.1⟩ ∧
      v = w.tail.afterName.clauses.2 := by
  unfold call? at h
  split at h
  · rename_i hs
    obtain ⟨rfl, rfl⟩ := Prod.mk.inj (Option.some.inj h)
    exact ⟨hs, rfl, rfl⟩
  · cases h

/-- A window that starts with a segment, the segment, and what is left. -/
inductive Found (w : Window) : Segment → Window → Prop
  | prose (hne : (splitProse w.chars).1 ≠ []) :
    Found w (.prose (splitProse w.chars).1) (w.after (splitProse w.chars).1 (splitProse w.chars).2)
  | function {v : Window} {call : Call} {nested : List Call} (hcalls : calls? w = some (call, nested, v)) :
    Found w (.function call nested) v
  | reference {target v : Window} {call : Call} {nested : List Call} (hsign : w.chars.head? = some '@')
    (htarget : afterEquals? w.tail.afterName = some target) (hcalls : calls? target = some (call, nested, v)) :
    Found w (.reference w.tail.name call nested) v
  | emptyReference {target : Window} (hsign : w.chars.head? = some '@')
    (htarget : afterEquals? w.tail.afterName = some target) (hhead : target.chars.head? = some '#')
    (hnone : calls? target = none) : Found w (.emptyReference w.tail.name) target
  | nameless (hsign : w.chars.head? = some '@') (hnone : afterEquals? w.tail.afterName = none) :
    Found w (.danglingReference w.tail.name) w.tail.afterName
  | danglingReference {target : Window} (hsign : w.chars.head? = some '@')
    (htarget : afterEquals? w.tail.afterName = some target) :
    Found w (.danglingReference w.tail.name) target
  | command {v : Window} {call : Call} (hcall : call? '$' w = some (call, v)) : Found w (.command call) v
  | use (hstart : Window.startsConstruct '%' w.chars = true) (hnone : afterEquals? w.tail.afterName = none) :
    Found w (.use w.tail.name) w.tail.afterName
  | assignment {target v : Window} {call : Call} (hstart : Window.startsConstruct '%' w.chars = true)
    (htarget : afterEquals? w.tail.afterName = some target) (hcall : call? '$' target = some (call, v)) :
    Found w (.assignment w.tail.name call) v
  | danglingAssignment {target : Window} (hstart : Window.startsConstruct '%' w.chars = true)
    (htarget : afterEquals? w.tail.afterName = some target) (hnone : call? '$' target = none) :
    Found w (.danglingAssignment w.tail.name) target

variable {s : Segment}

theorem found_of_prose? (h : prose? w = some (s, v)) : Found w s v := by
  simp only [prose?] at h
  split at h
  · cases h
  · rename_i hne
    obtain ⟨rfl, rfl⟩ := Prod.mk.inj (Option.some.inj h)
    exact .prose (by simpa using hne)

theorem found_of_reference? (h : reference? w = some (s, v)) : Found w s v := by
  unfold reference? at h
  split at h
  · cases h
  · rename_i c rest hchars
    split at h
    · rename_i hc
      have hsign : w.chars.head? = some '@' := by rw [hchars, hc]; rfl
      simp only at h
      split at h
      · rename_i hnone
        obtain ⟨rfl, rfl⟩ := Prod.mk.inj (Option.some.inj h)
        exact .nameless hsign hnone
      · rename_i target htarget
        split at h
        · rename_i hhead
          split at h
          · rename_i hcalls
            obtain ⟨rfl, rfl⟩ := Prod.mk.inj (Option.some.inj h)
            exact .reference hsign htarget hcalls
          · rename_i hnone
            obtain ⟨rfl, rfl⟩ := Prod.mk.inj (Option.some.inj h)
            exact .emptyReference hsign htarget (beq_iff_eq.1 hhead) hnone
        · obtain ⟨rfl, rfl⟩ := Prod.mk.inj (Option.some.inj h)
          exact .danglingReference hsign htarget
    · cases h

theorem found_of_assignmentOrUse? (h : assignmentOrUse? w = some (s, v)) : Found w s v := by
  unfold assignmentOrUse? at h
  split at h
  · rename_i hstart
    simp only at h
    split at h
    · rename_i hnone
      obtain ⟨rfl, rfl⟩ := Prod.mk.inj (Option.some.inj h)
      exact .use hstart hnone
    · rename_i target htarget
      split at h
      · rename_i hcall
        obtain ⟨rfl, rfl⟩ := Prod.mk.inj (Option.some.inj h)
        exact .assignment hstart htarget hcall
      · rename_i hnone
        obtain ⟨rfl, rfl⟩ := Prod.mk.inj (Option.some.inj h)
        exact .danglingAssignment hstart htarget hnone
  · cases h

theorem found_of_read? (h : read? w = some (s, v)) : Found w s v := by
  simp only [read?, Option.or_eq_some_iff] at h
  rcases h with h | ⟨-, h | ⟨-, h | ⟨-, h | ⟨-, h⟩⟩⟩⟩
  · exact found_of_prose? h
  · simp only [function?, Option.map_eq_some_iff, Prod.mk.injEq] at h
    obtain ⟨⟨call, nested, rest⟩, hcalls, rfl, rfl⟩ := h
    exact .function hcalls
  · exact found_of_reference? h
  · simp only [command?, Option.map_eq_some_iff, Prod.mk.injEq] at h
    obtain ⟨⟨call, rest⟩, hcall, rfl, rfl⟩ := h
    exact .command hcall
  · exact found_of_assignmentOrUse? h

end Segment

end Evomark
