import Evomark.Proofs.Json.Written
import Evomark.Proofs.Markup.Scan
/-!
# Where clauses stand

A clause is read where it stands: its inside lies in the source between the sign that opens it and the one that
closes it (`Delimiters.Enclose`), and the closing sign is the matching one. What matches is said without the
scanners that look for it: between braces and parentheses as many are closed as were opened, in turn
(`BracesMatch`, `ParensMatch`), and a fence closes at the first fence of its length. The scanners find the
matching sign, and find it wherever there is one (`splitBraces_iff`, `splitParens_iff`).

The clauses that are met on the way from one window to another (`Window.Passes`) stand one behind the other
(`Clause.InOrder`), and so do all clauses of the segments of a window (`Window.passes_segments`).
-/

namespace Evomark

open Markup Window

/-! ## Signs that match -/

/-- Text in which braces match. A backslash takes the character behind it out of account. -/
inductive BracesMatch : List Char → Prop
  | nil : BracesMatch []
  | escaped {cs : List Char} (c : Char) : BracesMatch cs → BracesMatch ('\\' :: c :: cs)
  | nested {inside cs : List Char} :
    BracesMatch inside → BracesMatch cs → BracesMatch ('\x7b' :: inside ++ '\x7d' :: cs)
  | other {c : Char} {cs : List Char} :
    c ∉ ['\\', '\x7b', '\x7d'] → BracesMatch cs → BracesMatch (c :: cs)

/-- Text that can stand between quotes. A backslash takes the character behind it out of account. -/
inductive QuotesNothing : List Char → Prop
  | nil : QuotesNothing []
  | escaped {cs : List Char} (c : Char) : QuotesNothing cs → QuotesNothing ('\\' :: c :: cs)
  | other {c : Char} {cs : List Char} : c ∉ ['\\', '"'] → QuotesNothing cs → QuotesNothing (c :: cs)

/-- Text in which parentheses match. Between quotes they do not count. -/
inductive ParensMatch : List Char → Prop
  | nil : ParensMatch []
  | quoted {inside cs : List Char} :
    QuotesNothing inside → ParensMatch cs → ParensMatch ('"' :: inside ++ '"' :: cs)
  | nested {inside cs : List Char} :
    ParensMatch inside → ParensMatch cs → ParensMatch ('(' :: inside ++ ')' :: cs)
  | other {c : Char} {cs : List Char} : c ∉ ['"', '(', ')'] → ParensMatch cs → ParensMatch (c :: cs)

/-- Text in which `depth` levels are closed that were open in front of it: a text of the kind on each level,
and the closing sign between. -/
def Levels (P : List Char → Prop) (close : Char) : Nat → List Char → Prop
  | 0, cs => P cs
  | depth + 1, cs => ∃ inside rest, cs = inside ++ close :: rest ∧ P inside ∧ Levels P close depth rest

/-- What can be put in front of a text of the kind can be put in front of its first level. -/
theorem Levels.prepend {P : List Char → Prop} {close : Char} (front : List Char)
    (hfront : ∀ cs, P cs → P (front ++ cs)) {depth : Nat} {cs : List Char} (h : Levels P close depth cs) :
    Levels P close depth (front ++ cs) := by
  cases depth with
  | zero => exact hfront cs h
  | succ depth =>
    obtain ⟨inside, rest, rfl, hinside, hrest⟩ := h
    exact ⟨front ++ inside, rest, (List.append_assoc ..).symm, hfront inside hinside, hrest⟩

namespace Clause

theorem levels_of_splitBraces {depth : Nat} {cs inner rest : List Char}
    (h : splitBraces depth cs = some (inner, rest)) : Levels BracesMatch '\x7d' depth inner := by
  fun_induction splitBraces depth cs generalizing inner with
  | case1 | case2 => cases h
  | case3 depth d tail ih =>
    obtain ⟨more, hmore, rfl⟩ := eq_of_extend h
    exact (ih hmore).prepend ['\\', d] fun _ => .escaped d
  | case4 depth tail _ ih =>
    -- the level that opens here is the first of those that are closed behind it
    obtain ⟨more, hmore, rfl⟩ := eq_of_extend h
    obtain ⟨inside, rest, rfl, hinside, hrest⟩ := ih hmore
    have hfront := hrest.prepend ('\x7b' :: inside ++ ['\x7d']) fun cs hcs => by
      rw [List.append_assoc]
      exact .nested hinside hcs
    rwa [List.append_assoc] at hfront
  | case5 tail =>
    obtain ⟨rfl, -⟩ := Prod.mk.inj (Option.some.inj h)
    exact .nil
  | case6 tail _ _ depth ih =>
    obtain ⟨more, hmore, rfl⟩ := eq_of_extend h
    exact ⟨[], more, rfl, .nil, ih hmore⟩
  | case7 depth c tail hs hb hc ih =>
    obtain ⟨more, hmore, rfl⟩ := eq_of_extend h
    exact (ih hmore).prepend [c] fun _ => .other (by simp [hs, hb, hc])

/-- Inside of quotes, what is left of them stands in front of the levels. -/
theorem levels_of_splitParens {depth : Nat} {quoted : Bool} {cs inner rest : List Char}
    (h : splitParens depth quoted cs = some (inner, rest)) :
    if quoted then
      ∃ inside more, inner = inside ++ '"' :: more ∧ QuotesNothing inside ∧ Levels ParensMatch ')' depth more
    else Levels ParensMatch ')' depth inner := by
  fun_induction splitParens depth quoted cs generalizing inner with
  | case1 | case2 => cases h
  | case3 depth d tail ih =>
    obtain ⟨more, hmore, rfl⟩ := eq_of_extend h
    obtain ⟨inside, more, rfl, hinside, hrest⟩ := ih hmore
    exact ⟨'\\' :: d :: inside, more, rfl, .escaped d hinside, hrest⟩
  | case4 depth c tail hs ih =>
    obtain ⟨more, hmore, rfl⟩ := eq_of_extend h
    have hrest := ih hmore
    by_cases hc : c = '"'
    · subst hc
      exact ⟨[], more, rfl, .nil, hrest⟩
    · rw [if_pos (by simpa using hc)] at hrest
      obtain ⟨inside, more, rfl, hinside, hrest⟩ := hrest
      exact ⟨c :: inside, more, rfl, .other (by simp [hs, hc]) hinside, hrest⟩
  | case5 depth quoted tail hq ih =>
    obtain ⟨more, hmore, rfl⟩ := eq_of_extend h
    obtain ⟨inside, more, rfl, hinside, hrest⟩ := ih hmore
    have hfront := hrest.prepend ('"' :: inside ++ ['"']) fun cs hcs => by
      rw [List.append_assoc]
      exact .quoted hinside hcs
    rw [if_neg hq]
    rwa [List.append_assoc] at hfront
  | case6 depth quoted tail hq _ ih =>
    obtain ⟨more, hmore, rfl⟩ := eq_of_extend h
    obtain ⟨inside, rest, rfl, hinside, hrest⟩ := ih hmore
    have hfront := hrest.prepend ('(' :: inside ++ [')']) fun cs hcs => by
      rw [List.append_assoc]
      exact .nested hinside hcs
    rw [if_neg hq]
    rwa [List.append_assoc] at hfront
  | case7 quoted tail hq =>
    obtain ⟨rfl, -⟩ := Prod.mk.inj (Option.some.inj h)
    rw [if_neg hq]
    exact .nil
  | case8 quoted tail hq _ _ depth ih =>
    obtain ⟨more, hmore, rfl⟩ := eq_of_extend h
    rw [if_neg hq]
    exact ⟨[], more, rfl, .nil, ih hmore⟩
  | case9 depth quoted c tail hq ho hb hc ih =>
    obtain ⟨more, hmore, rfl⟩ := eq_of_extend h
    rw [if_neg hq]
    exact (ih hmore).prepend [c] fun _ => .other (by simp [ho, hb, hc])

end Clause

theorem BracesMatch.splitBraces_append {cs : List Char} (h : BracesMatch cs) (depth : Nat) (rest : List Char) :
    Clause.splitBraces depth (cs ++ rest) = Clause.extend cs (Clause.splitBraces depth rest) := by
  induction h generalizing depth rest with
  | nil => exact (Clause.extend_nil _).symm
  | escaped c _ ih =>
    rw [List.cons_append, List.cons_append, Clause.splitBraces.eq_def]
    simp [ih, Clause.extend_extend]
  | nested _ _ hinside ih =>
    rw [List.cons_append, List.cons_append, List.append_assoc, List.cons_append, Clause.splitBraces.eq_def]
    simp only [Char.reduceEq, if_false, if_true]
    rw [hinside, Clause.splitBraces.eq_def (depth + 1)]
    simp [ih, Clause.extend_extend]
  | other hc _ ih =>
    simp only [List.mem_cons, List.not_mem_nil, or_false, not_or] at hc
    rw [List.cons_append, Clause.splitBraces.eq_def]
    simp [hc.1, hc.2.1, hc.2.2, ih, Clause.extend_extend]

theorem QuotesNothing.passed {cs : List Char} (h : QuotesNothing cs) : Clause.Passed true cs := by
  induction h with
  | nil => exact .nil
  | escaped c _ ih => exact (Clause.Passed.quoted_pair c).append ih
  | other hc _ ih =>
    refine (Clause.Passed.quoted_singleton ?_).append ih
    simpa using hc

theorem ParensMatch.passed {cs : List Char} (h : ParensMatch cs) : Clause.Passed false cs := by
  induction h with
  | nil => exact .nil
  | quoted hinside _ ih => simpa using hinside.passed.quote.append ih
  | nested _ _ hinside ih =>
    intro depth rest
    rw [List.cons_append, List.cons_append, List.append_assoc, List.cons_append, Clause.splitParens.eq_def]
    simp only [Bool.false_eq_true, if_false, if_true]
    rw [hinside, Clause.splitParens.eq_def (depth + 1)]
    simp [ih depth rest, Clause.extend_extend]
  | other hc _ ih =>
    refine (Clause.Passed.singleton ?_).append ih
    simpa using hc

namespace Clause

/-- A closing brace is found if it matches the one that opens the text, and no other is. -/
theorem splitBraces_iff {cs inner rest : List Char} :
    splitBraces 0 cs = some (inner, rest) ↔ cs = inner ++ '\x7d' :: rest ∧ BracesMatch inner := by
  refine ⟨fun h => ⟨eq_of_splitBraces h, levels_of_splitBraces h⟩, ?_⟩
  rintro ⟨rfl, h⟩
  rw [h.splitBraces_append, splitBraces.eq_def]
  simp [extend]

/-- A closing parenthesis is found if it matches the one that opens the text, and no other is. -/
theorem splitParens_iff {cs inner rest : List Char} :
    splitParens 0 false cs = some (inner, rest) ↔ cs = inner ++ ')' :: rest ∧ ParensMatch inner := by
  refine ⟨fun h => ⟨eq_of_splitParens h, levels_of_splitParens h⟩, ?_⟩
  rintro ⟨rfl, h⟩
  rw [h.passed, splitParens.eq_def]
  simp [extend]

/-- A text is cut at the first place where the separator stands. -/
theorem first_of_splitAt? {sep cs before after x y : List Char}
    (h : Text.splitAt? sep cs = some (before, after)) (hoccurs : before ++ sep = x ++ sep ++ y) : y = [] := by
  fun_induction Text.splitAt? sep cs generalizing before x with
  | case1 | case3 =>
    obtain ⟨rfl, -⟩ := Prod.mk.inj (Option.some.inj h)
    have hlength := congrArg List.length hoccurs
    simp only [List.length_append, List.length_nil] at hlength
    exact List.length_eq_zero_iff.1 (by omega)
  | case2 => cases h
  | case4 c rest hs ih =>
    simp only [Option.map_eq_some_iff, Prod.mk.injEq] at h
    obtain ⟨⟨before, after⟩, hrest, rfl, rfl⟩ := h
    cases x with
    | nil =>
      refine absurd (List.isPrefixOf_iff_prefix.2 ⟨y ++ after, ?_⟩) hs
      rw [eq_of_splitAt? hrest, ← List.append_assoc, ← List.nil_append sep, ← hoccurs]
      simp
    | cons d x => exact ih hrest (List.cons.inj hoccurs).2

end Clause

/-! ## Delimiters -/

/-- What stands around the inside of a clause. -/
inductive Delimiters
  | parens
  | braces
  /-- Fences of `n` equality signs. -/
  | fences (n : Nat)
  deriving DecidableEq, Repr

namespace Delimiters

/-- What opens the clause. -/
def opening : Delimiters → List Char
  | parens => ['(']
  | braces => ['\x7b']
  | fences n => List.replicate n '=' ++ ['>']

/-- What closes the clause. -/
def closing : Delimiters → List Char
  | parens => [')']
  | braces => ['\x7d']
  | fences n => Clause.closingFence n

/-- The sign right in front of the inside. -/
def opener : Delimiters → Char
  | parens => '('
  | braces => '\x7b'
  | fences _ => '>'

/-- The sign right behind the inside. -/
def closer : Delimiters → Char
  | parens => ')'
  | braces => '\x7d'
  | fences _ => '='

/-- What closes the clause matches what opens it, if this is the inside: in front of it no closing sign matches
sooner. -/
def Match : Delimiters → List Char → Prop
  | parens, inside => ParensMatch inside
  | braces, inside => BracesMatch inside
  | fences n, inside => 0 < n ∧
    ∀ before after, inside ++ Clause.closingFence n = before ++ Clause.closingFence n ++ after → after = []

/-- The inside of a clause stands in the source between its delimiters, and the span says where. -/
structure Enclose (d : Delimiters) (s : String) (span : Span) (inside : List Char) : Prop where
  cut : ∃ before after, s.toList = before ++ d.opening ++ inside ++ d.closing ++ after ∧
    span.start = Text.byteLength (before ++ d.opening)
  stop_eq : span.stop = span.start + Text.byteLength inside
  match_inside : d.Match inside

theorem opening_eq (d : Delimiters) : ∃ front, d.opening = front ++ [d.opener] := by
  cases d with
  | parens | braces => exact ⟨[], rfl⟩
  | fences n => exact ⟨_, rfl⟩

theorem Match.closing_eq {d : Delimiters} {inside : List Char} (h : d.Match inside) :
    ∃ back, d.closing = d.closer :: back := by
  cases d with
  | parens | braces => exact ⟨[], rfl⟩
  | fences n =>
    obtain ⟨m, rfl⟩ := Nat.exists_eq_succ_of_ne_zero (Nat.ne_of_gt h.1)
    exact ⟨_, rfl⟩

theorem toNat_opener (d : Delimiters) : d.opener.toNat < 128 := by
  cases d <;> exact of_decide_eq_true rfl

theorem toNat_closer (d : Delimiters) : d.closer.toNat < 128 := by
  cases d <;> exact of_decide_eq_true rfl

/-- A text between delimiters that match, in front of a window. -/
theorem enclose_of_liesIn {d : Delimiters} {s : String} {w : Window} {inside rest : List Char} {start : Nat}
    (hw : w.LiesIn s) (hchars : w.chars = d.opening ++ (inside ++ (d.closing ++ rest))) (h : d.Match inside)
    (hstart : start = w.offset + Text.byteLength d.opening) :
    d.Enclose s ⟨start, start + Text.byteLength inside⟩ inside := by
  obtain ⟨before, after, hs, hoffset⟩ := hw
  refine ⟨⟨before, rest ++ after, by rw [hs, hchars]; simp, ?_⟩, rfl, h⟩
  rw [Text.byteLength_append, ← hoffset]
  exact hstart

namespace Enclose

variable {d : Delimiters} {s : String} {span : Span} {inside : List Char}

theorem start_le (h : d.Enclose s span inside) : span.start ≤ span.stop := h.stop_eq ▸ Nat.le_add_right _ _

/-- The byte in front of the span is the sign that opens. -/
theorem byteAt_opener (h : d.Enclose s span inside) :
    0 < span.start ∧ byteAt s (span.start - 1) = pure d.opener := by
  obtain ⟨before, after, hs, hstart⟩ := h.cut
  obtain ⟨front, hopening⟩ := d.opening_eq
  have hlies : (Window.mk (Text.byteLength (before ++ front))
      (d.opener :: (inside ++ d.closing ++ after))).LiesIn s :=
    ⟨before ++ front, [], by rw [hs, hopening]; simp, rfl⟩
  have hsize : span.start = Text.byteLength (before ++ front) + 1 := by
    rw [hstart, hopening, ← List.append_assoc, Text.byteLength_append, Text.byteLength_cons,
      utf8Size_of_ascii d.toNat_opener]
    rfl
  rw [hsize]
  exact ⟨Nat.succ_pos _, ((spans_of_liesIn hlies).sign d.toNat_opener).1⟩

/-- The byte behind the span is the sign that closes. -/
theorem byteAt_closer (h : d.Enclose s span inside) : byteAt s span.stop = pure d.closer := by
  obtain ⟨before, after, hs, hstart⟩ := h.cut
  obtain ⟨back, hclosing⟩ := h.match_inside.closing_eq
  have hlies : (Window.mk span.stop (d.closer :: (back ++ after))).LiesIn s := by
    refine ⟨before ++ d.opening ++ inside, [], by rw [hs, hclosing]; simp, ?_⟩
    rw [h.stop_eq, hstart, Text.byteLength_append (before ++ d.opening)]
  exact ((spans_of_liesIn hlies).sign d.toNat_closer).1

end Enclose

end Delimiters

/-! ## Clauses -/

/-- What stands around a body of this layout. A function in place of a body has nothing around it. -/
def Layout.delimiters? : Layout → Option Delimiters
  | inline | block => some .braces
  | code opening _ => some (.fences opening)
  | directChild => none

namespace Clause

/-- Where the inside of the clause stands. -/
def span : Clause → Span
  | param _ _ span => span
  | body _ inner => ⟨inner.offset, inner.stop⟩

/-- The clause stands in the source where it says. -/
def StandsIn (s : String) : Clause → Prop
  | param _ _ span => ∃ inside, Delimiters.parens.Enclose s span inside
  | body layout inner =>
    ∃ d, layout.delimiters? = some d ∧ d.Enclose s ⟨inner.offset, inner.stop⟩ inner.chars

/-- The clauses stand in the source one behind the other, from an offset up to another. -/
def InOrder (s : String) : Nat → List Clause → Nat → Prop
  | lo, [], hi => lo ≤ hi
  | lo, c :: more, hi => c.StandsIn s ∧ lo < c.span.start ∧ InOrder s (c.span.stop + 1) more hi

namespace InOrder

variable {s : String} {lo mid hi : Nat} {cs ds : List Clause}

theorem append (h : InOrder s lo cs mid) (h' : InOrder s mid ds hi) : InOrder s lo (cs ++ ds) hi := by
  induction cs generalizing lo with
  | nil =>
    cases ds with
    | nil => exact Nat.le_trans h h'
    | cons d more => exact ⟨h'.1, Nat.lt_of_le_of_lt h h'.2.1, h'.2.2⟩
  | cons c more ih => exact ⟨h.1, h.2.1, ih h.2.2⟩

theorem split (h : InOrder s lo (cs ++ ds) hi) : ∃ mid, InOrder s lo cs mid ∧ InOrder s mid ds hi := by
  induction cs generalizing lo with
  | nil => exact ⟨lo, Nat.le_refl _, h⟩
  | cons c more ih =>
    obtain ⟨mid, hmore, hds⟩ := ih h.2.2
    exact ⟨mid, ⟨h.1, h.2.1, hmore⟩, hds⟩

theorem standsIn (h : InOrder s lo cs hi) : ∀ c ∈ cs, c.StandsIn s := by
  induction cs generalizing lo with
  | nil => simp
  | cons c more ih => exact List.forall_mem_cons.2 ⟨h.1, ih h.2.2⟩

end InOrder

/-! ## Reading clauses -/

section

variable {w v : Window} {c : Clause} {s : String}

/-- A clause that is read stands between the window and what is left of it. -/
theorem inOrder_read? (h : read? w = some (c, v)) (hw : w.LiesIn s) : InOrder s w.offset [c] v.offset := by
  cases found_of_read? h with
  | @param offset inner rest hs =>
    have hinside := Delimiters.enclose_of_liesIn (d := .parens) hw rfl (splitParens_iff.1 hs).2 rfl
    exact ⟨⟨inner, hinside⟩, Nat.lt_succ_self _, Nat.le_refl _⟩
  | @braced offset inner rest hs =>
    have hinside := Delimiters.enclose_of_liesIn (d := .braces) hw rfl (splitBraces_iff.1 hs).2 rfl
    exact ⟨⟨.braces, by split <;> rfl, hinside⟩, Nat.lt_succ_self _, Nat.le_refl _⟩
  | @fenced offset n inner rest hn hs =>
    have hchars : List.replicate n '=' ++ '>' :: (inner ++ closingFence n ++ rest) =
        (Delimiters.fences n).opening ++ (inner ++ ((Delimiters.fences n).closing ++ rest)) := by
      simp [Delimiters.opening, Delimiters.closing]
    have hstart : offset + n + 1 = offset + Text.byteLength (Delimiters.fences n).opening := by
      rw [Delimiters.opening, Text.byteLength_append, byteLength_replicate n rfl]
      rfl
    have hinside := Delimiters.enclose_of_liesIn hw hchars ⟨hn, fun x y => first_of_splitAt? hs⟩ hstart
    refine ⟨⟨.fences n, rfl, hinside⟩, ?_, ?_⟩
    · show offset < offset + n + 1
      omega
    · show offset + n + 1 + Text.byteLength inner + 1 ≤ offset + n + 1 + Text.byteLength inner + n + 1
      omega

end

end Clause

/-! ## Clauses on the way -/

/-- On the way from a window to what is left of it these clauses have been read. -/
structure Window.Passes (s : String) (w : Window) (cs : List Clause) (v : Window) : Prop where
  leadsTo : w.LeadsTo v
  inOrder : w.LiesIn s → Clause.InOrder s w.offset cs v.offset

namespace Window

variable {s : String} {w v u : Window} {cs ds : List Clause}

theorem LeadsTo.offset_le (h : w.LeadsTo v) : w.offset ≤ v.offset := by
  obtain ⟨taken, -, hoffset⟩ := h
  exact hoffset ▸ Nat.le_add_right _ _

theorem LeadsTo.passes (h : w.LeadsTo v) : w.Passes s [] v := ⟨h, fun _ => h.offset_le⟩

theorem Passes.append (h : w.Passes s cs v) (h' : v.Passes s ds u) : w.Passes s (cs ++ ds) u :=
  ⟨h.leadsTo.trans h'.leadsTo, fun hw => (h.inOrder hw).append (h'.inOrder (hw.leadsTo h.leadsTo))⟩

theorem passes_clauses (s : String) (w : Window) : w.Passes s w.clauses.1 w.clauses.2 := by
  fun_induction Window.clauses w with
  | case1 => exact (LeadsTo.refl _).passes
  | case2 w clause next h more rest hn ih =>
    rw [hn] at ih
    have hfirst : w.Passes s [clause] next := ⟨Clause.leadsTo_read? h, Clause.inOrder_read? h⟩
    exact hfirst.append ih

end Window

namespace Segment

/-- The clauses in a segment. -/
def clauses (segment : Segment) : List Clause := segment.calls.flatMap (·.clauses)

section

variable {s : String} {w v : Window}

theorem passes_call? {sigil : Char} {call : Call} (h : call? sigil w = some (call, v)) :
    w.Passes s call.clauses v := by
  obtain ⟨-, rfl, rfl⟩ := eq_of_call? h
  exact ((leadsTo_tail w).trans (leadsTo_afterName _)).passes.append (passes_clauses s _)

theorem passes_calls? {call : Call} {nested : List Call} (h : calls? w = some (call, nested, v)) :
    w.Passes s ((call :: nested).flatMap (·.clauses)) v := by
  fun_induction calls? w generalizing call nested v with
  | case1 => cases h
  | case2 w c rest hc _ next more rest' hn ih =>
    simp only [Option.some.injEq, Prod.mk.injEq] at h
    obtain ⟨rfl, rfl, rfl⟩ := h
    exact (passes_call? hc).append (ih hn)
  | case3 w c rest hc | case4 w c rest hc =>
    simp only [Option.some.injEq, Prod.mk.injEq] at h
    obtain ⟨rfl, rfl, rfl⟩ := h
    rw [List.flatMap_singleton]
    exact passes_call? hc

theorem passes_read? {segment : Segment} (h : read? w = some (segment, v)) : w.Passes s segment.clauses v := by
  have hname := (leadsTo_tail w).trans (leadsTo_afterName _)
  cases found_of_read? h with
  | prose => exact (leadsTo_after (splitProse_append w.chars).symm).passes
  | function hcalls => exact passes_calls? hcalls
  | reference _ htarget hcalls =>
    exact (hname.trans (leadsTo_afterEquals? htarget)).passes.append (passes_calls? hcalls)
  | emptyReference _ htarget | danglingReference _ htarget | danglingAssignment _ htarget =>
    exact (hname.trans (leadsTo_afterEquals? htarget)).passes
  | nameless | use => exact hname.passes
  | command hcall =>
    rw [clauses, calls, List.flatMap_singleton]
    exact passes_call? hcall
  | assignment _ htarget hcall =>
    rw [clauses, calls, List.flatMap_singleton]
    exact (hname.trans (leadsTo_afterEquals? htarget)).passes.append (passes_call? hcall)

end

end Segment

/-- The clauses in the segments of a window stand one behind the other. -/
theorem Window.passes_segments (s : String) (w : Window) :
    w.Passes s (w.segments.1.flatMap Segment.clauses) w.segments.2 := by
  fun_induction Window.segments w with
  | case1 | case3 => exact (LeadsTo.refl _).passes
  | case2 w hw hn ih => exact (leadsTo_tail w).passes.append ih
  | case4 w hw hn segment next hr more rest hs ih =>
    rw [hs] at ih
    exact (Segment.passes_read? hr).append ih

end Evomark
