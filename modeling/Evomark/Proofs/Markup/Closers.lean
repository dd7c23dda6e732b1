import Evomark.Proofs.Json.Written
import Evomark.Proofs.Markup.Found
/-!
# Where a clause closes

Where a clause closes is said here by position, without a scanner. A sign at a position counts or does not, and that
depends on the text in front of it: between braces a sign does not count behind an odd number of backslashes, between
parentheses it does not count inside of a string literal (`Bracket.counts`). The depth behind a text is the number of
brackets opened in it that count, less the number of those closed (`Bracket.depth`). A clause closes at a closing sign
that counts and has a text of depth zero in front of it (`Bracket.ClosesAt`).

The scanners cut at the first position at which a clause closes, and cut nowhere only if there is none
(`finds_splitBraces`, `finds_splitParens`). On the way they keep what they know of the text they have passed over: its
depth, that it does not end with a backslash that takes the next character out of account, and whether it ends inside
of a string literal.
-/

namespace Evomark

/-- The brackets around a clause. -/
inductive Bracket
  | brace
  | paren
  deriving DecidableEq, Repr

namespace Bracket

/-- The sign that opens. -/
def opener : Bracket → Char
  | brace => '\x7b'
  | paren => '('

/-- The sign that closes. -/
def closer : Bracket → Char
  | brace => '\x7d'
  | paren => ')'

/-- The text ends with an odd number of backslashes, so that a character behind it is escaped. -/
def escapes (front : List Char) : Bool := (front.reverse.takeWhile (· == '\\')).length % 2 == 1

/-- A text that is given backwards ends inside of a string literal. A quotation mark opens one, or closes the one that
is open if it is not escaped. -/
def quotesBack : List Char → Bool
  | [] => false
  | c :: before =>
    if c = '"' ∧ ¬(quotesBack before = true ∧ escapes before.reverse = true) then !quotesBack before
    else quotesBack before

/-- The text ends inside of a string literal. -/
def quotes (front : List Char) : Bool := quotesBack front.reverse

/-- A sign behind the text counts: between braces if it is not escaped, between parentheses if it is outside of string
literals. -/
def counts : Bracket → List Char → Bool
  | brace, front => !escapes front
  | paren, front => !quotes front

/-- How often a sign stands in the text where it counts. -/
def count (k : Bracket) (sign : Char) (cs : List Char) : Nat :=
  (List.range cs.length).countP fun i => cs[i]? == some sign && k.counts (cs.take i)

/-- The brackets opened in the text, less those closed. -/
def depth (k : Bracket) (cs : List Char) : Int := k.count k.opener cs - k.count k.closer cs

/-- A clause whose inside starts with the text closes at a position in it. -/
def ClosesAt (k : Bracket) (cs : List Char) (i : Nat) : Prop :=
  cs[i]? = some k.closer ∧ k.counts (cs.take i) = true ∧ k.depth (cs.take i) = 0

/-! ## One more character -/

theorem escapes_concat (front : List Char) (c : Char) :
    escapes (front ++ [c]) = if c = '\\' then !escapes front else false := by
  unfold escapes
  rw [List.reverse_append, List.reverse_singleton, List.singleton_append, List.takeWhile_cons]
  by_cases hc : c = '\\'
  · rw [if_pos hc, if_pos (by simp [hc]), List.length_cons]
    rcases Nat.mod_two_eq_zero_or_one (front.reverse.takeWhile (· == '\\')).length with h | h <;>
      simp [Nat.add_mod, h]
  · rw [if_neg hc, if_neg (by simp [hc])]
    rfl

theorem quotes_concat (front : List Char) (c : Char) :
    quotes (front ++ [c]) = if c = '"' ∧ ¬(quotes front = true ∧ escapes front = true) then !quotes front
      else quotes front := by
  unfold quotes
  rw [List.reverse_append, List.reverse_singleton, List.singleton_append, quotesBack, List.reverse_reverse]

variable {k : Bracket} {front rest : List Char} {c : Char}

theorem count_concat (k : Bracket) (sign : Char) (front : List Char) (c : Char) :
    k.count sign (front ++ [c]) = k.count sign front + if c = sign ∧ k.counts front = true then 1 else 0 := by
  unfold count
  rw [List.length_append, List.length_singleton, List.range_succ, List.countP_append, List.countP_singleton]
  congr 1
  · refine List.countP_congr fun i hi => ?_
    have hi : i < front.length := List.mem_range.1 hi
    rw [List.getElem?_append_left hi, List.take_append_of_le_length (Nat.le_of_lt hi)]
  · simp

/-- Where it does not count, or where it is no bracket, a character does not change the depth. -/
theorem depth_concat_of_not (h : k.counts front = true → c ≠ k.opener ∧ c ≠ k.closer) :
    k.depth (front ++ [c]) = k.depth front := by
  unfold depth
  rw [count_concat, count_concat, if_neg fun ho => (h ho.2).1 ho.1, if_neg fun hc => (h hc.2).2 hc.1]
  rfl

theorem opener_ne_closer (k : Bracket) : k.opener ≠ k.closer := by cases k <;> decide

theorem depth_concat_opener (h : k.counts front = true) : k.depth (front ++ [k.opener]) = k.depth front + 1 := by
  unfold depth
  rw [count_concat, count_concat, if_pos ⟨rfl, h⟩, if_neg fun hc => k.opener_ne_closer hc.1]
  omega

theorem depth_concat_closer (h : k.counts front = true) : k.depth (front ++ [k.closer]) = k.depth front - 1 := by
  unfold depth
  rw [count_concat, count_concat, if_neg fun ho => k.opener_ne_closer ho.1.symm, if_pos ⟨rfl, h⟩]
  omega

/-! ## The first position -/

/-- What has been found of a text of which `front` has been passed over: the first position from there on at which the
clause closes, as what stands before and behind it, or none if there is none. -/
def Finds (k : Bracket) (front rest : List Char) : Option (List Char × List Char) → Prop
  | none => ∀ i, front.length ≤ i → ¬ k.ClosesAt (front ++ rest) i
  | some (inner, behind) =>
    rest = inner ++ k.closer :: behind ∧ k.ClosesAt (front ++ rest) (front.length + inner.length) ∧
      ∀ i, front.length ≤ i → i < front.length + inner.length → ¬ k.ClosesAt (front ++ rest) i

theorem closesAt_length :
    k.ClosesAt (front ++ c :: rest) front.length ↔ c = k.closer ∧ k.counts front = true ∧ k.depth front = 0 := by
  rw [ClosesAt, List.getElem?_append_right (Nat.le_refl _), Nat.sub_self, List.getElem?_cons_zero, Option.some.injEq,
    List.take_left]

theorem finds_nil (k : Bracket) (front : List Char) : k.Finds front [] none := by
  intro i hi hcloses
  rw [ClosesAt, List.append_nil, List.getElem?_eq_none hi] at hcloses
  exact nomatch hcloses.1

/-- A closing sign that closes the clause is found where it stands. -/
theorem finds_closer (hcounts : k.counts front = true) (hdepth : k.depth front = 0) (behind : List Char) :
    k.Finds front (k.closer :: behind) (some ([], behind)) := by
  refine ⟨rfl, closesAt_length.2 ⟨rfl, hcounts, hdepth⟩, fun i hi hlt => ?_⟩
  rw [List.length_nil] at hlt
  omega

/-- A character at which the clause does not close is passed over. -/
theorem Finds.pass {found : Option (List Char × List Char)}
    (hc : ¬(c = k.closer ∧ k.counts front = true ∧ k.depth front = 0)) (h : k.Finds (front ++ [c]) rest found) :
    k.Finds front (c :: rest) (Clause.extend [c] found) := by
  have hcs : front ++ c :: rest = front ++ [c] ++ rest := by simp
  have hlength : (front ++ [c]).length = front.length + 1 := List.length_append
  cases found with
  | none =>
    intro i hi hcloses
    rcases Nat.eq_or_lt_of_le hi with rfl | hlt
    · exact hc (closesAt_length.1 hcloses)
    · exact h i (by omega) (hcs ▸ hcloses)
  | some found =>
    obtain ⟨inner, behind⟩ := found
    obtain ⟨hrest, hcloses, hfirst⟩ := h
    have hposition : (front ++ [c]).length + inner.length = front.length + ([c] ++ inner).length := by
      rw [hlength, List.length_append, List.length_singleton]
      omega
    rw [← hcs, hposition] at hcloses hfirst
    refine ⟨by rw [hrest]; rfl, hcloses, fun i hi hlt hcloses => ?_⟩
    rcases Nat.eq_or_lt_of_le hi with rfl | hpast
    · exact hc (closesAt_length.1 hcloses)
    · exact hfirst i (by omega) hlt hcloses

/-! ## Scanners -/

/-- Behind a text of some depth that does not end with an escape, the scanner for braces finds the first position. -/
theorem finds_splitBraces {depth : Nat} {cs : List Char} (hescapes : escapes front = false)
    (hdepth : brace.depth front = depth) : brace.Finds front cs (Clause.splitBraces depth cs) := by
  have hcounts {front : List Char} (h : escapes front = false) : brace.counts front = true := by simp [counts, h]
  fun_induction Clause.splitBraces depth cs generalizing front with
  | case1 => exact finds_nil _ _
  | case2 depth => exact (finds_nil brace _).pass (by simp [closer])
  | case3 depth d more ih =>
    have hpending : escapes (front ++ ['\\']) = true := by rw [escapes_concat, if_pos rfl, hescapes]; rfl
    have hfirst : brace.depth (front ++ ['\\']) = depth := by
      rw [depth_concat_of_not fun _ => by decide, hdepth]
    have hescaped : brace.counts (front ++ ['\\']) = false := by simp [counts, hpending]
    have hbehind : escapes (front ++ ['\\'] ++ [d]) = false := by
      rw [escapes_concat, hpending]
      split <;> rfl
    have hsecond : brace.depth (front ++ ['\\'] ++ [d]) = depth := by
      rw [depth_concat_of_not fun h => by simp [hescaped] at h, hfirst]
    have hmore := (ih hbehind hsecond).pass fun h => by simp [hescaped] at h
    have hpair := hmore.pass (c := '\\') (by simp [closer])
    rwa [Clause.extend_extend] at hpair
  | case4 depth rest _ ih =>
    refine (ih (by rw [escapes_concat]; rfl) ?_).pass (by simp [closer])
    have hopened := depth_concat_opener (k := brace) (hcounts hescapes)
    rw [hdepth] at hopened
    exact hopened
  | case5 rest => exact finds_closer (hcounts hescapes) (by simpa using hdepth) rest
  | case6 rest _ _ depth ih =>
    refine (ih (by rw [escapes_concat]; rfl) ?_).pass fun h => by omega
    have hclosed := depth_concat_closer (k := brace) (hcounts hescapes)
    rw [hdepth] at hclosed
    exact hclosed.trans (by omega)
  | case7 depth c rest hslash hopener hcloser ih =>
    refine (ih (by rw [escapes_concat, if_neg hslash]) ?_).pass fun h => hcloser h.1
    rw [depth_concat_of_not fun _ => ⟨hopener, hcloser⟩, hdepth]

/-- Behind a text of some depth, inside of a string literal or not, the scanner for parentheses finds the first
position. -/
theorem finds_splitParens {depth : Nat} {quoted : Bool} {cs : List Char} (hquotes : quotes front = quoted)
    (hescapes : quoted = true → escapes front = false) (hdepth : paren.depth front = depth) :
    paren.Finds front cs (Clause.splitParens depth quoted cs) := by
  have hcounts {front : List Char} {quoted : Bool} (h : quotes front = quoted) (hq : ¬quoted = true) :
      paren.counts front = true := by simp [counts, h, hq]
  have hinside {front : List Char} (h : quotes front = true) : paren.counts front = false := by simp [counts, h]
  fun_induction Clause.splitParens depth quoted cs generalizing front with
  | case1 => exact finds_nil _ _
  | case2 depth => exact (finds_nil paren _).pass (by simp [closer])
  | case3 depth d more ih =>
    have hpending : escapes (front ++ ['\\']) = true := by rw [escapes_concat, if_pos rfl, hescapes rfl]; rfl
    have hstill : quotes (front ++ ['\\']) = true := by rw [quotes_concat, if_neg (by simp), hquotes]
    have hfirst : paren.depth (front ++ ['\\']) = depth := by
      rw [depth_concat_of_not fun _ => by decide, hdepth]
    have hbehind : quotes (front ++ ['\\'] ++ [d]) = true := by
      rw [quotes_concat, if_neg fun h => h.2 ⟨hstill, hpending⟩, hstill]
    have hunescaped : escapes (front ++ ['\\'] ++ [d]) = false := by
      rw [escapes_concat, hpending]
      split <;> rfl
    have hsecond : paren.depth (front ++ ['\\'] ++ [d]) = depth := by
      rw [depth_concat_of_not fun h => by simp [hinside hstill] at h, hfirst]
    have hmore := (ih hbehind (fun _ => hunescaped) hsecond).pass fun h => by simp [hinside hstill] at h
    have hpair := hmore.pass (c := '\\') (by simp [closer])
    rwa [Clause.extend_extend] at hpair
  | case4 depth c rest hslash ih =>
    refine (ih ?_ (fun _ => by rw [escapes_concat, if_neg hslash]) ?_).pass fun h => by simp [hinside hquotes] at h
    · rw [quotes_concat, hquotes, hescapes rfl]
      by_cases hc : c = '"' <;> simp [hc]
    · rw [depth_concat_of_not fun h => by simp [hinside hquotes] at h, hdepth]
  | case5 depth quoted rest hq ih =>
    refine (ih ?_ (fun _ => by rw [escapes_concat]; rfl) ?_).pass (by simp [closer])
    · simp [quotes_concat, hquotes, hq]
    · rw [depth_concat_of_not fun _ => by decide, hdepth]
  | case6 depth quoted rest hq _ ih =>
    refine (ih ?_ (by simp) ?_).pass (by simp [closer])
    · simp [quotes_concat, hquotes, hq]
    · have hopened := depth_concat_opener (k := paren) (hcounts hquotes hq)
      rw [hdepth] at hopened
      exact hopened
  | case7 quoted rest hq => exact finds_closer (hcounts hquotes hq) (by simpa using hdepth) rest
  | case8 quoted rest hq depth _ _ ih =>
    refine (ih ?_ (by simp) ?_).pass fun h => by omega
    · simp [quotes_concat, hquotes, hq]
    · have hclosed := depth_concat_closer (k := paren) (hcounts hquotes hq)
      rw [hdepth] at hclosed
      exact hclosed.trans (by omega)
  | case9 depth quoted c rest hq hquote hopener hcloser ih =>
    refine (ih ?_ (by simp) ?_).pass fun h => hcloser h.1
    · simp [quotes_concat, hquotes, hq, hquote]
    · rw [depth_concat_of_not fun _ => ⟨hopener, hcloser⟩, hdepth]

end Bracket

end Evomark
