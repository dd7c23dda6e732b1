import Evomark.Proofs.Markup.Delimited
import Evomark.Proofs.Markup.Registered
import Evomark.Proofs.Markup.Segmented
/-!
# Names that are looked up

The rule of a name is looked up only where the name stands right behind its sign in the source
(`Segment.named_read?`). The name is read in a window, which may be the inside of a body. But behind such an
inside stands what closes the body, which is no character of a name (`Window.Stops`), so the name is not cut
short. Two registries that give those names the same rules therefore read a source alike (`parse_lookups`).
-/

namespace Evomark

open Markup

/-! ## Names in a text -/

namespace Markup

/-- The names right behind the sign in a text, each up to its last character. -/
def namesBehind (sigil : Char) : List Char → List String
  | [] => []
  | c :: rest =>
    if Window.startsConstruct sigil (c :: rest) then
      String.ofList (rest.takeWhile Window.isNameChar) :: namesBehind sigil rest
    else namesBehind sigil rest

theorem mem_namesBehind {sigil : Char} {cs : List Char} (h : Window.startsConstruct sigil cs = true)
    (before : List Char) :
    String.ofList (cs.tail.takeWhile Window.isNameChar) ∈ namesBehind sigil (before ++ cs) := by
  induction before with
  | nil =>
    cases cs with
    | nil => cases h
    | cons c rest =>
      rw [List.nil_append, namesBehind, if_pos h]
      exact .head _
  | cons d before ih =>
    rw [List.cons_append, namesBehind]
    split
    · exact .tail _ ih
    · exact ih

end Markup

/-! ## Where windows stop -/

/-- The window lies in the source, and no name goes on behind it. -/
def Window.Stops (s : String) (w : Window) : Prop :=
  ∃ before after, s.toList = before ++ w.chars ++ after ∧ w.offset = Text.byteLength before ∧
    ∀ c, after.head? = some c → isNameChar c = false

namespace Window.Stops

variable {s : String} {w v : Window} (h : w.Stops s)

theorem ofSource (s : String) : (Window.ofSource s).Stops s :=
  ⟨[], [], by simp [Window.ofSource], rfl, fun _ hc => nomatch hc⟩

include h

theorem liesIn : w.LiesIn s := by
  obtain ⟨before, after, hs, hoffset, -⟩ := h
  exact ⟨before, after, hs, hoffset⟩

theorem leadsTo (hv : w.LeadsTo v) : v.Stops s := by
  obtain ⟨before, after, hs, hoffset, hafter⟩ := h
  obtain ⟨taken, hchars, hstart⟩ := hv
  refine ⟨before ++ taken, after, by rw [hs, hchars]; simp, ?_, hafter⟩
  rw [hstart, hoffset, Text.byteLength_append]

/-- A name in the window is a name of the source. -/
theorem name_mem {sigil : Char} (hstart : startsConstruct sigil w.chars = true) :
    w.tail.name ∈ namesBehind sigil s.toList := by
  obtain ⟨before, behind, hs, -, hbehind⟩ := h
  obtain ⟨c, rest, hchars⟩ := List.exists_cons_of_ne_nil (chars_ne_nil_of_startsConstruct hstart)
  have hsource : startsConstruct sigil (w.chars ++ behind) = true := by
    rw [hchars] at hstart ⊢
    cases rest with
    | nil => exact absurd hstart Bool.false_ne_true
    | cons d more => exact hstart
  have hmem := mem_namesBehind hsource before
  have htake : (rest ++ behind).takeWhile isNameChar = rest.takeWhile isNameChar := by
    have hnone : behind.takeWhile isNameChar = [] := by
      cases behind with
      | nil => rfl
      | cons d more => exact List.takeWhile_cons_of_neg (by simp [hbehind d rfl])
    rw [List.takeWhile_append]
    split
    · rename_i hall
      rw [hnone, List.append_nil, (List.takeWhile_prefix isNameChar).eq_of_length hall]
    · rfl
  rw [hchars, List.cons_append, List.tail_cons, htake] at hmem
  rw [hs, List.append_assoc, hchars, name, tail, after, hchars]
  exact hmem

end Window.Stops

theorem Delimiters.isNameChar_closer (d : Delimiters) : Window.isNameChar d.closer = false := by
  cases d <;> rfl

/-- Behind the inside of a body stands what closes it. -/
theorem Clause.StandsIn.stops {s : String} {layout : Layout} {inner : Window}
    (h : (Clause.body layout inner).StandsIn s) : inner.Stops s := by
  obtain ⟨d, -, ⟨before, after, hs, hstart⟩, -, hmatch⟩ := h
  obtain ⟨back, hclosing⟩ := hmatch.closing_eq
  refine ⟨before ++ d.opening, d.closing ++ after, by rw [hs]; simp, hstart, fun c hc => ?_⟩
  rw [hclosing] at hc
  obtain rfl := Option.some.inj hc
  exact d.isNameChar_closer

/-! ## Names of segments -/

namespace Segment

variable {s : String} {w v : Window}

/-- The names in the segment stand behind their signs in the source. -/
structure NamedIn (s : String) (segment : Segment) : Prop where
  functions : ∀ name ∈ segment.functionNames, name ∈ namesBehind '#' s.toList
  commands : ∀ name ∈ segment.commandNames, name ∈ namesBehind '$' s.toList

theorem named_call? {sigil : Char} {call : Call} (hw : w.Stops s) (h : call? sigil w = some (call, v)) :
    call.name ∈ namesBehind sigil s.toList := by
  obtain ⟨hstart, rfl, -⟩ := eq_of_call? h
  exact hw.name_mem hstart

theorem named_calls? {call : Call} {nested : List Call} (hw : w.Stops s)
    (h : calls? w = some (call, nested, v)) :
    ∀ name ∈ (call :: nested).map (·.name), name ∈ namesBehind '#' s.toList := by
  fun_induction calls? w generalizing call nested v with
  | case1 => cases h
  | case2 w c rest hc _ next more rest' hn ih =>
    simp only [Option.some.injEq, Prod.mk.injEq] at h
    obtain ⟨rfl, rfl, -⟩ := h
    rw [List.map_cons, List.forall_mem_cons]
    exact ⟨named_call? hw hc, ih (hw.leadsTo (passes_call? (s := s) hc).leadsTo) hn⟩
  | case3 w c rest hc | case4 w c rest hc =>
    simp only [Option.some.injEq, Prod.mk.injEq] at h
    obtain ⟨rfl, rfl, -⟩ := h
    exact List.forall_mem_singleton.2 (named_call? hw hc)

theorem named_read? {segment : Segment} (hw : w.Stops s) (h : read? w = some (segment, v)) :
    segment.NamedIn s := by
  have htarget {target : Window} (h : afterEquals? w.tail.afterName = some target) : target.Stops s :=
    hw.leadsTo (((Window.leadsTo_tail w).trans (Window.leadsTo_afterName _)).trans (leadsTo_afterEquals? h))
  cases found_of_read? h with
  | function hcalls => exact ⟨named_calls? hw hcalls, nofun⟩
  | reference _ hto hcalls => exact ⟨named_calls? (htarget hto) hcalls, nofun⟩
  | command hcall => exact ⟨nofun, List.forall_mem_singleton.2 (named_call? hw hcall)⟩
  | assignment _ hto hcall =>
    exact ⟨nofun, List.forall_mem_singleton.2 (named_call? (htarget hto) hcall)⟩
  | prose | emptyReference | nameless | danglingReference | use | danglingAssignment =>
    exact ⟨nofun, nofun⟩

end Segment

theorem Window.named_segments {s : String} {w : Window} (hw : w.Stops s) :
    ∀ segment ∈ w.segments.1, segment.NamedIn s := by
  fun_induction Window.segments w with
  | case1 | case3 => simp
  | case2 w hne hn ih => exact ih (hw.leadsTo (leadsTo_tail w))
  | case4 w hne hn segment next hr more rest hs ih =>
    rw [hs] at ih
    rw [List.forall_mem_cons]
    exact ⟨Segment.named_read? hw hr, ih (hw.leadsTo (Segment.passes_read? (s := s) hr).leadsTo)⟩

/-! ## Grammars that agree -/

namespace Markup

variable {g g' : Grammar} {s : String}

/-- The grammars give the same rules to the names of the source. -/
structure AgreeOn (g g' : Grammar) (s : String) : Prop where
  functions : ∀ name ∈ namesBehind '#' s.toList, g.functionRule name = g'.functionRule name
  commands : ∀ name ∈ namesBehind '$' s.toList, g.commandRule name = g'.commandRule name

/-- A window of the source gives the same under grammars that agree on it, and so does every window inside. -/
theorem contents_congr (h : AgreeOn g g' s) {w : Window} (hw : w.Stops s) : contents g w = contents g' w := by
  have hstands := ((w.passes_segments s).inOrder hw.liesIn).standsIn
  have hsegments : w.segments.1.map (readSegment g (contents g)) =
      w.segments.1.map (readSegment g' (contents g')) := by
    refine List.map_congr_left fun segment hs => ?_
    have hnamed := Window.named_segments hw segment hs
    refine readSegment_congr (fun name hn => h.functions name (hnamed.functions name hn))
      (fun name hn => h.commands name (hnamed.commands name hn)) fun call hcall layout inner hbody => ?_
    have hmem : Clause.body layout inner ∈ w.segments.1.flatMap Segment.clauses :=
      List.mem_flatMap.2 ⟨segment, hs, List.mem_flatMap.2 ⟨call, hcall, hbody⟩⟩
    have hshort : inner.length < w.length := w.within_segments segment hs call hcall _ hbody
    exact contents_congr h (hstands _ hmem).stops
  rw [contents_eq g, contents_eq g', hsegments]
termination_by w.length

theorem parse_congr (h : AgreeOn g g' s) (initial : Table Json) : parse g initial s = parse g' initial s := by
  simp only [parse, contents_congr h (.ofSource s)]

end Markup

/-! ## Registries -/

namespace Registry

variable {r r' : Registry} {name : String}

/-- A function without a rule is a box already. -/
theorem functionRule_of_addFunction (hr : r.Built) (h : r.addFunction name .box = .ok r') (n : String) :
    r'.grammar.functionRule n = r.grammar.functionRule n := by
  obtain ⟨hfree, rfl⟩ := eq_of_addFunction h
  have hbox := hr.box
  have hne : name ≠ "box" := by
    rintro rfl
    rw [hbox] at hfree
    cases hfree
  simp only [Grammar.functionRule, grammar, Table.get?_insert, if_neg hne, hbox]
  by_cases hn : name = n
  · rw [if_pos hn, ← hn, hfree]
    rfl
  · rw [if_neg hn]

/-- A command without a rule has a literal body already. -/
theorem commandRule_of_addCommand (h : r.addCommand name .literal = .ok r') (n : String) :
    r'.grammar.commandRule n = r.grammar.commandRule n := by
  obtain ⟨hfree, rfl⟩ := eq_of_addCommand h
  simp only [Grammar.commandRule, grammar, Table.get?_insert]
  by_cases hn : name = n
  · rw [if_pos hn, ← hn, hfree]
    rfl
  · rw [if_neg hn]

theorem parse_of_agreeOn {source : String} (hspaces : r.namespaces = r'.namespaces)
    (h : AgreeOn r.grammar r'.grammar source) : r.parse source = r'.parse source := by
  rw [Registry.parse, Registry.parse, parse_congr h, hspaces]

end Registry

/-- Registries with the same namespaces that give the same rules to the names behind number signs and behind
dollar signs of a source read it alike. So it makes no difference for any source whether a name without a rule
is given that of a box, or for commands that of a literal body. -/
theorem parse_lookups :
    (∀ (r r' : Registry) (source : String), r.namespaces = r'.namespaces →
      (∀ name ∈ namesBehind '#' source.toList, r.grammar.functionRule name = r'.grammar.functionRule name) →
      (∀ name ∈ namesBehind '$' source.toList, r.grammar.commandRule name = r'.grammar.commandRule name) →
        r.parse source = r'.parse source) ∧
    (∀ (r r' : Registry) (name : String), r.Built → r.addFunction name .box = .ok r' →
      ∀ source, r'.parse source = r.parse source) ∧
    ∀ (r r' : Registry) (name : String), r.addCommand name .literal = .ok r' →
      ∀ source, r'.parse source = r.parse source := by
  refine ⟨fun r r' source hspaces hfunctions hcommands => ?_, fun r r' name hr hadd source => ?_,
    fun r r' name hadd source => ?_⟩
  · exact Registry.parse_of_agreeOn hspaces ⟨hfunctions, hcommands⟩
  · have hrule := Registry.functionRule_of_addFunction hr hadd
    obtain ⟨-, rfl⟩ := Registry.eq_of_addFunction hadd
    exact Registry.parse_of_agreeOn rfl ⟨fun n _ => hrule n, fun _ _ => rfl⟩
  · have hrule := Registry.commandRule_of_addCommand hadd
    obtain ⟨-, rfl⟩ := Registry.eq_of_addCommand hadd
    exact Registry.parse_of_agreeOn rfl ⟨fun _ _ => rfl, fun n _ => hrule n⟩

/-- A registry that knows functions and commands the source does not use, and lacks those it does use only
as boxes and with literal bodies. -/
theorem parse_lookups_unused :
    let source := "#outer['yaml']\x7b#set\x7ba: 1\x7d $t\x7bx\x7d\x7d%v = $zz[1]\x7by\x7d"
    let r : Registry := { functions := [("box", .box), ("set", .config "x")], commands := [("up", .shout)] }
    let r' : Registry :=
      { functions := [("a", .reject), ("box", .box), ("outer", .box), ("set", .config "x")]
        commands := [("t", .literal), ("up", .reject), ("z", .code)] }
    namesBehind '#' source.toList = ["outer", "set"] ∧ namesBehind '$' source.toList = ["t", "zz"] ∧
      r.parse source = r'.parse source ∧
      (Registry.minimal.addFunction "outer" .box).toOption.map (·.parse source) =
        some (Registry.minimal.parse source) ∧
      (Registry.minimal.addCommand "zz" .literal).toOption.map (·.parse source) =
        some (Registry.minimal.parse source) :=
  ⟨by decide +kernel, by decide +kernel, parse_lookups.1 _ _ _ rfl (by decide +kernel) (by decide +kernel),
    congrArg some (parse_lookups.2.1 _ _ "outer" .minimal rfl _),
    congrArg some (parse_lookups.2.2 _ _ "zz" rfl _)⟩

end Evomark
