import Evomark.Proofs.Exec.Kept
import Evomark.Proofs.Json.Faults
import Evomark.Proofs.Markup.Shape
/-!
# What warnings say

The warnings of the standard rules are messages (`IsMessage`): one line each, without white space at
its ends and without a percent sign. `ExecState.Speaks` says so of the warnings of a state, and that
its hosts have names, since names are part of messages; every step of the standard rules keeps it
(`ExecState.Speaks.runStep`).
-/

namespace Evomark

open Markup

/-! ## Messages -/

/-- The characters of a message: no line feed and no percent sign. -/
def InMessage (cs : List Char) : Prop := ∀ c ∈ cs, c ≠ '\n' ∧ c ≠ '%'

instance (cs : List Char) : Decidable (InMessage cs) := List.decidableBAll _ cs

/-- A message starts like this. -/
structure Opens (cs : List Char) : Prop where
  inside : InMessage cs
  head : ∃ c rest, cs = c :: rest ∧ Text.isWhite c = false

/-- A message ends like this. -/
structure Closes (cs : List Char) : Prop where
  inside : InMessage cs
  last : ∃ front c, cs = front ++ [c] ∧ Text.isWhite c = false

/-- One line without white space at its ends and without a percent sign. -/
structure IsMessage (m : String) : Prop where
  opens : Opens m.toList
  closes : Closes m.toList

namespace InMessage

variable {cs ds : List Char}

theorem append (h : InMessage cs) (h' : InMessage ds) : InMessage (cs ++ ds) :=
  List.forall_mem_append.2 ⟨h, h'⟩

theorem opens (h : InMessage ds) (hc : Opens cs) : Opens (cs ++ ds) := by
  obtain ⟨c, rest, rfl, hw⟩ := hc.head
  exact ⟨hc.inside.append h, c, rest ++ ds, rfl, hw⟩

theorem closes (h : InMessage cs) (hd : Closes ds) : Closes (cs ++ ds) := by
  obtain ⟨front, c, rfl, hw⟩ := hd.last
  exact ⟨h.append hd.inside, cs ++ front, c, by simp, hw⟩

end InMessage

theorem inMessage_of_isNameChar {cs : List Char} (h : ∀ c ∈ cs, Window.isNameChar c = true) :
    InMessage cs := by
  intro c hc
  constructor <;>
  · rintro rfl
    exact absurd (h _ hc) (by decide)

theorem isMessage_of_isNameChar {m : String} (hne : m.toList ≠ [])
    (h : ∀ c ∈ m.toList, Window.isNameChar c = true) : IsMessage m := by
  have hinside := inMessage_of_isNameChar h
  obtain ⟨c, rest, hc⟩ := List.exists_cons_of_ne_nil hne
  refine ⟨⟨hinside, c, rest, hc, ?_⟩, hinside, _, _, (List.dropLast_append_getLast hne).symm, ?_⟩
  · exact not_white_of_isNameChar (h c (by rw [hc]; exact .head _))
  · exact not_white_of_isNameChar (h _ (List.getLast_mem hne))

theorem Markup.IsName.isMessage {name : String} (h : IsName name) : IsMessage name := by
  refine isMessage_of_isNameChar ?_ h.all
  obtain ⟨c, rest, hname, -⟩ := h
  rw [hname]
  simp

theorem isMessage_natural (n : Nat) : IsMessage (toString n) := by
  refine isMessage_of_isNameChar ?_ fun c hc => ?_
  · rw [Nat.toString_eq_repr, Nat.toList_repr]
    exact Nat.toDigits_ne_nil
  · rw [Nat.toString_eq_repr, Nat.toList_repr] at hc
    exact isNameChar_of_isDigit (Nat.isDigit_of_mem_toDigits (by decide) (by decide) hc)

theorem IsMessage.solid {m : String} (h : IsMessage m) : Text.Solid m.toList :=
  ⟨h.opens.head, h.closes.last⟩

theorem isMessage_append {before after : String} (h : Opens before.toList) (h' : Closes after.toList) :
    IsMessage (before ++ after) := by
  refine ⟨?_, ?_⟩ <;> rw [String.toList_append]
  · exact h'.inside.opens h
  · exact h.inside.closes h'

theorem opens_append {before after : String} (h : Opens before.toList) (h' : InMessage after.toList) :
    Opens (before ++ after).toList := by
  rw [String.toList_append]
  exact h'.opens h

theorem opens_of_head? {m : String} (h : InMessage m.toList)
    (hf : m.toList.head?.any (!Text.isWhite ·) = true) : Opens m.toList := by
  refine ⟨h, ?_⟩
  cases hc : m.toList with
  | nil => simp [hc] at hf
  | cons c rest => exact ⟨c, rest, rfl, by simpa [hc] using hf⟩

theorem closes_of_getLast? {m : String} (h : InMessage m.toList)
    (hl : m.toList.getLast?.any (!Text.isWhite ·) = true) : Closes m.toList := by
  refine ⟨h, ?_⟩
  cases hc : m.toList.getLast? with
  | none => simp [hc] at hl
  | some c =>
    obtain ⟨front, hfront⟩ := List.getLast?_eq_some_iff.1 hc
    exact ⟨front, c, hfront, by simpa [hc] using hl⟩

/-! ## The messages of the standard rules -/

theorem isMessage_undefinedWarning {name : String} (h : IsName name) :
    IsMessage (ExecState.undefinedWarning name) :=
  isMessage_append
    (opens_append (opens_of_head? (by decide) (by decide)) h.isMessage.opens.inside)
    (closes_of_getLast? (by decide) (by decide))

theorem isMessage_savedVarError {e : SavedVarError} (h : IsName e.name) : IsMessage e.message := by
  have hopens : Opens ("Saved variable \"" ++ e.name ++ "\" does not hold a " ++ e.expected.name).toList :=
    opens_append (opens_append (opens_append (opens_of_head? (by decide) (by decide))
      h.isMessage.opens.inside) (by decide)) (by cases e.expected <;> decide)
  exact isMessage_append hopens (closes_of_getLast? (by decide) (by decide))

theorem isMessage_cause {c : Json.Cause} (h : c.isOfText = true) : IsMessage c.text := by
  cases c <;> first
    | exact ⟨opens_of_head? (by decide) (by decide), closes_of_getLast? (by decide) (by decide)⟩
    | exact absurd h (by simp [Json.Cause.isOfText])

theorem isMessage_malformed {source : String} {e : Json.Error} (h : Json.read source = .error e) :
    IsMessage ("Malformed JSON: " ++ e.message) := by
  have hcause := isMessage_cause (Json.isOfText_read h)
  have hopens : Opens (e.cause.text ++ " at line " ++ toString e.position.line ++ " column ").toList :=
    opens_append (opens_append (opens_append hcause.opens (by decide))
      (isMessage_natural _).opens.inside) (by decide)
  have hmessage : IsMessage e.message := isMessage_append hopens (isMessage_natural _).closes
  exact isMessage_append (opens_of_head? (by decide) (by decide)) hmessage.closes

theorem closes_intercalate {names : List String} (hne : names ≠ []) (h : ∀ name ∈ names, IsName name) :
    Closes (String.intercalate ", " names).toList := by
  induction names with
  | nil => exact absurd rfl hne
  | cons name rest ih =>
    obtain ⟨hname, hrest⟩ := List.forall_mem_cons.1 h
    cases rest with
    | nil =>
      rw [String.intercalate_singleton]
      exact hname.isMessage.closes
    | cons next more =>
      rw [String.intercalate_cons_cons, String.toList_append]
      refine InMessage.closes ?_ (ih (by simp) hrest)
      rw [String.toList_append]
      exact hname.isMessage.opens.inside.append (by decide)

theorem isMessage_waiting {names : List String} (hne : names ≠ []) (h : ∀ name ∈ names, IsName name) :
    IsMessage ("Waiting for required variables: " ++ String.intercalate ", " names) :=
  isMessage_append (opens_of_head? (by decide) (by decide)) (closes_intercalate hne h)

theorem isMessage_saveFailed : IsMessage "Save failed because the variable is Undef" :=
  ⟨opens_of_head? (by decide) (by decide), closes_of_getLast? (by decide) (by decide)⟩

theorem joinLines_eq_intercalate (lines : List (List Char)) :
    Text.joinLines lines = ['\n'].intercalate lines := by
  induction lines with
  | nil => rfl
  | cons line rest ih =>
    cases rest with
    | nil => rw [List.intercalate_singleton]; rfl
    | cons next more =>
      rw [List.intercalate_cons_cons, ← ih]
      rfl

/-- The messages that a marker shows are a literal. -/
theorem isLiteral_intercalate {warnings : List String} (hne : warnings ≠ [])
    (h : ∀ m ∈ warnings, IsMessage m) : IsLiteral (String.intercalate "\n" warnings) := by
  have hjoin : (String.intercalate "\n" warnings).toList = Text.joinLines (warnings.map String.toList) := by
    rw [String.toList_intercalate, joinLines_eq_intercalate]
    rfl
  have hlines : ∀ line ∈ warnings.map String.toList, Text.Solid line ∧ '\n' ∉ line := by
    intro line hline
    obtain ⟨m, hm, rfl⟩ := List.mem_map.1 hline
    exact ⟨(h m hm).solid, fun hc => ((h m hm).opens.inside _ hc).1 rfl⟩
  have hne' : warnings.map String.toList ≠ [] := by simpa using hne
  have hsolid := Text.solid_joinLines hne' fun line hline => (hlines line hline).1
  refine ⟨?_, ?_, fun _ _ => List.not_mem_nil, ?_⟩ <;> rw [hjoin]
  · rw [Text.normalizeLines_eq, Text.lines_joinLines hlines]
  · exact hsolid.ne_nil
  · have hpercent : ∀ c ∈ Text.joinLines (warnings.map String.toList), c ≠ '%' := by
      intro c hc
      rcases Text.mem_joinLines hc with rfl | ⟨line, hline, hc⟩
      · decide
      · obtain ⟨m, hm, rfl⟩ := List.mem_map.1 hline
        exact ((h m hm).opens.inside c hc).2
    refine List.Pairwise.isChain (List.pairwise_of_forall_mem_list fun c hc d _ hcd => ?_)
    exact hpercent c hc (List.mem_singleton.1 hcd.1)

/-! ## States -/

theorem Host.name_look (g : Host) (cache : Table Json) : (g.look cache).1.name = g.name := by
  unfold Host.look
  repeat' split
  all_goals rfl

/-- The hosts of a state have names, and its warnings are messages. -/
structure ExecState.Speaks (s : ExecState) : Prop where
  hosts : ∀ h ∈ s.hosts, IsName h.name
  warnings : ∀ m ∈ s.warnings, IsMessage m

namespace ExecState.Speaks

variable {s t : ExecState}

theorem ofContext (ctx : Context) : (ExecState.ofContext ctx).Speaks :=
  ⟨fun _ h => absurd h List.not_mem_nil, fun _ h => absurd h List.not_mem_nil⟩

theorem next (h : s.Speaks) : s.next.Speaks := ⟨h.hosts, fun _ h => absurd h List.not_mem_nil⟩

theorem last (h : s.Speaks) : s.last.Speaks := ⟨h.hosts, fun _ h => absurd h List.not_mem_nil⟩

theorem warn (h : s.Speaks) {m : String} (hm : IsMessage m) : (s.warn m).Speaks :=
  ⟨h.hosts, List.forall_mem_append.2 ⟨h.warnings, by simpa using hm⟩⟩

theorem fatal (h : s.Speaks) {m : String} (hm : IsMessage m) : (s.fatal m).Speaks :=
  ⟨(h.warn hm).hosts, (h.warn hm).warnings⟩

theorem bind (h : s.Speaks) {g : Host} (hg : IsName g.name) : (s.bind g).Speaks :=
  ⟨List.forall_mem_append.2 ⟨h.hosts, by simpa using hg⟩, h.warnings⟩

theorem noteLookup (h : s.Speaks) (found : Lookup) : (s.noteLookup found).Speaks := ⟨h.hosts, h.warnings⟩

theorem name_of_host? (h : s.Speaks) {id : Nat} {g : Host} (hg : s.host? id = some g) : IsName g.name :=
  h.hosts g (List.mem_of_getElem? hg)

theorem look (h : s.Speaks) (id : Nat) : (s.look id).2.Speaks := by
  unfold ExecState.look
  split
  · exact h
  · rename_i g hg
    refine ⟨fun g' hg' => ?_, h.warnings⟩
    rcases List.mem_or_eq_of_mem_set hg' with hg' | rfl
    · exact h.hosts g' hg'
    · rw [g.name_look]
      exact h.name_of_host? hg

theorem store (h : s.Speaks) {name : String} (hn : IsName name) (type : DataType) (value : Option Json) :
    (s.store name type value).Speaks := by
  unfold ExecState.store
  split
  · exact h.warn isMessage_saveFailed
  · split
    · exact ⟨h.hosts, h.warnings⟩
    · rename_i e he
      refine h.warn (isMessage_savedVarError ?_)
      unfold SavedVar.encode at he
      split at he
      · simp at he
      · obtain rfl := Except.error.inj he
        exact hn

theorem saveHost (h : s.Speaks) {g : Host} (hg : IsName g.name) :
    (s.saveHost g).2.Speaks ∧ IsName (s.saveHost g).1.name := by
  have hname : IsName (g.look s.cache).1.name := by rwa [g.name_look]
  exact ⟨(h.noteLookup _).store hname _ _, hname⟩

theorem saveBound (h : s.Speaks) (id : Nat) : (s.saveBound id).Speaks := by
  unfold ExecState.saveBound
  simp only
  split
  · exact h.look id
  · rename_i g hg
    exact (h.look id).store ((h.look id).name_of_host? hg) _ _

/-- What rules do keeps hosts named and warnings messages. -/
theorem kept : Kept IsName ExecState.Speaks (fun g => IsName g.name) (fun g => IsName g.name) where
  new hname := hname
  same hg := hg
  look hs id := hs.look id
  undefined hs hname := hs.warn (isMessage_undefinedWarning hname)
  waiting hs hne hnames := hs.fatal (isMessage_waiting hne hnames)
  malformed hs hread := hs.warn (isMessage_malformed hread)
  refused hs hg _ hdecode := by
    refine hs.warn (isMessage_savedVarError ?_)
    unfold SavedVar.decode at hdecode
    split at hdecode
    · cases hdecode
    · obtain rfl := Except.error.inj hdecode
      exact hg
  saveBound hs id := hs.saveBound id
  saveHost hs hg := hs.saveHost hg
  eval hs _ _ := hs.noteLookup _
  text hg _ _ := hg
  bound _ hg _ := hg
  saved _ hg _ _ := hg
  json hg _ _ := hg
  upper hg _ _ _ := hg
  bind hs hg := hs.bind hg
  next hs := hs.next
  last hs := hs.last

/-- One step keeps hosts named and warnings messages, if the variables it uses or assigns have names. -/
theorem runStep {n m : Node} (hname : n.kind ≠ .cmd → IsName n.content)
    (hnames : ∀ c ∈ n.command?, ∀ name ∈ usedNames (ExecRule.bodyItems c), IsName name) (h : s.Speaks)
    (hr : runStep Registry.standard.execution n s = .ok (m, t)) : t.Speaks :=
  kept.runStep hname hnames h hr

end ExecState.Speaks

end Evomark
