import Evomark.Proofs.Exec.Agree
import Evomark.Proofs.Exec.Course
import Evomark.Proofs.Exec.Outcome
import Evomark.Proofs.Exec.Stop
/-!
# Salts of cached results

A step hashes its position along with the text of its body. Positions count the steps of a pass
(`Course.position`), and a pass executes the commands of its document in order, from the first on
(`map_stepsOf_prefix`), markers left out. So the position of a command is its number among the commands
that are no markers, which earlier passes do not change, and `exec_salts` says what follows for the keys
under which `upper` caches its results: in a pass no two steps have the same, and the same text has the
same key in every pass.
-/

namespace Evomark

open ExecRule (bodyItems upperInput)

/-! ## The commands that are executed -/

/-- A pass executes the commands of its document in order, from the first on. -/
theorem map_stepsOf_prefix (rules : Table ExecRule) (ns : List Node) (s : ExecState)
    (h : SepsAreLeaves ns) : (stepsOf rules ns s).map (·.1) <+: itemsOf ns := by
  revert h
  refine runNodes_induct rules (motive := fun ns s _ => SepsAreLeaves ns →
      (stepsOf rules ns s).map (·.1) <+: itemsOf ns)
    ?nil ?marker ?failed ?halted ?executed ?inside ?ended ns s
  case nil =>
    intro s _
    rw [stepsOf]
    exact List.nil_prefix
  case marker =>
    intro n rest s hm ih h
    rw [stepsOf_of_marker hm, itemsOf_of_marker hm h.tail]
    exact ih h.afterMarker
  case failed =>
    intro n rest s e hn hm hr _
    rw [stepsOf_of_error hn hm hr, itemsOf_of_command hn hm]
    exact List.prefix_append [n] _
  case halted =>
    intro n rest s m t hn hm hr ht _
    rw [stepsOf_of_halted hn hm hr ht, itemsOf_of_command hn hm]
    exact List.prefix_append [n] _
  case executed =>
    intro n rest s m t hn hm hr ht ih h
    rw [stepsOf_of_ok hn hm hr ht, itemsOf_of_command hn hm, List.map_cons]
    exact List.cons_prefix_cons.2 ⟨rfl, ih h.tail⟩
  case inside =>
    intro label children rest s w hn hw hcompleted ih ihrest h
    subst hw
    rw [stepsOf_of_completed hn hcompleted, itemsOf_of_not_command hn, List.map_append,
      map_stepsOf_of_completed rules children s (h.inside hn) hcompleted]
    exact (List.prefix_append_right_inj _).2 (ihrest h.tail)
  case ended =>
    intro label children rest s w hn hw ho ih h
    subst hw
    rw [stepsOf_of_ended hn ho, itemsOf_of_not_command hn]
    exact (ih (h.inside hn)).trans (List.prefix_append _ _)

/-! ## Positions -/

/-- No step is counted while it is executed. -/
theorem position_runStep {n m : Node} {s t : ExecState}
    (hr : runStep Registry.standard.execution n s = .ok (m, t)) : t.position = s.position := by
  obtain ⟨u, v, hacts, hv, hbound⟩ := acts_runStep hr
  rw [← hacts.steady.position]
  obtain rfl | ⟨message, rfl⟩ := hv <;> obtain ⟨-, rfl⟩ | ⟨-, g, -, -, rfl⟩ := hbound <;> rfl

/-- The position of a step is the number of steps before it. -/
theorem Course.position {s u v : ExecState} {o : Outcome} {steps : List (Node × ExecState)}
    (h : Course Registry.standard.execution s steps o u) {k : Nat} {n : Node}
    (hk : steps[k]? = some (n, v)) : v.position = s.position + k := by
  induction h generalizing k with
  | completed => simp at hk
  | failed | halted =>
    cases k with
    | zero =>
      obtain ⟨-, rfl⟩ := Prod.mk.inj (Option.some.inj hk)
      rfl
    | succ k => simp at hk
  | step hr _ _ ih =>
    cases k with
    | zero =>
      obtain ⟨-, rfl⟩ := Prod.mk.inj (Option.some.inj hk)
      rfl
    | succ k =>
      rw [ih hk]
      show _ + 1 + k = _
      rw [position_runStep hr]
      omega

/-! ## Keys -/

/-- The text of the body of a command `upper` that is executed, bare or in an assignment. -/
def upperBody? (n : Node) (s : ExecState) : Option String :=
  n.command?.bind fun command =>
    if command.content = "upper" then (synthesize s (bodyItems command)).1 else none

/-- The key under which `upper` caches what it makes of the text. -/
def upperKey? (n : Node) (s : ExecState) : Option String :=
  (upperBody? n s).map fun text => hashOf (upperInput text s.position) "upper"

/-- The step of `n`, which leaves the state `t`, caches under a key: the result is in the cache, or the
host that is bound looks for it there. -/
def CachesUnder (key : String) (n : Node) (t : ExecState) : Prop :=
  n.kind = .cmd ∧ (t.cache.get? key).isSome = true ∨
    n.kind = .varAssign ∧ ∃ g d, t.hostOf? n.content = some g ∧ g.content = .unset ∧
      g.deferred = some d ∧ d.hash = some key

/-- Outside of an assignment the result is cached. -/
theorem cache_attachUpper (c : Node) (text : String) (position : Nat) (s : ExecState) :
    ((ExecRule.attachUpper c (upperInput text position) s).2.cache.get?
      (hashOf (upperInput text position) "upper")).isSome = true := by
  obtain ⟨key, value, hkey, -, hget⟩ := (sure_upper text position).eval s.cache
  obtain rfl := Option.some.inj hkey
  rw [ExecRule.attachUpper_eq]
  split <;>
  · show (((upperDeferred text position).eval s.cache).cache.get? _).isSome = true
    rw [hget]
    rfl

/-- The step of an `upper` with a text does not fail, and caches under its key. -/
theorem cachesUnder_upperKey? {n : Node} {s : ExecState} {key : String} (h : upperKey? n s = some key) :
    ∃ m t, runStep Registry.standard.execution n s = .ok (m, t) ∧ CachesUnder key n t := by
  obtain ⟨text, hbody, rfl⟩ := Option.map_eq_some_iff.1 h
  obtain ⟨command, hc, hbody⟩ := Option.bind_eq_some_iff.1 hbody
  obtain ⟨hupper, htext⟩ : command.content = "upper" ∧ (synthesize s (bodyItems command)).1 = some text := by
    split at hbody
    · rename_i hupper
      exact ⟨hupper, hbody⟩
    · cases hbody
  have hrule : Registry.standard.execution.get? command.content = some .upper := by
    rw [hupper]
    rfl
  have hposition : (synthesize s (bodyItems command)).2.2.position = s.position :=
    ((Looks.refl s).synthesize (bodyItems command)).steady.position
  have hstandard : ExecRule.upper.IsStandard := trivial
  obtain ⟨hk, rfl⟩ | ⟨hk, rest, hchildren, hcmd⟩ := command?_cases hc
  · obtain ⟨done, hdone, hruns⟩ := ExecRule.run_standard hstandard command none s
    have hstep : runStep Registry.standard.execution command s = .ok (done.command, done.state) := by
      simp only [runStep, hk, hrule, hdone]
      rfl
    refine ⟨_, _, hstep, .inl ⟨hk, ?_⟩⟩
    cases hruns with
    | bare hrule => rcases hrule with hrule | hrule <;> cases hrule
    | textless _ _ hnone =>
      rw [htext] at hnone
      cases hnone
    | attach htext' input hinput =>
      obtain rfl := Option.some.inj (htext.symm.trans htext')
      rw [hinput, ← hposition]
      exact cache_attachUpper _ _ _ _
  · obtain ⟨done, hdone, hruns⟩ :=
      ExecRule.run_standard hstandard command (some { name := n.content }) s
    have hstep : runStep Registry.standard.execution n s =
        .ok (n.withChildren (done.command :: rest), done.bound) := by
      rw [runStep, hk]
      exact runAssignment_ok hchildren hcmd hrule hdone
    refine ⟨_, _, hstep, .inr ⟨hk, ?_⟩⟩
    cases hruns with
    | textless _ _ hnone =>
      rw [htext] at hnone
      cases hnone
    | upper g htext' =>
      obtain rfl := Option.some.inj (htext.symm.trans htext')
      rw [hposition]
      have hhost : ∀ (t : ExecState) (g : Host), g.name = n.content → (t.bind g).hostOf? n.content = some g := by
        intro t g hname
        rw [ExecState.hostOf?, ExecState.bound?_bind, if_pos hname]
        exact t.host?_bind g
      exact ⟨_, upperDeferred text s.position, hhost _ _ rfl, rfl, rfl, rfl⟩

/-! ## Passes -/

/-- The steps of a pass over what earlier passes have left of the document of a source. -/
def stepsAfter (source : String) (passes : List Context) (ctx : Context) : List (Node × ExecState) :=
  let rules := Registry.standard.execution
  stepsOf rules (afterPasses rules (Registry.standard.parse source).document passes).children (.ofContext ctx)

section

variable {source : String} {passes passes' : List Context} {ctx ctx' : Context} {k : Nat} {n m : Node}
  {s t : ExecState}

/-- A step executes the command of its number, counted in the document as it is then or as it was read. -/
theorem getElem?_stepsAfter (hk : (stepsAfter source passes ctx)[k]? = some (n, s)) :
    let document := (Registry.standard.parse source).document
    (itemsOf (afterPasses Registry.standard.execution document passes).children)[k]? = some n ∧
      (itemsOf document.children)[k]? = some n.plain ∧ s.position = k := by
  intro document
  have hfresh : AllFresh document.children := Markup.fresh_parse _ _ source
  have hseps := sepsAreLeaves_afterPasses Registry.standard.execution document passes hfresh.sepsAreLeaves
  have hleft : (itemsOf (afterPasses Registry.standard.execution document passes).children)[k]? = some n := by
    have hprefix : (stepsAfter source passes ctx).map (·.1) <+: itemsOf _ :=
      map_stepsOf_prefix Registry.standard.execution _ (.ofContext ctx) hseps
    have hnode : ((stepsAfter source passes ctx).map (·.1))[k]? = some n := by
      rw [List.getElem?_map, hk]
      rfl
    obtain ⟨more, hmore⟩ := hprefix
    rw [← hmore, List.getElem?_append_left (List.getElem?_eq_some_iff.1 hnode).1]
    exact hnode
  have hplain : (itemsOf document.children).map Node.plain = itemsOf document.children :=
    (List.map_congr_left fun c hc => (hfresh c (mem_itemsOf.1 hc).1).plain (mem_itemsOf.1 hc).2.1).trans
      (List.map_id _)
  refine ⟨hleft, ?_, ?_⟩
  · rw [← hplain, ← itemsOf_afterPasses Registry.standard.execution document passes hfresh.sepsAreLeaves,
      List.getElem?_map, hleft]
    rfl
  · have h := (course_runNodes Registry.standard.execution _ (.ofContext ctx)).position hk
    exact h.trans (Nat.zero_add k)

end

/-- Whatever passes came before: the `k`-th step of a pass executes the `k`-th of the commands that are no
markers, counted in the document as it is then or as it was read, and runs with position `k`. An `upper`
with a text does not fail, and caches under its key. No two steps have the same key, unless the texts that
they hash collide; and where the body has the same text, the key is that of every other pass, also of one
over the document as it is read. -/
theorem exec_salts (source : String) (passes : List Context) (ctx : Context) :
    let rules := Registry.standard.execution
    let document := (Registry.standard.parse source).document
    let left := afterPasses rules document passes
    let steps := stepsAfter source passes ctx
    (∀ (k : Nat) n s, steps[k]? = some (n, s) →
      (itemsOf left.children)[k]? = some n ∧ (itemsOf document.children)[k]? = some n.plain ∧ s.position = k) ∧
    (∀ n s key, (n, s) ∈ steps → upperKey? n s = some key →
      ∃ m t, runStep rules n s = .ok (m, t) ∧ CachesUnder key n t) ∧
    (∀ (i j : Nat) n m s t key, steps[i]? = some (n, s) → steps[j]? = some (m, t) →
      upperKey? n s = some key → upperKey? m t = some key →
      i = j ∨ ∃ text text', upperBody? n s = some text ∧ upperBody? m t = some text' ∧
        Collide (upperText text i) (upperText text' j)) ∧
    ∀ passes' ctx' (k : Nat) n m s t, steps[k]? = some (n, s) →
      (stepsAfter source passes' ctx')[k]? = some (m, t) →
      n.plain = m.plain ∧ (upperBody? n s = upperBody? m t → upperKey? n s = upperKey? m t) := by
  intro rules document left steps
  refine ⟨fun k n s hk => getElem?_stepsAfter hk, fun n s key _ hkey => cachesUnder_upperKey? hkey,
    fun i j n m s t key hi hj hn hm => ?_, fun passes' ctx' k n m s t hk hk' => ?_⟩
  · obtain ⟨-, -, hpi⟩ := getElem?_stepsAfter hi
    obtain ⟨-, -, hpj⟩ := getElem?_stepsAfter hj
    obtain ⟨text, htext, hkey⟩ := Option.map_eq_some_iff.1 hn
    obtain ⟨text', htext', hkey'⟩ := Option.map_eq_some_iff.1 hm
    rw [hpi] at hkey
    rw [hpj] at hkey'
    by_cases h : upperText text i = upperText text' j
    · exact .inl (eq_of_upperText h).2
    · exact .inr ⟨text, text', htext, htext', h, hkey.trans hkey'.symm⟩
  · obtain ⟨-, hitem, hp⟩ := getElem?_stepsAfter hk
    obtain ⟨-, hitem', hp'⟩ := getElem?_stepsAfter hk'
    refine ⟨Option.some.inj (hitem.symm.trans hitem'), fun hbody => ?_⟩
    rw [upperKey?, upperKey?, hbody, hp, hp']

/-- The first pass warns behind the first command. The next one comes to the second command with the same
position and the same key as if there were no marker. -/
theorem exec_salts_marked :
    let source := "$save\x7b%x\x7d\n$upper\x7bone\x7d"
    let document := (Registry.standard.parse source).document
    (commandList (afterPasses Registry.standard.execution document [{}])).length = 3 ∧
      ∃ n s m t, (stepsAfter source [{}] {})[1]? = some (n, s) ∧ (stepsAfter source [] {})[1]? = some (m, t) ∧
        s.position = 1 ∧ upperBody? n s = some "one" ∧ upperKey? n s = upperKey? m t := by
  intro source document
  have hbody : ∀ passes, ((stepsAfter source passes {})[1]?.bind fun (n, s) => upperBody? n s) = some "one" →
      ∃ n s, (stepsAfter source passes {})[1]? = some (n, s) ∧ upperBody? n s = some "one" := by
    intro passes h
    obtain ⟨⟨n, s⟩, hk, htext⟩ := Option.bind_eq_some_iff.1 h
    exact ⟨n, s, hk, htext⟩
  obtain ⟨n, s, hk, htext⟩ := hbody [{}] (by decide +kernel)
  obtain ⟨m, t, hk', htext'⟩ := hbody [] (by decide +kernel)
  obtain ⟨hsteps, -, -, hkeys⟩ := exec_salts source [{}] {}
  refine ⟨by decide +kernel, n, s, m, t, hk, hk', (hsteps 1 n s hk).2.2, htext, ?_⟩
  exact (hkeys [] {} 1 n m s t hk hk').2 (htext.trans htext'.symm)

end Evomark
