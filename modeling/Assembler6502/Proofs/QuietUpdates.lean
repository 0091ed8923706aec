import Assembler6502.Proofs.Convergence

/-!
# Quiet updates of labels

An update of labels asks of every label whether it is seen with the value of its expression, and
then enters the value into the innermost scope, whether or not that is where it was seen. So an
update that changes nothing may still enter labels into scopes that had none of them. This does not
matter: an entry that was there keeps its value, and a new one repeats what was seen from its scope
before. Statements therefore see the same labels behind the update as before it, those included that
stand before the definition, and another update finds every label entered where it would enter it.

## Main definitions

* `Environment.entered?`: the value that is entered under a scope and a name
* `Environment.Keeps`: all entries of one environment are entries of another one
* `Environment.withLabels`: the place of one environment with the labels of another one

## Main results

* `Environment.keeps_bind`: binding a label to the value that it is seen with keeps all entries
* `Pass.entered_updateLabels`: behind a quiet update every label is entered where it is defined
* `Stage.quiet_update_is_fixed_point`: a quiet update leaves what every statement sees, and is the
  last one that does anything
-/

namespace Assembler6502

namespace Environment

variable {env e f g : Environment} {symbol : Symbol} {v : Value}

/-! ## Entries -/

/-- The value that is entered under a scope and a name, where global labels have no scope. -/
def entered? (env : Environment) : Option Nat × String → Option Value
  | (none, name) => env.globals.get? name
  | (some scope, name) => (env.localsOf scope).get? name

/-- A binding is an entry in the innermost scope, and no other entry. -/
theorem entered?_bind (env : Environment) (symbol : Symbol) (v : Value)
    (key : Option Nat × String) :
    (env.bind symbol v).entered? key =
      if Discovery.key env symbol = key then some v else env.entered? key := by
  obtain ⟨scope?, name⟩ := key
  cases symbol with
  | global other =>
    cases scope? with
    | none => simp [entered?, bind, Discovery.key]
    | some scope => simp [entered?, bind, Discovery.key, localsOf]
  | inScope other =>
    cases scope? with
    | none => simp [entered?, bind, Discovery.key]
    | some scope =>
      simp only [entered?, localsOf_bind, Discovery.key, Prod.mk.injEq, Option.some.injEq]
      by_cases hscope : env.innermostScope = scope <;> simp [hscope]

/-- The entry of the innermost scope is the one that is seen. -/
theorem lookup_of_entry (h : env.entered? (Discovery.key env symbol) = some v) :
    env.lookup symbol = some v := by
  cases symbol with
  | global name => exact h
  | inScope name =>
    rw [← lookupIn_inner]
    cases hinner : env.inner with
    | nil => simpa [entered?, Discovery.key, innermostScope, hinner] using h
    | cons scope rest =>
      have hentry : (env.localsOf scope).get? name = some v := by
        simpa [entered?, Discovery.key, innermostScope, hinner] using h
      simp [hentry]

/-- **Entering an entry again** changes nothing at all. -/
theorem bind_of_entry (h : env.entered? (Discovery.key env symbol) = some v) :
    env.bind symbol v = env := by
  cases symbol with
  | global name => simp only [bind, Table.insert_of_get? h]
  | inScope name =>
    have hentry : (env.localsOf env.innermostScope).get? name = some v := h
    -- A scope with an entry has a table of its own, which is the one that is put back.
    have htable : env.locals.get? env.innermostScope = some (env.localsOf env.innermostScope) := by
      cases ht : env.locals.get? env.innermostScope with
      | none => simp [localsOf, ht] at hentry
      | some table => simp [localsOf, ht]
    simp only [bind, Table.insert_of_get? hentry, Table.insert_of_get? htable]

/-- All entries of the first environment are entries of the second one. -/
def Keeps (e f : Environment) : Prop :=
  ∀ key v, e.entered? key = some v → f.entered? key = some v

theorem Keeps.refl (e : Environment) : e.Keeps e := fun _ _ h => h

theorem Keeps.trans (h : e.Keeps f) (h' : f.Keeps g) : e.Keeps g := fun key v hv =>
  h' key v (h key v hv)

theorem entered?_of_restart (h : f.restart = e.restart) : f.entered? = e.entered? := by
  simp only [restart, Environment.mk.injEq] at h
  obtain ⟨hglobals, hlocals, -⟩ := h
  funext key
  obtain ⟨scope?, name⟩ := key
  cases scope? <;> simp [entered?, localsOf, hglobals, hlocals]

theorem Keeps.of_restart (h : f.restart = e.restart) : e.Keeps f := by
  intro key v hv
  rwa [entered?_of_restart h]

/-- **Binding a label to the value that it is seen with** keeps all entries: where its scope has an
entry for it already, that entry is what is seen. -/
theorem keeps_bind (h : env.lookup symbol = some v) : env.Keeps (env.bind symbol v) := by
  intro key u hu
  rw [entered?_bind]
  split
  · rename_i hkey
    rw [← hkey] at hu
    rw [← h, lookup_of_entry hu]
  · exact hu

/-! ## Places and labels -/

/-- The place of one environment, that is its scopes, segments and program counters, with the labels
of another one. -/
def withLabels (place labels : Environment) : Environment :=
  { place with globals := labels.globals, locals := labels.locals }

/-- An environment that agrees with another one is the place of that one, with labels of its own. -/
theorem Agrees.eq_withLabels {ν : Nesting} (h : Agrees ν e f) (hf : f.restart = g.restart) :
    f = e.withLabels g := by
  simp only [Environment.restart, Environment.mk.injEq] at hf
  obtain ⟨hglobals, hlocals, -⟩ := hf
  rw [h.place, withLabels, hglobals, hlocals]

end Environment

/-! ## Updates -/

namespace Pass

variable {ν : Nesting} {w : Workspace} {symbol : Symbol} {value : Expr}

theorem keeps_updateLabels {s : Sweep Unit} {l : Nat × Statement}
    (h : (Visit.step updateLabels s l).Quiet) :
    s.context.env.Keeps (Visit.step updateLabels s l).context.env := by
  obtain ⟨-, -, ⟨symbol, value, v, -, -, hlookup, hcontext⟩ | ⟨-, hstep⟩⟩ :=
    quiet_updateLabels_cases h
  · rw [hcontext]
    exact Environment.keeps_bind hlookup
  · rw [hstep]
    exact .of_restart (Environment.restart_follow l.2.item)

/-- The entries behind each statement of a quiet update are there in the end. -/
theorem keeps_closing (h : (w.closing () updateLabels).Quiet) :
    ∀ x ∈ w.visits () updateLabels,
      (Visit.step updateLabels x.1 x.2).context.env.Keeps
        (w.closing () updateLabels).context.env := by
  -- Only a quiet step keeps entries, so that the end is quiet is carried along, backwards.
  obtain ⟨-, hall⟩ := forall_reached_le
    (R := fun s t : Sweep Unit => t.Quiet → s.Quiet ∧ s.context.env.Keeps t.context.env)
    (f := Visit.step updateLabels) (s := w.opening ()) (l := w.program.leaves)
    (fun s hs => ⟨hs, .refl s.context.env⟩)
    (fun hst htu hu =>
      have ht := htu hu
      have hs := hst ht.1
      ⟨hs.1, hs.2.trans ht.2⟩)
    (fun s l hs => ⟨(quiet_updateLabels_cases hs).1, keeps_updateLabels hs⟩)
  exact fun x hx => (hall x hx h).2

/-- **Behind a quiet update every label is entered where it is defined**, with the value that it was
found with. -/
theorem entered_updateLabels (h : (w.closing () updateLabels).Quiet)
    {x : Sweep Unit × Nat × Statement} (hx : x ∈ w.visits () updateLabels)
    (hitem : x.2.2.item = .label symbol value) :
    ∃ v, x.1.context.evaluate value = .ok v ∧ x.1.context.env.lookup symbol = some v ∧
      (w.closing () updateLabels).context.env.entered? (Discovery.key x.1.context.env symbol) =
        some v := by
  obtain ⟨-, -, ⟨symbol', value', v, hitem', hv, hlookup, hcontext⟩ | ⟨hne, -⟩⟩ :=
    quiet_updateLabels_cases (forall_quiet_updateLabels h x hx)
  · obtain ⟨rfl, rfl⟩ : symbol' = symbol ∧ value' = value := by
      rw [hitem'] at hitem
      simpa using hitem
    refine ⟨v, hv, hlookup, keeps_closing h x hx _ v ?_⟩
    rw [hcontext, Context.env_mapEnv, Environment.entered?_bind, if_pos rfl]
  · exact absurd hitem (hne symbol value)

end Pass

namespace Workspace

variable {ν : Nesting} {w : Workspace}

theorem restart_updateLabels : (w.sweep () Pass.updateLabels id).1.context.env.restart =
    (w.closing () Pass.updateLabels).context.env.restart := by
  simp [Workspace.sweep_eq]

/-- **What a statement sees in a quiet update** it sees with the labels from before the update and
with those from behind it, in the place in which the update comes to it. -/
theorem agrees_of_quiet (hν : Environment.Nested ν w.context.env.restart w.program.leaves)
    (hc : (w.sweep () Pass.updateLabels id).1.Clean)
    (hq : (w.sweep () Pass.updateLabels id).2.1 = false)
    {x : Sweep Unit × Nat × Statement} (hx : x ∈ w.visits () Pass.updateLabels) :
    ν.Admits x.1.context.env.inner ∧
      Environment.Agrees ν x.1.context.env (x.1.context.env.withLabels w.context.env) ∧
      Environment.Agrees ν x.1.context.env
        (x.1.context.env.withLabels (w.sweep () Pass.updateLabels id).1.context.env) := by
  obtain ⟨-, hthere, -⟩ := Pass.layout_of_quiet_updateLabels hν (quiet_closing hc hq)
  obtain ⟨y, hy, hxy, -⟩ := hthere x hx
  have hbefore : y.1 = x.1.context.env.withLabels w.context.env := by
    apply hxy.eq_withLabels
    rw [Environment.restart_of_mem_layout hy, Environment.restart_restart]
  -- The layouts before and behind the update agree, so the same place is in both of them.
  obtain ⟨hplaced, hafter⟩ := placed_updateLabels hν hc hq
  obtain ⟨z, hz, hyz, -⟩ := (hafter.layout hν).2.1 y hy
  have hbehind : z.1 = x.1.context.env.withLabels
      (w.sweep () Pass.updateLabels id).1.context.env := by
    apply (hxy.trans hyz).eq_withLabels
    exact Environment.restart_of_mem_layout hz
  refine ⟨hxy.inner ▸ hν y hy, ?_, ?_⟩
  · rw [← hbefore]
    exact hxy
  · rw [← hbehind]
    exact hxy.trans hyz

/-- **An update behind a quiet one** only observes: every label is entered already where it would be
entered, with the value of its expression. -/
theorem observes_updateLabels_of_quiet (hc : (w.sweep () Pass.updateLabels id).1.Clean)
    (hq : (w.sweep () Pass.updateLabels id).2.1 = false) :
    (w.sweep () Pass.updateLabels id).1.Observes () Pass.updateLabels := by
  obtain ⟨ν, hν⟩ := Environment.exists_nesting w.context.env w.program.leaves
  obtain ⟨hplaced, hafter⟩ := placed_updateLabels hν hc hq
  apply observes_of_layout
  rw [hplaced.rested.env_restart, leaves_updateLabels]
  intro z hz
  obtain ⟨y, hy, hyz, hzy⟩ := (hafter.layout hν).2.2 z hz
  obtain ⟨x, hx, hxy, hyx⟩ := (Pass.layout_of_quiet_updateLabels hν (quiet_closing hc hq)).2.2 y hy
  have hagrees : Environment.Agrees ν x.1.context.env z.1 := hxy.trans hyz
  have hadm : ν.Admits x.1.context.env.inner := hxy.inner ▸ hν y hy
  refine Prod.ext ?_ rfl
  by_cases hlabel : ∃ symbol value, z.2.2.item = .label symbol value
  · obtain ⟨symbol, value, hitem⟩ := hlabel
    have hitem' : x.2.2.item = .label symbol value := by rw [← hyx, ← hzy]; exact hitem
    obtain ⟨v, hv, hlookup, hentry⟩ :=
      Pass.entered_updateLabels (quiet_closing hc hq) hx hitem'
    -- The entry was made in the scope that is innermost here, too.
    have hkey : Discovery.key z.1 symbol = Discovery.key x.1.context.env symbol := by
      cases symbol with
      | global name => rfl
      | inScope name => simp [Discovery.key, Environment.innermostScope, hagrees.inner]
    have hentry' : z.1.entered? (Discovery.key z.1 symbol) = some v := by
      have hrestart : z.1.restart = (w.closing () Pass.updateLabels).context.env.restart :=
        (Environment.restart_of_mem_layout hz).trans restart_updateLabels
      rw [hkey, Environment.entered?_of_restart hrestart]
      exact hentry
    have hv' : value.evaluate z.1.valuation = .ok v := by
      rw [hagrees.valuation hadm]
      exact hv
    have hstep := Pass.updateLabels_label
      (s := ((w.sweep () Pass.updateLabels id).1.opening ()).mapEnv fun _ => z.1) hitem hv'
      (Environment.lookup_of_entry hentry')
    refine hstep.trans ?_
    rw [hitem]
    exact congrArg
      (fun env => ((w.sweep () Pass.updateLabels id).1.opening ()).mapEnv fun _ => env)
      (Environment.bind_of_entry hentry')
  · refine Pass.updateLabels_follow (by simpa using hlabel) ?_
    exact hplaced.walkable.followable z (by rw [leaves_updateLabels]; exact hz)

end Workspace

namespace Stage

/-- **A quiet update of labels is a fixed point.** If an update reports no change and finds no
fault, then every statement sees the same labels with the values from before the update and with
those from behind it, in the place in which the update comes to the statement; where a label is
defined it is seen with the value that its expression has there; and another update reports no
change and returns the workspace as it is, with every table of labels. The environment that the
update starts with may hold any labels, and the program may define a label more than once. -/
theorem quiet_update_is_fixed_point (w : Workspace)
    (hquiet : ((pass .updateLabels).go w).2 = false)
    (hclean : ((pass .updateLabels).go w).1.Clean) :
    let after := ((pass .updateLabels).go w).1
    (∀ x ∈ w.visits () Pass.updateLabels,
        (∀ symbol, (x.1.context.env.withLabels after.context.env).lookup symbol =
          (x.1.context.env.withLabels w.context.env).lookup symbol) ∧
        ∀ symbol value, x.2.2.item = .label symbol value →
          ∃ v, value.evaluate (x.1.context.env.withLabels after.context.env).valuation = .ok v ∧
            (x.1.context.env.withLabels after.context.env).lookup symbol = some v) ∧
      after.program.leaves = w.program.leaves ∧
      (pass .updateLabels).go after = (after, false) := by
  have hw : w.Clean := by
    rw [go, run_pass] at hclean
    exact Workspace.clean_of_runPass hclean
  rw [go_pass_of_visit Pass.visit?_updateLabels hw] at hquiet hclean ⊢
  obtain ⟨ν, hν⟩ := Environment.exists_nesting w.context.env w.program.leaves
  refine ⟨fun x hx => ?_, Workspace.leaves_updateLabels, ?_⟩
  · obtain ⟨hadm, hbefore, hbehind⟩ := Workspace.agrees_of_quiet hν hclean hquiet hx
    refine ⟨fun symbol => ?_, fun symbol value hitem => ?_⟩
    · rw [hbehind.lookup hadm, hbefore.lookup hadm]
    · obtain ⟨v, hv, hlookup, -⟩ :=
        Pass.entered_updateLabels (Workspace.quiet_closing hclean hquiet) hx hitem
      refine ⟨v, ?_, ?_⟩
      · rw [hbehind.valuation hadm]
        exact hv
      · rw [hbehind.lookup hadm]
        exact hlookup
  · obtain ⟨hplaced, -⟩ := Workspace.placed_updateLabels hν hclean hquiet
    rw [go_pass_of_visit Pass.visit?_updateLabels hclean,
      hplaced.sweep_eq (Workspace.observes_updateLabels_of_quiet hclean hquiet)]

/-- A local label, and a scope in which its value is used before a local label of the same name is
defined there, which happens to have the same value. -/
def shadowed : Workspace :=
  ⟨⟨[.leaf 1 ⟨.topLevel, .label (.inScope "x") (.constant 5)⟩,
      .leaf 2 ⟨.topLevel, .scopeBegin⟩,
      .leaf 3 ⟨.topLevel, .setPc (.symbol (.inScope "x"))⟩,
      .leaf 4 ⟨.topLevel, .label (.inScope "x") .programCounter⟩,
      .leaf 5 ⟨.topLevel, .scopeEnd⟩], 6⟩,
    { cpu := .mos6502, env := ({} : Environment).bind (.inScope "x") 5 }⟩

theorem quiet_update_is_fixed_point_shadowed :
    let after := ((pass .updateLabels).go shadowed).1
    ((pass .updateLabels).go shadowed).2 = false ∧ after.Clean ∧
      shadowed.context.env.entered? (some 1, "x") = none ∧
      after.context.env.entered? (some 1, "x") = some 5 ∧
      (∀ x ∈ shadowed.visits () Pass.updateLabels, ∀ symbol,
        (x.1.context.env.withLabels after.context.env).lookup symbol =
          (x.1.context.env.withLabels shadowed.context.env).lookup symbol) ∧
      (pass .updateLabels).go after = (after, false) := by
  have hquiet : ((pass .updateLabels).go shadowed).2 = false := by decide +kernel
  have hclean : ((pass .updateLabels).go shadowed).1.context.hasErrors = false := by decide +kernel
  obtain ⟨hseen, -, hagain⟩ := quiet_update_is_fixed_point shadowed hquiet hclean
  exact ⟨hquiet, hclean, by decide +kernel, by decide +kernel, fun x hx => (hseen x hx).1, hagain⟩

end Stage

end Assembler6502
