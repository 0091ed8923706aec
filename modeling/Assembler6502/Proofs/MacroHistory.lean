import Assembler6502.Proofs.Walk
import Mathlib.Data.List.Basic
import Mathlib.Data.List.Induction

/-!
# Histories of a macro table

A macro table is used by calls that open, fill, close or drop a definition, and by calls that expand
a macro. They may come in any order, and some of them fail. What a table holds is a matter of the
calls so far: a macro is there if a definition of its name was opened without a fault and closed
later, and its body is what was captured in between. No later call takes it back or changes it, so
the table only grows.

Whether a name is taken is asked when a definition is opened, and the answer is used when it is
closed. This is the same, because nothing enters the table as long as a definition is open.

## Main definitions

* `MacroTable.Call`, `MacroTable.call`: the calls, and what a call does
* `MacroTable.behind`: the table behind some calls
* `MacroTable.Opened`, `MacroTable.Defined`: a definition is open, or was closed

## Main results

* `MacroTable.current_behind_iff`: which definition is open
* `MacroTable.get?_behind_iff`: which macros there are
* `MacroTable.call_of_error`: calls that fail
* `MacroTable.macros_only_grow`: the table only grows
-/

namespace Assembler6502
namespace MacroTable

/-- A call on a macro table. -/
inductive Call where
  | define (name : String)
  | capture (part : Fragment)
  | endDefine
  | abandon
  | expand (location : Location) (name : String) (arguments : List Expr)

/-- The call ends an open definition. -/
def Call.Ends : Call → Prop
  | .endDefine | .abandon => True
  | _ => False

/-- What a call does to a table, and whether it fails. -/
def call (t : MacroTable) : Call → MacroTable × Except MacroError Unit
  | .define name => t.define name
  | .capture part => t.capture part
  | .endDefine => t.endDefine
  | .abandon => t.abandon
  | .expand location name arguments => (t, (t.expand location name arguments).map fun _ => ())

/-- The table behind a call. -/
def step (t : MacroTable) (c : Call) : MacroTable :=
  (t.call c).1

/-- The table behind some calls on a new one. -/
def behind (calls : List Call) : MacroTable :=
  calls.foldl step {}

theorem behind_append (first second : List Call) :
    behind (first ++ second) = second.foldl step (behind first) :=
  List.foldl_append

theorem behind_concat (calls : List Call) (c : Call) :
    behind (calls ++ [c]) = (behind calls).step c :=
  behind_append calls [c]

/-- The part that a call captures, if it does not fail. -/
def kept (t : MacroTable) : Call → List Fragment
  | .capture part => if (t.capture part).2.isOk then [part] else []
  | _ => []

/-- The parts that some calls capture from a table on, without those that fail. -/
def captured (t : MacroTable) (calls : List Call) : List Fragment :=
  (reached step t calls).flatMap fun x => x.1.kept x.2

theorem captured_concat (t : MacroTable) (calls : List Call) (c : Call) :
    t.captured (calls ++ [c]) = t.captured calls ++ (calls.foldl step t).kept c := by
  rw [captured, reached_append, List.flatMap_append]
  simp [captured]

/-- A definition of a name was opened without a fault and has not been ended since. Its body is what
has been captured so far. -/
def Opened (calls : List Call) (name : String) (body : List Fragment) : Prop :=
  ∃ before inside, calls = before ++ .define name :: inside ∧
    ((behind before).define name).2 = .ok () ∧ (∀ c ∈ inside, ¬ c.Ends) ∧
    body = (behind (before ++ [.define name])).captured inside

/-- A definition of a name was opened without a fault and closed later. Its body is what was
captured in between. -/
def Defined (calls : List Call) (name : String) (body : List Fragment) : Prop :=
  ∃ before inside after, calls = before ++ .define name :: (inside ++ .endDefine :: after) ∧
    ((behind before).define name).2 = .ok () ∧ (∀ c ∈ inside, ¬ c.Ends) ∧
    body = (behind (before ++ [.define name])).captured inside

variable {calls later : List Call} {c : Call} {name : String} {body : List Fragment}
  {t : MacroTable}

/-! ## One more call -/

/-- A definition is open behind one more call if the call opens it, or if it was open and the call
does not end it. -/
theorem opened_concat :
    Opened (calls ++ [c]) name body ↔
      (c = .define name ∧ ((behind calls).define name).2 = .ok () ∧ body = []) ∨
        ¬ c.Ends ∧ ∃ body', Opened calls name body' ∧ body = body' ++ (behind calls).kept c := by
  -- What is captured behind the call that opens the definition, and then by one more call.
  have hbody (before inside : List Call) :
      (behind (before ++ [.define name])).captured (inside ++ [c]) =
        (behind (before ++ [.define name])).captured inside ++
          (behind (before ++ .define name :: inside)).kept c := by
    rw [captured_concat, ← behind_append, List.append_assoc, List.singleton_append]
  constructor
  · rintro ⟨before, inside, hcalls, hok, hinside, rfl⟩
    -- The last call is the one that opens the definition, or the last one inside of it.
    rcases List.eq_nil_or_concat' inside with rfl | ⟨inside, last, rfl⟩
    · obtain ⟨rfl, hc⟩ := List.append_inj' hcalls rfl
      exact .inl ⟨List.singleton_inj.mp hc, hok, rfl⟩
    · rw [← List.cons_append, ← List.append_assoc] at hcalls
      obtain ⟨rfl, hc⟩ := List.append_inj' hcalls rfl
      obtain rfl := List.singleton_inj.mp hc
      refine .inr ⟨hinside c (by simp), _, ⟨before, inside, rfl, hok, ?_, rfl⟩, hbody _ _⟩
      exact fun d hd => hinside d (List.mem_append_left _ hd)
  · rintro (⟨rfl, hok, rfl⟩ | ⟨hc, body', ⟨before, inside, rfl, hok, hinside, rfl⟩, rfl⟩)
    · exact ⟨calls, [], rfl, hok, by simp, rfl⟩
    · refine ⟨before, inside ++ [c], by simp, hok, ?_, (hbody _ _).symm⟩
      intro d hd
      rcases List.mem_append.mp hd with hd | hd
      · exact hinside d hd
      · rw [List.mem_singleton.mp hd]
        exact hc

/-- A definition was closed before, or one more call closes it. -/
theorem defined_concat :
    Defined (calls ++ [c]) name body ↔
      Defined calls name body ∨ c = .endDefine ∧ Opened calls name body := by
  constructor
  · rintro ⟨before, inside, after, hcalls, hok, hinside, hbody⟩
    rcases List.eq_nil_or_concat' after with rfl | ⟨after, last, rfl⟩
    · rw [← List.cons_append, ← List.append_assoc] at hcalls
      obtain ⟨rfl, hc⟩ := List.append_inj' hcalls rfl
      exact .inr ⟨List.singleton_inj.mp hc, before, inside, rfl, hok, hinside, hbody⟩
    · have hsplit : calls ++ [c] =
          (before ++ .define name :: (inside ++ .endDefine :: after)) ++ [last] := by
        simpa using hcalls
      obtain ⟨rfl, -⟩ := List.append_inj' hsplit rfl
      exact .inl ⟨before, inside, after, rfl, hok, hinside, hbody⟩
  · rintro (⟨before, inside, after, rfl, hok, hinside, hbody⟩ |
      ⟨rfl, before, inside, rfl, hok, hinside, hbody⟩)
    · exact ⟨before, inside, after ++ [c], by simp, hok, hinside, hbody⟩
    · exact ⟨before, inside, [], by simp, hok, hinside, hbody⟩

/-! ## What a call does -/

theorem define_of_open {m : OpenMacro} (h : t.current = some m) (name : String) :
    t.define name = (t, .error .nestedDefinition) := by
  simp [define, isDefining, h]

theorem define_of_closed (h : t.current = none) (name : String) :
    t.define name =
      ({ t with current := some { name, duplicate := t.macros.contains name } },
        if t.macros.contains name then .error (.duplicate name) else .ok ()) := by
  simp [define, isDefining, h]

/-- A call that does not open or end a definition adds to the body of the open one what it
captures. -/
theorem current_step (hdefine : ∀ name, c ≠ .define name) (hends : ¬ c.Ends) :
    (t.step c).macros = t.macros ∧
      (t.step c).current = t.current.map fun m => { m with body := m.body ++ t.kept c } := by
  cases c with
  | define name => exact absurd rfl (hdefine name)
  | endDefine | abandon => exact absurd trivial hends
  | expand location name arguments =>
    refine ⟨rfl, ?_⟩
    simp only [step, call, kept, List.append_nil]
    exact Option.map_id'.symm
  | capture part =>
    simp only [step, call, kept, capture]
    split
    · cases t.current <;> simp [Except.isOk, Except.toBool, *]
    · cases hcurrent : t.current <;> simp [Except.isOk, Except.toBool, hcurrent]

theorem current_of_ends (hends : c.Ends) : (t.step c).current = none := by
  cases c with
  | endDefine =>
    simp only [step, call, endDefine]
    split
    · assumption
    · rfl
  | abandon =>
    simp only [step, call, abandon]
    split
    · assumption
    · rfl
  | _ => cases hends

/-- Whether a name was taken when its definition was opened, it still is: nothing enters the table
as long as a definition is open. -/
theorem duplicate_of_current {m : OpenMacro} (h : (behind calls).current = some m) :
    m.duplicate = (behind calls).macros.contains m.name := by
  induction calls using List.reverseRecOn generalizing m with
  | nil => cases h
  | append_singleton calls c ih =>
    rw [behind_concat] at h ⊢
    -- The last call ends a definition, opens one, or does neither and leaves the table alone.
    by_cases hends : c.Ends
    · rw [current_of_ends hends] at h
      cases h
    by_cases hdefine : ∃ name, c = .define name
    · obtain ⟨name, rfl⟩ := hdefine
      cases hcurrent : (behind calls).current with
      | none =>
        simp only [step, call, define_of_closed hcurrent] at h ⊢
        cases h
        rfl
      | some other =>
        simp only [step, call, define_of_open hcurrent] at h ⊢
        exact ih h
    · rw [not_exists] at hdefine
      obtain ⟨hmacros, hcurrent⟩ := current_step (t := behind calls) hdefine hends
      rw [hcurrent] at h
      obtain ⟨other, hother, rfl⟩ := Option.map_eq_some_iff.mp h
      have htaken := ih hother
      rw [hmacros]
      exact htaken

/-! ## The open definition -/

/-- **Which definition is open** that will enter the table. -/
theorem current_behind_iff :
    (behind calls).current = some { name, body, duplicate := false } ↔ Opened calls name body := by
  induction calls using List.reverseRecOn generalizing body with
  | nil =>
    constructor
    · rintro ⟨⟩
    · rintro ⟨before, inside, hcalls, -⟩
      simp at hcalls
  | append_singleton calls c ih =>
    rw [opened_concat, behind_concat]
    by_cases hends : c.Ends
    · rw [current_of_ends hends]
      constructor
      · rintro ⟨⟩
      · rintro (⟨rfl, -⟩ | ⟨hc, -⟩)
        · cases hends
        · exact absurd hends hc
    by_cases hdefine : ∃ other, c = .define other
    · obtain ⟨other, rfl⟩ := hdefine
      have hkept : (behind calls).kept (.define other) = [] := rfl
      simp only [hkept, List.append_nil, exists_eq_right', hends, not_false_eq_true, true_and, ← ih]
      cases hcurrent : (behind calls).current with
      | none =>
        -- The call opens a definition, and the name may be taken.
        simp only [step, call, define_of_closed hcurrent]
        constructor
        · intro hopened
          obtain ⟨rfl, rfl, htaken⟩ : other = name ∧ [] = body ∧
              (behind calls).macros.contains other = false := by simpa using hopened
          exact .inl ⟨rfl, by rw [htaken]; rfl, rfl⟩
        · rintro (⟨hname, hok, rfl⟩ | hopened)
          · cases hname
            have htaken : (behind calls).macros.contains name = false := by simpa using hok
            rw [htaken]
          · cases hopened
      | some m => simp [step, call, define_of_open hcurrent, hcurrent]
    · rw [not_exists] at hdefine
      obtain ⟨-, hcurrent⟩ := current_step (t := behind calls) hdefine hends
      rw [hcurrent, Option.map_eq_some_iff]
      constructor
      · rintro ⟨⟨other, body', duplicate⟩, hm, hbody⟩
        cases hbody
        exact .inr ⟨hends, body', ih.mp hm, rfl⟩
      · rintro (⟨rfl, -⟩ | ⟨-, body', hopened, rfl⟩)
        · exact absurd rfl (hdefine name)
        · exact ⟨_, ih.mpr hopened, rfl⟩

/-! ## The macros -/

/-- Macros enter the table where definitions are closed. -/
theorem macros_step (hc : c ≠ .endDefine) : (t.step c).macros = t.macros := by
  cases c with
  | endDefine => exact absurd rfl hc
  | define name =>
    cases hcurrent : t.current with
    | none => simp only [step, call, define_of_closed hcurrent]
    | some m => simp only [step, call, define_of_open hcurrent]
  | abandon =>
    simp only [step, call, abandon]
    split <;> rfl
  | capture part => exact (current_step (c := .capture part) (fun _ => nofun) nofun).1
  | expand location name arguments => rfl

theorem macros_endDefine {m : OpenMacro} (h : t.current = some m) :
    (t.step .endDefine).macros =
      if m.duplicate then t.macros else t.macros.insert m.name ⟨m.name, m.body⟩ := by
  simp only [step, call, endDefine, h]

/-- **Which macros there are**: those whose definition was opened without a fault and closed. -/
theorem get?_behind_iff {m : Macro} :
    (behind calls).get? name = some m ↔ m.name = name ∧ Defined calls name m.body := by
  induction calls using List.reverseRecOn with
  | nil =>
    constructor
    · rintro ⟨⟩
    · rintro ⟨-, before, inside, after, hcalls, -⟩
      simp at hcalls
  | append_singleton calls c ih =>
    rw [defined_concat, behind_concat, and_or_left, ← ih, ← current_behind_iff]
    by_cases hc : c = .endDefine
    · subst hc
      cases hcurrent : (behind calls).current with
      | none => simp [step, call, endDefine, hcurrent]
      | some o =>
        obtain ⟨other, body, duplicate⟩ := o
        have htaken : duplicate = (behind calls).macros.contains other :=
          duplicate_of_current hcurrent
        rw [get?, macros_endDefine hcurrent]
        cases duplicate with
        | true => simp [get?]
        | false =>
          -- The name was not taken, so no macro of that name is replaced.
          have hnone : (behind calls).macros.get? other = none := by
            simpa [Table.contains] using htaken.symm
          obtain ⟨name', body'⟩ := m
          by_cases hother : other = name
          · subst hother
            rw [if_neg Bool.false_ne_true, Table.get?_insert, if_pos rfl]
            constructor
            · rintro ⟨⟩
              exact .inr ⟨rfl, rfl, rfl⟩
            · rintro (hm | ⟨rfl, -, hbody⟩)
              · rw [get?, hnone] at hm
                cases hm
              · cases hbody
                rfl
          · simp [get?, hother]
    · rw [get?, macros_step hc]
      simp [get?, hc]

theorem Defined.append (h : Defined calls name body) (later : List Call) :
    Defined (calls ++ later) name body := by
  obtain ⟨before, inside, after, rfl, hdefined⟩ := h
  exact ⟨before, inside, after ++ later, by simp, hdefined⟩

/-- **A call that fails** changes nothing, unless it opens a definition of a name that is taken or
drops an open definition. -/
theorem call_of_error {e : MacroError} (h : (t.call c).2 = .error e)
    (hduplicate : ∀ name, c = .define name → e ≠ .duplicate name)
    (habandon : c = .abandon → e ≠ .unmatchedBegin) : (t.call c).1 = t := by
  cases c with
  | define name =>
    cases hcurrent : t.current with
    | none =>
      -- A definition is opened whether its name is taken or not, so this is the only fault.
      rw [call, define_of_closed hcurrent] at h
      dsimp only at h
      split at h
      · cases h
        exact absurd rfl (hduplicate name rfl)
      · cases h
    | some m => rw [call, define_of_open hcurrent]
  | capture part =>
    simp only [call, capture] at h ⊢
    split at h
    · rfl
    · split at h
      · rfl
      · cases h
  | endDefine =>
    simp only [call, endDefine] at h ⊢
    split at h
    · rfl
    · cases h
  | abandon =>
    simp only [call, abandon] at h ⊢
    split at h
    · rfl
    · cases h
      exact absurd rfl (habandon rfl)
  | expand location name arguments => rfl

/-- **A macro table only grows.** Whatever calls were made on a new table, in whatever order, there
is a macro with a name exactly if a definition of the name was opened without a fault and closed
later, with no call in between that ended it, and the body is what was captured in between. It stays
there, whatever calls follow. A call that fails changes nothing, but for two: opening a definition
of a name that is taken, and dropping a definition. -/
theorem macros_only_grow (calls : List Call) :
    (∀ name m, (behind calls).get? name = some m ↔ m.name = name ∧
      ∃ before inside after, calls = before ++ .define name :: (inside ++ .endDefine :: after) ∧
        ((behind before).define name).2 = .ok () ∧ (∀ c ∈ inside, ¬ c.Ends) ∧
        m.body = (behind (before ++ [.define name])).captured inside) ∧
      (∀ name m later, (behind calls).get? name = some m →
        (behind (calls ++ later)).get? name = some m) ∧
      ∀ c e, ((behind calls).call c).2 = .error e →
        (∀ name, c = .define name → e ≠ .duplicate name) →
        (c = .abandon → e ≠ .unmatchedBegin) → behind (calls ++ [c]) = behind calls := by
  refine ⟨fun name m => get?_behind_iff, ?_, ?_⟩
  · intro name m later hm
    obtain ⟨hname, hdefined⟩ := get?_behind_iff.mp hm
    exact get?_behind_iff.mpr ⟨hname, hdefined.append later⟩
  · intro c e herror hduplicate habandon
    rw [behind_concat]
    exact call_of_error herror hduplicate habandon

end MacroTable
end Assembler6502
