import Assembler6502.Proofs.Visibility
import Mathlib.Data.List.Induction
import Mathlib.Data.List.Infix
import Mathlib.Logic.Function.Basic

/-!
# Histories of an environment

An environment is used by operations that bind labels, move the program counter, switch segments,
open and close scopes, and go back to the beginning of the program. They may come in any order, and
closing a scope fails where none is open.

The local labels of a scope stay in the environment when the scope is closed, and even when the
program is begun anew, under the number of the scope. What keeps them apart is that a scope is
opened with a number above those of all open scopes, so nothing that is bound inside of it is seen
outside.

The program counter of the current segment is held apart from those of the other ones, and the
entry of the current segment among them is out of date. From outside this cannot be told from a map
of segments to program counters.

## Main definitions

* `Environment.Operation`, `Environment.operate`: the operations, and what an operation does
* `Environment.Operation.Balanced`: operations that close the scopes that they open, and no others
* `Environment.Inside`: nothing has changed for the scopes that were there before some were opened
* `Environment.Counters`: a program counter for each segment
* `Environment.Shows`: what can be seen of a map of segments to program counters

## Main results

* `Environment.Inside.step`, `Environment.inside_run`: scopes that were there before
* `Environment.closed_scopes_leave_no_trace`: scopes that are closed again change no local label
* `Environment.Shows.step`: an operation on the environment is one on the map
* `Environment.segments_count_apart`: every segment has a program counter of its own
-/

namespace Assembler6502
namespace Environment

/-- An operation on an environment. -/
inductive Operation where
  | bind (symbol : Symbol) (value : Value)
  | setPc (pc : Value)
  | advancePc (amount : Value)
  | switchSegment (name : String) (writable : Bool)
  | enterScope
  | exitScope
  | restart
  deriving DecidableEq

/-- What an operation does to an environment, and whether it fails. The program is begun anew also
where a scope is still open and that is a fault. -/
def operate (env : Environment) : Operation → Environment × Except SymbolError Unit
  | .bind symbol value => (env.bind symbol value, .ok ())
  | .setPc pc => (env.setPc pc, .ok ())
  | .advancePc amount => (env.advancePc amount, .ok ())
  | .switchSegment name writable => (env.switchSegment name writable, .ok ())
  | .enterScope => (env.enterScope, .ok ())
  | .exitScope =>
    match env.exitScope? with
    | .ok left => (left, .ok ())
    | .error e => (env, .error e)
  | .restart =>
    (env.restart, match env.unclosed? with
      | some e => .error e
      | none => .ok ())

/-- The environment behind an operation. -/
def step (env : Environment) (op : Operation) : Environment :=
  (env.operate op).1

/-- The environment behind some operations from an environment on. -/
def run (env : Environment) (ops : List Operation) : Environment :=
  ops.foldl step env

/-- The environment behind some operations on a new one. -/
def behind (ops : List Operation) : Environment :=
  run {} ops

theorem run_concat (env : Environment) (ops : List Operation) (op : Operation) :
    env.run (ops ++ [op]) = (env.run ops).step op :=
  List.foldl_append

theorem behind_append (first second : List Operation) :
    behind (first ++ second) = (behind first).run second :=
  List.foldl_append

variable {env e f : Environment} {ops : List Operation} {op : Operation} {opened : List Nat}
  {name : String}

/-! ## The numbers of open scopes -/

theorem step_exitScope : env.step .exitScope = { env with inner := env.inner.tail } := by
  obtain ⟨globals, locals, inner⟩ := env
  cases inner <;> rfl

/-- A scope is opened with the next number, which is above those of the open scopes. -/
theorem le_scopeCount_step (h : ∀ scope ∈ env.inner, scope ≤ env.scopeCount) :
    ∀ scope ∈ (env.step op).inner, scope ≤ (env.step op).scopeCount := by
  cases op with
  | enterScope =>
    intro scope hs
    rcases List.mem_cons.mp hs with rfl | hs
    · exact Nat.le_refl _
    · exact Nat.le_succ_of_le (h scope hs)
  | exitScope =>
    rw [step_exitScope]
    exact fun scope hs => h scope (List.mem_of_mem_tail hs)
  | restart =>
    intro scope hs
    cases hs
  | bind symbol value => cases symbol <;> exact h
  | setPc _ | advancePc _ | switchSegment _ _ => exact h

/-- **The number of an open scope** is at most the number of scopes that were entered. -/
theorem le_scopeCount (ops : List Operation) :
    ∀ scope ∈ (behind ops).inner, scope ≤ (behind ops).scopeCount := by
  induction ops using List.reverseRecOn with
  | nil =>
    intro scope hs
    cases hs
  | append_singleton ops op ih =>
    rw [behind, run_concat]
    exact le_scopeCount_step ih

/-! ## Scopes that were there before -/

/-- One environment is reached from another one inside of some scopes that were opened in between.
The local labels of the scopes that were there before are what they were. -/
structure Inside (e : Environment) (opened : List Nat) (f : Environment) : Prop where
  inner : f.inner = opened ++ e.inner
  fresh : ∀ scope ∈ opened, e.scopeCount < scope
  count : e.scopeCount ≤ f.scopeCount
  locals : ∀ scope ≤ e.scopeCount, f.localsOf scope = e.localsOf scope

namespace Inside

theorem enterScope (e : Environment) : Inside e [e.scopeCount + 1] e.enterScope where
  inner := rfl
  fresh := by simp
  count := Nat.le_succ _
  locals _ _ := rfl

/-- An operation inside of an opened scope binds local labels there, and not in the scopes that
were there before. -/
theorem step (h : Inside e opened f) (hopened : opened ≠ []) (hop : op ≠ .restart) :
    ∃ opened', Inside e opened' (f.step op) ∧
      opened'.length + [op].count .exitScope = opened.length + [op].count .enterScope := by
  obtain ⟨innermost, outer, rfl⟩ := List.exists_cons_of_ne_nil hopened
  cases op with
  | restart => exact absurd rfl hop
  | enterScope =>
    refine ⟨(f.scopeCount + 1) :: innermost :: outer, ⟨?_, ?_, ?_, h.locals⟩, rfl⟩
    · exact congrArg _ h.inner
    · intro scope hs
      rcases List.mem_cons.mp hs with rfl | hs
      · exact Nat.lt_succ_of_le h.count
      · exact h.fresh scope hs
    · exact Nat.le_succ_of_le h.count
  | exitScope =>
    rw [step_exitScope]
    refine ⟨outer, ⟨?_, ?_, h.count, h.locals⟩, rfl⟩
    · exact congrArg List.tail h.inner
    · exact fun scope hs => h.fresh scope (List.mem_cons_of_mem _ hs)
  | bind symbol value =>
    refine ⟨innermost :: outer, ?_, rfl⟩
    cases symbol with
    | global name => exact ⟨h.inner, h.fresh, h.count, h.locals⟩
    | inScope name =>
      refine ⟨h.inner, h.fresh, h.count, fun scope hs => ?_⟩
      -- The innermost scope is a new one, so it is none of those that were there before.
      have hinnermost : f.innermostScope = innermost := by simp [innermostScope, h.inner]
      have hnew : f.innermostScope ≠ scope := by
        have := h.fresh innermost List.mem_cons_self
        omega
      have hbind : (f.bind (.inScope name) value).localsOf scope = f.localsOf scope := by
        rw [localsOf_bind, if_neg hnew]
      exact hbind.trans (h.locals scope hs)
  | setPc _ | advancePc _ | switchSegment _ _ =>
    exact ⟨innermost :: outer, ⟨h.inner, h.fresh, h.count, h.locals⟩, rfl⟩

theorem operate_eq_ok (h : Inside e opened f) (hopened : opened ≠ []) (hop : op ≠ .restart) :
    (f.operate op).2 = .ok () := by
  obtain ⟨innermost, outer, rfl⟩ := List.exists_cons_of_ne_nil hopened
  cases op with
  | restart => exact absurd rfl hop
  | exitScope => simp [operate, exitScope?, h.inner]
  | _ => rfl

theorem lookupIn (h : Inside e opened f) {stack : List Nat}
    (hstack : ∀ scope ∈ stack, scope ≤ e.scopeCount) (name : String) :
    f.lookupIn stack (.inScope name) = e.lookupIn stack (.inScope name) := by
  induction stack with
  | nil => rw [lookupIn_nil, lookupIn_nil, h.locals 0 (Nat.zero_le _)]
  | cons scope rest ih =>
    rw [lookupIn_cons, lookupIn_cons, h.locals scope (hstack scope List.mem_cons_self)]
    rw [ih fun other hother => hstack other (List.mem_cons_of_mem _ hother)]

theorem lookup (h : Inside e [] f) (he : ∀ scope ∈ e.inner, scope ≤ e.scopeCount) (name : String) :
    f.lookup (.inScope name) = e.lookup (.inScope name) := by
  have hinner : f.inner = e.inner := h.inner
  rw [← lookupIn_inner, ← lookupIn_inner, hinner]
  exact h.lookupIn he name

end Inside

/-- Operations that close the scopes that they open, and no others, and do not begin the program
anew. -/
structure Operation.Balanced (ops : List Operation) : Prop where
  stays : .restart ∉ ops
  /-- Along the way no more scopes are closed than were opened. -/
  closes : ∀ done, done <+: ops → done.count .exitScope ≤ done.count .enterScope
  /-- At the end all scopes are closed that were opened. -/
  settles : ops.count .exitScope = ops.count .enterScope

theorem Operation.balanced_iff : Balanced ops ↔ .restart ∉ ops ∧
    (∀ done ∈ ops.inits, done.count .exitScope ≤ done.count .enterScope) ∧
      ops.count .exitScope = ops.count .enterScope := by
  simp only [List.mem_inits]
  exact ⟨fun h => ⟨h.stays, h.closes, h.settles⟩, fun h => ⟨h.1, h.2.1, h.2.2⟩⟩

instance : DecidablePred Operation.Balanced := fun _ =>
  decidable_of_iff _ Operation.balanced_iff.symm

/-- **Inside of a scope that was opened**, operations that close no more scopes than they open leave
the scopes alone that were there before. -/
theorem inside_run (e : Environment) (hstays : .restart ∉ ops)
    (hcloses : ∀ done, done <+: ops → done.count .exitScope ≤ done.count .enterScope) :
    ∃ opened, opened ≠ [] ∧ Inside e opened (e.enterScope.run ops) ∧
      opened.length + ops.count .exitScope = ops.count .enterScope + 1 := by
  -- By induction on the last operation: what is required of every prefix holds of a shorter list.
  induction ops using List.reverseRecOn with
  | nil => exact ⟨_, List.cons_ne_nil _ _, .enterScope e, rfl⟩
  | append_singleton ops op ih =>
    have hbefore : ops <+: ops ++ [op] := List.prefix_append ops [op]
    obtain ⟨opened, hopened, hinside, hlength⟩ := ih (fun hmem => hstays (hbefore.subset hmem))
      fun done hdone => hcloses done (hdone.trans hbefore)
    have hop : op ≠ .restart := by
      rintro rfl
      exact hstays (by simp)
    obtain ⟨opened', hinside', hlength'⟩ := hinside.step hopened hop
    have hclosed := hcloses _ (List.prefix_refl (ops ++ [op]))
    rw [List.count_append, List.count_append] at hclosed ⊢
    rw [run_concat]
    refine ⟨opened', ?_, hinside', by omega⟩
    -- As many scopes were closed as were opened at most, so the one around them is still open.
    rintro rfl
    rw [List.length_nil] at hlength'
    omega

namespace Operation.Balanced

/-- No operation fails in a scope that is opened, stays open over balanced operations and is closed
behind them. -/
theorem operate_eq_ok (h : Balanced ops) {done : List Operation}
    (hdone : done ++ [op] <+: ops ++ [.exitScope]) (e : Environment) :
    ((e.enterScope.run done).operate op).2 = .ok () := by
  -- Only the operation that closes the scope stands behind the balanced ones.
  have hbefore : done <+: ops := by
    refine List.prefix_of_prefix_length_le ((List.prefix_append done [op]).trans hdone)
      (List.prefix_append ops [.exitScope]) ?_
    have hlength := hdone.length_le
    simp only [List.length_append, List.length_singleton] at hlength
    omega
  have hop : op ≠ .restart := by
    rintro rfl
    have hmem : .restart ∈ ops ++ [.exitScope] := hdone.subset (by simp)
    simp [h.stays] at hmem
  obtain ⟨opened, hopened, hinside, -⟩ := inside_run e (fun hmem => h.stays (hbefore.subset hmem))
    fun first hfirst => h.closes first (hfirst.trans hbefore)
  exact hinside.operate_eq_ok hopened hop

/-- Closing the scope in which balanced operations stand closes all scopes that were opened. -/
theorem inside_exit (h : Balanced ops) (e : Environment) :
    Inside e [] (e.enterScope.run (ops ++ [.exitScope])) := by
  obtain ⟨opened, hopened, hinside, hlength⟩ := inside_run e h.stays h.closes
  have hop : Operation.exitScope ≠ .restart := by simp
  obtain ⟨left, hleft, hcount⟩ := hinside.step hopened hop
  have hnil : left = [] := by
    apply List.eq_nil_of_length_eq_zero
    have hexit : [Operation.exitScope].count .exitScope = 1 := rfl
    have henter : [Operation.exitScope].count .enterScope = 0 := rfl
    have := h.settles
    omega
  rw [run_concat]
  exact hnil ▸ hleft

end Operation.Balanced

/-! ## Global labels -/

/-- The value that an operation binds a label to. -/
def Operation.bound? (symbol : Symbol) : Operation → Option Value
  | .bind other value => if other = symbol then some value else none
  | _ => none

theorem lookup_global_step :
    (env.step op).lookup (.global name) =
      (op.bound? (.global name)).or (env.lookup (.global name)) := by
  cases op with
  | bind symbol value =>
    cases symbol with
    | global other =>
      by_cases hname : other = name <;> simp [step, operate, bind, lookup, Operation.bound?, hname]
    | inScope other => rfl
  | exitScope =>
    rw [step_exitScope]
    rfl
  | _ => rfl

/-- **A global label** has the value that it was bound to last. -/
theorem lookup_global_run (env : Environment) (ops : List Operation) (name : String) :
    (env.run ops).lookup (.global name) =
      (ops.reverse.findSome? (Operation.bound? (.global name))).or (env.lookup (.global name)) := by
  induction ops using List.reverseRecOn with
  | nil => rfl
  | append_singleton ops op ih =>
    rw [run_concat, lookup_global_step, ih, List.reverse_append, List.reverse_singleton,
      List.singleton_append, List.findSome?_cons, ← Option.or_assoc]
    cases op.bound? (.global name) <;> rfl

/-! ## Closed scopes -/

/-- **Closed scopes leave no trace.** Take any operations on a new environment, and then a scope
that is opened and closed again, with balanced operations inside. None of these fails, and the local
labels have the values that they had, whatever was bound inside. A global label has the value that
it was bound to last, and where it was not bound, the value that it had. -/
theorem closed_scopes_leave_no_trace (history : List Operation) :
    (∀ inside, Operation.Balanced inside →
      (∀ done op, done ++ [op] <+: .enterScope :: (inside ++ [.exitScope]) →
        ((behind (history ++ done)).operate op).2 = .ok ()) ∧
      ∀ name, (behind (history ++ .enterScope :: (inside ++ [.exitScope]))).lookup (.inScope name) =
        (behind history).lookup (.inScope name)) ∧
      ∀ ops name, (behind (history ++ ops)).lookup (.global name) =
        (ops.reverse.findSome? (Operation.bound? (.global name))).or
          ((behind history).lookup (.global name)) := by
  refine ⟨fun inside hinside => ⟨?_, fun name => ?_⟩, fun ops name => ?_⟩
  · intro done op hdone
    rw [behind_append]
    cases done with
    | nil =>
      obtain ⟨rfl, -⟩ := List.cons_prefix_cons.mp hdone
      rfl
    | cons first done =>
      obtain ⟨rfl, hrest⟩ := List.cons_prefix_cons.mp hdone
      exact hinside.operate_eq_ok hrest (behind history)
  · rw [behind_append]
    exact (hinside.inside_exit (behind history)).lookup (le_scopeCount history) name
  · rw [behind_append]
    exact lookup_global_run (behind history) ops name

/-- Operations behind which `_x` is bound outside of all scopes, and once more in the scope with
number one, which was closed before the program was begun anew. -/
def scopedTwice : List Operation :=
  [.bind (.inScope "x") 1, .enterScope, .bind (.inScope "x") 5, .exitScope, .restart, .exitScope]

/-- Operations that bind `_x` and `_y` in a scope and in two scopes inside of it. -/
def siblings : List Operation :=
  [.bind (.inScope "x") 2, .enterScope, .bind (.inScope "x") 3, .switchSegment "zp" false,
    .exitScope, .enterScope, .bind (.inScope "y") 4, .bind (.global "z") 6, .exitScope]

theorem closed_scopes_leave_no_trace_siblings :
    Operation.Balanced siblings ∧
      (behind (scopedTwice ++ .enterScope :: (siblings ++ [.exitScope]))).lookup (.inScope "x") =
        some 1 ∧
      (behind (scopedTwice ++ .enterScope :: (siblings ++ [.exitScope]))).lookup (.global "z") =
        some 6 := by
  have hbalanced : Operation.Balanced siblings := by decide
  obtain ⟨hlocals, hglobals⟩ := closed_scopes_leave_no_trace scopedTwice
  refine ⟨hbalanced, ?_, ?_⟩
  · rw [(hlocals siblings hbalanced).2 "x"]
    decide
  · rw [hglobals]
    decide

/-! ## Program counters -/

/-- A program counter for each segment, and the current segment. -/
structure Counters where
  counter : String → Value := fun _ => 0
  current : String := defaultTextSegment

namespace Counters

/-- Sets the program counter of the current segment. -/
def set (m : Counters) (pc : Value) : Counters :=
  { m with counter := Function.update m.counter m.current pc }

theorem counter_set (m : Counters) (pc : Value) (name : String) :
    (m.set pc).counter name = if m.current = name then pc else m.counter name := by
  simp only [set, Function.update_apply, eq_comm]

/-- What an operation does: the program counter of the current segment is set and moved, and another
segment becomes the current one. Nothing else happens, until the program is begun anew. -/
def step (m : Counters) : Operation → Counters
  | .setPc pc => m.set pc
  | .advancePc amount => m.set (Value.saturatingAdd (m.counter m.current) amount)
  | .switchSegment name _ => { m with current := name }
  | .restart => {}
  | .bind _ _ | .enterScope | .exitScope => m

/-- The program counters behind some operations, all of them zero at the beginning. -/
def behind (ops : List Operation) : Counters :=
  ops.foldl step {}

end Counters

/-- What can be seen of a map of segments to program counters: the current segment, its program
counter, and that of any segment to which one switches. -/
structure Shows (env : Environment) (m : Counters) : Prop where
  segment : env.segment = m.current
  pc : env.pc = m.counter m.current
  switched : ∀ name writable, (env.switchSegment name writable).pc = m.counter name

theorem pc_switchSegment (env : Environment) (name : String) (writable : Bool) :
    (env.switchSegment name writable).pc =
      if env.segment = name then env.pc else (env.segments.get? name).getD 0 := by
  simp only [switchSegment, Table.get?_insert]
  split <;> rfl

namespace Shows

variable {m : Counters}

theorem restart (env : Environment) : Shows env.restart {} where
  segment := rfl
  pc := rfl
  switched name writable := by
    rw [pc_switchSegment]
    split <;> rfl

theorem left (h : Shows env m) (hname : m.current ≠ name) :
    (env.segments.get? name).getD 0 = m.counter name := by
  rw [← h.switched name env.writable, pc_switchSegment, if_neg (h.segment ▸ hname)]

/-- The program counter is set, and those of the other segments stay. -/
theorem setPc (h : Shows env m) (pc : Value) : Shows (env.setPc pc) (m.set pc) where
  segment := h.segment
  pc := ((m.counter_set pc m.current).trans (if_pos rfl)).symm
  switched name writable := by
    rw [pc_switchSegment, Counters.counter_set]
    show (if env.segment = name then pc else (env.segments.get? name).getD 0) = _
    rw [h.segment]
    split
    · rfl
    · next hname => exact h.left hname

/-- Switching to a segment, be it the current one, changes no program counter. -/
theorem switchSegment (h : Shows env m) (name : String) (writable : Bool) :
    Shows (env.switchSegment name writable) { m with current := name } where
  segment := rfl
  pc := h.switched name writable
  switched other writable' := by
    rw [pc_switchSegment]
    show (if name = other then _ else
      ((env.segments.insert env.segment env.pc).get? other).getD 0) = _
    split
    -- Switching to the same segment once more stores the program counter that was just restored.
    · next hother => rw [h.switched, hother]
    · exact h.switched other writable

/-- What concerns neither the segments nor their program counters. -/
theorem of_segments (h : Shows env m) (hpc : f.pc = env.pc) (hsegment : f.segment = env.segment)
    (hsegments : f.segments = env.segments) : Shows f m where
  segment := hsegment.trans h.segment
  pc := hpc.trans h.pc
  switched name writable := by
    rw [pc_switchSegment, hpc, hsegment, hsegments, ← pc_switchSegment env name writable]
    exact h.switched name writable

/-- **An operation on the environment** is one on the map. -/
theorem step (h : Shows env m) (op : Operation) : Shows (env.step op) (m.step op) := by
  cases op with
  | setPc pc => exact h.setPc pc
  | advancePc amount =>
    rw [Counters.step, ← h.pc]
    exact h.setPc _
  | switchSegment name writable => exact h.switchSegment name writable
  | restart => exact .restart env
  | bind symbol value => cases symbol <;> exact h.of_segments rfl rfl rfl
  | enterScope => exact h.of_segments rfl rfl rfl
  | exitScope =>
    rw [step_exitScope]
    exact h.of_segments rfl rfl rfl

theorem run (h : Shows env m) (ops : List Operation) :
    Shows (env.run ops) (ops.foldl Counters.step m) := by
  induction ops generalizing env m with
  | nil => exact h
  | cons op ops ih => exact ih (h.step op)

end Shows

/-- **Every segment has a program counter of its own.** Whatever operations follow on a new
environment, or on one in which the program was begun anew, what can be seen of the segments is a
map of their names to program counters, all of them zero at the beginning, of which only the entry
of the current segment is set and moved. -/
theorem segments_count_apart (history ops : List Operation) :
    Shows (behind ops) (Counters.behind ops) ∧
      Shows (behind (history ++ .restart :: ops)) (Counters.behind ops) := by
  constructor
  · exact (Shows.restart {}).run ops
  · rw [behind_append]
    exact (Shows.restart (behind history)).run ops

end Environment
end Assembler6502
