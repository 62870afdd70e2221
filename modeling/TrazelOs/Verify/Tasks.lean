import TrazelOs.Kernel.Task
import Mathlib.Data.List.Basic
import Mathlib.Logic.Relation

/-! # Processes and queues without pointers

What the scheduler is for: every process runs, is ready to run, waits in one queue, or is a
zombie. `TaskView` has the queues as lists of processes, `Scheduled` is the invariant and
`TaskView.Act` are the transitions that one entry of the kernel makes. -/

namespace TrazelOs

/-- A process as the scheduler sees it. -/
structure Task where
  pid : Nat
  ppid : Nat
  state : ProcessState
  waitQueue : Nat
  exitStatus : Int
  context : InterruptInfo

/-- The processes by the address of their control blocks, and the queues. No process is current
from the time the kernel has given up the last one until it has taken the next. -/
@[ext] structure TaskView where
  tasks : Nat → Option Task
  current : Option Nat
  runnable : List Nat
  waiting : Nat → List Nat

namespace TaskView

variable {v v' : TaskView} {p q w device : Nat} {t u : Task}

/-! ## Operations -/

section Operations
variable (v : TaskView)

def stateOf (p : Nat) : Option ProcessState := (v.tasks p).map Task.state

def modify (p : Nat) (f : Task → Task) : TaskView :=
  { v with tasks := Function.update v.tasks p ((v.tasks p).map f) }

def setState (p : Nat) (state : ProcessState) : TaskView := v.modify p ({ · with state })

/-- The context of the process is saved. -/
def save (p : Nat) (context : InterruptInfo) : TaskView := v.modify p ({ · with context })

/-- The current process waits in the queue `w`. -/
def block (p w : Nat) : TaskView :=
  { v.setState p .waiting with
    current := none
    waiting := Function.update v.waiting w (v.waiting w ++ [p]) }

/-- The first process `p` of the queue `w`, before `ps`, is woken. -/
def wakeFirst (w p : Nat) (ps : List Nat) : TaskView :=
  { v.setState p .ready with
    runnable := v.runnable ++ [p]
    waiting := Function.update v.waiting w ps }

/-- All processes of the queue `w` are woken. -/
def wake (w : Nat) : TaskView where
  tasks p := if p ∈ v.waiting w then (v.tasks p).map ({ · with state := .ready }) else v.tasks p
  current := v.current
  runnable := v.runnable ++ v.waiting w
  waiting := Function.update v.waiting w []

def preempt (p : Nat) : TaskView := { v with current := none, runnable := v.runnable ++ [p] }

def dispatch (p : Nat) (ps : List Nat) : TaskView := { v with current := some p, runnable := ps }

/-- The current process becomes a zombie. -/
def die (p : Nat) (exitStatus : Int) : TaskView :=
  { v.modify p ({ · with state := .zombie, exitStatus }) with current := none }

/-- The children of `pid` become children of 1. -/
def reparent (pid : Nat) : TaskView :=
  { v with tasks := fun p => (v.tasks p).map fun t => if t.ppid = pid then { t with ppid := 1 } else t }

def fork (p : Nat) (t : Task) : TaskView :=
  { v with tasks := Function.update v.tasks p (some t), runnable := v.runnable ++ [p] }

def reap (p : Nat) : TaskView := { v with tasks := Function.update v.tasks p none }

end Operations

theorem modify_self {f : Task → Task} (h : v.tasks p = some t) :
    (v.modify p f).tasks p = some (f t) := by
  simp [modify, h]

theorem modify_of_ne {f : Task → Task} (h : q ≠ p) : (v.modify p f).tasks q = v.tasks q :=
  Function.update_of_ne h _ _

theorem modify_congr {f g : Task → Task} (h : ∀ t, v.tasks p = some t → f t = g t) :
    v.modify p f = v.modify p g := by
  unfold modify
  congr 2
  cases ht : v.tasks p with
  | none => rfl
  | some t => rw [Option.map_some, Option.map_some, h t ht]

theorem stateOf_eq_some {state : ProcessState} :
    v.stateOf p = some state ↔ ∃ t, v.tasks p = some t ∧ t.state = state := Option.map_eq_some_iff

theorem stateOf_modify_self {f : Task → Task} (h : v.tasks p = some t) :
    (v.modify p f).stateOf p = some (f t).state := by
  rw [stateOf, modify_self h, Option.map_some]

theorem stateOf_modify_of_ne {f : Task → Task} (h : q ≠ p) :
    (v.modify p f).stateOf q = v.stateOf q := by
  rw [stateOf, modify_of_ne h, stateOf]

/-- A change that keeps the states of all processes. -/
theorem stateOf_modify {f : Task → Task} (hf : ∀ t, (f t).state = t.state) :
    (v.modify p f).stateOf q = v.stateOf q := by
  by_cases h : q = p
  · subst h
    simp [stateOf, modify, Function.comp_def, hf]
  · exact stateOf_modify_of_ne h

theorem stateOf_save {frame : InterruptInfo} : (v.save p frame).stateOf q = v.stateOf q :=
  stateOf_modify fun _ => rfl

theorem stateOf_block_self (h : v.tasks p = some t) : (v.block p w).stateOf p = some .waiting :=
  stateOf_modify_self h

theorem stateOf_reparent {pid : Nat} : (v.reparent pid).stateOf p = v.stateOf p := by
  simp only [stateOf, reparent, Option.map_map]
  congr 1
  funext t
  simp only [Function.comp_apply]
  split <;> rfl

/-- Waking the whole queue is waking the first process and then the rest. -/
theorem wake_wakeFirst {ps : List Nat} (h : v.waiting w = p :: ps) (hnodup : (p :: ps).Nodup) :
    (v.wakeFirst w p ps).wake w = v.wake w := by
  obtain ⟨hp, -⟩ := List.nodup_cons.mp hnodup
  refine TaskView.ext (funext fun q => ?_) rfl ?_ ?_
  · simp only [wake, wakeFirst, setState, Function.update_self, h, List.mem_cons]
    by_cases hq : q = p
    · subst hq
      simp [hp, modify]
    · rw [modify_of_ne hq]
      simp [hq]
  · simp [wake, wakeFirst, h]
  · simp [wake, wakeFirst]

theorem wake_of_nil (h : v.waiting w = []) : v.wake w = v := by
  refine TaskView.ext (funext fun q => ?_) rfl ?_ ?_
  · simp [wake, h]
  · simp [wake, h]
  · simp only [wake]
    rw [← h, Function.update_eq_self]

end TaskView

/-! ## The invariant -/

/-- Every process is in one place, as its state says, and waits for the keyboard or in its own
queue only. -/
structure Scheduled (device : Nat) (v : TaskView) : Prop where
  ready : ∀ p, (v.current = some p ∨ p ∈ v.runnable) ↔ v.stateOf p = some .ready
  waiting : ∀ p, (∃ w, p ∈ v.waiting w) ↔ v.stateOf p = some .waiting
  alone : ∀ p, v.current = some p → p ∉ v.runnable
  once : ∀ p w w', p ∈ v.waiting w → p ∈ v.waiting w' → w = w'
  own : ∀ p w t, p ∈ v.waiting w → v.tasks p = some t → w = device ∨ w = t.waitQueue

namespace Scheduled

open TaskView

variable {v v' : TaskView} {p q w device : Nat} {t u : Task}

theorem notMem_waiting (S : Scheduled device v) (h : v.stateOf p ≠ some .waiting) :
    p ∉ v.waiting w := fun hp => h ((S.waiting p).mp ⟨w, hp⟩)

theorem notMem_runnable (S : Scheduled device v) (h : v.stateOf p ≠ some .ready) :
    p ∉ v.runnable := fun hp => h ((S.ready p).mp (.inr hp))

theorem apart (S : Scheduled device v) (h : p ∈ v.runnable) : p ∉ v.waiting w :=
  S.notMem_waiting fun h' => by
    rw [(S.ready p).mp (.inr h)] at h'
    cases h'

/-- The current process is in no queue. -/
theorem current_notMem (S : Scheduled device v) (h : v.current = some p) : p ∉ v.waiting w :=
  S.notMem_waiting fun h' => by
    rw [(S.ready p).mp (.inl h)] at h'
    cases h'

/-- A change of tasks that keeps states and wait queues. -/
theorem modify (S : Scheduled device v) {f : Task → Task} (hstate : ∀ t, (f t).state = t.state)
    (hqueue : ∀ t, (f t).waitQueue = t.waitQueue) : Scheduled device (v.modify p f) := by
  refine ⟨fun q => ?_, fun q => ?_, S.alone, S.once, fun q w t hq ht => ?_⟩
  · rw [stateOf_modify hstate]
    exact S.ready q
  · rw [stateOf_modify hstate]
    exact S.waiting q
  · by_cases h : q = p
    · subst h
      simp only [TaskView.modify, Function.update_self, Option.map_eq_some_iff] at ht
      obtain ⟨t', ht', rfl⟩ := ht
      rw [hqueue]
      exact S.own q w t' hq ht'
    · rw [modify_of_ne h] at ht
      exact S.own q w t hq ht

theorem save (S : Scheduled device v) {frame : InterruptInfo} : Scheduled device (v.save p frame) :=
  S.modify (fun _ => rfl) fun _ => rfl

theorem reparent (S : Scheduled device v) {pid : Nat} : Scheduled device (v.reparent pid) := by
  refine ⟨fun q => ?_, fun q => ?_, S.alone, S.once, fun q w t hq ht => ?_⟩
  · rw [stateOf_reparent]
    exact S.ready q
  · rw [stateOf_reparent]
    exact S.waiting q
  · simp only [TaskView.reparent, Option.map_eq_some_iff] at ht
    obtain ⟨t', ht', rfl⟩ := ht
    have := S.own q w t' hq ht'
    split <;> exact this

theorem block (S : Scheduled device v) (hcurr : v.current = some p) (ht : v.tasks p = some t)
    (hw : w = device ∨ w = t.waitQueue) : Scheduled device (v.block p w) := by
  have hnot : ∀ w, p ∉ v.waiting w := fun w => S.current_notMem hcurr
  have hself : (v.block p w).stateOf p = some .waiting := stateOf_modify_self ht
  have hne : ∀ q, q ≠ p → (v.block p w).stateOf q = v.stateOf q := fun q => stateOf_modify_of_ne
  have hmem : ∀ q w', q ∈ (v.block p w).waiting w' ↔ q ∈ v.waiting w' ∨ w' = w ∧ q = p := by
    intro q w'
    by_cases hw' : w' = w
    · subst hw'
      simp [TaskView.block]
    · simp [TaskView.block, hw']
  refine ⟨fun q => ?_, fun q => ?_, fun q hq => (nomatch hq), fun q w₁ w₂ h₁ h₂ => ?_,
    fun q w' t' hq ht' => ?_⟩
  · by_cases hq : q = p
    · subst hq
      rw [hself]
      refine iff_of_false ?_ (by simp)
      rintro (h | h)
      · cases h
      · exact S.alone q hcurr h
    · rw [hne q hq, ← S.ready q, hcurr]
      simp [TaskView.block, TaskView.setState, TaskView.modify, Ne.symm hq]
  · by_cases hq : q = p
    · subst hq
      exact iff_of_true ⟨w, (hmem q w).mpr (.inr ⟨rfl, rfl⟩)⟩ hself
    · rw [hne q hq, ← S.waiting q]
      simp [hmem, hq]
  · rcases (hmem q w₁).mp h₁ with h₁ | ⟨hw₁, hq⟩ <;> rcases (hmem q w₂).mp h₂ with h₂ | ⟨hw₂, hq'⟩
    · exact S.once q w₁ w₂ h₁ h₂
    · exact absurd (hq' ▸ h₁) (hnot w₁)
    · exact absurd (hq ▸ h₂) (hnot w₂)
    · exact hw₁.trans hw₂.symm
  · rcases (hmem q w').mp hq with hq | ⟨rfl, rfl⟩
    · have hqp : q ≠ p := fun h => hnot w' (h ▸ hq)
      exact S.own q w' t' hq ((modify_of_ne hqp).symm.trans ht')
    · cases (modify_self ht).symm.trans ht'
      exact hw

theorem wakeFirst (S : Scheduled device v) {ps : List Nat} (hw : v.waiting w = p :: ps)
    (hnodup : (p :: ps).Nodup) : Scheduled device (v.wakeFirst w p ps) := by
  have hp : p ∈ v.waiting w := hw ▸ .head _
  obtain ⟨hps, -⟩ := List.nodup_cons.mp hnodup
  obtain ⟨t, ht, hstate⟩ := stateOf_eq_some.mp ((S.waiting p).mp ⟨w, hp⟩)
  have hready : v.stateOf p ≠ some .ready := by
    rw [stateOf, ht, Option.map_some, hstate]
    simp
  have hself : (v.wakeFirst w p ps).stateOf p = some .ready := stateOf_modify_self ht
  have hne : ∀ q, q ≠ p → (v.wakeFirst w p ps).stateOf q = v.stateOf q :=
    fun q => stateOf_modify_of_ne
  have hmem : ∀ q w', q ∈ (v.wakeFirst w p ps).waiting w' ↔ q ∈ v.waiting w' ∧ q ≠ p := by
    intro q w'
    by_cases hw' : w' = w
    · subst hw'
      simp only [TaskView.wakeFirst, Function.update_self, hw, List.mem_cons]
      constructor
      · exact fun h => ⟨.inr h, fun h' => hps (h' ▸ h)⟩
      · exact fun ⟨h, hne⟩ => h.resolve_left hne
    · simp only [TaskView.wakeFirst, Function.update_of_ne hw', iff_self_and]
      rintro h rfl
      exact hw' (S.once q w' w h hp)
  refine ⟨fun q => ?_, fun q => ?_, fun q hq => ?_, fun q w₁ w₂ h₁ h₂ => ?_,
    fun q w' t' hq ht' => ?_⟩
  · by_cases hq : q = p
    · subst hq
      exact iff_of_true (.inr (List.mem_append.mpr (.inr (.head _)))) hself
    · rw [hne q hq, ← S.ready q]
      simp [TaskView.wakeFirst, TaskView.setState, TaskView.modify, hq]
  · by_cases hq : q = p
    · subst hq
      rw [hself]
      refine iff_of_false ?_ (by simp)
      rintro ⟨w', h⟩
      exact ((hmem q w').mp h).2 rfl
    · rw [hne q hq, ← S.waiting q]
      simp [hmem, hq]
  · have hqp : q ≠ p := by
      rintro rfl
      exact hready ((S.ready q).mp (.inl hq))
    simp only [TaskView.wakeFirst, List.mem_append, List.mem_singleton, not_or]
    exact ⟨S.alone q hq, hqp⟩
  · exact S.once q w₁ w₂ ((hmem q w₁).mp h₁).1 ((hmem q w₂).mp h₂).1
  · obtain ⟨hq, hqp⟩ := (hmem q w').mp hq
    exact S.own q w' t' hq ((modify_of_ne hqp).symm.trans ht')

theorem preempt (S : Scheduled device v) (hcurr : v.current = some p) :
    Scheduled device (v.preempt p) := by
  refine ⟨fun q => ?_, S.waiting, fun q hq => (nomatch hq), S.once, S.own⟩
  refine Iff.trans ?_ (S.ready q)
  simp [TaskView.preempt, hcurr, eq_comm, or_comm]

theorem dispatch (S : Scheduled device v) {ps : List Nat} (hcurr : v.current = none)
    (hrun : v.runnable = p :: ps) (hnodup : (p :: ps).Nodup) :
    Scheduled device (v.dispatch p ps) := by
  refine ⟨fun q => ?_, S.waiting, fun q hq => ?_, S.once, S.own⟩
  · refine Iff.trans ?_ (S.ready q)
    simp [TaskView.dispatch, hcurr, hrun, eq_comm]
  · cases hq
    exact (List.nodup_cons.mp hnodup).1

theorem die {status : Int} (S : Scheduled device v) (hcurr : v.current = some p) :
    Scheduled device (v.die p status) := by
  obtain ⟨t, ht, -⟩ := stateOf_eq_some.mp ((S.ready p).mp (.inl hcurr))
  have hself : (v.die p status).stateOf p = some .zombie := stateOf_modify_self ht
  have hne : ∀ q, q ≠ p → (v.die p status).stateOf q = v.stateOf q := fun q => stateOf_modify_of_ne
  refine ⟨fun q => ?_, fun q => ?_, fun q hq => (nomatch hq), S.once, fun q w t' hq ht' => ?_⟩
  · by_cases hq : q = p
    · subst hq
      rw [hself]
      refine iff_of_false ?_ (by simp)
      rintro (h | h)
      · cases h
      · exact S.alone q hcurr h
    · rw [hne q hq, ← S.ready q, hcurr]
      simp [TaskView.die, TaskView.modify, Ne.symm hq]
  · by_cases hq : q = p
    · subst hq
      rw [hself]
      refine iff_of_false ?_ (by simp)
      rintro ⟨w, h⟩
      exact S.current_notMem hcurr h
    · rw [hne q hq]
      exact S.waiting q
  · have hqp : q ≠ p := fun h => S.current_notMem hcurr (h ▸ hq)
    exact S.own q w t' hq ((modify_of_ne hqp).symm.trans ht')

theorem fork (S : Scheduled device v) (hp : v.tasks p = none) (ht : t.state = .ready) :
    Scheduled device (v.fork p t) := by
  have hnone : v.stateOf p = none := by rw [stateOf, hp, Option.map_none]
  have hself : (v.fork p t).stateOf p = some .ready := by
    simp [stateOf, TaskView.fork, ht]
  have hne : ∀ q, q ≠ p → (v.fork p t).tasks q = v.tasks q := fun q hq => Function.update_of_ne hq _ _
  have hnot : ∀ w, p ∉ v.waiting w := fun w => S.notMem_waiting (by simp [hnone])
  refine ⟨fun q => ?_, fun q => ?_, fun q hq => ?_, S.once, fun q w t' hq ht' => ?_⟩
  · by_cases hq : q = p
    · subst hq
      exact iff_of_true (.inr (List.mem_append.mpr (.inr (.head _)))) hself
    · rw [stateOf, hne q hq, ← stateOf, ← S.ready q]
      simp [TaskView.fork, hq]
  · by_cases hq : q = p
    · subst hq
      rw [hself]
      refine iff_of_false ?_ (by simp)
      rintro ⟨w, h⟩
      exact hnot w h
    · rw [stateOf, hne q hq]
      exact S.waiting q
  · have hqp : q ≠ p := by
      rintro rfl
      have := (S.ready q).mp (.inl hq)
      rw [hnone] at this
      cases this
    simp only [TaskView.fork, List.mem_append, List.mem_singleton, not_or]
    exact ⟨S.alone q hq, hqp⟩
  · have hqp : q ≠ p := fun h => hnot w (h ▸ hq)
    exact S.own q w t' hq ((hne q hqp).symm.trans ht')

theorem reap (S : Scheduled device v) (hp : v.stateOf p = some .zombie) :
    Scheduled device (v.reap p) := by
  have hself : (v.reap p).stateOf p = none := by
    simp [stateOf, TaskView.reap]
  have hne : ∀ q, q ≠ p → (v.reap p).tasks q = v.tasks q := fun q hq => Function.update_of_ne hq _ _
  have hnot : ∀ w, p ∉ v.waiting w := fun w => S.notMem_waiting (by simp [hp])
  refine ⟨fun q => ?_, fun q => ?_, S.alone, S.once, fun q w t' hq ht' => ?_⟩
  · by_cases hq : q = p
    · subst hq
      rw [hself]
      refine iff_of_false (fun h => ?_) (by simp)
      have := (S.ready q).mp h
      rw [hp] at this
      cases this
    · rw [stateOf, hne q hq]
      exact S.ready q
  · by_cases hq : q = p
    · subst hq
      rw [hself]
      refine iff_of_false ?_ (by simp)
      rintro ⟨w, h⟩
      exact hnot w h
    · rw [stateOf, hne q hq]
      exact S.waiting q
  · have hqp : q ≠ p := fun h => hnot w (h ▸ hq)
    exact S.own q w t' hq ((hne q hqp).symm.trans ht')

end Scheduled

/-! ## What one entry of the kernel does -/

namespace TaskView

/-- The context of a process that gave up the processor is saved, if it is. -/
def save? (v : TaskView) (p : Nat) : Option InterruptInfo → TaskView
  | none => v
  | some frame => v.save p frame

/-- `p` is a child of the process `t` that has exited. -/
def ZombieChild (v : TaskView) (t : Task) (p : Nat) : Prop :=
  ∃ u, v.tasks p = some u ∧ u.ppid = t.pid ∧ u.state = .zombie

/-- An entry of the kernel: the number of the system call if it is one, the registers that were
saved, and the status of a process that exits in it. -/
structure Entry where
  number : Option Nat
  frame : InterruptInfo
  exitStatus : Int

/-- One entry of the kernel up to the choice of the next process. A process that exits wakes the
queue of the process that is its parent once its children are children of 1. -/
inductive Act (entry : Entry) (v : TaskView) : TaskView → Prop
  | quiet : Act entry v v
  | fork (p q : Nat) (t u : Task) : entry.number = some 57 → v.current = some q →
    v.tasks q = some u → v.tasks p = none → t.state = .ready → t.ppid = u.pid →
      (∀ r x, v.tasks r = some x → x.pid ≠ t.pid) → Act entry v (v.fork p t)
  | reap (p q : Nat) (t u : Task) : entry.number = some 61 → v.current = some q →
    v.tasks q = some u → v.tasks p = some t → t.state = .zombie → t.ppid = u.pid →
      Act entry v (v.reap p)
  | wake (w : Nat) : Act entry v (v.wake w)
  | preempt (p : Nat) : v.current = some p → Act entry v ((v.save p entry.frame).preempt p)
  | block (p w : Nat) (t : Task) (frame : InterruptInfo) :
    v.current = some p → v.tasks p = some t → (w = t.waitQueue → ∀ q, ¬v.ZombieChild t q) →
      Act entry v ((v.block p w).save p frame)
  | exit (p q : Nat) (t t' u : Task) (saved : Option InterruptInfo) :
    v.current = some p → v.tasks p = some t →
      ((v.die p entry.exitStatus).reparent t.pid).tasks p = some t' →
      ((v.die p entry.exitStatus).reparent t.pid).tasks q = some u → u.pid = t'.ppid →
      Act entry v ((((v.die p entry.exitStatus).reparent t.pid).wake u.waitQueue).save? p saved)

/-- The choice of the next process, or none. -/
inductive Dispatch (v : TaskView) : TaskView → Prop
  | none : Dispatch v v
  | next (p : Nat) (ps : List Nat) : v.current = none → v.runnable = p :: ps →
    Dispatch v (v.dispatch p ps)

/-- Different processes have different pids. -/
def Distinct (v : TaskView) : Prop :=
  ∀ p q t u, v.tasks p = some t → v.tasks q = some u → t.pid = u.pid → p = q

/-! ## No wakeup is lost -/

/-- No process waits in its own queue and has a child that has exited. -/
def NoLostWakeup (v : TaskView) : Prop :=
  ∀ p t, v.tasks p = some t → p ∈ v.waiting t.waitQueue → ∀ q, ¬v.ZombieChild t q

/-- When a process with a zombie child exits, 1 is its parent or does not wait for children. -/
def ExitsSafely (v : TaskView) (p : Nat) : Prop :=
  ∀ t, v.tasks p = some t → (∃ q, v.ZombieChild t q) →
    t.ppid = 1 ∨ ∀ r u, v.tasks r = some u → u.pid = 1 → r ∉ v.waiting u.waitQueue

variable {v v' : TaskView} {p q w device : Nat} {t u : Task}

/-- Fewer processes wait, and no process has become a zombie or another process's child. -/
theorem NoLostWakeup.mono (h : NoLostWakeup v)
    (hwaiting : ∀ p t, v'.tasks p = some t → p ∈ v'.waiting t.waitQueue →
      ∃ t', v.tasks p = some t' ∧ t'.waitQueue = t.waitQueue ∧ t'.pid = t.pid ∧
        p ∈ v.waiting t.waitQueue)
    (hzombie : ∀ p u, v'.tasks p = some u → u.state = .zombie →
      ∃ u', v.tasks p = some u' ∧ u'.ppid = u.ppid ∧ u'.state = .zombie) : NoLostWakeup v' := by
  rintro p t ht hp q ⟨u, hu, hppid, hstate⟩
  obtain ⟨t', ht', hqueue, hpid, hp'⟩ := hwaiting p t ht hp
  obtain ⟨u', hu', hppid', hstate'⟩ := hzombie q u hu hstate
  refine h p t' ht' (hqueue ▸ hp') q ⟨u', hu', ?_, hstate'⟩
  rw [hppid', hppid, hpid]

theorem save_tasks {frame : InterruptInfo} (h : (v.save p frame).tasks q = some t) :
    ∃ t', v.tasks q = some t' ∧ t'.pid = t.pid ∧ t'.ppid = t.ppid ∧ t'.state = t.state ∧
      t'.waitQueue = t.waitQueue := by
  by_cases hq : q = p
  · subst hq
    simp only [save, modify, Function.update_self, Option.map_eq_some_iff] at h
    obtain ⟨t', ht', rfl⟩ := h
    exact ⟨t', ht', rfl, rfl, rfl, rfl⟩
  · exact ⟨t, (modify_of_ne hq).symm.trans h, rfl, rfl, rfl, rfl⟩

theorem NoLostWakeup.save (h : NoLostWakeup v) {frame : InterruptInfo} :
    NoLostWakeup (v.save p frame) := by
  refine h.mono (fun q t ht hq => ?_) fun q u hu hstate => ?_
  · obtain ⟨t', ht', hpid, -, -, hqueue⟩ := save_tasks ht
    exact ⟨t', ht', hqueue, hpid, hq⟩
  · obtain ⟨u', hu', -, hppid, hstate', -⟩ := save_tasks hu
    exact ⟨u', hu', hppid, hstate'.trans hstate⟩

theorem NoLostWakeup.save? (h : NoLostWakeup v) {saved : Option InterruptInfo} :
    NoLostWakeup (v.save? p saved) := by
  cases saved with
  | none => exact h
  | some frame => exact h.save

theorem wake_tasks (h : (v.wake w).tasks q = some t) :
    ∃ t', v.tasks q = some t' ∧ t'.pid = t.pid ∧ t'.ppid = t.ppid ∧ t'.waitQueue = t.waitQueue ∧
      t'.context = t.context ∧ (t.state ≠ .ready → t'.state = t.state) := by
  simp only [wake] at h
  split at h
  · obtain ⟨t', ht', rfl⟩ := Option.map_eq_some_iff.mp h
    exact ⟨t', ht', rfl, rfl, rfl, rfl, fun h => absurd rfl h⟩
  · exact ⟨t, h, rfl, rfl, rfl, rfl, fun _ => rfl⟩

theorem wake_tasks_of_notMem (h : p ∉ v.waiting w) : (v.wake w).tasks p = v.tasks p := if_neg h

theorem mem_wake_waiting {w' : Nat} :
    q ∈ (v.wake w).waiting w' ↔ w' ≠ w ∧ q ∈ v.waiting w' := by
  by_cases hw : w' = w
  · subst hw
    simp [wake]
  · simp [wake, hw]

theorem NoLostWakeup.wake (h : NoLostWakeup v) : NoLostWakeup (v.wake w) := by
  refine h.mono (fun q t ht hq => ?_) fun q u hu hstate => ?_
  · obtain ⟨t', ht', hpid, -, hqueue, -⟩ := wake_tasks ht
    exact ⟨t', ht', hqueue, hpid, (mem_wake_waiting.mp hq).2⟩
  · obtain ⟨u', hu', -, hppid, -, -, hstate'⟩ := wake_tasks hu
    exact ⟨u', hu', hppid, (hstate' (by simp [hstate])).trans hstate⟩

theorem reparent_tasks {pid : Nat} (h : (v.reparent pid).tasks q = some t) :
    ∃ t', v.tasks q = some t' ∧ t'.pid = t.pid ∧ t'.state = t.state ∧ t'.waitQueue = t.waitQueue ∧
      t'.context = t.context ∧ t.ppid = if t'.ppid = pid then 1 else t'.ppid := by
  obtain ⟨t', ht', rfl⟩ := Option.map_eq_some_iff.mp h
  refine ⟨t', ht', ?_⟩
  split <;> exact ⟨rfl, rfl, rfl, rfl, rfl⟩

theorem NoLostWakeup.fork (h : NoLostWakeup v) (hp : p ∉ v.waiting t.waitQueue)
    (ht : t.state = .ready) : NoLostWakeup (v.fork p t) := by
  refine h.mono (fun q t' ht' hq => ?_) fun q u hu hstate => ?_
  · by_cases hqp : q = p
    · subst hqp
      obtain rfl : t = t' := by simpa [TaskView.fork] using ht'
      exact absurd hq hp
    · exact ⟨t', (Function.update_of_ne hqp _ _).symm.trans ht', rfl, rfl, hq⟩
  · by_cases hqp : q = p
    · subst hqp
      obtain rfl : t = u := by simpa [TaskView.fork] using hu
      rw [ht] at hstate
      cases hstate
    · exact ⟨u, (Function.update_of_ne hqp _ _).symm.trans hu, rfl, hstate⟩

theorem NoLostWakeup.reap (h : NoLostWakeup v) : NoLostWakeup (v.reap p) := by
  have hold : ∀ q t, (v.reap p).tasks q = some t → v.tasks q = some t := by
    intro q t ht
    by_cases hqp : q = p
    · subst hqp
      simp [TaskView.reap] at ht
    · exact (Function.update_of_ne hqp _ _).symm.trans ht
  exact h.mono (fun q t ht hq => ⟨t, hold q t ht, rfl, rfl, hq⟩)
    fun q u hu hstate => ⟨u, hold q u hu, rfl, hstate⟩

theorem NoLostWakeup.block (h : NoLostWakeup v) (hp : v.tasks p = some t)
    (hguard : w = t.waitQueue → ∀ q, ¬v.ZombieChild t q) : NoLostWakeup (v.block p w) := by
  have hzombie : ∀ q u, (v.block p w).tasks q = some u → u.state = .zombie → v.tasks q = some u := by
    intro q u hu hstate
    by_cases hqp : q = p
    · subst hqp
      cases (modify_self hp).symm.trans hu
      cases hstate
    · exact (modify_of_ne hqp).symm.trans hu
  rintro q t' ht' hq r ⟨u, hu, hppid, hstate⟩
  have hr : v.tasks r = some u := hzombie r u hu hstate
  by_cases hqp : q = p
  · subst hqp
    cases (modify_self hp).symm.trans ht'
    by_cases hw : w = t.waitQueue
    · exact hguard hw r ⟨u, hr, hppid, hstate⟩
    · have hold : q ∈ v.waiting t.waitQueue := by
        simpa [TaskView.block, Function.update_of_ne (Ne.symm hw)] using hq
      exact h q t hp hold r ⟨u, hr, hppid, hstate⟩
  · have hold : q ∈ v.waiting t'.waitQueue := by
      by_cases hw : t'.waitQueue = w
      · rw [hw] at hq ⊢
        simpa [TaskView.block, hqp] using hq
      · simpa [TaskView.block, hw] using hq
    exact h q t' ((modify_of_ne hqp).symm.trans ht') hold r ⟨u, hr, hppid, hstate⟩

/-- The exit of `p`, with the parent `q` that is woken. -/
theorem NoLostWakeup.exit {status : Int} (h : NoLostWakeup v) (D : Distinct v) (hp : v.tasks p = some t)
    {t' : Task} (ht' : ((v.die p status).reparent t.pid).tasks p = some t')
    (hq : ((v.die p status).reparent t.pid).tasks q = some u) (hparent : u.pid = t'.ppid)
    (hsafe : v.ExitsSafely p) : NoLostWakeup (((v.die p status).reparent t.pid).wake u.waitQueue) := by
  -- What a task looked like before `p` died.
  have hbefore : ∀ {r s}, ((v.die p status).reparent t.pid).tasks r = some s →
      ∃ s', v.tasks r = some s' ∧ s'.pid = s.pid ∧ s'.waitQueue = s.waitQueue ∧
        (r ≠ p → s'.state = s.state) ∧ s.ppid = if s'.ppid = t.pid then 1 else s'.ppid := by
    intro r s hs
    obtain ⟨s₁, hs₁, hpid, hstate, hqueue, -, hppid⟩ := reparent_tasks hs
    by_cases hr : r = p
    · subst hr
      cases (modify_self hp).symm.trans hs₁
      exact ⟨t, hp, hpid, hqueue, fun h => absurd rfl h, hppid⟩
    · exact ⟨s₁, (modify_of_ne hr).symm.trans hs₁, hpid, hqueue, fun _ => hstate, hppid⟩
  obtain ⟨u₀, hu₀, hpid₀, hqueue₀, -, -⟩ := hbefore hq
  rintro r s hs hr x ⟨y, hy, hppid, hstate⟩
  obtain ⟨hne, hr⟩ := mem_wake_waiting.mp hr
  obtain ⟨s₁, hs₁, hspid₁, -, hsqueue₁, -⟩ := wake_tasks hs
  obtain ⟨s₀, hs₀, hspid₀, hsqueue₀, -⟩ := hbefore hs₁
  -- The process in the queue is not the parent that was woken.
  have hother : s.pid ≠ u.pid := by
    intro heq
    have hrq := D r q s₀ u₀ hs₀ hu₀ (by rw [hspid₀, hspid₁, heq, hpid₀])
    subst hrq
    rw [hs₀] at hu₀
    cases hu₀
    exact hne (hsqueue₁.symm.trans (hsqueue₀.symm.trans hqueue₀))
  have hwait : r ∈ v.waiting s₀.waitQueue := by
    rw [hsqueue₀, hsqueue₁]
    exact hr
  obtain ⟨y₁, hy₁, -, hyppid₁, -, -, hystate₁⟩ := wake_tasks hy
  replace hystate₁ : y₁.state = .zombie := (hystate₁ (by simp [hstate])).trans hstate
  by_cases hx : x = p
  · subst hx
    rw [ht'] at hy₁
    cases hy₁
    exact hother (by rw [← hppid, ← hyppid₁, hparent])
  obtain ⟨y₀, hy₀, -, -, hystate₀, hyppid₀⟩ := hbefore hy₁
  replace hystate₀ : y₀.state = .zombie := (hystate₀ hx).trans hystate₁
  rw [hyppid₁, hppid] at hyppid₀
  split at hyppid₀
  · rename_i hchild
    rcases hsafe t hp ⟨x, y₀, hy₀, hchild, hystate₀⟩ with hone | hidle
    · obtain ⟨t₀, ht₀, -, -, -, hppid₀⟩ := hbefore ht'
      rw [hp] at ht₀
      cases ht₀
      have : t'.ppid = 1 := by
        rw [hppid₀, hone]
        split <;> rfl
      exact hother (by rw [hyppid₀, hparent, this])
    · exact hidle r s₀ hs₀ (by rw [hspid₀, hspid₁, hyppid₀]) hwait
  · exact h r s₀ hs₀ hwait x ⟨y₀, hy₀, by rw [← hyppid₀, hspid₀, hspid₁], hystate₀⟩

theorem stateOf_exit {status : Int} {saved : Option InterruptInfo} (S : Scheduled device v)
    (hcurr : v.current = some p) (hp : v.tasks p = some t) :
    ((((v.die p status).reparent t.pid).wake w).save? p saved).stateOf p = some .zombie := by
  have hdie : ((v.die p status).reparent t.pid).stateOf p = some .zombie :=
    stateOf_reparent.trans (stateOf_modify_self hp)
  have hwake : (((v.die p status).reparent t.pid).wake w).stateOf p = some .zombie := by
    have hnot : p ∉ ((v.die p status).reparent t.pid).waiting w := S.current_notMem hcurr
    rw [stateOf, wake_tasks_of_notMem hnot]
    exact hdie
  cases saved with
  | none => exact hwake
  | some frame =>
    rw [save?, save, stateOf_modify]
    · exact hwake
    · exact fun _ => rfl

/-- The process waits for the processor, with the given context. -/
def Suspended (v : TaskView) (p : Nat) (context : InterruptInfo) : Prop :=
  p ∈ v.runnable ∧ ∃ t, v.tasks p = some t ∧ t.context = context

variable {context : InterruptInfo}

theorem Suspended.modify {f : Task → Task} (h : v.Suspended p context) (hq : q ≠ p) :
    (v.modify q f).Suspended p context := by
  obtain ⟨hrun, t, ht, hcontext⟩ := h
  exact ⟨hrun, t, (modify_of_ne hq.symm).trans ht, hcontext⟩

theorem Suspended.wake (h : v.Suspended p context) : (v.wake w).Suspended p context := by
  obtain ⟨hrun, t, ht, hcontext⟩ := h
  refine ⟨List.mem_append.mpr (.inl hrun), ?_⟩
  simp only [TaskView.wake]
  split
  · exact ⟨{ t with state := .ready }, by rw [ht, Option.map_some], hcontext⟩
  · exact ⟨t, ht, hcontext⟩

theorem Suspended.reparent {pid : Nat} (h : v.Suspended p context) :
    (v.reparent pid).Suspended p context := by
  obtain ⟨hrun, t, ht, hcontext⟩ := h
  refine ⟨hrun, _, congrArg (Option.map _) ht, ?_⟩
  dsimp only
  split <;> exact hcontext

/-- Until it is chosen, a runnable process stays runnable and keeps its context. -/
theorem Act.suspended {entry : Entry} (h : Act entry v v') (S : Scheduled device v)
    (hp : v.Suspended p context) : v'.Suspended p context := by
  have hother : ∀ {q}, v.current = some q → q ≠ p := fun hcurr heq =>
    S.alone _ hcurr (heq ▸ hp.1)
  obtain ⟨t, ht, hready⟩ := stateOf_eq_some.mp ((S.ready p).mp (.inr hp.1))
  cases h with
  | quiet => exact hp
  | fork q _ u _ _ _ _ hq _ _ _ =>
    have hqp : p ≠ q := by
      rintro rfl
      rw [ht] at hq
      cases hq
    obtain ⟨hrun, t, ht, hcontext⟩ := hp
    exact ⟨List.mem_append.mpr (.inl hrun), t, (Function.update_of_ne hqp _ _).trans ht, hcontext⟩
  | reap q _ u _ _ _ _ hu hzombie _ =>
    have hqp : p ≠ q := by
      rintro rfl
      rw [ht] at hu
      cases hu
      exact ProcessState.noConfusion (hready.symm.trans hzombie)
    obtain ⟨hrun, t, ht, hcontext⟩ := hp
    exact ⟨hrun, t, (Function.update_of_ne hqp _ _).trans ht, hcontext⟩
  | wake w => exact hp.wake
  | preempt q hcurr =>
    obtain ⟨hrun, htask⟩ := hp.modify (hother hcurr)
    exact ⟨List.mem_append.mpr (.inl hrun), htask⟩
  | block q w u frame hcurr _ _ =>
    have hq := hother hcurr
    have hblock : (v.block q w).Suspended p context := hp.modify hq
    exact hblock.modify hq
  | exit q r u u' x saved hcurr _ _ _ _ =>
    have hq := hother hcurr
    have hdie : (v.die q entry.exitStatus).Suspended p context := hp.modify hq
    have hwake : (((v.die q entry.exitStatus).reparent u.pid).wake x.waitQueue).Suspended p
        context := hdie.reparent.wake
    cases saved with
    | none => exact hwake
    | some frame => exact hwake.modify hq

end TaskView

end TrazelOs
