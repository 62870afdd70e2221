import TrazelOs.Verify.Deeds
import TrazelOs.Verify.Flat

/-! # Waiting for children

Who reaps a process, and what the wait returns. -/

namespace TrazelOs

variable {μ : Type} {M : MemoryManager μ} {Live : μ → List Nat → Prop} {s s' : System μ}
  {L : List Nat} {v : TaskView} {p n status : Nat} {x y : Pcb} {c c' : Machine μ} {deeds : List Deed}

/-- The process has no children. -/
def Childless (s : System μ) (pid : Nat) : Prop :=
  ∀ i y, s.pcbs (s.gProcessList i) = some y → y.ppid ≠ pid

/-- The status of the child `y` at `q` is stored where the process wants it, and then what the child
held is released. -/
def StatusStored (M : MemoryManager μ) (s : System μ) (status q : Nat) (y : Pcb) (s' : System μ) :
    Prop :=
  ∃ m m₁ m₂ m₃,
    (if status = 0 then m = s.mem
      else M.store s.mem (.user status) (leBytes (ofInt64 y.exitStatus) 4) = .ok m) ∧
    M.vmmDeletePagemap m y.pagemapHhdmPtr = .ok m₁ ∧ M.kfree m₁ y.interruptInfo = .ok m₂ ∧
    M.kfree m₂ y.parentWaitQueue = .ok m₃ ∧ M.kfree m₃ q = .ok s'.mem

/-- How a wait of the process `x` ends, after the given deeds: it returns the pid of a child that has
exited, or that there are no children, or it does not return and only the process itself changes. -/
inductive Waits (M : MemoryManager μ) (deeds : List Deed) (s : System μ) (x : Pcb) (status : Nat) :
    (answer : Option Nat) → System μ → Prop
  | reaps {n : Nat} {y : Pcb} {s' : System μ} : s.pcbs (s.gProcessList n) = some y → y.pid = n →
    y.ppid = x.pid → y.processState = .zombie →
    Family.Lineage deeds n ⟨x.pid, some y.exitStatus⟩ →
    StatusStored M s status (s.gProcessList n) y s' →
    s'.pcbs = Function.update s.pcbs (s.gProcessList n) none →
    s'.gProcessList = Function.update s.gProcessList n 0 → Waits M deeds s x status (some n) s'
  | fails : Childless s x.pid → Waits M deeds s x status (some (2 ^ 64 - 1)) s
  | blocks {s' : System μ} : ¬Childless s x.pid → s'.gProcessList = s.gProcessList →
    s'.pcbs = Function.update s.pcbs s.gCurrTask
      (some { x with processState := .waiting, next := 0 }) → Waits M deeds s x status none s'

theorem reapChild_stored {i : Nat} (hy : s.pcbs (s.gProcessList i) = some y)
    (h : reapChild M s status i = .ok (n, s')) :
    StatusStored M s status (s.gProcessList i) y s' := by
  obtain ⟨z, hz, h⟩ := Exec.bind_eq_ok.mp h
  rw [deref_eq_ok, hy] at hz
  cases hz
  have hreleased : ∀ {m}, (do
      let mem ← M.vmmDeletePagemap m y.pagemapHhdmPtr
      let s₁ ← { s with mem }.kfree M y.interruptInfo
      let s₂ ← s₁.kfree M y.parentWaitQueue
      let s₃ ← s₂.kfree M (s.gProcessList i)
      pure (y.pid, setProcessList s₃ i 0)) = Except.ok (n, s') →
      ∃ m₁ m₂ m₃, M.vmmDeletePagemap m y.pagemapHhdmPtr = .ok m₁ ∧
        M.kfree m₁ y.interruptInfo = .ok m₂ ∧ M.kfree m₂ y.parentWaitQueue = .ok m₃ ∧
        M.kfree m₃ (s.gProcessList i) = .ok s'.mem := by
    intro m h
    obtain ⟨m₁, hdelete, h⟩ := Exec.bind_eq_ok.mp h
    obtain ⟨s₁, hinfo, h⟩ := Exec.bind_eq_ok.mp h
    obtain ⟨m₂, hinfo', rfl⟩ := Objects.kfree_eq_ok.mp hinfo
    obtain ⟨s₂, hqueue, h⟩ := Exec.bind_eq_ok.mp h
    obtain ⟨m₃, hqueue', rfl⟩ := Objects.kfree_eq_ok.mp hqueue
    obtain ⟨s₃, hpcb, h⟩ := Exec.bind_eq_ok.mp h
    obtain ⟨m₄, hpcb', rfl⟩ := Objects.kfree_eq_ok.mp hpcb
    cases h
    exact ⟨m₁, m₂, m₃, hdelete, hinfo', hqueue', hpcb'⟩
  dsimp only at h
  split at h
  · rename_i hnull
    obtain ⟨m, hm, h⟩ := Exec.bind_eq_ok.mp h
    cases hm
    obtain ⟨m₁, m₂, m₃, hrest⟩ := hreleased h
    exact ⟨_, m₁, m₂, m₃, by rw [if_pos hnull], hrest⟩
  · rename_i hnull
    obtain ⟨m, hm, h⟩ := Exec.bind_eq_ok.mp h
    obtain ⟨m₁, m₂, m₃, hrest⟩ := hreleased h
    exact ⟨m, m₁, m₂, m₃, by rw [if_neg hnull]; exact hm, hrest⟩

/-- The queue of a process that runs is empty, so nothing but the process is linked into it. -/
theorem Coherent.enqueue_own (C : Coherent Live s L v) (hcurr : v.current = some p)
    (hx : s.pcbs p = some x) (h : pmWaitqueueEnqueue s x.parentWaitQueue = .ok s') :
    s'.gProcessList = s.gProcessList ∧
      s'.pcbs = Function.update s.pcbs p (some { x with processState := .waiting, next := 0 }) := by
  have hp := C.repr.current p hcurr
  obtain ⟨s₁, hmodify, h⟩ := Exec.bind_eq_ok.mp h
  obtain ⟨y, hy, rfl⟩ := modifyPcb_ok hmodify
  rw [hp, hx] at hy
  cases hy
  obtain ⟨q, hq, h⟩ := Exec.bind_eq_ok.mp h
  rw [deref_eq_ok] at hq
  have hready : x.processState ≠ .waiting := by
    rw [C.processState_current hcurr hx]
    nofun
  have hne : x.parentWaitQueue ≠ 0 := fun hzero =>
    C.objects.null (hzero ▸ C.objects.mem_of_waitQueue hq)
  have hrear : q.queuesRear = 0 := by
    have hholds := C.repr.waiting _ q hq
    rw [C.own_queue hx hready hne] at hholds
    exact hholds.last
  obtain ⟨⟨q', s₂⟩, henqueue, h⟩ := Exec.bind_eq_ok.mp h
  cases h
  obtain ⟨s₃, hunlink, h⟩ := Exec.bind_eq_ok.mp henqueue
  rw [if_pos hrear] at h
  cases h
  obtain ⟨y, hy, rfl⟩ := modifyPcb_ok hunlink
  simp only [System.setPcb, hp, Function.update_self, Option.some.injEq] at hy
  subst hy
  exact ⟨rfl, by simp [System.setPcb, System.setWaitQueue, hp]⟩

theorem Coherent.waits (hM : M.Lawful Live) (C : Coherent Live s L v) (hcurr : v.current = some p)
    (hx : s.pcbs p = some x) (hreplay : Family.origin.replay deeds = some s.family)
    (h : pmWait M s status p = .ok (n, s')) (hy : s'.pcbs p = some y) :
    Waits M deeds s x status (if y.processState = .ready then some n else none) s' := by
  have hready := C.processState_current hcurr hx
  obtain ⟨x', hx', h⟩ := Exec.bind_eq_ok.mp h
  rw [deref_eq_ok, hx] at hx'
  cases hx'
  obtain ⟨r, hscan, h⟩ := Exec.bind_eq_ok.mp h
  cases waitScan_ok hscan with
  | @zombie i z _ hchild hstate =>
    obtain ⟨hi, hz, hppid⟩ := hchild
    have hpid := C.table.pid_of_listed hi hz
    obtain ⟨rfl, hreaped, -, -⟩ := reapChild_ok hM C.objects C.table hz h
    have hne : p ≠ s.gProcessList i := by
      rintro rfl
      rw [hx] at hz
      cases hz
      exact ProcessState.noConfusion (hready.symm.trans hstate)
    rw [hreaped.pcbs, Function.update_of_ne hne, hx] at hy
    cases hy
    rw [if_pos hready, hpid]
    have hkin : s.family i = some ⟨x.pid, some z.exitStatus⟩ := by
      rw [← hpid, System.family_of_pcb C.table hz, Pcb.kin, if_pos hstate, hppid]
    have hone : i ≠ 1 := by
      rintro rfl
      simp [(Family.origin_ordered.replay hreplay).root] at hkin
    exact .reaps hz hpid hppid hstate (Family.lineage_of_replay hreplay hone hkin)
      (reapChild_stored hz h) hreaped.pcbs hreaped.processList
  | @done children _ hchildren =>
    have hchildless : Childless s x.pid ↔ children = false := by
      rw [← Bool.not_eq_true, hchildren, or_iff_right Bool.false_ne_true]
      constructor
      · rintro h ⟨i, -, z, -, hz, hppid⟩
        exact h i z hz hppid
      · intro h i z hz hppid
        obtain ⟨hlt, hchild⟩ := C.childAt hz hppid
        exact h ⟨z.pid, List.mem_range.mpr hlt, z, hchild⟩
    cases children with
    | false =>
      cases h
      rw [hx] at hy
      cases hy
      rw [if_pos hready]
      exact .fails (hchildless.mpr rfl)
    | true =>
      obtain ⟨s₁, henqueue, h⟩ := Exec.bind_eq_ok.mp h
      cases h
      obtain ⟨hlist, hpcbs⟩ := C.enqueue_own hcurr hx henqueue
      rw [hpcbs, Function.update_self] at hy
      cases hy
      rw [if_neg (by simp)]
      refine .blocks (fun h => Bool.noConfusion (hchildless.mp h)) hlist ?_
      rw [hpcbs, C.repr.current p hcurr]

end TrazelOs
