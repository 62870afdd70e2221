import TrazelOs.Theory.Fifo
import TrazelOs.Verify.Files
import TrazelOs.Verify.Tasks

/-! # The queues of the scheduler

`Represents` relates the control blocks and the queues of the kernel to a `TaskView`, and each
function of `scheduler.c` is the operation of the view. All queues share the link of the control
blocks, so that an operation on one queue keeps the others only because no process is in two. -/

namespace TrazelOs

variable {μ : Type}

/-- The link of the control block at `p`. -/
def nextTask (pcbs : Nat → Option Pcb) (p : Nat) : Nat := ((pcbs p).map Pcb.next).getD 0

/-- The queue has the processes `xs`, and is well formed. -/
def QueueHolds (s : System μ) (q : TaskQueue) (xs : List Nat) : Prop :=
  Theory.Fifo (nextTask s.pcbs) 0 q.queuesHead q.queuesRear xs

/-- What the scheduler sees of a control block, with the saved context. -/
def Pcb.task (x : Pcb) (context : InterruptInfo) : Task :=
  ⟨x.pid, x.ppid, x.processState, x.parentWaitQueue, x.exitStatus, context⟩

/-- The process at `p`. -/
def System.task (s : System μ) (p : Nat) : Option Task :=
  (s.pcbs p).bind fun x => (s.infos x.interruptInfo).map x.task

/-- The processes are the entries of `g_process_list`; each has a context and a wait queue of its
own. -/
structure ProcessTable (s : System μ) : Prop where
  listed : ∀ p x, s.pcbs p = some x → 1 ≤ x.pid ∧ x.pid < maxPids ∧ s.gProcessList x.pid = p
  table : ∀ i, s.gProcessList i ≠ 0 → ∃ x, s.pcbs (s.gProcessList i) = some x ∧ x.pid = i
  info : ∀ p x, s.pcbs p = some x → (s.infos x.interruptInfo).isSome
  infoOnce : ∀ p q x y, s.pcbs p = some x → s.pcbs q = some y →
    x.interruptInfo = y.interruptInfo → p = q
  queue : ∀ p x, s.pcbs p = some x → x.parentWaitQueue ≠ 0 →
    (s.waitQueues x.parentWaitQueue).isSome
  queueOnce : ∀ p q x y, s.pcbs p = some x → s.pcbs q = some y → x.parentWaitQueue ≠ 0 →
    x.parentWaitQueue = y.parentWaitQueue → p = q
  device : (s.waitQueues s.keyboard.deviceWaitQueue).isSome
  deviceOnce : ∀ p x, s.pcbs p = some x → x.parentWaitQueue ≠ s.keyboard.deviceWaitQueue

/-- The kernel's queues are those of the view. -/
structure Represents (s : System μ) (v : TaskView) : Prop where
  tasks : v.tasks = s.task
  current : ∀ p, v.current = some p → s.gCurrTask = p
  runnable : QueueHolds s s.gRunnableTasks v.runnable
  waiting : ∀ w q, s.waitQueues w = some q → QueueHolds s q (v.waiting w)
  unqueued : ∀ w, s.waitQueues w = none → v.waiting w = []

/-- The state of the process manager: its objects, its table, and its processes in their queues. -/
structure Coherent (Live : μ → List Nat → Prop) (s : System μ) (L : List Nat) (v : TaskView) :
    Prop where
  objects : Objects Live s L
  table : ProcessTable s
  repr : Represents s v
  scheduled : Scheduled s.keyboard.deviceWaitQueue v

section
variable {M : MemoryManager μ} {Live : μ → List Nat → Prop} {s s' : System μ} {L : List Nat}
  {v : TaskView} {p w : Nat} {x : Pcb}

theorem System.task_of_pcb {context : InterruptInfo} (h : s.pcbs p = some x)
    (hinfo : s.infos x.interruptInfo = some context) : s.task p =
      some (x.task context) := by
  rw [System.task, h, Option.bind_some, hinfo, Option.map_some]

theorem System.task_eq_some {t : Task} (h : s.task p = some t) : ∃ x, s.pcbs p = some x ∧
    s.infos x.interruptInfo = some t.context ∧ t = x.task t.context := by
  obtain ⟨x, hx, h⟩ := Option.bind_eq_some_iff.mp h
  obtain ⟨context, hcontext, rfl⟩ := Option.map_eq_some_iff.mp h
  exact ⟨x, hx, hcontext, rfl⟩

theorem ProcessTable.exists_task (T : ProcessTable s) (h : s.pcbs p = some x) :
    ∃ context, s.infos x.interruptInfo = some context ∧
      s.task p = some (x.task context) := by
  obtain ⟨context, hcontext⟩ := Option.isSome_iff_exists.mp (T.info p x h)
  exact ⟨context, hcontext, System.task_of_pcb h hcontext⟩

theorem ProcessTable.pid_of_listed {i : Nat} (T : ProcessTable s) (hi : s.gProcessList i ≠ 0)
    (hx : s.pcbs (s.gProcessList i) = some x) : x.pid = i := by
  obtain ⟨y, hy, hpid⟩ := T.table i hi
  cases hx.symm.trans hy
  exact hpid

/-! ## Changes of links -/

/-- The control block without its link. -/
def Pcb.unlinked (x : Pcb) : Pcb := { x with next := 0 }

/-- Only links changed. -/
def LinksOnly (s s' : System μ) : Prop :=
  ∃ pcbs, s' = { s with pcbs } ∧ ∀ p, (pcbs p).map Pcb.unlinked = (s.pcbs p).map Pcb.unlinked

theorem LinksOnly.trans {s₁ s₂ s₃ : System μ} (h : LinksOnly s₁ s₂) (h' : LinksOnly s₂ s₃) :
    LinksOnly s₁ s₃ := by
  obtain ⟨_, rfl, h⟩ := h
  obtain ⟨pcbs, rfl, h'⟩ := h'
  exact ⟨pcbs, rfl, fun p => (h' p).trans (h p)⟩

theorem LinksOnly.setPcb {n : Nat} (h : s.pcbs p = some x) :
    LinksOnly s (s.setPcb p { x with next := n }) := by
  refine ⟨_, rfl, fun q => ?_⟩
  by_cases hq : q = p
  · subst hq
    rw [Function.update_self, h]
    rfl
  · rw [Function.update_of_ne hq]

theorem LinksOnly.pcb {x' : Pcb} (h : LinksOnly s s') (hx : s'.pcbs p = some x') :
    ∃ x, s.pcbs p = some x ∧ x.unlinked = x'.unlinked := by
  obtain ⟨pcbs, rfl, h⟩ := h
  replace hx : pcbs p = some x' := hx
  have := h p
  rw [hx, Option.map_some, eq_comm, Option.map_eq_some_iff] at this
  exact this

theorem LinksOnly.objects (h : LinksOnly s s') (O : Objects Live s L) : Objects Live s' L := by
  obtain ⟨pcbs, rfl, h⟩ := h
  refine O.congr rfl (fun p => ?_) fun _ _ h => h
  have := congrArg Option.isSome (h p)
  rw [Option.isSome_map, Option.isSome_map] at this
  simp only [kinds, this]

theorem LinksOnly.unclaimed (h : LinksOnly s s') (hu : Unclaimed s p) : Unclaimed s' p := by
  obtain ⟨pcbs, rfl, hpcbs⟩ := h
  obtain ⟨hpcb, hrest⟩ := kinds_eq_zero.mp hu.1
  refine ⟨kinds_eq_zero.mpr ⟨?_, hrest⟩, hu.2⟩
  have hp := hpcbs p
  rw [hpcb, Option.map_none] at hp
  exact Option.map_eq_none_iff.mp hp

theorem LinksOnly.task (h : LinksOnly s s') : s'.task = s.task := by
  obtain ⟨pcbs, rfl, h⟩ := h
  funext p
  have hfun : ∀ o : Option Pcb, (o.bind fun x => (s.infos x.interruptInfo).map x.task) =
      (o.map Pcb.unlinked).bind fun x => (s.infos x.interruptInfo).map x.task := by
    intro o
    cases o <;> rfl
  rw [System.task, System.task, hfun, h, ← hfun]

/-- What the table says of a control block. -/
def Pcb.ids (x : Pcb) : Nat × Nat × Nat := (x.pid, x.interruptInfo, x.parentWaitQueue)

theorem ProcessTable.congr (T : ProcessTable s)
    (hpcbs : ∀ p, (s'.pcbs p).map Pcb.ids = (s.pcbs p).map Pcb.ids)
    (hlist : s'.gProcessList = s.gProcessList)
    (hinfos : ∀ a, (s.infos a).isSome → (s'.infos a).isSome)
    (hqueues : ∀ w, (s.waitQueues w).isSome → (s'.waitQueues w).isSome)
    (hdevice : s'.keyboard.deviceWaitQueue = s.keyboard.deviceWaitQueue) : ProcessTable s' := by
  have hold : ∀ {p x'}, s'.pcbs p = some x' → ∃ x, s.pcbs p = some x ∧ x.pid = x'.pid ∧
      x.interruptInfo = x'.interruptInfo ∧ x.parentWaitQueue = x'.parentWaitQueue := by
    intro p x' hx'
    have := hpcbs p
    rw [hx', Option.map_some, eq_comm, Option.map_eq_some_iff] at this
    obtain ⟨x, hx, hids⟩ := this
    obtain ⟨hpid, hrest⟩ := Prod.mk.inj hids
    exact ⟨x, hx, hpid, Prod.mk.inj hrest⟩
  constructor
  case listed =>
    intro p x' hx'
    obtain ⟨x, hx, hpid, -⟩ := hold hx'
    rw [hlist, ← hpid]
    exact T.listed p x hx
  case table =>
    intro i hi
    rw [hlist] at hi ⊢
    obtain ⟨x, hx, hpid⟩ := T.table i hi
    have := hpcbs (s.gProcessList i)
    rw [hx, Option.map_some, Option.map_eq_some_iff] at this
    obtain ⟨x', hx', hids⟩ := this
    exact ⟨x', hx', (Prod.mk.inj hids).1.trans hpid⟩
  case info =>
    intro p x' hx'
    obtain ⟨x, hx, -, hinfo, -⟩ := hold hx'
    rw [← hinfo]
    exact hinfos _ (T.info p x hx)
  case infoOnce =>
    intro p q x' y' hx' hy' heq
    obtain ⟨x, hx, -, hinfo, -⟩ := hold hx'
    obtain ⟨y, hy, -, hinfo', -⟩ := hold hy'
    exact T.infoOnce p q x y hx hy (by rw [hinfo, hinfo', heq])
  case queue =>
    intro p x' hx' hne
    obtain ⟨x, hx, -, -, hqueue⟩ := hold hx'
    rw [← hqueue] at hne ⊢
    exact hqueues _ (T.queue p x hx hne)
  case queueOnce =>
    intro p q x' y' hx' hy' hne heq
    obtain ⟨x, hx, -, -, hqueue⟩ := hold hx'
    obtain ⟨y, hy, -, -, hqueue'⟩ := hold hy'
    exact T.queueOnce p q x y hx hy (hqueue ▸ hne) (by rw [hqueue, hqueue', heq])
  case device =>
    rw [hdevice]
    exact hqueues _ T.device
  case deviceOnce =>
    intro p x' hx'
    obtain ⟨x, hx, -, -, hqueue⟩ := hold hx'
    rw [hdevice, ← hqueue]
    exact T.deviceOnce p x hx

theorem LinksOnly.table (h : LinksOnly s s') (T : ProcessTable s) : ProcessTable s' := by
  obtain ⟨pcbs, rfl, h⟩ := h
  refine T.congr (fun p => ?_) rfl (fun _ h => h) (fun _ h => h) rfl
  have hfun : ∀ o : Option Pcb, o.map Pcb.ids = (o.map Pcb.unlinked).map Pcb.ids := by
    intro o
    cases o <;> rfl
  rw [hfun, h, ← hfun]

theorem nextTask_update {pcbs : Nat → Option Pcb} {q : Nat} :
    nextTask (Function.update pcbs p (some x)) q = if q = p then x.next else nextTask pcbs q := by
  unfold nextTask
  split
  · rename_i h
    rw [h, Function.update_self]
    rfl
  · rename_i h
    rw [Function.update_of_ne h]

theorem modifyPcb_ok {f : Pcb → Pcb} (h : s.modifyPcb p f = .ok s') :
    ∃ x, s.pcbs p = some x ∧ s' = s.setPcb p (f x) := by
  obtain ⟨x, hx, h⟩ := Exec.bind_eq_ok.mp h
  cases h
  exact ⟨x, deref_eq_ok.mp hx, rfl⟩

/-! ## Enqueue and dequeue -/

theorem taskEnqueue_links {q q' : TaskQueue} (h : taskEnqueue s q p = .ok (q', s')) :
    LinksOnly s s' := by
  obtain ⟨s₁, hmodify, h⟩ := Exec.bind_eq_ok.mp h
  obtain ⟨x, hx, rfl⟩ := modifyPcb_ok hmodify
  split at h
  · cases h
    exact .setPcb hx
  · obtain ⟨s₂, hmodify, h⟩ := Exec.bind_eq_ok.mp h
    obtain ⟨y, hy, rfl⟩ := modifyPcb_ok hmodify
    cases h
    exact (LinksOnly.setPcb hx).trans (.setPcb hy)

theorem taskDequeue_links {q q' : TaskQueue} {p' : Nat} (h : taskDequeue s q = .ok (p', q', s')) :
    LinksOnly s s' := by
  obtain ⟨head, hhead, h⟩ := Exec.bind_eq_ok.mp h
  rw [deref_eq_ok] at hhead
  cases h
  exact .setPcb hhead

theorem schedulerAddTask_links (h : schedulerAddTask s p = .ok s') :
    LinksOnly s { s' with
      gRunnableTasks := s.gRunnableTasks
      gCurrTask := s.gCurrTask
      gFirstTaskAdded := s.gFirstTaskAdded } := by
  obtain ⟨⟨q, s₁⟩, henqueue, h⟩ := Exec.bind_eq_ok.mp h
  obtain ⟨pcbs₁, rfl, hpcbs₁⟩ := taskEnqueue_links henqueue
  dsimp only at h
  split at h
  · obtain ⟨⟨p', q', s₂⟩, hdequeue, h⟩ := Exec.bind_eq_ok.mp h
    obtain ⟨pcbs₂, rfl, hpcbs₂⟩ := taskDequeue_links hdequeue
    cases h
    exact ⟨pcbs₂, rfl, fun p => (hpcbs₂ p).trans (hpcbs₁ p)⟩
  · cases h
    exact ⟨pcbs₁, rfl, hpcbs₁⟩

theorem schedulerAddTask_started (h : schedulerAddTask s p = .ok s') :
    s'.gFirstTaskAdded = false := by
  obtain ⟨⟨q, s₁⟩, -, h⟩ := Exec.bind_eq_ok.mp h
  dsimp only at h
  split at h
  · obtain ⟨⟨p', q', s₂⟩, -, h⟩ := Exec.bind_eq_ok.mp h
    cases h
    rfl
  · rename_i hstarted
    cases h
    simpa using hstarted

theorem taskEnqueue_ok {q q' : TaskQueue} {xs : List Nat} (h : taskEnqueue s q p = .ok (q', s'))
    (hq : QueueHolds s q xs) (hp : p ∉ xs) (hp0 : p ≠ 0) :
    QueueHolds s' q' (xs ++ [p]) ∧ ∀ q₂ ys, p ∉ ys → (∀ y ∈ ys, y ∉ xs) →
      QueueHolds s q₂ ys → QueueHolds s' q₂ ys := by
  obtain ⟨s₁, hmodify, h⟩ := Exec.bind_eq_ok.mp h
  obtain ⟨x, hx, rfl⟩ := modifyPcb_ok hmodify
  by_cases hrear : q.queuesRear = 0
  · rw [if_pos hrear] at h
    cases h
    have hxs : xs = [] := hq.rear_eq_nil_iff.mp hrear
    subst hxs
    refine ⟨?_, fun q₂ ys hpy _ hys => hys.congr fun y hy => ?_⟩
    · exact hq.push hp0 hp (by simp [System.setPcb, nextTask_update]) (fun h => absurd hrear h)
        fun y hy => nomatch hy
    · have hyp : y ≠ p := fun heq => hpy (heq ▸ hy)
      simp [System.setPcb, nextTask_update, hyp]
  · rw [if_neg hrear] at h
    obtain ⟨s₂, hmodify, h⟩ := Exec.bind_eq_ok.mp h
    obtain ⟨y, hy, rfl⟩ := modifyPcb_ok hmodify
    cases h
    have hxs : xs ≠ [] := mt hq.rear_eq_nil_iff.mpr hrear
    have hmem := hq.rear_mem hxs
    have hne : q.queuesRear ≠ p := fun heq => hp (heq ▸ hmem)
    have hnext : ∀ z, z ≠ p → z ≠ q.queuesRear → nextTask
        ((s.setPcb p { x with next := 0 }).setPcb q.queuesRear { y with next := p }).pcbs z =
          nextTask s.pcbs z := by
      intro z hzp hzr
      simp [System.setPcb, nextTask_update, hzp, hzr]
    refine ⟨?_, fun q₂ ys hpy hdisj hys => hys.congr fun z hz => hnext z ?_ ?_⟩
    · have hend : nextTask ((s.setPcb p { x with next := 0 }).setPcb q.queuesRear
          { y with next := p }).pcbs p = 0 := by
        simp [System.setPcb, nextTask_update, hne.symm]
      have hpush := hq.push hp0 hp hend (fun _ => by simp [System.setPcb, nextTask_update])
        fun z hz hzr => hnext z (fun heq => hp (heq ▸ hz)) hzr
      rwa [if_neg hxs] at hpush
    · exact fun heq => hpy (heq ▸ hz)
    · exact fun heq => hdisj z hz (heq ▸ hmem)

theorem taskDequeue_ok {q q' : TaskQueue} {p' : Nat} {xs : List Nat}
    (h : taskDequeue s q = .ok (p', q', s')) (hq : QueueHolds s q (p :: xs)) :
    p' = p ∧ LinksOnly s s' ∧ QueueHolds s' q' xs ∧
      ∀ q₂ ys, p ∉ ys → QueueHolds s q₂ ys → QueueHolds s' q₂ ys := by
  obtain ⟨x, hx, h⟩ := Exec.bind_eq_ok.mp h
  rw [deref_eq_ok] at hx
  have hhead : q.queuesHead = p := hq.nodes.1
  cases h
  obtain ⟨hp, -⟩ := List.nodup_cons.mp hq.nodup
  have hnext : ∀ y, y ≠ p → nextTask (s.setPcb q.queuesHead { x with next := 0 }).pcbs y =
      nextTask s.pcbs y := by
    intro y hy
    rw [← hhead] at hy
    simp [System.setPcb, nextTask_update, hy]
  refine ⟨hhead, .setPcb hx, ?_, fun q₂ ys hpy hys => hys.congr fun y hy =>
    hnext y fun heq => hpy (heq ▸ hy)⟩
  have hpop := (hq.pop fun y hy => hnext y fun heq => hp (heq ▸ hy)).2
  rw [← hhead, nextTask, hx] at hpop
  exact hpop

/-! ## Single changes of the view -/

namespace Represents

theorem congr {v' : TaskView} (R : Represents s v) (htasks : v'.tasks = s'.task)
    (hpcbs : ∀ p, nextTask s'.pcbs p = nextTask s.pcbs p) (hqueues : s'.waitQueues = s.waitQueues)
    (hrunnable : s'.gRunnableTasks = s.gRunnableTasks) (hcurr : s'.gCurrTask = s.gCurrTask)
    (hv : v'.current = v.current ∧ v'.runnable = v.runnable ∧ v'.waiting = v.waiting) :
    Represents s' v' := by
  have hholds : ∀ q xs, QueueHolds s q xs → QueueHolds s' q xs :=
    fun q xs h => h.congr fun x _ => hpcbs x
  refine ⟨htasks, ?_, ?_, ?_, ?_⟩
  · rw [hv.1, hcurr]
    exact R.current
  · rw [hv.2.1, hrunnable]
    exact hholds _ _ R.runnable
  · rw [hv.2.2, hqueues]
    exact fun w q hq => hholds _ _ (R.waiting w q hq)
  · rw [hv.2.2, hqueues]
    exact R.unqueued

theorem setPcb {x' : Pcb} (R : Represents s v) (hx : s.pcbs p = some x)
    (hinfo : x'.interruptInfo = x.interruptInfo) (hnext : x'.next = x.next) :
    Represents (s.setPcb p x') (v.modify p fun t => x'.task t.context) := by
  refine R.congr (funext fun q => ?_) (fun q => ?_) rfl rfl rfl ⟨rfl, rfl, rfl⟩
  · by_cases hq : q = p
    · subst hq
      simp only [TaskView.modify, R.tasks, System.task, System.setPcb, hx, hinfo,
        Function.update_self, Option.bind_some, Option.map_map]
      rfl
    · rw [TaskView.modify_of_ne hq, R.tasks]
      simp [System.task, System.setPcb, hq]
  · rw [System.setPcb, nextTask_update]
    split
    · rename_i h
      rw [h, nextTask, hx, hnext]
      rfl
    · rfl

/-- The fields of a process that `f` changes, and what the view does not see. -/
theorem modifyPcb {x' : Pcb} {f : Task → Task} (R : Represents s v) (hx : s.pcbs p = some x)
    (hinfo : x'.interruptInfo = x.interruptInfo) (hnext : x'.next = x.next)
    (hf : ∀ context, f (x.task context) = x'.task context) :
    Represents (s.setPcb p x') (v.modify p f) := by
  have R' := R.setPcb hx hinfo hnext
  have heq : v.modify p (fun t => x'.task t.context) = v.modify p f := by
    refine TaskView.modify_congr fun t ht => ?_
    rw [R.tasks] at ht
    obtain ⟨y, hy, -, htask⟩ := System.task_eq_some ht
    rw [hx] at hy
    cases hy
    rw [htask, hf]
    rfl
  rwa [heq] at R'

theorem setInfo {frame : InterruptInfo} (R : Represents s v) (T : ProcessTable s)
    (hx : s.pcbs p = some x) : Represents (s.setInfo x.interruptInfo frame) (v.save p frame) := by
  refine R.congr (funext fun q => ?_) (fun _ => rfl) rfl rfl rfl ⟨rfl, rfl, rfl⟩
  obtain ⟨context, hcontext, htask⟩ := T.exists_task hx
  by_cases hq : q = p
  · subst hq
    rw [TaskView.save, TaskView.modify_self ((congrFun R.tasks q).trans htask)]
    simp only [System.task, System.setInfo, hx, Option.bind_some, Function.update_self,
      Option.map_some]
    rfl
  · rw [TaskView.save, TaskView.modify_of_ne hq, R.tasks]
    simp only [System.task, System.setInfo]
    cases hy : s.pcbs q with
    | none => rfl
    | some y =>
      have hne : y.interruptInfo ≠ x.interruptInfo := fun heq => hq (T.infoOnce q p y x hy hx heq)
      rw [Option.bind_some, Option.bind_some, Function.update_of_ne hne]

/-- The process `p`, which is in no queue, becomes runnable. -/
theorem pushRunnable {q : TaskQueue} (R : Represents s v)
    (h : taskEnqueue s s.gRunnableTasks p = .ok (q, s')) (hp0 : p ≠ 0) (hrun : p ∉ v.runnable)
    (hwait : ∀ w, p ∉ v.waiting w) (hapart : ∀ w, ∀ r ∈ v.waiting w, r ∉ v.runnable) :
    LinksOnly s s' ∧ Represents { s' with gRunnableTasks := q }
      { v with runnable := v.runnable ++ [p] } := by
  have hlinks := taskEnqueue_links h
  obtain ⟨hholds, hrest⟩ := taskEnqueue_ok h R.runnable hrun hp0
  refine ⟨hlinks, R.tasks.trans hlinks.task.symm, ?_, hholds, ?_, ?_⟩
  · obtain ⟨_, rfl, -⟩ := hlinks
    exact R.current
  · intro w q hq
    refine hrest q _ (hwait w) (hapart w) (R.waiting w q ?_)
    obtain ⟨_, rfl, -⟩ := hlinks
    exact hq
  · obtain ⟨_, rfl, -⟩ := hlinks
    exact R.unqueued

/-- The process `p`, which is in no queue, is put into the queue `w`. -/
theorem pushWaiting {q q' : TaskQueue} (R : Represents s v) (hw : s.waitQueues w = some q)
    (h : taskEnqueue s q p = .ok (q', s')) (hp0 : p ≠ 0) (hrun : p ∉ v.runnable)
    (hwait : ∀ w, p ∉ v.waiting w) (hapart : ∀ r ∈ v.waiting w, r ∉ v.runnable)
    (honce : ∀ r w', r ∈ v.waiting w → r ∈ v.waiting w' → w' = w) :
    LinksOnly s s' ∧ Represents (s'.setWaitQueue w q')
      { v with waiting := Function.update v.waiting w (v.waiting w ++ [p]) } := by
  have hlinks := taskEnqueue_links h
  obtain ⟨hholds, hrest⟩ := taskEnqueue_ok h (R.waiting w q hw) (hwait w) hp0
  refine ⟨hlinks, R.tasks.trans hlinks.task.symm, ?_, ?_, ?_, ?_⟩
  · obtain ⟨_, rfl, -⟩ := hlinks
    exact R.current
  · refine hrest _ _ hrun (fun r hr hr' => hapart r hr' hr) ?_
    obtain ⟨_, rfl, -⟩ := hlinks
    exact R.runnable
  · intro w' q₂ hq₂
    by_cases hw' : w' = w
    · subst hw'
      obtain rfl : q' = q₂ := by simpa [System.setWaitQueue] using hq₂
      simp only [Function.update_self]
      exact hholds
    · simp only [Function.update_of_ne hw']
      refine hrest q₂ _ (hwait w') (fun r hr hr' => hw' (honce r w' hr' hr)) (R.waiting w' q₂ ?_)
      obtain ⟨_, rfl, -⟩ := hlinks
      simpa [System.setWaitQueue, hw'] using hq₂
  · intro w' hw'
    have hne : w' ≠ w := by
      rintro rfl
      simp [System.setWaitQueue] at hw'
    simp only [Function.update_of_ne hne]
    refine R.unqueued w' ?_
    obtain ⟨_, rfl, -⟩ := hlinks
    simpa [System.setWaitQueue, hne] using hw'

/-- The first process of the queue `w` leaves it. -/
theorem popWaiting {q q' : TaskQueue} {p' : Nat} {ps : List Nat} (R : Represents s v)
    (hw : s.waitQueues w = some q) (hps : v.waiting w = p :: ps)
    (h : taskDequeue s q = .ok (p', q', s')) (hrun : p ∉ v.runnable)
    (honce : ∀ w', p ∈ v.waiting w' → w' = w) :
    p' = p ∧ LinksOnly s s' ∧ Represents (s'.setWaitQueue w q')
      { v with waiting := Function.update v.waiting w ps } := by
  obtain ⟨hp', hlinks, hholds, hrest⟩ := taskDequeue_ok h (hps ▸ R.waiting w q hw)
  refine ⟨hp', hlinks, R.tasks.trans hlinks.task.symm, ?_, ?_, ?_, ?_⟩
  · obtain ⟨_, rfl, -⟩ := hlinks
    exact R.current
  · refine hrest _ _ hrun ?_
    obtain ⟨_, rfl, -⟩ := hlinks
    exact R.runnable
  · intro w' q₂ hq₂
    by_cases hw' : w' = w
    · subst hw'
      obtain rfl : q' = q₂ := by simpa [System.setWaitQueue] using hq₂
      simp only [Function.update_self]
      exact hholds
    · simp only [Function.update_of_ne hw']
      refine hrest q₂ _ (fun h => hw' (honce w' h)) (R.waiting w' q₂ ?_)
      obtain ⟨_, rfl, -⟩ := hlinks
      simpa [System.setWaitQueue, hw'] using hq₂
  · intro w' hw'
    have hne : w' ≠ w := by
      rintro rfl
      simp [System.setWaitQueue] at hw'
    simp only [Function.update_of_ne hne]
    refine R.unqueued w' ?_
    obtain ⟨_, rfl, -⟩ := hlinks
    simpa [System.setWaitQueue, hne] using hw'

/-- The first runnable process becomes the current one. -/
theorem popRunnable {q : TaskQueue} {p' : Nat} {ps : List Nat} (R : Represents s v)
    (hps : v.runnable = p :: ps) (h : taskDequeue s s.gRunnableTasks = .ok (p', q, s'))
    (hwait : ∀ w, p ∉ v.waiting w) :
    p' = p ∧ LinksOnly s s' ∧
      Represents { s' with gRunnableTasks := q, gCurrTask := p } (v.dispatch p ps) := by
  obtain ⟨hp', hlinks, hholds, hrest⟩ := taskDequeue_ok h (hps ▸ R.runnable)
  refine ⟨hp', hlinks, R.tasks.trans hlinks.task.symm, fun r hr => Option.some.inj hr, hholds, ?_, ?_⟩
  · intro w q₂ hq₂
    refine hrest q₂ _ (hwait w) (R.waiting w q₂ ?_)
    obtain ⟨_, rfl, -⟩ := hlinks
    exact hq₂
  · obtain ⟨_, rfl, -⟩ := hlinks
    exact R.unqueued

theorem yield (R : Represents s v) : Represents s { v with current := none } :=
  ⟨R.tasks, fun _ h => (nomatch h), R.runnable, R.waiting, R.unqueued⟩

end Represents

/-! ## The functions of the scheduler -/

/-- The variables of the processor are the same. -/
structure Steady (s s' : System μ) : Prop where
  currTask : s'.gCurrTask = s.gCurrTask
  firstTaskAdded : s'.gFirstTaskAdded = s.gFirstTaskAdded
  cpuIsIdle : s'.gCpuIsIdle = s.gCpuIsIdle
  device : s'.keyboard.deviceWaitQueue = s.keyboard.deviceWaitQueue

theorem Steady.refl : Steady s s := ⟨rfl, rfl, rfl, rfl⟩

theorem Steady.trans {s₁ s₂ s₃ : System μ} (h : Steady s₁ s₂) (h' : Steady s₂ s₃) : Steady s₁ s₃ :=
  ⟨h'.currTask.trans h.currTask, h'.firstTaskAdded.trans h.firstTaskAdded,
    h'.cpuIsIdle.trans h.cpuIsIdle, h'.device.trans h.device⟩

theorem Steady.setPcb : Steady s (s.setPcb p x) := ⟨rfl, rfl, rfl, rfl⟩

theorem Steady.setWaitQueue {q : TaskQueue} : Steady s (s.setWaitQueue w q) := ⟨rfl, rfl, rfl, rfl⟩

theorem LinksOnly.steady (h : LinksOnly s s') : Steady s s' := by
  obtain ⟨_, rfl, -⟩ := h
  exact ⟨rfl, rfl, rfl, rfl⟩

theorem ProcessTable.setPcb {x' : Pcb} (T : ProcessTable s) (hx : s.pcbs p = some x)
    (hids : x'.ids = x.ids) : ProcessTable (s.setPcb p x') := by
  refine T.congr (fun q => ?_) rfl (fun _ h => h) (fun _ h => h) rfl
  by_cases hq : q = p
  · subst hq
    simp [System.setPcb, hx, hids]
  · simp [System.setPcb, hq]

theorem ProcessTable.setWaitQueue {q : TaskQueue} (T : ProcessTable s) :
    ProcessTable (s.setWaitQueue w q) := by
  refine T.congr (fun _ => rfl) rfl (fun _ h => h) (fun w' h => ?_) rfl
  by_cases hw : w' = w
  · subst hw
    simp [System.setWaitQueue]
  · simpa [System.setWaitQueue, hw] using h

theorem ProcessTable.setInfo {a : Nat} {frame : InterruptInfo} (T : ProcessTable s) :
    ProcessTable (s.setInfo a frame) := by
  refine T.congr (fun _ => rfl) rfl (fun b h => ?_) (fun _ h => h) rfl
  by_cases hb : b = a
  · subst hb
    simp [System.setInfo]
  · simpa [System.setInfo, hb] using h

namespace Coherent

theorem pcb_ne_zero (C : Coherent Live s L v) (hx : s.pcbs p = some x) : p ≠ 0 :=
  fun h => C.objects.null (h ▸ C.objects.mem_of_pcb hx)

theorem disjoint (C : Coherent Live s L v) : ∀ w, ∀ r ∈ v.waiting w, r ∉ v.runnable :=
  fun _ _ hr hr' => C.scheduled.apart hr' hr

theorem pcb_of_task {t : Task} (C : Coherent Live s L v) (h : v.tasks p = some t) :
    ∃ x, s.pcbs p = some x ∧ s.infos x.interruptInfo = some t.context ∧ t = x.task t.context :=
  System.task_eq_some ((congrFun C.repr.tasks p).symm.trans h)

theorem task_of_pcb (C : Coherent Live s L v) (h : s.pcbs p = some x) :
    ∃ context, s.infos x.interruptInfo = some context ∧
      v.tasks p = some (x.task context) := by
  rw [C.repr.tasks]
  exact C.table.exists_task h

theorem distinct (C : Coherent Live s L v) : v.Distinct := by
  intro p q t u ht hu hpid
  obtain ⟨x, hx, -, htask⟩ := C.pcb_of_task ht
  obtain ⟨y, hy, -, htask'⟩ := C.pcb_of_task hu
  rw [htask, htask'] at hpid
  rw [← (C.table.listed p x hx).2.2, ← (C.table.listed q y hy).2.2]
  exact congrArg _ hpid

theorem block {t : Task} (C : Coherent Live s L v) (hcurr : v.current = some p)
    (ht : v.tasks p = some t) (hw : w = s.keyboard.deviceWaitQueue ∨ w = t.waitQueue)
    (h : pmWaitqueueEnqueue s w = .ok s') :
    Coherent Live s' L (v.block p w) ∧ Steady s s' := by
  obtain ⟨s₁, hmodify, h⟩ := Exec.bind_eq_ok.mp h
  obtain ⟨x, hx, rfl⟩ := modifyPcb_ok hmodify
  rw [C.repr.current p hcurr] at hx h
  obtain ⟨q, hq, h⟩ := Exec.bind_eq_ok.mp h
  rw [deref_eq_ok] at hq
  obtain ⟨⟨q', s₂⟩, henqueue, h⟩ := Exec.bind_eq_ok.mp h
  cases h
  have hp0 := C.pcb_ne_zero hx
  have R : Represents (s.setPcb p { x with processState := .waiting }) (v.setState p .waiting) :=
    C.repr.modifyPcb hx rfl rfl fun _ => rfl
  have hcurr' : (s.setPcb p { x with processState := .waiting }).gCurrTask = p :=
    C.repr.current p hcurr
  rw [hcurr'] at henqueue
  obtain ⟨hlinks, R'⟩ := R.pushWaiting hq henqueue hp0 (C.scheduled.alone p hcurr)
    (fun w => C.scheduled.current_notMem hcurr) (C.disjoint w)
    (fun r w' h h' => C.scheduled.once r w' w h' h)
  have hsteady : Steady s (s₂.setWaitQueue w q') := .trans .setPcb (.trans hlinks.steady .setWaitQueue)
  refine ⟨⟨?_, ?_, R'.yield, ?_⟩, hsteady⟩
  · have hq₂ : s₂.waitQueues w = some q := by
      obtain ⟨_, rfl, -⟩ := hlinks
      exact hq
    exact (hlinks.objects (C.objects.setPcb hx)).setWaitQueue hq₂
  · exact (hlinks.table (C.table.setPcb hx rfl)).setWaitQueue
  · rw [hsteady.device]
    exact C.scheduled.block hcurr ht hw

theorem wakeFirst {q : TaskQueue} {ps : List Nat} (C : Coherent Live s L v)
    (hq : s.waitQueues w = some q) (hps : v.waiting w = p :: ps)
    (h : TrazelOs.wakeFirst s w q = .ok s') :
    Coherent Live s' L (v.wakeFirst w p ps) ∧ Steady s s' := by
  have hnodup : (p :: ps).Nodup := hps ▸ (C.repr.waiting w q hq).nodup
  have hpw : p ∈ v.waiting w := hps ▸ .head _
  have hrun : p ∉ v.runnable := C.disjoint w p hpw
  have honce : ∀ w', p ∈ v.waiting w' → w' = w := fun w' h => C.scheduled.once p w' w h hpw
  obtain ⟨⟨p', q', s₁⟩, hdequeue, h⟩ := Exec.bind_eq_ok.mp h
  obtain ⟨rfl, hlinks, R⟩ := C.repr.popWaiting hq hps hdequeue hrun honce
  obtain ⟨s₂, hmodify, h⟩ := Exec.bind_eq_ok.mp h
  obtain ⟨x, hx, rfl⟩ := modifyPcb_ok hmodify
  have R₂ : Represents ((s₁.setWaitQueue w q').setPcb p' { x with processState := .ready })
      ({ v with waiting := Function.update v.waiting w ps }.setState p' .ready) :=
    R.modifyPcb hx rfl rfl fun _ => rfl
  obtain ⟨⟨q₃, s₃⟩, henqueue, h⟩ := Exec.bind_eq_ok.mp h
  cases h
  have O₁ : Objects Live (s₁.setWaitQueue w q') L := by
    refine (hlinks.objects C.objects).setWaitQueue (y := q) ?_
    obtain ⟨_, rfl, -⟩ := hlinks
    exact hq
  have hp0 : p' ≠ 0 := fun h => O₁.null (h ▸ O₁.mem_of_pcb hx)
  have hmem : ∀ r w', r ∈ Function.update v.waiting w ps w' → r ∈ v.waiting w' ∧ r ≠ p' := by
    intro r w' hr
    by_cases hw' : w' = w
    · subst hw'
      rw [Function.update_self] at hr
      exact ⟨hps ▸ .tail _ hr, fun h => (List.nodup_cons.mp hnodup).1 (h ▸ hr)⟩
    · rw [Function.update_of_ne hw'] at hr
      exact ⟨hr, fun h => hw' (honce w' (h ▸ hr))⟩
  obtain ⟨hlinks₃, R₃⟩ := R₂.pushRunnable henqueue hp0 hrun (fun w' h => (hmem p' w' h).2 rfl)
    (fun w' r hr => C.disjoint w' r (hmem r w' hr).1)
  have hsteady : Steady s { s₃ with gRunnableTasks := q₃ } :=
    .trans hlinks.steady (.trans .setWaitQueue (.trans .setPcb (.trans hlinks₃.steady
      ⟨rfl, rfl, rfl, rfl⟩)))
  refine ⟨⟨?_, ?_, R₃, ?_⟩, hsteady⟩
  · exact (hlinks₃.objects (O₁.setPcb hx)).congr rfl (fun _ => rfl) fun _ _ h => h
  · exact (hlinks₃.table ((hlinks.table C.table).setWaitQueue.setPcb hx rfl)).congr (fun _ => rfl) rfl
      (fun _ h => h) (fun _ h => h) rfl
  · rw [hsteady.device]
    exact C.scheduled.wakeFirst hps hnodup

theorem wakeLoop {turns : Nat} (C : Coherent Live s L v)
    (h : pmWaitqueueDequeueAll.loop w turns s = .ok s') :
    Coherent Live s' L (v.wake w) ∧ Steady s s' := by
  induction turns generalizing s v with
  | zero => cases h
  | succ turns ih =>
    obtain ⟨q, hq, h⟩ := Exec.bind_eq_ok.mp h
    rw [deref_eq_ok] at hq
    have hholds := C.repr.waiting w q hq
    by_cases hhead : q.queuesHead = 0
    · rw [if_pos hhead] at h
      cases h
      rw [TaskView.wake_of_nil (hholds.head_eq_nil_iff.mp hhead)]
      exact ⟨C, .refl⟩
    · rw [if_neg hhead] at h
      obtain ⟨s₁, hwake, h⟩ := Exec.bind_eq_ok.mp h
      cases hps : v.waiting w with
      | nil => exact absurd (hholds.head_eq_nil_iff.mpr hps) hhead
      | cons p ps =>
        obtain ⟨C₁, hsteady₁⟩ := C.wakeFirst hq hps hwake
        obtain ⟨C', hsteady'⟩ := ih C₁ h
        rw [TaskView.wake_wakeFirst hps (hps ▸ hholds.nodup)] at C'
        exact ⟨C', hsteady₁.trans hsteady'⟩

theorem wake (C : Coherent Live s L v) (h : pmWaitqueueDequeueAll s w = .ok s') :
    Coherent Live s' L (v.wake w) ∧ Steady s s' := C.wakeLoop h

/-- The memory changed, and variables that neither the processes nor the queues depend on. -/
theorem withMem {m : μ} (C : Coherent Live s L v) (h : Live m L) :
    Coherent Live { s with mem := m } L v :=
  ⟨C.objects.withMem h, C.table.congr (fun _ => rfl) rfl (fun _ h => h) (fun _ h => h) rfl,
    C.repr.congr C.repr.tasks (fun _ => rfl) rfl rfl rfl ⟨rfl, rfl, rfl⟩, C.scheduled⟩

/-- The flags and the clock concern no process. -/
theorem setFlags {first idle : Bool} {uptime : Nat} (C : Coherent Live s L v) :
    Coherent Live { s with
      gFirstTaskAdded := first, gCpuIsIdle := idle, gSystemLapicTimerUptimer := uptime } L v :=
  ⟨C.objects.congr rfl (fun _ => rfl) fun _ _ h => h,
    C.table.congr (fun _ => rfl) rfl (fun _ h => h) (fun _ h => h) rfl,
    C.repr.congr C.repr.tasks (fun _ => rfl) rfl rfl rfl ⟨rfl, rfl, rfl⟩, C.scheduled⟩

/-- The first runnable process becomes the current one. -/
theorem dispatch {q : TaskQueue} {p' : Nat} {ps : List Nat} (C : Coherent Live s L v)
    (hcurr : v.current = none) (hps : v.runnable = p :: ps)
    (h : taskDequeue s s.gRunnableTasks = .ok (p', q, s')) :
    p' = p ∧ LinksOnly s s' ∧
      Coherent Live { s' with gRunnableTasks := q, gCurrTask := p } L (v.dispatch p ps) := by
  have hrun : p ∈ v.runnable := hps ▸ .head _
  obtain ⟨rfl, hlinks, R⟩ := C.repr.popRunnable hps h fun w => C.scheduled.apart hrun
  refine ⟨rfl, hlinks, (hlinks.objects C.objects).congr rfl (fun _ => rfl) fun _ _ h => h,
    (hlinks.table C.table).congr (fun _ => rfl) rfl (fun _ h => h) (fun _ h => h) rfl, R, ?_⟩
  have hdevice := hlinks.steady.device
  simp only [hdevice]
  exact C.scheduled.dispatch hcurr hps (hps ▸ C.repr.runnable.nodup)

/-- What `pm_load_next_ready_process` returns: nothing, and the processor is idle, or the context
of the first runnable process. -/
theorem loadNext {info? : Option InterruptInfo} (hM : M.Lawful Live) (C : Coherent Live s L v)
    (hcurr : v.current = none) (h : pmLoadNextReadyProcess M s = .ok (info?, s')) :
    s'.gFirstTaskAdded = s.gFirstTaskAdded ∧
      (info? = none ∧ s'.gCpuIsIdle = true ∧ Coherent Live s' L v ∨
        ∃ p ps t, v.runnable = p :: ps ∧ v.tasks p = some t ∧ info? = some t.context ∧
          s'.gCpuIsIdle = false ∧ Coherent Live s' L (v.dispatch p ps)) := by
  unfold pmLoadNextReadyProcess at h
  split at h
  · cases h
    exact ⟨rfl, .inl ⟨rfl, rfl, C.setFlags⟩⟩
  · rename_i hhead
    obtain ⟨⟨p', q, s₁⟩, hdequeue, h⟩ := Exec.bind_eq_ok.mp h
    cases hps : v.runnable with
    | nil => exact absurd (C.repr.runnable.head_eq_nil_iff.mpr hps) hhead
    | cons p ps =>
      obtain ⟨rfl, hlinks, C'⟩ := C.dispatch hcurr hps hdequeue
      obtain ⟨x, hx, h⟩ := Exec.bind_eq_ok.mp h
      obtain ⟨info, hinfo, h⟩ := Exec.bind_eq_ok.mp h
      cases h
      rw [deref_eq_ok] at hx hinfo
      have htask : v.tasks p' = some (x.task info) := by
        rw [C.repr.tasks, ← hlinks.task]
        exact System.task_of_pcb hx hinfo
      exact ⟨hlinks.steady.firstTaskAdded, .inr ⟨p', ps, _, rfl, htask, rfl, rfl,
        C'.setFlags.withMem (hM.vmmReloadCr3 C'.objects.live)⟩⟩

/-- The context of a process is stored. -/
theorem save {frame : InterruptInfo} (C : Coherent Live s L v) (hx : s.pcbs p = some x)
    (h : s.storeInfo x.interruptInfo frame = .ok s') :
    Coherent Live s' L (v.save p frame) ∧ Steady s s' := by
  obtain ⟨info, hinfo, h⟩ := Exec.bind_eq_ok.mp h
  cases h
  exact ⟨⟨C.objects.setInfo (deref_eq_ok.mp hinfo), C.table.setInfo, C.repr.setInfo C.table hx,
    C.scheduled.save⟩, ⟨rfl, rfl, rfl, rfl⟩⟩

/-- The current process is put at the end of the runnable ones. -/
theorem preempt {q : TaskQueue} (C : Coherent Live s L v) (hcurr : v.current = some p)
    (h : taskEnqueue s s.gRunnableTasks p = .ok (q, s')) :
    Coherent Live { s' with gRunnableTasks := q } L (v.preempt p) ∧
      Steady s { s' with gRunnableTasks := q } := by
  obtain ⟨t, ht, -⟩ := TaskView.stateOf_eq_some.mp ((C.scheduled.ready p).mp (.inl hcurr))
  obtain ⟨x, hx, -⟩ := C.pcb_of_task ht
  obtain ⟨hlinks, R⟩ := C.repr.pushRunnable h (C.pcb_ne_zero hx) (C.scheduled.alone p hcurr)
    (fun w => C.scheduled.current_notMem hcurr) C.disjoint
  have hsteady : Steady s { s' with gRunnableTasks := q } := .trans hlinks.steady ⟨rfl, rfl, rfl, rfl⟩
  refine ⟨⟨(hlinks.objects C.objects).congr rfl (fun _ => rfl) fun _ _ h => h,
    (hlinks.table C.table).congr (fun _ => rfl) rfl (fun _ h => h) (fun _ h => h) rfl, R.yield, ?_⟩,
    hsteady⟩
  rw [hsteady.device]
  exact C.scheduled.preempt hcurr

end Coherent

end

end TrazelOs
