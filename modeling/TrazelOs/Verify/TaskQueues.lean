import Mathlib.Data.List.Perm.Subperm
import TrazelOs.Kernel.Machine
import TrazelOs.Verify.Scheduler

/-! # Any number of queues

All queues are linked through one field of the control blocks. As long as no process is in two of
them, each is a list of its own: `task_enqueue` and `task_dequeue` are the operations of independent
lists, over every run (`taskQueues_fifo`), and `pm_waitqueue_dequeue_all` moves one whole list behind
another. -/

namespace TrazelOs

variable {μ ι : Type} {s s' : System μ}

/-! ## Queues and lists -/

/-- The queues hold the lists. A control block is an object of the kernel, at an address that is not
null. -/
structure HoldLists (s : System μ) (queues : ι → Option TaskQueue) (lists : ι → List Nat) : Prop where
  null : s.pcbs 0 = none
  word : ∀ p, (s.pcbs p).isSome → p < 2 ^ 64
  holds : ∀ i q, queues i = some q → QueueHolds s q (lists i)
  absent : ∀ i, queues i = none → lists i = []
  exist : ∀ i, ∀ p ∈ lists i, (s.pcbs p).isSome
  once : ∀ i j p, p ∈ lists i → p ∈ lists j → i = j

theorem LinksOnly.isSome_pcbs (h : LinksOnly s s') (p : Nat) : (s'.pcbs p).isSome = (s.pcbs p).isSome := by
  obtain ⟨pcbs, rfl, hpcbs⟩ := h
  have := congrArg Option.isSome (hpcbs p)
  rwa [Option.isSome_map, Option.isSome_map] at this

theorem eq_none_of_isSome_eq {a b : Option α} (h : b.isSome = a.isSome) (ha : a = none) : b = none := by
  rw [ha] at h
  exact Option.isNone_iff_eq_none.mp (Option.isSome_eq_false_iff.mp h)

theorem taskEnqueue_returns {q : TaskQueue} {xs : List Nat} {p : Nat} (hq : QueueHolds s q xs)
    (hxs : ∀ y ∈ xs, (s.pcbs y).isSome) (hp : (s.pcbs p).isSome) :
    ∃ q' s', taskEnqueue s q p = .ok (q', s') := by
  obtain ⟨x, hx⟩ := Option.isSome_iff_exists.mp hp
  have hfirst : s.modifyPcb p ({ · with next := 0 }) = .ok (s.setPcb p { x with next := 0 }) := by
    rw [System.modifyPcb, deref_eq_ok.mpr hx, Exec.ok_bind]
    rfl
  unfold taskEnqueue
  rw [hfirst, Exec.ok_bind]
  by_cases hrear : q.queuesRear = 0
  · rw [if_pos hrear]
    exact ⟨_, _, rfl⟩
  · rw [if_neg hrear]
    have hmem : q.queuesRear ∈ xs := hq.rear_mem (mt hq.rear_eq_nil_iff.mpr hrear)
    have hsome : ((s.setPcb p { x with next := 0 }).pcbs q.queuesRear).isSome := by
      rw [(LinksOnly.setPcb hx).isSome_pcbs]
      exact hxs _ hmem
    obtain ⟨y, hy⟩ := Option.isSome_iff_exists.mp hsome
    rw [System.modifyPcb, deref_eq_ok.mpr hy, Exec.ok_bind, Exec.pure_eq_ok, Exec.ok_bind]
    exact ⟨_, _, rfl⟩

theorem taskDequeue_returns {q : TaskQueue} {xs : List Nat} {p : Nat} (hq : QueueHolds s q (p :: xs))
    (hp : (s.pcbs p).isSome) : ∃ q' s', taskDequeue s q = .ok (p, q', s') := by
  obtain ⟨x, hx⟩ := Option.isSome_iff_exists.mp hp
  have hhead : q.queuesHead = p := hq.nodes.1
  unfold taskDequeue
  rw [hhead, deref_eq_ok.mpr hx, Exec.ok_bind]
  exact ⟨_, _, rfl⟩

namespace HoldLists

variable {queues : ι → Option TaskQueue} {lists : ι → List Nat} {i : ι} {q : TaskQueue} {p : Nat}
  {xs : List Nat}

theorem congr (H : HoldLists s queues lists) (hnext : ∀ p, nextTask s'.pcbs p = nextTask s.pcbs p)
    (hsome : ∀ p, (s'.pcbs p).isSome = (s.pcbs p).isSome) : HoldLists s' queues lists where
  null := eq_none_of_isSome_eq (hsome 0) H.null
  word := fun p hp => H.word p (hsome p ▸ hp)
  holds := fun i q hq => (H.holds i q hq).congr fun x _ => hnext x
  absent := H.absent
  exist := fun i p hp => (hsome p).symm ▸ H.exist i p hp
  once := H.once

theorem ne_zero (H : HoldLists s queues lists) (hp : (s.pcbs p).isSome) : p ≠ 0 := by
  rintro rfl
  rw [H.null] at hp
  cases hp

theorem empty_iff (H : HoldLists s queues lists) (hq : queues i = some q) :
    taskQueueEmpty q = true ↔ lists i = [] := by
  rw [taskQueueEmpty, decide_eq_true_iff]
  exact (H.holds i q hq).head_eq_nil_iff

variable [DecidableEq ι]

theorem mem_update {j : ι} : p ∈ Function.update lists i xs j ↔
    (j = i ∧ p ∈ xs) ∨ (j ≠ i ∧ p ∈ lists j) := by
  by_cases hj : j = i
  · subst hj
    rw [Function.update_self]
    exact ⟨fun h => .inl ⟨rfl, h⟩, fun h => h.elim And.right fun h => absurd rfl h.1⟩
  · rw [Function.update_of_ne hj]
    exact ⟨fun h => .inr ⟨hj, h⟩, fun h => h.elim (fun h => absurd h.1 hj) And.right⟩

/-- The list `i` is changed by an operation on its queue, which leaves the other queues alone. -/
theorem update (H : HoldLists s queues lists) {q' : TaskQueue} (hlinks : LinksOnly s s')
    (hxs : QueueHolds s' q' xs)
    (hother : ∀ j q₂, j ≠ i → queues j = some q₂ → QueueHolds s' q₂ (lists j))
    (hmem : ∀ p ∈ xs, (s.pcbs p).isSome ∧ ∀ j, j ≠ i → p ∉ lists j) :
    HoldLists s' (Function.update queues i (some q')) (Function.update lists i xs) := by
  have hsome := hlinks.isSome_pcbs
  constructor
  · exact eq_none_of_isSome_eq (hsome 0) H.null
  · exact fun p hp => H.word p (hsome p ▸ hp)
  · intro j q₂ hq₂
    by_cases hj : j = i
    · subst hj
      rw [Function.update_self] at hq₂ ⊢
      exact Option.some.inj hq₂ ▸ hxs
    · rw [Function.update_of_ne hj] at hq₂ ⊢
      exact hother j q₂ hj hq₂
  · intro j hj
    by_cases hji : j = i
    · rw [hji, Function.update_self] at hj
      cases hj
    · rw [Function.update_of_ne hji] at hj ⊢
      exact H.absent j hj
  · intro j p hp
    rw [hsome p]
    rcases mem_update.mp hp with ⟨-, hp⟩ | ⟨-, hp⟩
    · exact (hmem p hp).1
    · exact H.exist j p hp
  · intro j k p hj hk
    rcases mem_update.mp hj with ⟨hji, hpj⟩ | ⟨hji, hpj⟩ <;>
      rcases mem_update.mp hk with ⟨hki, hpk⟩ | ⟨hki, hpk⟩
    · exact hji.trans hki.symm
    · exact absurd hpk ((hmem p hpj).2 k hki)
    · exact absurd hpj ((hmem p hpk).2 j hji)
    · exact H.once j k p hpj hpk

/-- A process that is in no queue is put behind the list. -/
theorem enqueue (H : HoldLists s queues lists) (hq : queues i = some q) (hp : (s.pcbs p).isSome)
    (hfree : ∀ j, p ∉ lists j) : ∃ q' s', taskEnqueue s q p = .ok (q', s') ∧ LinksOnly s s' ∧
      HoldLists s' (Function.update queues i (some q')) (Function.update lists i (lists i ++ [p])) := by
  have hholds := H.holds i q hq
  obtain ⟨q', s', hrun⟩ := taskEnqueue_returns hholds (H.exist i) hp
  obtain ⟨hpush, hother⟩ := taskEnqueue_ok hrun hholds (hfree i) (H.ne_zero hp)
  have hlinks := taskEnqueue_links hrun
  refine ⟨q', s', hrun, hlinks, H.update hlinks hpush (fun j q₂ hj hq₂ => ?_) fun y hy => ?_⟩
  · exact hother q₂ (lists j) (hfree j) (fun y hy hyi => hj (H.once j i y hy hyi)) (H.holds j q₂ hq₂)
  · rcases List.mem_append.mp hy with hy | hy
    · exact ⟨H.exist i y hy, fun j hj hyj => hj (H.once j i y hyj hy)⟩
    · rw [List.mem_singleton.mp hy]
      exact ⟨hp, fun j _ => hfree j⟩

/-- The first process is taken out of the list. -/
theorem dequeue (H : HoldLists s queues lists) (hq : queues i = some q) (hlist : lists i = p :: xs) :
    ∃ q' s', taskDequeue s q = .ok (p, q', s') ∧ LinksOnly s s' ∧
      HoldLists s' (Function.update queues i (some q')) (Function.update lists i xs) := by
  have hholds := H.holds i q hq
  have hmem : p ∈ lists i := hlist ▸ List.mem_cons_self
  rw [hlist] at hholds
  obtain ⟨q', s', hrun⟩ := taskDequeue_returns hholds (H.exist i p hmem)
  obtain ⟨-, hlinks, hpop, hother⟩ := taskDequeue_ok hrun hholds
  refine ⟨q', s', hrun, hlinks, H.update hlinks hpop (fun j q₂ hj hq₂ => ?_) fun y hy => ?_⟩
  · exact hother q₂ (lists j) (fun hpj => hj (H.once j i p hpj hmem)) (H.holds j q₂ hq₂)
  · have hyi : y ∈ lists i := hlist ▸ List.mem_cons_of_mem _ hy
    exact ⟨H.exist i y hyi, fun j hj hyj => hj (H.once j i y hyj hyi)⟩

end HoldLists

/-! ## Runs -/

/-- A set of queues and the control blocks in them. -/
structure TaskQueues (μ ι : Type) where
  sys : System μ
  queues : ι → Option TaskQueue

def TaskQueues.queueAt (st : TaskQueues μ ι) (i : ι) : Exec TaskQueue :=
  match st.queues i with
  | none => .error .wild
  | some q => .ok q

inductive QueueOp (ι : Type)
  | enqueue (i : ι) (task : Nat)
  | dequeue (i : ι)

namespace QueueOp

def queue : QueueOp ι → ι
  | enqueue i _ => i
  | dequeue i => i

variable [DecidableEq ι]

/-- The operation of the kernel. A dequeue returns the process. -/
def run (st : TaskQueues μ ι) : QueueOp ι → Exec (Option Nat × TaskQueues μ ι)
  | enqueue i task => do
    let q ← st.queueAt i
    let (q, s) ← taskEnqueue st.sys q task
    return (none, ⟨s, Function.update st.queues i (some q)⟩)
  | dequeue i => do
    let q ← st.queueAt i
    let (task, q, s) ← taskDequeue st.sys q
    return (some task, ⟨s, Function.update st.queues i (some q)⟩)

/-- The operation on lists, oldest process first. -/
def fifo (lists : ι → List Nat) : QueueOp ι → Option Nat × (ι → List Nat)
  | enqueue i task => (none, Function.update lists i (lists i ++ [task]))
  | dequeue i => ((lists i).head?, Function.update lists i (lists i).tail)

/-- Only a process that is in no queue is enqueued, and only a queue that is not empty is dequeued. -/
def Allowed (isQueue : ι → Prop) (isPcb : Nat → Prop) (lists : ι → List Nat) : QueueOp ι → Prop
  | enqueue i task => isQueue i ∧ isPcb task ∧ ∀ j, task ∉ lists j
  | dequeue i => lists i ≠ []

def runAll (st : TaskQueues μ ι) : List (QueueOp ι) → Exec (List (Option Nat) × TaskQueues μ ι)
  | [] => .ok ([], st)
  | op :: ops => do
    let (result, st) ← op.run st
    let (results, st) ← runAll st ops
    return (result :: results, st)

def fifoAll (lists : ι → List Nat) : List (QueueOp ι) → List (Option Nat) × (ι → List Nat)
  | [] => ([], lists)
  | op :: ops => ((op.fifo lists).1 :: (fifoAll (op.fifo lists).2 ops).1,
      (fifoAll (op.fifo lists).2 ops).2)

def AllowedAll (isQueue : ι → Prop) (isPcb : Nat → Prop) (lists : ι → List Nat) :
    List (QueueOp ι) → Prop
  | [] => True
  | op :: ops => op.Allowed isQueue isPcb lists ∧ AllowedAll isQueue isPcb (op.fifo lists).2 ops

end QueueOp

section Runs
variable {st st' : TaskQueues μ ι} {lists : ι → List Nat} {isQueue : ι → Prop} {isPcb : Nat → Prop}

theorem TaskQueues.queueAt_eq {i : ι} {q : TaskQueue} (h : st.queues i = some q) :
    st.queueAt i = .ok q := by
  unfold TaskQueues.queueAt
  rw [h]

/-- The queues and control blocks that an operation finds are still there. -/
structure SameObjects (op : QueueOp ι) (st st' : TaskQueues μ ι) : Prop where
  pcbs : ∀ p, (st'.sys.pcbs p).isSome = (st.sys.pcbs p).isSome
  queues : ∀ i, (st.queues i).isSome → (st'.queues i).isSome
  others : ∀ j, op.queue ≠ j → st'.queues j = st.queues j

variable [DecidableEq ι]

theorem sameObjects_update {op : QueueOp ι} {q : TaskQueue} (hlinks : LinksOnly st.sys s) :
    SameObjects op st ⟨s, Function.update st.queues op.queue (some q)⟩ where
  pcbs := hlinks.isSome_pcbs
  queues := by
    intro i hi
    dsimp only
    by_cases heq : i = op.queue
    · rw [heq, Function.update_self]
      rfl
    · rwa [Function.update_of_ne heq]
  others := fun _ hj => Function.update_of_ne (Ne.symm hj) ..

/-- One operation of the kernel is the operation on lists. -/
theorem QueueOp.run_fifo {op : QueueOp ι} (H : HoldLists st.sys st.queues lists)
    (hqueue : ∀ i, isQueue i → (st.queues i).isSome) (hpcb : ∀ p, isPcb p → (st.sys.pcbs p).isSome)
    (h : op.Allowed isQueue isPcb lists) :
    ∃ st', op.run st = .ok ((op.fifo lists).1, st') ∧
      HoldLists st'.sys st'.queues (op.fifo lists).2 ∧ SameObjects op st st' := by
  cases op with
  | enqueue i task =>
    obtain ⟨hi, htask, hfree⟩ := h
    obtain ⟨q, hq⟩ := Option.isSome_iff_exists.mp (hqueue i hi)
    obtain ⟨q', s', hrun, hlinks, H'⟩ := H.enqueue hq (hpcb task htask) hfree
    have hsame : SameObjects (.enqueue i task) st ⟨s', Function.update st.queues i (some q')⟩ :=
      sameObjects_update hlinks
    refine ⟨_, ?_, H', hsame⟩
    rw [QueueOp.run, TaskQueues.queueAt_eq hq, Exec.ok_bind, hrun]
    rfl
  | dequeue i =>
    obtain ⟨p, xs, hlist⟩ := List.exists_cons_of_ne_nil h
    obtain ⟨q, hq⟩ : ∃ q, st.queues i = some q := by
      cases hq : st.queues i with
      | none => exact absurd (H.absent i hq) h
      | some q => exact ⟨q, rfl⟩
    obtain ⟨q', s', hrun, hlinks, H'⟩ := H.dequeue hq hlist
    have hsame : SameObjects (.dequeue i) st ⟨s', Function.update st.queues i (some q')⟩ :=
      sameObjects_update hlinks
    refine ⟨_, ?_, ?_, hsame⟩
    · rw [QueueOp.run, QueueOp.fifo, TaskQueues.queueAt_eq hq, Exec.ok_bind, hrun, hlist]
      rfl
    · rw [QueueOp.fifo, hlist]
      exact H'

theorem QueueOp.runAll_fifo {ops : List (QueueOp ι)} (H : HoldLists st.sys st.queues lists)
    (hqueue : ∀ i, isQueue i → (st.queues i).isSome) (hpcb : ∀ p, isPcb p → (st.sys.pcbs p).isSome)
    (h : AllowedAll isQueue isPcb lists ops) :
    ∃ st', runAll st ops = .ok ((fifoAll lists ops).1, st') ∧
      HoldLists st'.sys st'.queues (fifoAll lists ops).2 ∧
      ∀ j, (∀ op ∈ ops, op.queue ≠ j) → st'.queues j = st.queues j := by
  induction ops generalizing st lists with
  | nil => exact ⟨st, rfl, H, fun _ _ => rfl⟩
  | cons op ops ih =>
    obtain ⟨st₁, hrun, H₁, hsame⟩ := op.run_fifo H hqueue hpcb h.1
    obtain ⟨st', hrest, H', hothers⟩ := ih H₁ (fun i hi => hsame.queues i (hqueue i hi))
      (fun p hp => (hsame.pcbs p).symm ▸ hpcb p hp) h.2
    refine ⟨st', ?_, H', fun j hj => ?_⟩
    · unfold runAll
      rw [hrun, Exec.ok_bind]
      dsimp only
      rw [hrest]
      rfl
    · rw [hothers j fun op' hop' => hj op' (.tail _ hop'), hsame.others j (hj op (.head _))]

end Runs

/-! ## Waking a whole queue -/

/-- The queues of the scheduler: the one of the runnable processes, and the wait queues. -/
def System.queue (s : System μ) : Option Nat → Option TaskQueue
  | none => some s.gRunnableTasks
  | some w => s.waitQueues w

theorem System.queue_setWaitQueue {w : Nat} {q : TaskQueue} :
    (s.setWaitQueue w q).queue = Function.update s.queue (some w) (some q) := by
  funext i
  cases i with
  | none => rfl
  | some w' =>
    by_cases hw : w' = w
    · subst hw
      rw [Function.update_self]
      exact Function.update_self w' (some q) s.waitQueues
    · rw [Function.update_of_ne fun heq => hw (Option.some.inj heq)]
      exact Function.update_of_ne hw (some q) s.waitQueues

theorem System.queue_setRunnable {q : TaskQueue} :
    ({ s with gRunnableTasks := q } : System μ).queue = Function.update s.queue none (some q) := by
  funext i
  cases i with
  | none => rw [Function.update_self]; rfl
  | some w => rw [Function.update_of_ne (Option.some_ne_none w)]; rfl

theorem LinksOnly.queue_eq (h : LinksOnly s s') : s'.queue = s.queue := by
  obtain ⟨pcbs, rfl, -⟩ := h
  rfl

section Wake
variable {lists : Option Nat → List Nat} {w p : Nat} {q : TaskQueue} {xs : List Nat}

/-- The lists when the first process of a wait queue has been woken. -/
def wokenFirst (lists : Option Nat → List Nat) (w p : Nat) (xs : List Nat) : Option Nat → List Nat :=
  Function.update (Function.update lists (some w) xs) none (lists none ++ [p])

theorem modifyPcb_state (hp : (s.pcbs p).isSome) (state : ProcessState) :
    ∃ s', s.modifyPcb p ({ · with processState := state }) = .ok s' ∧ s'.queue = s.queue ∧
      (∀ y, nextTask s'.pcbs y = nextTask s.pcbs y) ∧ ∀ y, (s'.pcbs y).isSome = (s.pcbs y).isSome := by
  obtain ⟨x, hx⟩ := Option.isSome_iff_exists.mp hp
  refine ⟨s.setPcb p { x with processState := state }, ?_, ?_, fun y => ?_, fun y => ?_⟩
  · rw [System.modifyPcb, deref_eq_ok.mpr hx, Exec.ok_bind]
    rfl
  · funext i
    cases i <;> rfl
  · by_cases hy : y = p
    · subst hy
      simp [System.setPcb, nextTask, hx]
    · simp [System.setPcb, nextTask_update, hy]
  · by_cases hy : y = p
    · subst hy
      simp [System.setPcb, hx]
    · simp [System.setPcb, hy]

theorem HoldLists.wakeFirst (H : HoldLists s s.queue lists) (hq : s.waitQueues w = some q)
    (hlist : lists (some w) = p :: xs) : ∃ s', TrazelOs.wakeFirst s w q = .ok s' ∧
      HoldLists s' s'.queue (wokenFirst lists w p xs) ∧ (s'.waitQueues w).isSome ∧
      ∀ w', w' ≠ w → s'.waitQueues w' = s.waitQueues w' := by
  have hmem : p ∈ lists (some w) := hlist ▸ List.mem_cons_self
  obtain ⟨hp, -⟩ := List.nodup_cons.mp (hlist ▸ (H.holds (some w) q hq).nodup)
  obtain ⟨q₁, s₁, hdequeue, hlinks, H₁⟩ := H.dequeue (i := some w) hq hlist
  have hqueue₁ : (s₁.setWaitQueue w q₁).queue = Function.update s.queue (some w) (some q₁) := by
    rw [System.queue_setWaitQueue, hlinks.queue_eq]
  have hpcb : ((s₁.setWaitQueue w q₁).pcbs p).isSome :=
    (hlinks.isSome_pcbs p).symm ▸ H.exist (some w) p hmem
  obtain ⟨s₂, hmodify, hqueue₂, hnext₂, hsome₂⟩ := modifyPcb_state hpcb .ready
  have H₂ : HoldLists s₂ s₂.queue (Function.update lists (some w) xs) := by
    rw [hqueue₂, hqueue₁]
    exact H₁.congr hnext₂ hsome₂
  have hfree (j : Option Nat) : p ∉ Function.update lists (some w) xs j := by
    intro hpj
    rcases HoldLists.mem_update.mp hpj with ⟨-, hpxs⟩ | ⟨hj, hpj⟩
    · exact hp hpxs
    · exact hj (H.once j (some w) p hpj hmem)
  obtain ⟨q₃, s₃, henqueue, hlinks₃, H₃⟩ := H₂.enqueue (i := none) rfl ((hsome₂ p).symm ▸ hpcb) hfree
  have hqueue₃ : ({ s₃ with gRunnableTasks := q₃ } : System μ).queue =
      Function.update (Function.update s.queue (some w) (some q₁)) none (some q₃) := by
    rw [System.queue_setRunnable, hlinks₃.queue_eq, hqueue₂, hqueue₁]
  refine ⟨{ s₃ with gRunnableTasks := q₃ }, ?_, ?_, ?_, fun w' hw' => ?_⟩
  · unfold TrazelOs.wakeFirst
    rw [hdequeue, Exec.ok_bind]
    dsimp only
    rw [hmodify, Exec.ok_bind, henqueue]
    rfl
  · rw [hqueue₃, ← hqueue₁, ← hqueue₂, wokenFirst]
    rw [Function.update_of_ne (Option.some_ne_none w).symm] at H₃
    exact H₃.congr (fun _ => rfl) fun _ => rfl
  · have hself := congrFun hqueue₃ (some w)
    rw [Function.update_of_ne (Option.some_ne_none w), Function.update_self] at hself
    exact Option.isSome_iff_exists.mpr ⟨q₁, hself⟩
  · have hother := congrFun hqueue₃ (some w')
    rwa [Function.update_of_ne (Option.some_ne_none w'),
      Function.update_of_ne fun heq => hw' (Option.some.inj heq)] at hother

/-- The lists when all processes of a wait queue have been woken. -/
def wokenAll (lists : Option Nat → List Nat) (w : Nat) : Option Nat → List Nat :=
  Function.update (Function.update lists (some w) []) none (lists none ++ lists (some w))

theorem wokenAll_nil (h : lists (some w) = []) : wokenAll lists w = lists := by
  unfold wokenAll
  rw [h, List.append_nil, ← h, Function.update_eq_self, Function.update_eq_self]

theorem wokenAll_wokenFirst (h : lists (some w) = p :: xs) :
    wokenAll (wokenFirst lists w p xs) w = wokenAll lists w := by
  have hne : some w ≠ none := Option.some_ne_none w
  unfold wokenAll wokenFirst
  rw [Function.update_self, Function.update_of_ne hne, Function.update_self, h, List.append_assoc,
    List.singleton_append, Function.update_comm hne.symm, Function.update_idem, Function.update_idem]

theorem HoldLists.dequeueAll_loop {turns : Nat} (H : HoldLists s s.queue lists)
    (hw : (s.waitQueues w).isSome) (hturns : (lists (some w)).length < turns) :
    ∃ s', pmWaitqueueDequeueAll.loop w turns s = .ok s' ∧ HoldLists s' s'.queue (wokenAll lists w) ∧
      ∀ w', w' ≠ w → s'.waitQueues w' = s.waitQueues w' := by
  induction turns generalizing s lists with
  | zero => exact absurd hturns (Nat.not_lt_zero _)
  | succ turns ih =>
    obtain ⟨q, hq⟩ := Option.isSome_iff_exists.mp hw
    rw [pmWaitqueueDequeueAll.loop, deref_eq_ok.mpr hq, Exec.ok_bind]
    cases hlist : lists (some w) with
    | nil =>
      have hhead : q.queuesHead = 0 := (H.holds (some w) q hq).head_eq_nil_iff.mpr hlist
      rw [if_pos hhead, wokenAll_nil hlist]
      exact ⟨s, rfl, H, fun _ _ => rfl⟩
    | cons p xs =>
      have hhead : q.queuesHead ≠ 0 := fun hzero =>
        List.cons_ne_nil p xs (hlist ▸ (H.holds (some w) q hq).head_eq_nil_iff.mp hzero)
      obtain ⟨s₁, hwake, H₁, hw₁, hothers₁⟩ := H.wakeFirst hq hlist
      have hlength : (wokenFirst lists w p xs (some w)).length < turns := by
        rw [wokenFirst, Function.update_of_ne (Option.some_ne_none w), Function.update_self]
        rw [hlist] at hturns
        exact Nat.lt_of_succ_lt_succ hturns
      obtain ⟨s', hloop, H', hothers⟩ := ih H₁ hw₁ hlength
      rw [if_neg hhead, hwake, Exec.ok_bind]
      rw [wokenAll_wokenFirst hlist] at H'
      exact ⟨s', hloop, H', fun w' hw' => (hothers w' hw').trans (hothers₁ w' hw')⟩

/-- There are fewer processes than addresses. -/
theorem HoldLists.length_lt {queues : ι → Option TaskQueue} {lists : ι → List Nat} {i : ι}
    (H : HoldLists s queues lists) (hq : queues i = some q) : (lists i).length < 2 ^ 64 := by
  have hnodup : (0 :: lists i).Nodup :=
    List.nodup_cons.mpr ⟨fun hzero => H.ne_zero (H.exist i 0 hzero) rfl, (H.holds i q hq).nodup⟩
  have hsubset : 0 :: lists i ⊆ List.range (2 ^ 64) := by
    intro p hp
    rcases List.mem_cons.mp hp with rfl | hp
    · exact List.mem_range.mpr (by decide)
    · exact List.mem_range.mpr (H.word p (H.exist i p hp))
  have hle := (hnodup.subperm hsubset).length_le
  rwa [List.length_range] at hle

theorem HoldLists.pmWaitqueueDequeueAll (H : HoldLists s s.queue lists)
    (hw : (s.waitQueues w).isSome) :
    ∃ s', TrazelOs.pmWaitqueueDequeueAll s w = .ok s' ∧ HoldLists s' s'.queue (wokenAll lists w) ∧
      ∀ w', w' ≠ w → s'.waitQueues w' = s.waitQueues w' := by
  obtain ⟨q, hq⟩ := Option.isSome_iff_exists.mp hw
  exact H.dequeueAll_loop hw (H.length_lt (i := some w) hq)

end Wake

/-- Any run of the operations on any set of queues is the run on independent lists, and waking a wait
queue puts its whole list behind the runnable processes. -/
theorem taskQueues_fifo (μ ι : Type) [DecidableEq ι] :
    (∀ (st : TaskQueues μ ι) (lists : ι → List Nat) (ops : List (QueueOp ι)),
      HoldLists st.sys st.queues lists →
      QueueOp.AllowedAll (fun i => (st.queues i).isSome) (fun p => (st.sys.pcbs p).isSome) lists ops →
      ∃ st', QueueOp.runAll st ops = .ok ((QueueOp.fifoAll lists ops).1, st') ∧
        HoldLists st'.sys st'.queues (QueueOp.fifoAll lists ops).2 ∧
        (∀ i q, st'.queues i = some q →
          (taskQueueEmpty q = true ↔ (QueueOp.fifoAll lists ops).2 i = [])) ∧
        ∀ j, (∀ op ∈ ops, op.queue ≠ j) → st'.queues j = st.queues j) ∧
    ∀ (s : System μ) (lists : Option Nat → List Nat) (w : Nat), HoldLists s s.queue lists →
      (s.waitQueues w).isSome →
      ∃ s', pmWaitqueueDequeueAll s w = .ok s' ∧
        HoldLists s' s'.queue (Function.update (Function.update lists (some w) []) none
          (lists none ++ lists (some w))) ∧
        ∀ w', w' ≠ w → s'.waitQueues w' = s.waitQueues w' := by
  refine ⟨fun st lists ops H hops => ?_, fun s lists w H hw => H.pmWaitqueueDequeueAll hw⟩
  obtain ⟨st', hrun, H', hothers⟩ := QueueOp.runAll_fifo H (fun _ hi => hi) (fun _ hp => hp) hops
  exact ⟨st', hrun, H', fun i q hq => H'.empty_iff hq, hothers⟩

/-- A process in no queue. -/
def idleProcess : Pcb where
  pid := 1
  ppid := 0
  exitStatus := 0
  killSignal := false
  processState := .ready
  parentWaitQueue := 0
  pagemapHhdmPtr := 0
  processHeapPtr := 0
  interruptInfo := 0
  fds := fun _ => 0
  next := 0

/-- Two empty queues and two processes. -/
def twoQueues : TaskQueues Unit Bool where
  sys := ((bootSystem () 0x3000 ⟨0, 0⟩).setPcb 0x1000 idleProcess).setPcb 0x2000 idleProcess
  queues := fun _ => some ⟨0, 0⟩

theorem twoQueues_pcbs {p : Nat} : (twoQueues.sys.pcbs p).isSome = true ↔ p = 0x1000 ∨ p = 0x2000 := by
  simp only [twoQueues, System.setPcb, bootSystem, Function.update_apply]
  split
  · simp [*]
  · split <;> simp [*]

theorem twoQueues_holdLists : HoldLists twoQueues.sys twoQueues.queues fun _ => [] where
  null := by rfl
  word := by
    intro p hp
    rcases twoQueues_pcbs.mp hp with rfl | rfl <;> decide
  holds := by
    rintro i _ ⟨⟩
    exact Theory.Fifo.empty
  absent := fun _ _ => rfl
  exist := fun _ _ hp => absurd hp List.not_mem_nil
  once := fun _ _ _ hp => absurd hp List.not_mem_nil

/-- The first of two processes in one queue is the first one out of it. -/
theorem taskQueues_fifo_twoQueues : ∃ st', QueueOp.runAll twoQueues
    [.enqueue true 0x1000, .enqueue true 0x2000, .dequeue true] = .ok ([none, none, some 0x1000], st') := by
  have hops : QueueOp.AllowedAll (fun i => (twoQueues.queues i).isSome)
      (fun p => (twoQueues.sys.pcbs p).isSome) (fun _ => [])
      [.enqueue true 0x1000, .enqueue true 0x2000, .dequeue true] := by
    exact ⟨⟨rfl, twoQueues_pcbs.mpr (.inl rfl), by decide⟩,
      ⟨rfl, twoQueues_pcbs.mpr (.inr rfl), by decide⟩, List.cons_ne_nil 0x1000 [0x2000], trivial⟩
  obtain ⟨st', hrun, -⟩ := (taskQueues_fifo Unit Bool).1 _ _ _ twoQueues_holdLists hops
  exact ⟨st', hrun⟩

end TrazelOs
