import TrazelOs.Verify.Scheduler

/-! # The process manager keeps its processes in their queues

For each function of `process_manager.c` the operation of the `TaskView`. -/

namespace TrazelOs

variable {μ : Type}

/-- What the view sees of a control block. -/
def Pcb.core (x : Pcb) : Pcb :=
  { x with killSignal := false, pagemapHhdmPtr := 0, processHeapPtr := 0, fds := fun _ => 0 }

/-- Nothing changed that the view sees. -/
structure SameTasks (s s' : System μ) : Prop where
  steady : Steady s s'
  pcbs : ∀ p, (s'.pcbs p).map Pcb.core = (s.pcbs p).map Pcb.core
  waitQueues : s'.waitQueues = s.waitQueues
  infos : s'.infos = s.infos
  processList : s'.gProcessList = s.gProcessList
  runnableTasks : s'.gRunnableTasks = s.gRunnableTasks
  keyboard : s'.keyboard = s.keyboard

section
variable {M : MemoryManager μ} {Live : μ → List Nat → Prop} {s s' : System μ} {L L' : List Nat}
  {v : TaskView} {p w : Nat} {x : Pcb}

namespace SameTasks

theorem refl : SameTasks s s := ⟨.refl, fun _ => rfl, rfl, rfl, rfl, rfl, rfl⟩

theorem trans {s₁ s₂ s₃ : System μ} (h : SameTasks s₁ s₂) (h' : SameTasks s₂ s₃) :
    SameTasks s₁ s₃ :=
  ⟨h.steady.trans h'.steady, fun p => (h'.pcbs p).trans (h.pcbs p),
    h'.waitQueues.trans h.waitQueues, h'.infos.trans h.infos,
    h'.processList.trans h.processList, h'.runnableTasks.trans h.runnableTasks,
    h'.keyboard.trans h.keyboard⟩

theorem setPcb {x' : Pcb} (hx : s.pcbs p = some x) (hcore : x'.core = x.core) :
    SameTasks s (s.setPcb p x') := by
  refine ⟨.setPcb, fun q => ?_, rfl, rfl, rfl, rfl, rfl⟩
  by_cases hq : q = p
  · subst hq
    simp [System.setPcb, hx, hcore]
  · simp [System.setPcb, hq]

end SameTasks

theorem FilesOnly.sameTasks (h : FilesOnly s s') : SameTasks s s' := by
  obtain ⟨_, _, rfl⟩ := h
  exact ⟨⟨rfl, rfl, rfl, rfl⟩, fun _ => rfl, rfl, rfl, rfl, rfl, rfl⟩

theorem MemOnly.sameTasks (h : MemOnly s s') : SameTasks s s' := h.filesOnly.sameTasks

theorem Coherent.sameTasks (C : Coherent Live s L v) (h : SameTasks s s') (O : Objects Live s' L') :
    Coherent Live s' L' v := by
  have hids : ∀ o : Option Pcb, o.map Pcb.ids = (o.map Pcb.core).map Pcb.ids := by
    intro o
    cases o <;> rfl
  have htask : ∀ o : Option Pcb, (o.bind fun x => (s.infos x.interruptInfo).map x.task) =
      (o.map Pcb.core).bind fun x => (s.infos x.interruptInfo).map x.task := by
    intro o
    cases o <;> rfl
  have hnext : ∀ o : Option Pcb, (o.map Pcb.next).getD 0 = ((o.map Pcb.core).map Pcb.next).getD 0 := by
    intro o
    cases o <;> rfl
  refine ⟨O, C.table.congr (fun p => ?_) h.processList ?_ ?_ h.steady.device,
    C.repr.congr (C.repr.tasks.trans (funext fun p => ?_)) (fun p => ?_) h.waitQueues
      h.runnableTasks h.steady.currTask ⟨rfl, rfl, rfl⟩, ?_⟩
  · exact (hids _).trans ((congrArg _ (h.pcbs p)).trans (hids _).symm)
  · rw [h.infos]
    exact fun _ h => h
  · rw [h.waitQueues]
    exact fun _ h => h
  · rw [System.task, System.task, h.infos, htask (s'.pcbs p), h.pcbs, htask]
  · rw [nextTask, nextTask, hnext (s'.pcbs p), h.pcbs, hnext (s.pcbs p)]
  · rw [h.steady.device]
    exact C.scheduled

/-! ## Exit -/

theorem Coherent.withRing {ringBuffer : RingBuffer} (C : Coherent Live s L v) :
    Coherent Live { s with keyboard := { s.keyboard with ringBuffer } } L v :=
  ⟨C.objects.congr rfl (fun _ => rfl) fun _ _ h => h,
    C.table.congr (fun _ => rfl) rfl (fun _ h => h) (fun _ h => h) rfl,
    C.repr.congr C.repr.tasks (fun _ => rfl) rfl rfl rfl ⟨rfl, rfl, rfl⟩, C.scheduled⟩

theorem closeFds_ok (hM : M.Lawful Live) (O : Objects Live s L) (h : closeFds M s p = .ok s') :
    ∃ L', Objects Live s' L' ∧ SameTasks s s' := by
  refine Exec.foldlM_ok (p := fun s₁ => ∃ L₁, Objects Live s₁ L₁ ∧ SameTasks s s₁)
    (fun s₁ i s₂ _ ⟨L₁, O₁, h₁⟩ h => ?_) ⟨L, O, .refl⟩ h
  obtain ⟨x, hx, h⟩ := Exec.bind_eq_ok.mp h
  split at h
  · cases h
    exact ⟨L₁, O₁, h₁⟩
  · rename_i hfd
    obtain ⟨⟨n, s₃⟩, hclose, h⟩ := Exec.bind_eq_ok.mp h
    obtain ⟨y, hy, rfl⟩ := modifyPcb_ok h
    obtain ⟨-, file, -, L₃, hclosed⟩ := vfsClose_ok hM O₁ hfd hclose
    exact ⟨L₃, hclosed.objects.setPcb hy,
      h₁.trans (hclosed.frame.sameTasks.trans (.setPcb hy rfl))⟩

def Pcb.reparent (x : Pcb) (pid : Nat) : Pcb := if x.ppid = pid then { x with ppid := 1 } else x

/-- The children of `pid` are children of 1. -/
def System.reparented (s : System μ) (pid : Nat) : System μ :=
  { s with pcbs := fun p => (s.pcbs p).map (·.reparent pid) }

/-- The loop over the table reaches every process, at its pid. -/
theorem reparentChildren_eq {pid : Nat} (T : ProcessTable s) (hnull : s.pcbs 0 = none)
    (h : reparentChildren s pid = .ok s') : s' = s.reparented pid := by
  unfold reparentChildren at h
  have hloop : ∃ pcbs, s' = { s with pcbs } ∧ ∀ q, (s.pcbs q = none → pcbs q = none) ∧
      ∀ y, s.pcbs q = some y → pcbs q = some (if y.pid < maxPids then y.reparent pid else y) := by
    refine Exec.foldlM_range_ok (n := maxPids) (p := fun k s₁ => ∃ pcbs, s₁ = { s with pcbs } ∧
      ∀ q, (s.pcbs q = none → pcbs q = none) ∧
        ∀ y, s.pcbs q = some y → pcbs q = some (if y.pid < k then y.reparent pid else y))
      (fun k s₁ s₂ _ ⟨pcbs, hs₁, hpcbs⟩ h => ?_)
      ⟨s.pcbs, rfl, fun q => ⟨id, fun y hy => by rw [hy, if_neg (Nat.not_lt_zero _)]⟩⟩ h
    subst hs₁
    have hother : ∀ {q y}, s.pcbs q = some y → q ≠ s.gProcessList k →
        pcbs q = some (if y.pid < k + 1 then y.reparent pid else y) := by
      intro q y hy hq
      have hne : y.pid ≠ k := by
        rintro rfl
        exact hq (T.listed q y hy).2.2.symm
      have hlt : y.pid < k + 1 ↔ y.pid < k := by omega
      rw [(hpcbs q).2 y hy]
      simp only [hlt]
    split at h
    · rename_i hzero
      cases h
      refine ⟨pcbs, rfl, fun q => ⟨(hpcbs q).1, fun y hy => hother hy ?_⟩⟩
      rintro rfl
      rw [hzero, hnull] at hy
      cases hy
    · rename_i hlist
      obtain ⟨x, hx, hpid⟩ := T.table k hlist
      obtain ⟨child, hchild, h⟩ := Exec.bind_eq_ok.mp h
      rw [deref_eq_ok] at hchild
      have hsame := (hpcbs _).2 x hx
      rw [if_neg (by omega)] at hsame
      cases hchild.symm.trans hsame
      have hself : ∀ {y}, s.pcbs (s.gProcessList k) = some y → y = x := by
        intro y hy
        rw [hx] at hy
        exact (Option.some.inj hy).symm
      split at h
      · rename_i hppid
        cases h
        refine ⟨pcbs, rfl, fun q => ⟨(hpcbs q).1, fun y hy => ?_⟩⟩
        by_cases hq : q = s.gProcessList k
        · subst hq
          cases hself hy
          rw [hsame, if_pos (by omega), Pcb.reparent, if_neg hppid]
        · exact hother hy hq
      · rename_i hppid
        cases h
        refine ⟨_, rfl, fun q => ⟨fun hy => ?_, fun y hy => ?_⟩⟩
        · have hq : q ≠ s.gProcessList k := by
            rintro rfl
            rw [hx] at hy
            cases hy
          exact (Function.update_of_ne hq _ _).trans ((hpcbs q).1 hy)
        · by_cases hq : q = s.gProcessList k
          · subst hq
            cases hself hy
            rw [Function.update_self, if_pos (by omega), Pcb.reparent,
              if_pos (not_not.mp hppid)]
          · exact (Function.update_of_ne hq _ _).trans (hother hy hq)
  obtain ⟨pcbs, rfl, hpcbs⟩ := hloop
  refine congrArg (fun pcbs => { s with pcbs }) (funext fun q => ?_)
  cases hy : s.pcbs q with
  | none => exact (hpcbs q).1 hy
  | some y => rw [(hpcbs q).2 y hy, if_pos (T.listed q y hy).2.1, Option.map_some]

theorem Coherent.pcb_null (C : Coherent Live s L v) : s.pcbs 0 = none := by
  cases h : s.pcbs 0 with
  | none => rfl
  | some x => exact absurd rfl (C.pcb_ne_zero h)

theorem Coherent.reparent {pid : Nat} (C : Coherent Live s L v)
    (h : reparentChildren s pid = .ok s') :
    Coherent Live s' L (v.reparent pid) ∧ Steady s s' := by
  rw [reparentChildren_eq C.table C.pcb_null h]
  have hids : ∀ x : Pcb, (x.reparent pid).ids = x.ids := by
    intro x
    unfold Pcb.reparent
    split <;> rfl
  refine ⟨⟨C.objects.congr rfl (fun p => ?_) fun _ _ h => h,
    C.table.congr (fun p => ?_) rfl (fun _ h => h) (fun _ h => h) rfl,
    C.repr.congr (funext fun p => ?_) (fun p => ?_) rfl rfl rfl ⟨rfl, rfl, rfl⟩,
    C.scheduled.reparent⟩, ⟨rfl, rfl, rfl, rfl⟩⟩
  · simp only [kinds, System.reparented, Option.isSome_map]
  · simp only [System.reparented, Option.map_map, Function.comp_def, hids]
  · simp only [TaskView.reparent, C.repr.tasks, System.task, System.reparented]
    cases s.pcbs p with
    | none => rfl
    | some x =>
      rw [Option.bind_some, Option.map_some, Option.bind_some, (Prod.mk.inj (Prod.mk.inj (hids x)).2).1]
      cases s.infos x.interruptInfo with
      | none => rfl
      | some context =>
        simp only [Option.map_some, Pcb.reparent, Pcb.task]
        split <;> rfl
  · simp only [nextTask, System.reparented]
    cases s.pcbs p with
    | none => rfl
    | some x =>
      simp only [Option.map_some, Pcb.reparent]
      split <;> rfl

/-- The process `p` exits, and the queue of its parent `q` is woken. -/
theorem Coherent.exit {status : Int} (hM : M.Lawful Live) (C : Coherent Live s L v)
    (hcurr : v.current = some p) (h : pmExit M s status p = .ok s') :
    ∃ L' q t t' u, v.tasks p = some t ∧ ((v.die p status).reparent t.pid).tasks p = some t' ∧
      ((v.die p status).reparent t.pid).tasks q = some u ∧ u.pid = t'.ppid ∧
      Coherent Live s' L' (((v.die p status).reparent t.pid).wake u.waitQueue) ∧ Steady s s' := by
  obtain ⟨s₁, hmodify, h⟩ := Exec.bind_eq_ok.mp h
  obtain ⟨x, hx, rfl⟩ := modifyPcb_ok hmodify
  obtain ⟨context, hcontext, ht⟩ := C.task_of_pcb hx
  have R₁ : Represents (s.setPcb p { x with exitStatus := status, processState := .zombie })
      (v.modify p ({ · with state := .zombie, exitStatus := status })) :=
    C.repr.modifyPcb hx rfl rfl fun _ => rfl
  have C₁ : Coherent Live (s.setPcb p { x with exitStatus := status, processState := .zombie }) L
      (v.die p status) :=
    ⟨C.objects.setPcb hx, C.table.setPcb hx rfl, R₁.yield, C.scheduled.die hcurr⟩
  obtain ⟨s₂, hclose, h⟩ := Exec.bind_eq_ok.mp h
  obtain ⟨L₂, O₂, hsame⟩ := closeFds_ok hM C₁.objects hclose
  have C₂ := C₁.sameTasks hsame O₂
  obtain ⟨x₂, hx₂, h⟩ := Exec.bind_eq_ok.mp h
  have hpid : x₂.pid = x.pid := by
    obtain ⟨context₂, -, ht₂⟩ := C₂.task_of_pcb (deref_eq_ok.mp hx₂)
    exact congrArg Task.pid (Option.some.inj (ht₂.symm.trans (TaskView.modify_self ht)))
  obtain ⟨s₃, hreparent, h⟩ := Exec.bind_eq_ok.mp h
  rw [hpid] at hreparent
  obtain ⟨C₃, hsteady₃⟩ := C₂.reparent hreparent
  obtain ⟨x₃, hx₃, h⟩ := Exec.bind_eq_ok.mp h
  obtain ⟨context₃, -, ht₃⟩ := C₃.task_of_pcb (deref_eq_ok.mp hx₃)
  obtain ⟨q, hq, h⟩ := Exec.bind_eq_ok.mp h
  obtain ⟨_, hassert, h⟩ := Exec.bind_eq_ok.mp h
  obtain ⟨y, hy, h⟩ := Exec.bind_eq_ok.mp h
  rw [deref_eq_ok] at hy
  obtain ⟨contextY, -, hu⟩ := C₃.task_of_pcb hy
  have hqlist : s₃.gProcessList x₃.ppid = q := by
    unfold processList at hq
    split at hq
    · exact Except.ok.inj hq
    · cases hq
  have hypid : y.pid = x₃.ppid := by
    obtain ⟨z, hz, hzpid⟩ := C₃.table.table x₃.ppid (hqlist.trans_ne (kernelAssert_eq_ok.mp hassert))
    rw [hqlist, hy] at hz
    cases hz
    exact hzpid
  obtain ⟨C₄, hsteady₄⟩ := C₃.wake h
  exact ⟨L₂, q, _, _, _, ht, ht₃, hu, hypid, C₄,
    .trans .setPcb (hsame.steady.trans (hsteady₃.trans hsteady₄))⟩

/-! ## Wait -/

/-- The state without the process `c` of the table entry `i`, its context and its queue. -/
structure Reaped (s : System μ) (i c : Nat) (x : Pcb) (s' : System μ) : Prop where
  pcbs : s'.pcbs = Function.update s.pcbs c none
  infos : s'.infos = Function.update s.infos x.interruptInfo none
  waitQueues : s'.waitQueues = Function.update s.waitQueues x.parentWaitQueue none
  processList : s'.gProcessList = Function.update s.gProcessList i 0
  runnableTasks : s'.gRunnableTasks = s.gRunnableTasks
  files : s'.files = s.files
  keyboard : s'.keyboard = s.keyboard
  steady : Steady s s'

theorem reapChild_ok {status i n : Nat} (hM : M.Lawful Live) (O : Objects Live s L)
    (T : ProcessTable s) (hx : s.pcbs (s.gProcessList i) = some x)
    (h : reapChild M s status i = .ok (n, s')) :
    n = x.pid ∧ Reaped s i (s.gProcessList i) x s' ∧ x.parentWaitQueue ≠ 0 ∧
      ∃ L', Objects Live s' L' := by
  obtain ⟨y, hy, h⟩ := Exec.bind_eq_ok.mp h
  rw [deref_eq_ok, hx] at hy
  cases hy
  have hmem : ∀ {m}, Live m L → (do
      let mem ← M.vmmDeletePagemap m x.pagemapHhdmPtr
      let s₁ ← { s with mem }.kfree M x.interruptInfo
      let s₂ ← s₁.kfree M x.parentWaitQueue
      let s₃ ← s₂.kfree M (s.gProcessList i)
      pure (x.pid, setProcessList s₃ i 0)) = Except.ok (n, s') →
      n = x.pid ∧ Reaped s i (s.gProcessList i) x s' ∧ x.parentWaitQueue ≠ 0 ∧
      ∃ L', Objects Live s' L' := by
    intro m hlive h
    obtain ⟨m₁, hdelete, h⟩ := Exec.bind_eq_ok.mp h
    have O₁ := O.withMem (hM.vmmDeletePagemap hlive hdelete)
    obtain ⟨info, hinfo⟩ := Option.isSome_iff_exists.mp (T.info _ x hx)
    obtain ⟨s₂, hfree, h⟩ := Exec.bind_eq_ok.mp h
    obtain ⟨O₂, m₂, rfl⟩ := O₁.kfree_info hM hinfo hfree
    obtain ⟨s₃, hfree, h⟩ := Exec.bind_eq_ok.mp h
    have hne : x.parentWaitQueue ≠ 0 := by
      intro hzero
      rw [hzero] at hfree
      obtain ⟨m, hfree, -⟩ := Objects.kfree_eq_ok.mp hfree
      exact hM.kfreeNull hfree
    obtain ⟨q, hq⟩ := Option.isSome_iff_exists.mp (T.queue _ x hx hne)
    obtain ⟨O₃, m₃, rfl⟩ := O₂.kfree_waitQueue hM hq hfree
    obtain ⟨s₄, hfree, h⟩ := Exec.bind_eq_ok.mp h
    obtain ⟨O₄, m₄, rfl⟩ := O₃.kfree_pcb hM hx hfree
    cases h
    exact ⟨rfl, ⟨rfl, rfl, rfl, rfl, rfl, rfl, rfl, ⟨rfl, rfl, rfl, rfl⟩⟩, hne, _,
      O₄.congr rfl (fun _ => rfl) fun _ _ h => h⟩
  dsimp only at h
  split at h
  · obtain ⟨m, hm, h⟩ := Exec.bind_eq_ok.mp h
    cases hm
    exact hmem O.live h
  · obtain ⟨m, hm, h⟩ := Exec.bind_eq_ok.mp h
    exact hmem (hM.store O.live hm) h

theorem ProcessTable.reap {i c : Nat} (T : ProcessTable s) (hx : s.pcbs c = some x)
    (hpid : x.pid = i) (h : Reaped s i c x s') : ProcessTable s' := by
  have hlist : s.gProcessList i = c := hpid ▸ (T.listed c x hx).2.2
  have hold : ∀ {p y}, s'.pcbs p = some y → p ≠ c ∧ s.pcbs p = some y := by
    intro p y hy
    rw [h.pcbs] at hy
    by_cases hp : p = c
    · subst hp
      simp at hy
    · exact ⟨hp, (Function.update_of_ne hp _ _).symm.trans hy⟩
  constructor
  case listed =>
    intro p y hy
    obtain ⟨hp, hy⟩ := hold hy
    obtain ⟨hpos, hlt, hplist⟩ := T.listed p y hy
    refine ⟨hpos, hlt, ?_⟩
    have hne : y.pid ≠ i := fun heq => hp (by rw [← hplist, heq, hlist])
    rw [h.processList, Function.update_of_ne hne, hplist]
  case table =>
    intro j hj
    rw [h.processList] at hj ⊢
    have hne : j ≠ i := by
      rintro rfl
      exact hj (Function.update_self ..)
    rw [Function.update_of_ne hne] at hj ⊢
    obtain ⟨y, hy, hypid⟩ := T.table j hj
    have hc : s.gProcessList j ≠ c := by
      intro heq
      rw [heq, hx] at hy
      cases hy
      exact hne (hypid.symm.trans hpid)
    exact ⟨y, by rw [h.pcbs, Function.update_of_ne hc, hy], hypid⟩
  case info =>
    intro p y hy
    obtain ⟨hp, hy⟩ := hold hy
    have hne : y.interruptInfo ≠ x.interruptInfo := fun heq => hp (T.infoOnce p c y x hy hx heq)
    rw [h.infos, Function.update_of_ne hne]
    exact T.info p y hy
  case infoOnce => exact fun p q y z hy hz => T.infoOnce p q y z (hold hy).2 (hold hz).2
  case queue =>
    intro p y hy hne
    obtain ⟨hp, hy⟩ := hold hy
    have hqueue : y.parentWaitQueue ≠ x.parentWaitQueue :=
      fun heq => hp (T.queueOnce p c y x hy hx hne heq)
    rw [h.waitQueues, Function.update_of_ne hqueue]
    exact T.queue p y hy hne
  case queueOnce => exact fun p q y z hy hz => T.queueOnce p q y z (hold hy).2 (hold hz).2
  case device =>
    rw [h.steady.device, h.waitQueues, Function.update_of_ne (T.deviceOnce c x hx).symm]
    exact T.device
  case deviceOnce =>
    intro p y hy
    rw [h.steady.device]
    exact T.deviceOnce p y (hold hy).2

/-- A zombie waits nowhere, and nobody else waits in its queue. -/
theorem Coherent.own_queue (C : Coherent Live s L v) (hx : s.pcbs p = some x)
    (hstate : x.processState ≠ .waiting) (hne : x.parentWaitQueue ≠ 0) :
    v.waiting x.parentWaitQueue = [] := by
  obtain ⟨context, -, ht⟩ := C.task_of_pcb hx
  refine List.eq_nil_iff_forall_not_mem.mpr fun r hr => ?_
  obtain ⟨u, hu, hwaiting⟩ := TaskView.stateOf_eq_some.mp ((C.scheduled.waiting r).mp ⟨_, hr⟩)
  obtain ⟨y, hy, -, htask⟩ := C.pcb_of_task hu
  rcases C.scheduled.own r _ u hr hu with hdevice | hown
  · exact C.table.deviceOnce p x hx hdevice
  · have hqueue : u.waitQueue = y.parentWaitQueue := by rw [htask]; rfl
    have hrp := C.table.queueOnce p r x y hx hy hne (hown.trans hqueue)
    subst hrp
    rw [ht] at hu
    cases hu
    exact hstate hwaiting

theorem Coherent.reap {i : Nat} (C : Coherent Live s L v) (hx : s.pcbs p = some x)
    (hpid : x.pid = i) (hstate : x.processState = .zombie) (hne : x.parentWaitQueue ≠ 0)
    (h : Reaped s i p x s') (O : Objects Live s' L') :
    Coherent Live s' L' (v.reap p) := by
  obtain ⟨context, -, ht⟩ := C.task_of_pcb hx
  have hzombie : v.stateOf p = some .zombie := TaskView.stateOf_eq_some.mpr ⟨_, ht, hstate⟩
  have hrun : p ∉ v.runnable := C.scheduled.notMem_runnable (by simp [hzombie])
  have hwait : ∀ w, p ∉ v.waiting w := fun w => C.scheduled.notMem_waiting (by simp [hzombie])
  have hempty := C.own_queue hx (by rw [hstate]; nofun) hne
  have hholds : ∀ q xs, p ∉ xs → QueueHolds s q xs → QueueHolds s' q xs := by
    intro q xs hp hq
    refine hq.congr fun y hy => ?_
    have hyp : y ≠ p := fun heq => hp (heq ▸ hy)
    rw [nextTask, nextTask, h.pcbs, Function.update_of_ne hyp]
  refine ⟨O, C.table.reap hx hpid h, ⟨funext fun q => ?_, ?_, ?_, fun w q hq => ?_,
    fun w hw => ?_⟩, ?_⟩
  · by_cases hq : q = p
    · subst hq
      simp [TaskView.reap, System.task, h.pcbs]
    · simp only [TaskView.reap, System.task, h.pcbs, h.infos, Function.update_of_ne hq,
        C.repr.tasks]
      cases hy : s.pcbs q with
      | none => rfl
      | some y =>
        have hinfo : y.interruptInfo ≠ x.interruptInfo :=
          fun heq => hq (C.table.infoOnce q p y x hy hx heq)
        simp only [Option.bind_some, Function.update_of_ne hinfo]
  · rw [h.steady.currTask]
    exact C.repr.current
  · rw [h.runnableTasks]
    exact hholds _ _ hrun C.repr.runnable
  · rw [h.waitQueues] at hq
    have hw : w ≠ x.parentWaitQueue := by
      rintro rfl
      simp at hq
    rw [Function.update_of_ne hw] at hq
    exact hholds _ _ (hwait w) (C.repr.waiting w q hq)
  · by_cases hwx : w = x.parentWaitQueue
    · rw [hwx]
      exact hempty
    · rw [h.waitQueues, Function.update_of_ne hwx] at hw
      exact C.repr.unqueued w hw
  · rw [h.steady.device]
    exact C.scheduled.reap hzombie

/-- The entry `i` of the table is the child `x` of the process with the given pid. -/
def ChildAt (s : System μ) (pid i : Nat) (x : Pcb) : Prop :=
  s.gProcessList i ≠ 0 ∧ s.pcbs (s.gProcessList i) = some x ∧ x.ppid = pid

/-- Where the loop of `pm_wait` ends: at a zombie child, or, when there is none, at the end with
whether there are children. -/
inductive ScanEnd (s : System μ) (pid : Nat) (indices : List Nat) (seen : Bool) : WaitScan → Prop
  | zombie {i : Nat} {x : Pcb} : i ∈ indices → ChildAt s pid i x → x.processState = .zombie →
    ScanEnd s pid indices seen (.zombie i)
  | done {children : Bool} : (∀ i ∈ indices, ∀ x, ChildAt s pid i x → x.processState ≠ .zombie) →
    (children = true ↔ seen = true ∨ ∃ i ∈ indices, ∃ x, ChildAt s pid i x) →
    ScanEnd s pid indices seen (.done children)

/-- An entry that is no child is passed over. -/
private theorem ScanEnd.pass {pid i : Nat} {indices : List Nat} {seen : Bool} {r : WaitScan}
    (h : ScanEnd s pid indices seen r) (hi : ∀ x, ¬ChildAt s pid i x) :
    ScanEnd s pid (i :: indices) seen r := by
  cases h with
  | zombie hj hchild hstate => exact .zombie (.tail _ hj) hchild hstate
  | done hnone hseen =>
    refine .done (fun j hj x hx => ?_) (hseen.trans ?_)
    · rcases List.mem_cons.mp hj with rfl | hj
      · exact absurd hx (hi x)
      · exact hnone j hj x hx
    · simp [hi]

/-- A child that has not exited is noted. -/
private theorem ScanEnd.note {pid i : Nat} {indices : List Nat} {seen : Bool} {r : WaitScan}
    (h : ScanEnd s pid indices true r) (hi : ChildAt s pid i x) (hstate : x.processState ≠ .zombie) :
    ScanEnd s pid (i :: indices) seen r := by
  cases h with
  | zombie hj hchild hstate => exact .zombie (.tail _ hj) hchild hstate
  | done hnone hseen =>
    refine .done (fun j hj y hy => ?_) ?_
    · rcases List.mem_cons.mp hj with rfl | hj
      · have heq := hi.2.1.symm.trans hy.2.1
        cases heq
        exact hstate
      · exact hnone j hj y hy
    · exact iff_of_true (hseen.mpr (.inl rfl)) (.inr ⟨i, .head _, x, hi⟩)

theorem waitScan_ok {pid : Nat} {indices : List Nat} {seen : Bool} {r : WaitScan}
    (h : waitScan s pid indices seen = .ok r) : ScanEnd s pid indices seen r := by
  induction indices generalizing seen with
  | nil =>
    cases h
    exact .done (by simp) (by simp)
  | cons i indices ih =>
    unfold waitScan at h
    split at h
    · rename_i hzero
      exact (ih h).pass fun x hx => hx.1 hzero
    · rename_i hne
      obtain ⟨x, hx, h⟩ := Exec.bind_eq_ok.mp h
      rw [deref_eq_ok] at hx
      split at h
      · rename_i hppid
        refine (ih h).pass fun y hy => hppid ?_
        have heq := hx.symm.trans hy.2.1
        cases heq
        exact hy.2.2
      · rename_i hppid
        have hchild : ChildAt s pid i x := ⟨hne, hx, not_not.mp hppid⟩
        split at h
        · rename_i hstate
          exact (ih h).note hchild hstate
        · rename_i hstate
          cases h
          exact .zombie (.head _) hchild (not_not.mp hstate)

/-- A process is at its place in the table. -/
theorem Coherent.childAt {pid : Nat} (C : Coherent Live s L v) (hx : s.pcbs p = some x)
    (hppid : x.ppid = pid) : x.pid < maxPids ∧ ChildAt s pid x.pid x := by
  obtain ⟨-, hlt, hlist⟩ := C.table.listed p x hx
  exact ⟨hlt, hlist ▸ C.pcb_ne_zero hx, hlist ▸ hx, hppid⟩

/-- What `pm_wait` does for the process `t`: it reaps a child that exited, it fails when there is no
child, or the process waits. -/
inductive Waited (Live : μ → List Nat → Prop) (v : TaskView) (p : Nat) (t : Task) (s : System μ) :
    Nat → System μ → Prop
  | reap {q : Nat} {u : Task} {s' : System μ} {L' : List Nat} : v.tasks q = some u →
    u.state = .zombie → u.ppid = t.pid → Coherent Live s' L' (v.reap q) →
    Waited Live v p t s u.pid s'
  | fail : (∀ q u, v.tasks q = some u → u.ppid ≠ t.pid) → Waited Live v p t s (2 ^ 64 - 1) s
  | block {s' : System μ} {L' : List Nat} : (∀ q, ¬v.ZombieChild t q) →
    (∃ q u, v.tasks q = some u ∧ u.ppid = t.pid) → Coherent Live s' L' (v.block p t.waitQueue) →
    Waited Live v p t s 0 s'

theorem Coherent.wait {status n : Nat} (hM : M.Lawful Live) (C : Coherent Live s L v)
    (hcurr : v.current = some p) (h : pmWait M s status p = .ok (n, s')) :
    Steady s s' ∧ ∃ t, v.tasks p = some t ∧ Waited Live v p t s n s' := by
  obtain ⟨x, hx, h⟩ := Exec.bind_eq_ok.mp h
  rw [deref_eq_ok] at hx
  obtain ⟨context, -, ht⟩ := C.task_of_pcb hx
  obtain ⟨r, hscan, h⟩ := Exec.bind_eq_ok.mp h
  cases waitScan_ok hscan with
  | zombie _ hchild hstate =>
    obtain ⟨hi, hy, hppid⟩ := hchild
    obtain ⟨hn, hreaped, hne, L', O'⟩ := reapChild_ok hM C.objects C.table hy h
    obtain ⟨_, -, hu⟩ := C.task_of_pcb hy
    subst hn
    exact ⟨hreaped.steady, _, ht, .reap hu hstate hppid
      (C.reap hy (C.table.pid_of_listed hi hy) hstate hne hreaped O')⟩
  | done hnone hchildren =>
    split at h
    · rename_i heq
      cases heq
    · rename_i heq
      cases heq
      cases h
      refine ⟨.refl, _, ht, .fail fun q u hu hppid => ?_⟩
      obtain ⟨y, hy, -, htask⟩ := C.pcb_of_task hu
      rw [htask] at hppid
      obtain ⟨hlt, hchild⟩ := C.childAt hy hppid
      exact Bool.false_ne_true (hchildren.mpr (.inr ⟨_, List.mem_range.mpr hlt, y, hchild⟩))
    · rename_i heq
      cases heq
      obtain ⟨s₁, henqueue, h⟩ := Exec.bind_eq_ok.mp h
      cases h
      obtain ⟨C', hsteady⟩ := C.block hcurr ht (.inr rfl) henqueue
      refine ⟨hsteady, _, ht, .block ?_ ?_ C'⟩
      · rintro q ⟨u, hu, hppid, hstate⟩
        obtain ⟨y, hy, -, htask⟩ := C.pcb_of_task hu
        rw [htask] at hppid hstate
        obtain ⟨hlt, hchild⟩ := C.childAt hy hppid
        exact hnone y.pid (List.mem_range.mpr hlt) y hchild hstate
      · obtain ⟨i, -, y, -, hy, hppid⟩ := (hchildren.mp rfl).resolve_left Bool.false_ne_true
        obtain ⟨_, -, hu⟩ := C.task_of_pcb hy
        exact ⟨_, _, hu, hppid⟩

/-! ## Fork -/

theorem generatePid_ok {pid : Nat} (h : generatePid s = .ok pid) :
    1 ≤ pid ∧ pid < maxPids ∧ s.gProcessList pid = 0 := by
  unfold generatePid at h
  split at h
  · rename_i i hfind
    cases h
    have hmem := List.mem_of_find?_eq_some hfind
    rw [List.mem_range'_1] at hmem
    refine ⟨hmem.1, ?_, by simpa using List.find?_some hfind⟩
    unfold maxPids at hmem ⊢
    omega
  · cases h

theorem shareFds_ok {fds : Fin maxProcessFds → Nat} (O : Objects Live s L)
    (h : shareFds s fds = .ok s') : Objects Live s' L ∧ FilesOnly s s' ∧ SameContents s s' := by
  refine Exec.foldlM_ok (p := fun s₁ => Objects Live s₁ L ∧ FilesOnly s s₁ ∧ SameContents s s₁)
    (fun s₁ i s₂ _ ⟨O₁, h₁, hcontents⟩ h => ?_) ⟨O, .refl s, .of_eq rfl⟩ h
  split at h
  · cases h
    exact ⟨O₁, h₁, hcontents⟩
  · obtain ⟨file, hfile, h⟩ := Exec.bind_eq_ok.mp h
    cases h
    rw [deref_eq_ok] at hfile
    exact ⟨O₁.setFile hfile rfl rfl, h₁.trans .setFile, hcontents.trans (.setFile hfile rfl)⟩

theorem pmCreateWaitQueue_ok (hM : M.Lawful Live) (O : Objects Live s L)
    (h : pmCreateWaitQueue M s = .ok (w, s')) :
    w = 0 ∧ MemOnly s s' ∧ Objects Live s' L ∨
      w ≠ 0 ∧ w ∉ L ∧ Objects Live s' (w :: L) ∧
        ∃ m q, s' = { s with mem := m, waitQueues := Function.update s.waitQueues w (some q) } := by
  obtain ⟨⟨w', m⟩, halloc, h⟩ := Exec.bind_eq_ok.mp h
  by_cases hw : w' = 0
  · subst hw
    cases h
    exact .inl ⟨rfl, ⟨m, rfl⟩, O.withMem (hM.kmallocNull O.live halloc)⟩
  · simp only [if_neg hw] at h
    cases h
    obtain ⟨hfresh, O'⟩ := O.grow hM halloc hw
    exact .inr ⟨hw, hfresh, O'.addWaitQueue (.head _) (O.unclaimed_of_notMem hfresh), m, _, rfl⟩

/-- The state `s'` before the new process at `child` is listed: its control block `y` is to be stored,
its context and its wait queue exist. -/
structure NewProcess (Live : μ → List Nat → Prop) (s : System μ) (L : List Nat) (y : Pcb)
    (context : InterruptInfo) (child : Nat) (s' : System μ) (L' : List Nat) : Prop where
  objects : Objects Live s' L'
  kept : L ⊆ L'
  childMem : child ∈ L' ∧ child ∉ L ∧ Unclaimed s' child
  infoNew : y.interruptInfo ∉ L
  queueNew : y.parentWaitQueue ≠ 0 → y.parentWaitQueue ∉ L
  pcbs : s'.pcbs = s.pcbs
  infos : s'.infos = Function.update s.infos y.interruptInfo (some context)
  waitQueues : y.parentWaitQueue = 0 ∧ s'.waitQueues = s.waitQueues ∨
    y.parentWaitQueue ≠ 0 ∧ ∃ q, s'.waitQueues = Function.update s.waitQueues y.parentWaitQueue (some q)
  processList : s'.gProcessList = s.gProcessList
  runnableTasks : s'.gRunnableTasks = s.gRunnableTasks
  keyboard : s'.keyboard = s.keyboard
  steady : Steady s s'

/-- The control block that `pm_fork` makes. -/
def childPcb (parent : Pcb) (pid parentWaitQueue pagemapHhdmPtr interruptInfo : Nat) : Pcb where
  pid := pid
  ppid := parent.pid
  exitStatus := 0
  killSignal := false
  processState := .ready
  parentWaitQueue := parentWaitQueue
  pagemapHhdmPtr := pagemapHhdmPtr
  processHeapPtr := parent.processHeapPtr
  interruptInfo := interruptInfo
  fds := parent.fds
  next := 0

/-- The first two blocks of a new process: the one for its control block, and its wait queue. -/
theorem newQueue_ok {child queue : Nat} {m : μ} (hM : M.Lawful Live) (O : Objects Live s L)
    (hchild : child ∉ L) (O₁ : Objects Live { s with mem := m } (child :: L))
    (h : pmCreateWaitQueue M { s with mem := m } = .ok (queue, s')) :
    ∃ L', Objects Live s' L' ∧ child :: L ⊆ L' ∧ (queue ≠ 0 → queue ∉ L) ∧
      Unclaimed s' child ∧ s'.pcbs = s.pcbs ∧ s'.infos = s.infos ∧ s'.files = s.files ∧
      (queue = 0 ∧ s'.waitQueues = s.waitQueues ∨
        queue ≠ 0 ∧ ∃ q, s'.waitQueues = Function.update s.waitQueues queue (some q)) ∧
      s'.gProcessList = s.gProcessList ∧ s'.gRunnableTasks = s.gRunnableTasks ∧
      s'.keyboard = s.keyboard ∧ Steady s s' := by
  rcases pmCreateWaitQueue_ok hM O₁ h with ⟨rfl, ⟨m₂, rfl⟩, O₂⟩ | ⟨hne, hfresh, O₂, m₂, q, rfl⟩
  · exact ⟨_, O₂, List.Subset.refl _, fun h => absurd rfl h, O.unclaimed_of_notMem hchild, rfl, rfl,
      rfl, .inl ⟨rfl, rfl⟩, rfl, rfl, rfl, ⟨rfl, rfl, rfl, rfl⟩⟩
  · rw [List.mem_cons, not_or] at hfresh
    refine ⟨_, O₂, List.subset_cons_self _ _, fun _ => hfresh.2, ?_, rfl, rfl, rfl,
      .inr ⟨hne, q, rfl⟩, rfl, rfl, rfl, ⟨rfl, rfl, rfl, rfl⟩⟩
    exact (O.unclaimed_of_notMem hchild).congr rfl (Function.update_of_ne (Ne.symm hfresh.1) _ _) rfl
      (.of_eq rfl)

theorem pmFork_ok {regs : InterruptInfo} {pid : Nat} (hM : M.Lawful Live) (O : Objects Live s L)
    (h : pmFork M s p regs = .ok (pid, s')) :
    ∃ parent child queue info pagemap, ∃ (s₁ : System μ) (L₁ : List Nat), s.pcbs p = some parent ∧
      1 ≤ pid ∧ pid < maxPids ∧ s.gProcessList pid = 0 ∧
      NewProcess Live s L (childPcb parent pid queue pagemap info) { regs with rax := 0 } child s₁
        L₁ ∧
      (∃ s₂ s₃ : System μ, shareFds s₂ parent.fds = .ok s₃ ∧ s₂.files = s.files ∧
        s₁.files = s₃.files) ∧
      schedulerAddTask (setProcessList
        (s₁.setPcb child (childPcb parent pid queue pagemap info)) pid child) child = .ok s' := by
  obtain ⟨⟨child, s₁⟩, hnew, h⟩ := Exec.bind_eq_ok.mp h
  obtain ⟨-, hchild, ⟨m₁, rfl⟩, O₁⟩ := O.newObject_ok hM hnew
  obtain ⟨pid', hpid, h⟩ := Exec.bind_eq_ok.mp h
  obtain ⟨hpos, hlt, hfree⟩ := generatePid_ok hpid
  obtain ⟨⟨queue, s₂⟩, hqueue, h⟩ := Exec.bind_eq_ok.mp h
  obtain ⟨parent, hparent, h⟩ := Exec.bind_eq_ok.mp h
  obtain ⟨s₃, hshare, h⟩ := Exec.bind_eq_ok.mp h
  obtain ⟨⟨info, s₄⟩, hnew, h⟩ := Exec.bind_eq_ok.mp h
  obtain ⟨⟨pagemap, m₅⟩, hclone, h⟩ := Exec.bind_eq_ok.mp h
  obtain ⟨s₆, hadd, h⟩ := Exec.bind_eq_ok.mp h
  obtain ⟨rfl, rfl⟩ := Prod.mk.inj (Except.ok.inj h)
  rw [deref_eq_ok] at hparent
  obtain ⟨L₂, O₂, hkept, hqueueNew, huChild, hpcbs, hinfos, hfiles, hqueues, hlist, hrun, hkeyboard,
    hsteady⟩ := newQueue_ok hM O hchild O₁ hqueue
  obtain ⟨O₃, hframe, hcontents⟩ := shareFds_ok O₂ hshare
  obtain ⟨-, hinfo, ⟨m₄, rfl⟩, O₄⟩ := O₃.newObject_ok hM hnew
  have O₅ : Objects Live (System.setInfo { s₃ with mem := m₄ } info { regs with rax := 0 }) _ :=
    O₄.addInfo (.head _) (O₃.unclaimed_of_notMem hinfo)
  have O₆ := O₅.withMem (hM.vmmClonePagemap O₅.live hclone)
  obtain ⟨m₃, files₃, rfl⟩ := hframe
  have hinfoNew : info ∉ L := fun h => hinfo (hkept (.tail _ h))
  have hinfoChild : child ≠ info := fun h => hinfo (h ▸ hkept (.head _))
  refine ⟨parent, child, queue, info, pagemap, _, info :: L₂, hpcbs ▸ hparent, hpos, hlt, hfree,
    ⟨O₆, fun q hq => .tail _ (hkept (.tail _ hq)), ⟨.tail _ (hkept (.head _)), hchild, ?_⟩, hinfoNew,
      hqueueNew, hpcbs, congrArg (Function.update · info _) hinfos, hqueues, hlist, hrun, hkeyboard,
      ?_⟩,
    ⟨_, _, hshare, hfiles, rfl⟩, hadd⟩
  · exact huChild.congr rfl rfl (Function.update_of_ne hinfoChild _ _) hcontents
  · exact hsteady.trans ⟨rfl, rfl, rfl, rfl⟩

section Fork
variable {y : Pcb} {context : InterruptInfo} {child : Nat} {s₁ s₂ : System μ} {L₁ : List Nat}

/-- The state before the new process is made runnable. -/
def listProcess (s₁ : System μ) (y : Pcb) (child : Nat) : System μ :=
  setProcessList (s₁.setPcb child y) y.pid child

private theorem NewProcess.pcbs_child (F : NewProcess Live s L y context child s₁ L₁)
    (O : Objects Live s L) : s.pcbs child = none :=
  (kinds_eq_zero.mp (O.unclaimed_of_notMem F.childMem.2.1).1).1

theorem NewProcess.queue_old (F : NewProcess Live s L y context child s₁ L₁)
    (O : Objects Live s L) (hw : (s.waitQueues w).isSome) :
    w ≠ y.parentWaitQueue ∧ s₁.waitQueues w = s.waitQueues w := by
  obtain ⟨q, hq⟩ := Option.isSome_iff_exists.mp hw
  have hwL := O.mem_of_waitQueue hq
  have hne : w ≠ y.parentWaitQueue := by
    intro heq
    exact F.queueNew (fun h => O.null (h ▸ heq ▸ hwL)) (heq ▸ hwL)
  refine ⟨hne, ?_⟩
  rcases F.waitQueues with ⟨-, heq⟩ | ⟨-, q', heq⟩
  · rw [heq]
  · rw [heq, Function.update_of_ne hne]

theorem ProcessTable.fork (T : ProcessTable s) (O : Objects Live s L)
    (F : NewProcess Live s L y context child s₁ L₁) (hpos : 1 ≤ y.pid) (hlt : y.pid < maxPids)
    (hfree : s.gProcessList y.pid = 0) : ProcessTable (listProcess s₁ y child) := by
  have hchild := F.pcbs_child O
  have hchild0 : child ≠ 0 := fun h => F.objects.null (h ▸ F.childMem.1)
  -- A control block is the new one or an old one.
  have hcases : ∀ {p x}, (listProcess s₁ y child).pcbs p = some x →
      p = child ∧ x = y ∨ p ≠ child ∧ s.pcbs p = some x := by
    intro p x hx
    by_cases hp : p = child
    · subst hp
      refine .inl ⟨rfl, ?_⟩
      simpa [listProcess, setProcessList, System.setPcb] using hx.symm
    · refine .inr ⟨hp, ?_⟩
      simpa [listProcess, setProcessList, System.setPcb, hp, F.pcbs] using hx
  have hold : ∀ {p x}, s.pcbs p = some x → s.gProcessList x.pid ≠ 0 := by
    intro p x hx hzero
    have := (T.listed p x hx).2.2
    rw [hzero] at this
    exact O.null (this ▸ O.mem_of_pcb hx)
  have hinfoOld : ∀ {p x}, s.pcbs p = some x → x.interruptInfo ≠ y.interruptInfo := by
    intro p x hx heq
    obtain ⟨z, hz⟩ := Option.isSome_iff_exists.mp (T.info p x hx)
    exact F.infoNew (heq ▸ O.mem_of_info hz)
  have hqueueOld : ∀ {p x}, s.pcbs p = some x → x.parentWaitQueue ≠ 0 →
      x.parentWaitQueue ≠ y.parentWaitQueue := fun hx hne => (F.queue_old O (T.queue _ _ hx hne)).1
  have hdevice := F.queue_old O T.device
  constructor
  case listed =>
    intro p x hx
    rcases hcases hx with ⟨rfl, rfl⟩ | ⟨hp, hx'⟩
    · exact ⟨hpos, hlt, Function.update_self ..⟩
    · obtain ⟨hxpos, hxlt, hxlist⟩ := T.listed p x hx'
      have hne : x.pid ≠ y.pid := fun heq => hold hx' (heq ▸ hfree)
      refine ⟨hxpos, hxlt, ?_⟩
      simp only [listProcess, setProcessList, System.setPcb, Function.update_of_ne hne, F.processList]
      exact hxlist
  case table =>
    intro i hi
    by_cases hpid : i = y.pid
    · subst hpid
      refine ⟨y, ?_, rfl⟩
      simp [listProcess, setProcessList, System.setPcb]
    · simp only [listProcess, setProcessList, System.setPcb, Function.update_of_ne hpid,
        F.processList] at hi ⊢
      obtain ⟨x, hx, hxpid⟩ := T.table i hi
      have hne : s.gProcessList i ≠ child := by
        intro heq
        rw [heq, hchild] at hx
        cases hx
      exact ⟨x, by rw [Function.update_of_ne hne, F.pcbs, hx], hxpid⟩
  case info =>
    intro p x hx
    rcases hcases hx with ⟨rfl, rfl⟩ | ⟨hp, hx'⟩
    · simp [listProcess, setProcessList, System.setPcb, F.infos]
    · simp only [listProcess, setProcessList, System.setPcb, F.infos,
        Function.update_of_ne (hinfoOld hx')]
      exact T.info p x hx'
  case infoOnce =>
    intro p q x z hx hz heq
    rcases hcases hx with ⟨rfl, rfl⟩ | ⟨hp, hx'⟩ <;> rcases hcases hz with ⟨rfl, rfl⟩ | ⟨hq, hz'⟩
    · rfl
    · exact absurd heq.symm (hinfoOld hz')
    · exact absurd heq (hinfoOld hx')
    · exact T.infoOnce p q x z hx' hz' heq
  case queue =>
    intro p x hx hne
    rcases hcases hx with ⟨rfl, rfl⟩ | ⟨hp, hx'⟩
    · rcases F.waitQueues with ⟨hzero, -⟩ | ⟨-, q, heq⟩
      · exact absurd hzero hne
      · simp [listProcess, setProcessList, System.setPcb, heq]
    · have hw := T.queue p x hx' hne
      simp only [listProcess, setProcessList, System.setPcb, (F.queue_old O hw).2]
      exact hw
  case queueOnce =>
    intro p q x z hx hz hne heq
    rcases hcases hx with ⟨rfl, rfl⟩ | ⟨hp, hx'⟩ <;> rcases hcases hz with ⟨rfl, rfl⟩ | ⟨hq, hz'⟩
    · rfl
    · exact absurd heq.symm (hqueueOld hz' (heq ▸ hne))
    · exact absurd heq (hqueueOld hx' hne)
    · exact T.queueOnce p q x z hx' hz' hne heq
  case device =>
    simp only [listProcess, setProcessList, System.setPcb, F.steady.device, hdevice.2]
    exact T.device
  case deviceOnce =>
    intro p x hx
    simp only [listProcess, setProcessList, System.setPcb, F.steady.device]
    rcases hcases hx with ⟨rfl, rfl⟩ | ⟨hp, hx'⟩
    · exact hdevice.1.symm
    · exact T.deviceOnce p x hx'

/-- A new process is one more runnable process. -/
theorem Coherent.enlist {q : TaskQueue} (C : Coherent Live s L v)
    (F : NewProcess Live s L y context child s₁ L₁) (hpos : 1 ≤ y.pid) (hlt : y.pid < maxPids)
    (hfree : s.gProcessList y.pid = 0) (hready : y.processState = .ready)
    (h : taskEnqueue (listProcess s₁ y child) s₁.gRunnableTasks child = .ok (q, s₂))
    (hempty : ∀ w q, s.waitQueues w = none → s₂.waitQueues w = some q → q = ⟨0, 0⟩) :
    v.tasks child = none ∧ Steady s { s₂ with gRunnableTasks := q } ∧
      Coherent Live { s₂ with gRunnableTasks := q } L₁ (v.fork child (y.task context)) := by
  have hchild := F.pcbs_child C.objects
  have hchild0 : child ≠ 0 := fun h => F.objects.null (h ▸ F.childMem.1)
  have hnone : v.tasks child = none := by
    rw [C.repr.tasks, System.task, hchild]
    rfl
  have hstate : v.stateOf child = none := by rw [TaskView.stateOf, hnone, Option.map_none]
  have hrun : child ∉ v.runnable := C.scheduled.notMem_runnable (by simp [hstate])
  have hwait : ∀ w, child ∉ v.waiting w := fun w => C.scheduled.notMem_waiting (by simp [hstate])
  have hlinks := taskEnqueue_links h
  have hqueues : s₂.waitQueues = s₁.waitQueues := by
    obtain ⟨_, rfl, -⟩ := hlinks
    rfl
  have O₂ : Objects Live (listProcess s₁ y child) L₁ :=
    (F.objects.addPcb F.childMem.1 F.childMem.2.2).congr rfl (fun _ => rfl) fun _ _ h => h
  have T₂ := C.table.fork C.objects F hpos hlt hfree
  have hholds : ∀ q xs, child ∉ xs → QueueHolds s q xs →
      QueueHolds (listProcess s₁ y child) q xs := by
    intro q xs hxs hq
    refine hq.congr fun z hz => ?_
    have hne : z ≠ child := fun heq => hxs (heq ▸ hz)
    simp only [listProcess, setProcessList, System.setPcb, nextTask_update, if_neg hne, F.pcbs]
  have R₂ : Represents (listProcess s₁ y child)
      { v with tasks := Function.update v.tasks child (some (y.task context)) } := by
    refine ⟨funext fun p => ?_, ?_, ?_, fun w q hq => ?_, fun w hw => ?_⟩
    · by_cases hp : p = child
      · subst hp
        simp [System.task, listProcess, setProcessList, System.setPcb, F.infos]
      · simp only [Function.update_of_ne hp, C.repr.tasks, System.task, listProcess, setProcessList,
          System.setPcb, F.pcbs, F.infos]
        cases hx : s.pcbs p with
        | none => rfl
        | some x =>
          obtain ⟨z, hz⟩ := Option.isSome_iff_exists.mp (C.table.info p x hx)
          have hne : x.interruptInfo ≠ y.interruptInfo :=
            fun heq => F.infoNew (heq ▸ C.objects.mem_of_info hz)
          rw [Option.bind_some, Option.bind_some, Function.update_of_ne hne]
    · simp only [listProcess, setProcessList, System.setPcb, F.steady.currTask]
      exact C.repr.current
    · simp only [listProcess, setProcessList, System.setPcb, F.runnableTasks]
      exact hholds _ _ hrun C.repr.runnable
    · replace hq : s₁.waitQueues w = some q := hq
      cases hw : s.waitQueues w with
      | none =>
        rw [hempty w q hw (hqueues ▸ hq), C.repr.unqueued w hw]
        exact Theory.Fifo.empty
      | some q₀ =>
        rw [(F.queue_old C.objects (by rw [hw]; rfl)).2, hw] at hq
        cases hq
        exact hholds _ _ (hwait w) (C.repr.waiting w q hw)
    · replace hw : s₁.waitQueues w = none := hw
      refine C.repr.unqueued w ?_
      cases hq : s.waitQueues w with
      | none => rfl
      | some q₀ =>
        rw [(F.queue_old C.objects (by rw [hq]; rfl)).2, hq] at hw
        cases hw
  obtain ⟨-, R₃⟩ := R₂.pushRunnable h hchild0 hrun hwait C.disjoint
  have hlisted : Steady s₁ (listProcess s₁ y child) := ⟨rfl, rfl, rfl, rfl⟩
  have hsteady : Steady s { s₂ with gRunnableTasks := q } :=
    (F.steady.trans (hlisted.trans hlinks.steady)).trans ⟨rfl, rfl, rfl, rfl⟩
  refine ⟨hnone, hsteady, (hlinks.objects O₂).congr rfl (fun _ => rfl) fun _ _ h => h,
    (hlinks.table T₂).congr (fun _ => rfl) rfl (fun _ h => h) (fun _ h => h) rfl, R₃, ?_⟩
  rw [hsteady.device]
  exact C.scheduled.fork hnone hready

/-- The child of `pm_fork` is runnable. -/
theorem Coherent.fork (C : Coherent Live s L v) (F : NewProcess Live s L y context child s₁ L₁)
    (hpos : 1 ≤ y.pid) (hlt : y.pid < maxPids) (hfree : s.gProcessList y.pid = 0)
    (hready : y.processState = .ready) (hfirst : s.gFirstTaskAdded = false)
    (h : schedulerAddTask (listProcess s₁ y child) child = .ok s')
    (hempty : ∀ w q, s.waitQueues w = none → s'.waitQueues w = some q → q = ⟨0, 0⟩) :
    v.tasks child = none ∧ Steady s s' ∧ Coherent Live s' L₁ (v.fork child (y.task context)) := by
  obtain ⟨⟨q, s₂⟩, henqueue, h⟩ := Exec.bind_eq_ok.mp h
  have hfirst₂ : s₂.gFirstTaskAdded = false := by
    rw [(taskEnqueue_links henqueue).steady.firstTaskAdded]
    exact F.steady.firstTaskAdded.trans hfirst
  dsimp only at h
  rw [if_neg (by rw [hfirst₂]; exact Bool.false_ne_true)] at h
  cases h
  exact C.enlist F hpos hlt hfree hready henqueue hempty

end Fork

end

end TrazelOs
