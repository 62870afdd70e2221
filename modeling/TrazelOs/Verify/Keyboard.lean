import TrazelOs.Verify.Deeds
import TrazelOs.Verify.Flat
import TrazelOs.Verify.RingBuffer

/-! # The keyboard

The interrupt handler of the keyboard puts characters into a ring buffer and wakes the readers; a
read takes them out, or waits when there are none. -/

namespace TrazelOs

variable {μ : Type}

/-! ## The ring buffer -/

namespace RingBuffer

structure Valid (rb : RingBuffer) : Prop where
  size : rb.bufferSize = 2056
  read : rb.readPtr < rb.bufferSize
  write : rb.writePtr < rb.bufferSize

end RingBuffer

section
variable {rb rb' : RingBuffer} {key : Byte} {keys : List Byte}

theorem RingBuffer.Valid.queues (h : rb.Valid) : rb.Queues 2056 rb.contents :=
  ⟨h.size, h.size ▸ h.read, h.size ▸ h.write, rfl⟩

theorem RingBuffer.Queues.valid {bytes : List Byte} (h : rb.Queues 2056 bytes) : rb.Valid :=
  ⟨h.size, h.size ▸ h.read, h.size ▸ h.write⟩

theorem ringBufferPush_ok (h : rb.Valid) :
    (ringBufferPush rb key).2.Valid ∧ (ringBufferPush rb key).2.contents =
      rb.contents ++ if (ringBufferPush rb key).1 then [key] else [] := by
  by_cases hfull : rb.contents.length = 2056 - 1
  · rw [h.queues.push_full hfull]
    exact ⟨h, (List.append_nil _).symm⟩
  · obtain ⟨hok, hqueues⟩ := h.queues.push key hfull
    rw [hok]
    exact ⟨hqueues.valid, hqueues.contents⟩

theorem ringBufferPop_eq_none (h : rb.Valid) : (ringBufferPop rb).1 = none ↔ rb.contents = [] :=
  h.queues.pop_eq_none_iff

theorem ringBufferPop_eq_some (h : rb.Valid) (hpop : ringBufferPop rb = (some key, rb')) :
    rb'.Valid ∧ rb.contents = key :: rb'.contents := by
  have hqueues := h.queues
  cases hcontents : rb.contents with
  | nil =>
    rw [hcontents] at hqueues
    cases hqueues.pop_empty.symm.trans hpop
  | cons data bytes =>
    rw [hcontents] at hqueues
    obtain ⟨hsome, hrest⟩ := hqueues.pop
    rw [hpop] at hsome hrest
    cases hsome
    exact ⟨hrest.valid, by rw [hrest.contents]⟩

theorem Pops.contents (h : Pops rb keys rb') (hvalid : rb.Valid) :
    rb'.Valid ∧ rb.contents = keys ++ rb'.contents := by
  induction h with
  | nil => exact ⟨hvalid, rfl⟩
  | cons hpop _ ih =>
    obtain ⟨hvalid₁, hcontents⟩ := ringBufferPop_eq_some hvalid hpop
    obtain ⟨hvalid₂, hrest⟩ := ih hvalid₁
    exact ⟨hvalid₂, by rw [hcontents, hrest, List.cons_append]⟩

theorem RingBuffer.Valid.length_lt (h : rb.Valid) : rb.contents.length < 2056 :=
  h.queues.length_lt

end

/-! ## What a read stores -/

/-- The characters at `vaddr + i` and the following addresses. -/
def keyStores (vaddr i : Nat) (keys : List Byte) : List (Nat × List Byte) :=
  (keys.zipIdx i).map fun (key, i) => (u64 (vaddr + i), [key])

theorem keyStores_bytes {vaddr i : Nat} {keys : List Byte} :
    (keyStores vaddr i keys).flatMap Prod.snd = keys := by
  induction keys generalizing i with
  | nil => rfl
  | cons key keys ih =>
    rw [keyStores, List.zipIdx_cons, List.map_cons, List.flatMap_cons]
    exact congrArg (key :: ·) ih

section
variable {M : MemoryManager μ} {Live : μ → List Nat → Prop} {log : μ → List (Nat × List Byte)}
  {s s' : System μ} {L : List Nat} {v : TaskView} {p : Nat} {x : Pcb}
  {regs regs' : InterruptInfo} {typed read : List Byte}

theorem storeKeys_log (hlog : M.Logs log) {vaddr i : Nat} {keys : List Byte} {m m' : μ}
    (h : storeKeys M (.user vaddr) i keys m = .ok m') :
    log m' = log m ++ keyStores vaddr i keys := by
  induction keys generalizing i m with
  | nil =>
    cases h
    exact (List.append_nil _).symm
  | cons key keys ih =>
    obtain ⟨m₁, hstore, h⟩ := Exec.bind_eq_ok.mp h
    rw [ih h, hlog.store hstore, keyStores, keyStores, List.zipIdx_cons, List.map_cons,
      List.append_assoc]
    rfl

/-- The file that the process reads from. -/
def readFile (s : System μ) (p fd : Nat) : Option VfsFile :=
  (s.pcbs p).bind fun x => (validFd fd x.fds).bind fun i => s.files (x.fds i)

/-- How a `read` ends for the keyboard: it leaves it alone, it takes characters, or it waits for some
because there are none. -/
inductive ReadEnds (log : μ → List (Nat × List Byte)) (s : System μ) (p : Nat) (x : Pcb)
    (regs : InterruptInfo) : InterruptInfo → System μ → Prop
  | other {regs' : InterruptInfo} {s' : System μ} : s'.keyboard = s.keyboard →
    s'.waitQueues = s.waitQueues → s'.pcbs p = some x →
    ((readFile s p regs.rdi).any (·.kind.fromKeyboard) = true →
      log s'.mem = log s.mem ∧ regs'.rax = 0) →
    ReadEnds log s p x regs regs' s'
  | keys {keys : List Byte} {s' : System μ} :
    (readFile s p regs.rdi).any (·.kind.fromKeyboard) = true →
    Pops s.keyboard.ringBuffer keys s'.keyboard.ringBuffer →
    s'.keyboard.deviceWaitQueue = s.keyboard.deviceWaitQueue → s'.waitQueues = s.waitQueues →
    s'.pcbs p = some x → log s'.mem = log s.mem ++ keyStores regs.rsi 0 keys →
    ReadEnds log s p x regs { regs with rax := ofInt64 (toInt64 keys.length) } s'
  | waits {regs' : InterruptInfo} {s' : System μ} {y : Pcb} :
    (ringBufferPop s.keyboard.ringBuffer).1 = none → s'.keyboard = s.keyboard →
    s'.pcbs p = some y → y.processState = .waiting → ReadEnds log s p x regs regs' s'

theorem syscallReadHandler_ends (hM : M.Lawful Live) (hlog : M.Logs log) (C : Coherent Live s L v)
    (hcurr : v.current = some p) (hx : s.pcbs p = some x)
    (h : syscallReadHandler M s p regs = .ok (regs', s')) : ReadEnds log s p x regs regs' s' := by
  obtain ⟨x', hx', h⟩ := Exec.bind_eq_ok.mp h
  rw [deref_eq_ok, hx] at hx'
  cases hx'
  split at h
  · rename_i hfd
    cases h
    refine .other rfl rfl hx fun hkeyboard => ?_
    rw [readFile, hx, Option.bind_some, hfd] at hkeyboard
    cases hkeyboard
  rename_i i hfd
  have hreadFile : readFile s p regs.rdi = s.files (x.fds i) := by
    rw [readFile, hx, Option.bind_some, hfd, Option.bind_some]
  obtain ⟨⟨n, s₁⟩, hread, h⟩ := Exec.bind_eq_ok.mp h
  cases h
  cases vfsRead_ok hM C.objects hread with
  | none hnone =>
    refine .other rfl rfl hx fun hkeyboard => ⟨rfl, ?_⟩
    rw [hreadFile] at hkeyboard
    obtain ⟨file, hfile, hkind⟩ := (Option.any_eq_true ..).mp hkeyboard
    rw [hnone file hfile hkind]
    rfl
  | disk hfile hkind huses =>
    obtain ⟨m, files, rfl⟩ := huses.frame
    refine .other rfl rfl hx fun hkeyboard => ?_
    rw [hreadFile, hfile, Option.any_some, hkind] at hkeyboard
    cases hkeyboard
  | keys hfile hkind hkeys huses hmem hring =>
    obtain ⟨m, rb, hpops, hstores, rfl⟩ := hkeys
    have hlogged := storeKeys_log hlog hstores
    obtain ⟨m', files, rfl⟩ := huses.frame
    cases hmem
    refine .keys ?_ hpops rfl rfl hx hlogged
    rw [hreadFile, hfile]
    exact hkind
  | waits _ _ hempty hblock =>
    obtain ⟨context, -, ht⟩ := C.task_of_pcb hx
    obtain ⟨C', -⟩ := C.block hcurr ht (.inl rfl) hblock
    obtain ⟨t, ht', hwaiting⟩ := TaskView.stateOf_eq_some.mp (TaskView.stateOf_block_self ht)
    obtain ⟨y, hy, -, htask⟩ := C'.pcb_of_task ht'
    rw [htask] at hwaiting
    exact .waits hempty (pmWaitqueueEnqueue_moves hblock).keyboard hy hwaiting

/-! ## Runs -/

/-- The character of a scan code. -/
def inputChar (scanCode : Nat) : Byte :=
  BitVec.ofNat 8 (scanCodeLookupTable.getD scanCode '\x00').toNat

/-- The characters that the step puts into the buffer. -/
def pushed (c : Machine μ) : Event → List Byte
  | .keyboard scanCode =>
    if scanCode < scanCodeLookupTable.length ∧
        (ringBufferPush c.sys.keyboard.ringBuffer (inputChar scanCode)).1 then [inputChar scanCode]
    else []
  | _ => []

/-- The process that runs calls `read` for the keyboard. -/
def readsKeyboard (c : Machine μ) (regs : UserRegs) : Bool :=
  regs.rax = 0 && (readFile c.sys c.sys.gCurrTask regs.rdi).any (·.kind.fromKeyboard)

/-- The characters that a read from the keyboard returns in the step: what the kernel stored for the
process, if the call returned. -/
def returned (log : μ → List (Nat × List Byte)) (c : Machine μ) (e : Event) (c' : Machine μ) :
    List Byte :=
  match c.cpu, e with
  | .user regs, .syscall _ =>
    if readsKeyboard c regs ∧ (answer c c').isSome then
      ((log c'.sys.mem).drop (log c.sys.mem).length).flatMap Prod.snd
    else []
  | _, _ => []

/-- A machine that is reached, with the characters that were put into the buffer and those that reads
returned. -/
inductive Typing (M : MemoryManager μ) (Live : μ → List Nat → Prop)
    (log : μ → List (Nat × List Byte)) (boots : BootInput μ → Machine μ → Prop)
    (steps : Machine μ → Event → Machine μ → Prop) : (typed read : List Byte) → Machine μ → Prop
  | boot {b : BootInput μ} {c : Machine μ} : b.Valid Live → b.machine M = .ok c → boots b c →
    Typing M Live log boots steps [] [] c
  | step {typed read : List Byte} {c c' : Machine μ} {e : Event} :
    Typing M Live log boots steps typed read c → TrazelOs.step M c e = .ok c' → steps c e c' →
    Typing M Live log boots steps (typed ++ pushed c e) (read ++ returned log c e c') c'

theorem Typing.reachable {boots : BootInput μ → Machine μ → Prop}
    {steps : Machine μ → Event → Machine μ → Prop} {c : Machine μ}
    (h : Typing M Live log boots steps typed read c) : Reachable M Live boots steps c := by
  induction h with
  | boot hvalid hboot hcond => exact .boot hvalid hboot hcond
  | step _ hstep hcond ih => exact ih.step hstep hcond

/-- Readers wait only while there are no characters, and every character is in the buffer or was
returned. -/
structure KeysKept (s : System μ) (typed read : List Byte) : Prop where
  ring : s.keyboard.ringBuffer.Valid
  asleep : ∀ q, s.waitQueues s.keyboard.deviceWaitQueue = some q → q.queuesHead ≠ 0 →
    s.keyboard.ringBuffer.contents = []
  kept : read ++ s.keyboard.ringBuffer.contents = typed

namespace KeysKept

theorem empty (h : s.keyboard.ringBuffer = ⟨0, 0, 2056, fun _ => 0⟩) : KeysKept s [] [] := by
  have hvalid : s.keyboard.ringBuffer.Valid := by
    rw [h]
    exact ⟨rfl, by decide, by decide⟩
  have hnil : s.keyboard.ringBuffer.contents = [] :=
    (Theory.circular_eq_nil_iff hvalid.read hvalid.write).mpr (by rw [h])
  exact ⟨hvalid, fun _ _ _ => hnil, hnil⟩

theorem congr (K : KeysKept s typed read) (hkeyboard : s'.keyboard = s.keyboard)
    (hdevice : s'.waitQueues s.keyboard.deviceWaitQueue =
      s.waitQueues s.keyboard.deviceWaitQueue) : KeysKept s' typed read := by
  refine ⟨hkeyboard ▸ K.ring, fun q hq hne => ?_, hkeyboard ▸ K.kept⟩
  rw [hkeyboard, hdevice] at hq
  rw [hkeyboard]
  exact K.asleep q hq hne

theorem left {info? : Option InterruptInfo} (K : KeysKept s typed read) (h : Left Live s info? s') :
    KeysKept s' typed read := K.congr h.keyboard h.device

/-- Readers that wait do so because there are no characters. -/
theorem waits (K : KeysKept s typed read)
    (hempty : (ringBufferPop s.keyboard.ringBuffer).1 = none) (hkeyboard : s'.keyboard = s.keyboard) :
    KeysKept s' typed read := by
  refine ⟨hkeyboard ▸ K.ring, fun _ _ _ => ?_, hkeyboard ▸ K.kept⟩
  rw [hkeyboard]
  exact (ringBufferPop_eq_none K.ring).mp hempty

theorem take {keys : List Byte} (K : KeysKept s typed read)
    (hpops : Pops s.keyboard.ringBuffer keys s'.keyboard.ringBuffer)
    (hdevice : s'.keyboard.deviceWaitQueue = s.keyboard.deviceWaitQueue)
    (hqueues : s'.waitQueues = s.waitQueues) : KeysKept s' typed (read ++ keys) := by
  obtain ⟨hvalid, hcontents⟩ := hpops.contents K.ring
  refine ⟨hvalid, fun q hq hne => ?_, ?_⟩
  · rw [hqueues, hdevice] at hq
    have hnil := K.asleep q hq hne
    rw [hcontents] at hnil
    exact (List.append_eq_nil_iff.mp hnil).2
  · rw [List.append_assoc, ← hcontents]
    exact K.kept

theorem push {scanCode : Nat} {cpu : Cpu} (K : KeysKept s typed read)
    (h : keyboardInterruptHandler s scanCode = .ok s') :
    KeysKept s' (typed ++ pushed ⟨s, cpu⟩ (.keyboard scanCode)) read := by
  rcases keyboardInterruptHandler_cases h with ⟨hlt, rfl⟩ | ⟨hlt, hmoves, q, hq, hhead⟩
  · rw [pushed, if_neg (fun h => Nat.not_lt.mpr hlt h.1), List.append_nil]
    exact K
  · obtain ⟨hvalid, hcontents⟩ : _ ∧ (ringBufferPush _ (inputChar scanCode)).2.contents = _ :=
      ringBufferPush_ok K.ring
    have hkeyboard := hmoves.keyboard
    refine ⟨hkeyboard ▸ hvalid, fun q' hq' hne => ?_, ?_⟩
    · rw [hkeyboard] at hq'
      rw [hq] at hq'
      cases hq'
      exact absurd hhead hne
    · rw [hkeyboard]
      change read ++ (ringBufferPush s.keyboard.ringBuffer (inputChar scanCode)).2.contents = _
      rw [hcontents, ← List.append_assoc, K.kept, pushed]
      simp only [hlt, true_and]

end KeysKept

section
variable {c c' : Machine μ} {e : Event}

/-- A `read` and the return to the process, or to another one. -/
inductive ReadStep (log : μ → List (Nat × List Byte)) (c : Machine μ) (regs : UserRegs)
    (c' : Machine μ) : Prop
  | other : c'.sys.keyboard = c.sys.keyboard → c'.sys.waitQueues = c.sys.waitQueues →
    (readsKeyboard c regs = true → log c'.sys.mem = log c.sys.mem ∧ answer c c' = some 0) →
    ReadStep log c regs c'
  | keys {keys : List Byte} : readsKeyboard c regs = true →
    Pops c.sys.keyboard.ringBuffer keys c'.sys.keyboard.ringBuffer →
    c'.sys.keyboard.deviceWaitQueue = c.sys.keyboard.deviceWaitQueue →
    c'.sys.waitQueues = c.sys.waitQueues →
    log c'.sys.mem = log c.sys.mem ++ keyStores regs.rsi 0 keys →
    answer c c' = some (ofInt64 (toInt64 keys.length)) → ReadStep log c regs c'
  | waits : (ringBufferPop c.sys.keyboard.ringBuffer).1 = none →
    c'.sys.keyboard = c.sys.keyboard → answer c c' = none → ReadStep log c regs c'

theorem ReadEnds.readStep {uregs : UserRegs} {info? : Option InterruptInfo} {s₁ : System μ} {y : Pcb}
    (h : ReadEnds log s s.gCurrTask x (ring3Frame (syscallFrame uregs)) regs' s₁)
    (hrax : uregs.rax = 0) (hready : x.processState = .ready) (hy : s₁.pcbs s.gCurrTask = some y)
    (hback : y.processState = .ready → info? = some regs' ∧ s' = s₁) (hleft : Left Live s₁ info? s')
    (hanswer : answer ⟨s, .user uregs⟩ (leaveKernel .sysret (info?, s')) =
      if y.processState = .ready then some regs'.rax else none) :
    ReadStep log ⟨s, .user uregs⟩ uregs (leaveKernel .sysret (info?, s')) := by
  have hreads : readsKeyboard ⟨s, .user uregs⟩ uregs =
      (readFile s s.gCurrTask uregs.rdi).any (·.kind.fromKeyboard) := by
    simp [readsKeyboard, hrax]
  cases h with
  | other hkeyboard hqueues hx hlog =>
    rw [hx] at hy
    cases hy
    obtain ⟨rfl, rfl⟩ := hback hready
    refine .other hkeyboard hqueues fun h => ?_
    obtain ⟨hlog, hrax⟩ := hlog (hreads.symm.trans h)
    rw [hanswer, if_pos hready, hrax]
    exact ⟨hlog, rfl⟩
  | keys hkind hpops hdevice hqueues hx hlog =>
    rw [hx] at hy
    cases hy
    obtain ⟨rfl, rfl⟩ := hback hready
    exact .keys (hreads.trans hkind) hpops hdevice hqueues hlog (hanswer.trans (if_pos hready))
  | waits hempty hkeyboard hy' hwaiting =>
    rw [hy'] at hy
    cases hy
    refine .waits hempty ?_ (hanswer.trans (if_neg ?_))
    · rw [leaveKernel_sys, hleft.keyboard, hkeyboard]
    · rw [hwaiting]
      nofun

section
variable {uregs : UserRegs} {env : SyscallEnv}

theorem ReadStep.keysKept (h : ReadStep log c uregs c') (hcpu : c.cpu = .user uregs)
    (K : KeysKept c.sys typed read) :
    KeysKept c'.sys typed (read ++ returned log c (.syscall env) c') := by
  simp only [returned, hcpu]
  cases h with
  | other hkeyboard hqueues hlog =>
    have hnone : (if readsKeyboard c uregs = true ∧ (answer c c').isSome = true then
        ((log c'.sys.mem).drop (log c.sys.mem).length).flatMap Prod.snd else []) = [] := by
      split
      · rename_i hreads
        rw [(hlog hreads.1).1, List.drop_length]
        rfl
      · rfl
    rw [hnone, List.append_nil]
    exact K.congr hkeyboard (congrFun hqueues _)
  | keys hreads hpops hdevice hqueues hlog hanswer =>
    rw [if_pos ⟨hreads, by rw [hanswer]; rfl⟩, hlog, List.drop_left, keyStores_bytes]
    exact K.take hpops hdevice hqueues
  | waits hempty hkeyboard hanswer =>
    rw [if_neg (fun h => by simp [hanswer] at h), List.append_nil]
    exact K.waits hempty hkeyboard

theorem MachineInv.read_step (hM : M.Lawful Live) (hlog : M.Logs log) (I : MachineInv Live c v)
    (hcpu : c.cpu = .user uregs) (hrax : uregs.rax = 0)
    (h : TrazelOs.step M c (.syscall env) = .ok c') (horderly : OrderlyStep c (.syscall env) c') :
    ReadStep log c uregs c' := by
  obtain ⟨⟨L, C⟩, hfirst, hcpu'⟩ := I
  obtain ⟨s, cpu⟩ := c
  subst hcpu
  obtain ⟨hsome, hidle⟩ := hcpu'
  obtain ⟨p, hcurr⟩ := Option.isSome_iff_exists.mp hsome
  obtain ⟨rfl, x, -, hx, -⟩ := C.current_pcb hcurr
  obtain ⟨⟨info?, s'⟩, hcall, rfl⟩ := Exec.map_eq_ok.mp h
  have hempty := horderly.1
  rw [CreatedEmpty, leaveKernel_sys] at hempty
  obtain ⟨regs₁, s₁, hdispatch, hends⟩ := C.intact.syscallKernelHandler hM hfirst hcall
  obtain ⟨regs₂, s₂, y, hdispatch₂, hy, hback, hanswer, -⟩ :=
    syscallKernelHandler_recorded hM C hcurr hx hfirst hempty (horderly.2 uregs rfl) hcall
  rw [hdispatch] at hdispatch₂
  cases hdispatch₂
  have hidle₁ := (C.intact.dispatch hM hfirst hdispatch).2.cpuIsIdle.trans hidle
  have hrax' : (ring3Frame (syscallFrame uregs)).rax = 0 := hrax
  cases syscallDispatch_cases hM C.objects hdispatch with
  | read _ hread =>
    exact (syscallReadHandler_ends hM hlog C hcurr hx hread).readStep hrax
      (C.processState_current hcurr hx) hy hback (hends.left hM hidle₁) hanswer
  | fork h => exact absurd (hrax'.symm.trans h) (by decide)
  | execve h => exact absurd (hrax'.symm.trans h) (by decide)
  | exit h => exact absurd (hrax'.symm.trans h) (by decide)
  | wait h => exact absurd (hrax'.symm.trans h) (by decide)
  | other h => exact absurd (by rw [hrax']; decide) h

end

theorem KeysKept.quiet (K : KeysKept s typed read) (hpushed : pushed c e = [])
    (hreturned : returned log c e c' = []) :
    KeysKept s (typed ++ pushed c e) (read ++ returned log c e c') := by
  rw [hpushed, hreturned, List.append_nil, List.append_nil]
  exact K

/-- One event. -/
theorem MachineInv.step_keys (hM : M.Lawful Live) (hlog : M.Logs log) (I : MachineInv Live c v)
    (K : KeysKept c.sys typed read) (h : TrazelOs.step M c e = .ok c')
    (horderly : OrderlyStep c e c') :
    KeysKept c'.sys (typed ++ pushed c e) (read ++ returned log c e c') := by
  have I' := I
  obtain ⟨⟨L, C⟩, hfirst, hcpu⟩ := I
  obtain ⟨s, cpu⟩ := c
  cases cpu with
  | user regs =>
    obtain ⟨hsome, hidle⟩ := hcpu
    cases e with
    | run regs' stores =>
      obtain ⟨m, -, h⟩ := Exec.bind_eq_ok.mp h
      cases h
      refine KeysKept.quiet ?_ rfl rfl
      exact K.congr rfl rfl
    | syscall env =>
      by_cases hrax : regs.rax = 0
      · rw [show pushed _ (.syscall env) = [] from rfl, List.append_nil]
        exact (I'.read_step hM hlog rfl hrax h horderly).keysKept rfl K
      · obtain ⟨⟨info?, s'⟩, hcall, rfl⟩ := Exec.map_eq_ok.mp h
        obtain ⟨regs₁, s₁, hdispatch, hends⟩ := C.intact.syscallKernelHandler hM hfirst hcall
        have hkeeps := C.intact.dispatch_keeps hM hfirst hrax (horderly.2 regs rfl) hdispatch
        have hleft := hends.left hM (hkeeps.steady.cpuIsIdle.trans hidle)
        rw [leaveKernel_sys]
        refine ((K.congr hkeeps.keyboard hkeeps.device).left hleft).quiet rfl ?_
        simp [returned, readsKeyboard, hrax]
    | timer =>
      obtain ⟨⟨info?, s'⟩, hcall, rfl⟩ := Exec.map_eq_ok.mp h
      rw [leaveKernel_sys]
      exact (K.left (C.intact.timer hM hidle hcall)).quiet rfl rfl
    | keyboard scanCode =>
      obtain ⟨s', hkeyboard, h⟩ := Exec.bind_eq_ok.mp h
      cases h
      simpa [returned] using K.push hkeyboard
    | exception index errorCode =>
      obtain ⟨⟨info?, s'⟩, hcall, rfl⟩ := Exec.map_eq_ok.mp h
      rw [leaveKernel_sys]
      exact (K.left (C.intact.exception hM hidle hcall)).quiet rfl rfl
    | haltEnds => cases h
  | idle exit =>
    obtain ⟨hcurr, hidle⟩ := hcpu
    cases e with
    | timer =>
      obtain ⟨⟨info?, s'⟩, hcall, h⟩ := Exec.bind_eq_ok.mp h
      cases h
      rw [lapicTimerHandler_idle hidle hcall]
      refine KeysKept.quiet ?_ rfl rfl
      exact K.congr rfl rfl
    | keyboard scanCode =>
      obtain ⟨s', hkeyboard, h⟩ := Exec.bind_eq_ok.mp h
      cases h
      simpa [returned] using K.push hkeyboard
    | haltEnds =>
      obtain ⟨⟨info?, s'⟩, hnext, rfl⟩ := Exec.map_eq_ok.mp h
      rw [leaveKernel_sys]
      exact (K.left (C.intact.loadNext hM hnext)).quiet rfl rfl
    | run _ _ => cases h
    | syscall _ => cases h
    | exception _ _ => cases h

theorem Typing.keysKept (hM : M.Lawful Live) (hlog : M.Logs log)
    (h : Typing M Live log OrderlyBoot OrderlyStep typed read c) : KeysKept c.sys typed read := by
  induction h with
  | boot hvalid hboot _ =>
    exact .empty (congrArg Ps2KeyboardData.ringBuffer (BootInput.intact hM hvalid hboot).2)
  | step h hstep hcond ih =>
    obtain ⟨v, I⟩ := h.reachable.inv hM
    exact I.step_keys hM hlog ih hstep hcond

end

end

/-! ## Two runs -/

end TrazelOs
