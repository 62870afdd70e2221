import TrazelOs.Verify.Process

/-! # System calls

Most calls leave the processes where they are. The others are the steps of `TaskView`: a fork, a
child that is reaped, a process that blocks or exits. -/

namespace TrazelOs

variable {μ : Type}

/-- Whether reading what the path leads to reads from the keyboard. -/
def Lookup.fromKeyboard (path : Lookup) : Bool :=
  match path.target with
  | .device dev => (FileKind.charDev dev).fromKeyboard
  | _ => false

/-- The processes are where they were. -/
def Undisturbed (Live : μ → List Nat → Prop) (s s' : System μ) : Prop :=
  ∃ L', Objects Live s' L' ∧ SameTasks s s'

section
variable {M : MemoryManager μ} {Live : μ → List Nat → Prop} {s s' : System μ} {L L' : List Nat}
  {v : TaskView} {p : Nat} {x : Pcb} {regs regs' : InterruptInfo}

namespace Undisturbed

theorem refl (O : Objects Live s L) : Undisturbed Live s s := ⟨L, O, .refl⟩

theorem setPcb {s₁ : System μ} {x' : Pcb} (O : Objects Live s₁ L') (h : SameTasks s s₁)
    (hx : s₁.pcbs p = some x) (hcore : x'.core = x.core) :
    Undisturbed Live s (s₁.setPcb p x') :=
  ⟨L', O.setPcb hx, h.trans (.setPcb hx hcore)⟩

end Undisturbed

theorem UsesFiles.undisturbed (h : UsesFiles Live L s s') : Undisturbed Live s s' :=
  ⟨L, h.objects, h.frame.sameTasks⟩

theorem Objects.undisturbed_mem {m : μ} (O : Objects Live s L) (h : Live m L) :
    Undisturbed Live s { s with mem := m } := (UsesFiles.mem O h).undisturbed

theorem Unclaimed.setPcb {q : Nat} {x' : Pcb} (hu : Unclaimed s q) (hx : s.pcbs p = some x) :
    Unclaimed (s.setPcb p x') q := ⟨(Objects.kinds_setPcb hx).trans hu.1, hu.2⟩

/-! ## exec -/

theorem Opened.disk {path : Lookup} {f : Nat} (h : Opened Live L path f s s' L') (hf : f ≠ 0)
    (hpath : path.fromKeyboard = false) :
    ∃ file, s'.files f = some file ∧ file.kind.fromKeyboard = false := by
  obtain ⟨hzero, -⟩ | ⟨-, -, file, hfiles, -, -, hkind⟩ := h.files
  · exact absurd hzero hf
  refine ⟨file, by rw [hfiles, Function.update_self], ?_⟩
  by_contra hkey
  obtain ⟨dev, htarget, hdev⟩ := hkind (by simpa using hkey)
  rw [Lookup.fromKeyboard, htarget] at hpath
  exact hkey (hdev ▸ hpath)

/-- A file that was opened is new, and it is counted once. -/
theorem Opened.refCount {path : Lookup} {f : Nat} (h : Opened Live L path f s s' L')
    (O : Objects Live s L) (hf : f ≠ 0) :
    s.files f = none ∧ s'.refCount = Function.update s.refCount f (some 1) := by
  obtain ⟨hnull, -⟩ | ⟨-, hfresh, file, hfiles, hone, -⟩ := h.files
  · exact absurd hnull hf
  refine ⟨(kinds_eq_zero.mp (O.unclaimed_of_notMem hfresh).1).2.2.2, funext fun g => ?_⟩
  rw [System.refCount, hfiles]
  by_cases hg : g = f
  · subst hg
    rw [Function.update_self, Function.update_self, Option.map_some, hone]
  · rw [Function.update_of_ne hg, Function.update_of_ne hg, System.refCount]

/-- A relation `R` that contains what `pm_execve` does besides loading the program. -/
structure ExecFrame (R : System μ → System μ → Prop) : Prop where
  trans : ∀ {s₁ s₂ s₃}, R s₁ s₂ → R s₂ s₃ → R s₁ s₃
  files : ∀ {s s'}, FilesOnly s s' → R s s'
  setPcb : ∀ {s : System μ} {p x x'}, s.pcbs p = some x → x'.core = x.core → x'.fds = x.fds →
    R s (s.setPcb p x')

namespace ExecFrame
variable {F R : System μ → System μ → Prop} {K : Nat → System μ → Prop}
  (hR : ExecFrame R)
include hR

/-- The end of `pm_execve`: the file is closed and the block of the loader released. -/
private theorem finish_ok (hM : M.Lawful Live) {s₁ s₂ : System μ} {f addr : Nat} {n : Int}
    (hsame : R s s₁) (O : Objects Live s₁ (addr :: L)) (hu : Unclaimed s₁ addr)
    (hf : f ≠ 0) (hfresh : s.files f = none)
    (hcount : s₁.refCount = Function.update s.refCount f (some 1))
    (hclose : vfsClose M s₁ f = .ok (n, s₂)) (hfree : s₂.kfree M addr = .ok s') :
    ∃ L', Objects Live s' L' ∧ R s s' ∧ s'.refCount = s.refCount := by
  obtain ⟨-, file, hfile, L₁, hclosed⟩ := vfsClose_ok hM O hf hclose
  obtain ⟨hmem, hu₁⟩ := hclosed.kept addr (.head _) hu
  obtain ⟨hmem₂, O₂⟩ := hclosed.objects.kfree_unclaimed hM hmem hu₁ hfree
  refine ⟨_, O₂, hR.trans hsame (hR.files (hclosed.frame.trans hmem₂.filesOnly)), ?_⟩
  -- The file was opened here, so this closes its only reference.
  have hone : file.fileRefCount = 1 := by
    have hf := congrFun hcount f
    rw [System.refCount, hfile, Function.update_self] at hf
    exact Option.some.inj hf
  funext g
  rw [System.refCount, hmem₂.files, hclosed.files, hone, if_pos (Nat.le_refl 1)]
  by_cases hg : g = f
  · subst hg
    rw [Function.update_self, System.refCount, hfresh]
  · rw [Function.update_of_ne hg]
    exact (congrFun hcount g).trans (Function.update_of_ne hg ..)

theorem pmExecve_ok (hM : M.Lawful Live) (O : Objects Live s L) {path : Lookup} {n : Int}
    (hF : ∀ f, LoadFrame M Live f F (K f)) (hFR : ∀ {s s'}, F s s' → R s s' ∧ SameFiles s s')
    (hK : ∀ {f s₁ L₁}, Opened Live L path f s s₁ L₁ → f ≠ 0 → K f s₁)
    (h : pmExecve M s p path regs = .ok (n, regs', s')) :
    ∃ L', Objects Live s' L' ∧ R s s' ∧ s'.refCount = s.refCount := by
  obtain ⟨⟨f, s₁⟩, hopen, h⟩ := Exec.bind_eq_ok.mp h
  obtain ⟨L₁, hopened⟩ := vfsOpen_ok hM O hopen
  dsimp only at h
  split at h
  · rename_i hf
    cases h
    refine ⟨L₁, hopened.objects, hR.files hopened.frame, ?_⟩
    obtain ⟨-, hfiles⟩ | ⟨hne, -⟩ := hopened.files
    · exact (SameFiles.of_eq hfiles).refCount
    · exact absurd hf hne
  rename_i hf
  obtain ⟨hfresh, hcount⟩ := hopened.refCount O hf
  obtain ⟨⟨pagemap, m₁⟩, hcreate, h⟩ := Exec.bind_eq_ok.mp h
  have O₁ := hopened.objects.withMem (hM.vmmCreateNewPagemap hopened.objects.live hcreate)
  have hK₁ := (hF f).keeps ((hF f).mem ⟨m₁, rfl⟩) (hK hopened hf)
  obtain ⟨⟨info?, s₂⟩, hload, h⟩ := Exec.bind_eq_ok.mp h
  obtain ⟨hframe, hinfo⟩ := (hF f).loadElfToMemory_ok hM O₁ hK₁ hload
  have hsame : R s s₂ := hR.trans (hR.files (hopened.frame.trans .mem)) (hFR hframe).1
  have hcount₂ : s₂.refCount = Function.update s.refCount f (some 1) :=
    (hFR hframe).2.refCount.trans hcount
  obtain ⟨⟨stackPage, m₂⟩, halloc, h⟩ := Exec.bind_eq_ok.mp h
  obtain ⟨⟨mapped, m₃⟩, hmap, h⟩ := Exec.bind_eq_ok.mp h
  dsimp only at h
  obtain ⟨rfl, O₂⟩ | ⟨info, rfl, hu, O₂⟩ := hinfo
  · -- Without an ELF file the null pointer is released.
    obtain ⟨m₄, -, h⟩ := Exec.bind_eq_ok.mp h
    obtain ⟨⟨_, s₃⟩, -, h⟩ := Exec.bind_eq_ok.mp h
    obtain ⟨s₄, hfree, -⟩ := Exec.bind_eq_ok.mp h
    obtain ⟨m, hfree, -⟩ := Objects.kfree_eq_ok.mp hfree
    exact absurd hfree hM.kfreeNull
  have hlive := hM.vmmMapPage (hM.pmmAllocPage O₂.live halloc) hmap
  dsimp only at h
  split at h
  · obtain ⟨m₄, hdelete, h⟩ := Exec.bind_eq_ok.mp h
    have O₃ := O₂.withMem (hM.vmmDeletePagemap hlive hdelete)
    obtain ⟨⟨_, s₃⟩, hclose, h⟩ := Exec.bind_eq_ok.mp h
    obtain ⟨s₄, hfree, h⟩ := Exec.bind_eq_ok.mp h
    cases h
    exact hR.finish_ok hM (hR.trans hsame (hR.files .mem)) O₃ hu hf hfresh hcount₂ hclose hfree
  · obtain ⟨x, hx, h⟩ := Exec.bind_eq_ok.mp h
    rw [deref_eq_ok] at hx
    obtain ⟨m₄, hdelete, h⟩ := Exec.bind_eq_ok.mp h
    have O₃ := O₂.withMem (hM.vmmDeletePagemap (hM.vmmReloadCr3 hlive) hdelete)
    obtain ⟨⟨_, s₃⟩, hclose, h⟩ := Exec.bind_eq_ok.mp h
    obtain ⟨s₄, hfree, h⟩ := Exec.bind_eq_ok.mp h
    cases h
    have hu₃ : Unclaimed { s₂ with mem := m₄ } info.addr := hu
    have hsame₃ : R s { s₂ with mem := m₄ } := hR.trans hsame (hR.files .mem)
    refine hR.finish_ok hM ?_ (O₃.setPcb hx) (hu₃.setPcb hx) hf hfresh hcount₂ hclose hfree
    exact hR.trans hsame₃ (hR.setPcb hx rfl rfl)

end ExecFrame

theorem execFrame_sameTasks : ExecFrame (μ := μ) SameTasks where
  trans h h' := h.trans h'
  files h := h.sameTasks
  setPcb hx hcore _ := .setPcb hx hcore

theorem pmExecve_ok (hM : M.Lawful Live) (O : Objects Live s L) {path : Lookup} {n : Int}
    (hpath : path.fromKeyboard = false) (h : pmExecve M s p path regs = .ok (n, regs', s')) :
    Undisturbed Live s s' := by
  obtain ⟨L', O', hsame, -⟩ := execFrame_sameTasks.pmExecve_ok
    (F := fun s s' => FilesOnly s s' ∧ SameFiles s s') hM O (fun _ => loadFrame_disk hM)
    (fun h => ⟨h.1.sameTasks, h.2⟩) (fun hopened hf => hopened.disk hf hpath) h
  exact ⟨L', O', hsame⟩

/-! ## Calls that disturb no process -/

theorem syscallWriteHandler_ok (O : Objects Live s L)
    (h : syscallWriteHandler s p regs = .ok (regs', s')) : Undisturbed Live s s' := by
  obtain ⟨x, -, h⟩ := Exec.bind_eq_ok.mp h
  dsimp only at h
  split at h
  · cases h
    exact .refl O
  · obtain ⟨⟨n, s₁⟩, hwrite, h⟩ := Exec.bind_eq_ok.mp h
    cases h
    exact (vfsWrite_ok O hwrite).undisturbed

theorem syscallLseekHandler_ok (O : Objects Live s L)
    (h : syscallLseekHandler s p regs = .ok (regs', s')) : Undisturbed Live s s' := by
  obtain ⟨x, -, h⟩ := Exec.bind_eq_ok.mp h
  dsimp only at h
  split at h
  · cases h
    exact .refl O
  · obtain ⟨⟨n, s₁⟩, hseek, h⟩ := Exec.bind_eq_ok.mp h
    cases h
    exact (vfsSeek_ok O hseek).undisturbed

theorem syscallOpenHandler_ok (hM : M.Lawful Live) (O : Objects Live s L) {path : Lookup}
    (h : syscallOpenHandler M s p regs path = .ok (regs', s')) : Undisturbed Live s s' := by
  obtain ⟨⟨f, s₁⟩, hopen, h⟩ := Exec.bind_eq_ok.mp h
  obtain ⟨L₁, hopened⟩ := vfsOpen_ok hM O hopen
  dsimp only at h
  split at h
  · cases h
    exact ⟨L₁, hopened.objects, hopened.frame.sameTasks⟩
  obtain ⟨x, hx, h⟩ := Exec.bind_eq_ok.mp h
  rw [deref_eq_ok] at hx
  split at h
  · cases h
    exact ⟨L₁, hopened.objects, hopened.frame.sameTasks⟩
  · cases h
    exact .setPcb hopened.objects hopened.frame.sameTasks hx rfl

theorem validFd_ne_zero {fd : Nat} {fds : Fin maxProcessFds → Nat} {i : Fin maxProcessFds}
    (h : validFd fd fds = some i) : fds i ≠ 0 ∧ i.val = fd := by
  unfold validFd at h
  split at h
  · split at h
    · cases h
    · cases h
      exact ⟨‹_›, rfl⟩
  · cases h

theorem syscallCloseHandler_ok (hM : M.Lawful Live) (O : Objects Live s L)
    (h : syscallCloseHandler M s p regs = .ok (regs', s')) : Undisturbed Live s s' := by
  obtain ⟨x, -, h⟩ := Exec.bind_eq_ok.mp h
  dsimp only at h
  split at h
  · cases h
    exact .refl O
  · rename_i fd hfd
    obtain ⟨⟨n, s₁⟩, hclose, h⟩ := Exec.bind_eq_ok.mp h
    obtain ⟨-, _, -, L₁, hclosed⟩ := vfsClose_ok hM O (validFd_ne_zero hfd).1 hclose
    obtain ⟨s₂, hmodify, h⟩ := Exec.bind_eq_ok.mp h
    obtain ⟨y, hy, rfl⟩ := modifyPcb_ok hmodify
    cases h
    exact .setPcb hclosed.objects hclosed.frame.sameTasks hy rfl

/-- A descriptor comes to refer to the file `f` as well. -/
private theorem shareFd_ok {s₁ : System μ} {f : Nat} {file file' : VfsFile}
    {fds : Fin maxProcessFds → Nat} (O : Objects Live s₁ L) (h : SameTasks s s₁)
    (hfile : s₁.files f = some file) (hcontent : file'.content = file.content)
    (hx : s₁.pcbs p = some x) :
    Undisturbed Live s ((s₁.setFile f file').setPcb p { x with fds }) := by
  obtain ⟨hkind, hdata⟩ := Prod.mk.injEq .. ▸ hcontent
  have O' := O.setFile hfile hkind hdata
  exact .setPcb O' (h.trans FilesOnly.setFile.sameTasks) hx rfl

theorem syscallDupHandler_ok (O : Objects Live s L)
    (h : syscallDupHandler s p regs = .ok (regs', s')) : Undisturbed Live s s' := by
  obtain ⟨x, hx, h⟩ := Exec.bind_eq_ok.mp h
  rw [deref_eq_ok] at hx
  dsimp only at h
  split at h
  · obtain ⟨file, hfile, h⟩ := Exec.bind_eq_ok.mp h
    rw [deref_eq_ok] at hfile
    cases h
    exact shareFd_ok O .refl hfile rfl hx
  · cases h
    exact .refl O

/-- The end of `dup2`, after the file of the new descriptor was closed. -/
private theorem dup2Share_ok {s₁ : System μ} {oldfd newfd : Fin maxProcessFds} {n : Nat}
    (O : Objects Live s₁ L) (hsame : SameTasks s s₁)
    (h : (do
      let current ← deref s₁.pcbs p
      let file ← deref s₁.files (current.fds oldfd)
      let s₂ := s₁.setFile (current.fds oldfd)
        { file with fileRefCount := u64 (file.fileRefCount + 1) }
      let s₂ := s₂.setPcb p
        { current with fds := Function.update current.fds newfd (current.fds oldfd) }
      pure ({ regs with rax := n }, s₂)) = Except.ok (regs', s')) : Undisturbed Live s s' := by
  obtain ⟨x, hx, h⟩ := Exec.bind_eq_ok.mp h
  rw [deref_eq_ok] at hx
  obtain ⟨file, hfile, h⟩ := Exec.bind_eq_ok.mp h
  rw [deref_eq_ok] at hfile
  cases h
  exact shareFd_ok O hsame hfile rfl hx

theorem syscallDup2Handler_ok (hM : M.Lawful Live) (O : Objects Live s L)
    (h : syscallDup2Handler M s p regs = .ok (regs', s')) : Undisturbed Live s s' := by
  obtain ⟨x, hx, h⟩ := Exec.bind_eq_ok.mp h
  dsimp only at h
  split at h
  · cases h
    exact .refl O
  split at h
  · split at h
    · cases h
      exact .refl O
    split at h
    · rename_i newfd hfd
      obtain ⟨⟨n, s₁⟩, hclose, h⟩ := Exec.bind_eq_ok.mp h
      obtain ⟨-, _, -, L₁, hclosed⟩ := vfsClose_ok hM O (validFd_ne_zero hfd).1 hclose
      exact dup2Share_ok hclosed.objects hclosed.frame.sameTasks h
    · obtain ⟨s₁, hs₁, h⟩ := Exec.bind_eq_ok.mp h
      cases hs₁
      exact dup2Share_ok O .refl h
  · cases h
    exact .refl O

theorem growHeap_ok (hM : M.Lawful Live) {pagemap endPage turns currPage : Nat} {m m' : μ}
    {grown : Bool} (hlive : Live m L)
    (h : growHeap M pagemap endPage turns currPage m = .ok (grown, m')) : Live m' L := by
  induction turns generalizing currPage m with
  | zero => cases h
  | succ turns ih =>
    rw [growHeap] at h
    split at h
    · obtain ⟨⟨page, m₁⟩, halloc, h⟩ := Exec.bind_eq_ok.mp h
      have hlive₁ := hM.pmmAllocPage hlive halloc
      dsimp only at h
      split at h
      · cases h
        exact hlive₁
      obtain ⟨⟨r, m₂⟩, hmap, h⟩ := Exec.bind_eq_ok.mp h
      have hlive₂ := hM.vmmMapPage hlive₁ hmap
      dsimp only at h
      split at h
      · cases h
        exact hlive₂
      · exact ih hlive₂ h
    · cases h
      exact hlive

theorem syscallBrkHandler_ok (hM : M.Lawful Live) (O : Objects Live s L)
    (h : syscallBrkHandler M s p regs = .ok (regs', s')) : Undisturbed Live s s' := by
  obtain ⟨x, hx, h⟩ := Exec.bind_eq_ok.mp h
  rw [deref_eq_ok] at hx
  dsimp only at h
  split at h
  · cases h
    exact .refl O
  obtain ⟨⟨grown, m⟩, hgrow, h⟩ := Exec.bind_eq_ok.mp h
  have O₁ := O.withMem (growHeap_ok hM O.live hgrow)
  dsimp only at h
  split at h
  · cases h
    exact .setPcb O₁ FilesOnly.mem.sameTasks hx rfl
  · cases h
    exact ⟨L, O₁, FilesOnly.mem.sameTasks⟩

theorem syscallKillHandler_ok (O : Objects Live s L)
    (h : syscallKillHandler s regs = .ok (regs', s')) : Undisturbed Live s s' := by
  unfold syscallKillHandler at h
  split at h
  · cases h
    exact .refl O
  obtain ⟨⟨n, s₁⟩, hkill, h⟩ := Exec.bind_eq_ok.mp h
  cases h
  unfold pmKill at hkill
  split at hkill
  · cases hkill
    exact .refl O
  · obtain ⟨s₂, hmodify, hkill⟩ := Exec.bind_eq_ok.mp hkill
    cases hkill
    obtain ⟨x, hx, rfl⟩ := modifyPcb_ok hmodify
    exact .setPcb O .refl hx rfl

theorem gettimeofday_ok (hM : M.Lawful Live) (O : Objects Live s L) {secs timeval : Nat}
    (h : gettimeofday M s secs timeval = .ok s') : Undisturbed Live s s' := by
  obtain ⟨m₁, hsec, h⟩ := Exec.bind_eq_ok.mp h
  obtain ⟨m₂, husec, h⟩ := Exec.bind_eq_ok.mp h
  cases h
  exact O.undisturbed_mem (hM.store (hM.store O.live hsec) husec)

/-! ## All calls -/

/-- After a call the caller still has the processor, or it has given it up. -/
inductive Called (Live : μ → List Nat → Prop) (entry : TaskView.Entry) (v : TaskView) (p : Nat)
    (s' : System μ) : Prop
  | stays {L' : List Nat} {v' : TaskView} : TaskView.Act entry v v' → v'.current = some p →
    Coherent Live s' L' v' → Called Live entry v p s'
  | leaves {L' : List Nat} {v' : TaskView} : (∀ frame, TaskView.Act entry v (v'.save p frame)) →
    v'.current = none → v'.stateOf p ≠ some .ready → Coherent Live s' L' v' →
    Called Live entry v p s'

theorem Undisturbed.called {entry : TaskView.Entry} (h : Undisturbed Live s s')
    (C : Coherent Live s L v) (hcurr : v.current = some p) :
    Steady s s' ∧ Called Live entry v p s' := by
  obtain ⟨L', O', hsame⟩ := h
  exact ⟨hsame.steady, .stays .quiet hcurr (C.sameTasks hsame O')⟩

theorem syscallReadHandler_ok {entry : TaskView.Entry} (hM : M.Lawful Live)
    (C : Coherent Live s L v) (hcurr : v.current = some p)
    (h : syscallReadHandler M s p regs = .ok (regs', s')) :
    Steady s s' ∧ Called Live entry v p s' := by
  obtain ⟨x, hx, h⟩ := Exec.bind_eq_ok.mp h
  rw [deref_eq_ok] at hx
  split at h
  · cases h
    exact (Undisturbed.refl C.objects).called C hcurr
  obtain ⟨⟨n, s₁⟩, hread, h⟩ := Exec.bind_eq_ok.mp h
  cases h
  cases vfsRead_ok hM C.objects hread with
  | none _ => exact (Undisturbed.refl C.objects).called C hcurr
  | disk _ _ huses => exact huses.undisturbed.called C hcurr
  | keys _ _ hkeys huses _ _ =>
    obtain ⟨m, rb, -, hstores, rfl⟩ := hkeys
    have C₁ := C.withMem (storeKeys_live hM C.objects.live hstores)
    obtain ⟨hsteady, hcalled⟩ := huses.undisturbed.called C₁.withRing hcurr
    exact ⟨⟨hsteady.currTask, hsteady.firstTaskAdded, hsteady.cpuIsIdle, hsteady.device⟩, hcalled⟩
  | waits _ _ _ hblock =>
    obtain ⟨context, -, ht⟩ := C.task_of_pcb hx
    obtain ⟨C', hsteady⟩ := C.block hcurr ht (.inl rfl) hblock
    refine ⟨hsteady, .leaves (fun frame => .block p _ _ frame hcurr ht fun hw => ?_) rfl ?_ C'⟩
    · exact absurd hw.symm (C.table.deviceOnce p x hx)
    · simp [TaskView.stateOf_block_self ht]

theorem fork_called {entry : TaskView.Entry} {pid : Nat} (hM : M.Lawful Live)
    (C : Coherent Live s L v) (hcurr : v.current = some p) (hfirst : s.gFirstTaskAdded = false)
    (hempty : ∀ w q, s.waitQueues w = none → s'.waitQueues w = some q → q = ⟨0, 0⟩)
    (hnumber : entry.number = some 57) (h : pmFork M s p regs = .ok (pid, s')) :
    Steady s s' ∧ Called Live entry v p s' := by
  obtain ⟨parent, child, queue, info, pagemap, s₁, L₁, hparent, hpos, hlt, hfree, F, -, h⟩ :=
    pmFork_ok hM C.objects h
  obtain ⟨hchild, hsteady, C'⟩ := C.fork F hpos hlt hfree rfl hfirst h hempty
  obtain ⟨context, -, hu⟩ := C.task_of_pcb hparent
  refine ⟨hsteady, .stays (.fork child p _ _ hnumber hcurr hu hchild rfl rfl ?_) hcurr C'⟩
  intro r t ht hpid
  obtain ⟨y, hy, -, htask⟩ := C.pcb_of_task ht
  obtain ⟨-, -, hlist⟩ := C.table.listed r y hy
  rw [htask] at hpid
  exact C.pcb_ne_zero hy (hlist.symm.trans ((congrArg _ hpid).trans hfree))

theorem exit_called {entry : TaskView.Entry} (hM : M.Lawful Live) (C : Coherent Live s L v)
    (hcurr : v.current = some p) (h : pmExit M s entry.exitStatus p = .ok s') :
    Steady s s' ∧ Called Live entry v p s' := by
  obtain ⟨L', q, t, t', u, ht, ht', hu, hpid, C', hsteady⟩ := C.exit hM hcurr h
  refine ⟨hsteady, .leaves (fun frame => .exit p q t t' u (some frame) hcurr ht ht' hu hpid) rfl ?_
    C'⟩
  have hzombie : ((((v.die p entry.exitStatus).reparent t.pid).wake u.waitQueue).save? p
      none).stateOf p = some .zombie := TaskView.stateOf_exit C.scheduled hcurr ht
  rw [TaskView.save?] at hzombie
  simp [hzombie]

theorem wait_called {entry : TaskView.Entry} {status n : Nat} (hM : M.Lawful Live)
    (C : Coherent Live s L v) (hcurr : v.current = some p) (hnumber : entry.number = some 61)
    (h : pmWait M s status p = .ok (n, s')) : Steady s s' ∧ Called Live entry v p s' := by
  obtain ⟨hsteady, t, ht, hwaited⟩ := C.wait hM hcurr h
  refine ⟨hsteady, ?_⟩
  cases hwaited with
  | reap hu hstate hppid C' =>
    exact .stays (.reap _ p _ t hnumber hcurr ht hu hstate hppid) hcurr C'
  | fail => exact .stays .quiet hcurr C
  | block hzombie _ C' =>
    refine .leaves (fun frame => .block p _ t frame hcurr ht fun _ => hzombie) rfl ?_ C'
    simp [TaskView.stateOf_block_self ht]

/-- The entry by a system call with the given registers. -/
def callEntry (regs : InterruptInfo) : TaskView.Entry := ⟨some regs.rax, regs, toInt32 regs.rdi⟩

/-- What a system call runs: one of the functions that may disturb processes, or another one. -/
inductive Dispatched (M : MemoryManager μ) (Live : μ → List Nat → Prop) (s : System μ) (p : Nat)
    (regs : InterruptInfo) (env : SyscallEnv) : InterruptInfo → System μ → Prop
  | read {regs' : InterruptInfo} {s' : System μ} : regs.rax = 0 →
    syscallReadHandler M s p regs = .ok (regs', s') → Dispatched M Live s p regs env regs' s'
  | fork {pid : Nat} {s' : System μ} : regs.rax = 57 → pmFork M s p regs = .ok (pid, s') →
    Dispatched M Live s p regs env { regs with rax := pid } s'
  | execve {n : Int} {regs' : InterruptInfo} {s' : System μ} : regs.rax = 59 →
    pmExecve M s p env.path regs = .ok (n, regs', s') →
    Dispatched M Live s p regs env { regs' with rax := ofInt64 n } s'
  | exit {s' : System μ} : regs.rax = 60 → pmExit M s (toInt32 regs.rdi) p = .ok s' →
    Dispatched M Live s p regs env regs s'
  | wait {n : Nat} {s' : System μ} : regs.rax = 61 → pmWait M s regs.rdi p = .ok (n, s') →
    Dispatched M Live s p regs env { regs with rax := n } s'
  | other {regs' : InterruptInfo} {s' : System μ} : regs.rax ∉ [0, 57, 59, 60, 61] →
    Undisturbed Live s s' → Dispatched M Live s p regs env regs' s'

theorem syscallDispatch_cases {env : SyscallEnv} (hM : M.Lawful Live) (O : Objects Live s L)
    (h : syscallDispatch M s p regs env = .ok (regs', s')) :
    Dispatched M Live s p regs env regs' s' := by
  have hother {n : Nat} (hrax : regs.rax = n) (hn : n ∉ [0, 57, 59, 60, 61])
      (h : Undisturbed Live s s') : Dispatched M Live s p regs env regs' s' := .other (hrax ▸ hn) h
  unfold syscallDispatch at h
  split at h
  case h_1 hrax => exact .read hrax h
  case h_2 hrax => exact hother hrax (by decide) (syscallWriteHandler_ok O h)
  case h_3 hrax => exact hother hrax (by decide) (syscallOpenHandler_ok hM O h)
  case h_4 hrax => exact hother hrax (by decide) (syscallCloseHandler_ok hM O h)
  case h_5 hrax => exact hother hrax (by decide) (syscallLseekHandler_ok O h)
  case h_6 hrax => exact hother hrax (by decide) (syscallBrkHandler_ok hM O h)
  case h_7 hrax => exact hother hrax (by decide) (syscallDupHandler_ok O h)
  case h_8 hrax => exact hother hrax (by decide) (syscallDup2Handler_ok hM O h)
  case h_9 hrax =>
    obtain ⟨x, -, h⟩ := Exec.bind_eq_ok.mp h
    cases h
    exact hother hrax (by decide) (.refl O)
  case h_10 hrax =>
    obtain ⟨⟨pid, s₁⟩, hfork, h⟩ := Exec.bind_eq_ok.mp h
    cases h
    exact .fork hrax hfork
  case h_11 hrax =>
    obtain ⟨⟨n, regs₁, s₁⟩, hexecve, h⟩ := Exec.bind_eq_ok.mp h
    cases h
    exact .execve hrax hexecve
  case h_12 hrax =>
    obtain ⟨s₁, hexit, h⟩ := Exec.bind_eq_ok.mp h
    cases h
    exact .exit hrax hexit
  case h_13 hrax =>
    obtain ⟨⟨n, s₁⟩, hwait, h⟩ := Exec.bind_eq_ok.mp h
    cases h
    exact .wait hrax hwait
  case h_14 hrax => exact hother hrax (by decide) (syscallKillHandler_ok O h)
  case h_15 hrax =>
    obtain ⟨s₁, htime, h⟩ := Exec.bind_eq_ok.mp h
    cases h
    exact hother hrax (by decide) (gettimeofday_ok hM O htime)
  case h_16 hrax =>
    obtain ⟨x, -, h⟩ := Exec.bind_eq_ok.mp h
    cases h
    exact hother hrax (by decide) (.refl O)
  case h_17 => cases h

theorem syscallDispatch_ok {env : SyscallEnv} (hM : M.Lawful Live) (C : Coherent Live s L v)
    (hcurr : v.current = some p) (hfirst : s.gFirstTaskAdded = false)
    (hempty : ∀ w q, s.waitQueues w = none → s'.waitQueues w = some q → q = ⟨0, 0⟩)
    (hexec : regs.rax = 59 → env.path.fromKeyboard = false)
    (h : syscallDispatch M s p regs env = .ok (regs', s')) :
    Steady s s' ∧ Called Live (callEntry regs) v p s' := by
  cases syscallDispatch_cases hM C.objects h with
  | read _ h => exact syscallReadHandler_ok hM C hcurr h
  | fork hrax h => exact fork_called hM C hcurr hfirst hempty (congrArg some hrax) h
  | execve hrax h => exact (pmExecve_ok hM C.objects (hexec hrax) h).called C hcurr
  | exit _ h => exact exit_called hM C hcurr h
  | wait hrax h => exact wait_called hM C hcurr (congrArg some hrax) h
  | other _ h => exact h.called C hcurr

end

end TrazelOs
