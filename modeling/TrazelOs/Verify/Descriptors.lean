import Mathlib.Data.Fintype.Prod
import TrazelOs.Theory.RefCount
import TrazelOs.Verify.Intact

/-! # File descriptors

The descriptors of the listed processes are the slots of a table that refers to the open files,
each of which counts its references. -/

namespace TrazelOs

open Theory (RefTable holders)

variable {μ : Type}

/-- The descriptors of the process at `p`. -/
def System.fds (s : System μ) (p : Nat) : Fin maxProcessFds → Nat :=
  ((s.pcbs p).map Pcb.fds).getD fun _ => 0

/-- An entry of the process list and a descriptor of its process. -/
abbrev Slot := Fin maxPids × Fin maxProcessFds

def System.ledger (s : System μ) : RefTable Slot Nat where
  refs x := s.fds (s.gProcessList x.1) x.2
  count := s.refCount

/-- The processes keep their descriptors, and none exits. -/
structure KeepsFds (s s' : System μ) : Prop where
  fds : ∀ p, (s'.pcbs p).map Pcb.fds = (s.pcbs p).map Pcb.fds
  zombies : ∀ p x', s'.pcbs p = some x' → x'.processState = .zombie →
    ∃ x, s.pcbs p = some x ∧ x.processState = .zombie
  processList : s'.gProcessList = s.gProcessList

/-- The files are counted as before, too. -/
structure SameFds (s s' : System μ) : Prop extends KeepsFds s s' where
  refCount : s'.refCount = s.refCount

/-- A process that exited has no descriptor left. -/
def ZombiesClosed (s : System μ) : Prop :=
  ∀ p x, s.pcbs p = some x → x.processState = .zombie → ∀ i, x.fds i = 0

section
variable {M : MemoryManager μ} {Live : μ → List Nat → Prop} {s s' : System μ} {L L' : List Nat}
  {p w : Nat} {x : Pcb}

theorem System.fds_of_pcb (hx : s.pcbs p = some x) : s.fds p = x.fds := by
  rw [System.fds, hx, Option.map_some, Option.getD_some]

theorem System.ledger_congr (hfds : ∀ p, (s'.pcbs p).map Pcb.fds = (s.pcbs p).map Pcb.fds)
    (hlist : s'.gProcessList = s.gProcessList) (hcount : s'.refCount = s.refCount) :
    s'.ledger = s.ledger := by
  simp only [System.ledger, System.fds, hfds, hlist, hcount]

theorem System.ledger_eq {R : RefTable Slot Nat} (hrefs : s.ledger.refs = R.refs)
    (hcount : s.refCount = R.count) : s.ledger = R := by
  cases R
  cases hrefs
  cases hcount
  rfl

theorem KeepsFds.trans {s₁ s₂ s₃ : System μ} (h : KeepsFds s₁ s₂) (h' : KeepsFds s₂ s₃) :
    KeepsFds s₁ s₃ where
  fds p := (h'.fds p).trans (h.fds p)
  zombies p x hx hz :=
    have ⟨y, hy, hz'⟩ := h'.zombies p x hx hz
    h.zombies p y hy hz'
  processList := h'.processList.trans h.processList

theorem FilesOnly.keepsFds (h : FilesOnly s s') : KeepsFds s s' := by
  obtain ⟨_, _, rfl⟩ := h
  exact ⟨fun _ => rfl, fun _ x hx hz => ⟨x, hx, hz⟩, rfl⟩

namespace SameFds

theorem refl : SameFds s s := ⟨⟨fun _ => rfl, fun _ x hx hz => ⟨x, hx, hz⟩, rfl⟩, rfl⟩

theorem trans {s₁ s₂ s₃ : System μ} (h : SameFds s₁ s₂) (h' : SameFds s₂ s₃) : SameFds s₁ s₃ :=
  ⟨h.toKeepsFds.trans h'.toKeepsFds, h'.refCount.trans h.refCount⟩

theorem ledger (h : SameFds s s') : s'.ledger = s.ledger :=
  System.ledger_congr h.fds h.processList h.refCount

theorem zombiesClosed (h : SameFds s s') (Z : ZombiesClosed s) : ZombiesClosed s' := by
  intro p x' hx' hz i
  obtain ⟨x, hx, hz⟩ := h.zombies p x' hx' hz
  have hfds := h.fds p
  rw [hx, hx'] at hfds
  exact congrFun (Option.some.inj hfds) i ▸ Z p x hx hz i

/-- A step that leaves the processes, the list and the files alone. -/
theorem of_eq (hpcbs : s'.pcbs = s.pcbs) (hlist : s'.gProcessList = s.gProcessList)
    (hcount : s'.refCount = s.refCount) : SameFds s s' where
  fds p := by rw [hpcbs]
  zombies p x hx hz := ⟨x, hpcbs ▸ hx, hz⟩
  processList := hlist
  refCount := hcount

theorem setPcb {x' : Pcb} (hx : s.pcbs p = some x) (hfds : x'.fds = x.fds)
    (hzombie : x'.processState = .zombie → x.processState = .zombie) :
    SameFds s (s.setPcb p x') where
  fds q := by
    by_cases hq : q = p
    · subst hq
      simp only [System.setPcb, Function.update_self, hx, Option.map_some, hfds]
    · simp only [System.setPcb, Function.update_of_ne hq]
  zombies q y hy hz := by
    by_cases hq : q = p
    · subst hq
      simp only [System.setPcb, Function.update_self] at hy
      cases hy
      exact ⟨x, hx, hzombie hz⟩
    · simp only [System.setPcb, Function.update_of_ne hq] at hy
      exact ⟨y, hy, hz⟩
  processList := rfl
  refCount := rfl

end SameFds

theorem LinksOnly.sameFds (h : LinksOnly s s') : SameFds s s' := by
  have hzombies : ∀ p x', s'.pcbs p = some x' → x'.processState = .zombie →
      ∃ x, s.pcbs p = some x ∧ x.processState = .zombie := by
    intro p x' hx' hz
    obtain ⟨x, hx, hlink⟩ := h.pcb hx'
    exact ⟨x, hx, (congrArg Pcb.processState hlink :).trans hz⟩
  obtain ⟨pcbs, rfl, hpcbs⟩ := h
  have hfds : ∀ o : Option Pcb, o.map Pcb.fds = (o.map Pcb.unlinked).map Pcb.fds := by
    intro o
    cases o <;> rfl
  refine ⟨⟨fun p => ?_, hzombies, rfl⟩, rfl⟩
  rw [hfds (pcbs p), hpcbs, ← hfds]

theorem FilesOnly.sameFds (h : FilesOnly s s') (hfiles : SameFiles s s') : SameFds s s' :=
  ⟨h.keepsFds, hfiles.refCount⟩

theorem UsesFiles.sameFds (h : UsesFiles Live L s s') : SameFds s s' := h.frame.sameFds h.files

theorem modifyPcb_sameFds {f : Pcb → Pcb} (h : s.modifyPcb p f = .ok s')
    (hfds : ∀ x, (f x).fds = x.fds)
    (hzombie : ∀ x, (f x).processState = .zombie → x.processState = .zombie) : SameFds s s' := by
  obtain ⟨x, hx, rfl⟩ := modifyPcb_ok h
  exact .setPcb hx (hfds x) (hzombie x)

theorem pmWaitqueueEnqueue_sameFds (h : pmWaitqueueEnqueue s w = .ok s') : SameFds s s' := by
  obtain ⟨s₁, hmodify, h⟩ := Exec.bind_eq_ok.mp h
  obtain ⟨q, -, h⟩ := Exec.bind_eq_ok.mp h
  obtain ⟨⟨q', s₂⟩, henqueue, h⟩ := Exec.bind_eq_ok.mp h
  cases h
  exact (modifyPcb_sameFds hmodify (fun _ => rfl) (fun _ h => nomatch h)).trans
    ((taskEnqueue_links henqueue).sameFds.trans (.of_eq rfl rfl rfl))

theorem wakeFirst_sameFds {q : TaskQueue} (h : wakeFirst s w q = .ok s') : SameFds s s' := by
  obtain ⟨⟨task, q₁, s₁⟩, hdequeue, h⟩ := Exec.bind_eq_ok.mp h
  obtain ⟨s₂, hmodify, h⟩ := Exec.bind_eq_ok.mp h
  obtain ⟨⟨q₂, s₃⟩, henqueue, h⟩ := Exec.bind_eq_ok.mp h
  cases h
  have hqueue : SameFds s₁ (s₁.setWaitQueue w q₁) := .of_eq rfl rfl rfl
  exact (taskDequeue_links hdequeue).sameFds.trans (hqueue.trans
    ((modifyPcb_sameFds hmodify (fun _ => rfl) (fun _ h => nomatch h)).trans
      ((taskEnqueue_links henqueue).sameFds.trans (.of_eq rfl rfl rfl))))

theorem wakeLoop_sameFds {turns : Nat} (h : pmWaitqueueDequeueAll.loop w turns s = .ok s') :
    SameFds s s' := by
  induction turns generalizing s with
  | zero => cases h
  | succ turns ih =>
    obtain ⟨q, -, h⟩ := Exec.bind_eq_ok.mp h
    split at h
    · cases h
      exact .refl
    · obtain ⟨s₁, hfirst, h⟩ := Exec.bind_eq_ok.mp h
      exact (wakeFirst_sameFds hfirst).trans (ih h)

theorem pmWaitqueueDequeueAll_sameFds (h : pmWaitqueueDequeueAll s w = .ok s') : SameFds s s' :=
  wakeLoop_sameFds h

theorem reparentChildren_sameFds {pid : Nat} (I : Intact Live s L)
    (h : reparentChildren s pid = .ok s') : SameFds s s' := by
  rw [reparentChildren_eq I.table I.pcb_null h]
  have hfds : ∀ y : Pcb, (y.reparent pid).fds = y.fds ∧
      (y.reparent pid).processState = y.processState := by
    intro y
    unfold Pcb.reparent
    split <;> exact ⟨rfl, rfl⟩
  refine ⟨⟨fun p => ?_, fun p x' hx' hz => ?_, rfl⟩, rfl⟩
  · simp only [System.reparented, Option.map_map, Function.comp_def, hfds]
  · obtain ⟨y, hy, rfl⟩ := Option.map_eq_some_iff.mp hx'
    exact ⟨y, hy, (hfds y).2 ▸ hz⟩

/-! ## One process changes its descriptors -/

/-- The slots of the process at `p`. -/
def System.own (s : System μ) (p : Nat) (z : Slot) : Prop := s.gProcessList z.1 = p

namespace Intact

/-- The slot of the descriptor `i` of a process. -/
def slot (I : Intact Live s L) (hx : s.pcbs p = some x) (i : Fin maxProcessFds) : Slot :=
  (⟨x.pid, (I.table.listed p x hx).2.1⟩, i)

theorem refs_slot (I : Intact Live s L) (hx : s.pcbs p = some x) (i : Fin maxProcessFds) :
    s.ledger.refs (I.slot hx i) = x.fds i := by
  simp only [System.ledger, slot, (I.table.listed p x hx).2.2, System.fds_of_pcb hx]

theorem own_slot (I : Intact Live s L) (hx : s.pcbs p = some x) (i : Fin maxProcessFds) :
    s.own p (I.slot hx i) := (I.table.listed p x hx).2.2

theorem held (I : Intact Live s L) (hx : s.pcbs p = some x) (i : Fin maxProcessFds) :
    holders s.ledger.refs (x.fds i) ≠ 0 := Theory.holders_ne_zero.mpr ⟨_, I.refs_slot hx i⟩

/-- Only the process itself is listed under its pid. -/
theorem listed_iff (I : Intact Live s L) (hx : s.pcbs p = some x) {i : Nat} :
    s.gProcessList i = p ↔ i = x.pid := by
  refine ⟨fun hi => ?_, fun hi => hi ▸ (I.table.listed p x hx).2.2⟩
  have hne : s.gProcessList i ≠ 0 := by
    intro h₀
    rw [← hi, h₀, I.pcb_null] at hx
    cases hx
  exact (I.table.pid_of_listed hne (hi ▸ hx)).symm

theorem refs_setPcb {i : Fin maxProcessFds} {f : Nat} (I : Intact Live s L) (hx : s.pcbs p = some x)
    (hpcbs : s'.pcbs =
      Function.update s.pcbs p (some { x with fds := Function.update x.fds i f }))
    (hlist : s'.gProcessList = s.gProcessList) :
    s'.ledger.refs = Function.update s.ledger.refs (I.slot hx i) f := by
  have hx' : s'.pcbs p = some { x with fds := Function.update x.fds i f } := by
    rw [hpcbs, Function.update_self]
  funext y
  obtain ⟨j, k⟩ := y
  change s'.fds (s'.gProcessList j) k = _
  rw [hlist]
  by_cases hj : j.val = x.pid
  · have hslot : (j, k) = I.slot hx k := Prod.ext (Fin.ext hj) rfl
    rw [(I.listed_iff hx).mpr hj, System.fds_of_pcb hx', hslot]
    by_cases hk : k = i
    · rw [hk, Function.update_self]
      exact Function.update_self ..
    · have hne : I.slot hx k ≠ I.slot hx i := fun h => hk (Prod.mk.inj h).2
      rw [Function.update_of_ne hne, I.refs_slot]
      exact Function.update_of_ne hk ..
  · have hne : (j, k) ≠ I.slot hx i := fun h => hj (congrArg Fin.val (Prod.mk.inj h).1)
    rw [Function.update_of_ne hne, System.fds, hpcbs,
      Function.update_of_ne fun h => hj ((I.listed_iff hx).mp h)]
    rfl

end Intact

/-! ## Closing -/

/-- A descriptor is closed: `vfs_close` and the null in the slot. -/
structure FdClosed (Live : μ → List Nat → Prop) (s : System μ) (p : Nat) (x : Pcb)
    (i : Fin maxProcessFds) (s' : System μ) : Prop where
  intact : ∃ L', Intact Live s' L'
  pcbs : s'.pcbs = Function.update s.pcbs p (some { x with fds := Function.update x.fds i 0 })
  list : s'.gProcessList = s.gProcessList
  opened : (s.ledger.count (x.fds i)).isSome
  ledger : ∀ (L : List Nat) (I : Intact Live s L) (hx : s.pcbs p = some x),
    s'.ledger = s.ledger.close (I.slot hx i)

theorem vfsClose_refCount {f : Nat} {file : VfsFile} (hfile : s.files f = some file)
    (h : Closed Live L f file s s' L') : s'.refCount = Function.update s.refCount f
      ((s.refCount f).bind fun n => if n ≤ 1 then none else some (n - 1)) := by
  funext g
  rw [System.refCount, h.files]
  by_cases hg : g = f
  · subst hg
    rw [Function.update_self, Function.update_self, System.refCount, hfile, Option.map_some,
      Option.bind_some]
    split <;> rfl
  · rw [Function.update_of_ne hg, Function.update_of_ne hg, System.refCount]

theorem Intact.closeFd {i : Fin maxProcessFds} {n : Int} {s₁ : System μ} {y : Pcb}
    (hM : M.Lawful Live) (I : Intact Live s L) (hx : s.pcbs p = some x) (hfd : x.fds i ≠ 0)
    (hclose : vfsClose M s (x.fds i) = .ok (n, s₁)) (hy : s₁.pcbs p = some y) :
    FdClosed Live s p x i (s₁.setPcb p { y with fds := Function.update y.fds i 0 }) := by
  obtain ⟨-, file, hfile, L₁, hclosed⟩ := vfsClose_ok hM I.objects hfd hclose
  have hcount := vfsClose_refCount hfile hclosed
  have O₁ := hclosed.objects
  obtain ⟨m, files, rfl⟩ := hclosed.frame
  have hxy : y = x := Option.some.inj (hy.symm.trans hx)
  subst hxy
  have T₁ : ProcessTable { s with mem := m, files } :=
    I.table.congr (fun _ => rfl) rfl (fun _ h => h) (fun _ h => h) rfl
  refine ⟨⟨L₁, O₁.setPcb hx, T₁.setPcb hx rfl⟩, rfl, rfl, ?_, fun L I hx => ?_⟩
  · simp only [System.ledger, System.refCount, hfile, Option.map_some, Option.isSome_some]
  · refine System.ledger_eq (I.refs_setPcb hx rfl rfl) ?_
    rw [RefTable.close, I.refs_slot]
    exact hcount

/-- One turn of the loop over the descriptors. -/
def closeFdTurn (M : MemoryManager μ) (p : Nat) (s : System μ) (i : Fin maxProcessFds) :
    Exec (System μ) := do
  let current ← deref s.pcbs p
  if current.fds i = 0 then return s
  else
    let (_, s) ← vfsClose M s (current.fds i)
    s.modifyPcb p fun x => { x with fds := Function.update x.fds i 0 }

theorem closeFds_eq : closeFds M s p = (List.finRange maxProcessFds).foldlM (closeFdTurn M p) s := rfl

/-- The descriptors of the process `p` have been closed up to some point. -/
def ClosedSome (Live : μ → List Nat → Prop) (s : System μ) (p : Nat) (x : Pcb) (s₁ : System μ) : Prop :=
  (∃ L₁, Intact Live s₁ L₁) ∧ s.ledger.Closes (s.own p) s₁.ledger ∧
    s₁.gProcessList = s.gProcessList ∧
    ∃ fds, s₁.pcbs = Function.update s.pcbs p (some { x with fds })

theorem ClosedSome.turn {s₁ s₂ : System μ} {i : Fin maxProcessFds} (hM : M.Lawful Live)
    (hP : ClosedSome Live s p x s₁) (h : closeFdTurn M p s₁ i = .ok s₂) :
    ClosedSome Live s p x s₂ ∧ ∀ j, (j = i ∨ s₁.fds p j = 0) → s₂.fds p j = 0 := by
  obtain ⟨⟨L₁, I₁⟩, hcloses, hlist, fds, hpcbs⟩ := hP
  have hx₁ : s₁.pcbs p = some { x with fds } := by rw [hpcbs, Function.update_self]
  obtain ⟨x₁, hx₁', h⟩ := Exec.bind_eq_ok.mp h
  rw [deref_eq_ok, hx₁] at hx₁'
  cases hx₁'
  split at h
  · rename_i hfd
    cases h
    refine ⟨⟨⟨L₁, I₁⟩, hcloses, hlist, fds, hpcbs⟩, fun j hj => ?_⟩
    obtain rfl | hj := hj
    · rwa [System.fds_of_pcb hx₁]
    · exact hj
  · rename_i hfd
    obtain ⟨⟨n, s₃⟩, hclose, h⟩ := Exec.bind_eq_ok.mp h
    obtain ⟨y, hy, rfl⟩ := modifyPcb_ok h
    have hclosed := I₁.closeFd hM hx₁ hfd hclose hy
    have hx₂ := congrFun hclosed.pcbs p
    rw [Function.update_self] at hx₂
    refine ⟨⟨hclosed.intact, ?_, hclosed.list.trans hlist, Function.update fds i 0, ?_⟩,
      fun j hj => ?_⟩
    · rw [hclosed.ledger L₁ I₁ hx₁]
      have hslot := I₁.refs_slot hx₁ i
      have hown := I₁.own_slot hx₁ i
      rw [System.own, hlist] at hown
      exact .close hcloses hown (hslot ▸ hfd) (hslot ▸ hclosed.opened)
    · rw [hclosed.pcbs, hpcbs, Function.update_idem]
    · rw [System.fds_of_pcb hx₂]
      rw [System.fds_of_pcb hx₁] at hj
      by_cases hji : j = i
      · rw [hji]
        exact Function.update_self ..
      · exact (Function.update_of_ne hji ..).trans (hj.resolve_left hji)

/-- `pm_exit` closes the descriptors one after the other until none is left. -/
theorem Intact.closeFds (hM : M.Lawful Live) (I : Intact Live s L) (hx : s.pcbs p = some x)
    (h : closeFds M s p = .ok s') :
    (∃ L', Intact Live s' L') ∧ s.ledger.Closes (s.own p) s'.ledger ∧
      s'.pcbs = Function.update s.pcbs p (some { x with fds := fun _ => 0 }) := by
  rw [closeFds_eq] at h
  have hP₀ : ClosedSome Live s p x s :=
    ⟨⟨L, I⟩, .refl, rfl, x.fds, by rw [← hx, Function.update_eq_self]⟩
  have hP : ClosedSome Live s p x s' := Exec.foldlM_ok (fun _ _ _ _ hP h => (hP.turn hM h).1) hP₀ h
  have hzero : ∀ j, s'.fds p j = 0 := fun j =>
    Exec.foldlM_mem (f := closeFdTurn M p) (p := ClosedSome Live s p x) (q := fun s₁ => s₁.fds p j = 0)
      (fun _ _ _ _ hP h => (ClosedSome.turn hM hP h).1) (List.mem_finRange j)
      (fun _ _ _ hP hq h => (hP.turn hM h).2 j (.inr hq))
      (fun _ _ hP h => (hP.turn hM h).2 j (.inl rfl)) hP₀ h
  obtain ⟨hintact, hcloses, -, fds, hpcbs⟩ := hP
  have hfds : fds = fun _ => 0 := by
    funext j
    have hx' : s'.pcbs p = some { x with fds } := by rw [hpcbs, Function.update_self]
    have hj := hzero j
    rwa [System.fds_of_pcb hx'] at hj
  exact ⟨hintact, hcloses, hfds ▸ hpcbs⟩

/-! ## Sharing -/

theorem card_slot : Fintype.card Slot < 2 ^ 64 - 1 := by
  rw [Fintype.card_prod, Fintype.card_fin, Fintype.card_fin]
  decide

/-- The count of a held file does not wrap around. -/
theorem refCount_share {R : RefTable Slot Nat} {d : Nat → Nat} {f : Nat} {file : VfsFile}
    (E : R.Even d) (hcount : s.refCount = R.count) (hf : f ≠ 0) (hheld : holders R.refs f ≠ 0)
    (hfile : s.files f = some file) :
    (s.setFile f { file with fileRefCount := u64 (file.fileRefCount + 1) }).refCount =
      Function.update R.count f ((R.count f).map (· + 1)) := by
  have hn : R.count f = some file.fileRefCount := by rw [← hcount, System.refCount, hfile]; rfl
  have hle := E.le_card hf hn hheld
  have hcard := card_slot
  rw [System.refCount_setFile, hcount, hn, Option.map_some, u64_of_lt (by omega)]

theorem Intact.shareFd {d : Nat → Nat} {i j : Fin maxProcessFds} {file : VfsFile}
    (I : Intact Live s L) (E : s.ledger.Even d) (hx : s.pcbs p = some x) (hfd : x.fds i ≠ 0)
    (hfile : s.files (x.fds i) = some file) :
    ((s.setFile (x.fds i) { file with fileRefCount := u64 (file.fileRefCount + 1) }).setPcb p
      { x with fds := Function.update x.fds j (x.fds i) }).ledger =
        s.ledger.share (I.slot hx j) (x.fds i) :=
  System.ledger_eq (I.refs_setPcb hx rfl rfl)
    (refCount_share E rfl hfd (I.held hx i) hfile)

/-- The loop of `pm_fork` counts a row of slots that refer to the files of the parent. -/
theorem shareFds_ledger {R₀ R : RefTable Slot Nat} {d : Nat → Nat} (pid : Fin maxPids)
    {fds : Fin maxProcessFds → Nat} {l : List (Fin maxProcessFds)} (hnodup : l.Nodup)
    (E : R₀.Even d) (hheld : ∀ i, holders R₀.refs (fds i) ≠ 0)
    (hshares : R₀.Shares R) (hfree : ∀ i ∈ l, R.refs (pid, i) = 0) (hcount : s.refCount = R.count)
    (h : l.foldlM (fun s i => do
      if fds i = 0 then return s
      else
        let file ← deref s.files (fds i)
        return s.setFile (fds i) { file with fileRefCount := u64 (file.fileRefCount + 1) }) s =
      .ok s') :
    R₀.Shares ⟨fun y => if y.1 = pid ∧ y.2 ∈ l then fds y.2 else R.refs y, s'.refCount⟩ := by
  induction l generalizing s R with
  | nil =>
    cases h
    simpa only [List.not_mem_nil, and_false, if_false, hcount] using hshares
  | cons i l ih =>
    obtain ⟨hi, hnodup⟩ := List.nodup_cons.mp hnodup
    rw [List.foldlM_cons] at h
    obtain ⟨s₁, hturn, h⟩ := Exec.bind_eq_ok.mp h
    have hrow : ∀ R' : RefTable Slot Nat, R'.refs = Function.update R.refs (pid, i) (fds i) →
        (fun y : Slot => if y.1 = pid ∧ y.2 ∈ i :: l then fds y.2 else R.refs y) =
          fun y => if y.1 = pid ∧ y.2 ∈ l then fds y.2 else R'.refs y := by
      intro R' hR'
      funext ⟨j, k⟩
      rw [hR']
      by_cases hjk : (j, k) = (pid, i)
      · cases hjk
        rw [if_pos ⟨rfl, .head _⟩, if_neg fun hmem => hi hmem.2, Function.update_self]
      · have hmem : (j = pid ∧ k ∈ i :: l) ↔ (j = pid ∧ k ∈ l) := by
          refine and_congr_right fun hj => ?_
          rw [List.mem_cons, or_iff_right]
          rintro rfl
          exact hjk (hj ▸ rfl)
        rw [Function.update_of_ne hjk]
        simp only [hmem]
    split at hturn
    · rename_i hfd
      cases hturn
      have hR : R.refs = Function.update R.refs (pid, i) (fds i) := by
        rw [hfd, ← hfree i (.head _), Function.update_eq_self]
      rw [hrow R hR]
      exact ih hnodup hshares (fun j hj => hfree j (.tail _ hj)) hcount h
    · rename_i hfd
      obtain ⟨file, hfile, hturn⟩ := Exec.bind_eq_ok.mp hturn
      cases hturn
      rw [deref_eq_ok] at hfile
      have hsome : (R.count (fds i)).isSome := by
        rw [← hcount, System.refCount, hfile]
        rfl
      rw [hrow (R.share (pid, i) (fds i)) rfl]
      refine ih hnodup (.share hshares (hfree i (.head _)) hfd hsome (hheld i)) (fun j hj => ?_)
        (refCount_share (hshares.even E) hcount hfd (hshares.held hfd (hheld i)) hfile) h
      have hne : (pid, j) ≠ (pid, i) := fun heq => hi ((Prod.mk.inj heq).2 ▸ hj)
      exact (Function.update_of_ne hne ..).trans (hfree j (.tail _ hj))

/-! ## The calls -/

/-- What a call that opens no file does to the slots and the counts, when it takes references away
from slots of `D` only. -/
inductive FdMove (D : Slot → Prop) (R : RefTable Slot Nat) : RefTable Slot Nat → Prop
  | closes {R' : RefTable Slot Nat} : R.Closes D R' → FdMove D R R'
  | shares {R' : RefTable Slot Nat} : R.Shares R' → FdMove D R R'
  | replaces {x y : Slot} : D x → R.refs x ≠ 0 → (R.count (R.refs x)).isSome → R.refs y ≠ 0 →
    y ≠ x → ((R.close x).count (R.refs y)).isSome → FdMove D R ((R.close x).share x (R.refs y))

/-- What any call does to them. -/
inductive FdChange (D : Slot → Prop) (R : RefTable Slot Nat) : RefTable Slot Nat → Prop
  | moves {R' : RefTable Slot Nat} : FdMove D R R' → FdChange D R R'
  | creates {f : Nat} : f ≠ 0 → R.count f = none → FdChange D R (R.create f)
  | installs {x : Slot} {f : Nat} : f ≠ 0 → R.count f = none → R.refs x = 0 →
    FdChange D R (R.install x f)

theorem FdMove.refl {D : Slot → Prop} {R : RefTable Slot Nat} : FdMove D R R := .closes .refl

/-- A call in which the process at `p` may change its own descriptors, and takes away at most the
reference of the descriptor `fd`. -/
structure FdCall (s : System μ) (p fd result : Nat) (s' : System μ) : Prop where
  move : FdMove (fun z => s.own p z ∧ z.2.val = fd) s.ledger s'.ledger
  failed : result = minusOne → s'.ledger = s.ledger
  pcbs : ∃ x fds, s.pcbs p = some x ∧ s'.pcbs = Function.update s.pcbs p (some { x with fds })

theorem FdCall.refl {fd result : Nat} (hx : s.pcbs p = some x) : FdCall s p fd result s :=
  ⟨.refl, fun _ => rfl, x, x.fds, hx, by rw [← hx, Function.update_eq_self]⟩

theorem fd_ne_minusOne (fd : Fin maxProcessFds) : fd.val ≠ minusOne := by
  have hlt := fd.isLt
  simp only [maxProcessFds, minusOne] at hlt ⊢
  omega

theorem freeFd_eq_zero {fds : Fin maxProcessFds → Nat} {i : Fin maxProcessFds}
    (h : freeFd fds = some i) : fds i = 0 := by
  simpa using List.find?_some h

section Calls
variable {regs regs' : InterruptInfo} {d : Nat → Nat}

theorem Intact.close (hM : M.Lawful Live) (I : Intact Live s L)
    (h : syscallCloseHandler M s p regs = .ok (regs', s')) :
    FdCall s p regs.rdi regs'.rax s' := by
  obtain ⟨x, hx, h⟩ := Exec.bind_eq_ok.mp h
  rw [deref_eq_ok] at hx
  dsimp only at h
  split at h
  · cases h
    exact .refl hx
  · rename_i fd hfd
    obtain ⟨hne, hval⟩ := validFd_ne_zero hfd
    obtain ⟨⟨n, s₁⟩, hclose, h⟩ := Exec.bind_eq_ok.mp h
    obtain ⟨s₂, hmodify, h⟩ := Exec.bind_eq_ok.mp h
    obtain ⟨y, hy, rfl⟩ := modifyPcb_ok hmodify
    cases h
    have hclosed := I.closeFd hM hx hne hclose hy
    have hslot := I.refs_slot hx fd
    refine ⟨.closes ?_, fun hresult => ?_, x, _, hx, hclosed.pcbs⟩
    · rw [hclosed.ledger L I hx]
      exact .close .refl ⟨I.own_slot hx fd, hval⟩ (hslot ▸ hne) (hslot ▸ hclosed.opened)
    · have hzero : ofInt64 0 ≠ minusOne := by decide
      rw [(vfsClose_ok hM I.objects hne hclose).1] at hresult
      exact absurd hresult hzero

theorem Intact.dup {n : Nat} (I : Intact Live s L) (E : s.ledger.Even d)
    (h : syscallDupHandler s p regs = .ok (regs', s')) : FdCall s p n regs'.rax s' := by
  obtain ⟨x, hx, h⟩ := Exec.bind_eq_ok.mp h
  rw [deref_eq_ok] at hx
  dsimp only at h
  split at h
  · rename_i fd newfd hfd hnew
    have hne := (validFd_ne_zero hfd).1
    obtain ⟨file, hfile, h⟩ := Exec.bind_eq_ok.mp h
    rw [deref_eq_ok] at hfile
    cases h
    refine ⟨.shares ?_, fun hresult => absurd hresult (fd_ne_minusOne newfd), x, _, hx, rfl⟩
    rw [I.shareFd E hx hne hfile]
    refine .share .refl (by rw [I.refs_slot, freeFd_eq_zero hnew]) hne ?_ (I.held hx fd)
    simp only [System.ledger, System.refCount, hfile, Option.map_some, Option.isSome_some]
  · cases h
    exact .refl hx

/-- The end of `dup2` for a descriptor that was free. -/
theorem Intact.dup2_free {oldfd newfd : Fin maxProcessFds} {file : VfsFile} {fd result : Nat}
    (I : Intact Live s L) (E : s.ledger.Even d) (hx : s.pcbs p = some x) (hold : x.fds oldfd ≠ 0)
    (hnew : x.fds newfd = 0) (hfile : s.files (x.fds oldfd) = some file)
    (hresult : result ≠ minusOne) :
    FdCall s p fd result ((s.setFile (x.fds oldfd)
      { file with fileRefCount := u64 (file.fileRefCount + 1) }).setPcb p
        { x with fds := Function.update x.fds newfd (x.fds oldfd) }) := by
  refine ⟨.shares ?_, fun h => absurd h hresult, x, _, hx, rfl⟩
  rw [I.shareFd E hx hold hfile]
  refine .share .refl (by rw [I.refs_slot, hnew]) hold ?_ (I.held hx oldfd)
  simp only [System.ledger, System.refCount, hfile, Option.map_some, Option.isSome_some]

/-- The end of `dup2` for a descriptor that `vfs_close` was called for. -/
theorem Intact.dup2_open {oldfd newfd : Fin maxProcessFds} {file : VfsFile} {n : Int}
    {result : Nat} {s₁ : System μ} (hM : M.Lawful Live) (I : Intact Live s L) (E : s.ledger.Even d)
    (hx : s.pcbs p = some x) (hold : x.fds oldfd ≠ 0) (hnew : x.fds newfd ≠ 0) (hne : oldfd ≠ newfd)
    (hclose : vfsClose M s (x.fds newfd) = .ok (n, s₁))
    (hfile : s₁.files (x.fds oldfd) = some file) (hresult : result ≠ minusOne) :
    FdCall s p newfd result ((s₁.setFile (x.fds oldfd)
      { file with fileRefCount := u64 (file.fileRefCount + 1) }).setPcb p
        { x with fds := Function.update x.fds newfd (x.fds oldfd) }) := by
  obtain ⟨-, closed, hclosedFile, L₁, hclosed⟩ := vfsClose_ok hM I.objects hnew hclose
  have hold' : s.ledger.refs (I.slot hx oldfd) = x.fds oldfd := I.refs_slot hx oldfd
  have hnew' : s.ledger.refs (I.slot hx newfd) = x.fds newfd := I.refs_slot hx newfd
  have hslots : I.slot hx oldfd ≠ I.slot hx newfd := fun h => hne (Prod.mk.inj h).2
  have hcount : s₁.refCount = (s.ledger.close (I.slot hx newfd)).count := by
    rw [RefTable.close, hnew']
    exact vfsClose_refCount hclosedFile hclosed
  have hheld : holders (s.ledger.close (I.slot hx newfd)).refs (x.fds oldfd) ≠ 0 :=
    Theory.holders_ne_zero.mpr ⟨I.slot hx oldfd, (Function.update_of_ne hslots ..).trans hold'⟩
  have hopen : (s.ledger.count (x.fds newfd)).isSome := by
    simp only [System.ledger, System.refCount, hclosedFile, Option.map_some, Option.isSome_some]
  have hstill : ((s.ledger.close (I.slot hx newfd)).count (x.fds oldfd)).isSome := by
    rw [← hcount, System.refCount, hfile]
    rfl
  have hshare := refCount_share E.close hcount hold hheld hfile
  obtain ⟨m, files, rfl⟩ := hclosed.frame
  refine ⟨?_, fun h => absurd h hresult, x, _, hx, rfl⟩
  have hledger : (System.setPcb (System.setFile { s with mem := m, files } (x.fds oldfd)
      { file with fileRefCount := u64 (file.fileRefCount + 1) }) p
        { x with fds := Function.update x.fds newfd (x.fds oldfd) }).ledger =
      (s.ledger.close (I.slot hx newfd)).share (I.slot hx newfd) (x.fds oldfd) := by
    refine System.ledger_eq ?_ hshare
    change _ = Function.update (Function.update s.ledger.refs (I.slot hx newfd) 0) _ (x.fds oldfd)
    rw [Function.update_idem]
    exact I.refs_setPcb hx rfl rfl
  rw [hledger, ← hold']
  exact .replaces ⟨I.own_slot hx newfd, rfl⟩ (hnew' ▸ hnew) (hnew' ▸ hopen) (hold' ▸ hold) hslots (hold' ▸ hstill)

theorem Intact.dup2 (hM : M.Lawful Live) (I : Intact Live s L) (E : s.ledger.Even d)
    (h : syscallDup2Handler M s p regs = .ok (regs', s')) :
    FdCall s p regs.rsi regs'.rax s' := by
  obtain ⟨x, hx, h⟩ := Exec.bind_eq_ok.mp h
  rw [deref_eq_ok] at hx
  dsimp only at h
  split at h
  · cases h
    exact .refl hx
  rename_i oldfd hold
  split at h
  · rename_i hlt
    split at h
    · cases h
      exact .refl hx
    rename_i hne
    split at h
    · rename_i newfd hnew
      obtain ⟨hnew, hval⟩ := validFd_ne_zero hnew
      obtain rfl : newfd = ⟨regs.rsi, hlt⟩ := Fin.ext hval
      obtain ⟨⟨n, s₁⟩, hclose, h⟩ := Exec.bind_eq_ok.mp h
      obtain ⟨s₂, hs₂, h⟩ := Exec.bind_eq_ok.mp h
      cases hs₂
      obtain ⟨x₁, hx₁, h⟩ := Exec.bind_eq_ok.mp h
      obtain ⟨file, hfile, h⟩ := Exec.bind_eq_ok.mp h
      rw [deref_eq_ok] at hx₁ hfile
      cases h
      obtain ⟨-, _, _, L₁, hclosed⟩ := vfsClose_ok hM I.objects hnew hclose
      have hpcbs : s₁.pcbs = s.pcbs := by
        obtain ⟨_, _, rfl⟩ := hclosed.frame
        rfl
      rw [hpcbs, hx] at hx₁
      cases hx₁
      exact I.dup2_open hM E hx (validFd_ne_zero hold).1 hnew hne hclose hfile
        (fd_ne_minusOne ⟨regs.rsi, hlt⟩)
    · rename_i hnew
      obtain ⟨s₁, hs₁, h⟩ := Exec.bind_eq_ok.mp h
      cases hs₁
      obtain ⟨x₁, hx₁, h⟩ := Exec.bind_eq_ok.mp h
      obtain ⟨file, hfile, h⟩ := Exec.bind_eq_ok.mp h
      rw [deref_eq_ok] at hx₁ hfile
      cases h
      rw [hx] at hx₁
      cases hx₁
      refine I.dup2_free E hx (validFd_ne_zero hold).1 ?_ hfile
        (fd_ne_minusOne ⟨regs.rsi, hlt⟩)
      rw [validFd, dif_pos hlt] at hnew
      split at hnew
      · assumption
      · cases hnew
  · cases h
    exact .refl hx

theorem Intact.open {path : Lookup} (hM : M.Lawful Live) (I : Intact Live s L)
    (h : syscallOpenHandler M s p regs path = .ok (regs', s')) :
    FdChange (fun _ => False) s.ledger s'.ledger ∧
      ((∃ x fds, s.pcbs p = some x ∧ s'.pcbs = Function.update s.pcbs p (some { x with fds })) ∨
        s'.pcbs = s.pcbs) := by
  obtain ⟨⟨f, s₁⟩, hopen, h⟩ := Exec.bind_eq_ok.mp h
  obtain ⟨L₁, hopened⟩ := vfsOpen_ok hM I.objects hopen
  have hpcbs : s₁.pcbs = s.pcbs ∧ s₁.gProcessList = s.gProcessList := by
    obtain ⟨_, _, rfl⟩ := hopened.frame
    exact ⟨rfl, rfl⟩
  have hrefs : s₁.ledger.refs = s.ledger.refs := by
    simp only [System.ledger, System.fds, hpcbs]
  dsimp only at h
  split at h
  · rename_i hf
    cases h
    obtain ⟨-, hfiles⟩ | ⟨hne, -⟩ := hopened.files
    · have hledger : s'.ledger = s.ledger :=
        System.ledger_eq hrefs (SameFiles.of_eq hfiles).refCount
      exact ⟨hledger ▸ .moves .refl, .inr hpcbs.1⟩
    · exact absurd hf hne
  rename_i hf
  obtain ⟨hfresh, hcount⟩ := hopened.refCount I.objects hf
  have hnone : s.ledger.count f = none := by
    simp only [System.ledger, System.refCount, hfresh, Option.map_none]
  obtain ⟨x, hx, h⟩ := Exec.bind_eq_ok.mp h
  rw [deref_eq_ok, hpcbs.1] at hx
  split at h
  · cases h
    have hledger : s'.ledger = s.ledger.create f := System.ledger_eq hrefs hcount
    exact ⟨hledger ▸ .creates hf hnone, .inr hpcbs.1⟩
  · rename_i fd hfd
    cases h
    refine ⟨?_, .inl ⟨x, _, hx, congrArg (Function.update · p _) hpcbs.1⟩⟩
    have hledger : (s₁.setPcb p { x with fds := Function.update x.fds fd f }).ledger =
        s.ledger.install (I.slot hx fd) f :=
      System.ledger_eq
        (I.refs_setPcb hx (congrArg (Function.update · p _) hpcbs.1) hpcbs.2) hcount
    rw [hledger]
    exact .installs hf hnone (by rw [I.refs_slot, freeFd_eq_zero hfd])

/-! ### fork -/

theorem schedulerAddTask_sameFds (h : schedulerAddTask s p = .ok s') : SameFds s s' :=
  (schedulerAddTask_links h).sameFds.trans (.of_eq rfl rfl rfl)

/-- The new process has the descriptors of its parent, and each of them is counted. -/
theorem Intact.fork_fds {pid : Nat} (hM : M.Lawful Live) (I : Intact Live s L) (E : s.ledger.Even d)
    (h : pmFork M s p regs = .ok (pid, s')) :
    s.ledger.Shares s'.ledger ∧ pid < maxPids ∧ (ZombiesClosed s → ZombiesClosed s') := by
  obtain ⟨parent, child, queue, info, pagemap, s₁, L₁, hparent, -, hlt, hfree, F,
    ⟨s₂, s₃, hshare, hfiles₂, hfiles₁⟩, hadd⟩ := pmFork_ok hM I.objects h
  have hsame := schedulerAddTask_sameFds hadd
  have hnone : s.pcbs child = none :=
    (kinds_eq_zero.mp (I.objects.unclaimed_of_notMem F.childMem.2.1).1).1
  have hchild : child ≠ 0 := fun h₀ => F.objects.null (h₀ ▸ F.childMem.1)
  have hrow : ∀ i, s.ledger.refs (⟨pid, hlt⟩, i) = 0 := by
    intro i
    simp only [System.ledger, hfree, System.fds, I.pcb_null, Option.map_none, Option.getD_none]
  have hcount₂ : s₂.refCount = s.ledger.count := (SameFiles.of_eq hfiles₂).refCount
  have hshares := shareFds_ledger ⟨pid, hlt⟩ (List.nodup_finRange _) E (I.held hparent) .refl
    (fun i _ => hrow i) hcount₂ hshare
  refine ⟨?_, hlt, fun Z => hsame.zombiesClosed fun q y hy hz => ?_⟩
  · rw [hsame.ledger]
    have hcount : (setProcessList (s₁.setPcb child (childPcb parent pid queue pagemap info)) pid
        child).refCount = s₃.refCount := (SameFiles.of_eq hfiles₁).refCount
    refine (System.ledger_eq (funext fun y => ?_) hcount : _ = RefTable.mk _ _) ▸ hshares
    obtain ⟨j, i⟩ := y
    simp only [System.ledger, System.fds, setProcessList, System.setPcb, F.pcbs, F.processList,
      List.mem_finRange, and_true]
    by_cases hj : j = ⟨pid, hlt⟩
    · subst hj
      simp only [Function.update_self, if_true, Option.map_some, Option.getD_some, childPcb]
    · have hval : j.val ≠ pid := fun h => hj (Fin.ext h)
      have hne : s.gProcessList j ≠ child := by
        intro hlist
        obtain ⟨y, hy, -⟩ := I.table.table j (hlist ▸ hchild)
        rw [hlist, hnone] at hy
        cases hy
      rw [if_neg hj, Function.update_of_ne hval, Function.update_of_ne hne]
  · by_cases hq : q = child
    · subst hq
      simp only [setProcessList, System.setPcb, Function.update_self] at hy
      cases hy
      cases hz
    · simp only [setProcessList, System.setPcb, Function.update_of_ne hq, F.pcbs] at hy
      exact Z q y hy hz

/-! ### Calls that leave the descriptors alone -/

theorem FileRead.sameFds {f : Nat} {buffer : Buffer} {n : Int}
    (h : FileRead M Live L s f buffer n s') : SameFds s s' := by
  cases h with
  | none _ => exact .refl
  | disk _ _ huses => exact huses.sameFds
  | keys _ _ hkeys huses _ _ =>
    obtain ⟨m, rb, -, -, rfl⟩ := hkeys
    have hkeys : SameFds s { s with mem := m, keyboard := { s.keyboard with ringBuffer := rb } } :=
      .of_eq rfl rfl rfl
    exact hkeys.trans huses.sameFds
  | waits _ _ _ henqueue => exact pmWaitqueueEnqueue_sameFds henqueue

theorem Intact.exit_fds {status : Int} (hM : M.Lawful Live) (I : Intact Live s L)
    (h : pmExit M s status p = .ok s') :
    s.ledger.Closes (s.own p) s'.ledger ∧ (ZombiesClosed s → ZombiesClosed s') := by
  obtain ⟨s₁, hmodify, h⟩ := Exec.bind_eq_ok.mp h
  obtain ⟨x, hx, rfl⟩ := modifyPcb_ok hmodify
  have hkeeps : Keeps Live s
      (s.setPcb p { x with exitStatus := status, processState := .zombie }) := I.setPcb hx rfl
  obtain ⟨L₁, I₁⟩ := hkeeps.intact
  have hx₁ : (s.setPcb p { x with exitStatus := status, processState := .zombie }).pcbs p =
      some { x with exitStatus := status, processState := .zombie } := Function.update_self ..
  have hledger : (s.setPcb p { x with exitStatus := status, processState := .zombie }).ledger =
      s.ledger := by
    refine System.ledger_congr (fun q => ?_) rfl rfl
    by_cases hq : q = p
    · subst hq
      rw [hx₁, hx, Option.map_some, Option.map_some]
    · exact congrArg (Option.map Pcb.fds) (Function.update_of_ne hq ..)
  obtain ⟨s₂, hclose, h⟩ := Exec.bind_eq_ok.mp h
  obtain ⟨⟨L₂, I₂⟩, hcloses, hpcbs⟩ := I₁.closeFds hM hx₁ hclose
  obtain ⟨x₂, -, h⟩ := Exec.bind_eq_ok.mp h
  obtain ⟨s₃, hreparent, h⟩ := Exec.bind_eq_ok.mp h
  obtain ⟨x₃, -, h⟩ := Exec.bind_eq_ok.mp h
  obtain ⟨q, -, h⟩ := Exec.bind_eq_ok.mp h
  obtain ⟨_, -, h⟩ := Exec.bind_eq_ok.mp h
  obtain ⟨y, -, h⟩ := Exec.bind_eq_ok.mp h
  have hsame := (reparentChildren_sameFds I₂ hreparent).trans (pmWaitqueueDequeueAll_sameFds h)
  refine ⟨by rw [hsame.ledger, ← hledger]; exact hcloses, fun Z => hsame.zombiesClosed ?_⟩
  intro q y hy hz
  rw [hpcbs] at hy
  by_cases hq : q = p
  · subst hq
    rw [Function.update_self] at hy
    cases hy
    exact fun _ => rfl
  · rw [Function.update_of_ne hq] at hy
    exact Z q y ((Function.update_of_ne hq ..).symm.trans hy) hz

/-- The row of a process that is reaped is empty. -/
theorem Intact.reaped_refs {i : Nat} (I : Intact Live s L) (hlist : s.gProcessList i ≠ 0)
    (hx : s.pcbs (s.gProcessList i) = some x) (h : Reaped s i (s.gProcessList i) x s') :
    s'.ledger.refs = fun z => if z.1.val = i then 0 else s.ledger.refs z := by
  funext ⟨j, k⟩
  simp only [System.ledger, System.fds, h.pcbs, h.processList]
  by_cases hj : j.val = i
  · rw [hj, Function.update_self, Function.update_of_ne hlist.symm, I.pcb_null, if_pos rfl]
    rfl
  · have hne : s.gProcessList j ≠ s.gProcessList i := fun heq =>
      hj (((I.listed_iff hx).mp heq).trans (I.table.pid_of_listed hlist hx))
    rw [Function.update_of_ne hj, Function.update_of_ne hne, if_neg hj]

/-- A zombie that is reaped has no descriptor. -/
theorem Intact.wait_fds {status n : Nat} (hM : M.Lawful Live) (I : Intact Live s L)
    (Z : ZombiesClosed s) (h : pmWait M s status p = .ok (n, s')) :
    s'.ledger = s.ledger ∧ ZombiesClosed s' := by
  obtain ⟨x, hx, h⟩ := Exec.bind_eq_ok.mp h
  obtain ⟨r, hscan, h⟩ := Exec.bind_eq_ok.mp h
  cases waitScan_ok hscan with
  | @zombie i child _ hchild hzombie =>
    obtain ⟨hlist, hy, -⟩ := hchild
    obtain ⟨-, hreaped, -, -⟩ := reapChild_ok hM I.objects I.table hy h
    refine ⟨System.ledger_eq (funext fun ⟨j, k⟩ => ?_) (SameFiles.of_eq hreaped.files).refCount,
      fun q y hy' hz => ?_⟩
    · rw [I.reaped_refs hlist hy hreaped]
      dsimp only
      split
      · rename_i hj
        simp only [System.ledger, hj, System.fds_of_pcb hy, Z _ _ hy hzombie k]
      · rfl
    · by_cases hq : q = s.gProcessList i
      · rw [hreaped.pcbs, hq, Function.update_self] at hy'
        cases hy'
      · rw [hreaped.pcbs, Function.update_of_ne hq] at hy'
        exact Z q y hy' hz
  | @done children _ _ =>
    cases children with
    | false =>
      cases h
      exact ⟨rfl, Z⟩
    | true =>
      obtain ⟨s₁, henqueue, h⟩ := Exec.bind_eq_ok.mp h
      cases h
      have hsame := pmWaitqueueEnqueue_sameFds henqueue
      exact ⟨hsame.ledger, hsame.zombiesClosed Z⟩

end Calls

end

end TrazelOs
