import TrazelOs.Verify.Deeds
import TrazelOs.Verify.Descriptors
import TrazelOs.Verify.Flat

/-! # Open files

The count of an open file and the descriptors that refer to it, call by call and over whole runs. -/

namespace TrazelOs

open Theory (RefTable holders)

variable {μ : Type} {M : MemoryManager μ} {Live : μ → List Nat → Prop} {s s' : System μ}
  {L : List Nat} {p f : Nat} {x : Pcb} {D D' : Slot → Prop} {R R' : RefTable Slot Nat}
  {d : Nat → Nat}

/-! ## One call -/

section Replace
variable {x y : Slot} (hx : R.refs x ≠ 0) (hy : R.refs y ≠ 0) (hne : y ≠ x)
include hne

private theorem held_close : holders (R.close x).refs (R.refs y) ≠ 0 :=
  Theory.holders_ne_zero.mpr ⟨y, Function.update_of_ne hne ..⟩

end Replace

theorem FdMove.even (h : FdMove D R R') (E : R.Even d) : R'.Even d := by
  cases h with
  | closes h => exact h.even E
  | shares h => exact h.even E
  | replaces _ _ _ _ hne _ => exact E.close.share (Function.update_self ..) (held_close hne)

/-- The number of descriptors, over all entries of the process list, that refer to `f`. -/
def System.descriptors (s : System μ) (f : Nat) : Nat := holders s.ledger.refs f

/-- The operations on descriptors, with the result where there is one. -/
inductive DescriptorCall (M : MemoryManager μ) (s : System μ) : Option Nat → System μ → Prop
  | close {p : Nat} {regs regs' : InterruptInfo} {s' : System μ} :
    syscallCloseHandler M s p regs = .ok (regs', s') → DescriptorCall M s (some regs'.rax) s'
  | dup {p : Nat} {regs regs' : InterruptInfo} {s' : System μ} :
    syscallDupHandler s p regs = .ok (regs', s') → DescriptorCall M s (some regs'.rax) s'
  | dup2 {p : Nat} {regs regs' : InterruptInfo} {s' : System μ} :
    syscallDup2Handler M s p regs = .ok (regs', s') → DescriptorCall M s (some regs'.rax) s'
  | fork {p pid : Nat} {regs : InterruptInfo} {s' : System μ} :
    pmFork M s p regs = .ok (pid, s') → DescriptorCall M s (some pid) s'
  | exit {p : Nat} {status : Int} {s' : System μ} :
    pmExit M s status p = .ok s' → DescriptorCall M s none s'
  | wait {p status n : Nat} {s' : System μ} :
    pmWait M s status p = .ok (n, s') → DescriptorCall M s (some n) s'

theorem DescriptorCall.move {result : Option Nat} (hM : M.Lawful Live) (I : Intact Live s L)
    (E : s.ledger.Even d) (Z : ZombiesClosed s) (h : DescriptorCall M s result s') :
    (∃ D, FdMove D s.ledger s'.ledger) ∧ (result = some minusOne → s'.ledger = s.ledger) := by
  have hcall {p fd n : Nat} (h : FdCall s p fd n s') :
      (∃ D, FdMove D s.ledger s'.ledger) ∧ (some n = some minusOne → s'.ledger = s.ledger) :=
    ⟨⟨_, h.move⟩, fun hn => h.failed (Option.some.inj hn)⟩
  cases h with
  | close h => exact hcall (I.close hM h)
  | dup h => exact hcall (I.dup (n := 0) E h)
  | dup2 h => exact hcall (I.dup2 hM E h)
  | fork h =>
    obtain ⟨hshares, hlt, -⟩ := I.fork_fds hM E h
    refine ⟨⟨fun _ => False, .shares hshares⟩, fun hpid => ?_⟩
    cases hpid
    exact absurd hlt (by decide)
  | exit h => exact ⟨⟨_, .closes (I.exit_fds hM h).1⟩, nofun⟩
  | wait h =>
    have hledger := (I.wait_fds hM Z h).1
    exact ⟨⟨fun _ => False, hledger ▸ .refl⟩, fun _ => hledger⟩

theorem FdMove.mono (h : FdMove D R R') (hD : ∀ z, D z → D' z) : FdMove D' R R' := by
  cases h with
  | closes h => exact .closes (h.mono hD)
  | shares h => exact .shares h
  | replaces hD' hx hsome hy hne hstill => exact .replaces (hD _ hD') hx hsome hy hne hstill

theorem FdChange.mono (h : FdChange D R R') (hD : ∀ z, D z → D' z) : FdChange D' R R' := by
  cases h with
  | moves h => exact .moves (h.mono hD)
  | creates hf hnone => exact .creates hf hnone
  | installs hf hnone hx => exact .installs hf hnone hx

/-- What a step does to the descriptors, while no process that exited has one. -/
def FdStep (D : Slot → Prop) (s s' : System μ) : Prop :=
  FdChange D s.ledger s'.ledger ∧ ZombiesClosed s'

theorem FdStep.mono (h : FdStep D s s') (hD : ∀ z, D z → D' z) : FdStep D' s s' :=
  ⟨h.1.mono hD, h.2⟩

theorem FdStep.sameFds {s₁ : System μ} (h : FdStep D s s₁) (h' : SameFds s₁ s') : FdStep D s s' :=
  ⟨h'.ledger ▸ h.1, h'.zombiesClosed h.2⟩

/-- The descriptors of the calling process that a system call may close. -/
def syscallCloses (regs : InterruptInfo) (fd : Fin maxProcessFds) : Prop :=
  regs.rax = 3 ∧ fd.val = regs.rdi ∨ regs.rax = 33 ∧ fd.val = regs.rsi ∨ regs.rax = 60

/-- The slots whose reference a step may take away: those of the process that runs, when it closes
the descriptor, overwrites it with `dup2`, exits, or is killed. -/
def Machine.GivesUp (c : Machine μ) (e : Event) (z : Slot) : Prop :=
  c.sys.own c.sys.gCurrTask z ∧ match e with
    | .syscall _ => ∃ regs, c.cpu = .user regs ∧ syscallCloses (syscallFrame regs) z.2
    | .timer => ∃ x, c.sys.pcbs c.sys.gCurrTask = some x ∧ x.killSignal = true
    | .exception _ _ => True
    | _ => False

section Steps
variable {v : TaskView} {c c' : Machine μ} {e : Event} {regs regs' frame : InterruptInfo}
  {env : SyscallEnv} {info? : Option InterruptInfo}

end Steps

/-! ## Whole runs -/

section Changes

theorem FdMove.sound (h : FdMove D R R') (E : R.Even d) (S : R.Sound)
    (hd : ∀ a, a ≠ 0 → d a = 0 ∨ d a < holders R'.refs a) : R'.Sound := by
  cases h with
  | closes h => exact h.sound E S hd
  | shares h => exact h.sound S
  | @replaces x y _ hx hsome hy hne hstill =>
    have hcleared : (R.close x).refs x = 0 := Function.update_self ..
    refine (S.close hx E ?_).share hstill
    have hend := hd _ hx
    rw [RefTable.holders_share hcleared hx] at hend
    by_cases hxy : R.refs y = R.refs x
    · -- The file that is closed is the one that is shared, so it survives.
      obtain ⟨n, hn⟩ := Option.isSome_iff_exists.mp hsome
      have heven := E _ n hx hn (Theory.holders_ne_zero.mpr ⟨x, rfl⟩)
      have hholders := R.holders_close x hx
      rw [hxy, RefTable.close_count_self, hn, Option.bind_some] at hstill
      split at hstill
      · cases hstill
      · rw [if_pos rfl] at hholders
        omega
    · rwa [if_neg hxy, Nat.add_zero] at hend

/-- A step takes no reference away from a slot outside `D`. -/
theorem FdChange.kept (h : FdChange D R R') {z : Slot} (hD : ¬D z) (hz : R.refs z ≠ 0) :
    R'.refs z = R.refs z := by
  cases h with
  | moves h =>
    cases h with
    | closes h => exact h.kept hD
    | shares h => exact h.kept hz
    | @replaces x y hx _ _ _ _ _ =>
      have hne : z ≠ x := fun h => hD (h ▸ hx)
      exact (Function.update_of_ne hne ..).trans (Function.update_of_ne hne ..)
  | creates _ _ => rfl
  | installs _ _ hx => exact RefTable.update_kept hx hz

/-- A file that is released had a descriptor. -/
theorem FdChange.held (h : FdChange D R R') {a : Nat} (ha : a ≠ 0) (hsome : (R.count a).isSome)
    (hnone : R'.count a = none) : holders R.refs a ≠ 0 := by
  have hnew {f : Nat} : Function.update R.count f (some 1) a ≠ none := by
    by_cases haf : a = f
    · subst haf
      rw [Function.update_self]
      exact nofun
    · rw [Function.update_of_ne haf]
      exact Option.isSome_iff_ne_none.mp hsome
  cases h with
  | moves h =>
    cases h with
    | closes h => exact h.held ha hsome hnone
    | shares h => exact absurd hnone (Option.isSome_iff_ne_none.mp (h.count_isSome hsome))
    | @replaces x y _ hx hopen hy hne hstill =>
      have hclosed : (R.close x).count a = none := by
        by_cases hya : R.refs y = a
        · rw [hya, RefTable.share_count_self, Option.map_eq_none_iff] at hnone
          exact hnone
        · rwa [RefTable.share_count_of_ne _ hya] at hnone
      exact (RefTable.Closes.close (D := fun _ => True) .refl trivial hx hopen).held ha hsome hclosed
  | creates _ _ => exact absurd hnone hnew
  | installs _ _ _ => exact absurd hnone hnew

end Changes

/-- The boot opens one file for three descriptors and counts it once. -/
def bootDeficit (tty f : Nat) : Nat := if f = tty then 2 else 0

/-- The counts are right but for the file of the boot, and no descriptor dangles. -/
structure FilesHeld (tty : Nat) (s : System μ) : Prop where
  even : s.ledger.Even (bootDeficit tty)
  sound : s.ledger.Sound
  zombies : ZombiesClosed s
  tty_ne : tty ≠ 0
  enough : 3 ≤ s.descriptors tty

theorem FilesHeld.step_even {tty : Nat} (F : FilesHeld tty s) (h : FdChange D s.ledger R) :
    R.Even (bootDeficit tty) := by
  -- A new file is not the one of the boot, which has descriptors.
  have hfresh {f : Nat} (hf : f ≠ 0) (hnone : s.ledger.count f = none) : bootDeficit tty f = 0 := by
    refine if_neg fun hf' => ?_
    have hheld := F.enough
    rw [System.descriptors, ← hf', F.sound.holders_fresh hnone hf] at hheld
    exact absurd hheld (by decide)
  cases h with
  | moves h => exact h.even F.even
  | creates hf hnone => exact F.even.create F.sound hnone
  | installs hf hnone hx => exact F.even.install F.sound hnone hx (hfresh hf hnone)

theorem FilesHeld.step {tty : Nat} (F : FilesHeld tty s) (h : FdStep D s s')
    (henough : 3 ≤ s'.descriptors tty) : FilesHeld tty s' := by
  obtain ⟨hchange, hzombies⟩ := h
  have hd : ∀ a, a ≠ 0 → bootDeficit tty a = 0 ∨ bootDeficit tty a < holders s'.ledger.refs a := by
    intro a _
    by_cases ha : a = tty
    · exact .inr (by rw [ha, bootDeficit, if_pos rfl]; exact henough)
    · exact .inl (if_neg ha)
  refine ⟨F.step_even hchange, ?_, hzombies, F.tty_ne, henough⟩
  generalize s'.ledger = R' at hchange hd
  cases hchange with
  | moves h => exact h.sound F.even F.sound hd
  | creates hf hnone => exact F.sound.create hnone
  | installs hf hnone hx => exact F.sound.install

/-- The three descriptors of the first process. -/
theorem holders_bootFds {tty pid : Nat} (hpid : pid < maxPids) (htty : tty ≠ 0) {f : Nat} (hf : f ≠ 0) :
    holders (fun y : Slot => if y.1.val = pid then (if y.2.val < 3 then tty else 0) else 0) f =
      if f = tty then 3 else 0 := by
  split
  · rename_i heq
    subst heq
    have hset : (Finset.univ.filter fun y : Slot =>
        (if y.1.val = pid then (if y.2.val < 3 then f else 0) else 0) = f) =
        {(⟨pid, hpid⟩ : Fin maxPids)} ×ˢ Finset.univ.filter fun i : Fin maxProcessFds => i.val < 3 := by
      ext ⟨j, i⟩
      rw [Finset.mem_filter, Finset.mem_product, Finset.mem_singleton, Finset.mem_filter, Fin.ext_iff]
      by_cases hj : j.val = pid
      · by_cases hi : i.val < 3
        · simp [hj, hi]
        · simp [hj, hi, hf.symm]
      · simp [hj, hf.symm]
    rw [holders, hset, Finset.card_product, Finset.card_singleton]
    decide
  · rename_i hne
    rw [Theory.holders_eq_zero]
    intro y
    split
    · split
      · exact Ne.symm hne
      · exact hf.symm
    · exact hf.symm

/-- The file that the boot opened for the descriptors 0, 1 and 2 of the first process. -/
def System.bootTty (s : System μ) : Nat := s.ledger.refs (⟨1, by decide⟩, ⟨0, by decide⟩)

theorem FilesHeld.boot {b : BootInput μ} {c : Machine μ} (hM : M.Lawful Live) (hvalid : b.Valid Live)
    (h : b.machine M = .ok c) : FilesHeld c.sys.bootTty c.sys := by
  obtain ⟨hinit, L, hlive, hnull, hnodup, hdevice⟩ := hvalid
  obtain ⟨⟨entryPoint, s⟩, hboot, h⟩ := Exec.bind_eq_ok.mp h
  cases h
  have I : Intact Live (bootSystem b.mem b.device b.queue) L :=
    ⟨bootSystem_objects hlive hnull hnodup hdevice, bootSystem_table⟩
  obtain ⟨y, p, addr, s₁, s₂, L₁, hpid, -, hready, F, haddr, hne, hu, hadd, hfree, tty, htty, hcount,
    hfds⟩ := initProcessManager_new hM I.objects hinit hboot
  rw [generatePid_first rfl] at hpid
  have hy : y.pid = 1 := (Except.ok.inj hpid).symm
  obtain ⟨I₂, -⟩ := I.enlist F (Nat.le_of_eq hy.symm) (hy ▸ by decide) rfl hadd
  obtain ⟨hmem, -⟩ := I₂.objects.kfree_unclaimed hM haddr (listed_unclaimed hu hne hadd) hfree
  have hsame : SameFds (listProcess s₁ y p) s :=
    (schedulerAddTask_sameFds hadd).trans (hmem.filesOnly.sameFds (.of_eq hmem.files))
  have hp : p ≠ 0 := fun h₀ => F.objects.null (h₀ ▸ F.childMem.1)
  have hrefs : s.ledger.refs = fun z : Slot =>
      if z.1.val = 1 then (if z.2.val < 3 then tty else 0) else 0 := by
    rw [hsame.ledger]
    funext ⟨j, i⟩
    simp only [System.ledger, System.fds, listProcess, setProcessList, System.setPcb, F.pcbs,
      F.processList, hy]
    by_cases hj : j.val = 1
    · simp [hj, hfds]
    · simp [hj, bootSystem, hp.symm]
  have hbootTty : s.bootTty = tty := by rw [System.bootTty, hrefs]; rfl
  have hheld : ∀ f, f ≠ 0 → holders s.ledger.refs f = if f = tty then 3 else 0 := fun f hf => by
    rw [hrefs]
    exact holders_bootFds (by decide) htty hf
  have hone : s.ledger.count tty = some 1 := (congrFun hsame.refCount tty).trans hcount
  refine ⟨fun f n hf hn hne => ?_, fun z hz => ?_, hsame.zombiesClosed fun q x hx hz => ?_,
    hbootTty ▸ htty, ?_⟩
  · rw [hheld f hf] at hne ⊢
    split at hne
    · rename_i heq
      subst heq
      rw [hone] at hn
      cases hn
      rw [hbootTty, bootDeficit, if_pos rfl, if_pos rfl]
    · exact absurd rfl hne
  · have hz' : s.ledger.refs z = tty := by
      rw [hrefs] at hz ⊢
      dsimp only at hz ⊢
      split at hz
      · split at hz
        · rw [if_pos ‹_›, if_pos ‹_›]
        · exact absurd rfl hz
      · exact absurd rfl hz
    rw [hz', hone]
    rfl
  · simp only [listProcess, setProcessList, System.setPcb, F.pcbs] at hx
    by_cases hq : q = p
    · subst hq
      rw [Function.update_self] at hx
      cases hx
      rw [hready] at hz
      cases hz
    · rw [Function.update_of_ne hq] at hx
      cases hx
  · rw [System.descriptors, hbootTty, hheld tty htty, if_pos rfl]

/-- The descriptors of `f` that the step does not give up. -/
noncomputable def Machine.remaining (c : Machine μ) (e : Event) (f : Nat) : Nat :=
  Theory.holdersOutside (c.GivesUp e) c.sys.ledger.refs f

section Runs
variable {c c' : Machine μ} {e : Event} {tty : Nat}

end Runs

/-! ## Runs on fixed inputs -/

namespace Flat

/-- The running process keeps its descriptors. -/
def quiet (c : Machine Flat) : Event → Bool
  | .syscall _ => match c.cpu with
    | .user regs => regs.rax ≠ 3 && regs.rax ≠ 33 && regs.rax ≠ 60
    | .idle _ => true
  | .timer | .exception _ _ => false
  | _ => true

end Flat

section Recount
variable {k tty : Nat} {i : Fin maxProcessFds}

end Recount

namespace Flat

end Flat

end TrazelOs
