import TrazelOs.Verify.Intact
import Mathlib.Data.List.Induction

/-! # Parents and children

What `fork`, `exit` and `wait` are for: a tree of processes, in which every process that exits leaves
its status for its parent and its children to 1. `Family.after` is that tree with the operations on
it, `Family.Ordered` says that every parent is there and alive, and every run of the kernel is a run
of it. -/

namespace TrazelOs

/-- A process in the tree: its parent, and its status once it has exited. -/
structure Kin where
  parent : Nat
  status : Option Int
deriving Repr, DecidableEq

/-- The processes by their pids. -/
abbrev Family := Nat → Option Kin

inductive Deed
  | fork (parent child : Nat)
  | exit (pid : Nat) (status : Int)
  | reap (parent child : Nat)
deriving Repr, DecidableEq

namespace Family

section
variable (F : Family)

/-- The process is there and has not exited. -/
def alive (pid : Nat) : Bool := (F pid).any (·.status.isNone)

/-- The children of `pid` become children of 1. -/
def orphan (pid : Nat) : Family := fun i =>
  (F i).map fun k => if k.parent = pid then { k with parent := 1 } else k

/-- The tree after a deed, or none if the deed is not possible. -/
def after : Deed → Option Family
  | .fork parent child =>
    if 0 < child ∧ F.alive parent ∧ F child = none then
      some (Function.update F child (some ⟨parent, none⟩))
    else none
  | .exit pid status =>
    match F pid with
    | some ⟨parent, none⟩ =>
      if (F parent).isSome then
        some (orphan (Function.update F pid (some ⟨parent, some status⟩)) pid)
      else none
    | _ => none
  | .reap parent child =>
    match F child with
    | some ⟨q, some _⟩ =>
      if q = parent ∧ F.alive parent then some (Function.update F child none) else none
    | _ => none

/-- The tree after a sequence of deeds. -/
def replay (deeds : List Deed) : Option Family := deeds.foldlM after F

end

/-- The tree of the first process. -/
def origin : Family := Function.update (fun _ => none) 1 (some ⟨0, none⟩)

/-- 1 is alive, and every other process has a parent that is. -/
structure Ordered (F : Family) : Prop where
  root : F 1 = some ⟨0, none⟩
  null : F 0 = none
  parent : ∀ i k, F i = some k → i ≠ 1 → F.alive k.parent = true
  other : ∀ i k, F i = some k → k.parent ≠ i

variable {F F' : Family} {pid i : Nat} {k : Kin}

theorem alive_iff : F.alive pid = true ↔ ∃ k, F pid = some k ∧ k.status = none := by
  simp [alive, Option.any_eq_true, Option.isNone_iff_eq_none]

theorem after_exit {status : Int} (h : F.after (.exit pid status) = some F') :
    ∃ parent, F pid = some ⟨parent, none⟩ ∧ (F parent).isSome ∧
      F' = orphan (Function.update F pid (some ⟨parent, some status⟩)) pid := by
  simp only [after] at h
  split at h
  · rename_i parent hpid
    split at h
    · rename_i hparent
      cases h
      exact ⟨parent, hpid, hparent, rfl⟩
    · cases h
  · cases h

theorem after_reap {parent child : Nat} (h : F.after (.reap parent child) = some F') :
    (∃ status, F child = some ⟨parent, some status⟩) ∧ F.alive parent = true ∧
      F' = Function.update F child none := by
  simp only [after] at h
  split at h
  · rename_i q status hchild
    split at h
    · rename_i hparent
      obtain ⟨rfl, halive⟩ := hparent
      cases h
      exact ⟨⟨status, hchild⟩, halive, rfl⟩
    · cases h
  · cases h

theorem after_fork {parent child : Nat} (h : F.after (.fork parent child) = some F') :
    0 < child ∧ F.alive parent = true ∧ F child = none ∧
      F' = Function.update F child (some ⟨parent, none⟩) := by
  simp only [after] at h
  split at h
  · rename_i hfork
    cases h
    exact ⟨hfork.1, hfork.2.1, hfork.2.2, rfl⟩
  · cases h

theorem after_fork_eq {parent child : Nat} (hpos : 0 < child) (halive : F.alive parent = true)
    (hnone : F child = none) :
    F.after (.fork parent child) = some (Function.update F child (some ⟨parent, none⟩)) :=
  if_pos ⟨hpos, halive, hnone⟩

theorem after_reap_eq {parent child : Nat} {status : Int}
    (hchild : F child = some ⟨parent, some status⟩) (halive : F.alive parent = true) :
    F.after (.reap parent child) = some (Function.update F child none) := by
  simp only [after, hchild]
  exact if_pos ⟨trivial, halive⟩

theorem after_exit_eq {parent : Nat} {status : Int} (hpid : F pid = some ⟨parent, none⟩)
    (hparent : (F parent).isSome) : F.after (.exit pid status) =
      some (orphan (Function.update F pid (some ⟨parent, some status⟩)) pid) := by
  simp only [after, hpid]
  exact if_pos hparent

theorem origin_ordered : origin.Ordered := by
  have hsome : ∀ i k, origin i = some k → i = 1 ∧ k = ⟨0, none⟩ := by
    intro i k h
    by_cases hi : i = 1
    · subst hi
      exact ⟨rfl, by simpa [origin] using h.symm⟩
    · simp [origin, hi] at h
  refine ⟨rfl, rfl, fun i k h hi => absurd (hsome i k h).1 hi, fun i k h => ?_⟩
  obtain ⟨rfl, rfl⟩ := hsome i k h
  exact Nat.zero_ne_one

/-- A living process goes on living when another one changes. -/
theorem alive_update_of_ne {o : Option Kin} (hne : i ≠ pid) :
    alive (Function.update F pid o) i = F.alive i := by
  rw [alive, Function.update_of_ne hne, alive]

theorem alive_orphan : alive (F.orphan pid) i = F.alive i := by
  unfold alive orphan
  cases F i with
  | none => rfl
  | some k =>
    simp only [Option.map_some, Option.any_some]
    split <;> rfl

theorem Ordered.alive_root (H : F.Ordered) : F.alive 1 = true := alive_iff.mpr ⟨_, H.root, rfl⟩

theorem Ordered.fork {parent child : Nat} (H : F.Ordered)
    (h : F.after (.fork parent child) = some F') : F'.Ordered := by
  obtain ⟨hpos, halive, hnone, rfl⟩ := after_fork h
  have hroot : (1 : Nat) ≠ child := by
    rintro rfl
    rw [H.root] at hnone
    cases hnone
  have hkept : ∀ i, F.alive i = true → alive (Function.update F child (some ⟨parent, none⟩)) i = true := by
    intro i hi
    rw [alive_update_of_ne, hi]
    rintro rfl
    obtain ⟨k, hk, -⟩ := alive_iff.mp hi
    rw [hnone] at hk
    cases hk
  refine ⟨(Function.update_of_ne hroot _ _).trans H.root,
    (Function.update_of_ne (Nat.ne_of_lt hpos) _ _).trans H.null, fun i k hi hne => ?_, fun i k hi => ?_⟩
  · by_cases hic : i = child
    · subst hic
      rw [Function.update_self] at hi
      cases hi
      exact hkept _ halive
    · rw [Function.update_of_ne hic] at hi
      exact hkept _ (H.parent i k hi hne)
  · by_cases hic : i = child
    · subst hic
      rw [Function.update_self] at hi
      cases hi
      rintro rfl
      obtain ⟨k, hk, -⟩ := alive_iff.mp halive
      rw [hnone] at hk
      cases hk
    · rw [Function.update_of_ne hic] at hi
      exact H.other i k hi

theorem Ordered.reap {parent child : Nat} (H : F.Ordered)
    (h : F.after (.reap parent child) = some F') : F'.Ordered := by
  obtain ⟨⟨status, hchild⟩, -, rfl⟩ := after_reap h
  have hdead : ∀ i, F.alive i = true → i ≠ child := by
    rintro i hi rfl
    obtain ⟨k, hk, hnone⟩ := alive_iff.mp hi
    rw [hchild] at hk
    cases hk
    cases hnone
  have hold : ∀ i k, Function.update F child none i = some k → i ≠ child ∧ F i = some k := by
    intro i k hi
    have hic : i ≠ child := by
      rintro rfl
      simp at hi
    exact ⟨hic, (Function.update_of_ne hic _ _).symm.trans hi⟩
  have hnull : (0 : Nat) ≠ child := by
    rintro rfl
    rw [H.null] at hchild
    cases hchild
  refine ⟨(Function.update_of_ne (hdead 1 H.alive_root) _ _).trans H.root,
    (Function.update_of_ne hnull _ _).trans H.null, fun i k hi hne => ?_,
    fun i k hi => H.other i k (hold i k hi).2⟩
  have hparent := H.parent i k (hold i k hi).2 hne
  rw [alive_update_of_ne (hdead _ hparent), hparent]

theorem Ordered.exit {status : Int} (H : F.Ordered)
    (h : F.after (.exit pid status) = some F') : F'.Ordered := by
  obtain ⟨parent, hpid, hparent, rfl⟩ := after_exit h
  have hroot : (1 : Nat) ≠ pid := by
    rintro rfl
    rw [H.root] at hpid
    cases hpid
    rw [H.null] at hparent
    cases hparent
  have hnull : (0 : Nat) ≠ pid := by
    rintro rfl
    rw [H.null] at hpid
    cases hpid
  -- What a process was before: only `pid` and its children have changed.
  have hold : ∀ i k, orphan (Function.update F pid (some ⟨parent, some status⟩)) pid i = some k →
      ∃ k₀, F i = some k₀ ∧ k.parent = if k₀.parent = pid then 1 else k₀.parent := by
    intro i k hi
    obtain ⟨k₁, hk₁, rfl⟩ := Option.map_eq_some_iff.mp hi
    by_cases hip : i = pid
    · subst hip
      rw [Function.update_self] at hk₁
      cases hk₁
      exact ⟨_, hpid, by dsimp only; split <;> rfl⟩
    · rw [Function.update_of_ne hip] at hk₁
      exact ⟨k₁, hk₁, by split <;> rfl⟩
  have hkept : ∀ i, F.alive i = true → i ≠ pid →
      alive (orphan (Function.update F pid (some ⟨parent, some status⟩)) pid) i = true := by
    intro i hi hne
    rw [alive_orphan, alive_update_of_ne hne, hi]
  refine ⟨?_, ?_, fun i k hi hne => ?_, fun i k hi => ?_⟩
  · rw [orphan, Function.update_of_ne hroot, H.root, Option.map_some, if_neg hnull]
  · rw [orphan, Function.update_of_ne hnull, H.null, Option.map_none]
  · obtain ⟨k₀, hk₀, heq⟩ := hold i k hi
    rw [heq]
    split
    · exact hkept 1 H.alive_root hroot
    · rename_i hp
      exact hkept _ (H.parent i k₀ hk₀ hne) hp
  · obtain ⟨k₀, hk₀, heq⟩ := hold i k hi
    rw [heq]
    split
    · rintro rfl
      rename_i hp
      rw [H.root] at hk₀
      cases hk₀
      exact hnull hp
    · exact H.other i k₀ hk₀

theorem Ordered.after {deed : Deed} (H : F.Ordered) (h : F.after deed = some F') : F'.Ordered := by
  cases deed with
  | fork => exact H.fork h
  | exit => exact H.exit h
  | reap => exact H.reap h

@[simp] theorem replay_nil : F.replay [] = some F := rfl

@[simp] theorem replay_singleton {d : Deed} : F.replay [d] = F.after d := bind_pure (F.after d)

theorem replay_append {deeds deeds' : List Deed} :
    F.replay (deeds ++ deeds') = (F.replay deeds).bind (replay · deeds') :=
  List.foldlM_append

theorem Ordered.replay {deeds : List Deed} (H : F.Ordered) (h : F.replay deeds = some F') :
    F'.Ordered := by
  induction deeds generalizing F with
  | nil =>
    cases h
    exact H
  | cons deed deeds ih =>
    obtain ⟨F₁, hdeed, h⟩ := Option.bind_eq_some_iff.mp h
    exact ih (H.after hdeed) h

/-! ## Lineage -/

/-- How the process `n` came to be what it is: it was forked, and since then it was neither reaped nor
made again, it left the status that it exited with if it did, and its parent is the process that
forked it, or 1 if that one has exited. -/
def Lineage (deeds : List Deed) (n : Nat) (k : Kin) : Prop :=
  ∃ before forker since, deeds = before ++ .fork forker n :: since ∧
    (∀ q, .fork q n ∉ since) ∧ (∀ q, .reap q n ∉ since) ∧
    (∀ status, .exit n status ∈ since ↔ k.status = some status) ∧
    (k.parent = forker ∧ (∀ status, .exit forker status ∉ since) ∨
      k.parent = 1 ∧ ∃ status, .exit forker status ∈ since)

/-- A deed of others that does not take the parent away. -/
theorem Lineage.snoc {deeds : List Deed} {n : Nat} {d : Deed} (h : Lineage deeds n k)
    (hfork : ∀ q, d ≠ .fork q n) (hreap : ∀ q, d ≠ .reap q n) (hexit : ∀ status, d ≠ .exit n status)
    (hparent : ∀ status, d ≠ .exit k.parent status) : Lineage (deeds ++ [d]) n k := by
  obtain ⟨before, forker, since, rfl, hforks, hreaps, hexits, hparents⟩ := h
  refine ⟨before, forker, since ++ [d], by simp, ?_, ?_, ?_, ?_⟩
  · simpa [hforks] using fun q => (hfork q).symm
  · simpa [hreaps] using fun q => (hreap q).symm
  · intro status
    rw [List.mem_append, hexits, List.mem_singleton, or_iff_left (hexit status).symm]
  · rcases hparents with ⟨rfl, hnone⟩ | ⟨hone, status, hexited⟩
    · exact .inl ⟨rfl, by simpa [hnone] using fun status => (hparent status).symm⟩
    · exact .inr ⟨hone, status, List.mem_append_left _ hexited⟩

/-- The process itself exits. -/
theorem Lineage.exit {deeds : List Deed} {n : Nat} {status : Int} (h : Lineage deeds n k)
    (hstatus : k.status = none) (hne : k.parent ≠ n) :
    Lineage (deeds ++ [.exit n status]) n { k with status := some status } := by
  obtain ⟨before, forker, since, rfl, hforks, hreaps, hexits, hparents⟩ := h
  refine ⟨before, forker, since ++ [.exit n status], by simp, ?_, ?_, ?_, ?_⟩
  · simpa using hforks
  · simpa using hreaps
  · intro status'
    rw [List.mem_append, hexits, hstatus, List.mem_singleton, Deed.exit.injEq, Option.some.injEq]
    simp [eq_comm]
  · rcases hparents with ⟨rfl, hnone⟩ | ⟨hone, status', hexited⟩
    · exact .inl ⟨rfl, by simpa [hnone] using hne⟩
    · exact .inr ⟨hone, status', List.mem_append_left _ hexited⟩

/-- The parent of the process exits. -/
theorem Lineage.orphaned {deeds : List Deed} {n : Nat} {status : Int} (h : Lineage deeds n k)
    (hne : k.parent ≠ n) :
    Lineage (deeds ++ [.exit k.parent status]) n { k with parent := 1 } := by
  obtain ⟨before, forker, since, rfl, hforks, hreaps, hexits, hparents⟩ := h
  refine ⟨before, forker, since ++ [.exit k.parent status], by simp, ?_, ?_, ?_, ?_⟩
  · simpa using hforks
  · simpa using hreaps
  · intro status'
    rw [List.mem_append, hexits, List.mem_singleton, Deed.exit.injEq]
    exact or_iff_left fun h => hne h.1.symm
  · rcases hparents with ⟨rfl, -⟩ | ⟨-, status', hexited⟩
    · exact .inr ⟨rfl, status, List.mem_append_right _ (.head _)⟩
    · exact .inr ⟨rfl, status', List.mem_append_left _ hexited⟩

theorem lineage_after {deeds : List Deed} {n : Nat} {d : Deed} (H : F.Ordered)
    (hlineage : ∀ k, F n = some k → Lineage deeds n k) (h : F.after d = some F')
    (hk : F' n = some k) : Lineage (deeds ++ [d]) n k := by
  cases d with
  | fork parent child =>
    obtain ⟨-, -, -, rfl⟩ := after_fork h
    by_cases hn : n = child
    · subst hn
      rw [Function.update_self] at hk
      cases hk
      exact ⟨deeds, parent, [], rfl, nofun, nofun, by simp, .inl ⟨rfl, nofun⟩⟩
    · rw [Function.update_of_ne hn] at hk
      refine (hlineage k hk).snoc (fun q h => hn ?_) nofun nofun nofun
      cases h
      rfl
  | reap parent child =>
    obtain ⟨-, -, rfl⟩ := after_reap h
    have hn : n ≠ child := by
      rintro rfl
      simp at hk
    rw [Function.update_of_ne hn] at hk
    refine (hlineage k hk).snoc nofun (fun q h => hn ?_) nofun nofun
    cases h
    rfl
  | exit pid status =>
    obtain ⟨parent, hpid, -, rfl⟩ := after_exit h
    obtain ⟨k₁, hk₁, rfl⟩ := Option.map_eq_some_iff.mp hk
    by_cases hn : n = pid
    · subst hn
      rw [Function.update_self] at hk₁
      cases hk₁
      have hne : parent ≠ n := H.other n _ hpid
      rw [if_neg hne]
      exact (hlineage _ hpid).exit rfl hne
    · rw [Function.update_of_ne hn] at hk₁
      split
      · rename_i hparent
        subst hparent
        exact (hlineage _ hk₁).orphaned (H.other n k₁ hk₁)
      · rename_i hparent
        refine (hlineage _ hk₁).snoc nofun nofun (fun _ h => hn ?_) fun _ h => hparent ?_
        · cases h
          rfl
        · cases h
          rfl

/-- Every process but the first one has a lineage. -/
theorem lineage_of_replay {deeds : List Deed} {n : Nat} (h : origin.replay deeds = some F)
    (hn : n ≠ 1) (hk : F n = some k) : Lineage deeds n k := by
  induction deeds using List.reverseRecOn generalizing F k with
  | nil =>
    cases h
    simp [origin, hn] at hk
  | append_singleton deeds d ih =>
    rw [replay_append] at h
    obtain ⟨F₁, hreplay, h⟩ := Option.bind_eq_some_iff.mp h
    obtain ⟨F₂, hafter, h⟩ := Option.bind_eq_some_iff.mp h
    cases h
    exact lineage_after (origin_ordered.replay hreplay) (fun k hk => ih hreplay hk) hafter hk

end Family

/-! ## The processes of the kernel -/

section
variable {μ : Type}

def Pcb.kin (x : Pcb) : Kin := ⟨x.ppid, if x.processState = .zombie then some x.exitStatus else none⟩

def Task.kin (t : Task) : Kin := ⟨t.ppid, if t.state = .zombie then some t.exitStatus else none⟩

/-- The processes of the process list. -/
def System.family (s : System μ) : Family := fun i => (s.pcbs (s.gProcessList i)).map Pcb.kin

namespace TaskView

/-- `F` has the processes of the view. -/
def Records (v : TaskView) (F : Family) : Prop :=
  ∀ i k, F i = some k ↔ ∃ p t, v.tasks p = some t ∧ t.pid = i ∧ t.kin = k

variable {v v' : TaskView} {F F' : Family} {p w device : Nat} {t : Task}

theorem fork_self : (v.fork p t).tasks p = some t := Function.update_self ..

theorem fork_of_ne {q : Nat} (h : q ≠ p) : (v.fork p t).tasks q = v.tasks q :=
  Function.update_of_ne h ..

theorem reap_self : (v.reap p).tasks p = none := Function.update_self ..

theorem reap_of_ne {q : Nat} (h : q ≠ p) : (v.reap p).tasks q = v.tasks q :=
  Function.update_of_ne h ..

namespace Records

theorem unique (R : v.Records F) (R' : v.Records F') : F = F' := by
  funext i
  exact Option.ext fun k => (R i k).trans (R' i k).symm

theorem congr (R : v.Records F)
    (h : ∀ p, (v'.tasks p).map (fun t => (t.pid, t.kin)) = (v.tasks p).map fun t => (t.pid, t.kin)) :
    v'.Records F := by
  have hone : ∀ {v : TaskView} {i k}, (∃ p t, v.tasks p = some t ∧ t.pid = i ∧ t.kin = k) ↔
      ∃ p, (v.tasks p).map (fun t => (t.pid, t.kin)) = some (i, k) := by
    intro v i k
    simp only [Option.map_eq_some_iff, Prod.mk.injEq]
  intro i k
  rw [R i k, hone, hone]
  simp only [h]

/-- A change of a process that its relatives do not see. -/
theorem modify_kin {f : Task → Task} (R : v.Records F)
    (h : ∀ t, v.tasks p = some t → (f t).pid = t.pid ∧ (f t).kin = t.kin) :
    (v.modify p f).Records F := by
  refine R.congr fun q => ?_
  by_cases hq : q = p
  · subst hq
    cases ht : v.tasks q with
    | none => simp [TaskView.modify, ht]
    | some t =>
      rw [modify_self ht, Option.map_some, Option.map_some, (h t ht).1, (h t ht).2]
  · rw [modify_of_ne hq]

theorem modify {f : Task → Task} (R : v.Records F) (D : v.Distinct) (hp : v.tasks p = some t)
    (hpid : (f t).pid = t.pid) :
    (v.modify p f).Records (Function.update F t.pid (some (f t).kin)) := by
  intro i k
  by_cases hi : i = t.pid
  · subst hi
    rw [Function.update_self, Option.some.injEq]
    constructor
    · rintro rfl
      exact ⟨p, f t, modify_self hp, hpid, rfl⟩
    · rintro ⟨q, u, hu, hupid, rfl⟩
      by_cases hq : q = p
      · subst hq
        rw [modify_self hp] at hu
        cases hu
        rfl
      · rw [modify_of_ne hq] at hu
        exact absurd (D q p u t hu hp hupid) hq
  · rw [Function.update_of_ne hi, R i k]
    have hne : ∀ q u, (v.tasks q = some u ∨ (v.modify p f).tasks q = some u) → u.pid = i →
        q ≠ p := by
      rintro q u hu rfl rfl
      rcases hu with hu | hu
      · rw [hp] at hu
        cases hu
        exact hi rfl
      · rw [modify_self hp] at hu
        cases hu
        exact hi hpid
    constructor
    · rintro ⟨q, u, hu, hupid, hk⟩
      exact ⟨q, u, (modify_of_ne (hne q u (.inl hu) hupid)).trans hu, hupid, hk⟩
    · rintro ⟨q, u, hu, hupid, hk⟩
      exact ⟨q, u, (modify_of_ne (hne q u (.inr hu) hupid)).symm.trans hu, hupid, hk⟩

theorem reparent {pid : Nat} (R : v.Records F) : (v.reparent pid).Records (F.orphan pid) := by
  have hkin : ∀ t : Task, (if t.ppid = pid then { t with ppid := 1 } else t).kin =
      if t.kin.parent = pid then { t.kin with parent := 1 } else t.kin := by
    intro t
    rw [show t.kin.parent = t.ppid from rfl]
    split <;> rfl
  have hpid : ∀ t : Task, (if t.ppid = pid then { t with ppid := 1 } else t).pid = t.pid := by
    intro t
    split <;> rfl
  intro i k
  simp only [Family.orphan, TaskView.reparent, Option.map_eq_some_iff]
  constructor
  · rintro ⟨k₀, hk₀, rfl⟩
    obtain ⟨p, t, ht, htpid, rfl⟩ := (R i k₀).mp hk₀
    exact ⟨p, _, ⟨t, ht, rfl⟩, (hpid t).trans htpid, hkin t⟩
  · rintro ⟨p, _, ⟨t, ht, rfl⟩, htpid, rfl⟩
    exact ⟨t.kin, (R i t.kin).mpr ⟨p, t, ht, (hpid t).symm.trans htpid, rfl⟩, (hkin t).symm⟩

/-- A process that wakes had not exited. -/
theorem wake (R : v.Records F) (S : Scheduled device v) : (v.wake w).Records F := by
  refine R.congr fun p => ?_
  by_cases hp : p ∈ v.waiting w
  · obtain ⟨t, ht, hstate⟩ := stateOf_eq_some.mp ((S.waiting p).mp ⟨w, hp⟩)
    simp [TaskView.wake, hp, ht, Task.kin, hstate]
  · rw [wake_tasks_of_notMem hp]

theorem fork (R : v.Records F) (hp : v.tasks p = none)
    (hnew : ∀ q u, v.tasks q = some u → u.pid ≠ t.pid) :
    (v.fork p t).Records (Function.update F t.pid (some t.kin)) := by
  intro i k
  by_cases hi : i = t.pid
  · subst hi
    rw [Function.update_self, Option.some.injEq]
    constructor
    · rintro rfl
      exact ⟨p, t, fork_self, rfl, rfl⟩
    · rintro ⟨q, u, hu, hupid, rfl⟩
      by_cases hq : q = p
      · subst hq
        rw [fork_self] at hu
        cases hu
        rfl
      · rw [fork_of_ne hq] at hu
        exact absurd hupid (hnew q u hu)
  · rw [Function.update_of_ne hi, R i k]
    constructor
    · rintro ⟨q, u, hu, hupid, hk⟩
      have hq : q ≠ p := by
        rintro rfl
        rw [hp] at hu
        cases hu
      exact ⟨q, u, (fork_of_ne hq).trans hu, hupid, hk⟩
    · rintro ⟨q, u, hu, hupid, hk⟩
      have hq : q ≠ p := by
        rintro rfl
        rw [fork_self] at hu
        cases hu
        exact hi hupid.symm
      rw [fork_of_ne hq] at hu
      exact ⟨q, u, hu, hupid, hk⟩

theorem reap (R : v.Records F) (D : v.Distinct) (hp : v.tasks p = some t) :
    (v.reap p).Records (Function.update F t.pid none) := by
  have htasks : ∀ q u, (v.reap p).tasks q = some u ↔ v.tasks q = some u ∧ u.pid ≠ t.pid := by
    intro q u
    by_cases hq : q = p
    · subst hq
      rw [reap_self]
      refine iff_of_false nofun ?_
      rintro ⟨hu, hne⟩
      rw [hp] at hu
      cases hu
      exact hne rfl
    · rw [reap_of_ne hq]
      exact ⟨fun hu => ⟨hu, fun hpid => hq (D q p u t hu hp hpid)⟩, And.left⟩
  intro i k
  by_cases hi : i = t.pid
  · subst hi
    rw [Function.update_self]
    refine iff_of_false nofun ?_
    rintro ⟨q, u, hu, hupid, -⟩
    exact ((htasks q u).mp hu).2 hupid
  · rw [Function.update_of_ne hi, R i k]
    constructor
    · rintro ⟨q, u, hu, hupid, hk⟩
      exact ⟨q, u, (htasks q u).mpr ⟨hu, fun h => hi (hupid.symm.trans h)⟩, hupid, hk⟩
    · rintro ⟨q, u, hu, hupid, hk⟩
      exact ⟨q, u, ((htasks q u).mp hu).1, hupid, hk⟩

theorem block {F : Family} (R : v.Records F) (S : Scheduled device v) (hcurr : v.current = some p) :
    (v.block p w).Records F := by
  obtain ⟨t, ht, hstate⟩ := stateOf_eq_some.mp ((S.ready p).mp (.inl hcurr))
  refine R.modify_kin (p := p) (f := ({ · with state := .waiting })) fun u hu => ⟨rfl, ?_⟩
  rw [ht] at hu
  cases hu
  simp [Task.kin, hstate]

/-- The current process exits: its parent, with whom it leaves its status, is in the list. -/
theorem exit {t' u : Task} {q : Nat} {status : Int} (R : v.Records F) (S : Scheduled device v)
    (D : v.Distinct) (hcurr : v.current = some p) (hp : v.tasks p = some t)
    (ht' : ((v.die p status).reparent t.pid).tasks p = some t')
    (hu : ((v.die p status).reparent t.pid).tasks q = some u) (hparent : u.pid = t'.ppid) :
    ∃ F', F.after (.exit t.pid status) = some F' ∧
      (((v.die p status).reparent t.pid).wake w).Records F' := by
  obtain ⟨t₀, ht₀, hstate⟩ := stateOf_eq_some.mp ((S.ready p).mp (.inl hcurr))
  rw [hp] at ht₀
  cases ht₀
  have hkin : F t.pid = some ⟨t.ppid, none⟩ := (R _ _).mpr ⟨p, t, hp, rfl, by simp [Task.kin, hstate]⟩
  have R₁ : (v.die p status).Records (Function.update F t.pid (some ⟨t.ppid, some status⟩)) :=
    R.modify D hp (f := ({ · with state := .zombie, exitStatus := status })) rfl
  refine ⟨_, ?_, R₁.reparent.wake (S.die hcurr).reparent⟩
  have hlisted : (F t.ppid).isSome := by
    by_cases hself : t.ppid = t.pid
    · rw [hself, hkin]
      rfl
    · have hppid : t'.ppid = t.ppid := by
        obtain ⟨t₁, ht₁, -, -, -, -, heq⟩ := reparent_tasks ht'
        have hdies : (v.die p status).tasks p =
            some { t with state := .zombie, exitStatus := status } := modify_self hp
        rw [hdies] at ht₁
        cases ht₁
        exact heq.trans (if_neg hself)
      obtain ⟨u', hu', hpid, -⟩ := reparent_tasks hu
      obtain ⟨k, hk⟩ : ∃ k, Function.update F t.pid (some ⟨t.ppid, some status⟩) t.ppid = some k :=
        ⟨u'.kin, (R₁ _ _).mpr ⟨q, u', hu', hpid.trans (hparent.trans hppid), rfl⟩⟩
      rw [Function.update_of_ne hself] at hk
      rw [hk]
      rfl
  exact Family.after_exit_eq hkin hlisted

end Records

end TaskView

variable {M : MemoryManager μ} {Live : μ → List Nat → Prop} {s s' : System μ} {L L' : List Nat}
  {v v' : TaskView} {p : Nat} {x : Pcb}

theorem System.family_of_pcb (T : ProcessTable s) (hx : s.pcbs p = some x) :
    s.family x.pid = some x.kin := by
  rw [System.family, (T.listed p x hx).2.2, hx]
  rfl

theorem Coherent.records (C : Coherent Live s L v) : v.Records s.family := by
  intro i k
  constructor
  · intro h
    obtain ⟨x, hx, rfl⟩ := Option.map_eq_some_iff.mp h
    obtain ⟨context, -, ht⟩ := C.task_of_pcb hx
    exact ⟨_, _, ht, C.table.pid_of_listed (C.pcb_ne_zero hx) hx, rfl⟩
  · rintro ⟨p, t, ht, rfl, rfl⟩
    obtain ⟨x, hx, -, htask⟩ := C.pcb_of_task ht
    have hpid : t.pid = x.pid := by rw [htask]; rfl
    rw [System.family, hpid, (C.table.listed p x hx).2.2, hx, htask]
    rfl

theorem Coherent.family_eq {F : Family} (C : Coherent Live s L v) (R : v.Records F) : s.family = F :=
  C.records.unique R

theorem SameTasks.family (h : SameTasks s s') : s'.family = s.family := by
  have hcore : ∀ o : Option Pcb, o.map Pcb.kin = (o.map Pcb.core).map Pcb.kin := by
    intro o
    rw [Option.map_map]
    rfl
  funext i
  rw [System.family, h.processList, hcore, h.pcbs, ← hcore, System.family]

end

end TrazelOs
