import TrazelOs.Kernel.Machine
import TrazelOs.Kernel.Memory
import TrazelOs.Verify.Objects
import TrazelOs.Verify.VmmRun

/-! # The break of a process

`syscall_brk_handler` maps new pages from the old break to the new one. As long as the break stays in
the lower half, every page below it is mapped. The rounding of an address in the last page of the
64-bit address space wraps, so the break moves there without a single page. When the pages run out
half way, the request is refused but what was mapped stays. -/

namespace TrazelOs

open Relation

/-! ## Notes on the memory managers -/

/-- A call of `pmm_alloc_page` with the page it returned, or a call of `vmm_map_page` with the states
of the PMM before and after it. -/
inductive MemoryNote
  | page (addr : Nat)
  | mapping (before after : Pmm)

abbrev NotedKernel := Kernel Pmm × List MemoryNote

/-- The kernel's memory managers, with notes of the calls of a system call. The last one comes
first. -/
def notedMemory : MemoryManager NotedKernel :=
  { kernelMemory.paired (List MemoryNote) with
    pmmAllocPage := fun m => (fun r => (r.1, r.2, .page r.1 :: m.2)) <$> kernelMemory.pmmAllocPage m.1
    vmmMapPage := fun m pagemap vaddr paddr flags =>
      (fun r => (r.1, r.2, .mapping m.1.pmm r.2.pmm :: m.2)) <$>
        kernelMemory.vmmMapPage m.1 pagemap vaddr paddr flags }

/-- The flags of the pages of the heap. -/
abbrev heapFlags : Nat := mpfWritablePage + mpfUserAccessible + mpfOverrideCurrentPaging

section Pages
variable {k k' : Kernel Pmm} {root vaddr paddr i : Nat} {r : Int}

/-- A page that may be overridden is always mapped. -/
theorem vmmMapPage_heapFlags (h : vmmMapPage k root vaddr paddr heapFlags = .ok (r, k')) : r = 0 := by
  obtain ⟨⟨t, k₁⟩, -, h⟩ := Exec.bind_eq_ok.mp h
  dsimp only at h
  rw [if_neg fun hno => hno.1 (by decide)] at h
  cases h
  rfl

theorem pmmAllocPage_used {p p' : Pmm} {a : Nat} (h : pmmAllocPage p = .ok (a, p'))
    (hused : p.used i = true) : p'.used i = true := by
  unfold pmmAllocPage at h
  split at h
  · cases h
    exact hused
  · obtain ⟨p₁, hset, h⟩ := Exec.bind_eq_ok.mp h
    cases h
    obtain ⟨-, rfl⟩ := setPageAs_ok hset
    rw [Pmm.used_setBits, hused, ite_self]

theorem mapPageTable_used {flags level t t' : Nat}
    (h : mapPageTable vaddr flags (t, k) level = .ok (t', k')) (hused : k.pmm.used i = true) :
    k'.pmm.used i = true := by
  by_cases hzero : tableEntry k.mem t (virtualAddrIndex vaddr level) = 0
  · simp only [mapPageTable, if_pos hzero] at h
    obtain ⟨⟨entry, k₁⟩, halloc, h⟩ := Exec.bind_eq_ok.mp h
    obtain ⟨⟨page, pmm⟩, hpage, halloc⟩ := Exec.bind_eq_ok.mp halloc
    obtain ⟨-, -, halloc⟩ := Exec.bind_eq_ok.mp halloc
    cases halloc
    cases h
    split <;> exact pmmAllocPage_used hpage hused
  · simp only [mapPageTable, if_neg hzero] at h
    cases h
    split <;> exact hused

theorem vmmMapPage_used {flags : Nat} (h : vmmMapPage k root vaddr paddr flags = .ok (r, k'))
    (hused : k.pmm.used i = true) : k'.pmm.used i = true := by
  obtain ⟨⟨t, k₁⟩, htables, h⟩ := Exec.bind_eq_ok.mp h
  have hused₁ : k₁.pmm.used i = true :=
    Exec.foldlM_ok (p := fun s => s.2.pmm.used i = true)
      (fun s level s' _ hs hturn => mapPageTable_used hturn hs) hused htables
  dsimp only at h
  split at h <;> cases h <;> exact hused₁

/-- The page is in the lower half and user code may write to it. -/
def UserPage (k : Kernel Pmm) (root vaddr : Nat) : Prop :=
  vaddr < 2 ^ 47 ∧ ∃ m, translate k root vaddr = some m ∧ m.writable = true ∧ m.userAccess = true

/-- What mapping a page of the heap does to the walks. -/
theorem PagemapInv.mapHeapPage (I : PagemapInv k root) (hv : vaddr < 2 ^ 47) (hp : paddr < 2 ^ 52)
    (h : vmmMapPage k root vaddr paddr heapFlags = .ok (r, k')) :
    PagemapInv k' root ∧ ∀ v < 2 ^ 47, translate k' root v =
      if v / regularPageSize = vaddr / regularPageSize then some ⟨paddr / 2 ^ 12, true, true⟩
      else translate k root v := by
  obtain ⟨I', ⟨⟨hno, -⟩, -⟩ | ⟨-, -, hleaves⟩⟩ := I.vmmMapPage_ok hv h
  · cases hno
  · refine ⟨I', fun v hv' => ?_⟩
    rw [I.translate_update hv I' hleaves hv', entryMapping_makeEntry (by omega)]
    rfl

end Pages

/-! ## The loop -/

section Loop
variable {k k' : Kernel Pmm} {root endPage turns page : Nat} {notes : List MemoryNote} {grown : Bool}
  {m' : NotedKernel}

theorem notedMemory_pmmAllocPage {a : Nat} (h : notedMemory.pmmAllocPage (k, notes) = .ok (a, m')) :
    ∃ p, pmmAllocPage k.pmm = .ok (a, p) ∧ m' = ({ k with pmm := p }, .page a :: notes) := by
  obtain ⟨⟨a', k₁⟩, halloc, heq⟩ := Exec.map_eq_ok.mp h
  cases heq
  obtain ⟨⟨a, p⟩, hpage, halloc⟩ := Exec.bind_eq_ok.mp halloc
  cases halloc
  exact ⟨p, hpage, rfl⟩

theorem notedMemory_vmmMapPage {vaddr paddr flags : Nat} {r : Int}
    (h : notedMemory.vmmMapPage (k, notes) root vaddr paddr flags = .ok (r, m')) :
    ∃ k₁, vmmMapPage k root vaddr paddr flags = .ok (r, k₁) ∧
      m' = (k₁, .mapping k.pmm k₁.pmm :: notes) := by
  obtain ⟨⟨r', k₁⟩, hmap, heq⟩ := Exec.map_eq_ok.mp h
  cases heq
  exact ⟨k₁, hmap, rfl⟩

/-- What a turn of the loop does. -/
theorem growHeap_turn
    (h : growHeap notedMemory root endPage (turns + 1) page (k, notes) = .ok (grown, m')) :
    endPage ≤ page ∧ grown = true ∧ m' = (k, notes) ∨
      page < endPage ∧ ∃ a p, pmmAllocPage k.pmm = .ok (a, p) ∧
        (a = 0 ∧ grown = false ∧ m' = ({ k with pmm := p }, .page 0 :: notes) ∨
          a ≠ 0 ∧ ∃ k₁, vmmMapPage { k with pmm := p } root page a heapFlags = .ok (0, k₁) ∧
            growHeap notedMemory root endPage turns (u64 (page + regularPageSize))
              (k₁, .mapping p k₁.pmm :: .page a :: notes) = .ok (grown, m')) := by
  unfold growHeap at h
  split at h
  · rename_i hlt
    obtain ⟨⟨a, m₁⟩, halloc, h⟩ := Exec.bind_eq_ok.mp h
    obtain ⟨p, hpage, rfl⟩ := notedMemory_pmmAllocPage halloc
    refine .inr ⟨hlt, a, p, hpage, ?_⟩
    dsimp only at h
    by_cases hnull : a = 0
    · rw [if_pos hnull] at h
      obtain ⟨rfl, rfl⟩ := Prod.mk.inj (Except.ok.inj h)
      exact .inl ⟨hnull, rfl, by rw [hnull]⟩
    · rw [if_neg hnull] at h
      obtain ⟨⟨r, m₂⟩, hmap, h⟩ := Exec.bind_eq_ok.mp h
      obtain ⟨k₁, hmapped, rfl⟩ := notedMemory_vmmMapPage hmap
      obtain rfl : r = 0 := vmmMapPage_heapFlags hmapped
      exact .inr ⟨hnull, k₁, hmapped, h⟩
  · rename_i hge
    cases h
    exact .inl ⟨Nat.not_lt.mp hge, rfl, rfl⟩

/-- The loop stops early only without a page. -/
theorem growHeap_notes
    (h : growHeap notedMemory root endPage turns page (k, notes) = .ok (grown, m')) :
    notes <:+ m'.2 ∧ (grown = false → .page 0 ∈ m'.2) := by
  induction turns generalizing k notes page with
  | zero => cases h
  | succ turns ih =>
    rcases growHeap_turn h with ⟨-, rfl, rfl⟩ | ⟨-, a, p, -, ⟨-, -, rfl⟩ | ⟨-, k₁, -, h⟩⟩
    · exact ⟨List.suffix_refl _, fun h => Bool.noConfusion h⟩
    · exact ⟨List.suffix_cons _ _, fun _ => List.mem_cons_self⟩
    · obtain ⟨hnotes, hfail⟩ := ih h
      exact ⟨((List.suffix_cons _ _).trans (List.suffix_cons _ _)).trans hnotes, hfail⟩

/-- A page that is used stays so, and is no page that `vmm_map_page` takes. -/
theorem growHeap_used {i : Nat} (hused : k.pmm.used i = true)
    (h : growHeap notedMemory root endPage turns page (k, notes) = .ok (grown, m')) :
    m'.1.pmm.used i = true ∧ ∀ p p', .mapping p p' ∈ m'.2 → .mapping p p' ∈ notes ∨
      p.used i = p'.used i := by
  induction turns generalizing k notes page with
  | zero => cases h
  | succ turns ih =>
    rcases growHeap_turn h with ⟨-, -, rfl⟩ | ⟨-, a, p, hpage, ⟨-, -, rfl⟩ | ⟨-, k₁, hmap, h⟩⟩
    · exact ⟨hused, fun p p' hmem => .inl hmem⟩
    · refine ⟨pmmAllocPage_used hpage hused, fun p₁ p₂ hmem => .inl ?_⟩
      simpa using hmem
    · have hp : p.used i = true := pmmAllocPage_used hpage hused
      have hk₁ : k₁.pmm.used i = true := vmmMapPage_used hmap hp
      obtain ⟨hlast, hnotes⟩ := ih hk₁ h
      refine ⟨hlast, fun p₁ p₂ hmem => ?_⟩
      rcases hnotes p₁ p₂ hmem with hmem | heq
      · rcases List.mem_cons.mp hmem with heq | hmem
        · cases heq
          exact .inr (hp.trans hk₁.symm)
        · exact .inl (by simpa using hmem)
      · exact .inr heq

/-- The loop maps the pages from `page` to `endPage`, and leaves those before it. -/
theorem growHeap_maps (I : PagemapInv k root) (hpage : regularPageSize ∣ page) (hend : endPage ≤ 2 ^ 47)
    (h : growHeap notedMemory root endPage turns page (k, notes) = .ok (true, m')) :
    PagemapInv m'.1 root ∧ (∀ v < 2 ^ 47, v < page → translate m'.1 root v = translate k root v) ∧
      ∀ v, page ≤ v → v < endPage → UserPage m'.1 root v := by
  induction turns generalizing k notes page with
  | zero => cases h
  | succ turns ih =>
    rcases growHeap_turn h with ⟨hge, -, rfl⟩ | ⟨hlt, a, p, halloc, ⟨-, hfail, -⟩ | ⟨ha, k₁, hmap, h⟩⟩
    · exact ⟨I, fun v _ _ => rfl, fun v hv hv' => absurd (Nat.lt_of_le_of_lt (Nat.le_trans hge hv) hv')
        (Nat.lt_irrefl _)⟩
    · cases hfail
    · have hcount := I.direct.count
      obtain ⟨i, hi, -, -, rfl, rfl⟩ := pmmAllocPage_ok (Nat.le_trans hcount (by decide)) halloc ha
      have ha52 : i * regularPageSize < 2 ^ 52 := by
        simp only [regularPageSize]
        omega
      obtain ⟨I₁, hwalk⟩ := (I.take : PagemapInv { k with pmm := k.pmm.setBits [i] true } root).mapHeapPage
        (by omega) ha52 hmap
      have hnext : u64 (page + regularPageSize) = page + regularPageSize := by
        refine u64_of_lt ?_
        simp only [regularPageSize]
        omega
      rw [hnext] at h
      obtain ⟨I', hbefore, hmapped⟩ := ih I₁ (Nat.dvd_add hpage (Nat.dvd_refl _)) h
      refine ⟨I', fun v hv hlt' => ?_, fun v hle hlt' => ?_⟩
      · rw [hbefore v hv (by omega), hwalk v hv, if_neg ?_]
        · rfl
        · simp only [regularPageSize] at hpage ⊢
          omega
      · by_cases hin : v < page + regularPageSize
        · refine ⟨by omega, ⟨i * regularPageSize / 2 ^ 12, true, true⟩, ?_, rfl, rfl⟩
          rw [hbefore v (by omega) hin, hwalk v (by omega), if_pos ?_]
          simp only [regularPageSize] at hpage hin ⊢
          omega
        · exact hmapped v (Nat.not_lt.mp hin) hlt'

/-- With four pages for each page of the heap the loop maps them all. -/
theorem growHeap_total {n : Nat} (hleft : PagesLeft k (4 * n)) (hturns : n < turns)
    (hend : endPage ≤ page + n * regularPageSize) (hword : endPage ≤ 2 ^ 64 - regularPageSize)
    (hpages : .page 0 ∉ notes) :
    ∃ m', growHeap notedMemory root endPage turns page (k, notes) = .ok (true, m') ∧ .page 0 ∉ m'.2 := by
  induction n generalizing k notes page turns with
  | zero =>
    obtain ⟨turns, rfl⟩ := Nat.exists_eq_succ_of_ne_zero (Nat.ne_of_gt hturns)
    refine ⟨(k, notes), ?_, hpages⟩
    rw [growHeap, if_neg (by omega)]
  | succ n ih =>
    obtain ⟨turns, rfl⟩ := Nat.exists_eq_succ_of_ne_zero (Nat.ne_of_gt (Nat.zero_lt_of_lt hturns))
    by_cases hlt : page < endPage
    · obtain ⟨i, -, hi, halloc, hleft₁⟩ := PagesLeft.alloc (n := 4 * n + 3) hleft
      have ha : i * regularPageSize ≠ 0 := Nat.mul_ne_zero hi (by decide)
      obtain ⟨r, k₁, hmap, hleft₂⟩ := (hleft₁ k.mem).vmmMapPage_total root page (i * regularPageSize) heapFlags
      obtain rfl : r = 0 := vmmMapPage_heapFlags hmap
      have hnext : u64 (page + regularPageSize) = page + regularPageSize :=
        u64_of_lt (by simp only [regularPageSize] at hword ⊢; omega)
      obtain ⟨m', hrest, hm'⟩ : ∃ m', growHeap notedMemory root endPage turns (page + regularPageSize)
          (k₁, .mapping (k.pmm.setBits [i] true) k₁.pmm :: .page (i * regularPageSize) :: notes) =
            .ok (true, m') ∧ .page 0 ∉ m'.2 :=
        ih hleft₂ (Nat.lt_of_succ_lt_succ hturns) (by rw [Nat.succ_mul] at hend; omega)
          (by simp [ha.symm, hpages])
      refine ⟨m', ?_, hm'⟩
      rw [growHeap, if_pos hlt]
      refine Exec.bind_eq_ok.mpr ⟨(i * regularPageSize, _), Exec.map_eq_ok.mpr ⟨_,
        Exec.bind_eq_ok.mpr ⟨_, halloc, rfl⟩, rfl⟩, ?_⟩
      dsimp only
      rw [if_neg ha]
      refine Exec.bind_eq_ok.mpr ⟨(0, _), Exec.map_eq_ok.mpr ⟨_, hmap, rfl⟩, ?_⟩
      dsimp only
      rw [if_neg (fun hne => hne rfl), hnext]
      exact hrest
    · refine ⟨(k, notes), ?_, hpages⟩
      rw [growHeap, if_neg hlt]

end Loop

/-! ## System calls -/

section Call
variable {s s' : System NotedKernel} {pcb root start : Nat} {regs regs' : InterruptInfo} {x : Pcb}

/-- What the handler does. -/
theorem syscallBrkHandler_cases (h : syscallBrkHandler notedMemory s pcb regs = .ok (regs', s')) :
    ∃ x, s.pcbs pcb = some x ∧
      ((regs.rdi = 0 ∨ regs.rdi < x.processHeapPtr) ∧ regs'.rax = x.processHeapPtr ∧ s' = s ∨
        ¬(regs.rdi = 0 ∨ regs.rdi < x.processHeapPtr) ∧ ∃ grown m',
          growHeap notedMemory x.pagemapHhdmPtr (alignUp regs.rdi regularPageSize) (2 ^ 64)
            (alignUp x.processHeapPtr regularPageSize) s.mem = .ok (grown, m') ∧
          (grown = true ∧ regs'.rax = regs.rdi ∧
              s' = { s with mem := m' }.setPcb pcb { x with processHeapPtr := regs.rdi } ∨
            grown = false ∧ regs'.rax = x.processHeapPtr ∧ s' = { s with mem := m' })) := by
  obtain ⟨x, hx, h⟩ := Exec.bind_eq_ok.mp h
  refine ⟨x, deref_eq_ok.mp hx, ?_⟩
  dsimp only at h
  by_cases hearly : regs.rdi = 0 ∨ regs.rdi < x.processHeapPtr
  · rw [if_pos hearly] at h
    obtain ⟨rfl, rfl⟩ := Prod.mk.inj (Except.ok.inj h)
    exact .inl ⟨hearly, rfl, rfl⟩
  · rw [if_neg hearly] at h
    obtain ⟨⟨grown, m'⟩, hgrow, h⟩ := Exec.bind_eq_ok.mp h
    refine .inr ⟨hearly, grown, m', hgrow, ?_⟩
    cases grown with
    | true =>
      obtain ⟨rfl, rfl⟩ := Prod.mk.inj (Except.ok.inj h)
      exact .inl ⟨rfl, rfl, rfl⟩
    | false =>
      obtain ⟨rfl, rfl⟩ := Prod.mk.inj (Except.ok.inj h)
      exact .inr ⟨rfl, rfl, rfl⟩

theorem syscallBrkHandler_notes (h : syscallBrkHandler notedMemory s pcb regs = .ok (regs', s')) :
    s.mem.2 <:+ s'.mem.2 := by
  obtain ⟨x, -, ⟨-, -, rfl⟩ | ⟨-, grown, m', hgrow, ⟨-, -, rfl⟩ | ⟨-, -, rfl⟩⟩⟩ :=
    syscallBrkHandler_cases h
  · exact List.suffix_refl _
  · exact (growHeap_notes hgrow).1
  · exact (growHeap_notes hgrow).1

theorem alignUp_page {n : Nat} (hn : n ≤ 2 ^ 47) : regularPageSize ∣ alignUp n regularPageSize ∧
    n ≤ alignUp n regularPageSize ∧ alignUp n regularPageSize ≤ 2 ^ 47 := by
  have h := alignUp_cases n regularPageSize
  simp only [regularPageSize] at h ⊢
  generalize alignUp n 4096 = m at h ⊢
  refine ⟨?_, ?_, ?_⟩ <;> omega

/-- As long as the break is in the lower half, the pages from `start` to it are mapped. -/
structure HeapMapped (start root pcb : Nat) (s : System NotedKernel) (x : Pcb) : Prop where
  process : s.pcbs pcb = some x
  pagemap : x.pagemapHhdmPtr = root
  start_le : start ≤ x.processHeapPtr
  word : x.processHeapPtr < 2 ^ 64
  inv : x.processHeapPtr ≤ 2 ^ 47 → PagemapInv s.mem.1 root
  mapped : x.processHeapPtr ≤ 2 ^ 47 → ∀ v, start ≤ v → v < alignUp x.processHeapPtr regularPageSize →
    UserPage s.mem.1 root v

theorem HeapMapped.call (H : HeapMapped start root pcb s x) (hrdi : regs.rdi < 2 ^ 64)
    (h : syscallBrkHandler notedMemory s pcb regs = .ok (regs', s')) (hpages : .page 0 ∉ s'.mem.2) :
    ∃ x', HeapMapped start root pcb s' x' ∧ x.processHeapPtr ≤ x'.processHeapPtr ∧
      (regs'.rax = regs.rdi → x'.processHeapPtr = regs.rdi) := by
  obtain ⟨y, hy, hcases⟩ := syscallBrkHandler_cases h
  obtain rfl : x = y := Option.some.inj (H.process.symm.trans hy)
  rcases hcases with ⟨-, hrax, rfl⟩ | ⟨hlate, grown, m', hgrow, ⟨rfl, -, rfl⟩ | ⟨rfl, -, rfl⟩⟩
  · exact ⟨x, H, Nat.le_refl _, fun hgranted => hrax.symm.trans hgranted⟩
  · obtain ⟨-, hle⟩ := not_or.mp hlate
    have hle : x.processHeapPtr ≤ regs.rdi := Nat.not_lt.mp hle
    refine ⟨{ x with processHeapPtr := regs.rdi }, ?_, hle, fun _ => rfl⟩
    have hmaps : regs.rdi ≤ 2 ^ 47 → PagemapInv m'.1 root ∧
        ∀ v, start ≤ v → v < alignUp regs.rdi regularPageSize → UserPage m'.1 root v := by
      intro hlow
      have hprev : x.processHeapPtr ≤ 2 ^ 47 := Nat.le_trans hle hlow
      rw [H.pagemap] at hgrow
      obtain ⟨I', hbefore, hmapped⟩ :=
        growHeap_maps (H.inv hprev) (alignUp_page hprev).1 (alignUp_page hlow).2.2 hgrow
      refine ⟨I', fun v hstart hv => ?_⟩
      by_cases hold : v < alignUp x.processHeapPtr regularPageSize
      · obtain ⟨hlower, m, hm, haccess⟩ := H.mapped hprev v hstart hold
        exact ⟨hlower, m, (hbefore v hlower hold).trans hm, haccess⟩
      · exact hmapped v (Nat.not_lt.mp hold) hv
    exact ⟨Function.update_self .., H.pagemap, Nat.le_trans H.start_le hle, hrdi,
      fun hlow => (hmaps hlow).1, fun hlow => (hmaps hlow).2⟩
  · exact absurd ((growHeap_notes hgrow).2 rfl) hpages

/-- The process makes the system call `brk` with some argument. -/
def BrkCall (pcb : Nat) (s s' : System NotedKernel) : Prop :=
  ∃ regs regs', regs.rdi < 2 ^ 64 ∧ syscallBrkHandler notedMemory s pcb regs = .ok (regs', s')

theorem HeapMapped.run {s₀ : System NotedKernel} {x₀ : Pcb} (H : HeapMapped start root pcb s₀ x₀)
    (hrun : ReflTransGen (BrkCall pcb) s₀ s) (hpages : .page 0 ∉ s.mem.2) :
    ∃ x, HeapMapped start root pcb s x := by
  induction hrun with
  | refl => exact ⟨x₀, H⟩
  | tail _ hcall ih =>
    obtain ⟨regs, regs', hrdi, hcall⟩ := hcall
    obtain ⟨x, H⟩ := ih fun hmem => hpages ((syscallBrkHandler_notes hcall).subset hmem)
    obtain ⟨x', H', -⟩ := H.call hrdi hcall hpages
    exact ⟨x', H'⟩

theorem HeapMapped.initial (hx : s.pcbs pcb = some x) (I : PagemapInv s.mem.1 x.pagemapHhdmPtr)
    (haligned : regularPageSize ∣ x.processHeapPtr) (hlow : x.processHeapPtr < 2 ^ 47) :
    HeapMapped x.processHeapPtr x.pagemapHhdmPtr pcb s x where
  process := hx
  pagemap := rfl
  start_le := Nat.le_refl _
  word := Nat.lt_trans hlow (by decide)
  inv := fun _ => I
  mapped := fun _ v hv hv' => by
    rw [alignUp, if_pos (Nat.mod_eq_zero_of_dvd haligned)] at hv'
    exact absurd (Nat.lt_of_le_of_lt hv hv') (Nat.lt_irrefl _)

/-- The pages up to a break are mapped exactly when the break is in the lower half. -/
theorem HeapMapped.mapped_iff (H : HeapMapped start root pcb s x) (hstart : start < 2 ^ 47) :
    (∀ v, start ≤ v → v < x.processHeapPtr → UserPage s.mem.1 root v) ↔
      x.processHeapPtr ≤ 2 ^ 47 := by
  constructor
  · intro hmapped
    by_contra hhigh
    exact absurd (hmapped (2 ^ 47) (Nat.le_of_lt hstart) (Nat.not_le.mp hhigh)).1 (Nat.lt_irrefl _)
  · intro hlow v hv hv'
    exact H.mapped hlow v hv (Nat.lt_of_lt_of_le hv' (alignUp_page hlow).2.1)

/-- What the second call of `sbrk` asks for. -/
theorem sbrk_cases {incr : Int} {p : Nat} (hincr : 0 < incr)
    (h : sbrk notedMemory s pcb regs incr = .ok (p, s')) (hp : p ≠ minusOne) :
    ∃ x, s.pcbs pcb = some x ∧ p = x.processHeapPtr ∧ ∃ regs regs', regs.rdi = ofInt64 (p + incr) ∧
      regs'.rax = regs.rdi ∧ syscallBrkHandler notedMemory s pcb regs = .ok (regs', s') := by
  obtain ⟨⟨regs₁, s₁⟩, hfirst, hrest⟩ := Exec.bind_eq_ok.mp h
  obtain ⟨x, hx, hcases⟩ := syscallBrkHandler_cases hfirst
  obtain ⟨-, hrax, rfl⟩ := hcases.resolve_right fun hlate => hlate.1 (.inl rfl)
  dsimp only at hrest
  rw [if_neg (Int.ne_of_gt hincr)] at hrest
  obtain ⟨⟨regs₂, s₂⟩, hsecond, hrest⟩ := Exec.bind_eq_ok.mp hrest
  dsimp only at hrest
  by_cases hrefused : regs₂.rax ≠ ofInt64 (regs₁.rax + incr)
  · rw [if_pos hrefused] at hrest
    exact absurd (congrArg Prod.fst (Except.ok.inj hrest)).symm hp
  · rw [if_neg hrefused] at hrest
    obtain ⟨rfl, rfl⟩ := Prod.mk.inj (Except.ok.inj hrest)
    exact ⟨x, hx, hrax, _, regs₂, rfl, not_not.mp hrefused, hsecond⟩

end Call

/-- In every run of `brk` calls from a break in the lower half, the break never decreases, and the
pages up to an address that is granted are mapped exactly when it is in the lower half. So it is with
the memory that `sbrk` returns. -/
theorem brk_mapped_iff {s₀ s : System NotedKernel} {pcb : Nat} {x₀ : Pcb} (hx₀ : s₀.pcbs pcb = some x₀)
    (I : PagemapInv s₀.mem.1 x₀.pagemapHhdmPtr) (haligned : regularPageSize ∣ x₀.processHeapPtr)
    (hlow : x₀.processHeapPtr < 2 ^ 47) (hrun : ReflTransGen (BrkCall pcb) s₀ s) :
    (∀ regs regs' s', regs.rdi < 2 ^ 64 →
      syscallBrkHandler notedMemory s pcb regs = .ok (regs', s') → .page 0 ∉ s'.mem.2 →
        (∃ x x', s.pcbs pcb = some x ∧ s'.pcbs pcb = some x' ∧
          x.processHeapPtr ≤ x'.processHeapPtr) ∧
        (regs'.rax = regs.rdi →
          ((∀ v, x₀.processHeapPtr ≤ v → v < regs.rdi →
            UserPage s'.mem.1 x₀.pagemapHhdmPtr v) ↔ regs.rdi ≤ 2 ^ 47))) ∧
    ∀ (regs : InterruptInfo) (incr : Int) p s', 0 < incr → incr < 2 ^ 31 →
      sbrk notedMemory s pcb regs incr = .ok (p, s') → .page 0 ∉ s'.mem.2 → p ≠ minusOne →
        ((∀ v, p ≤ v → v < p + incr.toNat → UserPage s'.mem.1 x₀.pagemapHhdmPtr v) ↔
          p + incr.toNat ≤ 2 ^ 47) := by
  have hreached : ∀ regs regs' s', regs.rdi < 2 ^ 64 →
      syscallBrkHandler notedMemory s pcb regs = .ok (regs', s') → .page 0 ∉ s'.mem.2 →
        ∃ x x', HeapMapped x₀.processHeapPtr x₀.pagemapHhdmPtr pcb s x ∧
          HeapMapped x₀.processHeapPtr x₀.pagemapHhdmPtr pcb s' x' ∧
          x.processHeapPtr ≤ x'.processHeapPtr ∧
          (regs'.rax = regs.rdi → x'.processHeapPtr = regs.rdi) := by
    intro regs regs' s' hrdi hcall hpages
    obtain ⟨x, H⟩ := (HeapMapped.initial hx₀ I haligned hlow).run hrun
      fun hmem => hpages ((syscallBrkHandler_notes hcall).subset hmem)
    obtain ⟨x', H', hle, hgranted⟩ := H.call hrdi hcall hpages
    exact ⟨x, x', H, H', hle, hgranted⟩
  refine ⟨fun regs regs' s' hrdi hcall hpages => ?_, fun regs incr p s' hpos hincr hsbrk hpages hp => ?_⟩
  · obtain ⟨x, x', H, H', hle, hgranted⟩ := hreached regs regs' s' hrdi hcall hpages
    refine ⟨⟨x, x', H.process, H'.process, hle⟩, fun hrax => ?_⟩
    have hbreak := H'.mapped_iff hlow
    rwa [hgranted hrax] at hbreak
  · obtain ⟨y, hy, rfl, regs, regs', hrdi, hrax, hcall⟩ := sbrk_cases hpos hsbrk hp
    have hword : regs.rdi < 2 ^ 64 := by
      rw [hrdi, ofInt64]
      omega
    obtain ⟨x, x', H, H', hle, hgranted⟩ := hreached regs regs' s' hword hcall hpages
    obtain rfl : x = y := Option.some.inj (H.process.symm.trans hy)
    have hnew := hgranted hrax
    -- a sum that wraps would be below the old break
    have hsum : x'.processHeapPtr = x.processHeapPtr + incr.toNat := by
      have := H.word
      rw [hnew, hrdi, ofInt64] at hle ⊢
      omega
    have hbreak := H'.mapped_iff hlow
    rw [hsum] at hbreak
    constructor
    · intro hmapped
      by_contra hhigh
      have hlast := (hmapped (x.processHeapPtr + incr.toNat - 1) (by omega) (by omega)).1
      omega
    · exact fun hend v hv hv' => hbreak.mpr hend v (Nat.le_trans H.start_le hv) hv'

/-- A process with the break at 4 MiB. -/
def newProcess (root : Nat) : Pcb :=
  { pid := 1, ppid := 0, exitStatus := 0, killSignal := false, processState := .ready,
    parentWaitQueue := 0, pagemapHhdmPtr := root, processHeapPtr := 0x400000, interruptInfo := 0,
    fds := fun _ => 0, next := 0 }

def newProcessSystem (k : Kernel Pmm) (root : Nat) : System NotedKernel :=
  (bootSystem (k, []) 0 ⟨0, 0⟩).setPcb 0x2000 (newProcess root)

theorem newProcessSystem_pcbs {k : Kernel Pmm} {root : Nat} :
    (newProcessSystem k root).pcbs 0x2000 = some (newProcess root) := by
  simp only [newProcessSystem, System.setPcb, Function.update_self]

/-- A call from the new process whose loop maps all pages. -/
theorem syscallBrkHandler_granted {k : Kernel Pmm} {root addr : Nat} {m' : NotedKernel}
    (haddr : 0x400000 ≤ addr)
    (hgrow : growHeap notedMemory root (alignUp addr regularPageSize) (2 ^ 64) 0x400000 (k, []) =
      .ok (true, m')) :
    ∃ regs s, syscallBrkHandler notedMemory (newProcessSystem k root) 0x2000
      { (default : InterruptInfo) with rdi := addr } = .ok (regs, s) ∧ regs.rax = addr ∧ s.mem = m' := by
  have hstart : alignUp 0x400000 regularPageSize = 0x400000 := by decide
  rw [← hstart] at hgrow
  refine ⟨{ (default : InterruptInfo) with rdi := addr, rax := addr },
    { newProcessSystem k root with mem := m' }.setPcb 0x2000 { newProcess root with processHeapPtr := addr },
    Exec.bind_eq_ok.mpr ⟨newProcess root, deref_eq_ok.mpr newProcessSystem_pcbs, ?_⟩, rfl, rfl⟩
  dsimp only
  rw [if_neg (by simp only [newProcess]; omega)]
  exact Exec.bind_eq_ok.mpr ⟨(true, m'), hgrow, rfl⟩

/-- One page is asked for and mapped. -/
theorem brk_mapped_onePage : ∃ k root regs s, vmmCreateNewPagemap eightPages = .ok (root, k) ∧
    syscallBrkHandler notedMemory (newProcessSystem k root) 0x2000
      { (default : InterruptInfo) with rdi := 0x400001 } = .ok (regs, s) ∧
    ∀ v, 0x400000 ≤ v → v < 0x400001 → UserPage s.mem.1 root v := by
  obtain ⟨root, k, hcreate, hleft⟩ := PagesLeft.vmmCreateNewPagemap_total (n := 6) pagesLeft_eightPages
  have hfour : PagesLeft k (4 * 1) := ⟨hleft.direct, hleft.null, Nat.le_trans (by decide) hleft.free⟩
  obtain ⟨m', hgrow, hpages⟩ : ∃ m', growHeap notedMemory root (alignUp 0x400001 regularPageSize) (2 ^ 64)
      0x400000 (k, []) = .ok (true, m') ∧ .page 0 ∉ m'.2 :=
    growHeap_total hfour (by decide) (by decide) (by decide) List.not_mem_nil
  obtain ⟨regs, s, hcall, hrax, rfl⟩ := syscallBrkHandler_granted (by decide) hgrow
  exact ⟨k, root, regs, s, hcreate, hcall, (((brk_mapped_iff newProcessSystem_pcbs
    (PagemapInv.create pagesLeft_eightPages.direct hcreate).1 (by decide : 4096 ∣ 0x400000)
    (by decide : 0x400000 < 2 ^ 47) .refl).1 _ regs s
      (by decide) hcall hpages).2 hrax).mpr (by decide)⟩

/-- The last address of the address space is granted, and the page of the old break is not mapped. -/
theorem brk_last_address : ∃ k root regs s, vmmCreateNewPagemap eightPages = .ok (root, k) ∧
    PagemapInv (newProcessSystem k root).mem.1 root ∧
    syscallBrkHandler notedMemory (newProcessSystem k root) 0x2000
      { (default : InterruptInfo) with rdi := 2 ^ 64 - 1 } = .ok (regs, s) ∧
    regs.rax = 2 ^ 64 - 1 ∧ .page 0 ∉ s.mem.2 ∧ translate s.mem.1 root 0x400000 = none := by
  obtain ⟨root, k, hcreate, -⟩ := PagesLeft.vmmCreateNewPagemap_total (n := 6) pagesLeft_eightPages
  obtain ⟨I, hempty⟩ := PagemapInv.create pagesLeft_eightPages.direct hcreate
  have hwraps : alignUp (2 ^ 64 - 1) regularPageSize = 0 := by decide
  have hgrow : growHeap notedMemory root (alignUp (2 ^ 64 - 1) regularPageSize) (2 ^ 64) 0x400000 (k, []) =
      .ok (true, (k, [])) := by
    rw [hwraps]
    rfl
  obtain ⟨regs, s, hcall, hrax, hmem⟩ := syscallBrkHandler_granted (by decide) hgrow
  refine ⟨k, root, regs, s, hcreate, I, hcall, hrax, ?_, ?_⟩
  · rw [hmem]
    exact List.not_mem_nil
  · rw [hmem, I.translate_eq (by decide), hempty _ _ (lowerPath_tablePath (by decide)) rfl]
    rfl

/-! ## Requests that are refused -/

/-- The pages that `vmm_map_page` took. -/
def TakenForTables (notes : List MemoryNote) (i : Nat) : Prop :=
  ∃ p p', .mapping p p' ∈ notes ∧ p.used i ≠ p'.used i

/-- A call left everything as it was, but for the pages of tables. -/
structure BrkUndone (pcb : Nat) (x : Pcb) (s s' : System NotedKernel) : Prop where
  process : s'.pcbs pcb = some x
  walks : ∀ v, translate s'.mem.1 x.pagemapHhdmPtr v = translate s.mem.1 x.pagemapHhdmPtr v
  bitmap : ∀ i, s'.mem.1.pmm.used i ≠ s.mem.1.pmm.used i → TakenForTables s'.mem.2 i

/-- The first page that the loop took stays with the process. -/
theorem growHeap_refused {k : Kernel Pmm} {root endPage turns page : Nat} {m' : NotedKernel}
    (hcount : k.pmm.pageCount ≤ 2 ^ 52)
    (h : growHeap notedMemory root endPage (turns + 1) page (k, []) = .ok (false, m')) :
    k.pmm.freePages = ∅ ∧ m' = (k, [.page 0]) ∨
      k.pmm.freePages ≠ ∅ ∧ ∃ i, m'.1.pmm.used i ≠ k.pmm.used i ∧ ¬TakenForTables m'.2 i := by
  rcases growHeap_turn h with ⟨-, hgrown, -⟩ | ⟨-, a, p, halloc, hrest⟩
  · cases hgrown
  rcases pmmAllocPage_spec hcount with ⟨hnone, hfull⟩ | ⟨i, hrun, -, hsome⟩
  · obtain ⟨rfl, rfl⟩ := Prod.mk.inj (Except.ok.inj (halloc.symm.trans hnone))
    obtain ⟨-, -, rfl⟩ := hrest.resolve_right fun h => h.1 rfl
    refine .inl ⟨Finset.eq_empty_of_forall_notMem fun i hi => ?_, rfl⟩
    obtain ⟨hi, hfree⟩ := Pmm.mem_freePages.mp hi
    exact hfull i ⟨hi, fun j hij hj => by rwa [show j = i by omega]⟩
  · obtain ⟨-, rfl⟩ := Prod.mk.inj (Except.ok.inj (halloc.symm.trans hsome))
    have hi : i < k.pmm.pageCount := hrun.1
    have hfree : k.pmm.used i = false := hrun.2 i (Nat.le_refl _) (Nat.lt_succ_self _)
    have hused : (k.pmm.setBits [i] true).used i = true := by
      rw [Pmm.used_setBits, if_pos ⟨List.mem_singleton_self i, hi⟩]
    refine .inr ⟨Finset.ne_empty_of_mem (Pmm.mem_freePages.mpr ⟨hi, hfree⟩), i, ?_⟩
    rw [hfree]
    rcases hrest with ⟨-, -, rfl⟩ | ⟨-, k₁, hmap, h⟩
    · refine ⟨Bool.ne_false_iff.mpr hused, ?_⟩
      rintro ⟨p₁, p₂, hmem, -⟩
      simp at hmem
    · have hk₁ : k₁.pmm.used i = true := vmmMapPage_used hmap hused
      obtain ⟨hlast, hnotes⟩ := growHeap_used hk₁ h
      refine ⟨Bool.ne_false_iff.mpr hlast, ?_⟩
      rintro ⟨p₁, p₂, hmem, hne⟩
      rcases hnotes p₁ p₂ hmem with hmem | heq
      · simp only [List.mem_cons, MemoryNote.mapping.injEq, reduceCtorEq, List.not_mem_nil, or_false] at hmem
        obtain ⟨rfl, rfl⟩ := hmem
        exact hne (hused.trans hk₁.symm)
      · exact hne heq

/-- A request that is refused leaves everything as it was exactly when the address is below the break,
or there was no page at all. -/
theorem brk_undone_iff {s s' : System NotedKernel} {pcb : Nat} {regs regs' : InterruptInfo} {x : Pcb}
    (hx : s.pcbs pcb = some x) (hcount : s.mem.1.pmm.pageCount ≤ 2 ^ 52) (hnotes : s.mem.2 = [])
    (h : syscallBrkHandler notedMemory s pcb regs = .ok (regs', s')) (hrefused : regs'.rax ≠ regs.rdi) :
    BrkUndone pcb x s s' ↔
      regs.rdi = 0 ∨ regs.rdi < x.processHeapPtr ∨ s.mem.1.pmm.freePages = ∅ := by
  obtain ⟨y, hy, hcases⟩ := syscallBrkHandler_cases h
  obtain rfl : x = y := Option.some.inj (hx.symm.trans hy)
  rcases hcases with ⟨hearly, -, rfl⟩ | ⟨hlate, grown, m', hgrow, ⟨-, hrax, -⟩ | ⟨rfl, -, rfl⟩⟩
  · refine iff_of_true ⟨hx, fun _ => rfl, fun i hne => absurd rfl hne⟩ ?_
    exact hearly.imp_right .inl
  · exact absurd hrax hrefused
  · obtain ⟨hzero, hbelow⟩ := not_or.mp hlate
    have hmem : s.mem = (s.mem.1, []) := Prod.ext rfl hnotes
    have hturns : 2 ^ 64 = (2 ^ 64 - 1) + 1 := by decide
    rw [hmem, hturns] at hgrow
    rcases growHeap_refused hcount hgrow with ⟨hfull, rfl⟩ | ⟨hfree, i, hchanged, htaken⟩
    · exact iff_of_true ⟨hx, fun _ => rfl, fun i hne => absurd rfl hne⟩ (.inr (.inr hfull))
    · refine iff_of_false (fun hundone => htaken (hundone.bitmap i hchanged)) ?_
      rintro (h | h | h)
      · exact hzero h
      · exact hbelow h
      · exact hfree h

theorem brk_undone_below : ∃ k root regs s, vmmCreateNewPagemap eightPages = .ok (root, k) ∧
    syscallBrkHandler notedMemory (newProcessSystem k root) 0x2000
      { (default : InterruptInfo) with rdi := 0x3ff000 } = .ok (regs, s) ∧
    BrkUndone 0x2000 (newProcess root) (newProcessSystem k root) s := by
  obtain ⟨root, k, hcreate, hleft⟩ := PagesLeft.vmmCreateNewPagemap_total (n := 6) pagesLeft_eightPages
  have hcall : syscallBrkHandler notedMemory (newProcessSystem k root) 0x2000
      { (default : InterruptInfo) with rdi := 0x3ff000 } =
        .ok ({ (default : InterruptInfo) with rdi := 0x3ff000, rax := 0x400000 }, newProcessSystem k root) :=
    Exec.bind_eq_ok.mpr ⟨newProcess root, deref_eq_ok.mpr newProcessSystem_pcbs, rfl⟩
  refine ⟨k, root, _, _, hcreate, hcall, (brk_undone_iff newProcessSystem_pcbs ?_ rfl hcall ?_).mpr ?_⟩
  · exact Nat.le_trans hleft.direct.count (by decide)
  · decide
  · exact .inr (.inl (by simp only [newProcess]; decide))

/-- A kernel with six pages. The pages 1 to 4 are the tables on the way to the address 4 MiB, which is
not mapped, and page 5 is free. -/
def onePageLeft : Kernel Pmm :=
  { eightPages with
    mem := fun address => ([(0x1000, 0x07), (0x1001, 0x20), (0x2000, 0x07), (0x2001, 0x30), (0x3010, 0x07),
      (0x3011, 0x40)].lookup address).getD 0
    pmm := ⟨⟨6, 0, [0x1F], rfl⟩, 0⟩ }

/-- Of two pages that are asked for one is mapped before the pages run out. -/
theorem brk_half_done : ∃ regs s,
    syscallBrkHandler notedMemory (newProcessSystem onePageLeft 0x1000) 0x2000
      { (default : InterruptInfo) with rdi := 0x402000 } = .ok (regs, s) ∧
    regs.rax = 0x400000 ∧ translate onePageLeft 0x1000 0x400000 = none ∧
    translate s.mem.1 0x1000 0x400000 = some ⟨5, true, true⟩ ∧
    onePageLeft.pmm.used 5 = false ∧ s.mem.1.pmm.used 5 = true := by
  have hreturns : Exec.returns (syscallBrkHandler notedMemory (newProcessSystem onePageLeft 0x1000) 0x2000
      { (default : InterruptInfo) with rdi := 0x402000 }) (fun r => decide (r.1.rax = 0x400000 ∧
        translate r.2.mem.1 0x1000 0x400000 = some ⟨5, true, true⟩ ∧ r.2.mem.1.pmm.used 5 = true)) =
      true := by
    decide +kernel
  obtain ⟨⟨regs, s⟩, hcall, h⟩ := Exec.returns_iff.mp hreturns
  obtain ⟨hrax, hwalk, hused⟩ := of_decide_eq_true h
  exact ⟨regs, s, hcall, hrax, by decide +kernel, hwalk, by decide, hused⟩

end TrazelOs
