import TrazelOs.Kernel.Interrupts
import TrazelOs.Verify.Madt

/-! # From an interrupt to its handler

Every gate leads to the stub of its vector. Whatever drivers register, and in whatever order, the
`i`-th of them gets vector `32 + i`, its line raises that vector, and the central handler calls it. -/

namespace TrazelOs

/-! ## Gates -/

/-- Where the processor jumps through a gate. -/
def IdtEntry.target (e : IdtEntry) : Nat := e.offsetLow + e.offsetMid * 2 ^ 16 + e.offsetHigh * 2 ^ 32

def gateTo (isrAddr : Nat) : IdtEntry where
  offsetLow := isrAddr &&& 0x000000000000FFFF
  selector := segmentSelector 0 0 1
  interruptStackTable := 0
  interruptType := 0xE
  zeroBit := 0
  cpuPrivilegeLevel := 0
  presentBit := 1
  offsetMid := (isrAddr &&& 0x00000000FFFF0000) >>> 16
  offsetHigh := (isrAddr &&& 0xFFFFFFFF00000000) >>> 32
  extraBits := 0

theorem createInterruptDesc_eq (entry : IdtEntry) (isrAddr : Nat) :
    createInterruptDesc entry isrAddr .interruptGate 0 0 = .ok (gateTo isrAddr) := by
  rw [createInterruptDesc, kernelAssert_ok (by decide), Exec.ok_bind]
  rfl

theorem gateTo_target {isrAddr : Nat} (h : isrAddr < 2 ^ 64) : (gateTo isrAddr).target = isrAddr := by
  have hlow : isrAddr &&& 0x000000000000FFFF = isrAddr % 2 ^ 16 :=
    Nat.and_two_pow_sub_one_eq_mod isrAddr 16
  have hmid : (isrAddr &&& 0x00000000FFFF0000) >>> 16 = isrAddr / 2 ^ 16 % 2 ^ 16 := by
    rw [Nat.shiftRight_and_distrib, Nat.shiftRight_eq_div_pow]
    exact Nat.and_two_pow_sub_one_eq_mod _ 16
  have hhigh : (isrAddr &&& 0xFFFFFFFF00000000) >>> 32 = isrAddr / 2 ^ 32 % 2 ^ 32 := by
    rw [Nat.shiftRight_and_distrib, Nat.shiftRight_eq_div_pow]
    exact Nat.and_two_pow_sub_one_eq_mod _ 32
  simp only [IdtEntry.target, gateTo, hlow, hmid, hhigh]
  omega

/-- The table after the first `i` turns of the loop. -/
def withStubs (stubTable : Nat → Nat) (firstIndex i : Nat) (table : Nat → IdtEntry) (v : Nat) :
    IdtEntry :=
  if firstIndex ≤ v ∧ v < firstIndex + i then gateTo (stubTable (v - firstIndex)) else table v

theorem loadStub_eq {firstIndex i : Nat} (h : firstIndex + i < 256) (stubTable : Nat → Nat)
    (entry : IdtEntry) (table : Nat → IdtEntry) :
    loadStub stubTable firstIndex (entry, withStubs stubTable firstIndex i table) i =
      .ok (gateTo (stubTable i), withStubs stubTable firstIndex (i + 1) table) := by
  have hindex : i + firstIndex < maxIdtEntriesCount := show i + firstIndex < 256 by omega
  have htable : Function.update (withStubs stubTable firstIndex i table) (i + firstIndex)
      (gateTo (stubTable i)) = withStubs stubTable firstIndex (i + 1) table := by
    funext v
    rw [Function.update_apply, withStubs, withStubs]
    by_cases hv : v = i + firstIndex
    · rw [if_pos hv, if_pos (by omega), hv, Nat.add_sub_cancel]
    · rw [if_neg hv]
      exact if_congr (by omega) rfl rfl
  rw [loadStub, createInterruptDesc_eq, Exec.ok_bind, Nat.mod_eq_of_lt (by omega), loadNewInterrupt,
    kernelAssert_ok hindex, Exec.ok_bind, htable]
  rfl

theorem loadStubs_eq {count firstIndex : Nat} (h : firstIndex + count ≤ 256) (stubTable : Nat → Nat)
    (entry : IdtEntry) (table : Nat → IdtEntry) :
    loadStubs stubTable count firstIndex entry table =
      .ok (withStubs stubTable firstIndex count table) := by
  have hnone : withStubs stubTable firstIndex 0 table = table := by
    funext v
    exact if_neg (by omega)
  obtain ⟨s, hloop, hs⟩ := Exec.foldlM_range_total (n := count)
    (f := loadStub stubTable firstIndex) (b := (entry, table))
    (p := fun i s => s.2 = withStubs stubTable firstIndex i table)
    (fun i s hi hs => by
      obtain ⟨entry', table'⟩ := s
      cases hs
      exact ⟨_, loadStub_eq (by omega) stubTable entry' table, rfl⟩) hnone.symm
  rw [loadStubs, hloop, Exec.ok_bind, hs]
  rfl

/-! ## Redirection entries -/

/-- The redirection entry of a pin. -/
def IoApic.entry (a : IoApic) (pin : Nat) : BitVec 64 :=
  a.registers (0x10 + pin * 2 + 1) ++ a.registers (0x10 + pin * 2)

/-- The vector of an interrupt on a pin that is not masked. -/
def IoApic.raise (a : IoApic) (pin : Nat) : Option Nat :=
  if (a.entry pin).getLsbD 16 then none else some ((a.entry pin).setWidth 8).toNat

theorem redirectionIndex_eq {pin : Nat} (h : pin < 2 ^ 30) :
    u32 (getApicRedirectionEntryIndex pin) = 0x10 + pin * 2 ∧
      u32 (getApicRedirectionEntryIndex pin + 1) = 0x10 + pin * 2 + 1 := by
  rw [getApicRedirectionEntryIndex, u64_of_lt (by omega)]
  exact ⟨Nat.mod_eq_of_lt (by omega), Nat.mod_eq_of_lt (by omega)⟩

theorem readIoapicRedirectionEntry_eq {pin : Nat} (h : pin < 2 ^ 30) (a : IoApic) :
    (readIoapicRedirectionEntry a pin).1 = a.entry pin ∧
      (readIoapicRedirectionEntry a pin).2.registers = a.registers := by
  obtain ⟨hlow, hhigh⟩ := redirectionIndex_eq h
  simp only [readIoapicRedirectionEntry, IoApic.setSelect, IoApic.window, hlow, hhigh, and_true]
  rfl

theorem writeIoapicRedirectionEntry_registers {pin : Nat} (h : pin < 2 ^ 30) (a : IoApic)
    (entry : BitVec 64) : (writeIoapicRedirectionEntry a entry pin).registers =
      Function.update (Function.update a.registers (0x10 + pin * 2) (entry.setWidth 32))
        (0x10 + pin * 2 + 1) ((entry >>> 32).setWidth 32) := by
  obtain ⟨hlow, hhigh⟩ := redirectionIndex_eq h
  simp only [writeIoapicRedirectionEntry, IoApic.setSelect, IoApic.setWindow, hlow, hhigh]

theorem halves_append (entry : BitVec 64) :
    ((entry >>> 32).setWidth 32 ++ entry.setWidth 32 : BitVec 64) = entry := by
  ext i hi
  rw [BitVec.getElem_append]
  split
  · rw [BitVec.getElem_setWidth]
    exact BitVec.getLsbD_eq_getElem hi
  · rw [BitVec.getElem_setWidth, BitVec.getLsbD_ushiftRight, show 32 + (i - 32) = i by omega]
    exact BitVec.getLsbD_eq_getElem hi

theorem entry_write {pin : Nat} (h : pin < 2 ^ 30) (a : IoApic) (entry : BitVec 64) (pin' : Nat) :
    (writeIoapicRedirectionEntry a entry pin).entry pin' =
      if pin' = pin then entry else a.entry pin' := by
  rw [IoApic.entry, writeIoapicRedirectionEntry_registers h]
  by_cases hpin : pin' = pin
  · subst hpin
    rw [if_pos rfl, Function.update_self, Function.update_of_ne (by omega), Function.update_self]
    exact halves_append entry
  · rw [if_neg hpin, Function.update_of_ne (by omega), Function.update_of_ne (by omega),
      Function.update_of_ne (by omega), Function.update_of_ne (by omega)]
    rfl

/-- The bits of an entry with a new field. -/
theorem getLsbD_setField {entry : BitVec 64} {start width value i : Nat} (hi : i < 64) :
    (setField entry start width value).getLsbD i =
      if start ≤ i ∧ i < start + width then value.testBit (i - start) else entry.getLsbD i := by
  simp only [setField, BitVec.getLsbD_or, BitVec.getLsbD_and, BitVec.getLsbD_not,
    BitVec.getLsbD_shiftLeft, BitVec.getLsbD_ofNat, Nat.testBit_two_pow_sub_one,
    Nat.testBit_mod_two_pow, hi, decide_true, Bool.true_and]
  by_cases hle : start ≤ i
  · have hlt : i - start < 64 := by omega
    by_cases hin : i < start + width
    · have hin' : i - start < width := by omega
      simp [hle, hin, hin', hlt, Nat.not_lt.mpr hle]
    · have hin' : ¬i - start < width := by omega
      simp [hle, hin, hin', hlt]
  · simp [hle, Nat.lt_of_not_le hle]

/-- The entry that `apic_set_legacy_irq_desc_num` writes. -/
def routedEntry (entry : BitVec 64) (descNum : Nat) : BitVec 64 :=
  setField (setField (setField entry 16 1 0) 56 8 0) 0 8 descNum

theorem routedEntry_unmasked (entry : BitVec 64) (descNum : Nat) :
    (routedEntry entry descNum).getLsbD 16 = false := by
  rw [routedEntry, getLsbD_setField (by decide), if_neg (by decide), getLsbD_setField (by decide),
    if_neg (by decide), getLsbD_setField (by decide), if_pos (by decide)]
  rfl

theorem routedEntry_vector (entry : BitVec 64) {descNum : Nat} (h : descNum < 256) :
    ((routedEntry entry descNum).setWidth 8).toNat = descNum := by
  have hvector : (routedEntry entry descNum).setWidth 8 = BitVec.ofNat 8 descNum := by
    refine BitVec.eq_of_getLsbD_eq fun i hi => ?_
    rw [BitVec.getLsbD_setWidth, routedEntry, getLsbD_setField (by omega), if_pos (by omega),
      BitVec.getLsbD_ofNat]
    rfl
  rw [hvector, BitVec.toNat_ofNat]
  exact Nat.mod_eq_of_lt h

/-- The pin of a legacy interrupt. -/
def Madt.gsi (madt : Madt) (irq : Nat) : Nat :=
  if madt.gLegacyInterruptSourceOverride irq = -1 then irq
  else ofInt64 (madt.gLegacyInterruptSourceOverride irq)

theorem madtGetGsiForIrq_gsi {madt : Madt} {irq : Nat} (hinit : madt.gIsInitialized = true)
    (hirq : irq < 16) : madtGetGsiForIrq madt irq = .ok (madt.gsi irq) := by
  have hcount : irq < lirqCount := hirq
  rw [madtGetGsiForIrq, kernelAssert_ok hcount, Exec.ok_bind, kernelAssert_ok hinit, Exec.ok_bind,
    Madt.gsi]
  split
  · rfl
  · rfl

theorem IoApic.raise_routed {a : IoApic} {pin descNum : Nat} {entry : BitVec 64}
    (h : a.entry pin = routedEntry entry descNum) (hdesc : descNum < 256) :
    a.raise pin = some descNum := by
  rw [IoApic.raise, h, routedEntry_unmasked, routedEntry_vector entry hdesc]
  rfl

theorem apicSetLegacyIrqDescNum_ok {madt : Madt} {irq : Nat} (hinit : madt.gIsInitialized = true)
    (hirq : irq < 16) (hpin : madt.gsi irq < 2 ^ 30) (a : IoApic) (descNum : Nat) :
    ∃ a', apicSetLegacyIrqDescNum madt a irq descNum = .ok a' ∧
      ∀ pin, a'.entry pin =
        if pin = madt.gsi irq then routedEntry (a.entry pin) descNum else a.entry pin := by
  obtain ⟨hentry, -⟩ := readIoapicRedirectionEntry_eq hpin a
  refine ⟨_, by rw [apicSetLegacyIrqDescNum, madtGetGsiForIrq_gsi hinit hirq, Exec.ok_bind]; rfl,
    fun pin => ?_⟩
  rw [entry_write hpin]
  split
  · rename_i heq
    rw [heq, ← hentry]
    rfl
  · rfl

/-! ## Registrations -/

inductive Registration (η : Type)
  | timer (tmrcurrcnt : Nat) (handler : η)
  | legacy (irq : Nat) (handler : η)

namespace Registration

variable {η : Type} {madt : Madt}

def handler : Registration η → η
  | timer _ handler => handler
  | legacy _ handler => handler

def exec (madt : Madt) (c : Controllers η) : Registration η → Exec (Controllers η)
  | timer tmrcurrcnt handler => initLapic c tmrcurrcnt handler
  | legacy irq handler => registerLegacyIrq madt c irq handler

/-- The pin that a registration takes. -/
def pin (madt : Madt) : Registration η → Option Nat
  | timer _ _ => none
  | legacy irq _ => some (madt.gsi irq)

/-- The line exists. -/
def Valid (madt : Madt) : Registration η → Prop
  | timer _ _ => True
  | legacy irq _ => irq < 16 ∧ madt.gsi irq < 2 ^ 30

end Registration

/-- The vector of the timer interrupt. -/
def lapicTimerVector (lapic : Nat → Nat) : Option Nat :=
  if (lapic lapicRegLvtTmr).testBit 16 then none else some (lapic lapicRegLvtTmr % 256)

/-- After some registrations, with the entries that the controller had before. -/
structure Routed {η : Type} (madt : Madt) (before : IoApic) (done : List (Registration η))
    (c : Controllers η) : Prop where
  handlers : ∀ i, c.handlers.gHardwareInterruptHandlers i = done[i]?.map Registration.handler
  pins : ∀ i irq handler, done[i]? = some (.legacy irq handler) →
    c.ioApic.entry (madt.gsi irq) = routedEntry (before.entry (madt.gsi irq)) (32 + i)
  others : ∀ pin, pin ∉ done.filterMap (Registration.pin madt) →
    c.ioApic.entry pin = before.entry pin
  timer : ∀ i tmrcurrcnt handler, done[i]? = some (.timer tmrcurrcnt handler) →
    (∀ j tmrcurrcnt' handler', done[j]? = some (.timer tmrcurrcnt' handler') → j ≤ i) →
    lapicTimerVector c.lapic = some (32 + i)

section
variable {η : Type} {madt : Madt} {before : IoApic} {done : List (Registration η)}
  {c : Controllers η} {r : Registration η}

theorem getElem?_concat {α : Type} {l : List α} {x y : α} {i : Nat}
    (h : (l ++ [x])[i]? = some y) : (i < l.length ∧ l[i]? = some y) ∨ (i = l.length ∧ x = y) := by
  rcases Nat.lt_trichotomy i l.length with hlt | heq | hgt
  · rw [List.getElem?_append_left hlt] at h
    exact Or.inl ⟨hlt, h⟩
  · rw [heq, List.getElem?_concat_length] at h
    exact Or.inr ⟨heq, Option.some.inj h⟩
  · rw [List.getElem?_eq_none (by simp; omega)] at h
    cases h

/-- Descriptors are handed out in order. -/
theorem Routed.getFreeInterruptDesc (h : Routed madt before done c) (hlength : done.length < 224) :
    TrazelOs.getFreeInterruptDesc c.handlers = .ok (32 + done.length) := by
  have hfind : (List.range hardwareInterruptCount).find? (fun i =>
      (c.handlers.gHardwareInterruptHandlers i).isNone) = some done.length := by
    rw [List.find?_range_eq_some]
    refine ⟨?_, List.mem_range.mpr hlength, fun j hj => ?_⟩
    · rw [h.handlers, List.getElem?_eq_none (Nat.le_refl _)]
      rfl
    · rw [h.handlers, List.getElem?_eq_getElem hj]
      rfl
  rw [TrazelOs.getFreeInterruptDesc, hfind, Nat.add_comm 32]
  rfl

/-- The table of the handlers after the next registration. -/
theorem Routed.setHandler (h : Routed madt before done c) (i : Nat) :
    Function.update c.handlers.gHardwareInterruptHandlers done.length (some r.handler) i =
      (done ++ [r])[i]?.map Registration.handler := by
  rw [Function.update_apply]
  split
  · rename_i heq
    rw [heq, List.getElem?_concat_length]
    rfl
  · rename_i hne
    rw [h.handlers]
    rcases Nat.lt_or_gt_of_ne hne with hlt | hgt
    · rw [List.getElem?_append_left hlt]
    · rw [List.getElem?_eq_none (Nat.le_of_lt hgt), List.getElem?_eq_none (by simp; omega)]

theorem setHardwareInterruptHandler_eq {h : Handlers η} {n : Nat} {handler : η} :
    setHardwareInterruptHandler h (32 + n) handler = .ok { h with
      gHardwareInterruptHandlers := Function.update h.gHardwareInterruptHandlers n (some handler) } := by
  have hle : 32 + n ≥ cpuExceptionInterruptCount := Nat.le_add_right 32 n
  have hsub : 32 + n - cpuExceptionInterruptCount = n := Nat.add_sub_cancel_left 32 n
  rw [setHardwareInterruptHandler, kernelAssert_ok hle, Exec.ok_bind, hsub]
  rfl

theorem lapicTimerVector_lvt {lapic : Nat → Nat} {v : Nat} (hv : v < 256)
    (h : lapic lapicRegLvtTmr = v ||| lapicTmrPeriodic) : lapicTimerVector lapic = some v := by
  have hbit : v.testBit 16 = false := Nat.testBit_lt_two_pow (Nat.lt_trans hv (by decide))
  have hmasked : (v ||| lapicTmrPeriodic).testBit 16 = false := by
    rw [Nat.testBit_or, hbit]
    rfl
  have hvector : (v ||| lapicTmrPeriodic) % 256 = v := by
    rw [show 256 = 2 ^ 8 from rfl, Nat.or_mod_two_pow, Nat.mod_eq_of_lt hv]
    exact Nat.or_zero v
  rw [lapicTimerVector, h, hmasked, hvector]
  rfl

theorem Routed.registerTimer (h : Routed madt before done c) (hlength : done.length < 224)
    (tmrcurrcnt : Nat) (handler : η) :
    ∃ c', initLapic c tmrcurrcnt handler = .ok c' ∧
      Routed madt before (done ++ [.timer tmrcurrcnt handler]) c' := by
  refine ⟨_, by
    rw [initLapic]
    dsimp only
    rw [h.getFreeInterruptDesc hlength, Exec.ok_bind, setHardwareInterruptHandler_eq, Exec.ok_bind]
    rfl, h.setHandler (r := .timer tmrcurrcnt handler), fun i irq handler' hi => ?_,
    fun pin hpin => ?_, fun i cnt handler' hi hlast => ?_⟩
  · obtain ⟨-, hi⟩ | ⟨-, hr⟩ := getElem?_concat hi
    · exact h.pins i irq handler' hi
    · cases hr
  · rw [List.filterMap_append] at hpin
    exact h.others pin fun hmem => hpin (List.mem_append_left _ hmem)
  · obtain ⟨hlt, -⟩ | ⟨rfl, -⟩ := getElem?_concat hi
    · exact absurd (hlast _ _ _ List.getElem?_concat_length) (Nat.not_le_of_lt hlt)
    · refine lapicTimerVector_lvt (by omega) ?_
      dsimp only
      rw [Function.update_of_ne (by decide), Function.update_of_ne (by decide), Function.update_self]

theorem Routed.registerIrq (h : Routed madt before done c) (hinit : madt.gIsInitialized = true)
    (hlength : done.length < 224) {irq : Nat} (hirq : irq < 16) (hpin : madt.gsi irq < 2 ^ 30)
    (hfresh : madt.gsi irq ∉ done.filterMap (Registration.pin madt)) (handler : η) :
    ∃ c', registerLegacyIrq madt c irq handler = .ok c' ∧
      Routed madt before (done ++ [.legacy irq handler]) c' := by
  obtain ⟨a', hset, hentry⟩ :=
    apicSetLegacyIrqDescNum_ok hinit hirq hpin c.ioApic (32 + done.length)
  refine ⟨_, by
    rw [registerLegacyIrq, h.getFreeInterruptDesc hlength, Exec.ok_bind, hset, Exec.ok_bind,
      setHardwareInterruptHandler_eq, Exec.ok_bind]
    rfl, h.setHandler (r := .legacy irq handler), fun i irq' handler' hi => ?_,
    fun pin hpin' => ?_, fun i cnt handler' hi hlast => ?_⟩
  · obtain ⟨-, hi⟩ | ⟨rfl, hr⟩ := getElem?_concat hi
    · have hmem : madt.gsi irq' ∈ done.filterMap (Registration.pin madt) :=
        List.mem_filterMap.mpr ⟨_, List.mem_of_getElem? hi, rfl⟩
      have hne : madt.gsi irq' ≠ madt.gsi irq := fun heq => hfresh (heq ▸ hmem)
      exact (hentry _).trans ((if_neg hne).trans (h.pins i irq' handler' hi))
    · cases hr
      refine (hentry _).trans ((if_pos rfl).trans ?_)
      rw [h.others _ hfresh]
  · rw [List.filterMap_append] at hpin'
    have hne : pin ≠ madt.gsi irq := fun heq =>
      hpin' (List.mem_append_right _ (heq ▸ List.mem_singleton_self _))
    exact (hentry pin).trans ((if_neg hne).trans
      (h.others pin fun hmem => hpin' (List.mem_append_left _ hmem)))
  · obtain ⟨-, hi⟩ | ⟨-, hr⟩ := getElem?_concat hi
    · refine h.timer i cnt handler' hi fun j cnt' handler'' hj => hlast j cnt' handler'' ?_
      rw [List.getElem?_append_left (List.getElem?_eq_some_iff.mp hj).1]
      exact hj
    · cases hr

theorem Routed.step (h : Routed madt before done c) (hinit : madt.gIsInitialized = true)
    (hlength : done.length < 224) (hvalid : r.Valid madt)
    (hnodup : ((done ++ [r]).filterMap (Registration.pin madt)).Nodup) :
    ∃ c', r.exec madt c = .ok c' ∧ Routed madt before (done ++ [r]) c' := by
  cases r with
  | timer tmrcurrcnt handler => exact h.registerTimer hlength tmrcurrcnt handler
  | legacy irq handler =>
    rw [List.filterMap_append, List.nodup_append] at hnodup
    refine h.registerIrq hinit hlength hvalid.1 hvalid.2 (fun hmem => ?_) handler
    exact hnodup.2.2 _ hmem _ (List.mem_singleton_self _) rfl

theorem Routed.run {regs : List (Registration η)} (h : Routed madt before done c)
    (hinit : madt.gIsInitialized = true) (hlength : (done ++ regs).length ≤ 224)
    (hvalid : ∀ r ∈ regs, Registration.Valid madt r)
    (hnodup : ((done ++ regs).filterMap (Registration.pin madt)).Nodup) :
    ∃ c', regs.foldlM (Registration.exec madt) c = .ok c' ∧ Routed madt before (done ++ regs) c' := by
  induction regs generalizing done c with
  | nil =>
    rw [List.append_nil]
    exact ⟨c, rfl, h⟩
  | cons r regs ih =>
    rw [List.append_cons] at hlength hnodup ⊢
    have hprefix : ((done ++ [r]).filterMap (Registration.pin madt)).Nodup := by
      rw [List.filterMap_append] at hnodup
      exact (List.nodup_append.mp hnodup).1
    have hlt : done.length < 224 := by
      rw [List.length_append, List.length_append, List.length_singleton] at hlength
      omega
    obtain ⟨c₁, hexec, h₁⟩ := h.step hinit hlt (hvalid r List.mem_cons_self) hprefix
    obtain ⟨c', hrun, h'⟩ := ih h₁ hlength (fun r hr => hvalid r (List.mem_cons_of_mem _ hr)) hnodup
    refine ⟨c', ?_, h'⟩
    rw [List.foldlM_cons, hexec]
    exact hrun

end

/-- The gate of `v` leads to its stub, and the central handler calls `handler` for its frame. -/
structure Reaches {η : Type} (idt : Nat → IdtEntry) (stubs : Nat → Nat) (h : Handlers η) (v : Nat)
    (handler : η) : Prop where
  present : (idt v).presentBit = 1
  target : (idt v).target = stubs v
  call : ∀ info : InterruptInfo, info.interruptIndex = v → hardwareHandlerOf h info = .ok handler

theorem hardwareHandlerOf_eq {η : Type} {h : Handlers η} {info : InterruptInfo} {i : Nat}
    (hi : i < 224) (hindex : info.interruptIndex = 32 + i) :
    hardwareHandlerOf h info = (h.gHardwareInterruptHandlers i).elim
      (.error (.panic "Unexpected interrupt occurred")) .ok := by
  have hsub : u64Sub (32 + i) cpuExceptionInterruptCount = i :=
    (u64Sub_of_le (by omega) (Nat.le_add_right 32 i)).trans (Nat.add_sub_cancel_left 32 i)
  rw [hardwareHandlerOf, hindex, hsub]
  cases h.gHardwareInterruptHandlers i with
  | none => rfl
  | some handler => rfl

/-- Once the descriptor table is filled, any drivers can register for lines with pins of their own:
each of their interrupts then reaches its own handler, the timer's reaches the one set last, the other
lines are as before, and a vector that nobody has got is a panic. -/
theorem interrupts_reach_handlers {η : Type} (madt : Madt) (hinit : madt.gIsInitialized = true)
    (stubs : Nat → Nat) (hstubs : ∀ v, stubs v < 2 ^ 64) (entry entry' : IdtEntry)
    (table : Nat → IdtEntry) (c : Controllers η)
    (hnone : ∀ i, c.handlers.gHardwareInterruptHandlers i = none)
    (regs : List (Registration η)) (hlength : regs.length ≤ 224)
    (hvalid : ∀ r ∈ regs, Registration.Valid madt r)
    (hnodup : (regs.filterMap (Registration.pin madt)).Nodup) :
    ∃ idt c', (initCpuExceptions stubs entry table >>= fun table =>
        initHardwareInterrupts (fun i => stubs (32 + i)) entry' table) = .ok idt ∧
      regs.foldlM (Registration.exec madt) c = .ok c' ∧
      (∀ i irq handler, regs[i]? = some (.legacy irq handler) →
        c'.ioApic.raise (madt.gsi irq) = some (32 + i) ∧
        Reaches idt stubs c'.handlers (32 + i) handler) ∧
      (∀ i tmrcurrcnt handler, regs[i]? = some (.timer tmrcurrcnt handler) →
        (∀ j tmrcurrcnt' handler', regs[j]? = some (.timer tmrcurrcnt' handler') → j ≤ i) →
        lapicTimerVector c'.lapic = some (32 + i) ∧
        Reaches idt stubs c'.handlers (32 + i) handler) ∧
      (∀ pin, pin ∉ regs.filterMap (Registration.pin madt) →
        c'.ioApic.entry pin = c.ioApic.entry pin) ∧
      ∀ v info, 32 + regs.length ≤ v → v < 256 → info.interruptIndex = v →
        hardwareHandlerOf c'.handlers info = .error (.panic "Unexpected interrupt occurred") := by
  have hstart : Routed madt c.ioApic ([] : List (Registration η)) c :=
    ⟨hnone, fun i irq handler hi => (by cases hi), fun _ _ => rfl,
      fun i cnt handler hi => (by cases hi)⟩
  obtain ⟨c', hrun, h⟩ := hstart.run hinit hlength hvalid hnodup
  rw [List.nil_append] at h
  have hidt : (initCpuExceptions stubs entry table >>= fun table =>
      initHardwareInterrupts (fun i => stubs (32 + i)) entry' table) =
      .ok (withStubs (fun i => stubs (32 + i)) 32 224 (withStubs stubs 0 32 table)) := by
    rw [initCpuExceptions, loadStubs_eq (by decide), Exec.ok_bind, initHardwareInterrupts,
      loadStubs_eq (by decide)]
    rfl
  have hreaches : ∀ i r, regs[i]? = some r → Reaches
      (withStubs (fun i => stubs (32 + i)) 32 224 (withStubs stubs 0 32 table)) stubs
      c'.handlers (32 + i) r.handler := by
    intro i r hi
    have hlt : i < 224 := Nat.lt_of_lt_of_le (List.getElem?_eq_some_iff.mp hi).1 hlength
    have hgate : withStubs (fun i => stubs (32 + i)) 32 224 (withStubs stubs 0 32 table) (32 + i) =
        gateTo (stubs (32 + i)) := by
      rw [withStubs, if_pos (by omega), Nat.add_sub_cancel_left]
    refine ⟨by rw [hgate]; rfl, by rw [hgate]; exact gateTo_target (hstubs _), fun info hinfo => ?_⟩
    rw [hardwareHandlerOf_eq hlt hinfo, h.handlers, hi]
    rfl
  refine ⟨_, c', hidt, hrun, fun i irq handler hi => ⟨?_, hreaches i _ hi⟩,
    fun i cnt handler hi hlast => ⟨h.timer i cnt handler hi hlast, hreaches i _ hi⟩, h.others,
    fun v info hle hlt hinfo => ?_⟩
  · have hlt : i < regs.length := (List.getElem?_eq_some_iff.mp hi).1
    exact IoApic.raise_routed (h.pins i irq handler hi) (by omega)
  · obtain ⟨i, rfl⟩ := Nat.exists_eq_add_of_le (Nat.le_of_add_right_le hle)
    rw [hardwareHandlerOf_eq (by omega) hinfo, h.handlers, List.getElem?_eq_none (by omega)]
    rfl

/-- The timer and the keyboard, as the kernel registers them. -/
theorem interrupts_reach_handlers_boot :
    let madt : Madt := ⟨true, 0, 0, 0, fun _ => -1⟩
    let c : Controllers Bool := ⟨⟨fun _ => none, fun _ => none⟩, ⟨0, fun _ => 0x10000⟩, fun _ => 0⟩
    ∃ idt c', (initCpuExceptions (fun v => 0x1000 + v % 256) default (fun _ => default) >>=
        fun table => initHardwareInterrupts (fun i => 0x1000 + (32 + i) % 256) default table) =
          .ok idt ∧
      [Registration.timer 0 false, .legacy 1 true].foldlM (Registration.exec madt) c = .ok c' ∧
      c'.ioApic.raise 1 = some 33 ∧
      Reaches idt (fun v => 0x1000 + v % 256) c'.handlers 33 true := by
  intro madt c
  obtain ⟨idt, c', hidt, hrun, hlegacy, -⟩ := interrupts_reach_handlers madt rfl
    (fun v => 0x1000 + v % 256) (fun v => by omega) default default (fun _ => default) c
    (fun _ => rfl) [.timer 0 false, .legacy 1 true] (by decide) (by
      intro r hr
      rcases List.mem_cons.mp hr with rfl | hr
      · trivial
      · rw [List.mem_singleton.mp hr]
        exact ⟨by decide, by decide⟩) (by decide)
  exact ⟨idt, c', hidt, hrun, hlegacy 1 1 true rfl⟩

end TrazelOs
