import TrazelOs.Kernel.Madt
import TrazelOs.Verify.Fat12

/-! # Walking the table of interrupt controllers

The step of the loop is a byte of the table. On a table whose entries are whole records the loop reads
one record after the other; on others it may stand still or run past the end. -/

namespace TrazelOs

variable {table : ByteObject} {length current turns : Nat} {madt madt' : Madt}

theorem readByte_of_lt {offset : Nat} (h : offset < length) :
    readByte table length offset = .ok (table offset) := if_pos h

theorem readByte_eq_ok {offset : Nat} {b : Byte} (h : readByte table length offset = .ok b) :
    offset < length ∧ table offset = b := by
  unfold readByte at h
  split at h
  · exact ⟨‹_›, Except.ok.inj h⟩
  · cases h

theorem readWord_of_le {offset : Nat} (h : offset + 4 ≤ length) :
    readWord table length offset = .ok (Theory.ByteMemory.load table offset 4) := if_pos h

theorem readWord_eq_ok {offset w : Nat} (h : readWord table length offset = .ok w) :
    offset + 4 ≤ length := by
  unfold readWord at h
  split at h
  · rename_i hle
    exact hle
  · cases h

/-! ## What the loop looks at -/

/-- How many bytes of the entry at `current` the loop looks at, from its first one on. -/
def bytesLookedAt (table : ByteObject) (current : Nat) : Nat :=
  if table current = apicEntryTypeIoApic then 8
  else if table current = apicEntryTypeInterruptSourceOverride then
    if table (current + 2) ≠ 0 then 3
    else if (table (current + 3)).toNat < lirqCount then 8
    else 4
  else 2

/-- What the entry at `current` changes. -/
def entryEffect (table : ByteObject) (current : Nat) (madt : Madt) : Madt :=
  if table current = apicEntryTypeIoApic then
    { madt with gIoApicAddr := Theory.ByteMemory.load table (current + 4) 4 }
  else if table current = apicEntryTypeInterruptSourceOverride ∧ table (current + 2) = 0 ∧
      (table (current + 3)).toNat < lirqCount then
    { madt with
      gLegacyInterruptSourceOverride := Function.update madt.gLegacyInterruptSourceOverride
        (table (current + 3)).toNat (Theory.ByteMemory.load table (current + 4) 4) }
  else madt

theorem two_le_bytesLookedAt (table : ByteObject) (current : Nat) : 2 ≤ bytesLookedAt table current := by
  unfold bytesLookedAt
  repeat' split
  all_goals decide

theorem madtEntry_of_le (h : current + bytesLookedAt table current ≤ length) :
    madtEntry table length current madt = .ok (entryEffect table current madt) := by
  have htwo := two_le_bytesLookedAt table current
  rw [madtEntry, readByte_of_lt (by omega), Exec.ok_bind]
  unfold bytesLookedAt at h
  unfold entryEffect
  split
  · rename_i hio
    rw [if_pos hio] at h
    rw [readWord_of_le (by omega)]
    rfl
  · rename_i hio
    rw [if_neg hio] at h
    split
    · rename_i hsource
      rw [if_pos hsource] at h
      by_cases hbus : table (current + 2) = 0
      · rw [if_neg (not_not.mpr hbus)] at h
        by_cases hirq : (table (current + 3)).toNat < lirqCount
        · rw [if_pos hirq] at h
          rw [readByte_of_lt (by omega), Exec.ok_bind, if_pos hbus, readByte_of_lt (by omega),
            Exec.ok_bind, if_pos hirq, readWord_of_le (by omega), if_pos ⟨hsource, hbus, hirq⟩]
          rfl
        · rw [if_neg hirq] at h
          rw [readByte_of_lt (by omega), Exec.ok_bind, if_pos hbus, readByte_of_lt (by omega),
            Exec.ok_bind, if_neg hirq, if_neg fun hall => hirq hall.2.2]
          rfl
      · rw [if_pos hbus] at h
        rw [readByte_of_lt (by omega), Exec.ok_bind, if_neg hbus, if_neg fun hall => hbus hall.2.1]
        rfl
    · rename_i hsource
      rw [if_neg fun hall => hsource hall.1]
      rfl

theorem le_of_madtEntry (h : madtEntry table length current madt = .ok madt')
    (hlen : current + 1 < length) : current + bytesLookedAt table current ≤ length := by
  obtain ⟨entryType, htype, h⟩ := Exec.bind_eq_ok.mp h
  obtain ⟨_, rfl⟩ := readByte_eq_ok htype
  unfold bytesLookedAt
  split
  · rename_i hio
    rw [if_pos hio] at h
    obtain ⟨_, hword, _⟩ := Exec.bind_eq_ok.mp h
    have := readWord_eq_ok hword
    omega
  · rename_i hio
    rw [if_neg hio] at h
    split
    · rename_i hsource
      rw [if_pos hsource] at h
      obtain ⟨_, hbus, h⟩ := Exec.bind_eq_ok.mp h
      obtain ⟨hlt, rfl⟩ := readByte_eq_ok hbus
      split
      · omega
      · rename_i hzero
        rw [if_pos (not_not.mp hzero)] at h
        obtain ⟨_, hirq, h⟩ := Exec.bind_eq_ok.mp h
        obtain ⟨hlt, rfl⟩ := readByte_eq_ok hirq
        split
        · rename_i hcount
          rw [if_pos hcount] at h
          obtain ⟨_, hword, _⟩ := Exec.bind_eq_ok.mp h
          have := readWord_eq_ok hword
          omega
        · omega
    · omega

/-! ## Which tables the loop gets through -/

/-- Where the entries begin, found by adding up the lengths of the entries from `current` on. -/
def entryFrom (table : ByteObject) (current : Nat) : Nat → Nat
  | 0 => current
  | i + 1 => entryFrom table (current + (table (current + 1)).toNat) i

theorem le_entryFrom (table : ByteObject) (current i : Nat) : current ≤ entryFrom table current i := by
  induction i generalizing current with
  | zero => exact Nat.le_refl _
  | succ i ih => exact Nat.le_trans (Nat.le_add_right _ _) (ih _)

/-- The entry is not empty, and what the loop looks at is before the end. -/
structure EntryFits (table : ByteObject) (length current : Nat) : Prop where
  nonempty : table (current + 1) ≠ 0
  inside : current + bytesLookedAt table current ≤ length

theorem madtLoop_succ (hlt : current < length)
    (h : current + bytesLookedAt table current ≤ length) :
    madtLoop table length (turns + 1) current madt =
      madtLoop table length turns (current + (table (current + 1)).toNat)
        (entryEffect table current madt) := by
  have htwo := two_le_bytesLookedAt table current
  rw [madtLoop, if_pos hlt, madtEntry_of_le h, Exec.ok_bind, readByte_of_lt (by omega), Exec.ok_bind]

theorem entryFits_of_madtLoop (h : madtLoop table length turns current madt = .ok madt') (i : Nat)
    (hlt : entryFrom table current i < length) : EntryFits table length (entryFrom table current i) := by
  induction turns generalizing current madt i with
  | zero => cases h
  | succ turns ih =>
    by_cases hcurrent : current < length
    · rw [madtLoop, if_pos hcurrent] at h
      obtain ⟨madt₁, hentry, h⟩ := Exec.bind_eq_ok.mp h
      obtain ⟨_, hlen, h⟩ := Exec.bind_eq_ok.mp h
      obtain ⟨hinside, rfl⟩ := readByte_eq_ok hlen
      cases i with
      | zero =>
        refine ⟨fun hzero => ?_, le_of_madtEntry hentry hinside⟩
        -- an empty entry is the next one, too, and the rest of the turns got through it
        change table (current + 1) = 0 at hzero
        rw [hzero] at h
        exact (ih h 0 hcurrent).nonempty hzero
      | succ i => exact ih h i hlt
    · have hge := le_entryFrom table current i
      omega

theorem madtLoop_of_entryFits (hfits : ∀ i, entryFrom table current i < length →
      EntryFits table length (entryFrom table current i)) (hturns : length - current < turns) :
    ∃ madt', madtLoop table length turns current madt = .ok madt' := by
  induction turns generalizing current madt with
  | zero => omega
  | succ turns ih =>
    by_cases hlt : current < length
    · have hentry := hfits 0 hlt
      have hpos : 0 < (table (current + 1)).toNat :=
        Nat.pos_of_ne_zero (mt (BitVec.eq_of_toNat_eq (y := 0)) hentry.nonempty)
      rw [madtLoop_succ hlt hentry.inside]
      exact ih (fun i => hfits (i + 1)) (by omega)
    · exact ⟨madt, by rw [madtLoop, if_neg hlt]⟩

/-- The loop over the entries ends, without an access behind the end of the table, exactly when every
entry that it comes to is not empty and the bytes it looks at are before the end. -/
theorem madtLoop_returns_iff (table : ByteObject) (madt : Madt) :
    (∃ turns madt', madtLoop table (acpiLength table) turns madtEntries madt = .ok madt') ↔
      ∀ i, entryFrom table madtEntries i < acpiLength table →
        EntryFits table (acpiLength table) (entryFrom table madtEntries i) := by
  constructor
  · rintro ⟨turns, madt', h⟩ i hlt
    exact entryFits_of_madtLoop h i hlt
  · intro hfits
    obtain ⟨madt', h⟩ := madtLoop_of_entryFits hfits (Nat.lt_succ_self _)
    exact ⟨_, madt', h⟩

/-- With valid checksums: an entry of length 0 at which the loop stays, and a table that ends after
the first byte of an entry. -/
theorem madtLoop_fails :
    let emptyEntry : ByteObject := fun i => if i = 4 then 46 else if i = 9 then 210 else 0
    let cutEntry : ByteObject := fun i => if i = 4 then 45 else if i = 9 then 211 else if i = 45 then 2 else 0
    verifyAcpiStdHeaderChecksum emptyEntry = .ok () ∧
      (∀ turns madt', madtLoop emptyEntry (acpiLength emptyEntry) turns madtEntries .initial ≠
        .ok madt') ∧
      verifyAcpiStdHeaderChecksum cutEntry = .ok () ∧
      madtLoop cutEntry (acpiLength cutEntry) 1 madtEntries .initial = .error .wild := by
  intro emptyEntry cutEntry
  refine ⟨by decide +kernel, fun turns madt' h => ?_, by decide +kernel, rfl⟩
  exact (entryFits_of_madtLoop h 0 (by decide +kernel)).nonempty (by decide +kernel)

/-! ## Tables of whole records -/

/-- The size of the record that the type of an entry stands for. -/
def recordSize (record : List Byte) : Nat :=
  if record.getD 0 0 = 0 then 8
  else if record.getD 0 0 = apicEntryTypeIoApic then 10
  else if record.getD 0 0 = apicEntryTypeInterruptSourceOverride then 10
  else 2

theorem two_le_recordSize (record : List Byte) : 2 ≤ recordSize record := by
  unfold recordSize
  repeat' split
  all_goals decide

theorem recordSize_ioApic {record : List Byte} (h : record.getD 0 0 = apicEntryTypeIoApic) :
    recordSize record = 10 := by
  rw [recordSize, h]
  rfl

theorem recordSize_override {record : List Byte}
    (h : record.getD 0 0 = apicEntryTypeInterruptSourceOverride) : recordSize record = 10 := by
  rw [recordSize, h]
  rfl

/-- The entries are `records`, each at least as long as its type says, and end where the table does. -/
structure WellFormedMadt (table : ByteObject) (records : List (List Byte)) : Prop where
  size : ∀ record ∈ records, recordSize record ≤ record.length
  recordLen : ∀ record ∈ records, (record.getD 1 0).toNat = record.length
  entries : slice table madtEntries records.flatten.length = records.flatten
  length : acpiLength table = madtEntries + records.flatten.length

/-- The record is an I/O APIC. -/
def isIoApic (record : List Byte) : Bool := record.getD 0 0 = apicEntryTypeIoApic

/-- The record redirects the legacy interrupt `irq`. -/
def overridesIrq (irq : Nat) (record : List Byte) : Bool :=
  record.getD 0 0 = apicEntryTypeInterruptSourceOverride ∧ record.getD 2 0 = 0 ∧
    (record.getD 3 0).toNat = irq

/-- `io_apic_addr` or `global_system_interrupt`, which are at the same place. -/
def recordWord (record : List Byte) : Nat := field record 4 4

/-- What a record changes. -/
def recordEffect (madt : Madt) (record : List Byte) : Madt :=
  if isIoApic record then { madt with gIoApicAddr := recordWord record }
  else if record.getD 0 0 = apicEntryTypeInterruptSourceOverride ∧ record.getD 2 0 = 0 ∧
      (record.getD 3 0).toNat < lirqCount then
    { madt with
      gLegacyInterruptSourceOverride := Function.update madt.gLegacyInterruptSourceOverride
        (record.getD 3 0).toNat (recordWord record) }
  else madt

theorem load_eq_leValue (m : ByteObject) (a n : Nat) :
    Theory.ByteMemory.load m a n = leValue (slice m a n) := by
  induction n generalizing a with
  | zero => rfl
  | succ n ih =>
    have hslice : slice m a (n + 1) = m a :: slice m (a + 1) n := by
      rw [Nat.add_comm n 1, slice_add]
      rfl
    rw [Theory.ByteMemory.load, ih, hslice, leValue]

section Record
variable {record : List Byte} (hrecord : slice table current record.length = record)
include hrecord

theorem record_getD {i : Nat} (hi : i < record.length) : table (current + i) = record.getD i 0 := by
  have hget : (slice table current record.length)[i]? = some (table (current + i)) :=
    getElem?_slice hi
  rw [hrecord] at hget
  rw [List.getD_eq_getElem?_getD, hget, Option.getD_some]

theorem record_word (hlength : 8 ≤ record.length) :
    Theory.ByteMemory.load table (current + 4) 4 = recordWord record := by
  have hdrop := @drop_slice table current 4 record.length (by omega)
  rw [load_eq_leValue, recordWord, field, ← hrecord, hdrop, take_slice (by omega)]

theorem record_type (hsize : recordSize record ≤ record.length) :
    table current = record.getD 0 0 :=
  record_getD hrecord (Nat.lt_of_lt_of_le (Nat.zero_lt_of_lt (two_le_recordSize record)) hsize)

theorem bytesLookedAt_le (hsize : recordSize record ≤ record.length) :
    bytesLookedAt table current ≤ record.length := by
  have htype := record_type hrecord hsize
  have htwo := two_le_recordSize record
  unfold bytesLookedAt
  rw [htype]
  split
  · rename_i hio
    rw [recordSize_ioApic hio] at hsize
    omega
  · split
    · rename_i hsource
      rw [recordSize_override hsource] at hsize
      repeat' split
      all_goals omega
    · omega

theorem entryEffect_eq (hsize : recordSize record ≤ record.length) :
    entryEffect table current madt = recordEffect madt record := by
  have htype := record_type hrecord hsize
  unfold entryEffect recordEffect
  rw [htype]
  by_cases hio : record.getD 0 0 = apicEntryTypeIoApic
  · rw [recordSize_ioApic hio] at hsize
    rw [if_pos hio, isIoApic, if_pos (decide_eq_true hio), record_word hrecord (by omega)]
  · rw [if_neg hio, isIoApic, if_neg (mt of_decide_eq_true hio)]
    by_cases hsource : record.getD 0 0 = apicEntryTypeInterruptSourceOverride
    · rw [recordSize_override hsource] at hsize
      rw [record_getD hrecord (by omega), record_getD hrecord (by omega),
        record_word hrecord (by omega)]
    · rw [if_neg fun hall => hsource hall.1, if_neg fun hall => hsource hall.1]

end Record

/-- The loop applies one record after the other. -/
theorem madtLoop_records {records : List (List Byte)}
    (hsize : ∀ record ∈ records, recordSize record ≤ record.length)
    (hlen : ∀ record ∈ records, (record.getD 1 0).toNat = record.length)
    (hentries : slice table current records.flatten.length = records.flatten)
    (hlength : length = current + records.flatten.length) (hturns : records.length < turns) :
    madtLoop table length turns current madt = .ok (records.foldl recordEffect madt) := by
  induction records generalizing current madt turns with
  | nil =>
    obtain ⟨turns, rfl⟩ := Nat.exists_eq_succ_of_ne_zero (Nat.ne_of_gt (Nat.zero_lt_of_lt hturns))
    rw [madtLoop, if_neg (by rw [hlength]; exact Nat.lt_irrefl _)]
    rfl
  | cons record records ih =>
    obtain ⟨turns, rfl⟩ := Nat.exists_eq_succ_of_ne_zero (Nat.ne_of_gt (Nat.zero_lt_of_lt hturns))
    rw [List.flatten_cons, List.length_append] at hlength
    rw [List.flatten_cons, List.length_append, slice_add] at hentries
    obtain ⟨hrecord, hrest⟩ := List.append_inj hentries length_slice
    have hrecordSize := hsize record (.head _)
    have htwo := two_le_recordSize record
    have hlooked := bytesLookedAt_le hrecord hrecordSize
    have hrecordLen : (table (current + 1)).toNat = record.length := by
      rw [record_getD hrecord (by omega), hlen record (.head _)]
    rw [madtLoop_succ (by omega) (by omega), hrecordLen, entryEffect_eq hrecord hrecordSize,
      List.foldl_cons]
    exact ih (fun r hr => hsize r (.tail _ hr)) (fun r hr => hlen r (.tail _ hr)) hrest (by omega)
      (Nat.lt_of_succ_lt_succ hturns)

/-- In a sequence of writes the last one counts. -/
theorem foldl_lastWrite {α β γ : Type} {step : β → α → β} {p : α → Bool} {v : α → γ} (get : β → γ)
    (hstep : ∀ b a, get (step b a) = if p a then v a else get b) (l : List α) (b : β) :
    get (l.foldl step b) = ((l.filter p).getLast?.map v).getD (get b) := by
  induction l generalizing b with
  | nil => rfl
  | cons a l ih =>
    rw [List.foldl_cons, ih, hstep, List.filter_cons]
    split
    · rw [List.getLast?_cons]
      cases (l.filter p).getLast? <;> rfl
    · rfl

theorem foldl_gIoApicAddr (records : List (List Byte)) (madt : Madt) :
    (records.foldl recordEffect madt).gIoApicAddr =
      ((records.filter isIoApic).getLast?.map recordWord).getD madt.gIoApicAddr := by
  refine foldl_lastWrite Madt.gIoApicAddr (fun madt record => ?_) records madt
  unfold recordEffect
  repeat' split
  all_goals rfl

theorem recordEffect_override (madt : Madt) (record : List Byte) {irq : Nat} (hirq : irq < lirqCount) :
    (recordEffect madt record).gLegacyInterruptSourceOverride irq =
      if overridesIrq irq record then (recordWord record : Int)
      else madt.gLegacyInterruptSourceOverride irq := by
  have hne : apicEntryTypeInterruptSourceOverride ≠ apicEntryTypeIoApic := by decide
  unfold recordEffect
  by_cases hover : overridesIrq irq record = true
  · obtain ⟨htype, hbus, hsource⟩ := of_decide_eq_true hover
    have hio : isIoApic record = false := decide_eq_false (htype ▸ hne)
    rw [if_pos hover, hio, if_neg Bool.false_ne_true, if_pos ⟨htype, hbus, hsource ▸ hirq⟩, hsource]
    exact Function.update_self ..
  · rw [if_neg hover]
    split
    · rfl
    · split
      · rename_i hall
        refine Function.update_of_ne (fun heq => hover ?_) _ _
        exact decide_eq_true ⟨hall.1, hall.2.1, heq.symm⟩
      · rfl

theorem foldl_override (records : List (List Byte)) (madt : Madt) {irq : Nat} (hirq : irq < lirqCount) :
    (records.foldl recordEffect madt).gLegacyInterruptSourceOverride irq =
      ((records.filter (overridesIrq irq)).getLast?.map fun record => (recordWord record : Int)).getD
        (madt.gLegacyInterruptSourceOverride irq) :=
  foldl_lastWrite (fun madt => madt.gLegacyInterruptSourceOverride irq)
    (fun madt record => recordEffect_override madt record hirq) records madt

theorem foldl_gIsInitialized (records : List (List Byte)) (madt : Madt) :
    (records.foldl recordEffect madt).gIsInitialized = madt.gIsInitialized := by
  induction records generalizing madt with
  | nil => rfl
  | cons record records ih =>
    rw [List.foldl_cons, ih]
    unfold recordEffect
    repeat' split
    all_goals rfl

theorem length_le_flatten {records : List (List Byte)}
    (hsize : ∀ record ∈ records, recordSize record ≤ record.length) :
    records.length ≤ records.flatten.length := by
  induction records with
  | nil => exact Nat.le_refl _
  | cons record records ih =>
    have hrest := ih fun r hr => hsize r (.tail _ hr)
    have hrecord := hsize record (.head _)
    have htwo := two_le_recordSize record
    rw [List.length_cons, List.flatten_cons, List.length_append]
    omega

/-- What is looked up for `irq` when the last record that redirects it, if any, is `record`. -/
theorem madtGetGsiForIrq_eq {irq : Nat} {record : Option (List Byte)} (hirq : irq < lirqCount)
    (hinit : madt.gIsInitialized = true)
    (hover : madt.gLegacyInterruptSourceOverride irq =
      (record.map fun record => (recordWord record : Int)).getD (-1)) :
    madtGetGsiForIrq madt irq = .ok ((record.map recordWord).getD irq) := by
  rw [madtGetGsiForIrq, kernelAssert_ok hirq, Exec.ok_bind, kernelAssert_ok hinit, Exec.ok_bind, hover]
  cases record with
  | none => rfl
  | some record =>
    have hlt : recordWord record < 2 ^ 32 := field_lt record 4 4
    rw [Option.map_some, Option.getD_some, if_neg (by omega), Option.map_some, Option.getD_some,
      ofInt64]
    congr 1
    omega

/-- The variables before the loop over the entries. -/
def madtBeforeLoop {σ : Type} (k : Kernel σ) (header : Nat) : Madt where
  gIsInitialized := true
  gMadtHeader := header
  gIoApicAddr := 0
  gLapicAddr := Theory.ByteMemory.load (objectAt k.mem header) sizeofAcpiStdHeader 4
  gLegacyInterruptSourceOverride := fun irq => if irq < lirqCount then -1 else 0

theorem WellFormedMadt.initMadt_eq {σ : Type} {k : Kernel σ} {acpi : Acpi} {header : Nat}
    {records : List (List Byte)} (hwf : WellFormedMadt (objectAt k.mem header) records)
    (hheader : acpiGetStdHeader k acpi = .ok header) (hne : header ≠ 0) :
    initMadt k acpi .initial = .ok (records.foldl recordEffect (madtBeforeLoop k header)) := by
  have hturns : records.length < acpiLength (objectAt k.mem header) + 1 := by
    have hle := length_le_flatten hwf.size
    rw [hwf.length]
    omega
  have hfirst : ¬Madt.initial.gIsInitialized = true := Bool.false_ne_true
  rw [initMadt, if_neg hfirst, hheader, Exec.ok_bind, kernelAssert_ok hne, Exec.ok_bind]
  exact madtLoop_records hwf.size hwf.recordLen hwf.entries hwf.length hturns

/-- After `init_madt` on a table of whole records, of whatever types and in whatever order, a legacy
interrupt is routed as the last record says that redirects it, or to itself, and the I/O APIC is that
of the last record of its type. -/
theorem initMadt_routes_last {σ : Type} (k : Kernel σ) (acpi : Acpi) (header : Nat)
    (records : List (List Byte)) (hheader : acpiGetStdHeader k acpi = .ok header) (hne : header ≠ 0)
    (hwf : WellFormedMadt (objectAt k.mem header) records) :
    ∃ madt, initMadt k acpi .initial = .ok madt ∧
      (∀ irq < lirqCount, madtGetGsiForIrq madt irq =
        .ok (((records.filter (overridesIrq irq)).getLast?.map recordWord).getD irq)) ∧
      madtGetIoApicBaseAddr madt =
        .ok (((records.filter isIoApic).getLast?.map recordWord).getD 0) := by
  have hinit : (records.foldl recordEffect (madtBeforeLoop k header)).gIsInitialized = true :=
    foldl_gIsInitialized records (madtBeforeLoop k header)
  refine ⟨_, hwf.initMadt_eq hheader hne, fun irq hirq => ?_, ?_⟩
  · refine madtGetGsiForIrq_eq hirq hinit ?_
    rw [foldl_override _ _ hirq, madtBeforeLoop]
    dsimp only
    rw [if_pos hirq]
  · rw [madtGetIoApicBaseAddr, kernelAssert_ok hinit, Exec.ok_bind, foldl_gIoApicAddr]
    rfl

/-- A root table at `0x100` with one entry, and a table with an I/O APIC, a redirection of the timer
to interrupt 2 and a record of an unknown type. -/
def threeRecords : List (List Byte) :=
  [[1, 12, 0, 0, 0, 0, 0xC0, 0xFE, 0, 0, 0, 0], [2, 10, 0, 0, 2, 0, 0, 0, 0, 0], [9, 3, 7]]

def threeRecordsTable : List Byte :=
  [0x41, 0x50, 0x49, 0x43, 69] ++ List.replicate 4 0 ++ [178] ++ List.replicate 34 0 ++
    threeRecords.flatten

def threeRecordsKernel : Kernel Unit where
  mem := fun a =>
    if 0x200 ≤ a then threeRecordsTable.getD (a - 0x200) 0
    else if a = 0x104 then 40 else if a = 0x125 then 2 else 0
  cr3 := 0
  pmm := ()
  gHhdmOffset := 0
  gSuperBlocks := 0
  gFreeBlocks := 0
  gFreeBlockTail := 0

theorem initMadt_routes_last_threeRecords :
    ∃ madt, initMadt threeRecordsKernel ⟨0x100, false⟩ .initial = .ok madt ∧
      madtGetGsiForIrq madt 0 = .ok 2 ∧ madtGetGsiForIrq madt 1 = .ok 1 ∧
      madtGetIoApicBaseAddr madt = .ok 0xFEC00000 := by
  obtain ⟨madt, hinit, hgsi, hio⟩ := initMadt_routes_last threeRecordsKernel ⟨0x100, false⟩ 0x200
    threeRecords (by decide +kernel) (by decide)
    ⟨by decide +kernel, by decide +kernel, by decide +kernel, by decide +kernel⟩
  exact ⟨madt, hinit, hgsi 0 (by decide), hgsi 1 (by decide), hio⟩

end TrazelOs
