import TrazelOs.Theory.ByteMemory

/-! # Machine words, outcomes and constants shared by the kernel's components -/

namespace TrazelOs

/-- Kernel memory, addressed through the higher-half direct map. -/
abbrev Memory := Theory.ByteMemory

abbrev Byte := BitVec 8

/-- The bytes of an object in memory and behind it. A pointer into the object is the number of bytes
from its first byte on. -/
abbrev ByteObject := Nat → Byte

/-- Arithmetic on `uint64_t` and pointers is modulo `2 ^ 64`. -/
def u64 (n : Nat) : Nat := n % 2 ^ 64

/-- `a - b` on `uint64_t`. -/
def u64Sub (a b : Nat) : Nat := u64 (a + 2 ^ 64 - b)

def u32 (n : Nat) : Nat := n % 2 ^ 32

/-- `a - b` on `uint32_t`. -/
def u32Sub (a b : Nat) : Nat := u32 (a + 2 ^ 32 - b)

/-- Why a kernel function does not return: `kernel_panic`, a loop that never exits, or an access
through a pointer to nothing the kernel owns. -/
inductive Fault
  | panic (msg : String)
  | hang
  | wild
deriving Repr, DecidableEq

abbrev Exec := Except Fault

/-- `KERNEL_ASSERT`. -/
def kernelAssert (condition : Prop) [Decidable condition] (errorMsg : String) : Exec Unit :=
  if condition then .ok () else .error (.panic errorMsg)

def regularPageSize : Nat := 0x1000
def hugePageSize : Nat := 0x200000
def superHugePageSize : Nat := 0x40000000

/-- `ALIGN_UP`, on 64-bit operands. -/
def alignUp (x align : Nat) : Nat := if x % align = 0 then x else u64Sub (u64 (x + align)) (x % align)

/-- `DIV_ROUND_UP`, on 64-bit operands. -/
def divRoundUp (x align : Nat) : Nat := u64Sub (u64 (x + align)) 1 / align

theorem u64_lt (n : Nat) : u64 n < 2 ^ 64 := Nat.mod_lt _ (by decide)

theorem u64_of_lt {n : Nat} (h : n < 2 ^ 64) : u64 n = n := Nat.mod_eq_of_lt h

theorem u64Sub_of_le {a b : Nat} (ha : a < 2 ^ 64) (h : b ≤ a) : u64Sub a b = a - b := by
  unfold u64Sub u64
  omega

theorem u32_of_lt {n : Nat} (h : n < 2 ^ 32) : u32 n = n := Nat.mod_eq_of_lt h

theorem u32Sub_of_le {a b : Nat} (ha : a < 2 ^ 32) (h : b ≤ a) : u32Sub a b = a - b := by
  unfold u32Sub u32
  omega

theorem alignUp_cases (x align : Nat) : x % align = 0 ∧ alignUp x align = x ∨
    x % align ≠ 0 ∧ alignUp x align = ((x + align) % 2 ^ 64 + 2 ^ 64 - x % align) % 2 ^ 64 := by
  unfold alignUp
  by_cases h : x % align = 0
  · exact .inl ⟨h, if_pos h⟩
  · exact .inr ⟨h, if_neg h⟩

theorem kernelAssert_ok {condition : Prop} [Decidable condition] {errorMsg : String}
    (h : condition) : kernelAssert condition errorMsg = .ok () := if_pos h

theorem kernelAssert_eq_ok {condition : Prop} [Decidable condition] {errorMsg : String} {u : Unit} :
    kernelAssert condition errorMsg = .ok u ↔ condition := by
  unfold kernelAssert
  split <;> simp_all

/-- A computation that returns has returned from each of its parts. -/
theorem Exec.bind_eq_ok {x : Exec α} {f : α → Exec β} {r : β} :
    (x >>= f) = .ok r ↔ ∃ a, x = .ok a ∧ f a = .ok r := by
  cases x with
  | error e => simp [bind, Except.bind]
  | ok a => simp [bind, Except.bind]

@[simp] theorem Exec.ok_bind {a : α} {f : α → Exec β} : ((.ok a : Exec α) >>= f) = f a := rfl

@[simp] theorem Exec.error_bind {e : Fault} {f : α → Exec β} :
    ((.error e : Exec α) >>= f) = .error e := rfl

@[simp] theorem Exec.pure_eq_ok {a : α} : (pure a : Exec α) = .ok a := rfl

theorem Exec.map_eq_ok {x : Exec α} {f : α → β} {r : β} :
    f <$> x = .ok r ↔ ∃ a, x = .ok a ∧ f a = r := by
  cases x with
  | error e => simp [Functor.map, Except.map]
  | ok a => simp [Functor.map, Except.map]

/-- Whether a computation returns a value with the property `p`. -/
def Exec.returns (x : Exec α) (p : α → Bool) : Bool :=
  match x with
  | .ok a => p a
  | .error _ => false

theorem Exec.returns_iff {x : Exec α} {p : α → Bool} :
    x.returns p = true ↔ ∃ a, x = .ok a ∧ p a = true := by
  cases x with
  | error e => simp [returns]
  | ok a => simp [returns]

/-- What every turn of a loop keeps holds after the loop. -/
theorem Exec.foldlM_ok {f : β → α → Exec β} {l : List α} {p : β → Prop} {b b' : β}
    (hstep : ∀ b a b', a ∈ l → p b → f b a = .ok b' → p b') (hb : p b)
    (h : l.foldlM f b = .ok b') : p b' := by
  induction l generalizing b with
  | nil =>
    cases h
    exact hb
  | cons a l ih =>
    rw [List.foldlM_cons] at h
    obtain ⟨b₁, h₁, h⟩ := Exec.bind_eq_ok.mp h
    exact ih (fun b a' b' ha' => hstep b a' b' (.tail _ ha')) (hstep b a b₁ (.head _) hb h₁) h

/-- What the turn of `a` brings about and every turn keeps holds after the loop. -/
theorem Exec.foldlM_mem {f : β → α → Exec β} {l : List α} {p q : β → Prop} {a : α} {b b' : β}
    (hstep : ∀ b a b', a ∈ l → p b → f b a = .ok b' → p b') (ha : a ∈ l)
    (hkeep : ∀ b a b', p b → q b → f b a = .ok b' → q b')
    (hset : ∀ b b', p b → f b a = .ok b' → q b') (hb : p b) (h : l.foldlM f b = .ok b') : q b' := by
  obtain ⟨l₁, l₂, rfl⟩ := List.append_of_mem ha
  rw [List.foldlM_append] at h
  obtain ⟨b₁, h₁, h⟩ := Exec.bind_eq_ok.mp h
  rw [List.foldlM_cons] at h
  obtain ⟨b₂, h₂, h⟩ := Exec.bind_eq_ok.mp h
  have hb₁ : p b₁ := foldlM_ok (fun b a' b' ha' => hstep b a' b' (List.mem_append_left _ ha')) hb h₁
  have hb₂ : p b₂ := hstep b₁ a b₂ ha hb₁ h₂
  refine (foldlM_ok (p := fun b => p b ∧ q b) (fun b a' b' ha' hpq hf => ?_)
    ⟨hb₂, hset b₁ b₂ hb₁ h₂⟩ h).2
  exact ⟨hstep b a' b' (List.mem_append_right _ (.tail _ ha')) hpq.1 hf, hkeep b a' b' hpq.1 hpq.2 hf⟩

/-- What every turn keeps, for a loop that counts, with an invariant that knows how far it is. -/
theorem Exec.foldlM_range_ok {f : β → Nat → Exec β} {n : Nat} {p : Nat → β → Prop} {b b' : β}
    (hstep : ∀ i b b', i < n → p i b → f b i = .ok b' → p (i + 1) b') (hb : p 0 b)
    (h : (List.range n).foldlM f b = .ok b') : p n b' := by
  induction n generalizing b' with
  | zero =>
    cases h
    exact hb
  | succ n ih =>
    rw [List.range_succ, List.foldlM_append] at h
    obtain ⟨b₁, h₁, h⟩ := Exec.bind_eq_ok.mp h
    rw [List.foldlM_cons] at h
    obtain ⟨b₂, h₂, h⟩ := Exec.bind_eq_ok.mp h
    cases h
    have hn := ih (fun i b b' hi => hstep i b b' (Nat.lt_succ_of_lt hi)) h₁
    exact hstep n b₁ b' (Nat.lt_succ_self n) hn h₂

/-- A loop that counts returns when every turn does, with an invariant that knows how far it is. -/
theorem Exec.foldlM_range_total {f : β → Nat → Exec β} {n : Nat} {p : Nat → β → Prop} {b : β}
    (hstep : ∀ i b, i < n → p i b → ∃ b', f b i = .ok b' ∧ p (i + 1) b') (hb : p 0 b) :
    ∃ b', (List.range n).foldlM f b = .ok b' ∧ p n b' := by
  induction n with
  | zero => exact ⟨b, rfl, hb⟩
  | succ n ih =>
    obtain ⟨b₁, h₁, hb₁⟩ := ih fun i b hi => hstep i b (Nat.lt_succ_of_lt hi)
    obtain ⟨b₂, h₂, hb₂⟩ := hstep n b₁ (Nat.lt_succ_self n) hb₁
    refine ⟨b₂, ?_, hb₂⟩
    rw [List.range_succ, List.foldlM_append, h₁, Exec.ok_bind, List.foldlM_cons, h₂]
    rfl

/-- Two loops whose turns correspond. -/
theorem Exec.map_foldlM {f : β → α → Exec β} {g : γ → α → Exec γ} {π : β → γ}
    (hstep : ∀ b a, π <$> f b a = g (π b) a) {l : List α} {b : β} :
    π <$> l.foldlM f b = l.foldlM g (π b) := by
  induction l generalizing b with
  | nil => rfl
  | cons a l ih =>
    rw [List.foldlM_cons, List.foldlM_cons, ← hstep]
    cases f b a with
    | error e => rfl
    | ok b' => exact ih

theorem alignUp_spec {x align : Nat} (ha : 0 < align) (hx : x + align < 2 ^ 64) :
    align ∣ alignUp x align ∧ x ≤ alignUp x align ∧ alignUp x align < x + align := by
  have hlt := Nat.mod_lt x ha
  unfold alignUp
  split
  · rename_i h
    exact ⟨Nat.dvd_of_mod_eq_zero h, Nat.le_refl _, by omega⟩
  · rename_i h
    have hdvd : align ∣ x - x % align := Nat.dvd_sub_mod x
    have hle := Nat.mod_le x align
    rw [u64_of_lt hx, u64Sub_of_le hx (by omega)]
    refine ⟨?_, by omega, by omega⟩
    rw [show x + align - x % align = x - x % align + align by omega]
    exact Nat.dvd_add hdvd (Nat.dvd_refl _)

end TrazelOs
