import TrazelOs.Theory.Circular
import TrazelOs.Kernel.Vfs

/-! # The ring buffer

A ring buffer of `n` slots is a queue of at most `n - 1` bytes: `Queues n rb bytes` says that it holds
`bytes`, and every operation keeps this relation and answers as the queue does. -/

namespace TrazelOs

open Theory (QueueOp QueueReply runOps)

namespace RingBuffer

/-- The characters in the buffer, oldest first. -/
def contents (rb : RingBuffer) : List Byte :=
  Theory.circular rb.bufferSize rb.buffer rb.readPtr rb.writePtr

/-- Both indices are in the buffer of `n` slots, and `bytes` are between them. -/
structure Queues (n : Nat) (rb : RingBuffer) (bytes : List Byte) : Prop where
  size : rb.bufferSize = n
  read : rb.readPtr < n
  write : rb.writePtr < n
  contents : rb.contents = bytes

namespace Queues

variable {n : Nat} {rb : RingBuffer} {bytes : List Byte} {data : Byte}

theorem pos (h : Queues n rb bytes) : 0 < n := Nat.zero_lt_of_lt h.read

theorem length (h : Queues n rb bytes) : bytes.length =
    if rb.readPtr ≤ rb.writePtr then rb.writePtr - rb.readPtr
    else rb.writePtr + n - rb.readPtr := by
  rw [← h.contents, RingBuffer.contents, h.size, Theory.length_circular h.read h.write]

theorem length_lt (h : Queues n rb bytes) : bytes.length < n := by
  rw [← h.contents, RingBuffer.contents, h.size]
  exact Theory.length_circular_lt h.read h.write

theorem full_iff (h : Queues n rb bytes) :
    (rb.writePtr + 1) % rb.bufferSize = rb.readPtr ↔ bytes.length = n - 1 := by
  have hread := h.read
  have hwrite := h.write
  rw [h.size, h.length, Theory.mod_of_lt_two_mul (by omega)]
  split <;> split <;> omega

theorem empty_iff (h : Queues n rb bytes) : rb.readPtr = rb.writePtr ↔ bytes = [] := by
  rw [← h.contents, RingBuffer.contents, h.size, Theory.circular_eq_nil_iff h.read h.write]

theorem push (h : Queues n rb bytes) (data : Byte) (hroom : bytes.length ≠ n - 1) :
    (ringBufferPush rb data).1 = true ∧ Queues n (ringBufferPush rb data).2 (bytes ++ [data]) := by
  have hfull := mt h.full_iff.mp hroom
  rw [ringBufferPush, if_neg hfull]
  refine ⟨rfl, h.size, h.read, ?_, ?_⟩
  · rw [h.size]
    exact Nat.mod_lt _ h.pos
  · rw [← h.contents]
    exact Theory.circular_push (h.size ▸ h.read) (h.size ▸ h.write) hfull

theorem push_full (h : Queues n rb bytes) (hfull : bytes.length = n - 1) :
    ringBufferPush rb data = (false, rb) := if_pos (h.full_iff.mpr hfull)

theorem pop (h : Queues n rb (data :: bytes)) :
    (ringBufferPop rb).1 = some data ∧ Queues n (ringBufferPop rb).2 bytes := by
  have hne : rb.readPtr ≠ rb.writePtr := fun he => List.cons_ne_nil _ _ (h.empty_iff.mp he)
  have hcontents : data :: bytes = _ :: _ :=
    h.contents.symm.trans (Theory.circular_pop (h.size ▸ h.read) (h.size ▸ h.write) hne)
  obtain ⟨hdata, hbytes⟩ := List.cons.inj hcontents
  rw [ringBufferPop, if_neg hne]
  refine ⟨congrArg some hdata.symm, h.size, ?_, h.write, hbytes.symm⟩
  rw [h.size]
  exact Nat.mod_lt _ h.pos

theorem pop_empty (h : Queues n rb []) : ringBufferPop rb = (none, rb) :=
  if_pos (h.empty_iff.mpr rfl)

theorem pop_eq_none_iff (h : Queues n rb bytes) : (ringBufferPop rb).1 = none ↔ bytes = [] := by
  rw [← h.empty_iff, ringBufferPop]
  split <;> simp [*]

theorem init (rb : RingBuffer) (buffer : Nat → Byte) (hn : 1 ≤ n) :
    (ringBufferInit rb (some buffer) n).1 = true ∧
      Queues n (ringBufferInit rb (some buffer) n).2 [] := by
  rw [ringBufferInit, if_neg (Nat.ne_of_gt hn)]
  exact ⟨rfl, rfl, hn, hn, (Theory.circular_eq_nil_iff hn hn).mpr rfl⟩

end Queues

/-! ## Sequences of operations -/

/-- `ring_buffer_push` and `ring_buffer_pop` as operations of a queue. -/
def step : QueueOp Byte → RingBuffer → QueueReply Byte × RingBuffer
  | .push data, rb => (.pushed (ringBufferPush rb data).1, (ringBufferPush rb data).2)
  | .pop, rb => (.popped (ringBufferPop rb).1, (ringBufferPop rb).2)

theorem Queues.step {n : Nat} {rb : RingBuffer} {bytes : List Byte} (op : QueueOp Byte)
    (h : Queues n rb bytes) :
    (RingBuffer.step op rb).1 = (QueueOp.step (n - 1) op bytes).1 ∧
      Queues n (RingBuffer.step op rb).2 (QueueOp.step (n - 1) op bytes).2 := by
  cases op with
  | push data =>
    by_cases hfull : bytes.length = n - 1
    · rw [RingBuffer.step, QueueOp.step, if_pos hfull, h.push_full hfull]
      exact ⟨rfl, h⟩
    · obtain ⟨hok, hqueues⟩ := h.push data hfull
      rw [RingBuffer.step, QueueOp.step, if_neg hfull, hok]
      exact ⟨rfl, hqueues⟩
  | pop =>
    cases bytes with
    | nil =>
      rw [RingBuffer.step, QueueOp.step, h.pop_empty]
      exact ⟨rfl, h⟩
    | cons data bytes =>
      obtain ⟨hsome, hqueues⟩ := h.pop
      rw [RingBuffer.step, QueueOp.step, hsome]
      exact ⟨rfl, hqueues⟩

theorem Queues.run {n : Nat} {rb : RingBuffer} {bytes : List Byte} (h : Queues n rb bytes)
    (ops : List (QueueOp Byte)) :
    (runOps RingBuffer.step ops rb).1 = (runOps (QueueOp.step (n - 1)) ops bytes).1 ∧
      Queues n (runOps RingBuffer.step ops rb).2 (runOps (QueueOp.step (n - 1)) ops bytes).2 :=
  Theory.runOps_simulation (fun op _ _ h => h.step op) h ops

end RingBuffer

/-- From its initialisation on, a ring buffer of `n` slots is a queue of capacity `n - 1`: all
replies are the queue's, what was taken out and what is left is what was put in, a push or a pop
fails exactly on a full or an empty queue and then changes nothing, `ring_buffer_is_empty` is
exact and both indices are below `n`. -/
theorem ringBuffer_refines_queue (rb : RingBuffer) (buffer : Nat → Byte) (n : Nat) (hn : 1 ≤ n)
    (ops : List (QueueOp Byte)) :
    let run := runOps RingBuffer.step ops (ringBufferInit rb (some buffer) n).2
    let queue := runOps (QueueOp.step (n - 1)) ops []
    (ringBufferInit rb (some buffer) n).1 = true ∧ run.1 = queue.1 ∧
      run.2.contents = queue.2 ∧ queue.2.length ≤ n - 1 ∧
      (List.zipWith QueueOp.accepted ops run.1).reduceOption =
        (run.1.map QueueReply.taken).reduceOption ++ queue.2 ∧
      (∀ data, ((ringBufferPush run.2 data).1 = false ↔ queue.2.length = n - 1) ∧
        ((ringBufferPush run.2 data).1 = false → (ringBufferPush run.2 data).2 = run.2)) ∧
      ((ringBufferPop run.2).1 = none ↔ queue.2 = []) ∧
      ((ringBufferPop run.2).1 = none → (ringBufferPop run.2).2 = run.2) ∧
      (ringBufferIsEmpty run.2 = true ↔ queue.2 = []) ∧
      run.2.readPtr < n ∧ run.2.writePtr < n := by
  intro run queue
  obtain ⟨hinit, hstart⟩ := RingBuffer.Queues.init rb buffer hn
  obtain ⟨hreplies, hqueues⟩ : run.1 = queue.1 ∧ run.2.Queues n queue.2 := hstart.run ops
  have hpush (data : Byte) : (ringBufferPush run.2 data).1 = false ↔ queue.2.length = n - 1 := by
    refine ⟨fun hfail => by_contra fun hroom => ?_, fun hfull => by rw [hqueues.push_full hfull]⟩
    cases hfail.symm.trans (hqueues.push data hroom).1
  refine ⟨hinit, hreplies, hqueues.contents, Nat.le_sub_one_of_lt hqueues.length_lt, ?_,
    fun data => ⟨hpush data, fun hfail => ?_⟩, hqueues.pop_eq_none_iff, fun hnone => ?_, ?_, hqueues.read,
    hqueues.write⟩
  · rw [hreplies]
    exact Theory.queue_conserves (n - 1) ops []
  · rw [hqueues.push_full ((hpush data).mp hfail)]
  · have hempty := hqueues.pop_eq_none_iff.mp hnone
    rw [hempty] at hqueues
    rw [hqueues.pop_empty]
  · rw [ringBufferIsEmpty, decide_eq_true_iff, hqueues.empty_iff]

/-- Two slots hold one byte. -/
theorem ringBuffer_refines_queue_two :
    let run := runOps RingBuffer.step [.push 7, .push 8, .pop, .pop]
      (ringBufferInit ⟨0, 0, 0, fun _ => 0⟩ (some fun _ => 0) 2).2
    1 ≤ 2 ∧ run.1 = [.pushed true, .pushed false, .popped (some 7), .popped none] ∧
      run.2.writePtr < 2 :=
  have h := ringBuffer_refines_queue ⟨0, 0, 0, fun _ => 0⟩ (fun _ => 0) 2 (by decide)
    [.push 7, .push 8, .pop, .pop]
  ⟨by decide, h.2.1, h.2.2.2.2.2.2.2.2.2.2⟩

end TrazelOs
