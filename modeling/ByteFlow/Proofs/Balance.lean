/-
# The balance of a pipe

The books of a pipe balance when no byte is lost, doubled or out of order: what the transform has
used and what waits in the source is what came in, and what sinks took, what the destination holds
and what waits in the queue is what the transform pushed.

While a run drains a segment, the segment is out of the queue, and handlers may look at the pipe and
call it. The bytes that are on their way at that moment are part of the balance, between the
destination and the queue. Only a run that is in progress has bytes on their way, so `flight` is
`none` exactly when the pipe does not operate.

This module has the balance and how it moves with each thing that can happen to a pipe, as a fact
about records. The computations that make these things happen are in `ByteFlow.Proofs.Conservation`.
-/

import ByteFlow.Proofs.Advance
import ByteFlow.Proofs.Transfers

namespace ByteFlow

variable {τ ω : Type}

/-- The books of pipe `p` balance, with the bytes `flight` on their way. Rings in `R` are those that
can be a destination; no other pipe drains into them. -/
structure Balance (p : PipeId) (R : RingId → Prop) (flight : Option Bytes) (pipe : Pipe τ)
    (rings : Table SharedRing) (ledger : Ledger) : Prop where
  inUse : pipe.destination < rings.next
  inRange : R pipe.destination
  valid : ∀ r, R r → (rings.get r).ring.Valid
  alone : ∀ r, R r → ∀ q, .listener q ∈ (rings.get r).observers → q = p
  operating : pipe.operating = flight.isSome
  source : pipe.source.Valid
  intact : pipe.source.cleaned = false
  queue : pipe.queue.Sound
  current : ledger.current? = some pipe.destination
  inbound : ledger.consumed ++ pipe.source.toList = ledger.received
  /-- A destination that held bytes of its own is not accounted for. -/
  outbound : ledger.IsFresh →
    ledger.accepted ++ (rings.get pipe.destination).ring.toList ++ flight.getD [] ++
      pipe.queue.toList = ledger.pushed

namespace Balance

variable {p : PipeId} {R : RingId → Prop} {flight : Option Bytes} {pipe : Pipe τ}
  {rings : Table SharedRing} {ledger : Ledger}

/-! ## What does not touch it -/

/-- What a pipe keeps besides destination, source and queue is not in the books. -/
theorem of_same (h : Balance p R flight pipe rings ledger) {after : Pipe τ}
    (destination : after.destination = pipe.destination)
    (operating : after.operating = pipe.operating) (source : after.source = pipe.source)
    (queue : after.queue = pipe.queue) : Balance p R flight after rings ledger where
  inUse := destination ▸ h.inUse
  inRange := destination ▸ h.inRange
  valid := h.valid
  alone := h.alone
  operating := operating ▸ h.operating
  source := source ▸ h.source
  intact := source ▸ h.intact
  queue := queue ▸ h.queue
  current := destination ▸ h.current
  inbound := source ▸ h.inbound
  outbound := by
    rw [destination, queue]
    exact h.outbound

/-- Observers that are not listeners of other pipes come and go. -/
theorem set_observers (h : Balance p R flight pipe rings ledger) (r : RingId)
    {observers : List Observer}
    (alone : R r → ∀ q, .listener q ∈ observers → q = p) :
    Balance p R flight pipe (rings.set r { rings.get r with observers }) ledger := by
  have same := ring_set_observers rings r observers
  refine ⟨?_, h.inRange, ?_, ?_, h.operating, h.source, h.intact, h.queue, h.current, h.inbound, ?_⟩
  · exact Table.lt_next_set_of_lt h.inUse _ _
  · intro s range
    rw [same]
    exact h.valid s range
  · intro s range q
    rw [Table.get_set]
    split
    · rename_i eq
      exact alone (eq ▸ range) q
    · exact h.alone s range q
  · rw [same]
    exact h.outbound

/-! ## What it moves with -/

/-- A change to the content of a ring in `R` that keeps it a ring. -/
theorem set_ring (h : Balance p R flight pipe rings ledger) {r : RingId} {ring : Ring}
    (valid : ring.Valid) {flight' : Option Bytes} {ledger' : Ledger}
    (operating : flight'.isSome = flight.isSome) (current : ledger'.current? = ledger.current?)
    (inbound : ledger'.consumed = ledger.consumed ∧ ledger'.received = ledger.received)
    (outbound : ledger'.IsFresh →
      ledger'.accepted ++
        ((rings.set r { rings.get r with ring }).get pipe.destination).ring.toList ++
        flight'.getD [] ++ pipe.queue.toList = ledger'.pushed) :
    Balance p R flight' pipe (rings.set r { rings.get r with ring }) ledger' := by
  refine ⟨?_, h.inRange, ?_, ?_, operating ▸ h.operating, h.source, h.intact, h.queue,
    current ▸ h.current, ?_, outbound⟩
  · exact Table.lt_next_set_of_lt h.inUse _ _
  · intro s range
    rw [Table.get_set]
    split
    · exact valid
    · exact h.valid s range
  · intro s range q
    rw [Table.get_set]
    split
    · rename_i eq
      rw [eq]
      exact h.alone s range q
    · exact h.alone s range q
  · rw [inbound.1, inbound.2]
    exact h.inbound

/-- Bytes on their way reach the destination. -/
theorem land {moved rest : Bytes} (h : Balance p R (some (moved ++ rest)) pipe rings ledger)
    {ring : Ring} (fills : (rings.get pipe.destination).ring.Fills moved ring) :
    Balance p R (some rest) pipe
      (rings.set pipe.destination { rings.get pipe.destination with ring }) ledger := by
  refine h.set_ring fills.valid rfl rfl ⟨rfl, rfl⟩ fun fresh => ?_
  rw [Table.get_set, if_pos rfl]
  change ledger.accepted ++ ring.toList ++ rest ++ pipe.queue.toList = _
  rw [← h.outbound fresh, fills.content]
  change _ = ledger.accepted ++ _ ++ (moved ++ rest) ++ _
  rw [← List.append_assoc, ← List.append_assoc]

/-- A sink takes bytes from the destination. -/
theorem deliver (h : Balance p R flight pipe rings ledger) {moved : Bytes} {ring : Ring}
    (drains : (rings.get pipe.destination).ring.Drains moved ring) :
    Balance p R flight pipe
      (rings.set pipe.destination { rings.get pipe.destination with ring })
      { ledger with accepted := ledger.accepted ++ moved } := by
  refine h.set_ring drains.valid rfl rfl ⟨rfl, rfl⟩ fun fresh => ?_
  rw [Table.get_set, if_pos rfl]
  change ledger.accepted ++ moved ++ ring.toList ++ _ ++ _ = ledger.pushed
  rw [← h.outbound fresh, drains.content, ← List.append_assoc]

/-- A sink takes bytes from a ring that is not the destination. -/
theorem set_other (h : Balance p R flight pipe rings ledger) {r : RingId} {ring : Ring}
    (valid : ring.Valid) (other : r ≠ pipe.destination) :
    Balance p R flight pipe (rings.set r { rings.get r with ring }) ledger := by
  apply h.set_ring valid rfl rfl ⟨rfl, rfl⟩
  intro fresh
  rw [Table.get_set, if_neg other]
  exact h.outbound fresh

/-- The bytes of a segment leave the queue, or come back to it. -/
theorem set_queue (h : Balance p R flight pipe rings ledger) {queue : Queue}
    {flight' : Option Bytes}
    (operating : flight'.isSome = flight.isSome) (sound : queue.Sound)
    (same : flight'.getD [] ++ queue.toList = flight.getD [] ++ pipe.queue.toList) :
    Balance p R flight' { pipe with queue } rings ledger where
  inUse := h.inUse
  inRange := h.inRange
  valid := h.valid
  alone := h.alone
  operating := operating ▸ h.operating
  source := h.source
  intact := h.intact
  queue := sound
  current := h.current
  inbound := h.inbound
  outbound := by
    intro fresh
    have before := h.outbound fresh
    rw [List.append_assoc, ← same, ← List.append_assoc] at before
    exact before

/-- Bytes come into the source. -/
theorem receive (h : Balance p R flight pipe rings ledger) {moved : Bytes} {source : Ring}
    (fills : pipe.source.Fills moved source) :
    Balance p R flight { pipe with source } rings
      { ledger with received := ledger.received ++ moved } where
  inUse := h.inUse
  inRange := h.inRange
  valid := h.valid
  alone := h.alone
  operating := h.operating
  source := fills.valid
  intact := fills.cleaned.trans h.intact
  queue := h.queue
  current := h.current
  inbound := by
    change ledger.consumed ++ source.toList = ledger.received ++ moved
    rw [fills.content, ← List.append_assoc, h.inbound]
  outbound := h.outbound

/-- Another ring takes the place of an empty destination. -/
theorem redirect (h : Balance p R flight pipe rings ledger) {candidate : RingId}
    (inUse : candidate < rings.next) (inRange : R candidate)
    (drained : (rings.get pipe.destination).ring.used = 0) :
    Balance p R flight { pipe with destination := candidate } rings
      { ledger with
        destinations := (candidate, (rings.get candidate).ring.used) :: ledger.destinations } where
  inUse := inUse
  inRange := inRange
  valid := h.valid
  alone := h.alone
  operating := h.operating
  source := h.source
  intact := h.intact
  queue := h.queue
  current := rfl
  inbound := h.inbound
  outbound := by
    intro fresh
    obtain ⟨empty, fresh⟩ := List.forall_mem_cons.1 fresh
    have before := (Ring.toList_eq_nil_iff (h.valid _ h.inRange)).2 (beq_iff_eq.2 drained)
    have after := (Ring.toList_eq_nil_iff (h.valid _ inRange)).2 (beq_iff_eq.2 empty)
    have outbound := h.outbound fresh
    rw [before] at outbound
    change ledger.accepted ++ (rings.get candidate).ring.toList ++ _ ++ _ = ledger.pushed
    rw [after]
    exact outbound

/-- A run begins with nothing on its way. -/
theorem start (h : Balance p R none pipe rings ledger) :
    Balance p R (some []) { pipe with operating := true } rings ledger where
  inUse := h.inUse
  inRange := h.inRange
  valid := h.valid
  alone := h.alone
  operating := rfl
  source := h.source
  intact := h.intact
  queue := h.queue
  current := h.current
  inbound := h.inbound
  outbound := h.outbound

/-- A run ends with nothing on its way. -/
theorem finish (h : Balance p R (some []) pipe rings ledger) :
    Balance p R none { pipe with operating := false, pendingWritable := false } rings ledger where
  inUse := h.inUse
  inRange := h.inRange
  valid := h.valid
  alone := h.alone
  operating := rfl
  source := h.source
  intact := h.intact
  queue := h.queue
  current := h.current
  inbound := h.inbound
  outbound := h.outbound

/-- The transform moves bytes from the source to the queue, and accounts for both. -/
theorem advance (h : Balance p R flight pipe rings ledger) {used pushed : Bytes}
    {advanced : Advanced τ} (advances : pipe.Advances p used pushed advanced) :
    Balance p R flight advanced.pipe rings
      { ledger with
        consumed := ledger.consumed ++ used
        pushed := ledger.pushed ++ pushed } := by
  obtain ⟨source, transform, queue, scratch, pending, same⟩ := advances.same
  have source_valid := advances.valid
  have content := advances.content
  have cleaned := advances.cleaned
  have sound := advances.sound
  have waiting := advances.waiting
  rw [same] at source_valid content cleaned sound waiting ⊢
  refine ⟨h.inUse, h.inRange, h.valid, h.alone, h.operating, source_valid, cleaned.trans h.intact,
    sound, h.current, ?_, fun fresh => ?_⟩
  · change ledger.consumed ++ used ++ source.toList = ledger.received
    rw [List.append_assoc, ← content]
    exact h.inbound
  · change _ ++ queue.toList = ledger.pushed ++ pushed
    rw [waiting, ← h.outbound fresh, ← List.append_assoc]

end Balance

end ByteFlow
