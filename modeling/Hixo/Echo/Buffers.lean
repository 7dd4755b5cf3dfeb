import Hixo.Echo.Queues
import Mathlib.Data.List.Perm.Subperm
import Mathlib.Data.Set.Basic

/-!
# The buffers of a connection

What the operations on single buffers do, and what they leave alone.

* `Conn.Has`, `Conn.Holds`: what a buffer records, and the bytes it holds;
* `Quiet`, `Touches`, `InPlace`: what stays the same;
* `Has.setSize`, `Has.writeBlock`, `Has.destroyBuffer`: the operations;
* `Owned`: the buffers of the three queues are allocated, and they are different;
* `Ledger`: every buffer is in a queue or was freed, and only one of the two;
* `release_spec`: the buffers of a queue are freed.
-/

namespace Hixo.Echo

open RingHeap

/-! ## What a buffer holds -/

/-- The buffer `i` has a block of `BUF_SIZE` bytes, `bytes`, and records the size `size`. -/
def Conn.Has (s : Conn) (i : ℕ) (size : ℤ) (bytes : List UInt8) : Prop :=
  bytes.length = bufSize ∧
    ∃ offset, s.bufs i = some { offset, size, byteArray := { data := some bytes,
                                                             capacity := bufSize } }

/-- The buffer `i` holds the bytes `piece`: its block starts with them, and they are all that
`m_size` counts. -/
def Conn.Holds (s : Conn) (i : ℕ) (piece : List UInt8) : Prop :=
  ∃ bytes, s.Has i piece.length bytes ∧ piece <+: bytes

variable {s s' s'' : Conn} {i j : ℕ} {size : ℤ} {bytes piece : List UInt8} {T T' : Set ℕ}

theorem Conn.Has.congr (h : s.Has i size bytes) (hbufs : s'.bufs i = s.bufs i) :
    s'.Has i size bytes :=
  ⟨h.1, by simpa only [hbufs] using h.2⟩

theorem Conn.Holds.congr (h : s.Holds i piece) (hbufs : s'.bufs i = s.bufs i) :
    s'.Holds i piece := by
  obtain ⟨bytes, hhas, hprefix⟩ := h
  exact ⟨bytes, hhas.congr hbufs, hprefix⟩

/-- A buffer that holds nothing has size 0. -/
theorem holds_nil : s.Holds i [] ↔ ∃ bytes, s.Has i 0 bytes := by
  simp [Conn.Holds]

/-- A buffer that holds something is allocated. -/
theorem Conn.Has.bufs_ne_none (h : s.Has i size bytes) : s.bufs i ≠ none := by
  obtain ⟨-, offset, hbuf⟩ := h
  simp [hbuf]

/-- What a buffer holds fits into it. -/
theorem Conn.Holds.length_le (h : s.Holds i piece) : piece.length ≤ bufSize := by
  obtain ⟨bytes, hhas, hprefix⟩ := h
  exact hhas.1 ▸ hprefix.length_le

/-- A buffer after `hixo_create_buffer` holds nothing. -/
theorem createBuffer_has (hbuf : s.bufs i = some (createBuffer bufSize)) :
    s.Has i 0 (List.replicate bufSize 0) :=
  ⟨List.length_replicate, 0, by rw [hbuf]; rfl⟩

/-! ## What stays the same -/

/-- The sending side and the flags of the socket stay as they are. -/
structure Quiet (s s' : Conn) : Prop where
  sent : s'.sent = s.sent
  writes : s'.writes = s.writes
  readable : s'.readable = s.readable
  close : s'.close = s.close
  shutdown : s'.shutdown = s.shutdown

/-- No buffer is freed, and only the buffers of `T` are written. -/
structure Touches (T : Set ℕ) (s s' : Conn) : Prop extends Quiet s s' where
  bufs : ∀ j ∉ T, s'.bufs j = s.bufs j
  destroyed : s'.destroyed = s.destroyed
  freed : s'.freed = s.freed

/-- Only the buffers of `T` are written, and neither links nor allocations change. -/
structure InPlace (T : Set ℕ) (s s' : Conn) : Prop extends Touches T s s' where
  links : s'.links = s.links
  count : s'.count = s.count

theorem Quiet.refl (s : Conn) : Quiet s s := ⟨rfl, rfl, rfl, rfl, rfl⟩

theorem Quiet.trans (h : Quiet s s') (h' : Quiet s' s'') : Quiet s s'' :=
  ⟨h'.sent.trans h.sent, h'.writes.trans h.writes, h'.readable.trans h.readable,
    h'.close.trans h.close, h'.shutdown.trans h.shutdown⟩

theorem Quiet.setLinks (h : Quiet s s') (l : RingHeap Cell) : Quiet s { s' with links := l } :=
  ⟨h.sent, h.writes, h.readable, h.close, h.shutdown⟩

theorem Quiet.of_setLinks {l : RingHeap Cell} (h : Quiet { s with links := l } s') : Quiet s s' :=
  ⟨h.sent, h.writes, h.readable, h.close, h.shutdown⟩

theorem Touches.refl (T : Set ℕ) (s : Conn) : Touches T s s :=
  ⟨Quiet.refl s, fun _ _ => rfl, rfl, rfl⟩

theorem Touches.trans (h : Touches T s s') (h' : Touches T s' s'') : Touches T s s'' :=
  ⟨h.toQuiet.trans h'.toQuiet, fun j hj => (h'.bufs j hj).trans (h.bufs j hj),
    h'.destroyed.trans h.destroyed, h'.freed.trans h.freed⟩

theorem Touches.mono (h : Touches T s s') (hsub : T ⊆ T') : Touches T' s s' :=
  ⟨h.toQuiet, fun j hj => h.bufs j fun hmem => hj (hsub hmem), h.destroyed, h.freed⟩

theorem InPlace.refl (T : Set ℕ) (s : Conn) : InPlace T s s := ⟨Touches.refl T s, rfl, rfl⟩

theorem InPlace.trans (h : InPlace T s s') (h' : InPlace T s' s'') : InPlace T s s'' :=
  ⟨h.toTouches.trans h'.toTouches, h'.links.trans h.links, h'.count.trans h.count⟩

theorem InPlace.mono (h : InPlace T s s') (hsub : T ⊆ T') : InPlace T' s s' :=
  ⟨h.toTouches.mono hsub, h.links, h.count⟩

/-- Storing one buffer touches no other one. -/
theorem inPlace_setBuffer (b : Buffer) : InPlace {i} s (s.setBuffer i b) :=
  ⟨⟨⟨rfl, rfl, rfl, rfl, rfl⟩, fun _ hj => Function.update_of_ne hj .., rfl, rfl⟩, rfl, rfl⟩

/-! ## Operations on one buffer -/

namespace Conn

/-- A buffer that was allocated can be accessed. -/
theorem Has.buffer_eq (h : s.Has i size bytes) :
    ∃ b, s.buffer i = .ok b ∧ b.size = size ∧
      b.byteArray = { data := some bytes, capacity := bufSize } := by
  obtain ⟨-, offset, hbuf⟩ := h
  exact ⟨_, by rw [buffer, hbuf], rfl, rfl⟩

/-- The block of a buffer that was allocated can be accessed. -/
theorem Has.block_eq (h : s.Has i size bytes) : s.block i = .ok bytes := by
  obtain ⟨b, hbuf, -, harray⟩ := h.buffer_eq
  rw [block, hbuf]
  simp only [bind, Except.bind, harray]

/-- `hixo_buffer_set_size` sets the size of a buffer that is there, and touches no other one. -/
theorem Has.setSize (h : s.Has i size bytes) {n : ℕ} :
    ∃ s', s.setSize i n = .ok s' ∧ s'.Has i n bytes ∧ InPlace {i} s s' := by
  obtain ⟨b, hbuf, -, harray⟩ := h.buffer_eq
  refine ⟨_, by rw [Conn.setSize, hbuf]; rfl, ⟨h.1, b.offset, ?_⟩, inPlace_setBuffer _⟩
  have hsize : (if (n : ℤ) > 0 then (n : ℤ) else 0) = n := by
    split <;> omega
  simp only [setBuffer, Function.update_self, hsize, harray]

/-- Bytes are written to the front of the block, which has room for them. -/
theorem Has.writeBlock (h : s.Has i size bytes) (hlen : piece.length ≤ bufSize) :
    ∃ s', s.writeBlock i piece = .ok s' ∧ s'.Has i size (piece ++ bytes.drop piece.length) ∧
      InPlace {i} s s' := by
  obtain ⟨b, hbuf, hsize, harray⟩ := h.buffer_eq
  have hroom : ¬bytes.length < piece.length := by
    rw [h.1]
    omega
  refine ⟨_, by rw [Conn.writeBlock, hbuf, h.block_eq]; simp only [bind, Except.bind, if_neg hroom];
                rfl, ⟨?_, b.offset, ?_⟩, inPlace_setBuffer _⟩
  · rw [List.length_append, List.length_drop, h.1]
    omega
  · simp only [setBuffer, Function.update_self, hsize, harray]

/-- The bytes that a buffer holds can be read. -/
theorem Holds.readBlock (h : s.Holds i piece) : s.readBlock i piece.length = .ok piece := by
  obtain ⟨bytes, hhas, hprefix⟩ := h
  rw [Conn.readBlock, hhas.block_eq]
  simp only [bind, Except.bind, if_neg (Nat.not_lt.mpr hprefix.length_le),
    ← List.prefix_iff_eq_take.mp hprefix]

/-- `hixo_destroy_buffer` and `free` record that the block and the buffer are gone. -/
theorem Has.destroyBuffer_freeBuffer (h : s.Has i size bytes) :
    (s.destroyBuffer i >>= fun s => s.freeBuffer i) =
      .ok { s with
        bufs := Function.update s.bufs i none
        destroyed := i :: s.destroyed
        freed := i :: s.freed } := by
  obtain ⟨b, hbuf, -, harray⟩ := h.buffer_eq
  have hdestroy : s.destroyBuffer i =
      .ok { s.setBuffer i { b with byteArray := { b.byteArray with data := none } } with
        destroyed := i :: s.destroyed } := by
    rw [destroyBuffer, hbuf]
    simp only [bind, Except.bind, harray]
  rw [hdestroy]
  simp [bind, Except.bind, freeBuffer, Conn.buffer, setBuffer]

end Conn

/-! ## The buffers of the queues -/

/-- The buffers of the three queues are different, and each has a block of `BUF_SIZE` bytes. -/
structure Owned (s : Conn) (read old tmp : List ℕ) : Prop where
  nodup : (read ++ old ++ tmp).Nodup
  whole : ∀ i ∈ read ++ old ++ tmp, ∃ size bytes, s.Has i size bytes
  bound : ∀ i, s.count ≤ i → s.bufs i = none

variable {read old tmp : List ℕ}

/-- The buffers of the queues have been allocated. -/
theorem Owned.lt_count (h : Owned s read old tmp) (hi : i ∈ read ++ old ++ tmp) :
    i < s.count := by
  obtain ⟨size, bytes, hhas⟩ := h.whole i hi
  by_contra hge
  exact hhas.bufs_ne_none (h.bound i (Nat.not_lt.mp hge))

/-- It does not matter in which of the queues a buffer is. -/
theorem Owned.perm {read' old' tmp' : List ℕ} (h : Owned s read old tmp)
    (hperm : (read' ++ old' ++ tmp').Perm (read ++ old ++ tmp)) (hbufs : s'.bufs = s.bufs)
    (hcount : s'.count = s.count) : Owned s' read' old' tmp' := by
  refine ⟨hperm.nodup_iff.mpr h.nodup, fun i hi => ?_, fun i hi => ?_⟩
  · obtain ⟨size, bytes, hhas⟩ := h.whole i (hperm.mem_iff.mp hi)
    exact ⟨size, bytes, hhas.congr (congrFun hbufs i)⟩
  · rw [hbufs]
    exact h.bound i (hcount ▸ hi)

/-- A new buffer belongs to no queue yet, and may be put into `tmp_queue`. -/
theorem Owned.new (h : Owned s read old tmp) (hcount : s'.count = s.count + 1)
    (hnew : s'.Has s.count size bytes) (hbufs : ∀ i ≠ s.count, s'.bufs i = s.bufs i) :
    Owned s' read old (tmp ++ [s.count]) := by
  have hlt : ∀ i ∈ read ++ old ++ tmp, i ≠ s.count := fun i hi => Nat.ne_of_lt (h.lt_count hi)
  refine ⟨?_, fun i hi => ?_, fun i hi => ?_⟩
  · rw [← List.append_assoc]
    refine List.nodup_append.mpr ⟨h.nodup, by simp, fun i hi j hj => ?_⟩
    rw [List.mem_singleton.mp hj]
    exact hlt i hi
  · rw [← List.append_assoc] at hi
    rcases List.mem_append.mp hi with hi | hi
    · obtain ⟨size, bytes, hhas⟩ := h.whole i hi
      exact ⟨size, bytes, hhas.congr (hbufs i (hlt i hi))⟩
    · rw [List.mem_singleton.mp hi]
      exact ⟨size, bytes, hnew⟩
  · rw [hbufs i (by omega)]
    exact h.bound i (by omega)

/-- When buffers are written in place, all buffers stay in their queues. -/
theorem Owned.inPlace {is : List ℕ} (h : Owned s read old tmp) (hin : InPlace {j | j ∈ is} s s')
    (hsub : ∀ i ∈ is, i < s.count) (hhas : ∀ i ∈ is, ∃ size bytes, s'.Has i size bytes) :
    Owned s' read old tmp := by
  refine ⟨h.nodup, fun i hi => ?_, fun i hi => ?_⟩
  · by_cases his : i ∈ is
    · exact hhas i his
    · obtain ⟨size, bytes, hhas⟩ := h.whole i hi
      exact ⟨size, bytes, hhas.congr (hin.bufs i his)⟩
  · rw [hin.count] at hi
    rw [hin.bufs i fun his => Nat.not_lt.mpr hi (hsub i his)]
    exact h.bound i hi

/-- A queue is not longer than the number of allocated buffers. -/
theorem length_le_of_lt {is : List ℕ} {n : ℕ} (hnodup : is.Nodup) (hlt : ∀ i ∈ is, i < n) :
    is.length ≤ n := by
  have hsub : is ⊆ List.range n := fun i hi => List.mem_range.mpr (hlt i hi)
  simpa using (List.Nodup.subperm hnodup hsub).length_le

/-! ## Where the buffers are -/

/-- From `s` to `t` the buffers in `gone` were destroyed and freed, and each buffer that was `live`
or is new is either `live'` or gone. -/
structure Ledger (s t : Conn) (live live' gone : List ℕ) : Prop where
  count : s.count ≤ t.count
  destroyed : t.destroyed = gone ++ s.destroyed
  freed : t.freed = gone ++ s.freed
  conserved : (live' ++ gone).Perm (live ++ List.range' s.count (t.count - s.count))

variable {live live' live'' gone gone' : List ℕ}

/-- When nothing was allocated or freed, the ledger only puts the live buffers into another order.
-/
theorem ledger_of_perm (hperm : live'.Perm live) (hcount : s'.count = s.count)
    (hdestroyed : s'.destroyed = s.destroyed) (hfreed : s'.freed = s.freed) :
    Ledger s s' live live' [] := by
  refine ⟨hcount.ge, hdestroyed, hfreed, ?_⟩
  rw [hcount, Nat.sub_self, List.range'_zero, List.append_nil, List.append_nil]
  exact hperm

/-- The ledger depends on what was allocated and freed. -/
theorem Ledger.congr {t : Conn} (h : Ledger s t live live' gone) (hcount : s'.count = s.count)
    (hdestroyed : s'.destroyed = s.destroyed) (hfreed : s'.freed = s.freed) :
    Ledger s' t live live' gone where
  count := hcount ▸ h.count
  destroyed := hdestroyed ▸ h.destroyed
  freed := hfreed ▸ h.freed
  conserved := hcount ▸ h.conserved

theorem Ledger.trans (h : Ledger s s' live live' gone) (h' : Ledger s' s'' live' live'' gone') :
    Ledger s s'' live live'' (gone' ++ gone) := by
  refine ⟨h.count.trans h'.count, ?_, ?_, ?_⟩
  · rw [h'.destroyed, h.destroyed, List.append_assoc]
  · rw [h'.freed, h.freed, List.append_assoc]
  · have hcount := h.count
    have hcount' := h'.count
    -- the buffers that were created in the two parts
    have hnew : List.range' s.count (s'.count - s.count) ++
        List.range' s'.count (s''.count - s'.count) =
          List.range' s.count (s''.count - s.count) := by
      have hstart : s'.count = s.count + (s'.count - s.count) := by omega
      have hlen : s''.count - s.count = (s'.count - s.count) + (s''.count - s'.count) := by omega
      rw [hlen, ← List.range'_append_1, ← hstart]
    calc (live'' ++ (gone' ++ gone))
      _ = live'' ++ gone' ++ gone := (List.append_assoc ..).symm
      _ |>.Perm (live' ++ List.range' s'.count (s''.count - s'.count) ++ gone) :=
        h'.conserved.append_right gone
      _ |>.Perm (live' ++ gone ++ List.range' s'.count (s''.count - s'.count)) := by
        rw [List.append_assoc, List.append_assoc]
        exact List.perm_append_comm.append_left live'
      _ |>.Perm (live ++ List.range' s.count (s'.count - s.count) ++
          List.range' s'.count (s''.count - s'.count)) := h.conserved.append_right _
      _ = live ++ List.range' s.count (s''.count - s.count) := by rw [List.append_assoc, hnew]

/-- Each buffer is live or gone exactly once. -/
theorem Ledger.count_eq_one (h : Ledger s s' live live' gone) (hnodup : live.Nodup)
    (hlt : ∀ i ∈ live, i < s.count) (hi : i ∈ live ∨ (s.count ≤ i ∧ i < s'.count)) :
    live'.count i + gone.count i = 1 := by
  have hall : (live ++ List.range' s.count (s'.count - s.count)).Nodup := by
    refine List.nodup_append.mpr ⟨hnodup, List.nodup_range', fun j hj k hk heq => ?_⟩
    have hge := (List.mem_range'_1.mp hk).1
    have hjlt := hlt j hj
    omega
  rw [← List.count_append, h.conserved.count_eq]
  refine List.count_eq_one_of_mem hall (List.mem_append.mpr (hi.imp_right fun hnew => ?_))
  have hcount := h.count
  exact List.mem_range'_1.mpr ⟨hnew.1, by omega⟩

/-! ## Freeing the buffers of a queue -/

/-- From `s` to `t` the buffers `done` of a queue were freed, and the buffers `rest` are left. -/
structure Released (queue : Cell) (done rest : List ℕ) (s t : Conn) : Prop extends Quiet s t where
  ring : t.links.IsRing queue (nodes rest)
  same : ∀ c ∉ queue :: nodes (done ++ rest), Same s.links t.links c
  gone : ∀ i ∈ done, t.bufs i = none
  bufs : ∀ i ∉ done, t.bufs i = s.bufs i
  count : t.count = s.count
  destroyed : t.destroyed = done.reverse ++ s.destroyed
  freed : t.freed = done.reverse ++ s.freed

/-- A pass of the loops that free buffers frees the buffer it is at. -/
theorem Released.pass {queue : Cell} {done rest : List ℕ} {t : Conn}
    (h : Released queue done (i :: rest) s t) (hhas : t.Has i size bytes) :
    ∃ t', releaseBody (.bufNode i) t = .ok t' ∧ Released queue (done ++ [i]) rest s t' := by
  -- the buffer leaves the ring before it is freed, which does not touch its memory
  have hmoved : { t with links := t.links.del (.bufNode i) }.Has i size bytes := hhas.congr rfl
  have hrun := hmoved.destroyBuffer_freeBuffer
  refine ⟨_, hrun, ?_⟩
  have hring : t.links.IsRing queue ([] ++ Cell.bufNode i :: nodes rest) := h.ring
  refine ⟨⟨h.sent, h.writes, h.readable, h.close, h.shutdown⟩, hring.del, fun c hc => ?_,
    fun j hj => ?_, fun j hj => ?_, h.count, ?_, ?_⟩
  · have hc' : c ∉ queue :: nodes (done ++ i :: rest) := by simpa using hc
    have hrest : c ∉ queue :: (nodes (i :: rest)) := fun hmem => hc' (by
      simp only [List.mem_cons, nodes_append, List.mem_append] at hmem ⊢
      tauto)
    obtain ⟨hnext, hprev⟩ := h.same c hc'
    obtain ⟨hnext', hprev'⟩ := hring.del_same hrest
    exact ⟨hnext'.trans hnext, hprev'.trans hprev⟩
  · by_cases hij : j = i
    · simp [hij]
    · have hj' : j ∈ done := by simpa [hij] using hj
      simpa [hij] using h.gone j hj'
  · simp only [List.mem_append, List.mem_singleton, not_or] at hj
    simpa [hj.2] using h.bufs j hj.1
  · simp [h.destroyed]
  · simp [h.freed]

/-- The loop that frees the buffers of a queue frees all of them, and leaves the queue empty. -/
theorem release_spec {queue : Cell} {is : List ℕ} (hring : s.links.IsRing queue (nodes is))
    (hwhole : ∀ i ∈ is, ∃ size bytes, s.Has i size bytes) (hlen : is.length ≤ s.count) :
    ∃ s', release queue s = .ok s' ∧ Released queue is [] s s' := by
  have hrings : ∀ done todo t, Released queue done todo s t → t.links.IsRing queue (nodes todo) :=
    fun _ _ _ hrel => hrel.ring
  have hbody : ∀ done i todo t, is = done ++ i :: todo → i ∉ done →
      Released queue done (i :: todo) s t →
      ∃ t', releaseBody (.bufNode i) t = .ok t' ∧ Released queue (done ++ [i]) todo s t' := by
    rintro done i todo t rfl hi hrel
    obtain ⟨size, bytes, hhas⟩ := hwhole i (by simp)
    exact hrel.pass (hhas.congr (hrel.bufs i hi))
  have hstart : Released queue [] is s s :=
    ⟨Quiet.refl s, hring, fun _ _ => ⟨rfl, rfl⟩, by simp, fun _ _ => rfl, rfl, rfl, rfl⟩
  exact forEachSafe_queue Conn.links Fault.endless (nodup_of_isRing hring) hrings hbody hstart
    (Nat.lt_succ_of_le hlen)

end Hixo.Echo
