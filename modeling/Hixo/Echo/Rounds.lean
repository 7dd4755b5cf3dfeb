import Hixo.Echo.Buffers
import Mathlib.Data.List.Forall2

/-!
# A round of the read loop

A round of the read loop takes `NBUFS` buffers, from `old_queue` as long as there are some, and
offers them to `readv`. What was received goes into the buffers in order, and they go to the end
of `m_readbuf_queue`; when nothing was received they are freed.

* `cut`, `flatten_cut`: bytes cut into the pieces that the buffers hold;
* `Head`, `Round`: the state at the head of the loop and within a round;
* `Round.prepareVecs`, `fill_loaded`, `distribute_holds`: the steps of a round;
* `Received`: what any number of rounds do, and `Head.readRounds_data`: a round that receives bytes;
* `Head.readRounds_last`: the round that receives nothing;
* `Head.readRounds_spec`: the whole loop;
* `echoHandleRead_eq`: the handler around it, and `testSynSend_ok`: when the answer returns.
-/

namespace Hixo.Echo

open RingHeap Conn

/-! ## Pieces -/

/-- Cut bytes into `n` pieces of up to `width` bytes; the last ones may be empty. -/
def cut (width : ℕ) : ℕ → List UInt8 → List (List UInt8)
  | 0, _ => []
  | n + 1, bytes => bytes.take width :: cut width n (bytes.drop width)

@[simp]
theorem length_cut {width n : ℕ} {bytes : List UInt8} : (cut width n bytes).length = n := by
  induction n generalizing bytes with
  | zero => rfl
  | succ n ih => rw [cut, List.length_cons, ih]

/-- The pieces give the bytes again, when there is room for them. -/
theorem flatten_cut {width n : ℕ} {bytes : List UInt8} (hlen : bytes.length ≤ n * width) :
    (cut width n bytes).flatten = bytes := by
  induction n generalizing bytes with
  | zero =>
    rw [Nat.zero_mul] at hlen
    rw [List.eq_nil_of_length_eq_zero (Nat.le_zero.mp hlen)]
    rfl
  | succ n ih =>
    have hrest : (bytes.drop width).length ≤ n * width := by
      rw [List.length_drop, Nat.sub_le_iff_le_add, ← Nat.succ_mul]
      exact hlen
    rw [cut, List.flatten_cons, ih hrest, List.take_append_drop]

/-! ## The states of a round -/

/-- A connection at the head of the read loop. -/
structure Head (s : Conn) (read old : List ℕ) : Prop where
  rings : Base s.links read old
  owned : Owned s read old []
  /-- The buffers of `old_queue` hold nothing. -/
  blank : ∀ i ∈ old, s.Holds i []

/-- A connection within a round. -/
structure Round (s : Conn) (read old tmp : List ℕ) : Prop where
  rings : Rings s.links read old tmp
  owned : Owned s read old tmp
  /-- The buffers of `old_queue` hold nothing. -/
  blank : ∀ i ∈ old, s.Holds i []

variable {s s' : Conn} {read old tmp is : List ℕ} {i n : ℕ} {bytes : List UInt8}
  {pieces : List (List UInt8)}

/-- The buffers `is` hold the pieces, one each. -/
def HoldAll (s : Conn) (is : List ℕ) (pieces : List (List UInt8)) : Prop :=
  List.Forall₂ s.Holds is pieces

/-- A buffer that `readv` wrote: its block starts with `piece`, and `m_size` is still 0. -/
def Conn.Loaded (s : Conn) (i : ℕ) (piece : List UInt8) : Prop :=
  ∃ bytes, s.Has i 0 bytes ∧ piece <+: bytes

/-- Buffers that are not touched hold what they held. -/
theorem HoldAll.congr (h : HoldAll s is pieces) (hbufs : ∀ i ∈ is, s'.bufs i = s.bufs i) :
    HoldAll s' is pieces :=
  ((List.forall₂_and_left _ _).mpr ⟨hbufs, h⟩).imp fun _ _ hone => hone.2.congr hone.1

/-- Buffers that hold pieces are allocated. -/
theorem HoldAll.exists_has (h : HoldAll s is pieces) :
    ∀ i ∈ is, ∃ size bytes, s.Has i size bytes := by
  induction h with
  | nil => simp
  | cons hone _ ih =>
    intro i hi
    rcases List.mem_cons.mp hi with rfl | hi
    · obtain ⟨bytes, hhas, -⟩ := hone
      exact ⟨_, bytes, hhas⟩
    · exact ih i hi

/-- Buffers that are not touched stay as `readv` wrote them. -/
theorem loaded_congr (h : List.Forall₂ s.Loaded is pieces)
    (hbufs : ∀ i ∈ is, s'.bufs i = s.bufs i) : List.Forall₂ s'.Loaded is pieces := by
  refine ((List.forall₂_and_left _ _).mpr ⟨hbufs, h⟩).imp fun i piece hone => ?_
  obtain ⟨hbuf, bytes, hhas, hprefix⟩ := hone
  exact ⟨bytes, hhas.congr hbuf, hprefix⟩

/-- A round starts with an empty `tmp_queue` beside the queues at the head of the loop. -/
theorem Head.initTmp (h : Head s read old) :
    Round { s with links := s.links.init .tmpQueue } read old [] :=
  ⟨h.rings.initTmp, ⟨h.owned.nodup, h.owned.whole, h.owned.bound⟩, h.blank⟩

/-! ## The start of a call -/

/-- A connection between two calls: the buffers that earlier calls left may record any sizes. -/
structure Stored (s : Conn) (queue : List ℕ) : Prop where
  ring : s.links.IsRing .readbufQueue (nodes queue)
  owned : Owned s queue [] []

/-- A connection when the read handler is called. -/
structure Ready (s : Conn) (queue : List ℕ) : Prop extends Stored s queue where
  readable : s.readable = true

/-- The sizes of the buffers of `old_queue` are set to 0. -/
theorem clearSizes_spec (hring : s.links.IsRing .oldQueue (nodes is))
    (hwhole : ∀ i ∈ is, ∃ size bytes, s.Has i size bytes) (hlen : is.length ≤ s.count) :
    ∃ s', clearSizes s = .ok s' ∧ InPlace {j | j ∈ is} s s' ∧ ∀ i ∈ is, s'.Holds i [] := by
  let P : List ℕ → List ℕ → Conn → Prop := fun done _ t =>
    InPlace {j | j ∈ done} s t ∧ ∀ i ∈ done, t.Holds i []
  have hbody : ∀ done i todo t, is = done ++ i :: todo → i ∉ done → P done (i :: todo) t →
      (∃ t', clearBody (.bufNode i) t = .ok (.next t') ∧ P (done ++ [i]) todo t') ∨
        ∃ t', clearBody (.bufNode i) t = .ok (.stop t') ∧ P is [] t' := by
    rintro done i todo t rfl hi ⟨hin, hblank⟩
    obtain ⟨size, bytes, hhas⟩ := hwhole i (by simp)
    obtain ⟨t', hset, hhas', hin'⟩ := (hhas.congr (hin.bufs i hi)).setSize (n := 0)
    -- the loop has no `break`
    refine .inl ⟨t', ?_, ?_, fun j hj => ?_⟩
    · rw [clearBody, containerOf]
      exact Programs.bind_of_eq_ok hset
    · refine (hin.mono fun j hj => List.mem_append_left _ hj).trans (hin'.mono fun j hj => ?_)
      exact List.mem_append_right _ (List.mem_singleton.mpr hj)
    · by_cases hij : j = i
      · exact hij ▸ holds_nil.mpr ⟨bytes, hhas'⟩
      · have hj' : j ∈ done := by simpa [hij] using hj
        exact (hblank j hj').congr (hin'.bufs j hij)
  exact forEach_queue Conn.links Fault.endless hring (fun _ _ _ hP => hP.1.links) hbody
    (fun _ hP => hP) ⟨InPlace.refl _ _, by simp⟩ (Nat.lt_succ_of_le hlen)

/-- A call of the read handler up to its loop: all buffers are in `old_queue` and hold nothing. -/
theorem Stored.startRead (h : Stored s is) :
    ∃ s₁, startRead s = .ok s₁ ∧ Head s₁ [] is ∧ Ledger s s₁ is is [] ∧ Quiet s s₁ := by
  have hbase := base_start h.ring
  have howned : Owned { s with links := (s.links.init .oldQueue).merge .oldQueue .readbufQueue }
      [] is [] := h.owned.perm (by simp) rfl rfl
  have hlen : is.length ≤ s.count :=
    length_le_of_lt (by simpa using h.owned.nodup) fun i hi => h.owned.lt_count (by simpa using hi)
  have hempty := hbase.old.isEmpty_eq
  -- an empty queue skips the loop over the old buffers
  cases his : is with
  | nil =>
    subst his
    refine ⟨_, ?_, ⟨hbase, howned, by simp⟩, ledger_of_perm (.refl _) rfl rfl rfl,
      ⟨rfl, rfl, rfl, rfl, rfl⟩⟩
    rw [Echo.startRead]
    simp only [hempty]
    rfl
  | cons i rest =>
    rw [← his]
    obtain ⟨s₁, hclear, hin, hblank⟩ := clearSizes_spec hbase.old
      (fun i hi => howned.whole i (by simpa using hi)) hlen
    refine ⟨s₁, ?_, ⟨hin.links ▸ hbase, howned.inPlace hin ?_ fun i hi => ?_, hblank⟩,
      ledger_of_perm (.refl _) hin.count hin.destroyed hin.freed, ?_⟩
    · have hne : (nodes is).isEmpty = false := by rw [his]; rfl
      rw [Echo.startRead]
      simp only [hempty, hne, Bool.false_eq_true, if_false]
      exact hclear
    · exact fun i hi => howned.lt_count (by simpa using hi)
    · obtain ⟨bytes, hhas⟩ := holds_nil.mp (hblank i hi)
      exact ⟨0, bytes, hhas⟩
    · exact hin.toQuiet.of_setLinks

/-! ## Offering buffers -/

/-- The value of a capacity or a size as a `size_t`. -/
theorem iovLen_natCast {n : ℕ} (hn : n < 2 ^ 64) : iovLen n = n := by
  rw [iovLen]
  omega

/-- One more buffer is offered: it comes from `old_queue`, or it is a new one. -/
theorem Round.prepareVec (h : Round s read old tmp) :
    ∃ i s', prepareVec s = .ok ((i, bufSize), s') ∧ Round s' read old.tail (tmp ++ [i]) ∧
      s'.Holds i [] ∧ Touches {j | s.count ≤ j} s s' ∧
      Ledger s s' (read ++ old ++ tmp) (read ++ old.tail ++ (tmp ++ [i])) [] := by
  -- it is enough to say which buffer is taken, and how the state is before it is put into place
  have hput : ∀ {i : ℕ} {s₁ : Conn} {old' : List ℕ}, takeBuffer s = .ok (i, s₁) →
      Rings s₁.links read old' tmp → Owned s₁ read old' (tmp ++ [i]) →
      Echo.prepareVec s = .ok ((i, bufSize),
        { s₁ with links := s₁.links.addTail .tmpQueue (.bufNode i) }) ∧
        Rings (s₁.links.addTail .tmpQueue (.bufNode i)) read old' (tmp ++ [i]) := by
    intro i s₁ old' htake hrings howned
    obtain ⟨size, bytes, hhas⟩ := howned.whole i (by simp)
    have hmoved : { s₁ with links := s₁.links.addTail .tmpQueue (.bufNode i) }.Has i size bytes :=
      hhas.congr rfl
    obtain ⟨b, hbuf, -, harray⟩ := hmoved.buffer_eq
    obtain ⟨hr, ho, ht, hro, hrt, hot⟩ := nodup_queues.mp howned.nodup
    refine ⟨?_, hrings.addTmp (fun hi => hrt i hi (by simp)) (fun hi => hot i hi (by simp)) ?_ ?_⟩
    · rw [Echo.prepareVec, htake]
      simp only [bind, Except.bind, hbuf, harray]
      rw [iovLen_natCast (by decide)]
    · intro hi
      exact (List.nodup_append.mp ht).2.2 i hi i (by simp) rfl
    · have hnodup := howned.nodup
      rw [← List.append_assoc] at hnodup
      exact (List.nodup_append.mp hnodup).1
  cases old with
  | cons i old =>
    have hhead : s.links.getHead .oldQueue = some (.bufNode i) := h.rings.old.getHead_eq
    have htake : takeBuffer s = .ok (i, { s with links := s.links.del (.bufNode i) }) := by
      rw [takeBuffer, hhead]
      rfl
    have hperm : (read ++ old ++ (tmp ++ [i])).Perm (read ++ i :: old ++ tmp) := by
      simp only [List.append_assoc, List.cons_append]
      rw [← List.append_assoc old]
      exact (List.perm_append_singleton i (old ++ tmp)).append_left read
    obtain ⟨hrun, hrings⟩ := hput htake (h.rings.delOld h.owned.nodup)
      (h.owned.perm hperm rfl rfl)
    refine ⟨i, _, hrun, ⟨hrings, h.owned.perm hperm rfl rfl, fun j hj => ?_⟩, ?_, ?_, ?_⟩
    · exact (h.blank j (List.mem_cons_of_mem _ hj)).congr rfl
    · exact (h.blank i List.mem_cons_self).congr rfl
    · exact ⟨⟨rfl, rfl, rfl, rfl, rfl⟩, fun _ _ => rfl, rfl, rfl⟩
    · exact ledger_of_perm hperm rfl rfl rfl
  | nil =>
    have hhead : s.links.getHead .oldQueue = none := h.rings.old.getHead_eq
    have hfresh : ∀ k ∈ read ++ [] ++ tmp, k ≠ s.count := fun k hk =>
      Nat.ne_of_lt (h.owned.lt_count hk)
    have hnew : s.newBuffer.2.Has s.count 0 (List.replicate bufSize 0) :=
      createBuffer_has (by simp [newBuffer])
    have howned := h.owned.new (rfl : s.newBuffer.2.count = s.count + 1) hnew fun i hi => by
      simp [newBuffer, hi]
    have htake : takeBuffer s = .ok (s.count, s.newBuffer.2) := by
      rw [takeBuffer, hhead]
      rfl
    obtain ⟨hrun, hrings⟩ := hput htake
      (h.rings.initNode (fun hi => hfresh _ (by simp [hi]) rfl) (by simp)
        fun hi => hfresh _ (by simp [hi]) rfl) howned
    refine ⟨s.count, _, hrun, ⟨hrings, howned.perm (.refl _) rfl rfl, by simp⟩, ?_, ?_, ?_⟩
    · exact holds_nil.mpr ⟨_, hnew.congr rfl⟩
    · refine ⟨⟨rfl, rfl, rfl, rfl, rfl⟩, fun j hj => ?_, rfl, rfl⟩
      have hne : j ≠ s.count := fun heq => hj (by simp [heq])
      simp [newBuffer, hne]
    · refine ⟨Nat.le_succ _, rfl, rfl, ?_⟩
      have hone : s.count + 1 - s.count = 1 := Nat.add_sub_cancel_left ..
      simp [newBuffer, hone]

/-- The loop over the vectors offers `n` buffers, first those of `old_queue` and then new ones, and
each holds nothing. -/
theorem Round.prepareVecs (h : Round s read old tmp) (n : ℕ) :
    ∃ is s', prepareVecs n s = .ok (is.map fun i => (i, bufSize), s') ∧ is.length = n ∧
      Round s' read (old.drop n) (tmp ++ is) ∧ (∀ i ∈ is, s'.Holds i []) ∧
      Touches {j | s.count ≤ j} s s' ∧
      Ledger s s' (read ++ old ++ tmp) (read ++ old.drop n ++ (tmp ++ is)) [] := by
  -- a buffer from the old queue while there is one, a new one otherwise
  induction n generalizing s old tmp with
  | zero =>
    exact ⟨[], s, rfl, rfl, by simpa using h, by simp, Touches.refl _ _,
      ledger_of_perm (by simp) rfl rfl rfl⟩
  | succ n ih =>
    obtain ⟨i, s₁, hone, hround, hblank, htouch, hledger⟩ := h.prepareVec
    obtain ⟨is, s', hrest, hlen, hround', hblank', htouch', hledger'⟩ := ih hround
    have hcount := hledger.count
    refine ⟨i :: is, s', ?_, by simp [hlen], ?_, fun j hj => ?_, ?_, ?_⟩
    · rw [Echo.prepareVecs, Programs.bind_of_eq_ok hone]
      dsimp only
      rw [Programs.bind_of_eq_ok hrest]
      rfl
    · simpa [List.drop_tail, List.append_assoc] using hround'
    · rcases List.mem_cons.mp hj with rfl | hj
      · -- the first buffer exists already when the others are taken
        have hlt : j < s₁.count := hround.owned.lt_count (by simp)
        exact hblank.congr (htouch'.bufs j (Nat.not_le.mpr hlt))
      · exact hblank' j hj
    · exact htouch.trans (htouch'.mono fun j hj => hcount.trans hj)
    · simpa [List.drop_tail, List.append_assoc] using hledger.trans hledger'

/-! ## Receiving -/

/-- `readv` writes the bytes to the offered buffers, piece by piece. -/
theorem fill_loaded (bytes : List UInt8) (hnodup : is.Nodup) (hblank : ∀ i ∈ is, s.Holds i []) :
    ∃ s', fill (is.map fun i => (i, bufSize)) bytes s = .ok s' ∧ InPlace {j | j ∈ is} s s' ∧
      List.Forall₂ s'.Loaded is (cut bufSize is.length bytes) := by
  induction is generalizing s bytes with
  | nil => exact ⟨s, rfl, InPlace.refl _ _, .nil⟩
  | cons i is ih =>
    obtain ⟨hi, hnodup⟩ := List.nodup_cons.mp hnodup
    obtain ⟨block, hhas⟩ := holds_nil.mp (hblank i List.mem_cons_self)
    obtain ⟨s₁, hwrite, hhas₁, hin₁⟩ := hhas.writeBlock
      (List.length_take_le .. : (bytes.take bufSize).length ≤ bufSize)
    have hne : ∀ j ∈ is, j ≠ i := fun j hj heq => hi (heq ▸ hj)
    obtain ⟨s', hfill, hin', hloaded⟩ := ih (bytes.drop bufSize) hnodup
      fun j hj => (hblank j (List.mem_cons_of_mem _ hj)).congr (hin₁.bufs j (hne j hj))
    refine ⟨s', ?_, ?_, .cons ⟨_, hhas₁.congr (hin'.bufs i hi), List.prefix_append ..⟩ hloaded⟩
    · rw [List.map_cons, fill, Programs.bind_of_eq_ok hwrite, hfill]
    · refine (hin₁.mono fun j hj => ?_).trans (hin'.mono fun j hj => List.mem_cons_of_mem _ hj)
      exact List.mem_cons.mpr (.inl hj)

/-- A pass of the loop that sets the sizes, while there is something left: the buffer gets its
piece. -/
theorem Conn.Loaded.distributeBody (h : s.Loaded i (bytes.take bufSize)) (hbytes : bytes ≠ []) :
    ∃ s', distributeBody (.bufNode i) (bytes.length, s) =
        .ok (.next ((bytes.drop bufSize).length, s')) ∧
      s'.Holds i (bytes.take bufSize) ∧ InPlace {i} s s' := by
  obtain ⟨block, hhas, hprefix⟩ := h
  have hpos : (bytes.length : ℤ) ≠ 0 := by simpa using hbytes
  -- what is left fits into this buffer, or fills it to the end
  by_cases hlt : (bytes.length : ℤ) < bufSize
  · obtain ⟨s', hset, hhas', hin⟩ := hhas.setSize (n := bytes.length)
    have htake : bytes.take bufSize = bytes := List.take_of_length_le (by omega)
    have hdrop : (bytes.drop bufSize).length = 0 := by
      rw [List.length_drop]
      omega
    refine ⟨s', ?_, ⟨block, by rwa [htake], hprefix⟩, hin⟩
    rw [Echo.distributeBody, containerOf]
    simp only [bind, Except.bind, if_neg hpos, if_pos hlt, hset, hdrop]
    rfl
  · obtain ⟨s', hset, hhas', hin⟩ := hhas.setSize (n := bufSize)
    have hlen : (bytes.take bufSize).length = bufSize := by
      rw [List.length_take]
      omega
    have hdrop : ((bytes.drop bufSize).length : ℤ) = bytes.length - bufSize := by
      rw [List.length_drop]
      omega
    refine ⟨s', ?_, ⟨block, by rwa [hlen], hprefix⟩, hin⟩
    rw [Echo.distributeBody, containerOf]
    simp only [bind, Except.bind, if_neg hpos, if_neg hlt, hset, hdrop]

/-- Between two passes of the loop that sets the sizes: the buffers `done` have got their pieces,
and the bytes `left` are for the buffers `rest`. -/
structure Distributing (s : Conn) (bytes : List UInt8) (done rest : List ℕ) (left : List UInt8)
    (t : ℤ × Conn) : Prop where
  recved : t.1 = left.length
  inPlace : InPlace {j | j ∈ done ++ rest} s t.2
  loaded : List.Forall₂ t.2.Loaded rest (cut bufSize rest.length left)
  holds : ∃ pieces, HoldAll t.2 done pieces ∧
    pieces ++ cut bufSize rest.length left = cut bufSize (done ++ rest).length bytes

/-- Buffers that got no bytes hold nothing, without a pass of the loop. -/
theorem holdAll_of_loaded_nil {rest : List ℕ}
    (h : List.Forall₂ s.Loaded rest (cut bufSize rest.length [])) :
    HoldAll s rest (cut bufSize rest.length []) := by
  induction rest with
  | nil => exact .nil
  | cons i rest ih =>
    obtain ⟨hone, hrest⟩ := List.forall₂_cons.mp h
    exact .cons hone (ih hrest)

/-- When nothing is left, all buffers have got their pieces. -/
theorem Distributing.finish {done rest : List ℕ} {t : ℤ × Conn}
    (h : Distributing s bytes done rest [] t) :
    HoldAll t.2 (done ++ rest) (cut bufSize (done ++ rest).length bytes) := by
  obtain ⟨pieces, hhold, hpieces⟩ := h.holds
  rw [← hpieces]
  exact List.rel_append hhold (holdAll_of_loaded_nil h.loaded)

/-- A pass of the loop that sets the sizes gives the next buffer its share of what is left. -/
theorem Distributing.pass {done rest : List ℕ} {left : List UInt8} {t : ℤ × Conn}
    (h : Distributing s bytes done (i :: rest) left t) (hnodup : (done ++ i :: rest).Nodup)
    (hleft : left ≠ []) :
    ∃ t', Echo.distributeBody (.bufNode i) t = .ok (.next t') ∧
      Distributing s bytes (done ++ [i]) rest (left.drop bufSize) t' := by
  obtain ⟨k, t⟩ := t
  obtain rfl : k = left.length := h.recved
  obtain ⟨hone, hrest⟩ := List.forall₂_cons.mp h.loaded
  obtain ⟨t', hbody, hhold, hin⟩ := hone.distributeBody hleft
  have hout : ∀ j ∈ done ++ rest, j ≠ i := by
    rintro j hj rfl
    exact (List.nodup_middle.mp hnodup |> List.nodup_cons.mp).1 hj
  obtain ⟨pieces, hdone, hpieces⟩ := h.holds
  have hsame : ∀ j ∈ done ++ rest, t'.bufs j = t.bufs j := fun j hj => hin.bufs j (hout j hj)
  refine ⟨_, hbody, rfl, ?_, ?_, pieces ++ [left.take bufSize], ?_, ?_⟩
  · rw [List.append_assoc, List.singleton_append]
    refine h.inPlace.trans (hin.mono fun j hj => ?_)
    obtain rfl : j = i := hj
    simp
  · exact loaded_congr hrest fun j hj => hsame j (List.mem_append_right _ hj)
  · exact List.rel_append (hdone.congr fun j hj => hsame j (List.mem_append_left _ hj))
      (.cons hhold .nil)
  · rw [List.append_assoc, List.append_assoc, List.singleton_append, List.singleton_append,
      ← hpieces]
    rfl

/-- The sizes are set in accordance with what was received. -/
theorem distribute_holds (hring : s.links.IsRing .tmpQueue (nodes is))
    (hlen : is.length ≤ s.count)
    (hloaded : List.Forall₂ s.Loaded is (cut bufSize is.length bytes)) :
    ∃ r s', distribute bytes.length s = .ok (r, s') ∧ InPlace {j | j ∈ is} s s' ∧
      HoldAll s' is (cut bufSize is.length bytes) := by
  have hnodup : is.Nodup := nodup_of_isRing hring
  -- `P` holds between the passes, and `Q` when the loop is over
  let P : List ℕ → List ℕ → ℤ × Conn → Prop := fun done todo t =>
    done ++ todo = is ∧ ∃ left, Distributing s bytes done todo left t
  let Q : ℤ × Conn → Prop := fun t =>
    InPlace {j | j ∈ is} s t.2 ∧ HoldAll t.2 is (cut bufSize is.length bytes)
  have hstart : P [] is (bytes.length, s) :=
    ⟨rfl, bytes, rfl, InPlace.refl _ _, hloaded, [], .nil, rfl⟩
  have hlinks : ∀ done todo t, P done todo t → t.2.links = s.links :=
    fun _ _ _ ⟨_, _, hdist⟩ => hdist.inPlace.links
  have hbody : ∀ done i todo t, is = done ++ i :: todo → i ∉ done → P done (i :: todo) t →
      (∃ t', Echo.distributeBody (.bufNode i) t = .ok (.next t') ∧ P (done ++ [i]) todo t') ∨
        ∃ t', Echo.distributeBody (.bufNode i) t = .ok (.stop t') ∧ Q t' := by
    rintro done i todo t rfl - ⟨-, left, hdist⟩
    by_cases hleft : left = []
    · -- nothing is left: the loop is left by `break`
      subst hleft
      obtain ⟨k, t⟩ := t
      obtain rfl : k = 0 := hdist.recved
      exact .inr ⟨(0, t), rfl, hdist.inPlace, hdist.finish⟩
    · obtain ⟨t', hpass, hdist'⟩ := hdist.pass hnodup hleft
      exact .inl ⟨t', hpass, by simp, left.drop bufSize, hdist'⟩
  -- all buffers were visited: what they hold is the whole cut
  have hend : ∀ t, P is [] t → Q t := by
    rintro t ⟨-, left, hdist⟩
    obtain ⟨pieces, hhold, hpieces⟩ := hdist.holds
    refine ⟨by simpa using hdist.inPlace, ?_⟩
    rw [List.append_nil] at hpieces
    rw [← hpieces]
    simpa [cut] using hhold
  obtain ⟨⟨r, s'⟩, hrun, hin, hhold⟩ := forEach_queue (fun t : ℤ × Conn => t.2.links)
    Fault.endless hring hlinks hbody hend hstart (Nat.lt_succ_of_le hlen)
  exact ⟨r, s', hrun, hin, hhold⟩

/-! ## Several rounds -/

/-- From `s` to `t`, both at the head of the loop, the buffers `is` with these pieces were put at
the end of `m_readbuf_queue`. -/
structure Received (s t : Conn) (read old is old' : List ℕ) (pieces : List (List UInt8)) : Prop
    extends Quiet s t where
  head : Head t (read ++ is) old'
  holds : HoldAll t is pieces
  same : ∀ i ∈ read, t.bufs i = s.bufs i
  ledger : ∃ gone, Ledger s t (read ++ old) (read ++ is ++ old') gone

theorem received_refl (h : Head s read old) : Received s s read old [] old [] where
  toQuiet := Quiet.refl s
  head := by simpa using h
  holds := .nil
  same _ _ := rfl
  ledger := ⟨[], ledger_of_perm (by simp) rfl rfl rfl⟩

theorem Received.trans {s'' : Conn} {is' old' old'' : List ℕ} {pieces' : List (List UInt8)}
    (h : Received s s' read old is old' pieces)
    (h' : Received s' s'' (read ++ is) old' is' old'' pieces') :
    Received s s'' read old (is ++ is') old'' (pieces ++ pieces') where
  toQuiet := h.toQuiet.trans h'.toQuiet
  head := by
    rw [← List.append_assoc]
    exact h'.head
  holds := List.rel_append
    (h.holds.congr fun i hi => h'.same i (List.mem_append_right _ hi)) h'.holds
  same i hi := (h'.same i (List.mem_append_left _ hi)).trans (h.same i hi)
  ledger := by
    obtain ⟨gone, hledger⟩ := h.ledger
    obtain ⟨gone', hledger'⟩ := h'.ledger
    rw [← List.append_assoc]
    exact ⟨gone' ++ gone, hledger.trans hledger'⟩

variable (results : List ReadvResult) {last : ReadvResult}

/-- A socket that is not readable is not read. -/
theorem readRounds_of_not_readable (hreadable : s.readable = false) :
    readRounds results s = .ok (.done s) := by
  cases results with
  | nil => rw [readRounds, if_neg (by simp [hreadable])]
  | cons result results => rw [readRounds, if_pos (by simp [hreadable])]

/-- A round that receives bytes puts them, cut into pieces, at the end of `m_readbuf_queue`. -/
theorem Head.readRounds_data (h : Head s read old) (hreadable : s.readable = true)
    (hbytes : bytes ≠ []) :
    ∃ is s', readRounds (.data bytes :: results) s = readRounds results s' ∧
      Received s s' read old is (old.drop nbufs) (cut bufSize nbufs bytes) := by
  obtain ⟨is, s₁, hprep, hlen, hround, hblank, htouch, hledger⟩ := h.initTmp.prepareVecs nbufs
  rw [List.nil_append] at hround hledger
  obtain ⟨-, hold, hnodup, hro, hrt, hot⟩ := nodup_queues.mp hround.owned.nodup
  obtain ⟨s₂, hfill, hin₂, hloaded⟩ := fill_loaded bytes hnodup hblank
  have hlt : ∀ i ∈ is, i < s₁.count := fun i hi => hround.owned.lt_count (by simp [hi])
  obtain ⟨r, s₃, hdist, hin₃, hhold⟩ := distribute_holds (hin₂.links ▸ hround.rings.tmp)
    (hin₂.count ▸ length_le_of_lt hnodup hlt) hloaded
  have hin := hin₂.trans hin₃
  have howned := hround.owned.inPlace hin hlt hhold.exists_has
  rw [hlen] at hhold
  -- the offered buffers move from behind `old_queue` to behind `m_readbuf_queue`
  have hmoved : (read ++ is ++ old.drop nbufs).Perm (read ++ old.drop nbufs ++ is) := by
    rw [List.append_assoc, List.append_assoc]
    exact List.perm_append_comm.append_left read
  refine ⟨is, { s₃ with links := s₃.links.merge .readbufQueue .tmpQueue }, ?_, ⟨?_, ⟨?_, ?_, ?_⟩,
    hhold.congr fun _ _ => rfl, fun i hi => ?_, [], ?_⟩⟩
  · -- the round runs through, since something was received
    obtain ⟨b, bs, rfl⟩ := List.exists_cons_of_ne_nil hbytes
    rw [readRounds, if_neg (by simp [hreadable]), Programs.bind_of_eq_ok hprep]
    dsimp only
    rw [Programs.bind_of_eq_ok hfill, Programs.bind_of_eq_ok hdist]
  · exact ((htouch.toQuiet.trans hin.toQuiet).setLinks _).of_setLinks
  · rw [hin.links]
    exact (hround.rings.mergeTmp hround.owned.nodup).toBase
  · refine howned.perm ?_ rfl rfl
    rw [List.append_nil]
    exact hmoved
  · -- the buffers of `old_queue` that were not offered are still blank
    exact fun i hi => (hround.blank i hi).congr (hin.bufs i fun his => hot i hi his)
  · -- the buffers read before are older than this round
    have hcount : i < s.count := h.owned.lt_count (by simp [hi])
    exact (hin.bufs i fun his => hrt i hi his).trans (htouch.bufs i (Nat.not_le.mpr hcount))
  · -- the account of the allocations
    rw [List.append_nil] at hledger
    have hmerge : Ledger s₁ { s₃ with links := s₃.links.merge .readbufQueue .tmpQueue }
        (read ++ old.drop nbufs ++ is) (read ++ is ++ old.drop nbufs) [] :=
      ledger_of_perm hmoved hin.count hin.destroyed hin.freed
    exact (hledger.trans hmerge).congr rfl rfl rfl

/-- Any number of rounds that receive bytes: `m_readbuf_queue` gets the pieces of all of them. -/
theorem Head.readRounds_run {chunks : List (List UInt8)} (h : Head s read old)
    (hreadable : s.readable = true) (hchunks : ∀ bytes ∈ chunks, bytes ≠ []) :
    ∃ is old' s', readRounds (chunks.map .data ++ results) s = readRounds results s' ∧
      Received s s' read old is old' (chunks.flatMap (cut bufSize nbufs)) := by
  induction chunks generalizing s read old with
  | nil => exact ⟨[], old, s, rfl, received_refl h⟩
  | cons bytes chunks ih =>
    obtain ⟨is₁, s₁, hrun₁, h₁⟩ := h.readRounds_data (chunks.map .data ++ results) hreadable
      (hchunks bytes List.mem_cons_self)
    obtain ⟨is₂, old', s', hrun₂, h₂⟩ := ih h₁.head (h₁.readable.trans hreadable)
      fun bs hbs => hchunks bs (List.mem_cons_of_mem _ hbs)
    exact ⟨is₁ ++ is₂, old', s', hrun₁.trans hrun₂, h₁.trans h₂⟩

/-! ## The last round -/

/-- The results of `readv` after which the loop is left. -/
def ReadvResult.isLast : ReadvResult → Bool
  | .data bytes => bytes.isEmpty
  | .error _ => true

/-- How the loop is left after the last result. -/
def leave (s : Conn) : ReadvResult → LoopExit
  | .data _ | .error .econnreset => .done s.hixoSocketClose
  | .error _ => .answer { s with readable := false }

/-- After an error other than `ECONNRESET` the answer is sent. -/
theorem leave_answer {errno : Errno} (herrno : errno ≠ .econnreset) :
    leave s (.error errno) = .answer { s with readable := false } := by
  cases errno with
  | econnreset => exact absurd rfl herrno
  | eagain => rfl
  | other code => rfl

/-- In the round that receives nothing the offered buffers are freed, and the other ones stay. -/
theorem Head.prepareVecs_release (h : Head s read old) :
    ∃ vecs s₁ s', Echo.prepareVecs nbufs { s with links := s.links.init .tmpQueue } =
        .ok (vecs, s₁) ∧ release .tmpQueue s₁ = .ok s' ∧
      Received s s' read old [] (old.drop nbufs) [] := by
  obtain ⟨is, s₁, hprep, -, hround, hblank, htouch, hledger⟩ := h.initTmp.prepareVecs nbufs
  rw [List.nil_append] at hround hledger
  obtain ⟨-, -, hnodup, hro, hrt, hot⟩ := nodup_queues.mp hround.owned.nodup
  have hlt : ∀ i ∈ is, i < s₁.count := fun i hi => hround.owned.lt_count (by simp [hi])
  obtain ⟨s', hrel, hreleased⟩ := release_spec hround.rings.tmp
    (fun i hi => hround.owned.whole i (by simp [hi])) (length_le_of_lt hnodup hlt)
  have hquiet := htouch.toQuiet.trans hreleased.toQuiet
  refine ⟨_, s₁, s', hprep, hrel,
    ⟨hquiet.of_setLinks, ?_, .nil, fun i hi => ?_, is.reverse, ?_⟩⟩
  · -- the rings of the two queues that stay
    rw [List.append_nil]
    refine ⟨?_, ?_, fun i hi => ?_⟩
    · refine ⟨hround.rings.read.congr fun c hc => hreleased.same c ?_,
        hround.rings.old.congr fun c hc => hreleased.same c ?_⟩
      · simpa using notMem_queue (b := .tmpQueue) (by simp) rfl rfl hrt c hc
      · simpa using notMem_queue (b := .tmpQueue) (by simp) rfl rfl hot c hc
    · refine ⟨by simpa using (List.nodup_append.mp hround.owned.nodup).1, fun i hi => ?_,
        fun i hi => ?_⟩
      · -- a buffer that stays is not one of those that were offered
        have hout : i ∉ is := by
          rcases List.mem_append.mp (by simpa using hi) with hi | hi
          · exact hrt i hi
          · exact hot i hi
        obtain ⟨size, bytes, hhas⟩ := hround.owned.whole i
          (List.mem_append_left _ (by simpa using hi))
        exact ⟨size, bytes, hhas.congr (hreleased.bufs i hout)⟩
      · rw [hreleased.count] at hi
        rw [hreleased.bufs i fun his => Nat.not_lt.mpr hi (hlt i his)]
        exact hround.owned.bound i hi
    · exact (hround.blank i hi).congr (hreleased.bufs i (hot i hi))
  · -- the buffers read before are older than this round
    have hcount : i < s.count := h.owned.lt_count (by simp [hi])
    exact (hreleased.bufs i (hrt i hi)).trans (htouch.bufs i (Nat.not_le.mpr hcount))
  · -- the account: what was offered in this round is destroyed and freed
    have hgone : Ledger s₁ s' (read ++ old.drop nbufs ++ is) (read ++ old.drop nbufs)
        is.reverse := by
      refine ⟨hreleased.count.ge, hreleased.destroyed, hreleased.freed, ?_⟩
      rw [hreleased.count, Nat.sub_self, List.range'_zero, List.append_nil]
      exact (List.reverse_perm is).append_left _
    have hall : Ledger s s' _ _ _ := (hledger.trans hgone).congr rfl rfl rfl
    simpa using hall

/-- In the last round the offered buffers are freed, and the loop is left as the result says. -/
theorem Head.readRounds_last (h : Head s read old) (hreadable : s.readable = true)
    (hlast : last.isLast = true) :
    ∃ s', readRounds (last :: results) s = .ok (leave s' last) ∧
      Received s s' read old [] (old.drop nbufs) [] := by
  obtain ⟨vecs, s₁, s', hprep, hrel, hreceived⟩ := h.prepareVecs_release
  refine ⟨s', ?_, hreceived⟩
  rw [readRounds, if_neg (by simp [hreadable]), Programs.bind_of_eq_ok hprep]
  cases last with
  | data bytes =>
    obtain rfl : bytes = [] := List.isEmpty_iff.mp hlast
    exact Programs.bind_of_eq_ok hrel
  | error errno => cases errno <;> exact Programs.bind_of_eq_ok hrel

/-! ## All rounds -/

variable {results}

/-- What the calls of `readv` give until one of them ends the loop. -/
def received : List ReadvResult → List (List UInt8)
  | .data (b :: bytes) :: results => (b :: bytes) :: received results
  | _ => []

/-- The results up to the last round, and the others. -/
theorem exists_received (results : List ReadvResult) :
    ∃ rest, results = (received results).map .data ++ rest ∧
      (∀ bytes ∈ received results, bytes ≠ []) ∧ ∀ last ∈ rest.head?, last.isLast = true := by
  induction results with
  | nil => exact ⟨[], rfl, by simp [received], by simp⟩
  | cons result results ih =>
    cases result with
    | error errno =>
      exact ⟨.error errno :: results, rfl, by simp [received], by simp [ReadvResult.isLast]⟩
    | data bytes =>
      cases bytes with
      | nil => exact ⟨.data [] :: results, rfl, by simp [received], by simp [ReadvResult.isLast]⟩
      | cons b bytes =>
        obtain ⟨rest, heq, hne, hrest⟩ := ih
        refine ⟨rest, ?_, ?_, hrest⟩
        · rw [received, List.map_cons, List.cons_append, ← heq]
        · simpa [received] using hne

/-- The loop is left at the last result, with the pieces of all that was received. -/
theorem Head.readRounds_spec (h : Head s read old) (hreadable : s.readable = true)
    (hends : ∃ result ∈ results, result.isLast = true) :
    ∃ last rest is old' t, results = (received results).map .data ++ last :: rest ∧
      last.isLast = true ∧ readRounds results s = .ok (leave t last) ∧
      Received s t read old is old' ((received results).flatMap (cut bufSize nbufs)) := by
  obtain ⟨rest, heq, hne, hrest⟩ := exists_received results
  cases rest with
  | nil =>
    -- no result is the last one
    obtain ⟨result, hmem, hlast⟩ := hends
    rw [heq, List.append_nil] at hmem
    obtain ⟨bytes, hbytes, rfl⟩ := List.mem_map.mp hmem
    exact absurd (List.isEmpty_iff.mp hlast) (hne bytes hbytes)
  | cons last rest =>
    have hlast : last.isLast = true := hrest last rfl
    obtain ⟨is, old', s₁, hrun, h₁⟩ := h.readRounds_run (last :: rest) hreadable hne
    obtain ⟨t, hleave, h₂⟩ := h₁.head.readRounds_last rest
      (h₁.readable.trans hreadable) hlast
    rw [← heq] at hrun
    refine ⟨last, rest, is, old'.drop nbufs, t, heq, hlast, hrun.trans hleave, ?_⟩
    simpa using h₁.trans h₂

/-- On a readable connection with its buffers, the loop is left at the last result, with the pieces
of all that was received in `m_readbuf_queue`. -/
theorem Ready.readRounds_spec {queue : List ℕ} (h : Ready s queue)
    (hends : ∃ result ∈ results, result.isLast = true) :
    ∃ s₁ last rest is old t, Echo.startRead s = .ok s₁ ∧
      results = (received results).map .data ++ last :: rest ∧ last.isLast = true ∧
      readRounds results s₁ = .ok (leave t last) ∧
      Received s t [] queue is old ((received results).flatMap (cut bufSize nbufs)) := by
  obtain ⟨s₁, hstart, hhead, hledger, hquiet⟩ := h.startRead
  obtain ⟨last, rest, is, old, t, heq, hlast, hrun, hreceived⟩ :=
    hhead.readRounds_spec (hquiet.readable.trans h.readable) hends
  obtain ⟨gone, hledger'⟩ := hreceived.ledger
  refine ⟨s₁, last, rest, is, old, t, hstart, heq, hlast, hrun, ?_⟩
  exact ⟨hquiet.trans hreceived.toQuiet, hreceived.head, hreceived.holds, by simp,
    gone ++ [], hledger.trans hledger'⟩

/-- Without a last result the loop is not left. -/
theorem Head.readRounds_waiting (h : Head s read old) (hreadable : s.readable = true)
    (hno : ∀ result ∈ results, result.isLast = false) : readRounds results s = .error .waiting := by
  obtain ⟨rest, heq, hne, hrest⟩ := exists_received results
  cases rest with
  | nil =>
    obtain ⟨is, old', s₁, hrun, h₁⟩ := h.readRounds_run [] hreadable hne
    rw [← heq] at hrun
    rw [hrun, readRounds, if_pos (h₁.readable.trans hreadable)]
  | cons last rest =>
    have hlast := hno last (heq ▸ by simp)
    exact absurd (hrest last rfl) (by simp [hlast])

/-! ## The whole handler -/

variable {env : Env} {s₁ : Conn} {exit : LoopExit}

/-- What stands between the loop of `echo_handle_read` and its end: the answer, when the loop asks
for one. -/
def LoopExit.answered (env : Env) : LoopExit → Except Fault Conn
  | .done s => .ok s
  | .answer s => testSynSend env s

/-- Once the loop is left, `echo_handle_read` answers if it was asked to, and puts the rest of
`old_queue` back. It returns when the answer does. -/
theorem echoHandleRead_eq (hstart : startRead s = .ok s₁)
    (hrun : readRounds results s₁ = .ok exit) :
    echoHandleRead env results s = (exit.answered env).map finishRead := by
  rw [echoHandleRead, Programs.bind_of_eq_ok hstart, readLoop, Programs.bind_of_eq_ok hrun]
  cases exit with
  | done t => rfl
  | answer t =>
    show (testSynSend env t >>= fun s' => .ok (finishRead s')) =
      (testSynSend env t).map finishRead
    cases testSynSend env t <;> rfl

/-- Without a buffer in the queue `test_syn_send` takes the head of the queue for one. -/
theorem testSynSend_nil (hring : s.links.IsRing .readbufQueue []) :
    testSynSend env s = .error .notBuffer := by
  have hnext : s.links.next .readbufQueue = .readbufQueue := hring.next_eq_self
  rw [testSynSend, hnext]
  rfl

/-- A sending loop in which every call of `writev` fails or takes something comes to its end. -/
theorem sendLoop_ok {out : List UInt8} {fuel sentSize : ℕ}
    (hmoves : ∀ k n, 0 < n → env.writev k n ≠ .accepted 0) (hfuel : out.length - sentSize < fuel) :
    ∃ s', sendLoop env out fuel sentSize s = .ok s' := by
  induction fuel generalizing sentSize s with
  | zero => omega
  | succ fuel ih =>
    rw [sendLoop]
    split
    · next hmore =>
      cases hwritev : env.writev s.writes out.length with
      | error errno => exact ⟨_, rfl⟩
      | accepted n =>
        have hn : n ≠ 0 := fun hn => hmoves _ _ (by omega) (hn ▸ hwritev)
        exact ih (by omega)
    · exact ⟨s, rfl⟩

/-- When every call of `writev` fails or takes something, and the first buffer of the queue can be
read, `test_syn_send` returns and asks for closing. -/
theorem testSynSend_ok {i : ℕ} {is : List ℕ} {piece : List UInt8}
    (hmoves : ∀ k n, 0 < n → env.writev k n ≠ .accepted 0)
    (hring : s.links.IsRing .readbufQueue (nodes (i :: is))) (hhold : s.Holds i piece) :
    ∃ s', testSynSend env s = .ok s' ∧ s'.close = true := by
  obtain ⟨bytes, hhas, -⟩ := id hhold
  obtain ⟨b, hbuf, hsize, -⟩ := hhas.buffer_eq
  have hlen : iovLen b.size = piece.length := by
    rw [hsize, iovLen_natCast (Nat.lt_of_le_of_lt hhold.length_le (by decide))]
  have hnext : s.links.next .readbufQueue = .bufNode i := hring.next_eq
  obtain ⟨s₁, hsend⟩ : ∃ s₁, sendLoop env (dataHeadSend b.size ++ piece)
      ((dataHeadSend b.size ++ piece).length + 1) 0 s = .ok s₁ := sendLoop_ok hmoves (by omega)
  refine ⟨s₁.hixoSocketShutdown.hixoSocketClose, ?_, rfl⟩
  rw [testSynSend, hnext, containerOf, Programs.ok_bind, Programs.bind_of_eq_ok hbuf, hlen,
    Programs.bind_of_eq_ok hhold.readBlock]
  exact Programs.bind_of_eq_ok hsend

end Hixo.Echo
