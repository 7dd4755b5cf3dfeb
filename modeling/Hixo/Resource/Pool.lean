import Hixo.Resource.Defs

/-!
# The invariant of a pool

The free list runs through the elements that are not in use, and each of these elements is
untouched. What the users of the pool store in the other elements, over the link of the free list
too, is of no consequence.

* `Layout`: where the elements of a pool lie;
* `relink`: what adding a node does to the free list;
* `Holds`: the invariant of a pool with the free elements `free` and the elements `live` in use;
* `Holds.allocResource`, `Holds.freeResource`, `Holds.store`: what the operations do;
* `holds_createResource`: a new pool.
-/

namespace Hixo

namespace Resource

open LinkHeap Pool

/-! ## Where the elements lie -/

/-- A pool of `count` elements of `size` bytes from address `start` on, whose nodes lie `offset`
bytes into them; `rsc` is the address of the `hixo_resource_t`. -/
structure Layout where
  rsc : ℕ
  start : ℕ
  count : ℕ
  size : ℕ
  offset : ℕ
  /-- The bits of a pointer to a `hixo_resource_t`. -/
  aligned : rsc % 2 = 0
  rsc_lt : rsc < 2 ^ 64
  /-- The memory is not at `NULL`. -/
  start_pos : 0 < start
  fits : start + count * size ≤ 2 ^ 64
  /-- The node does not overlap the first word. -/
  le_offset : 8 ≤ offset
  /-- The node lies inside of its element. -/
  offset_le : offset + 8 ≤ size

namespace Layout

variable {L : Layout} {i j : ℕ}

/-- The address of element `i`. -/
def elem (L : Layout) (i : ℕ) : ℕ := L.start + i * L.size

/-- The address of the node of element `i`. -/
def node (L : Layout) (i : ℕ) : ℕ := L.elem i + L.offset

/-- The cell of the node of element `i`. -/
def cell (L : Layout) (i : ℕ) : Link := some (L.node i)

theorem size_pos (L : Layout) : 0 < L.size :=
  lt_of_lt_of_le (by omega) L.offset_le

/-- An element ends before the next one begins. -/
theorem elem_add_size_le (L : Layout) (h : i < j) : L.elem i + L.size ≤ L.elem j := by
  have hmul : (i + 1) * L.size ≤ j * L.size := Nat.mul_le_mul_right _ h
  rw [Nat.add_mul, Nat.one_mul] at hmul
  unfold elem
  omega

theorem elem_add_size_le_stop (L : Layout) (h : i < L.count) :
    L.elem i + L.size ≤ L.start + L.count * L.size :=
  L.elem_add_size_le h

theorem elem_inj (h : L.elem i = L.elem j) : i = j := by
  have hpos := L.size_pos
  rcases lt_trichotomy i j with hlt | heq | hlt
  · have hle := L.elem_add_size_le hlt
    omega
  · exact heq
  · have hle := L.elem_add_size_le hlt
    omega

theorem node_pos (L : Layout) (i : ℕ) : 0 < L.node i :=
  Nat.add_pos_right _ (lt_of_lt_of_le (by omega) L.le_offset)

/-- The address of the node of an element fits into a pointer. -/
theorem node_lt (L : Layout) (h : i < L.count) : L.node i < 2 ^ 64 := by
  have hstop := L.elem_add_size_le_stop h
  have hfits := L.fits
  have hinside := L.offset_le
  unfold node
  omega

/-- An access inside of element `j` is not one inside of another element `i`. -/
theorem disjoint (L : Layout) (h : i ≠ j) {a b n k : ℕ} (ha : L.elem i ≤ a)
    (han : a + n ≤ L.elem i + L.size) (hb : L.elem j ≤ b) (hbk : b + k ≤ L.elem j + L.size) :
    a + n ≤ b ∨ b + k ≤ a := by
  rcases lt_or_gt_of_ne h with hlt | hlt
  · have hle := L.elem_add_size_le hlt
    omega
  · have hle := L.elem_add_size_le hlt
    omega

/-- The nodes of different elements are apart. -/
theorem node_disjoint_node (L : Layout) (h : i ≠ j) :
    L.node i + 8 ≤ L.node j ∨ L.node j + 8 ≤ L.node i := by
  have hinside := L.offset_le
  refine L.disjoint h ?_ ?_ ?_ ?_ <;>
  · unfold node
    omega

/-- A first word and a node are apart, also those of one element. -/
theorem elem_disjoint_node (L : Layout) (i j : ℕ) :
    L.elem i + 8 ≤ L.node j ∨ L.node j + 8 ≤ L.elem i := by
  have hle := L.le_offset
  have hinside := L.offset_le
  by_cases hij : i = j
  · subst hij
    unfold node
    omega
  · refine L.disjoint hij le_rfl (by omega) ?_ ?_ <;>
    · unfold node
      omega

/-- The first words of different elements are apart. -/
theorem elem_disjoint_elem (L : Layout) (h : i ≠ j) :
    L.elem i + 8 ≤ L.elem j ∨ L.elem j + 8 ≤ L.elem i := by
  have hle := L.le_offset
  have hinside := L.offset_le
  exact L.disjoint h le_rfl (by omega) le_rfl (by omega)

end Layout

/-- The field `m_offset` holds an offset that fits into an `int`. -/
theorem Layout.toInt_offset {L : Layout} (h : L.offset < 2 ^ 31) :
    (BitVec.ofNat 32 L.offset).toInt = L.offset := by
  have htoNat : (BitVec.ofNat 32 L.offset).toNat = L.offset := by
    rw [BitVec.toNat_ofNat]
    omega
  rw [BitVec.toInt_eq_toNat_of_lt (by omega), htoNat]

/-- Setting the lowest bit of an even number adds one. -/
theorem or_one_of_even {n : ℕ} (h : n % 2 = 0) : n ||| 1 = n + 1 := by
  have hhalf : (n + 1) / 2 = n / 2 := by omega
  refine Nat.eq_of_testBit_eq fun i => ?_
  rw [Nat.testBit_or]
  cases i with
  | zero =>
    have hodd : (n + 1) % 2 = 1 := by omega
    simp [hodd]
  | succ i => simp [Nat.testBit_succ, hhalf]

/-! ## Words -/

namespace Pool

variable {p p' : Pool} {a b v : ℕ}

@[simp]
theorem word_setWord_self (p : Pool) (hv : v < 2 ^ 64) : (p.setWord a v).word a = v := by
  have hread := ByteMem.readLE_writeLE_self p.mem a 8 v
  exact hread.trans (Nat.mod_eq_of_lt hv)

theorem word_setWord (p : Pool) (v : ℕ) (h : a + 8 ≤ b ∨ b + 8 ≤ a) :
    (p.setWord b v).word a = p.word a :=
  ByteMem.readLE_writeLE_of_disjoint p.mem v h

/-- The head of the free list is no word of the memory. -/
theorem word_save_none (p : Pool) (a v : ℕ) : (p.save none v).word a = p.word a := rfl

theorem word_save_some (p : Pool) (v : ℕ) (h : a + 8 ≤ b ∨ b + 8 ≤ a) :
    (p.save (some b) v).word a = p.word a :=
  p.word_setWord v h

/-- A store through a `list_t **` changes no other field. -/
theorem save_fields (p : Pool) (c : Link) (v : ℕ) :
    (p.save c v).start = p.start ∧ (p.save c v).stop = p.stop ∧
      (p.save c v).offset = p.offset ∧ (p.save c v).used = p.used := by
  cases c <;> exact ⟨rfl, rfl, rfl, rfl⟩

/-- The links of the free list depend on what the cells hold. -/
theorem links_congr {c c' : Link} (h : p'.load c' = p.load c) : p'.links c' = p.links c := by
  unfold links
  rw [h]

theorem links_eq_some {c : Link} {a : ℕ} (h : p.links c = some (some a)) :
    p.load c = a ∧ a ≠ 0 := by
  unfold links at h
  split at h
  · cases h
  next hne =>
    obtain rfl : p.load c = a := Option.some.inj (Option.some.inj h)
    exact ⟨rfl, hne⟩

theorem load_eq_zero {c : Link} (h : p.links c = none) : p.load c = 0 := by
  unfold links at h
  split at h
  · assumption
  · cases h

end Pool

/-! ## The free list -/

section FreeList

variable {L : Layout} {p p' : Pool} {free : List ℕ} {i : ℕ}

/-- The free list depends on its head and on the nodes of the free elements. -/
theorem list_congr (h : p.links.IsList none (free.map L.cell)) (hhead : p'.freeList = p.freeList)
    (hnodes : ∀ i ∈ free, p'.word (L.node i) = p.word (L.node i)) :
    p'.links.IsList none (free.map L.cell) := by
  refine h.congr fun c hc => links_congr ?_
  rcases List.mem_cons.mp hc with rfl | hc
  · exact hhead
  · obtain ⟨i, hi, rfl⟩ := List.mem_map.mp hc
    exact hnodes i hi

/-- The node of an element becomes the head, and no first word changes. -/
theorem relink (h : p.links.IsList none (free.map L.cell)) (hfree : ∀ j ∈ free, j < L.count)
    (hlt : i < L.count) (hnew : i ∉ free) :
    (p.addNode (L.node i)).links.IsList none ((i :: free).map L.cell) ∧
      ∀ j < L.count, (p.addNode (L.node i)).word (L.elem j) = p.word (L.elem j) := by
  have hpos := L.node_pos i
  -- the old value of the head is a pointer, so that the link of the node holds it
  have hheadLt : p.load none < 2 ^ 64 := by
    cases free with
    | nil =>
      rw [load_eq_zero h]
      omega
    | cons k free =>
      rw [(links_eq_some h.1).1]
      exact L.node_lt (hfree k List.mem_cons_self)
  have hhead : (p.addNode (L.node i)).load none = L.node i := rfl
  have hlink : (p.addNode (L.node i)).word (L.node i) = p.load none :=
    word_setWord_self p hheadLt
  refine ⟨⟨?_, ?_⟩, fun j _ => ?_⟩
  · unfold links
    rw [hhead, if_neg (Nat.ne_of_gt hpos)]
    rfl
  · -- the other nodes are as they were
    have hword {j : ℕ} (hj : j ∈ free) :
        (p.addNode (L.node i)).word (L.node j) = p.word (L.node j) := by
      have hne : j ≠ i := by
        rintro rfl
        exact hnew hj
      exact word_save_some p _ (L.node_disjoint_node hne)
    have hfirst : (p.addNode (L.node i)).links (L.cell i) = p.links none :=
      links_congr (p := p) (c := none) hlink
    cases free with
    | nil => exact hfirst.trans h
    | cons k free =>
      refine ⟨hfirst.trans h.1, h.2.congr fun c hc => links_congr ?_⟩
      obtain ⟨j, hj, rfl⟩ : ∃ j ∈ k :: free, L.cell j = c := List.mem_map.mp hc
      exact hword hj
  · exact word_save_some p _ (L.elem_disjoint_node j i)

end FreeList

/-! ## The invariant -/

/-- The invariant of a pool: `free` are the indices of the elements on the free list, and `live`
those of the elements in use. -/
structure Holds (L : Layout) (debug : Bool) (p : Pool) (free live : List ℕ) : Prop where
  start : p.start = L.start
  stop : p.stop = L.start + L.count * L.size
  offset : p.offset = BitVec.ofNat 32 L.offset
  /-- The free list runs through the free elements. -/
  list : p.links.IsList none (free.map L.cell)
  /-- Every element is on it or in use. -/
  perm : (free ++ live).Perm (List.range L.count)
  used : p.used = live.length
  /-- With `DEBUG_FLAG`, bit 0 of the first word is set in the elements in use. -/
  belong : debug = true → ∀ i < L.count, p.word (L.elem i) = L.rsc + if i ∈ live then 1 else 0

namespace Holds

variable {L : Layout} {debug : Bool} {p p' : Pool} {free live : List ℕ} {i : ℕ}

theorem nodup (h : Holds L debug p free live) : (free ++ live).Nodup :=
  h.perm.nodup_iff.mpr List.nodup_range

theorem mem_iff (h : Holds L debug p free live) : i ∈ free ∨ i ∈ live ↔ i < L.count := by
  rw [← List.mem_append, h.perm.mem_iff, List.mem_range]

theorem notMem_live (h : Holds L debug p free live) (hi : i ∈ free) : i ∉ live :=
  List.disjoint_of_nodup_append h.nodup hi

/-- A word outside of the free elements' nodes and the first words is of no consequence. -/
theorem setMem (h : Holds L debug p free live) {mem : ByteMem}
    (hnodes : ∀ i ∈ free, ({ p with mem } : Pool).word (L.node i) = p.word (L.node i))
    (hfirst : ∀ i < L.count, ({ p with mem } : Pool).word (L.elem i) = p.word (L.elem i)) :
    Holds L debug { p with mem } free live where
  start := h.start
  stop := h.stop
  offset := h.offset
  list := list_congr h.list rfl hnodes
  perm := h.perm
  used := h.used
  belong hdebug i hi := (hfirst i hi).trans (h.belong hdebug i hi)

/-- What users store in an element that is in use, but for its first word, is of no
consequence. -/
theorem store (h : Holds L debug p free live) (hi : i ∈ live) {a : ℕ} (b : BitVec 8)
    (ha : L.elem i + 8 ≤ a) (hlt : a < L.elem i + L.size) :
    Holds L debug { p with mem := p.mem.store a b } free live := by
  -- the byte is inside element `i` and behind its mark, where no word of the pool is
  have hword {c j : ℕ} (hc : L.elem j ≤ c) (hcj : c + 8 ≤ L.elem j + L.size)
      (hout : c + 8 ≤ a ∨ a + 1 ≤ c) :
      ({ p with mem := p.mem.store a b } : Pool).word c = p.word c := by
    refine ByteMem.readLE_congr (ByteMem.eqOn_store p.mem a b ?_)
    simp only [Set.mem_Ico]
    omega
  have hsize : 16 ≤ L.size := by
    have hle := L.le_offset
    have hinside := L.offset_le
    omega
  have hinside := L.offset_le
  refine h.setMem (fun j hj => hword (j := j) ?_ ?_ ?_) fun j _ => hword (j := j) ?_ ?_ ?_
  · exact Nat.le_add_right _ _
  · unfold Layout.node
    omega
  · -- a free element is not the one in use
    have hne : j ≠ i := by
      rintro rfl
      exact h.notMem_live hj hi
    refine L.disjoint hne ?_ ?_ (by omega) (by omega)
    · exact Nat.le_add_right _ _
    · unfold Layout.node
      omega
  · exact le_rfl
  · omega
  · by_cases hji : j = i
    · subst hji
      omega
    · exact L.disjoint hji le_rfl (by omega) (by omega) (by omega)

/-! ## Taking an element -/

/-- An empty free list gives nothing. -/
theorem allocResource_nil (h : Holds L debug p [] live) :
    p.allocResource debug L.rsc = .ok (none, p) := by
  have hhead : p.load none = 0 := load_eq_zero h.list
  simp [Pool.allocResource, hhead]

/-- The link of the first free element moves into the head. -/
theorem unlink (h : Holds L debug p (i :: free) live) :
    p.load none = L.node i ∧ p.load none ≠ 0 ∧
      ∃ p', p.rmNode (L.node i) 1 none = some (true, p') ∧ p'.start = p.start ∧
        p'.stop = p.stop ∧ p'.offset = p.offset ∧ p'.used = p.used ∧
        p'.links.IsList none (free.map L.cell) ∧
        ∀ j < L.count, p'.word (L.elem j) = p.word (L.elem j) := by
  obtain ⟨hhead, hne⟩ := links_eq_some h.list.1
  -- the links of the other nodes are not written, as their elements do not meet
  have hfresh {j : ℕ} (hj : j ∈ free) : j ≠ i := by
    rintro rfl
    exact (List.nodup_cons.mp h.nodup).1 (List.mem_append_left _ hj)
  have hload : p.load none ≠ 0 := by
    rw [hhead]
    exact hne
  obtain ⟨hstart₁, hstop₁, hoffset₁, hused₁⟩ := p.save_fields none (p.word (L.node i))
  obtain ⟨hstart₂, hstop₂, hoffset₂, hused₂⟩ :=
    (p.save none (p.word (L.node i))).save_fields (some (L.node i)) 0
  refine ⟨hhead, hload, (p.save none (p.word (L.node i))).save (some (L.node i)) 0, ?_,
    hstart₂.trans hstart₁, hstop₂.trans hstop₁, hoffset₂.trans hoffset₁, hused₂.trans hused₁, ?_,
    fun j _ => ?_⟩
  · -- the first node is the one to remove
    rw [Pool.rmNode, if_neg hload, if_pos hhead.symm]
  · -- the other nodes are as they were
    have hword {j : ℕ} (hj : j ∈ free) :
        ((p.save none (p.word (L.node i))).save (some (L.node i)) 0).word (L.node j) =
          p.word (L.node j) := by
      rw [word_save_some _ _ (L.node_disjoint_node (hfresh hj)), word_save_none]
    have hrest := h.list.2
    have hlink : ((p.save none (p.word (L.node i))).save (some (L.node i)) 0).links none =
        p.links (L.cell i) :=
      links_congr (p := p) (c := L.cell i) rfl
    cases free with
    | nil => exact hlink.trans hrest
    | cons k free =>
      refine ⟨hlink.trans hrest.1, hrest.2.congr fun c hc => links_congr ?_⟩
      obtain ⟨j, hj, rfl⟩ : ∃ j ∈ k :: free, L.cell j = c := by
        rcases List.mem_cons.mp hc with rfl | hc
        · exact ⟨k, List.mem_cons_self, rfl⟩
        · obtain ⟨j, hj, rfl⟩ := List.mem_map.mp hc
          exact ⟨j, List.mem_cons_of_mem _ hj, rfl⟩
      exact hword hj
  · -- the marks in front of the elements lie outside of the links
    rw [word_save_some _ _ (L.elem_disjoint_node j i), word_save_none]

/-- When there is a free element, `alloc_resource` hands out the first one. -/
theorem allocResource (h : Holds L debug p (i :: free) live) (hoffset : L.offset < 2 ^ 31) :
    ∃ p', p.allocResource debug L.rsc = .ok (some (L.elem i), p') ∧
      Holds L debug p' free (i :: live) := by
  obtain ⟨hhead, hload, p₁, hrm, hstart, hstop, hoff, hused, hlist, hwords⟩ := h.unlink
  have hlt : i < L.count := h.mem_iff.mp (Or.inl List.mem_cons_self)
  have hnotLive : i ∉ live := h.notMem_live List.mem_cons_self
  -- the code computes the element from its node
  have helem : ((L.node i : ℤ) - p₁.offset.toInt).toNat = L.elem i := by
    rw [hoff, h.offset, L.toInt_offset hoffset]
    unfold Layout.node
    omega
  have hperm : (free ++ i :: live).Perm (List.range L.count) :=
    List.perm_middle.trans h.perm
  have hcount : p₁.used + 1 = (i :: live).length := by
    rw [hused, h.used]
    simp
  set p₂ : Pool := { p₁ with used := p₁.used + 1 } with hp₂
  cases debug with
  | false =>
    refine ⟨p₂, ?_, hstart.trans h.start, hstop.trans h.stop, hoff.trans h.offset, hlist, hperm,
      hcount, by simp⟩
    rw [Pool.allocResource, if_neg hload]
    simp only [hhead, hrm, helem, Bool.false_eq_true, if_false, hp₂]
  | true =>
    have hbelong : p₂.word (L.elem i) = L.rsc := by
      have hold := (hwords i hlt).trans (h.belong rfl i hlt)
      rw [if_neg hnotLive] at hold
      exact hold
    refine ⟨p₂.setWord (L.elem i) (L.rsc + 1), ?_, hstart.trans h.start, hstop.trans h.stop,
      hoff.trans h.offset, ?_, hperm, hcount, fun _ j hj => ?_⟩
    · rw [Pool.allocResource, if_neg hload]
      simp only [hhead, hrm, helem, if_true, ← hp₂, hbelong, or_one_of_even L.aligned]
    · -- the mark is not stored in a node
      exact list_congr (p := p₂) hlist rfl fun j _ =>
        word_setWord _ _ (L.elem_disjoint_node i j).symm
    · by_cases hji : j = i
      · subst hji
        have hrsc := L.rsc_lt
        have heven := L.aligned
        rw [word_setWord_self _ (by omega)]
        simp
      · have hold : p₂.word (L.elem j) = L.rsc + if j ∈ live then 1 else 0 :=
          (hwords j hj).trans (h.belong rfl j hj)
        rw [word_setWord _ _ (L.elem_disjoint_elem hji), hold]
        simp [hji]

/-! ## Giving an element back -/

/-- `free_resource` puts an element in use at the front of the free list. -/
theorem freeResource (h : Holds L debug p free live) (hoffset : L.offset < 2 ^ 31)
    (hi : i ∈ live) :
    ∃ p', p.freeResource debug L.rsc (L.elem i) = .ok p' ∧
      Holds L debug p' (i :: free) (live.erase i) := by
  have hlt : i < L.count := h.mem_iff.mp (Or.inr hi)
  obtain ⟨hlist, hwords⟩ := relink h.list (fun j hj => h.mem_iff.mp (Or.inl hj)) hlt
    fun hfree => h.notMem_live hfree hi
  have hinside := L.offset_le
  have hstart := L.start_pos
  have helem : L.elem i ≠ 0 := by
    unfold Layout.elem
    omega
  have hrange : ¬(L.elem i < p.start ∨ p.stop ≤ L.elem i) := by
    have hend := L.elem_add_size_le_stop hlt
    have hpos := L.size_pos
    rw [h.start, h.stop]
    unfold Layout.elem at hend ⊢
    omega
  -- the code computes the node from its element
  have hnode : ((L.elem i : ℤ) + p.offset.toInt).toNat = L.node i := by
    rw [h.offset, L.toInt_offset hoffset]
    unfold Layout.node
    omega
  have hperm : (i :: free ++ live.erase i).Perm (List.range L.count) := by
    refine List.Perm.trans ?_ h.perm
    exact List.perm_middle.symm.trans ((List.perm_cons_erase hi).symm.append_left free)
  have hnodup : live.Nodup := (List.nodup_append.mp h.nodup).2.1
  have hcount : p.used - 1 = (live.erase i).length := by
    have hpos := List.length_pos_of_mem hi
    rw [h.used, List.length_erase_of_mem hi]
    omega
  set p₁ : Pool := { p.addNode (L.node i) with used := p.used - 1 } with hp₁
  have hused : (p.addNode (L.node i)).used = p.used := rfl
  cases debug with
  | false =>
    refine ⟨p₁, ?_, h.start, h.stop, h.offset, hlist, hperm, hcount, by simp⟩
    rw [Pool.freeResource, if_neg helem, if_neg hrange]
    simp only [hnode, hused, Bool.false_eq_true, if_false, hp₁]
  | true =>
    have hbelong : p₁.word (L.elem i) = L.rsc + 1 := by
      have hold := (hwords i hlt).trans (h.belong rfl i hlt)
      rw [if_pos hi] at hold
      exact hold
    have heven := L.aligned
    have hrsc := L.rsc_lt
    refine ⟨p₁.setWord (L.elem i) L.rsc, ?_, h.start, h.stop, h.offset, ?_, hperm, hcount,
      fun _ j hj => ?_⟩
    · have hset : (L.rsc + 1) % 2 = 1 := by omega
      rw [Pool.freeResource, if_neg helem, if_neg hrange]
      simp only [hnode, hused, if_true, ← hp₁, hbelong, hset, Nat.add_sub_cancel, and_self]
    · -- the mark is not stored in a node
      exact list_congr (p := p₁) hlist rfl fun j _ =>
        word_setWord _ _ (L.elem_disjoint_node i j).symm
    · by_cases hji : j = i
      · subst hji
        rw [word_setWord_self _ hrsc, if_neg hnodup.not_mem_erase]
        rfl
      · have hold : p₁.word (L.elem j) = L.rsc + if j ∈ live then 1 else 0 :=
          (hwords j hj).trans (h.belong rfl j hj)
        rw [word_setWord _ _ (L.elem_disjoint_elem hji), hold]
        simp only [List.mem_erase_of_ne hji]

end Holds

/-! ## A new pool -/

section Create

variable {L : Layout} {p p' : Pool}

/-- The first loop changes the memory only, and leaves `rsc` in the first words. -/
theorem markElements_spec (hstart : p.start = L.start) :
    ∀ n ≤ L.count, ∃ mem, p.markElements L.rsc n L.size = { p with mem } ∧
      ∀ j < n, ({ p with mem } : Pool).word (L.elem j) = L.rsc := by
  intro n
  -- the marks written before stay, as each is in front of another element
  induction n with
  | zero => exact fun _ => ⟨p.mem, rfl, fun j hj => absurd hj (Nat.not_lt_zero j)⟩
  | succ n ih =>
    intro hn
    obtain ⟨mem, hmark, hwords⟩ := ih (by omega)
    have hstep : p.markElements L.rsc (n + 1) L.size =
        ({ p with mem } : Pool).setWord (L.elem n) L.rsc := by
      unfold Pool.markElements at hmark ⊢
      rw [List.range_succ, List.foldl_append, hmark]
      simp only [List.foldl_cons, List.foldl_nil, hstart, Layout.elem]
    refine ⟨mem.writeLE (L.elem n) 8 L.rsc, hstep, fun j hj => ?_⟩
    rcases Nat.lt_succ_iff_lt_or_eq.mp hj with hlt | rfl
    · have hkeep := ({ p with mem } : Pool).word_setWord L.rsc
        (L.elem_disjoint_elem (Nat.ne_of_lt hlt))
      exact hkeep.trans (hwords j hlt)
    · exact ({ p with mem } : Pool).word_setWord_self L.rsc_lt

/-- The second loop makes the elements free one after the other. -/
theorem linkElements_spec (hstart : p.start = L.start) (hempty : p.freeList = 0) :
    ∀ n ≤ L.count, (p.linkElements n L.size L.offset).start = p.start ∧
      (p.linkElements n L.size L.offset).stop = p.stop ∧
      (p.linkElements n L.size L.offset).offset = p.offset ∧
      (p.linkElements n L.size L.offset).links.IsList none ((List.range n).reverse.map L.cell) ∧
      ∀ j < L.count, (p.linkElements n L.size L.offset).word (L.elem j) = p.word (L.elem j) := by
  intro n
  -- the elements are put on the list in rising order, so the last one is its head
  induction n with
  | zero =>
    refine fun _ => ⟨rfl, rfl, rfl, ?_, fun _ _ => rfl⟩
    exact if_pos hempty
  | succ n ih =>
    intro hn
    obtain ⟨hstart', hstop', hoffset', hlist, hwords⟩ := ih (by omega)
    have hstep : p.linkElements (n + 1) L.size L.offset =
        (p.linkElements n L.size L.offset).addNode (L.node n) := by
      unfold Pool.linkElements at hstart' ⊢
      rw [List.range_succ, List.foldl_append, List.foldl_cons, List.foldl_nil, hstart', hstart]
      rfl
    have hfree : ∀ j ∈ (List.range n).reverse, j < L.count := by
      intro j hj
      have hlt := List.mem_range.mp (List.mem_reverse.mp hj)
      omega
    have hnew : n ∉ (List.range n).reverse := by simp
    obtain ⟨hlist', hwords'⟩ := relink hlist hfree hn hnew
    rw [hstep, List.range_succ, List.reverse_append]
    exact ⟨hstart', hstop', hoffset', hlist', fun j hj => (hwords' j hj).trans (hwords j hj)⟩

/-- When `create_resource` succeeds, the count fits, and all elements are free, the last one first.
-/
theorem holds_createResource {debug : Bool}
    (h : p.createResource debug L.rsc L.start L.count L.size L.offset = .ok (true, p')) :
    L.count < 2 ^ 31 ∧ Holds L debug p' (List.range L.count).reverse [] := by
  -- the call has passed its checks
  have hsize : ¬(L.count = 0 ∨ L.size = 0) := by
    intro hzero
    simp [Pool.createResource, hzero] at h
  have hfresh : ¬p.start ≠ 0 := by
    intro hstart
    simp [Pool.createResource, hsize, hstart] at h
  have hnull : ¬L.start = 0 := Nat.ne_of_gt L.start_pos
  have hcount : ¬2 ^ 31 ≤ L.count := by
    intro hbig
    simp only [Pool.createResource, hsize, hfresh, hnull, hbig, if_false, if_true] at h
    cases h
  set p₁ : Pool :=
    { p with start := L.start, mem := p.mem.fill L.start (L.count * L.size) 0 } with hp₁
  -- the loop over the first words runs in a debug build only
  obtain ⟨mem, hmark, hwords⟩ : ∃ mem,
      (if debug then p₁.markElements L.rsc L.count L.size else p₁) = { p₁ with mem } ∧
        (debug = true → ∀ j < L.count, ({ p₁ with mem } : Pool).word (L.elem j) = L.rsc) := by
    cases debug with
    | false => exact ⟨p₁.mem, rfl, fun hdebug => absurd hdebug Bool.false_ne_true⟩
    | true =>
      obtain ⟨mem, hmark, hwords⟩ := markElements_spec (p := p₁) rfl L.count le_rfl
      exact ⟨mem, hmark, fun _ => hwords⟩
  set p₂ : Pool := { p₁ with
    mem
    stop := L.start + L.count * L.size
    offset := BitVec.ofNat 32 L.offset
    freeList := 0 } with hp₂
  obtain ⟨hstart, hstop, hoffset, hlist, hkeep⟩ :=
    linkElements_spec (p := p₂) rfl rfl L.count le_rfl
  have hp' : p' = { p₂.linkElements L.count L.size L.offset with
      used := 0, capacity := BitVec.ofNat 32 L.count } := by
    unfold Pool.createResource at h
    rw [if_neg hsize, if_neg hfresh] at h
    simp only [if_neg hnull, if_neg hcount] at h
    rw [← hp₁, hmark] at h
    exact (congrArg Prod.snd (Except.ok.inj h)).symm
  refine ⟨Nat.lt_of_not_le hcount, ?_⟩
  rw [hp']
  refine ⟨hstart, hstop, hoffset, hlist, ?_, rfl, fun hdebug j hj => ?_⟩
  · rw [List.append_nil]
    exact List.reverse_perm _
  · rw [if_neg List.not_mem_nil]
    exact (hkeep j hj).trans (hwords hdebug j hj)

end Create

end Resource

end Hixo
