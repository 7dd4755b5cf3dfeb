import Hixo.Resource.Pool

/-!
# Runs of a pool

A run takes elements from a new pool and gives elements back that are in use, in any order.
Between these calls the users store what they like in the elements they hold, except for the
first word.

* `Run L debug p₀ p live`: a run from the pool `p₀` ends in the pool `p`, where the elements `live`
  are allocated;
* `Sound L debug p live`: what a user of the pool relies on;
* `Run.exists_holds`: a run keeps the invariant as long as `m_offset` can hold the offset;
* `exists_escape`: otherwise the first element of a new pool is not an element.
-/

namespace Hixo

namespace Resource

open LinkHeap Pool

/-! ## Runs -/

/-- The runs from the pool `p₀`, with the elements that were allocated and not freed since. -/
inductive Run (L : Layout) (debug : Bool) (p₀ : Pool) : Pool → List ℕ → Prop
  | new : Run L debug p₀ p₀ []
  /-- `alloc_resource` returns an element. -/
  | alloc {p p' : Pool} {live : List ℕ} {e : ℕ} : Run L debug p₀ p live →
      p.allocResource debug L.rsc = .ok (some e, p') → Run L debug p₀ p' (e :: live)
  /-- `alloc_resource` returns `NULL`. -/
  | exhausted {p p' : Pool} {live : List ℕ} : Run L debug p₀ p live →
      p.allocResource debug L.rsc = .ok (none, p') → Run L debug p₀ p' live
  /-- An element is freed that is allocated. -/
  | free {p p' : Pool} {live : List ℕ} {e : ℕ} : Run L debug p₀ p live → e ∈ live →
      p.freeResource debug L.rsc e = .ok p' → Run L debug p₀ p' (live.erase e)
  /-- A user stores a byte in an allocated element. -/
  | store {p : Pool} {live : List ℕ} {e a : ℕ} {b : BitVec 8} : Run L debug p₀ p live → e ∈ live →
      e + 8 ≤ a → a < e + L.size → Run L debug p₀ { p with mem := p.mem.store a b } live

/-- What a user of the pool relies on, with the elements that are allocated. -/
structure Sound (L : Layout) (debug : Bool) (p : Pool) (live : List ℕ) : Prop where
  /-- An allocated element is an element of the pool. -/
  isElem : ∀ e ∈ live, ∃ i < L.count, e = L.start + i * L.size
  /-- No element is allocated twice. -/
  nodup : live.Nodup
  /-- The free list ends, and holds exactly the other elements. -/
  freeList : ∃ free : List ℕ, free.Nodup ∧
    p.links.IsList none (free.map fun e => some (e + L.offset)) ∧
    ∀ e, e ∈ free ↔ (∃ i < L.count, e = L.start + i * L.size) ∧ e ∉ live
  used : p.used = live.length
  /-- `alloc_resource` returns `NULL` exactly when all elements are allocated. -/
  exhausted : (∃ p', p.allocResource debug L.rsc = .ok (none, p')) ↔ p.used = L.count
  /-- No assertion in `alloc_resource` fails. -/
  allocReturns : ∃ r, p.allocResource debug L.rsc = .ok r
  /-- No assertion in `free_resource` fails. -/
  freeReturns : ∀ e ∈ live, ∃ p', p.freeResource debug L.rsc e = .ok p'
  /-- Every element belongs to the pool, and bit 0 says whether it is allocated. -/
  belong : debug = true → ∀ i < L.count,
    p.word (L.start + i * L.size) =
      L.rsc + if L.start + i * L.size ∈ live then 1 else 0

/-! ## With an offset that fits -/

variable {L : Layout} {debug : Bool} {p p₀ : Pool} {live : List ℕ} {i : ℕ}

theorem map_elem_nodup {idx : List ℕ} (h : idx.Nodup) : (idx.map L.elem).Nodup :=
  h.map fun _ _ => Layout.elem_inj

theorem elem_mem_map {idx : List ℕ} : L.elem i ∈ idx.map L.elem ↔ i ∈ idx :=
  List.mem_map_of_injective fun _ _ => Layout.elem_inj

/-- In every state of a run from a new pool, the pool keeps its invariant with the elements in use.
-/
theorem Run.exists_holds (hrun : Run L debug p₀ p live) (hoffset : L.offset < 2 ^ 31)
    {free₀ : List ℕ} (hnew : Holds L debug p₀ free₀ []) :
    ∃ free idx, Holds L debug p free idx ∧ live = idx.map L.elem := by
  induction hrun with
  | new => exact ⟨free₀, [], hnew, rfl⟩
  | alloc _ hcall ih =>
    obtain ⟨free, idx, hold, rfl⟩ := ih
    cases free with
    | nil =>
      -- a call that returned an element cannot have met an empty list
      have hnone := hold.allocResource_nil.symm.trans hcall
      cases hnone
    | cons i free =>
      -- the element is the first free one, and the pool is the one of the step lemma
      obtain ⟨p', hsome, hold'⟩ := hold.allocResource hoffset
      obtain ⟨rfl, rfl⟩ : L.elem i = _ ∧ p' = _ := by
        simpa using hsome.symm.trans hcall
      exact ⟨free, i :: idx, hold', rfl⟩
  | exhausted _ hcall ih =>
    obtain ⟨free, idx, hold, rfl⟩ := ih
    cases free with
    | nil =>
      obtain rfl : _ = _ := by simpa using hold.allocResource_nil.symm.trans hcall
      exact ⟨[], idx, hold, rfl⟩
    | cons i free =>
      -- a call that returned nothing cannot have met a free slot
      obtain ⟨p', hsome, -⟩ := hold.allocResource hoffset
      have hnone := hsome.symm.trans hcall
      simp at hnone
  | free _ hmem hcall ih =>
    obtain ⟨free, idx, hold, rfl⟩ := ih
    obtain ⟨i, hi, rfl⟩ := List.mem_map.mp hmem
    -- the element goes to the front of the free list
    obtain ⟨p', hfree, hold'⟩ := hold.freeResource hoffset hi
    obtain rfl : p' = _ := Except.ok.inj (hfree.symm.trans hcall)
    refine ⟨i :: free, idx.erase i, hold', ?_⟩
    exact (List.map_erase (fun _ _ => Layout.elem_inj) idx).symm
  | store _ hmem hle hlt ih =>
    obtain ⟨free, idx, hold, rfl⟩ := ih
    obtain ⟨i, hi, rfl⟩ := List.mem_map.mp hmem
    exact ⟨free, idx, hold.store hi _ hle hlt, rfl⟩

/-- What the users of a pool rely on follows from its invariant. -/
theorem Holds.sound {free idx : List ℕ} (h : Holds L debug p free idx)
    (hoffset : L.offset < 2 ^ 31) : Sound L debug p (idx.map L.elem) where
  isElem e he := by
    obtain ⟨i, hi, rfl⟩ := List.mem_map.mp he
    exact ⟨i, h.mem_iff.mp (Or.inr hi), rfl⟩
  nodup := map_elem_nodup (List.nodup_append.mp h.nodup).2.1
  freeList := by
    refine ⟨free.map L.elem, map_elem_nodup (List.nodup_append.mp h.nodup).1, ?_, fun e => ?_⟩
    · rw [List.map_map]
      exact h.list
    · constructor
      · -- an element of the free list is a slot, and nobody has it
        intro he
        obtain ⟨i, hi, rfl⟩ := List.mem_map.mp he
        exact ⟨⟨i, h.mem_iff.mp (Or.inl hi), rfl⟩, fun hlive =>
          h.notMem_live hi (elem_mem_map.mp hlive)⟩
      · -- a slot that nobody has must be free: the invariant counts every slot once
        rintro ⟨⟨i, hi, rfl⟩, hnot⟩
        refine elem_mem_map.mpr ((h.mem_iff.mpr hi).resolve_right fun hlive => hnot ?_)
        exact elem_mem_map.mpr hlive
  used := by
    rw [h.used, List.length_map]
  exhausted := by
    -- the free slots and the live ones add up to `count`, so none is free iff all are live
    have hlength := h.perm.length_eq
    rw [List.length_append, List.length_range] at hlength
    rw [h.used]
    cases free with
    | nil =>
      refine iff_of_true ⟨p, h.allocResource_nil⟩ ?_
      simp only [List.length_nil] at hlength
      omega
    | cons i free =>
      obtain ⟨p', hsome, -⟩ := h.allocResource hoffset
      refine iff_of_false ?_ ?_
      · rintro ⟨q, hnone⟩
        simpa using hsome.symm.trans hnone
      · simp only [List.length_cons] at hlength
        omega
  allocReturns := by
    cases free with
    | nil => exact ⟨_, h.allocResource_nil⟩
    | cons i free =>
      obtain ⟨p', hsome, -⟩ := h.allocResource hoffset
      exact ⟨_, hsome⟩
  freeReturns e he := by
    obtain ⟨i, hi, rfl⟩ := List.mem_map.mp he
    obtain ⟨p', hfree, -⟩ := h.freeResource hoffset hi
    exact ⟨p', hfree⟩
  belong hdebug i hi := by
    have hword := h.belong hdebug i hi
    rw [← if_congr (elem_mem_map (L := L)) rfl rfl] at hword
    exact hword

/-! ## With an offset that does not fit -/

/-- The subtraction of `m_offset` then falls short by a multiple of `2 ^ 32`. -/
theorem Layout.toInt_offset_le (h : 2 ^ 31 ≤ L.offset) :
    (BitVec.ofNat 32 L.offset).toInt ≤ L.offset - 2 ^ 32 := by
  rw [BitVec.toInt_eq_toNat_cond, BitVec.toNat_ofNat]
  split <;> omega

/-- What `alloc_resource` returns then lies behind the element it took. -/
theorem Holds.allocResource_escape {free idx : List ℕ} {r : Option ℕ × Pool}
    (h : Holds L debug p (i :: free) idx) (hoffset : 2 ^ 31 ≤ L.offset)
    (hcall : p.allocResource debug L.rsc = .ok r) :
    ∃ e q, r = (some e, q) ∧ L.elem i + 2 ^ 32 ≤ e := by
  obtain ⟨hhead, hload, p₁, hrm, -, -, hoff, -⟩ := h.unlink
  have hshort := L.toInt_offset_le hoffset
  have hbehind : L.elem i + 2 ^ 32 ≤ ((L.node i : ℤ) - p₁.offset.toInt).toNat := by
    rw [hoff, h.offset]
    unfold Layout.node
    omega
  rw [Pool.allocResource, if_neg hload] at hcall
  simp only [hhead, hrm] at hcall
  split_ifs at hcall
  · exact ⟨_, _, (Except.ok.inj hcall).symm, hbehind⟩
  · exact ⟨_, _, (Except.ok.inj hcall).symm, hbehind⟩

/-- With an offset that no `int` holds, a new pool has a run that breaks what its users rely on. -/
theorem exists_escape (hnew : Holds L debug p (List.range L.count).reverse [])
    (hcount : 0 < L.count) (hoffset : 2 ^ 31 ≤ L.offset) :
    ¬∀ q live, Run L debug p q live → Sound L debug q live := by
  intro hsound
  obtain ⟨n, hn⟩ : ∃ n, L.count = n + 1 := ⟨L.count - 1, by omega⟩
  obtain ⟨r, hcall⟩ := (hsound p [] .new).allocReturns
  rw [hn, List.range_succ, List.reverse_append] at hnew
  -- the last element is the first one on the free list, and no element lies behind it
  obtain ⟨e, q, rfl, hbehind⟩ := hnew.allocResource_escape hoffset hcall
  obtain ⟨i, hi, rfl⟩ := (hsound q [e] (.alloc .new hcall)).isElem e (List.mem_singleton_self e)
  have hmul : i * L.size ≤ n * L.size := Nat.mul_le_mul_right _ (by omega)
  unfold Layout.elem at hbehind
  omega

/-! ## Every pool -/

theorem createResource_count_pos
    (h : p₀.createResource debug L.rsc L.start L.count L.size L.offset = .ok (true, p)) :
    0 < L.count := by
  refine Nat.pos_of_ne_zero fun hzero => ?_
  simp [Pool.createResource, hzero] at h

/-- A pool of fewer than `2 ^ 31` elements can be made where there is memory. -/
theorem exists_createResource (p₀ : Pool) (L : Layout) (debug : Bool) (hstart : p₀.start = 0)
    (hpos : 0 < L.count) (hlt : L.count < 2 ^ 31) :
    ∃ p, p₀.createResource debug L.rsc L.start L.count L.size L.offset = .ok (true, p) := by
  have hsize : ¬(L.count = 0 ∨ L.size = 0) := by
    have hsizePos := L.size_pos
    omega
  have hnull : L.start ≠ 0 := Nat.ne_of_gt L.start_pos
  unfold Pool.createResource
  rw [if_neg hsize, if_neg (not_not.mpr hstart)]
  simp only [if_neg hnull, if_neg (not_le.mpr hlt)]
  exact ⟨_, rfl⟩

/-- The users of a pool can rely on it in all its runs if and only if the offset fits into the
`int` it is kept in. -/
theorem sound_iff_offset_lt
    (hnew : p₀.createResource debug L.rsc L.start L.count L.size L.offset = .ok (true, p)) :
    (∀ q live, Run L debug p q live → Sound L debug q live) ↔ L.offset < 2 ^ 31 := by
  obtain ⟨-, hold⟩ := holds_createResource hnew
  constructor
  · intro hsound
    by_contra hbig
    exact exists_escape hold (createResource_count_pos hnew) (by omega) hsound
  · intro hoffset q live hrun
    obtain ⟨free, idx, hold', rfl⟩ := hrun.exists_holds hoffset hold
    exact hold'.sound hoffset

/-- Four elements of 24 bytes with the node in the second word. -/
def sampleLayout : Layout where
  rsc := 64
  start := 4096
  count := 4
  size := 24
  offset := 8
  aligned := rfl
  rsc_lt := by norm_num
  start_pos := by norm_num
  fits := by norm_num
  le_offset := by norm_num
  offset_le := by norm_num

theorem sound_iff_offset_lt_sample :
    ∃ p, Pool.createResource true 64 4096 { mem := fun _ => 0 } 4 24 8 = .ok (true, p) ∧
      ((∀ q live, Run sampleLayout true p q live → Sound sampleLayout true q live) ↔
        8 < 2 ^ 31) := by
  obtain ⟨p, hnew⟩ := exists_createResource { mem := fun _ => 0 } sampleLayout true rfl
    (by decide) (by decide)
  exact ⟨p, hnew, sound_iff_offset_lt hnew⟩

/-- One element with the node behind the first 2 GiB of it. -/
def farLayout : Layout where
  rsc := 64
  start := 4096
  count := 1
  size := 2 ^ 31 + 8
  offset := 2 ^ 31
  aligned := rfl
  rsc_lt := by norm_num
  start_pos := by norm_num
  fits := by norm_num
  le_offset := by norm_num
  offset_le := by norm_num

/-- The element of this pool is handed out at the wrong address. -/
theorem not_sound_farLayout :
    ∃ p, Pool.createResource false 64 4096 { mem := fun _ => 0 } 1 (2 ^ 31 + 8) (2 ^ 31) =
        .ok (true, p) ∧
      ¬∀ q live, Run farLayout false p q live → Sound farLayout false q live := by
  obtain ⟨p, hnew⟩ := exists_createResource { mem := fun _ => 0 } farLayout false rfl
    (by decide) (by decide)
  exact ⟨p, hnew, exists_escape (holds_createResource hnew).2 (by decide) (by decide)⟩

end Resource

end Hixo
