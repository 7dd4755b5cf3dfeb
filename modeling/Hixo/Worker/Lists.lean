import Mathlib.Data.List.Perm.Basic
import Hixo.Worker.EventLoop

/-!
# The lists of a worker

The free list, `mp_connections` and `mp_posted_events` share one heap of links, and a slot is on
at most one of the first two.

* `FreeSlots w free`: the free list alone, with the ownership bits;
* `Lists w held free conns posted`: the lists run through these slots, and the slots in `held`
  are handed out but not on `mp_connections`;
* `Lists.congr`: nothing else of the worker matters;
* `Lists.allocResource`, `Lists.freeResource`, `Lists.connect`, `Lists.disconnect`,
  `Lists.post`, `Lists.unpost`: the operations.
-/

namespace Hixo

open LinkHeap

/-! ## The free list -/

/-- The free list runs through the slots in `free`, and the ownership bit is set on all others. -/
structure FreeSlots (w : Worker) (free : List ℕ) : Prop where
  freeList : w.links.IsList .freeList (free.map .node)
  lt : ∀ i ∈ free, i < w.capacity
  belong : ∀ i < w.capacity, (w.sock i).belong = true ↔ i ∉ free

namespace FreeSlots

variable {w w' : Worker} {free : List ℕ} {i : ℕ}

theorem nodup (h : FreeSlots w free) : free.Nodup :=
  (List.nodup_cons.mp h.freeList.nodup).2.of_map _

theorem length_le (h : FreeSlots w free) : free.length ≤ w.capacity := by
  have hsub : free ⊆ List.range w.capacity := fun i hi => List.mem_range.mpr (h.lt i hi)
  simpa using (List.subperm_of_subset h.nodup hsub).length_le

/-- The free list only depends on its own cells, the capacity and the pool of the slots. -/
theorem congr (h : FreeSlots w free) (hhead : w'.links .freeList = w.links .freeList)
    (hnode : ∀ i ∈ free, w'.links (.node i) = w.links (.node i))
    (hcapacity : w'.capacity = w.capacity)
    (hbelong : ∀ i, (w'.sock i).belong = (w.sock i).belong) : FreeSlots w' free where
  freeList := by
    refine h.freeList.congr fun c hc => ?_
    rcases List.mem_cons.mp hc with rfl | hc
    · exact hhead
    · obtain ⟨i, hi, rfl⟩ := List.mem_map.mp hc
      exact hnode i hi
  lt i hi := hcapacity ▸ h.lt i hi
  belong i hi := by
    rw [hbelong]
    exact h.belong i (hcapacity ▸ hi)

/-- The first free slot is handed out. -/
theorem allocResource (h : FreeSlots w (i :: free)) :
    ∃ links, w.allocResource = .ok (some i, { w with
        links
        used := w.used + 1
        sock := Function.update w.sock i { w.sock i with belong := true } }) ∧
      FreeSlots { w with
        links
        used := w.used + 1
        sock := Function.update w.sock i { w.sock i with belong := true } } free ∧
      ∀ c, c ≠ .freeList → (∀ j ∈ i :: free, c ≠ .node j) → links c = w.links c := by
  have hhead : w.links .freeList = some (.node i) := h.freeList.1
  have hi : i < w.capacity := h.lt i List.mem_cons_self
  -- the free list is at most as long as the cache, so the search of the assertion ends
  have hlen := h.length_le
  have hfuel : ((i :: free).map Cell.node).length < w.capacity + 1 := by
    rw [List.length_map]
    omega
  have hmem : Cell.node i ∈ (i :: free).map Cell.node := by simp
  obtain ⟨links, hrm, hlist, -, hframe⟩ := h.freeList.rmNode hfuel hmem
  have hbelong : (w.sock i).belong = false := by
    simpa using (h.belong i hi).not.mpr (by simp)
  have hfresh : i ∉ free := (List.nodup_cons.mp h.nodup).1
  refine ⟨links, ?_, ⟨by simpa using hlist, fun j hj => h.lt j (List.mem_cons_of_mem _ hj),
    fun j hj => ?_⟩, fun c hc hnode => hframe c fun hc' => ?_⟩
  · -- the call itself: the assertions on the link and on the mark hold
    simp [Worker.allocResource, hhead, Worker.assertRmNode, hrm, hbelong, Worker.modifySock,
      bind, Except.bind]
  · -- the marks of the other slots agree with the shorter list as before
    by_cases hji : j = i
    · subst hji
      simp [hfresh]
    · have hold := h.belong j hj
      simp only [List.mem_cons, hji, false_or] at hold
      simpa [Function.update_of_ne hji] using hold
  · rcases List.mem_cons.mp hc' with rfl | hc'
    · exact hc rfl
    · obtain ⟨j, hj, rfl⟩ := List.mem_map.mp hc'
      exact hnode j hj rfl

/-- `free_resource` puts a slot back at the front of the free list. -/
theorem freeResource (h : FreeSlots w free) (hi : i < w.capacity) (hfresh : i ∉ free) :
    w.freeResource i = .ok { w with
        links := w.links.addNode .freeList (.node i)
        used := w.used - 1
        sock := Function.update w.sock i { w.sock i with belong := false } } ∧
      FreeSlots { w with
        links := w.links.addNode .freeList (.node i)
        used := w.used - 1
        sock := Function.update w.sock i { w.sock i with belong := false } } (i :: free) := by
  have hbelong : (w.sock i).belong = true := (h.belong i hi).mpr hfresh
  -- the slot is in the range of the cache and marked, so both checks pass
  refine ⟨?_, h.freeList.addNode (by simpa using hfresh), fun j hj => ?_, fun j hj => ?_⟩
  · simp [Worker.freeResource, not_le.mpr hi, Worker.addNode, hbelong, Worker.modifySock]
  · rcases List.mem_cons.mp hj with rfl | hj
    · exact hi
    · -- the mark of the slot that goes back is cleared, and it is now in the list
      exact h.lt j hj
  · by_cases hji : j = i
    · subst hji
      simp
    · have hold := h.belong j hj
      simpa [Function.update_of_ne hji, hji] using hold

end FreeSlots

/-! ## All lists -/

/-- The lists of a worker. -/
structure Lists (w : Worker) (held free conns posted : List ℕ) : Prop where
  /-- The free list runs through `free`. -/
  freeList : w.links.IsList .freeList (free.map .node)
  /-- `mp_connections` runs through `conns`. -/
  connections : w.links.IsList .connections (conns.map .node)
  /-- `mp_posted_events` runs through `posted`. -/
  postedEvents : w.links.IsList .postedEvents (posted.map .postedNode)
  /-- Every slot is in exactly one place. -/
  slots : (held ++ (free ++ conns)).Perm (List.range w.capacity)
  /-- Posted sockets are slots of the cache. -/
  posted_lt : ∀ i ∈ posted, i < w.capacity
  /-- `m_used` counts the slots that are handed out. -/
  used : w.used = held.length + conns.length
  /-- The ownership bit is set on the slots that are handed out. -/
  belong : ∀ i < w.capacity, (w.sock i).belong = true ↔ i ∉ free

namespace Lists

variable {w w' : Worker} {held free conns posted : List ℕ} {i : ℕ}

/-! ## What the lists say -/

/-- The lists only depend on the links, `m_used`, the capacity and the pool of the slots. -/
theorem congr (h : Lists w held free conns posted) (hlinks : w'.links = w.links)
    (hused : w'.used = w.used) (hcapacity : w'.capacity = w.capacity)
    (hbelong : ∀ i, (w'.sock i).belong = (w.sock i).belong) :
    Lists w' held free conns posted where
  freeList := hlinks ▸ h.freeList
  connections := hlinks ▸ h.connections
  postedEvents := hlinks ▸ h.postedEvents
  slots := hcapacity ▸ h.slots
  posted_lt := hcapacity ▸ h.posted_lt
  used := hused ▸ h.used
  belong i hi := by
    rw [hbelong]
    exact h.belong i (hcapacity ▸ hi)

theorem nodup (h : Lists w held free conns posted) : (held ++ (free ++ conns)).Nodup :=
  h.slots.nodup_iff.mpr List.nodup_range

theorem mem_iff (h : Lists w held free conns posted) :
    i ∈ held ∨ i ∈ free ∨ i ∈ conns ↔ i < w.capacity := by
  rw [← List.mem_range, ← h.slots.mem_iff, List.mem_append, List.mem_append]

theorem lt_of_mem_conns (h : Lists w held free conns posted) (hi : i ∈ conns) :
    i < w.capacity :=
  h.mem_iff.mp (Or.inr (Or.inr hi))

theorem nodup_conns (h : Lists w held free conns posted) : conns.Nodup :=
  (List.nodup_append.mp (List.nodup_append.mp h.nodup).2.1).2.1

theorem notMem_free (h : Lists w held free conns posted) (hi : i ∈ conns) : i ∉ free := by
  intro hfree
  exact (List.nodup_append.mp (List.nodup_append.mp h.nodup).2.1).2.2 i hfree i hi rfl

/-- The free list of the worker is in order when all of its lists are. -/
theorem freeSlots (h : Lists w held free conns posted) : FreeSlots w free :=
  ⟨h.freeList, fun _ hi => h.mem_iff.mp (Or.inr (Or.inl hi)), h.belong⟩

/-- `mp_connections` determines its slots. -/
theorem eq_of_isList {xs : List ℕ} (h : Lists w held free conns posted)
    (hxs : w.links.IsList .connections (xs.map .node)) : xs = conns :=
  List.map_injective_iff.mpr (fun _ _ hij => Cell.node.inj hij) (hxs.unique h.connections)

/-- The nodes of each list are fewer than the fuel of `assertRmNode`. -/
theorem length_conns_le (h : Lists w held free conns posted) : conns.length ≤ w.capacity := by
  have hlen := h.slots.length_eq
  simp only [List.length_append, List.length_range] at hlen
  omega

theorem nodup_posted (h : Lists w held free conns posted) : posted.Nodup :=
  (List.nodup_cons.mp h.postedEvents.nodup).2.of_map _

theorem length_posted_le (h : Lists w held free conns posted) : posted.length ≤ w.capacity := by
  have hsub : posted ⊆ List.range w.capacity := fun i hi => List.mem_range.mpr (h.posted_lt i hi)
  simpa using (List.subperm_of_subset h.nodup_posted hsub).length_le

/-- The head of `mp_posted_events` is the first posted socket. -/
theorem posted_eq_cons (h : Lists w held free conns posted)
    (hhead : w.links .postedEvents = some (.postedNode i)) : ∃ posted', posted = i :: posted' := by
  have hlist := h.postedEvents
  cases posted with
  | nil =>
    rw [List.map_nil, isList_nil, hhead] at hlist
    cases hlist
  | cons j posted =>
    obtain rfl : i = j := by simpa using hhead.symm.trans hlist.1
    exact ⟨posted, rfl⟩

/-! ## Operations -/

/-- With an empty free list, `alloc_resource` gives no slot. -/
theorem allocResource_nil (h : Lists w held [] conns posted) :
    w.allocResource = .ok (none, w) := by
  have hhead : w.links .freeList = none := h.freeList
  rw [Worker.allocResource, hhead]

/-- `alloc_resource` hands out the first slot of the free list, and leaves the other lists alone. -/
theorem allocResource (h : Lists w held (i :: free) conns posted) :
    ∃ links, w.allocResource = .ok (some i, { w with
        links
        used := w.used + 1
        sock := Function.update w.sock i { w.sock i with belong := true } }) ∧
      Lists { w with
        links
        used := w.used + 1
        sock := Function.update w.sock i { w.sock i with belong := true } }
        (i :: held) free conns posted := by
  obtain ⟨links, halloc, hfree, hframe⟩ := h.freeSlots.allocResource
  refine ⟨links, halloc, hfree.freeList, h.connections.congr fun c hc => hframe c ?_ ?_,
    h.postedEvents.congr fun c hc => hframe c ?_ ?_, ?_, h.posted_lt, ?_, hfree.belong⟩
  · -- the other lists use cells that are no slot of the free list
    rintro rfl
    simp at hc
  · rintro j hj rfl
    have hjc : j ∈ conns := by simpa using hc
    exact h.notMem_free hjc hj
  · rintro rfl
    simp at hc
  · rintro j hj rfl
    simp at hc
  · refine List.Perm.trans ?_ h.slots
    simp only [List.cons_append]
    exact List.perm_middle.symm
  · have hused := h.used
    simp only [List.length_cons]
    omega

/-- `free_resource` puts a slot that was handed out back, and leaves the other lists alone. -/
theorem freeResource (h : Lists w (i :: held) free conns posted) :
    ∃ links, w.freeResource i = .ok { w with
        links
        used := w.used - 1
        sock := Function.update w.sock i { w.sock i with belong := false } } ∧
      Lists { w with
        links
        used := w.used - 1
        sock := Function.update w.sock i { w.sock i with belong := false } }
        held (i :: free) conns posted := by
  have hi : i < w.capacity := h.mem_iff.mp (by simp)
  have hfresh : i ∉ held ∧ i ∉ free ∧ i ∉ conns := by
    simpa [List.nodup_cons, not_or] using (List.nodup_cons.mp h.nodup).1
  obtain ⟨hfreed, hfree⟩ := h.freeSlots.freeResource hi hfresh.2.1
  refine ⟨_, hfreed, hfree.freeList, ?_, ?_, ?_, h.posted_lt, ?_, hfree.belong⟩
  · refine h.connections.congr fun c hc => addNode_of_ne ?_ ?_ <;> rintro rfl
    · simp at hc
    · exact hfresh.2.2 (by simpa using hc)
  · refine h.postedEvents.congr fun c hc => addNode_of_ne ?_ ?_ <;> rintro rfl <;> simp at hc
  · refine List.Perm.trans ?_ h.slots
    simp only [List.cons_append]
    exact List.perm_middle
  · have hused := h.used
    simp only [List.length_cons] at hused
    push_cast at hused
    show w.used - 1 = _
    omega

/-- A slot that was handed out can be put at the front of `mp_connections`. -/
theorem connect (h : Lists w (i :: held) free conns posted) :
    Lists (w.addNode .connections (.node i)) held free (i :: conns) posted := by
  have hnodup := h.nodup
  have hfresh : i ∉ held ∧ i ∉ free ∧ i ∉ conns := by
    simpa [List.nodup_cons, not_or] using (List.nodup_cons.mp hnodup).1
  refine ⟨?_, ?_, ?_, ?_, h.posted_lt, ?_, h.belong⟩
  · refine h.freeList.congr fun c hc => addNode_of_ne ?_ ?_ <;> rintro rfl
    · simp at hc
    · exact hfresh.2.1 (by simpa using hc)
  · exact h.connections.addNode (by simpa using hfresh.2.2)
  · refine h.postedEvents.congr fun c hc => addNode_of_ne ?_ ?_ <;> rintro rfl <;> simp at hc
  · refine List.Perm.trans ?_ h.slots
    rw [← List.append_assoc, ← List.append_assoc]
    exact List.perm_middle
  · have hused := h.used
    simp only [List.length_cons] at hused ⊢
    push_cast at hused ⊢
    show w.used = _
    omega

/-- A connection is taken off `mp_connections`, and its slot is no longer on any list. -/
theorem disconnect (h : Lists w held free conns posted) (hi : i ∈ conns) :
    ∃ links, w.assertRmNode .connections (.node i) = .ok { w with links } ∧
      Lists { w with links } (i :: held) free (conns.erase i) posted := by
  have hfuel : (conns.map Cell.node).length < w.capacity + 1 := by
    simpa using Nat.lt_succ_of_le h.length_conns_le
  have hmem : Cell.node i ∈ conns.map Cell.node := List.mem_map_of_mem hi
  obtain ⟨links, hrm, hlist, -, hframe⟩ := h.connections.rmNode hfuel hmem
  have herase : (conns.map Cell.node).erase (.node i) = (conns.erase i).map .node := by
    refine (List.map_erase ?_ conns).symm
    intro a b hab
    simpa using hab
  refine ⟨links, ?_, h.freeList.congr fun c hc => hframe c ?_, herase ▸ hlist,
    h.postedEvents.congr fun c hc => hframe c ?_, ?_, h.posted_lt, ?_, h.belong⟩
  · simp [Worker.assertRmNode, hrm]
  · simp only [List.mem_cons, List.mem_map] at hc
    rcases hc with rfl | ⟨j, hj, rfl⟩
    · simp
    · have hjc : j ∉ conns := fun hjc => h.notMem_free hjc hj
      simpa using hjc
  · simp only [List.mem_cons, List.mem_map] at hc
    rcases hc with rfl | ⟨j, hj, rfl⟩ <;> simp
  · refine List.Perm.trans ?_ h.slots
    have hperm : (free ++ conns).Perm (i :: (free ++ conns.erase i)) :=
      ((List.perm_cons_erase hi).append_left free).trans List.perm_middle
    exact (List.perm_middle.symm.trans (hperm.symm.append_left held))
  · have hused := h.used
    have hlen := List.length_erase_of_mem hi
    have hpos := List.length_pos_of_mem hi
    show w.used = _
    simp only [List.length_cons]
    omega

/-- A socket that is not posted can be put at the front of `mp_posted_events`. -/
theorem post (h : Lists w held free conns posted) (hi : i < w.capacity) (hfresh : i ∉ posted) :
    Lists (w.addNode .postedEvents (.postedNode i)) held free conns (i :: posted) := by
  refine ⟨?_, ?_, ?_, h.slots, ?_, h.used, h.belong⟩
  · refine h.freeList.congr fun c hc => addNode_of_ne ?_ ?_ <;> rintro rfl <;> simp at hc
  · refine h.connections.congr fun c hc => addNode_of_ne ?_ ?_ <;> rintro rfl <;> simp at hc
  · exact h.postedEvents.addNode (by simpa using hfresh)
  · intro j hj
    rcases List.mem_cons.mp hj with rfl | hj
    · exact hi
    · exact h.posted_lt j hj

/-- The first posted socket is taken off `mp_posted_events`, and the other ones stay. -/
theorem unpost (h : Lists w held free conns (i :: posted)) :
    ∃ links, w.assertRmNode .postedEvents (.postedNode i) = .ok { w with links } ∧
      Lists { w with links } held free conns posted := by
  have hfuel : ((i :: posted).map Cell.postedNode).length < w.capacity + 1 := by
    rw [List.length_map]
    exact Nat.lt_succ_of_le h.length_posted_le
  have hmem : Cell.postedNode i ∈ (i :: posted).map Cell.postedNode := by simp
  obtain ⟨links, hrm, hlist, -, hframe⟩ := h.postedEvents.rmNode hfuel hmem
  refine ⟨links, ?_, h.freeList.congr fun c hc => hframe c ?_,
    h.connections.congr fun c hc => hframe c ?_, by simpa using hlist, h.slots,
    fun j hj => h.posted_lt j (List.mem_cons_of_mem _ hj), h.used, h.belong⟩
  · simp [Worker.assertRmNode, hrm]
  · simp only [List.mem_cons, List.mem_map] at hc
    rcases hc with rfl | ⟨j, hj, rfl⟩ <;> simp
  · simp only [List.mem_cons, List.mem_map] at hc
    rcases hc with rfl | ⟨j, hj, rfl⟩ <;> simp

end Lists

end Hixo
