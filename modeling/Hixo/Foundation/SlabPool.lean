import Mathlib.Data.List.Basic
import Mathlib.Order.Lattice
import Mathlib.Tactic.Push

/-!
# Slab pools

A pool of equally sized blocks. A block is assigned to an owner on demand, in order of block
number, and from then on hands out its slots to that owner in order of slot number. Nothing is
ever returned. The pool of this module is the list of the assigned blocks.

The search for a block with room is *windowed*, as in allocators that keep the blocks of an
owner in a bitmap and look at one word of it: only the blocks in the window of the owner's first
block are tried.

* `SlabPool.alloc`: serve a slot for an owner, assigning a fresh block when the search fails.
  It reports `exhausted` when no block is left, and `stuck` when a block was assigned outside
  the window that the search covers.
* `alloc_eq_slot`: what a served slot says about the pool before and after.
* `alloc_eq_exhausted_iff`, `alloc_eq_stuck_iff`: when the other two outcomes occur.
* `serve`: a sequence of allocations that all succeed; `serve_replicate` fills a fresh block.
* `OneWindow`: each owner's blocks lie in one window. It holds as long as no allocation is
  stuck (`oneWindow_of_alloc_eq_slot`), and then a failed search means that all blocks of the
  owner are full (`full_of_existing_eq_none`).
-/

/-- An assigned block: its owner, and how many of its slots have been handed out. -/
structure SlabBlock (ι : Type) where
  /-- The owner the block was assigned to. -/
  owner : ι
  /-- The number of slots handed out: exactly the slots below it. -/
  used : ℕ
  deriving DecidableEq, Repr

/-- The assigned blocks of a pool, in order of assignment. -/
abbrev SlabPool (ι : Type) := List (SlabBlock ι)

namespace SlabPool

variable {ι : Type} [DecidableEq ι]

/-- The outcome of an allocation. -/
inductive Outcome (ι : Type)
  /-- Slot `u` of block `k`, and the pool afterwards. -/
  | slot (k u : ℕ) (pool : SlabPool ι)
  /-- Every block of the pool is assigned. -/
  | exhausted
  /-- A fresh block was assigned, but the search does not find it. -/
  | stuck
  deriving DecidableEq, Repr

variable (cap : ι → ℕ) (window limit : ℕ)

/-- Block `k` belongs to `t` and has a slot left. -/
def HasRoom (pool : SlabPool ι) (t : ι) (k : ℕ) : Prop :=
  ∃ u, pool[k]? = some ⟨t, u⟩ ∧ u < cap t

instance (pool : SlabPool ι) (t : ι) (k : ℕ) : Decidable (HasRoom cap pool t k) :=
  decidable_of_iff (pool[k]?.any (fun b => b.owner = t ∧ b.used < cap t) = true) <| by
    rw [HasRoom, Option.any_eq_true]
    constructor
    · rintro ⟨⟨owner, used⟩, hk, hroom⟩
      obtain ⟨rfl, hused⟩ : owner = t ∧ used < cap t := by simpa using hroom
      exact ⟨used, hk, hused⟩
    · rintro ⟨u, hk, hu⟩
      exact ⟨⟨t, u⟩, hk, by simpa using hu⟩

/-- The first block that belongs to `t`. -/
def firstOwned (pool : SlabPool ι) (t : ι) : Option ℕ :=
  pool.findIdx? fun b => b.owner = t

/-- The first block with room for `t` in the window of the first block of `t`. -/
def existing (pool : SlabPool ι) (t : ι) : Option ℕ :=
  match firstOwned pool t with
  | none => none
  | some k =>
    ((List.range window).map fun j => k / window * window + j).find? fun i =>
      HasRoom cap pool t i

/-- The number of slots of block `k` that have been handed out. -/
def usedOf (pool : SlabPool ι) (k : ℕ) : ℕ :=
  match pool[k]? with
  | some b => b.used
  | none => 0

/-- Hand out the next slot of block `k`. -/
def carve (pool : SlabPool ι) (k : ℕ) : Outcome ι :=
  .slot k (usedOf pool k) (pool.modify k fun b => { b with used := b.used + 1 })

/-- Serve a slot for `t` from a pool of `limit` blocks. -/
def alloc (pool : SlabPool ι) (t : ι) : Outcome ι :=
  match existing cap window pool t with
  | some k => carve pool k
  | none =>
    if pool.length < limit then
      match existing cap window (pool ++ [⟨t, 0⟩]) t with
      | some k => carve (pool ++ [⟨t, 0⟩]) k
      | none => .stuck
    else .exhausted

/-- Serve the owners of a list one after the other; `none` unless every one gets a slot. -/
def serve (pool : SlabPool ι) : List ι → Option (SlabPool ι)
  | [] => some pool
  | t :: ts =>
    match alloc cap window limit pool t with
    | .slot _ _ pool' => serve pool' ts
    | _ => none

/-- The blocks of each owner lie in one window. -/
def OneWindow (pool : SlabPool ι) : Prop :=
  ∀ (i j : ℕ) (b c : SlabBlock ι), pool[i]? = some b → pool[j]? = some c →
    b.owner = c.owner → i / window = j / window

variable {cap window limit} {pool : SlabPool ι} {t : ι}

/-! ## The search -/

theorem firstOwned_eq_none_iff :
    firstOwned pool t = none ↔ ∀ (k : ℕ) (b : SlabBlock ι), pool[k]? = some b → b.owner ≠ t := by
  rw [firstOwned, List.findIdx?_eq_none_iff]
  constructor
  · intro h k b hk howner
    simpa [howner] using h b (List.mem_of_getElem? hk)
  · intro h b hb
    obtain ⟨k, hk⟩ := List.getElem?_of_mem hb
    simpa using h k b hk

theorem firstOwned_eq_some_iff {k : ℕ} :
    firstOwned pool t = some k ↔
      (∃ u, pool[k]? = some ⟨t, u⟩) ∧
        ∀ (i : ℕ) (b : SlabBlock ι), i < k → pool[i]? = some b → b.owner ≠ t := by
  rw [firstOwned, List.findIdx?_eq_some_iff_getElem]
  constructor
  · rintro ⟨hk, howner, hbefore⟩
    refine ⟨⟨pool[k].used, ?_⟩, fun i b hi hb => ?_⟩
    · rw [List.getElem?_eq_getElem hk]
      simp only [decide_eq_true_eq] at howner
      simp [← howner]
    · obtain ⟨hlt, rfl⟩ := List.getElem?_eq_some_iff.mp hb
      simpa using hbefore i hi
  · rintro ⟨⟨u, hk⟩, hbefore⟩
    obtain ⟨hlt, hget⟩ := List.getElem?_eq_some_iff.mp hk
    refine ⟨hlt, by simp [hget], fun i hi => ?_⟩
    simpa using hbefore i _ hi (List.getElem?_eq_getElem (Nat.lt_trans hi hlt))

/-- Assigning another block does not change which block of an owner is the first. -/
theorem firstOwned_append {k : ℕ} (b : SlabBlock ι) (h : firstOwned pool t = some k) :
    firstOwned (pool ++ [b]) t = some k := by
  obtain ⟨⟨u, hk⟩, hbefore⟩ := firstOwned_eq_some_iff.mp h
  have hklt := (List.getElem?_eq_some_iff.mp hk).1
  refine firstOwned_eq_some_iff.mpr ⟨⟨u, ?_⟩, fun i c hi hc => hbefore i c hi ?_⟩
  · rwa [List.getElem?_append_left hklt]
  · rwa [List.getElem?_append_left (Nat.lt_trans hi hklt)] at hc

/-- A block the search returns has room for the owner. -/
theorem hasRoom_of_existing_eq_some {k : ℕ} (h : existing cap window pool t = some k) :
    HasRoom cap pool t k := by
  unfold existing at h
  split at h
  · cases h
  · simpa using List.find?_some h

/-- The search fails exactly when no block in the window of the owner's first block has room. -/
theorem existing_eq_none_iff :
    existing cap window pool t = none ↔
      ∀ k, firstOwned pool t = some k →
        ∀ j < window, ¬HasRoom cap pool t (k / window * window + j) := by
  unfold existing
  split
  next hnone => simp [hnone]
  next k hsome => simp [hsome]

/-! ## What an allocation does -/

/-- After a failed search, the search in the pool with a fresh block can only find that block. -/
private theorem eq_length_of_existing_append {k : ℕ}
    (hfail : existing cap window pool t = none)
    (h : existing cap window (pool ++ [⟨t, 0⟩]) t = some k) : k = pool.length := by
  obtain ⟨u, hk, hu⟩ := hasRoom_of_existing_eq_some h
  by_contra hne
  have hlt : k < pool.length := by
    have := (List.getElem?_eq_some_iff.mp hk).1
    simp only [List.length_append, List.length_singleton] at this
    omega
  rw [List.getElem?_append_left hlt] at hk
  -- the owner had a block before, so its window is the one searched again
  cases hfirst : firstOwned pool t with
  | none => exact firstOwned_eq_none_iff.mp hfirst k _ hk rfl
  | some k₀ =>
    rw [existing, firstOwned_append _ hfirst] at h
    have hmem := List.mem_of_find?_eq_some h
    simp only [List.mem_map, List.mem_range] at hmem
    obtain ⟨j, hj, rfl⟩ := hmem
    exact existing_eq_none_iff.mp hfail k₀ hfirst j hj ⟨u, hk, hu⟩

/-- After a failed search, the fresh block is found exactly when the window of the owner's first
block, if there is one, is the window of the fresh block. -/
private theorem existing_append_eq_some_iff (hwindow : 0 < window) (hcap : 0 < cap t)
    (hfail : existing cap window pool t = none) :
    existing cap window (pool ++ [⟨t, 0⟩]) t = some pool.length ↔
      ∀ k, firstOwned pool t = some k → k / window = pool.length / window := by
  have hfresh : HasRoom cap (pool ++ [⟨t, 0⟩]) t pool.length := ⟨0, by simp, hcap⟩
  constructor
  · intro h k hk
    rw [existing, firstOwned_append _ hk] at h
    have hmem := List.mem_of_find?_eq_some h
    simp only [List.mem_map, List.mem_range] at hmem
    obtain ⟨j, hj, hsum⟩ := hmem
    rw [← hsum, Nat.mul_comm, Nat.mul_add_div hwindow, Nat.div_eq_of_lt hj, Nat.add_zero]
  · intro h
    -- the first owned block of the extended pool lies in the window of the fresh block
    obtain ⟨k, hfirst', hdiv⟩ : ∃ k, firstOwned (pool ++ [⟨t, 0⟩]) t = some k ∧
        k / window = pool.length / window := by
      cases hfirst : firstOwned pool t with
      | none =>
        refine ⟨pool.length, firstOwned_eq_some_iff.mpr ⟨⟨0, by simp⟩, fun i b hi hb => ?_⟩, rfl⟩
        rw [List.getElem?_append_left hi] at hb
        exact firstOwned_eq_none_iff.mp hfirst i b hb
      | some k => exact ⟨k, firstOwned_append _ hfirst, h k hfirst⟩
    cases hex : existing cap window (pool ++ [⟨t, 0⟩]) t with
    | some i => rw [eq_length_of_existing_append hfail hex]
    | none =>
      refine absurd hfresh ?_
      have hnot := existing_eq_none_iff.mp hex k hfirst' (pool.length % window)
        (Nat.mod_lt _ hwindow)
      rwa [hdiv, Nat.div_add_mod'] at hnot

/-- What a served slot says about the pool before and after: the slot is the next one of its
block, the block belongs to the owner, and nothing else changes. -/
theorem alloc_eq_slot {k u : ℕ} {pool' : SlabPool ι} (hcap : 0 < cap t)
    (h : alloc cap window limit pool t = .slot k u pool') :
    u < cap t ∧ pool'[k]? = some ⟨t, u + 1⟩ ∧ (∀ i, i ≠ k → pool'[i]? = pool[i]?) ∧
      (pool[k]? = some ⟨t, u⟩ ∧ pool'.length = pool.length ∨
        k = pool.length ∧ u = 0 ∧ pool.length < limit ∧ pool'.length = pool.length + 1) := by
  unfold alloc carve at h
  split at h
  -- a block with room is there already
  next i hi =>
    obtain ⟨v, hv, hlt⟩ := hasRoom_of_existing_eq_some hi
    simp only [usedOf, hv, Outcome.slot.injEq] at h
    obtain ⟨rfl, rfl, rfl⟩ := h
    refine ⟨hlt, by simp [hv], fun j hj => ?_, Or.inl ⟨hv, by simp⟩⟩
    exact List.getElem?_modify_ne _ _ (Ne.symm hj)
  next hfail =>
    split at h
    next hlimit =>
      split at h
      -- a block was added, and it is the one that serves
      next i hi =>
        obtain rfl := eq_length_of_existing_append hfail hi
        have hget : (pool ++ [(⟨t, 0⟩ : SlabBlock ι)])[pool.length]? = some ⟨t, 0⟩ := by simp
        simp only [usedOf, hget, Outcome.slot.injEq] at h
        obtain ⟨rfl, rfl, rfl⟩ := h
        refine ⟨hcap, by simp, fun j hj => ?_, Or.inr ⟨rfl, rfl, hlimit, by simp⟩⟩
        rw [List.getElem?_modify_ne _ _ (Ne.symm hj)]
        rcases lt_or_gt_of_ne hj with hlt | hgt
        · rw [List.getElem?_append_left hlt]
        · rw [List.getElem?_eq_none (by simp; omega), List.getElem?_eq_none (by omega)]
      next => cases h
    next => cases h

/-- The pool is exhausted exactly when the search fails and no block is left. -/
theorem alloc_eq_exhausted_iff :
    alloc cap window limit pool t = .exhausted ↔
      existing cap window pool t = none ∧ limit ≤ pool.length := by
  unfold alloc carve
  split
  next i hi => simp [hi]
  next hfail =>
    by_cases hlimit : pool.length < limit
    · simp only [hlimit, if_true, hfail, true_and, not_le.mpr hlimit, iff_false]
      split <;> simp
    · simp [hlimit, hfail, not_lt.mp hlimit]

/-- An allocation is stuck exactly when the search fails, a block is left, and the owner's first
block lies in another window than that block. -/
theorem alloc_eq_stuck_iff (hwindow : 0 < window) (hcap : 0 < cap t) :
    alloc cap window limit pool t = .stuck ↔
      existing cap window pool t = none ∧ pool.length < limit ∧
        ∃ k, firstOwned pool t = some k ∧ k / window ≠ pool.length / window := by
  unfold alloc carve
  split
  next i hi => simp [hi]
  next hfail =>
    -- the block that is added serves if it is in the window of the first one
    have hiff := existing_append_eq_some_iff hwindow hcap hfail
    by_cases hlimit : pool.length < limit
    · simp only [hlimit, if_true, hfail, true_and]
      split
      next i hi =>
        obtain rfl := eq_length_of_existing_append hfail hi
        have hsame := hiff.mp hi
        constructor
        · simp
        · rintro ⟨k, hk, hne⟩
          exact absurd (hsame k hk) hne
      next hnone =>
        refine ⟨fun _ => ?_, fun _ => rfl⟩
        by_contra hall
        push Not at hall
        rw [hiff.mpr hall] at hnone
        cases hnone
    · simp [hlimit]

/-! ## One window for each owner -/

omit [DecidableEq ι] in
@[simp]
theorem oneWindow_nil : OneWindow window ([] : SlabPool ι) := by
  simp [OneWindow]

/-- When each owner keeps to one window, a failed search means that its blocks are full. -/
theorem full_of_existing_eq_none (hwindow : 0 < window) (hone : OneWindow window pool)
    (hfail : existing cap window pool t = none) {k : ℕ} {b : SlabBlock ι}
    (hk : pool[k]? = some b) (howner : b.owner = t) : cap t ≤ b.used := by
  by_contra hroom
  cases hfirst : firstOwned pool t with
  | none => exact firstOwned_eq_none_iff.mp hfirst k b hk howner
  | some k₀ =>
    obtain ⟨⟨u₀, hk₀⟩, -⟩ := firstOwned_eq_some_iff.mp hfirst
    have hdiv : k₀ / window = k / window := hone k₀ k _ b hk₀ hk (by simp [howner])
    refine existing_eq_none_iff.mp hfail k₀ hfirst (k % window) (Nat.mod_lt _ hwindow)
      ⟨b.used, ?_, not_le.mp hroom⟩
    rw [hdiv, Nat.div_add_mod', hk, ← howner]

/-- A served slot keeps each owner in one window. -/
theorem oneWindow_of_alloc_eq_slot (hwindow : 0 < window) (hcap : 0 < cap t) {k u : ℕ}
    {pool' : SlabPool ι} (hone : OneWindow window pool)
    (h : alloc cap window limit pool t = .slot k u pool') : OneWindow window pool' := by
  obtain ⟨-, hk', hother, hcase⟩ := alloc_eq_slot hcap h
  -- every owned block of the new pool other than `k` lies in the window of `k`
  have hwith (j : ℕ) (c : SlabBlock ι) (hj : pool'[j]? = some c) (howner : c.owner = t) :
      j / window = k / window := by
    by_cases hjk : j = k
    · rw [hjk]
    rw [hother j hjk] at hj
    rcases hcase with ⟨hk, -⟩ | ⟨rfl, -, hlimit, -⟩
    · exact hone j k c _ hj hk howner
    · have hnot : alloc cap window limit pool t ≠ .stuck := by simp [h]
      have hfail : existing cap window pool t = none := by
        by_contra hsome
        obtain ⟨i, hi⟩ := Option.ne_none_iff_exists'.mp hsome
        obtain ⟨v, hv, -⟩ := hasRoom_of_existing_eq_some hi
        have hlt := (List.getElem?_eq_some_iff.mp hv).1
        simp only [alloc, hi, carve, Outcome.slot.injEq] at h
        omega
      obtain ⟨k₀, hk₀⟩ : ∃ k₀, firstOwned pool t = some k₀ := by
        refine Option.ne_none_iff_exists'.mp fun hnone => ?_
        exact firstOwned_eq_none_iff.mp hnone j c hj howner
      obtain ⟨⟨u₀, hget⟩, -⟩ := firstOwned_eq_some_iff.mp hk₀
      have hsame : k₀ / window = pool.length / window := by
        by_contra hne
        exact hnot ((alloc_eq_stuck_iff hwindow hcap).mpr ⟨hfail, hlimit, k₀, hk₀, hne⟩)
      rw [← hsame]
      exact hone j k₀ c _ hj hget howner
  intro i j b c hi hj hbc
  by_cases hit : b.owner = t
  · rw [hwith i b hi hit, hwith j c hj (hbc ▸ hit)]
  · have hik : i ≠ k := by
      rintro rfl
      rw [hk', Option.some.injEq] at hi
      exact hit (by rw [← hi])
    have hjk : j ≠ k := by
      rintro rfl
      rw [hk', Option.some.injEq] at hj
      exact hit (by rw [hbc, ← hj])
    rw [hother i hik] at hi
    rw [hother j hjk] at hj
    exact hone i j b c hi hj hbc

/-! ## Filling blocks -/

theorem serve_append (pool : SlabPool ι) (ts ts' : List ι) :
    serve cap window limit pool (ts ++ ts') =
      (serve cap window limit pool ts).bind fun pool' => serve cap window limit pool' ts' := by
  induction ts generalizing pool with
  | nil => rfl
  | cons t ts ih =>
    rw [List.cons_append, serve, serve]
    cases alloc cap window limit pool t with
    | slot k u pool' => exact ih pool'
    | exhausted => rfl
    | stuck => rfl

/-- When all blocks of an owner are full, the search fails. -/
theorem existing_eq_none_of_full
    (hfull : ∀ (k : ℕ) (b : SlabBlock ι), pool[k]? = some b → b.owner = t → cap t ≤ b.used) :
    existing cap window pool t = none := by
  refine existing_eq_none_iff.mpr fun _ _ j _ => ?_
  rintro ⟨u, hu, hlt⟩
  exact absurd (hfull _ _ hu rfl) (not_le.mpr hlt)

/-- A fresh block of an owner whose other blocks are full and lie in the same window serves its
next slot. -/
theorem alloc_append {u : ℕ} (hwindow : 0 < window) (hu : u < cap t)
    (hfull : ∀ (k : ℕ) (b : SlabBlock ι), pool[k]? = some b → b.owner = t →
      cap t ≤ b.used ∧ k / window = pool.length / window) :
    alloc cap window limit (pool ++ [⟨t, u⟩]) t =
      .slot pool.length u (pool ++ [⟨t, u + 1⟩]) := by
  have hlast : (pool ++ [(⟨t, u⟩ : SlabBlock ι)])[pool.length]? = some ⟨t, u⟩ := by simp
  have hroom : HasRoom cap (pool ++ [⟨t, u⟩]) t pool.length := ⟨u, hlast, hu⟩
  -- only the last block has room, and the search looks at its window
  have honly (k : ℕ) (hk : HasRoom cap (pool ++ [⟨t, u⟩]) t k) : k = pool.length := by
    obtain ⟨v, hv, hlt⟩ := hk
    by_contra hne
    have hklt := (List.getElem?_eq_some_iff.mp hv).1
    simp only [List.length_append, List.length_singleton] at hklt
    rw [List.getElem?_append_left (by omega)] at hv
    exact absurd (hfull k _ hv rfl).1 (not_le.mpr hlt)
  have hwin (k : ℕ) (hk : firstOwned (pool ++ [⟨t, u⟩]) t = some k) :
      k / window = pool.length / window := by
    obtain ⟨⟨v, hv⟩, -⟩ := firstOwned_eq_some_iff.mp hk
    have hklt := (List.getElem?_eq_some_iff.mp hv).1
    simp only [List.length_append, List.length_singleton] at hklt
    rcases Nat.lt_succ_iff_lt_or_eq.mp hklt with hlt | rfl
    · rw [List.getElem?_append_left hlt] at hv
      exact (hfull k _ hv rfl).2
    · rfl
  have hsearch : existing cap window (pool ++ [⟨t, u⟩]) t = some pool.length := by
    cases hex : existing cap window (pool ++ [⟨t, u⟩]) t with
    | some k => rw [honly k (hasRoom_of_existing_eq_some hex)]
    | none =>
      refine absurd hroom ?_
      cases hfirst : firstOwned (pool ++ [⟨t, u⟩]) t with
      | none => exact (firstOwned_eq_none_iff.mp hfirst _ _ hlast rfl).elim
      | some k =>
        have hnot := existing_eq_none_iff.mp hex k hfirst (pool.length % window)
          (Nat.mod_lt _ hwindow)
        rwa [hwin k hfirst, Nat.div_add_mod'] at hnot
  have hmodify : ((pool ++ [(⟨t, u⟩ : SlabBlock ι)]).modify pool.length fun b =>
      { b with used := b.used + 1 }) = pool ++ [⟨t, u + 1⟩] := by
    clear hlast hroom honly hwin hsearch hfull
    induction pool with
    | nil => rfl
    | cons b pool ih => simpa using ih
  rw [alloc, hsearch]
  simp [carve, usedOf, hmodify]

/-- Serving an owner `c` times from a fresh block hands out the first `c` slots of that block. -/
theorem serve_replicate {c : ℕ} (hwindow : 0 < window) (hc : 0 < c) (hcap : c ≤ cap t)
    (hlimit : pool.length < limit)
    (hfull : ∀ (k : ℕ) (b : SlabBlock ι), pool[k]? = some b → b.owner = t →
      cap t ≤ b.used ∧ k / window = pool.length / window) :
    serve cap window limit pool (List.replicate c t) = some (pool ++ [⟨t, c⟩]) := by
  induction c with
  | zero => omega
  | succ c ih =>
    rw [List.replicate_succ', serve_append]
    by_cases hzero : c = 0
    · -- the first slot comes from the fresh block itself
      subst hzero
      have hfail : existing cap window pool t = none :=
        existing_eq_none_of_full fun k b hk howner => (hfull k b hk howner).1
      have hcarve : alloc cap window limit (pool ++ [⟨t, 0⟩]) t =
          .slot pool.length 0 (pool ++ [⟨t, 1⟩]) := alloc_append hwindow (by omega) hfull
      have hfresh : existing cap window (pool ++ [⟨t, 0⟩]) t = some pool.length := by
        refine (existing_append_eq_some_iff hwindow (by omega) hfail).mpr fun k hk => ?_
        obtain ⟨⟨v, hv⟩, -⟩ := firstOwned_eq_some_iff.mp hk
        exact (hfull k _ hv rfl).2
      rw [alloc, hfresh] at hcarve
      simp only at hcarve
      simp [serve, alloc, hfail, hlimit, hfresh, hcarve]
    · rw [ih (by omega) (by omega), Option.bind_some, serve,
        alloc_append hwindow (by omega) hfull]
      rfl

end SlabPool
