import Hixo.Slub.Refinement

/-!
# Runs of the allocator

A run formats a region and then serves requests of 1 to 2048 bytes, between which the callers
may store into the objects they were handed. A failing assertion ends the program, so every
allocation of a run has returned.

* `Run p size tr m`: the run with events `tr` ends in memory `m`;
* `Served`: how the results of a run relate to the pool: every result is a slot that was handed
  out, every slot handed out is a result, and no two results overlap;
* `Run.exists_pool`: in every run whose stores cannot reach the metadata, the memory describes
  a pool with these properties;
* `Run.serve`: every sequence of allocations of the pool is a run of the allocator.
-/

namespace Hixo.Slub

open ByteMem SlabPool

/-! ## Runs -/

/-- What happens in a run. -/
inductive Event
  /-- `slub_alloc` was called for an object of `size` bytes and returned `rslt`. -/
  | alloc (size : ℕ) (rslt : Option ℕ)
  /-- A caller stored a byte. -/
  | store (addr : ℕ) (value : BitVec 8)

/-- The address lies in an object that was handed out. -/
def InObject (tr : List Event) (a : ℕ) : Prop :=
  ∃ s r, .alloc s (some r) ∈ tr ∧ r ≤ a ∧ a < r + s

/-- The runs on a region of `size` bytes at `p`. -/
inductive Run (p size : ℕ) : List Event → ByteMem → Prop
  | format {m₀ m : ByteMem} : slubFormat m₀ p size = .ok (some m) → Run p size [] m
  | alloc {tr : List Event} {m m' : ByteMem} {s : ℕ} {r : Option ℕ} :
      Run p size tr m → 0 < s → s ≤ 2048 → slubAlloc m p s = .ok (r, m') →
      Run p size (tr ++ [.alloc s r]) m'
  | store {tr : List Event} {m : ByteMem} {a : ℕ} {b : BitVec 8} :
      Run p size tr m → InObject tr a → Run p size (tr ++ [.store a b]) (m.store a b)

/-- No caller stores anything in the run. -/
def AllocOnly (tr : List Event) : Prop :=
  ∀ a b, .store a b ∉ tr

/-- The results of two allocations do not overlap, counting the full slot of each. -/
def DisjointResults (e e' : Event) : Prop :=
  ∀ s r s' r' t t', e = .alloc s (some r) → e' = .alloc s' (some r') →
    typeOfSize s = some t → typeOfSize s' = some t' →
    r + typeSize t ≤ r' ∨ r' + typeSize t' ≤ r

/-- A run starts with an accepted region. -/
theorem Run.accepted {p size : ℕ} {tr : List Event} {m : ByteMem} (h : Run p size tr m) :
    0 < p ∧ 2 * blockSize ≤ size := by
  induction h with
  | format hformat =>
    obtain ⟨hp, hsize, -⟩ := slubFormat_eq_some_iff.mp hformat
    exact ⟨hp, hsize⟩
  | alloc _ _ _ _ ih => exact ih
  | store _ _ ih => exact ih

/-! ## Slots -/

/-- A slot lies in its block. -/
theorem slotAt_bounds {p k t u : ℕ} (ht : t < objTypeCount) (hu : u < occupy t) :
    p + blockSize + k * blockSize ≤ slotAt p k t u ∧
      slotAt p k t u + typeSize t ≤ p + blockSize + (k + 1) * blockSize := by
  have hend := slot_end_le ht hu
  rw [Nat.succ_mul]
  unfold slotAt
  omega

/-- Two slots of one block do not overlap. -/
theorem slotAt_disjoint_of_lt {p k t u u' : ℕ} (h : u < u') :
    slotAt p k t u + typeSize t ≤ slotAt p k t u' := by
  have hmul : (u + 1) * typeSize t ≤ u' * typeSize t := Nat.mul_le_mul_right _ h
  rw [Nat.succ_mul] at hmul
  unfold slotAt
  omega

/-- Slots of different blocks do not overlap. -/
theorem slotAt_disjoint_of_ne {p k k' t t' u u' : ℕ} (ht : t < objTypeCount)
    (ht' : t' < objTypeCount) (hu : u < occupy t) (hu' : u' < occupy t') (h : k ≠ k') :
    slotAt p k t u + typeSize t ≤ slotAt p k' t' u' ∨
      slotAt p k' t' u' + typeSize t' ≤ slotAt p k t u := by
  have hb := slotAt_bounds (p := p) (k := k) ht hu
  have hb' := slotAt_bounds (p := p) (k := k') ht' hu'
  rcases lt_or_gt_of_ne h with hlt | hgt
  · left
    have hmul : (k + 1) * blockSize ≤ k' * blockSize := Nat.mul_le_mul_right _ hlt
    omega
  · right
    have hmul : (k' + 1) * blockSize ≤ k * blockSize := Nat.mul_le_mul_right _ hgt
    omega

/-! ## The results of a run -/

/-- The results of a run are the slots the pool has handed out. -/
structure Served (p : ℕ) (tr : List Event) (pool : SlabPool ℕ) : Prop where
  /-- A result is a slot that was handed out, of a block its object type owns. -/
  isSlot : ∀ s r, .alloc s (some r) ∈ tr →
    ∃ t k u v, typeOfSize s = some t ∧ pool[k]? = some ⟨t, v⟩ ∧ u < v ∧ r = slotAt p k t u
  /-- A slot that was handed out is a result. -/
  isResult : ∀ k t v u, pool[k]? = some ⟨t, v⟩ → u < v →
    ∃ s, typeOfSize s = some t ∧ .alloc s (some (slotAt p k t u)) ∈ tr
  /-- No two results overlap. -/
  disjoint : tr.Pairwise DisjointResults

/-- An event that hands out nothing leaves the objects that were served as they are. -/
theorem Served.append_other {p : ℕ} {tr : List Event} {pool : SlabPool ℕ} {e : Event}
    (h : Served p tr pool) (he : ∀ s r, e ≠ .alloc s (some r)) : Served p (tr ++ [e]) pool where
  isSlot s r hmem := by
    rcases List.mem_append.mp hmem with hold | hnew
    · exact h.isSlot s r hold
    · exact absurd (List.mem_singleton.mp hnew).symm (he s r)
  isResult k t v u hk hu := by
    obtain ⟨s, hs, hmem⟩ := h.isResult k t v u hk hu
    exact ⟨s, hs, List.mem_append_left _ hmem⟩
  disjoint := by
    refine List.pairwise_append.mpr ⟨h.disjoint, List.pairwise_singleton _ _, ?_⟩
    intro e₁ _ e₂ he₂ s r s' r' t t' _ h₂
    exact absurd ((List.mem_singleton.mp he₂).symm.trans h₂) (he s' r')

/-- The slot that a pool serves is a new result. -/
theorem Served.append_slot {p n s t k u : ℕ} {tr : List Event} {m : ByteMem}
    {pool pool' : SlabPool ℕ} {window limit : ℕ} (h : Served p tr pool)
    (hrep : Represents m p n pool) (ht : typeOfSize s = some t)
    (halloc : SlabPool.alloc occupy window limit pool t = .slot k u pool') :
    Served p (tr ++ [.alloc s (some (slotAt p k t u))]) pool' := by
  have htlt : t < objTypeCount := (typeOfSize_eq_some_iff.mp ht).1
  obtain ⟨hu, hk', hother, hcase⟩ := alloc_eq_slot (occupy_pos htlt) halloc
  -- a slot handed out before is handed out still, and it is not the new one
  have hkeep (j t' v u' : ℕ) (hj : pool[j]? = some ⟨t', v⟩) (hu' : u' < v) :
      ∃ v', pool'[j]? = some ⟨t', v'⟩ ∧ u' < v' ∧ (j = k → t' = t ∧ u' < u) := by
    by_cases hjk : j = k
    · subst hjk
      rcases hcase with ⟨hold, -⟩ | ⟨rfl, -⟩
      · rw [hold] at hj
        simp only [Option.some.injEq, SlabBlock.mk.injEq] at hj
        obtain ⟨rfl, rfl⟩ := hj
        exact ⟨u + 1, hk', by omega, fun _ => ⟨rfl, hu'⟩⟩
      · simp at hj
    · exact ⟨v, (hother j hjk).trans hj, hu', fun h => absurd h hjk⟩
  refine ⟨fun s' r' hmem => ?_, fun j t' v u' hj hu' => ?_, ?_⟩
  · rcases List.mem_append.mp hmem with hold | hnew
    · obtain ⟨t', j, u', v, ht', hj, hu', rfl⟩ := h.isSlot s' r' hold
      obtain ⟨v', hj', hlt, -⟩ := hkeep j t' v u' hj hu'
      exact ⟨t', j, u', v', ht', hj', hlt, rfl⟩
    · simp only [List.mem_singleton, Event.alloc.injEq, Option.some.injEq] at hnew
      obtain ⟨rfl, rfl⟩ := hnew
      exact ⟨t, k, u, u + 1, ht, hk', by omega, rfl⟩
  · by_cases hjk : j = k
    · subst hjk
      rw [hk'] at hj
      simp only [Option.some.injEq, SlabBlock.mk.injEq] at hj
      obtain ⟨rfl, rfl⟩ := hj
      rcases Nat.lt_succ_iff_lt_or_eq.mp hu' with hlt | rfl
      · rcases hcase with ⟨hold, -⟩ | ⟨-, rfl, -⟩
        · obtain ⟨s', hs', hmem⟩ := h.isResult j t u u' hold hlt
          exact ⟨s', hs', List.mem_append_left _ hmem⟩
        · omega
      · exact ⟨s, ht, List.mem_append_right _ (List.mem_singleton.mpr rfl)⟩
    · rw [hother j hjk] at hj
      obtain ⟨s', hs', hmem⟩ := h.isResult j t' v u' hj hu'
      exact ⟨s', hs', List.mem_append_left _ hmem⟩
  · refine List.pairwise_append.mpr ⟨h.disjoint, List.pairwise_singleton _ _, ?_⟩
    intro e he e' he' s₁ r₁ s₂ r₂ t₁ t₂ h₁ h₂ hs₁ hs₂
    obtain rfl := List.mem_singleton.mp he'
    simp only [Event.alloc.injEq, Option.some.injEq] at h₂
    obtain ⟨rfl, rfl⟩ := h₂
    obtain rfl : t = t₂ := Option.some.inj (ht.symm.trans hs₂)
    subst h₁
    obtain ⟨t', j, u', v, ht', hj, hu', rfl⟩ := h.isSlot s₁ r₁ he
    obtain rfl : t' = t₁ := Option.some.inj (ht'.symm.trans hs₁)
    obtain ⟨-, -, -, hsame⟩ := hkeep j t' v u' hj hu'
    obtain ⟨ht'lt, hv⟩ := hrep.owned hj
    by_cases hjk : j = k
    · obtain ⟨rfl, hlt⟩ := hsame hjk
      subst hjk
      exact Or.inl (slotAt_disjoint_of_lt hlt)
    · exact slotAt_disjoint_of_ne ht'lt htlt (lt_of_lt_of_le hu' hv) hu hjk

/-! ## The pool of a run -/

/-- A result of a run starts in the block area. -/
theorem Served.le_result {p n s r : ℕ} {tr : List Event} {m : ByteMem} {pool : SlabPool ℕ}
    (h : Served p tr pool) (hrep : Represents m p n pool) (hmem : .alloc s (some r) ∈ tr) :
    p + blockSize ≤ r := by
  obtain ⟨t, k, u, v, ht, hk, hu, rfl⟩ := h.isSlot s r hmem
  obtain ⟨htlt, hv⟩ := hrep.owned hk
  have hb := (slotAt_bounds (p := p) (k := k) htlt (lt_of_lt_of_le hu hv)).1
  omega

/-- As long as the stores of the callers cannot reach the metadata, the memory describes a pool
whose slots are the results of the run, and every object type keeps to the blocks of one bitmap
byte. -/
theorem Run.exists_pool {p size : ℕ} {tr : List Event} {m : ByteMem} (h : Run p size tr m)
    (hfits : p + size ≤ 2 ^ 64)
    (hsafe : AllocOnly tr ∨ metadataEnd p (blockCount size) ≤ p + blockSize) :
    ∃ pool, Represents m p (blockCount size) pool ∧ Served p tr pool ∧ OneWindow 8 pool := by
  induction h with
  | format hformat =>
    exact ⟨[], represents_of_slubFormat hfits hformat, ⟨by simp, by simp, .nil⟩, by simp⟩
  | @alloc tr m m' s r hrun hs hle halloc ih =>
    obtain ⟨pool, hrep, hserved, hone⟩ := ih <|
      hsafe.imp_left fun honly a b hmem => honly a b (List.mem_append_left _ hmem)
    obtain ⟨t, ht⟩ := exists_typeOfSize hle
    have htlt : t < objTypeCount := (typeOfSize_eq_some_iff.mp ht).1
    -- the call does what the abstract pool does
    have hspec := slubAlloc_spec hrep hrun.accepted.1 hs ht
    cases hout : SlabPool.alloc occupy 8 (offeredBlocks (blockCount size)) pool t with
    | slot k u pool' =>
      simp only [hout] at hspec
      obtain ⟨m'', hret, hrep', -⟩ := hspec
      simp only [hret, Except.ok.injEq, Prod.mk.injEq] at halloc
      obtain ⟨rfl, rfl⟩ := halloc
      exact ⟨pool', hrep', hserved.append_slot hrep ht hout,
        oneWindow_of_alloc_eq_slot (by omega) (occupy_pos htlt) hone hout⟩
    | exhausted =>
      simp only [hout] at hspec
      simp only [hspec, Except.ok.injEq, Prod.mk.injEq] at halloc
      obtain ⟨rfl, rfl⟩ := halloc
      exact ⟨pool, hrep, hserved.append_other (by simp), hone⟩
    | stuck =>
      simp only [hout] at hspec
      simp [hspec] at halloc
  | @store tr m a b hrun hobj ih =>
    -- a store happened, so the metadata must end within the first block
    have hmeta : metadataEnd p (blockCount size) ≤ p + blockSize :=
      hsafe.resolve_left fun honly => honly a b (by simp)
    obtain ⟨pool, hrep, hserved, hone⟩ := ih (Or.inr hmeta)
    obtain ⟨s, r, hmem, hra, -⟩ := hobj
    -- the store stays inside of an object, and objects lie behind the first block
    have hr := hserved.le_result hrep hmem
    refine ⟨pool, hrep.congr (eqOn_store m a b ?_), hserved.append_other (by simp), hone⟩
    simp only [Set.mem_Ico]
    omega

/-! ## Runs from allocations of the pool -/

/-- Every region of two pages or more can be formatted. -/
theorem exists_run_format {p size : ℕ} (hp : 0 < p) (hfits : p + size ≤ 2 ^ 64)
    (hsize : 2 * blockSize ≤ size) :
    ∃ m, Run p size [] m ∧ Represents m p (blockCount size) [] := by
  have hformat : slubFormat (fun _ => 0) p size =
      .ok (some (formatRegion (fun _ => 0) p (blockCount size))) :=
    slubFormat_eq_some_iff.mpr ⟨hp, hsize, rfl⟩
  exact ⟨_, .format hformat, represents_of_slubFormat hfits hformat⟩

/-- A slot served by the pool is a step of a run. -/
theorem Run.alloc_slot {p size s t k u : ℕ} {tr : List Event} {m : ByteMem}
    {pool pool' : SlabPool ℕ} (h : Run p size tr m)
    (hrep : Represents m p (blockCount size) pool) (hs : 0 < s) (hle : s ≤ 2048)
    (ht : typeOfSize s = some t)
    (halloc : SlabPool.alloc occupy 8 (offeredBlocks (blockCount size)) pool t =
      .slot k u pool') :
    ∃ m', Run p size (tr ++ [.alloc s (some (slotAt p k t u))]) m' ∧
      Represents m' p (blockCount size) pool' := by
  have hspec := slubAlloc_spec hrep h.accepted.1 hs ht
  simp only [halloc] at hspec
  obtain ⟨m', hret, hrep', -⟩ := hspec
  exact ⟨m', h.alloc hs hle hret, hrep'⟩

theorem AllocOnly.append_alloc {tr : List Event} {s : ℕ} {r : Option ℕ} (h : AllocOnly tr) :
    AllocOnly (tr ++ [.alloc s r]) := by
  intro a b hmem
  rcases List.mem_append.mp hmem with hold | hnew
  · exact h a b hold
  · simp at hnew

/-- The objects of a type are requested with its size. -/
theorem typeOfSize_typeSize {t : ℕ} (ht : t < objTypeCount) :
    typeSize t ≤ 2048 ∧ typeOfSize (typeSize t) = some t := by
  have hall : ∀ t < objTypeCount, typeSize t ≤ 2048 ∧ typeOfSize (typeSize t) = some t := by
    decide
  exact hall t ht

/-- Every sequence of allocations of the pool is a run without stores. -/
theorem Run.serve {p size : ℕ} {tr : List Event} {m : ByteMem} {pool pool' : SlabPool ℕ}
    (h : Run p size tr m) (honly : AllocOnly tr) (hrep : Represents m p (blockCount size) pool)
    {ts : List ℕ} (hts : ∀ t ∈ ts, t < objTypeCount)
    (hserve : SlabPool.serve occupy 8 (offeredBlocks (blockCount size)) pool ts = some pool') :
    ∃ tr' m', Run p size tr' m' ∧ AllocOnly tr' ∧ Represents m' p (blockCount size) pool' := by
  -- one request after the other, in the order of the list
  induction ts generalizing tr m pool with
  | nil =>
    obtain rfl : pool = pool' := Option.some.inj hserve
    exact ⟨tr, m, h, honly, hrep⟩
  | cons t ts ih =>
    have htlt : t < objTypeCount := hts t (by simp)
    obtain ⟨hle, ht⟩ := typeOfSize_typeSize htlt
    rw [SlabPool.serve] at hserve
    cases hout : SlabPool.alloc occupy 8 (offeredBlocks (blockCount size)) pool t with
    | slot k u pool₁ =>
      simp only [hout] at hserve
      obtain ⟨m₁, hrun₁, hrep₁⟩ := h.alloc_slot hrep (typeSize_pos htlt) hle ht hout
      exact ih hrun₁ honly.append_alloc hrep₁ (fun t' ht' => hts t' (by simp [ht'])) hserve
    | exhausted => simp [hout] at hserve
    | stuck => simp [hout] at hserve

/-! ## Runs that fill blocks -/

/-- The object type that fills block `k`: the blocks of one bitmap byte get the same type, those
of different bytes different types. -/
def fillType (k : ℕ) : ℕ := 8 - k / 8

/-- The pool whose first `n` blocks are full, block `k` with objects of type `fillType k`. -/
def filledPool (n : ℕ) : SlabPool ℕ :=
  (List.range n).map fun k => ⟨fillType k, occupy (fillType k)⟩

/-- The requests that lead to `filledPool n`. -/
def fillRequests (n : ℕ) : List ℕ :=
  (List.range n).flatMap fun k => List.replicate (occupy (fillType k)) (fillType k)

theorem fillType_lt (k : ℕ) : fillType k < objTypeCount := by
  rw [fillType, objTypeCount_eq]
  omega

@[simp]
theorem length_filledPool (n : ℕ) : (filledPool n).length = n := by
  simp [filledPool]

/-- The blocks of the filled pool are full, and those of one type lie in one bitmap byte. -/
theorem filledPool_full {n k k' : ℕ} {b : SlabBlock ℕ} (hk : k < 64) (hk' : k' < 64)
    (hb : (filledPool n)[k]? = some b) (howner : b.owner = fillType k') :
    occupy (fillType k') ≤ b.used ∧ k / 8 = k' / 8 := by
  have hkn : k < n := by simpa using (List.getElem?_eq_some_iff.mp hb).1
  obtain rfl : (⟨fillType k, occupy (fillType k)⟩ : SlabBlock ℕ) = b := by
    simpa [filledPool, hkn] using hb
  have hsame : fillType k = fillType k' := howner
  refine ⟨by simp [hsame], ?_⟩
  unfold fillType at hsame
  omega

/-- Serving the first `n` requests of `fillRequests` fills the first `n` blocks. -/
theorem serve_fillRequests {n limit : ℕ} (hlimit : n ≤ limit) (hn : n ≤ 32) :
    SlabPool.serve occupy 8 limit [] (fillRequests n) = some (filledPool n) := by
  induction n with
  | zero => rfl
  | succ n ih =>
    have hfill : fillRequests (n + 1) =
        fillRequests n ++ List.replicate (occupy (fillType n)) (fillType n) := by
      simp [fillRequests, List.range_succ]
    have hpool : filledPool (n + 1) = filledPool n ++ [⟨fillType n, occupy (fillType n)⟩] := by
      simp [filledPool, List.range_succ]
    -- the last block is full once its type was served `occupy` times
    rw [hfill, serve_append, ih (by omega) (by omega), Option.bind_some, hpool]
    refine serve_replicate (by omega) (occupy_pos (fillType_lt n)) le_rfl
      (by rw [length_filledPool]; omega) fun k b hk howner => ?_
    have hkn : k < n := by simpa using (List.getElem?_eq_some_iff.mp hk).1
    rw [length_filledPool]
    exact filledPool_full (by omega) (by omega) hk howner

/-- Every region has a run that fills its first `c` offered blocks. -/
theorem exists_run_filled {p size c : ℕ} (hp : 0 < p) (hfits : p + size ≤ 2 ^ 64)
    (hsize : 2 * blockSize ≤ size) (hc : c ≤ offeredBlocks (blockCount size)) :
    ∃ tr m, Run p size tr m ∧ AllocOnly tr ∧
      Represents m p (blockCount size) (filledPool c) := by
  have hcount := (blockCount_bounds hsize).2
  have hoffered := offeredBlocks_le (blockCount size)
  obtain ⟨m, hrun, hrep⟩ := exists_run_format hp hfits hsize
  refine hrun.serve (fun _ _ => by simp) hrep (fun t ht => ?_)
    (serve_fillRequests hc (by omega))
  simp only [fillRequests, List.mem_flatMap, List.mem_replicate] at ht
  obtain ⟨k, -, -, rfl⟩ := ht
  exact fillType_lt k

end Hixo.Slub
