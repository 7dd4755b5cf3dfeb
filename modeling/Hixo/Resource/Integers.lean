import Hixo.Foundation.Programs
import Hixo.Resource.Runs

/-!
# Integers in a pool

The program `hixo_resource_test.c`, with any number of elements. It takes all elements of a pool,
stores a number in each of them and puts them on a list of its own, through the same nodes that the
free list used. Then it prints the numbers along this list.

* `storeInt`, `printInts`, `destroyResource`, `testMain`: the program;
* `Local`: writes inside of one element;
* `Chain`, `Filled`: the list of the program, and the pool with it;
* `Filled.storeInt`: a pass of the first loop;
* `testMain_prints`: what is printed.

In a debug build the number overwrites the mark of its element, which no call looks at again.
-/

namespace Hixo

namespace Resource

open LinkHeap Pool

/-- Why the program stops. -/
inductive TestFault where
  /-- An assertion in `resource.c`. -/
  | resource (a : Abort)
  /-- `p_integer` is `NULL`. -/
  | nullElement
  /-- `assert(NULL == int_rsc.mp_free_list)` -/
  | freeList
  /-- The list does not end. -/
  | endless
  deriving DecidableEq, Repr

/-- `p_integer->x = x` -/
def Pool.setX (p : Pool) (e x : ℕ) : Pool := { p with mem := p.mem.writeLE e 4 x }

/-- `p_data->x` -/
def Pool.getX (p : Pool) (e : ℕ) : ℤ := (BitVec.ofNat 32 (p.mem.readLE e 4)).toInt

/-- A pass of the first loop, on the pool and `p_ints`. The node of an `integer_t` is 8 bytes into
it. -/
def storeInt (debug : Bool) (rsc : ℕ) (s : Pool × ℕ) (i : ℕ) : Except TestFault (Pool × ℕ) :=
  match s.1.allocResource debug rsc with
  | .error a => .error (.resource a)
  | .ok (none, _) => .error .nullElement
  | .ok (some e, p) => .ok ((p.setX e i).setWord (e + 8) s.2, e + 8)

/-- The second loop: the numbers that are printed. -/
def printInts (p : Pool) : ℕ → ℕ → Except TestFault (List ℤ)
  | _, 0 => .ok []
  | 0, _ + 1 => .error .endless
  | fuel + 1, a + 1 => do
    let rest ← printInts p fuel (p.word (a + 1))
    return p.getX (a + 1 - 8) :: rest

/-- `destroy_resource`. The memory is given back. -/
def Pool.destroyResource (p : Pool) : Pool :=
  { p with start := 0, stop := 0, freeList := 0, used := 0, capacity := 0 }

/-- `main` with `count` for `DATA_COUNT`: the numbers that are printed, and the pool at the end.
`none` stands for `EXIT_FAILURE`. An `integer_t` has 16 bytes. -/
def testMain (debug : Bool) (rsc calloc : ℕ) (mem : ByteMem) (count : ℕ) :
    Except TestFault (Option (List ℤ × Pool)) :=
  match Pool.createResource debug rsc calloc { mem } count 16 8 with
  | .error a => .error (.resource a)
  | .ok (false, _) => .ok none
  | .ok (true, p) => do
    let (p, ints) ← (List.range count).foldlM (storeInt debug rsc) (p, 0)
    if p.freeList ≠ 0 then .error .freeList
    else
      let xs ← printInts p count ints
      return some (xs, p.destroyResource)

/-! ## Inside of one element -/

section Local

variable {L : Layout} {debug : Bool} {p : Pool} {m m' m'' mem : ByteMem} {i a n v : ℕ}
  {free live : List ℕ}

/-- What lies inside of other elements than `i` is the same. -/
def Local (L : Layout) (i : ℕ) (m m' : ByteMem) : Prop :=
  ∀ j, j ≠ i → ∀ a n, L.elem j ≤ a → a + n ≤ L.elem j + L.size → m'.readLE a n = m.readLE a n

theorem Local.refl (i : ℕ) (m : ByteMem) : Local L i m m := fun _ _ _ _ _ _ => rfl

theorem Local.trans (h : Local L i m m') (h' : Local L i m' m'') : Local L i m m'' :=
  fun j hj a n ha han => (h' j hj a n ha han).trans (h j hj a n ha han)

theorem Local.writeLE (ha : L.elem i ≤ a) (han : a + n ≤ L.elem i + L.size) :
    Local L i m (m.writeLE a n v) :=
  fun _ hj _ _ hb hbk => ByteMem.readLE_writeLE_of_disjoint m v (L.disjoint hj hb hbk ha han)

/-- A write inside one element leaves the words of the nodes of all others alone. -/
theorem Local.word (h : Local L i p.mem mem) {j : ℕ} (hj : j ≠ i) :
    ({ p with mem } : Pool).word (L.node j) = p.word (L.node j) := by
  have hinside := L.offset_le
  refine h j hj _ 8 (Nat.le_add_right ..) ?_
  unfold Layout.node
  omega

/-- Without the marks, a pool does not depend on the elements in use. -/
theorem Holds.local (h : Holds L false p free live) (hlocal : Local L i p.mem mem)
    (hi : i ∉ free) : Holds L false { p with mem } free live where
  start := h.start
  stop := h.stop
  offset := h.offset
  list := list_congr h.list rfl fun _ hj => hlocal.word fun hji => hi (hji ▸ hj)
  perm := h.perm
  used := h.used
  belong := nofun

/-- The pool after element `i` was taken, without its mark. -/
def taken (L : Layout) (p : Pool) (i : ℕ) : Pool :=
  { p.setWord (L.node i) 0 with freeList := p.word (L.node i), used := p.used + 1 }

theorem local_taken (p : Pool) (i : ℕ) : Local L i p.mem (taken L p i).mem := by
  have hinside := L.offset_le
  have hlt : L.node i + 8 ≤ L.elem i + L.size := by
    unfold Layout.node
    omega
  exact Local.writeLE (v := 0) (Nat.le_add_right ..) hlt

/-- The first free element is taken. With `DEBUG_FLAG` its mark is looked at and changed. -/
theorem Holds.allocResource_eq (h : Holds L false p (i :: free) live) (hoffset : L.offset < 2 ^ 31)
    (hmark : debug = true → p.word (L.elem i) = L.rsc) :
    p.allocResource debug L.rsc = .ok (some (L.elem i),
      if debug then (taken L p i).setWord (L.elem i) (L.rsc ||| 1) else taken L p i) := by
  obtain ⟨hhead, hload, -⟩ := h.unlink
  have hrm : p.rmNode (L.node i) 1 none =
      some (true, (p.save none (p.word (L.node i))).save (some (L.node i)) 0) := by
    rw [Pool.rmNode, if_neg hload, if_pos hhead.symm]
  have helem : ((L.node i : ℤ) - p.offset.toInt).toNat = L.elem i := by
    rw [h.offset, L.toInt_offset hoffset]
    unfold Layout.node
    omega
  have hword : (taken L p i).word (L.elem i) = p.word (L.elem i) := by
    unfold Pool.word taken Pool.setWord
    exact ByteMem.readLE_writeLE_of_disjoint p.mem 0 (L.elem_disjoint_node i i)
  rw [Pool.allocResource, if_neg hload]
  simp only [taken, Pool.setWord] at hword ⊢
  simp only [hhead, hrm, Pool.save, Pool.setWord, helem, hword]
  cases debug with
  | false => simp only [Bool.false_eq_true, if_false]
  | true => simp only [if_true, hmark rfl]

theorem Holds.taken (h : Holds L false p (i :: free) live) (hoffset : L.offset < 2 ^ 31) :
    Holds L false (taken L p i) free (i :: live) := by
  obtain ⟨p', hcall, hold⟩ := h.allocResource hoffset
  have hplain : p.allocResource false L.rsc = .ok (some (L.elem i), Resource.taken L p i) :=
    h.allocResource_eq hoffset nofun
  have hsame : p' = Resource.taken L p i :=
    (Prod.mk.inj (Except.ok.inj (hcall.symm.trans hplain))).2
  rwa [← hsame]

end Local

/-! ## The list of the program -/

/-- The list from address `a` on: the indices of its elements with their numbers. -/
def Chain (L : Layout) (p : Pool) : ℕ → List (ℕ × ℕ) → Prop
  | a, [] => a = 0
  | a, (i, x) :: xs =>
    a = L.node i ∧ p.mem.readLE (L.elem i) 4 = x ∧ Chain L p (p.word (L.node i)) xs

/-- The pool in the first loop: the elements of `xs` are on the list that starts at `ints`, and the
others are free. -/
structure Filled (L : Layout) (debug : Bool) (p : Pool) (ints : ℕ) (free : List ℕ)
    (xs : List (ℕ × ℕ)) : Prop where
  holds : Holds L false p free (xs.map Prod.fst)
  mark : debug = true → ∀ i ∈ free, p.word (L.elem i) = L.rsc
  chain : Chain L p ints xs

section Filled

variable {L : Layout} {debug : Bool} {p : Pool} {mem : ByteMem} {i a x ints : ℕ} {free : List ℕ}
  {xs : List (ℕ × ℕ)}

/-- A write inside an element that is not on a list leaves the list alone. -/
theorem Chain.local (h : Chain L p a xs) (hlocal : Local L i p.mem mem)
    (hi : i ∉ xs.map Prod.fst) {p' : Pool} (hmem : p'.mem = mem) : Chain L p' a xs := by
  induction xs generalizing a with
  | nil => exact h
  | cons y xs ih =>
    obtain ⟨j, x⟩ := y
    obtain ⟨ha, hx, hrest⟩ := h
    obtain ⟨hne, hi⟩ := List.ne_and_not_mem_of_not_mem_cons hi
    have hinside := L.offset_le
    have hword : p'.word (L.node j) = p.word (L.node j) := by
      unfold Pool.word
      rw [hmem]
      refine hlocal j (Ne.symm hne) _ 8 (Nat.le_add_right ..) ?_
      unfold Layout.node
      omega
    refine ⟨ha, ?_, ?_⟩
    · rw [hmem, hlocal j (Ne.symm hne) _ 4 le_rfl (by omega), hx]
    · rw [hword]
      exact ih hrest hi

/-- The list that `main` builds starts at a pointer. -/
theorem Filled.ints_lt (h : Filled L debug p ints free xs) : ints < 2 ^ 64 := by
  have hchain := h.chain
  cases xs with
  | nil =>
    obtain rfl : ints = 0 := hchain
    omega
  | cons y xs =>
    obtain ⟨rfl, -⟩ := hchain
    exact L.node_lt (h.holds.mem_iff.mp (.inr (by simp)))

/-- A pass of the first loop takes the first free element. -/
theorem Filled.storeInt (h : Filled L debug p ints (i :: free) xs) (hsize : L.size = 16)
    (hoffset : L.offset = 8) (hx : x < 2 ^ 32) :
    ∃ p', Resource.storeInt debug L.rsc (p, ints) x = .ok (p', L.node i) ∧
      Filled L debug p' (L.node i) free ((i, x) :: xs) := by
  have hsmall : L.offset < 2 ^ 31 := by omega
  have hnode : L.node i = L.elem i + 8 := by rw [Layout.node, hoffset]
  obtain ⟨hfree, hlist⟩ : i ∉ free ∧ i ∉ xs.map Prod.fst := by
    have hnodup := (List.nodup_cons.mp h.holds.nodup).1
    exact ⟨hnodup ∘ List.mem_append_left _, hnodup ∘ List.mem_append_right _⟩
  -- the element that was taken, with its mark or without it
  obtain ⟨mem, hcall, hmark⟩ : ∃ mem, p.allocResource debug L.rsc =
      .ok (some (L.elem i), { taken L p i with mem }) ∧ Local L i (taken L p i).mem mem := by
    have heq := h.holds.allocResource_eq hsmall fun hdebug => h.mark hdebug i List.mem_cons_self
    cases debug with
    | false => exact ⟨_, heq, .refl _ _⟩
    | true => exact ⟨_, heq, Local.writeLE le_rfl (by omega)⟩
  have hlocal : Local L i mem ((mem.writeLE (L.elem i) 4 x).writeLE (L.elem i + 8) 8 ints) :=
    (Local.writeLE le_rfl (by omega)).trans (Local.writeLE (by omega) (by omega))
  have hall := (local_taken p i).trans (hmark.trans hlocal)
  refine ⟨{ taken L p i with
    mem := (mem.writeLE (L.elem i) 4 x).writeLE (L.elem i + 8) 8 ints }, ?_,
    (h.holds.taken hsmall).local (hmark.trans hlocal) hfree, fun hdebug j hj => ?_, rfl, ?_, ?_⟩
  · rw [Resource.storeInt, hcall, hnode]
    rfl
  · have hji : j ≠ i := fun hji => hfree (hji ▸ hj)
    exact (hall j hji _ 8 le_rfl (by omega)).trans (h.mark hdebug j (List.mem_cons_of_mem _ hj))
  · show ByteMem.readLE (ByteMem.writeLE _ _ 8 ints) _ 4 = x
    rw [ByteMem.readLE_writeLE_of_disjoint _ _ (.inl (by omega)), ByteMem.readLE_writeLE_self]
    exact Nat.mod_eq_of_lt hx
  · have hword : ByteMem.readLE (ByteMem.writeLE (mem.writeLE (L.elem i) 4 x) (L.elem i + 8) 8 ints)
        (L.node i) 8 = ints := by
      rw [hnode, ByteMem.readLE_writeLE_self]
      exact Nat.mod_eq_of_lt h.ints_lt
    unfold Pool.word
    rw [hword]
    exact h.chain.local hall hlist rfl

/-- The elements on the list after `n` passes: the pool gives its last element first. -/
def stored (count n : ℕ) : List (ℕ × ℕ) := (List.range n).reverse.map fun x => (count - 1 - x, x)

/-- The first loop of `main` takes elements and links them, the last one first. -/
theorem filled_foldlM (h : Filled L debug p 0 (List.range L.count).reverse []) (hsize : L.size = 16)
    (hoffset : L.offset = 8) (hcount : L.count < 2 ^ 31) {n : ℕ} (hn : n ≤ L.count) :
    ∃ p' ints, (List.range n).foldlM (Resource.storeInt debug L.rsc) (p, 0) = .ok (p', ints) ∧
      Filled L debug p' ints (List.range (L.count - n)).reverse (stored L.count n) := by
  induction n with
  | zero => exact ⟨p, 0, rfl, h⟩
  | succ n ih =>
    obtain ⟨p₁, ints₁, hrun, hfilled⟩ := ih (by omega)
    have hfree : (List.range (L.count - n)).reverse =
        (L.count - 1 - n) :: (List.range (L.count - (n + 1))).reverse := by
      rw [show L.count - n = L.count - (n + 1) + 1 by omega, List.range_succ,
        List.reverse_append, show L.count - 1 - n = L.count - (n + 1) by omega]
      rfl
    rw [hfree] at hfilled
    obtain ⟨p₂, hstep, hfilled'⟩ := hfilled.storeInt hsize hoffset (x := n) (by omega)
    refine ⟨p₂, L.node (L.count - 1 - n), ?_, ?_⟩
    · rw [List.range_succ, List.foldlM_append, hrun]
      show (Resource.storeInt debug L.rsc (p₁, ints₁) n >>= pure) = _
      rw [hstep]
      rfl
    · rw [stored, List.range_succ, List.reverse_append]
      exact hfilled'

/-- A number below `2 ^ 31` is read as the `int` it is. -/
theorem getX_eq (hx : p.mem.readLE a 4 = x) (hlt : x < 2 ^ 31) : p.getX a = x := by
  rw [Pool.getX, hx, BitVec.toInt_eq_toNat_of_lt] <;> rw [BitVec.toNat_ofNat]
  · rw [Nat.mod_eq_of_lt (by omega)]
  · omega

/-- The second loop of `main` goes along the list and prints the numbers on it. -/
theorem Chain.printInts (h : Chain L p a xs) (hoffset : L.offset = 8)
    (hxs : ∀ y ∈ xs, y.2 < 2 ^ 31) {fuel : ℕ} (hfuel : xs.length ≤ fuel) :
    Resource.printInts p fuel a = .ok (xs.map fun y => (y.2 : ℤ)) := by
  induction xs generalizing a fuel with
  | nil =>
    obtain rfl : a = 0 := h
    cases fuel <;> rfl
  | cons y xs ih =>
    obtain ⟨i, x⟩ := y
    obtain ⟨rfl, hx, hrest⟩ := h
    obtain ⟨fuel, rfl⟩ := Nat.exists_eq_succ_of_ne_zero (Nat.ne_of_gt (Nat.lt_of_lt_of_le
      (Nat.succ_pos _) hfuel))
    obtain ⟨b, hb⟩ := Nat.exists_eq_succ_of_ne_zero (Nat.ne_of_gt (L.node_pos i))
    have helem : L.node i - 8 = L.elem i := by
      rw [Layout.node, hoffset]
      omega
    have hprint := ih hrest (fun y hy => hxs y (List.mem_cons_of_mem _ hy))
      (Nat.le_of_succ_le_succ hfuel)
    rw [hb] at hprint helem ⊢
    rw [Resource.printInts, hprint]
    show Except.ok (p.getX (b + 1 - 8) :: _) = _
    rw [helem, getX_eq hx (hxs _ List.mem_cons_self)]
    rfl

end Filled

/-- The program prints the numbers from the last one to the first one, whatever the memory holds
before, in debug builds and others. All elements have been handed out then, and in the end the pool
is gone. -/
theorem testMain_prints (L : Layout) (hsize : L.size = 16) (hoffset : L.offset = 8)
    (hpos : 0 < L.count) (hcount : L.count < 2 ^ 31) (debug : Bool) (mem : ByteMem) :
    ∃ p, testMain debug L.rsc L.start mem L.count =
        .ok (some ((List.range L.count).reverse.map fun x : ℕ => (x : ℤ), p)) ∧
      p.start = 0 ∧ p.freeList = 0 := by
  obtain ⟨p₀, hnew⟩ := exists_createResource { mem } L debug rfl hpos hcount
  obtain ⟨-, hold⟩ := holds_createResource hnew
  have hfilled : Filled L debug p₀ 0 (List.range L.count).reverse [] := by
    refine ⟨{ hold with belong := nofun }, fun hdebug i hi => ?_, rfl⟩
    rw [hold.belong hdebug i (by simpa using hi), if_neg List.not_mem_nil, Nat.add_zero]
  obtain ⟨p, ints, hrun, hlast⟩ := filled_foldlM hfilled hsize hoffset hcount le_rfl
  have hempty : p.freeList = 0 := by
    have hlist := hlast.holds.list
    rw [Nat.sub_self] at hlist
    exact load_eq_zero hlist
  have hprint : printInts p L.count ints =
      .ok ((List.range L.count).reverse.map fun x : ℕ => (x : ℤ)) := by
    rw [hlast.chain.printInts hoffset, stored, List.map_map]
    · rfl
    · intro y hy
      obtain ⟨x, hx, rfl⟩ := List.mem_map.mp hy
      have hlt := List.mem_range.mp (List.mem_reverse.mp hx)
      omega
    · simp [stored]
  rw [hsize, hoffset] at hnew
  refine ⟨p.destroyResource, ?_, rfl, rfl⟩
  rw [testMain, hnew]
  dsimp only
  rw [hrun, Programs.ok_bind]
  dsimp only
  rw [if_neg (not_not.mpr hempty), hprint]
  rfl

/-- Four numbers, as in the program. -/
def sampleInts : Layout where
  __ := sampleLayout
  size := 16
  fits := by decide
  offset_le := by decide

theorem testMain_prints_four : ∃ p,
    testMain true 64 4096 (fun _ => 0) 4 = .ok (some ([3, 2, 1, 0], p)) ∧
      p.start = 0 ∧ p.freeList = 0 :=
  testMain_prints sampleInts rfl rfl (by decide) (by decide) true _

end Resource

end Hixo
