import Hixo.Rbtree.Forest
import Mathlib.Data.Finset.Sort
import Mathlib.Order.Lattice

/-!
# A set of numbers in a red-black tree

The program `rbtree_test.c`: numbers are read and kept in a tree, in which each number is once, the
tree is printed, and a number is deleted. The numbers are of the type `int`, with 32 bits.

* `Machine`: the memory, the standard streams, and what `malloc` and `free` do;
* `mySearch`, `myInsert`, `myDelete`, `printRbtree`, `main`: the functions of the program;
* `Keeps`: the tree is a set of numbers, and no other node is allocated;
* `Beside`: there is one other node, which `my_insert` links or `free` takes away;
* `Keeps.mySearch`, `Keeps.printRbtree`, `Keeps.myDelete`, `Keeps.enter`: the calls and the set;
* `Call`, `numbers_refine`: any sequence of calls;
* `main_prints`: the output of the program.

`CONTAINER_OF` is the identity, as `my_node` is the first member of `struct mytype`.
-/

namespace Hixo.Rbtree

open ColoredTree RbTree RbNode

/-- The order in which `<` and `>` compare two `int`s. -/
scoped instance linearOrderInt32 : LinearOrder Int32 where
  le_refl := Int32.le_refl
  le_trans _ _ _ := Int32.le_trans
  le_antisymm _ _ := Int32.le_antisymm
  le_total := Int32.le_total
  toDecidableLE := inferInstance
  lt_iff_le_not_ge := Std.LawfulOrderLT.lt_iff

/-- What `scanf("%d", …)` meets in the input. -/
inductive Item where
  /-- A number that is an `int`. -/
  | number (n : Int32)
  /-- A number that is too large or too small for an `int`. -/
  | outOfRange
  /-- Something that is not the beginning of a number. -/
  | other
  deriving DecidableEq

/-- The state of the program. The root of the tree is the local variable `mytree`. -/
structure Machine where
  /-- The nodes and the root. -/
  memory : Memory Unit
  /-- `num` of the `struct mytype` at an address. -/
  num : Addr → Int32
  /-- What is left of the input. -/
  stdin : List Item
  /-- The output. -/
  stdout : String
  /-- The error output. -/
  stderr : String

namespace Machine

/-- `printf` -/
def printf (mc : Machine) (text : String) : Machine :=
  { mc with stdout := mc.stdout ++ text }

/-- `fprintf` to `stderr`. -/
def eprintf (mc : Machine) (text : String) : Machine :=
  { mc with stderr := mc.stderr ++ text }

/-- `malloc` has given the address `a`, with `dirt` there. -/
def malloc (mc : Machine) (a : Addr) (dirt : RbNode) : Machine :=
  if a = 0 then mc else { mc with memory := mc.memory.write a dirt }

/-- `free` -/
def free (mc : Machine) (a : Addr) : Except Fault Machine :=
  if a = 0 then .ok mc
  else do
    let _ ← mc.memory.read a
    return { mc with memory := { mc.memory with node := Function.update mc.memory.node a none } }

/-- `while (!scanf("%d", &tmp->num));` At the end of the input, `scanf` does not return 0 and leaves
`num` as it is. What is not a number is never taken from the input. What `scanf` does with a number
that is not an `int` is undefined. -/
def scanNum (mc : Machine) (tmp : Addr) : Except Fault Machine :=
  match mc.stdin with
  | [] => .ok mc
  | .other :: _ => .error .endless
  | .outOfRange :: _ => .error .outOfRange
  | .number n :: rest => do
    let _ ← mc.memory.read tmp
    return { mc with num := Function.update mc.num tmp n, stdin := rest }

end Machine

open Machine

/-- The loop of `my_search`. -/
def searchLoop (mc : Machine) (num : Int32) : ℕ → Addr → Except Fault Addr
  | 0, _ => .error .endless
  | fuel + 1, a =>
    if a = 0 then .ok 0
    else do
      let n ← mc.memory.read a
      if num < mc.num a then searchLoop mc num fuel n.rbLeft
      else if num > mc.num a then searchLoop mc num fuel n.rbRight
      else return a

/-- `my_search` -/
def mySearch (fuel : ℕ) (mc : Machine) (num : Int32) : Except Fault Addr :=
  searchLoop mc num fuel (mc.memory.rbNode ())

/-- The loop of `my_insert`: `parent` and `tmp` when the number of `data` is not found. -/
def placeLoop (mc : Machine) (data : Addr) :
    ℕ → Addr → Link Unit → Except Fault (Option (Addr × Link Unit))
  | 0, _, _ => .error .endless
  | fuel + 1, parent, tmp => do
    let this ← mc.memory.load tmp
    if this = 0 then return some (parent, tmp)
    else
      let _ ← mc.memory.read data
      let _ ← mc.memory.read this
      if mc.num data < mc.num this then placeLoop mc data fuel this (.child .left this)
      else if mc.num data > mc.num this then placeLoop mc data fuel this (.child .right this)
      else return none

/-- `my_insert` -/
def myInsert (fuel : ℕ) (mc : Machine) (data : Addr) : Except Fault (Machine × ℤ) := do
  match ← placeLoop mc data fuel 0 (.root ()) with
  | none => return (mc, -1)
  | some (parent, tmp) =>
    let memory ← rbLinkNode mc.memory data parent tmp
    let memory ← rbInsertColor fuel memory data ()
    return ({ mc with memory }, 0)

/-- `my_delete` -/
def myDelete (fuel : ℕ) (mc : Machine) (num : Int32) : Except Fault Machine := do
  let data ← mySearch fuel mc num
  if data = 0 then return mc.eprintf ("Not found " ++ toString num ++ ".\n")
  else
    let memory ← rbErase fuel mc.memory data ()
    { mc with memory }.free data

/-- The numbers of the nodes that the loop of `print_rbtree` visits. -/
def printedNums (fuel : ℕ) (mc : Machine) : Except Fault (List Int32) := do
  let nodes ← visit (rbNext fuel mc.memory) fuel (← rbFirst fuel mc.memory ())
  return nodes.map mc.num

/-- `print_rbtree` -/
def printRbtree (fuel : ℕ) (mc : Machine) : Except Fault Machine := do
  let nums ← printedNums fuel mc
  return mc.printf (String.join (nums.map fun n => toString n ++ " ") ++ "\n")

/-- A pass of the loop of `main`, in which `malloc` gives the address `tmp`. -/
def enter (fuel : ℕ) (mc : Machine) (tmp : Addr) (dirt : RbNode) : Except Fault Machine := do
  let mc := mc.malloc tmp dirt
  -- the error of a failed `malloc` is `ENOMEM`
  let mc :=
    if tmp = 0 then mc.eprintf "Allocate dynamic memory: Cannot allocate memory\n" else mc
  let mc ← mc.scanNum tmp
  let (mc, ret) ← myInsert fuel mc tmp
  if ret < 0 then
    (mc.eprintf ("The " ++ toString (mc.num tmp) ++ " already exists.\n")).free tmp
  else return mc

/-- `main`, from the loop on, with the addresses that `malloc` gives. -/
def enterAll (fuel : ℕ) (mc : Machine) (blocks : List (Addr × RbNode)) : Except Fault Machine :=
  blocks.foldlM (fun mc block => enter fuel mc block.1 block.2) mc

/-- `main`: the machine and the exit status. `prog` and `args` are the strings of `argv`, and
`malloc k` is the result of the `k`-th call of `malloc` and what is there. -/
def main (fuel : ℕ) (atoi : String → Int32) (malloc : ℕ → Addr × RbNode) (prog : String)
    (args : List String) (mc : Machine) : Except Fault (Machine × ℤ) :=
  match args with
  | [] => .ok (mc.eprintf ("Usage: " ++ prog ++ " num\n"), -1)
  | arg :: _ => do
    let num := atoi arg
    let mc := { mc with memory := { mc.memory with rbNode := fun _ => 0 } }
    let mc := mc.printf ("Please enter " ++ toString num ++ " integers:\n")
    let mc ← enterAll fuel mc ((List.range num.toInt.toNat).map malloc)
    let mc := mc.printf "\nthe first test\n"
    let mc ← printRbtree fuel mc
    let mc ← myDelete fuel mc 21
    let mc := mc.printf "\nthe second test\n"
    let mc ← printRbtree fuel mc
    return (mc, 0)

/-! ## The tree as a set -/

/-- The tree `t` has each number of the set once, in ascending order, and its nodes are the only
ones that are allocated. -/
structure Keeps (mc : Machine) (t : RbTree Addr) (s : Finset Int32) : Prop where
  holds : Holds mc.memory () t
  redBlack : RedBlack t
  ascending : (t.inorder.map mc.num).Pairwise (· < ·)
  mem_iff : ∀ n, n ∈ s ↔ n ∈ t.inorder.map mc.num
  allocated : ∀ a, mc.memory.node a ≠ none ↔ a ∈ t.inorder

/-- The line that `print_rbtree` prints for a set. -/
def line (s : Finset Int32) : String :=
  String.join (s.sort.map fun n => toString n ++ " ") ++ "\n"

/-- The complaint about a number that is in the set already. -/
def duplicate (s : Finset Int32) (n : Int32) : String :=
  if n ∈ s then "The " ++ toString n ++ " already exists.\n" else ""

/-- The complaint about a number that is not in the set. -/
def missing (s : Finset Int32) (n : Int32) : String :=
  if n ∈ s then "" else "Not found " ++ toString n ++ ".\n"

/-- The complaints about numbers that are entered one after the other. -/
def duplicates (s : Finset Int32) : List Int32 → String
  | [] => ""
  | n :: ns => duplicate s n ++ duplicates (insert n s) ns

/-- `malloc` gives addresses that are not in use. The node of a number stays in use when the number
is new. -/
def Available (used : Addr → Prop) (s : Finset Int32) : List (Addr × RbNode) → List Int32 → Prop
  | block :: blocks, n :: ns => Valid block.1 ∧ ¬used block.1 ∧
      Available (fun a => used a ∨ a = block.1 ∧ n ∉ s) (insert n s) blocks ns
  | _, _ => True

instance decidableAvailable (used : Addr → Prop) [DecidablePred used] (s : Finset Int32) :
    ∀ blocks ns, Decidable (Available used s blocks ns)
  | [], _ | _ :: _, [] => isTrue trivial
  | block :: blocks, n :: ns =>
    have := decidableAvailable (fun a => used a ∨ a = block.1 ∧ n ∉ s) (insert n s) blocks ns
    inferInstanceAs (Decidable (Valid block.1 ∧ ¬used block.1 ∧ Available _ _ blocks ns))

/-- A call that `main` makes. -/
inductive Call where
  /-- A pass of the loop of `main`, with what `malloc` gives. -/
  | enter (tmp : Addr) (dirt : RbNode)
  /-- `my_delete` -/
  | delete (num : Int32)
  /-- `print_rbtree` -/
  | print

/-- The call on the machine. -/
def Call.run (fuel : ℕ) (mc : Machine) : Call → Except Fault Machine
  | .enter tmp dirt => Rbtree.enter fuel mc tmp dirt
  | .delete num => myDelete fuel mc num
  | .print => printRbtree fuel mc

/-- What the outside sees of the machine, with a set for the tree. -/
structure View where
  /-- The numbers that were entered and not deleted. -/
  set : Finset Int32
  /-- What is left of the input. -/
  stdin : List Item
  /-- The output. -/
  stdout : String
  /-- The error output. -/
  stderr : String

/-- The call on the set. -/
def Call.apply (v : View) : Call → View
  | .enter _ _ =>
    match v.stdin with
    | .number n :: rest =>
      { v with set := insert n v.set, stdin := rest, stderr := v.stderr ++ duplicate v.set n }
    | _ => v
  | .delete num => { v with set := v.set.erase num, stderr := v.stderr ++ missing v.set num }
  | .print => { v with stdout := v.stdout ++ line v.set }

/-- A number comes next in the input, and `malloc` gives an address that is not in use. -/
def Call.Legal (mc : Machine) : Call → Prop
  | .enter tmp _ => Valid tmp ∧ mc.memory.node tmp = none ∧ ∃ n rest, mc.stdin = .number n :: rest
  | _ => True

instance (mc : Machine) : ∀ call : Call, Decidable (call.Legal mc)
  | .enter tmp _ =>
    have : Decidable (∃ n rest, mc.stdin = .number n :: rest) :=
      match mc.stdin with
      | .number n :: rest => isTrue ⟨n, rest, rfl⟩
      | [] | .outOfRange :: _ | .other :: _ => isFalse (by simp)
    inferInstanceAs (Decidable (Valid tmp ∧ mc.memory.node tmp = none ∧ _))
  | .delete _ | .print => isTrue trivial

/-- The machine shows this view. -/
structure Shows (mc : Machine) (v : View) : Prop where
  keeps : ∃ t, Keeps mc t v.set
  stdin : mc.stdin = v.stdin
  stdout : mc.stdout = v.stdout
  stderr : mc.stderr = v.stderr

/-- Every call of a sequence is legal, on the machine that the calls before it leave. -/
def AllLegal (fuel : ℕ) (mc : Machine) : List Call → Prop
  | [] => True
  | call :: calls => call.Legal mc ∧ ∀ mc', call.run fuel mc = .ok mc' → AllLegal fuel mc' calls

instance decidableAllLegal (fuel : ℕ) : ∀ mc calls, Decidable (AllLegal fuel mc calls)
  | _, [] => isTrue trivial
  | mc, call :: calls =>
    have := fun mc' => decidableAllLegal fuel mc' calls
    inferInstanceAs (Decidable (call.Legal mc ∧
      ∀ mc', call.run fuel mc = .ok mc' → AllLegal fuel mc' calls))

/-- A search finds exactly the numbers of the set, and the number of its steps is logarithmic in the
size of the set. -/
def Searches (mc : Machine) (s : Finset Int32) : Prop :=
  ∀ num steps, 2 * Nat.log 2 (s.card + 1) < steps →
    ∃ a, mySearch steps mc num = .ok a ∧ (a ≠ 0 ↔ num ∈ s) ∧ (a ≠ 0 → mc.num a = num)

/-- In every state of a run, the machine shows the view that the calls on the set give, and searches
work. Every call returns. -/
def RunShows (fuel : ℕ) (mc : Machine) (v : View) : List Call → Prop
  | [] => Shows mc v ∧ Searches mc v.set
  | call :: calls => Shows mc v ∧ Searches mc v.set ∧
      ∃ mc', call.run fuel mc = .ok mc' ∧ RunShows fuel mc' (call.apply v) calls

/-- Enough passes for the loops down and up a tree of `k` nodes, and for the loop over all nodes. -/
structure Enough (fuel k : ℕ) : Prop where
  all : k < fuel
  down : 2 * Nat.log 2 (k + 1) < fuel

variable {mc mc' : Machine} {s : Finset Int32} {t u : RbTree Addr} {p q : List (Frame Addr)}
  {a b : Addr} {num n : Int32} {fuel : ℕ} {m₀ : Memory Unit} {own : List Addr}

/-- The pointer to a subtree is where the path says. -/
theorem Focus.load {ρ : Type} {m₀ m : Memory ρ} {r : ρ} (h : Focus m₀ own r m p t) :
    m.load (linkAt r p) = .ok (addr t) := by
  cases p with
  | nil => exact congrArg Except.ok h.root
  | cons f p =>
    have hread := h.read_above
    rw [linkAt]
    exact (Programs.bind_of_eq_ok hread).trans (congrArg Except.ok child_cell)

/-- In a tree with ascending numbers, those on the left are less and those on the right are greater
than the one at the root. -/
theorem ascending_node {f : Addr → Int32} {c : Color}
    (h : ((RbTree.node c t a u).inorder.map f).Pairwise (· < ·)) :
    (t.inorder.map f).Pairwise (· < ·) ∧ (u.inorder.map f).Pairwise (· < ·) ∧
      (∀ b ∈ t.inorder, f b < f a) ∧ ∀ b ∈ u.inorder, f a < f b := by
  rw [inorder, List.map_append, List.map_cons, List.pairwise_append, List.pairwise_cons] at h
  obtain ⟨ht, ⟨hau, hu⟩, htu⟩ := h
  exact ⟨ht, hu, fun b hb => htu _ (List.mem_map_of_mem hb) _ List.mem_cons_self,
    fun b hb => hau _ (List.mem_map_of_mem hb)⟩

/-- The search finds the node with the number. -/
theorem Focus.searchLoop (h : Focus m₀ own () mc.memory p t)
    (hasc : (t.inorder.map mc.num).Pairwise (· < ·)) (hfuel : t.height < fuel) (num : Int32) :
    ∃ a, Rbtree.searchLoop mc num fuel (addr t) = .ok a ∧
      (a ∈ t.inorder ∧ mc.num a = num ∨ a = 0 ∧ ∀ b ∈ t.inorder, mc.num b ≠ num) := by
  induction t generalizing p fuel with
  | leaf =>
    obtain ⟨fuel, rfl⟩ := Nat.exists_eq_succ_of_ne_zero (Nat.ne_zero_of_lt hfuel)
    exact ⟨0, if_pos rfl, .inr ⟨rfl, fun b hb => absurd hb List.not_mem_nil⟩⟩
  | node c l a r ihl ihr =>
    obtain ⟨fuel, rfl⟩ := Nat.exists_eq_succ_of_ne_zero (Nat.ne_zero_of_lt hfuel)
    have hnode : Focus m₀ own () mc.memory p (join .left c a l r) := h
    obtain ⟨hl, hr, hless, hgreater⟩ := ascending_node hasc
    have hheight : l.height < fuel ∧ r.height < fuel := by
      rw [height] at hfuel
      omega
    have hstep : Rbtree.searchLoop mc num (fuel + 1) a =
        if num < mc.num a then Rbtree.searchLoop mc num fuel (addr l)
        else if num > mc.num a then Rbtree.searchLoop mc num fuel (addr r) else .ok a := by
      rw [Rbtree.searchLoop, if_neg hnode.valid_root.ne_null, hnode.read]
      rfl
    simp only [addr, Nat.succ_eq_add_one, hstep, inorder, List.mem_append, List.mem_cons]
    split
    · next hlt =>
      obtain ⟨b, hrun, hb | ⟨rfl, hb⟩⟩ := ihl (p := ⟨.left, c, a, r⟩ :: p) (focus_close.mpr h) hl
        hheight.1
      · exact ⟨b, hrun, .inl ⟨.inl hb.1, hb.2⟩⟩
      · refine ⟨0, hrun, .inr ⟨rfl, ?_⟩⟩
        rintro b (hbl | rfl | hbr)
        · exact hb b hbl
        · exact hlt.ne'
        · exact (hlt.trans (hgreater b hbr)).ne'
    · split
      · next hgt =>
        obtain ⟨b, hrun, hb | ⟨rfl, hb⟩⟩ := ihr (p := ⟨.right, c, a, l⟩ :: p) (focus_close.mpr h) hr
          hheight.2
        · exact ⟨b, hrun, .inl ⟨.inr (.inr hb.1), hb.2⟩⟩
        · refine ⟨0, hrun, .inr ⟨rfl, ?_⟩⟩
          rintro b (hbl | rfl | hbr)
          · exact ((hless b hbl).trans hgt).ne
          · exact hgt.ne
          · exact hb b hbr
      · next hle hge =>
        exact ⟨a, rfl, .inl ⟨.inr (.inl rfl), le_antisymm (not_lt.mp hle) (not_lt.mp hge)⟩⟩

/-- The loop of `my_insert` finds the number of `data`, or the place where it belongs. -/
theorem Focus.placeLoop {data : Addr} {w : RbNode} (h : Focus m₀ own () mc.memory p t)
    (hasc : (t.inorder.map mc.num).Pairwise (· < ·)) (hfuel : t.height < fuel)
    (hdata : mc.memory.read data = .ok w) :
    (Rbtree.placeLoop mc data fuel (top 0 p) (linkAt () p) = .ok none ∧
      ∃ b ∈ t.inorder, mc.num b = mc.num data) ∨
    ∃ q, Rbtree.placeLoop mc data fuel (top 0 p) (linkAt () p) =
        .ok (some (top 0 (q ++ p), linkAt () (q ++ p))) ∧
      t = plug q .leaf ∧ (∀ b ∈ before q, mc.num b < mc.num data) ∧
        ∀ b ∈ after q, mc.num data < mc.num b := by
  induction t generalizing p fuel with
  | leaf =>
    obtain ⟨fuel, rfl⟩ := Nat.exists_eq_succ_of_ne_zero (Nat.ne_zero_of_lt hfuel)
    refine .inr ⟨[], ?_, rfl, by simp [before], by simp [after]⟩
    rw [Rbtree.placeLoop, h.load]
    rfl
  | node c l a r ihl ihr =>
    obtain ⟨fuel, rfl⟩ := Nat.exists_eq_succ_of_ne_zero (Nat.ne_zero_of_lt hfuel)
    have hnode : Focus m₀ own () mc.memory p (join .left c a l r) := h
    obtain ⟨hl, hr, hless, hgreater⟩ := ascending_node hasc
    have hheight : l.height < fuel ∧ r.height < fuel := by
      rw [height] at hfuel
      omega
    have hstep : Rbtree.placeLoop mc data (fuel + 1) (top 0 p) (linkAt () p) =
        if mc.num data < mc.num a then Rbtree.placeLoop mc data fuel a (.child .left a)
        else if mc.num data > mc.num a then Rbtree.placeLoop mc data fuel a (.child .right a)
        else .ok none := by
      have hload : mc.memory.load (linkAt () p) = .ok a := h.load
      rw [Rbtree.placeLoop, hload, Programs.ok_bind, if_neg hnode.valid_root.ne_null, hdata,
        Programs.ok_bind, hnode.read]
      rfl
    simp only [Nat.succ_eq_add_one, hstep]
    split
    · next hlt =>
      rcases ihl (p := ⟨.left, c, a, r⟩ :: p) (focus_close.mpr h) hl hheight.1 with
        ⟨hrun, b, hb, heq⟩ | ⟨q, hrun, rfl, hbefore, hafter⟩
      · exact .inl ⟨hrun, b, List.mem_append_left _ hb, heq⟩
      · refine .inr ⟨q ++ [⟨.left, c, a, r⟩], ?_, by rw [plug_append]; rfl, ?_, ?_⟩
        · rw [List.append_assoc]
          exact hrun
        · rw [before_append]
          exact hbefore
        · rw [after_append]
          intro b hb
          rcases List.mem_append.mp hb with hb | hb
          · exact hafter b hb
          · rcases List.mem_cons.mp (by simpa [after, Frame.after] using hb) with rfl | hb
            · exact hlt
            · exact hlt.trans (hgreater b hb)
    · split
      · next hgt =>
        rcases ihr (p := ⟨.right, c, a, l⟩ :: p) (focus_close.mpr h) hr hheight.2 with
          ⟨hrun, b, hb, heq⟩ | ⟨q, hrun, rfl, hbefore, hafter⟩
        · exact .inl ⟨hrun, b, List.mem_append_right _ (List.mem_cons_of_mem a hb), heq⟩
        · refine .inr ⟨q ++ [⟨.right, c, a, l⟩], ?_, by rw [plug_append]; rfl, ?_, ?_⟩
          · rw [List.append_assoc]
            exact hrun
          · rw [before_append]
            intro b hb
            rcases List.mem_append.mp hb with hb | hb
            · have hb : b ∈ l.inorder ∨ b = a := by
                simpa [before, Frame.before] using hb
              rcases hb with hb | rfl
              · exact (hless b hb).trans hgt
              · exact hgt
            · exact hbefore b hb
          · rw [after_append, show after [(⟨.right, c, a, l⟩ : Frame Addr)] = [] from rfl,
              List.append_nil]
            exact hafter
      · next hle hge =>
        exact .inl ⟨rfl, a, List.mem_append_right _ List.mem_cons_self,
          le_antisymm (not_lt.mp hle) (not_lt.mp hge)⟩

/-- The tree `t` has each number of the set once, in ascending order, and `tmp` is the only other
node that is allocated. -/
structure Beside (mc : Machine) (t : RbTree Addr) (s : Finset Int32) (tmp : Addr) : Prop where
  holds : Holds mc.memory () t
  redBlack : RedBlack t
  ascending : (t.inorder.map mc.num).Pairwise (· < ·)
  mem_iff : ∀ n, n ∈ s ↔ n ∈ t.inorder.map mc.num
  allocated : ∀ a, mc.memory.node a ≠ none ↔ a ∈ t.inorder ∨ a = tmp
  valid : Valid tmp
  fresh : tmp ∉ t.inorder

namespace Beside

variable {tmp : Addr}

/-- The block at `tmp` can be read. -/
theorem exists_read (h : Beside mc t s tmp) : ∃ w, mc.memory.read tmp = .ok w := by
  obtain ⟨w, hw⟩ := Option.ne_none_iff_exists'.mp ((h.allocated tmp).mpr (.inr rfl))
  exact ⟨w, Memory.read_eq h.valid.ne_null hw⟩

theorem eprintf (h : Beside mc t s tmp) (text : String) : Beside (mc.eprintf text) t s tmp :=
  ⟨h.holds, h.redBlack, h.ascending, h.mem_iff, h.allocated, h.valid, h.fresh⟩

/-- `free` gives the block at `tmp` back, and leaves the tree and the streams alone. -/
theorem free (h : Beside mc t s tmp) :
    ∃ mc', mc.free tmp = .ok mc' ∧ Keeps mc' t s ∧ mc'.stdin = mc.stdin ∧
      mc'.stdout = mc.stdout ∧ mc'.stderr = mc.stderr := by
  obtain ⟨w, hread⟩ := h.exists_read
  let m : Memory Unit := { mc.memory with node := Function.update mc.memory.node tmp none }
  have hnode : ∀ a, a ≠ tmp → m.node a = mc.memory.node a := fun a ha =>
    Function.update_of_ne ha ..
  refine ⟨{ mc with memory := m }, ?_, ⟨?_, h.redBlack, h.ascending, h.mem_iff, fun a => ?_⟩,
    rfl, rfl, rfl⟩
  · rw [Machine.free, if_neg h.valid.ne_null, hread]
    rfl
  · exact h.holds.congr rfl fun a ha => hnode a (ne_of_mem_of_not_mem ha h.fresh)
  · rcases eq_or_ne a tmp with rfl | hne
    · simp [m, h.fresh]
    · rw [hnode a hne, h.allocated a, or_iff_left hne]

/-- The number of the node is in the set, or there is a place for the node in the tree. -/
theorem placeLoop (h : Beside mc t s tmp) (hheight : t.height < fuel) :
    (mc.num tmp ∈ s ∧ Rbtree.placeLoop mc tmp fuel 0 (.root ()) = .ok none) ∨
    ∃ q, t = plug q .leaf ∧ mc.num tmp ∉ s ∧
      Rbtree.placeLoop mc tmp fuel 0 (.root ()) = .ok (some (top 0 q, linkAt () q)) ∧
      (∀ b ∈ before q, mc.num b < mc.num tmp) ∧ ∀ b ∈ after q, mc.num tmp < mc.num b := by
  have hfocus : Focus mc.memory t.inorder () mc.memory [] t := h.holds.focus fun _ ha => ha
  obtain ⟨w, hread⟩ := h.exists_read
  rcases hfocus.placeLoop h.ascending hheight hread with
    ⟨hrun, b, hb, heq⟩ | ⟨q, hrun, rfl, hbefore, hafter⟩
  · exact .inl ⟨(h.mem_iff _).mpr (List.mem_map.mpr ⟨b, hb, heq⟩), hrun⟩
  · rw [List.append_nil] at hrun
    refine .inr ⟨q, rfl, fun hmem => ?_, hrun, hbefore, hafter⟩
    obtain ⟨b, hb, heq⟩ := List.mem_map.mp ((h.mem_iff _).mp hmem)
    have hinorder : (plug q .leaf).inorder = before q ++ after q := inorder_plug
    rw [hinorder, List.mem_append] at hb
    exact hb.elim (fun hb => (hbefore b hb).ne heq) fun hb => (hafter b hb).ne' heq

theorem myInsert_of_mem (h : Beside mc t s tmp) (hheight : t.height < fuel)
    (hmem : mc.num tmp ∈ s) : myInsert fuel mc tmp = .ok (mc, -1) := by
  rcases h.placeLoop hheight with ⟨-, hrun⟩ | ⟨q, -, hnew, -⟩
  · exact Programs.bind_of_eq_ok hrun
  · exact absurd hmem hnew

/-- The node is linked where the numbers before it are less. -/
theorem myInsert_of_notMem (h : Beside mc t s tmp) (hheight : t.height < fuel)
    (hlog : Nat.log 2 (t.size + 1) < fuel) (hnew : mc.num tmp ∉ s) :
    ∃ mc' t', myInsert fuel mc tmp = .ok (mc', 0) ∧ Keeps mc' t' (insert (mc.num tmp) s) ∧
      (∀ a, a ∈ t'.inorder ↔ a ∈ t.inorder ∨ a = tmp) ∧ mc'.stdin = mc.stdin ∧
      mc'.stdout = mc.stdout ∧ mc'.stderr = mc.stderr := by
  rcases h.placeLoop hheight with ⟨hmem, -⟩ | ⟨q, rfl, -, hrun, hbefore, hafter⟩
  · exact absurd hmem hnew
  obtain ⟨m, t', hinsert, ht', hrb', hinorder', hrest⟩ := h.holds.insert_plug h.redBlack h.valid
    ((h.allocated tmp).mpr (.inr rfl)) h.fresh hlog
  obtain ⟨m₁, hlink, hcolor⟩ := Programs.exists_of_bind_eq_ok hinsert
  have hinorder : (plug q .leaf).inorder = before q ++ after q := inorder_plug
  have hmemT : ∀ a, a ∈ t'.inorder ↔ a ∈ (plug q .leaf).inorder ∨ a = tmp := fun a => by
    rw [hinorder', hinorder]
    simp only [List.mem_append, List.mem_cons]
    tauto
  refine ⟨{ mc with memory := m }, t', ?_, ⟨ht', hrb', ?_, fun n => ?_, fun a => ?_⟩, hmemT,
    rfl, rfl, rfl⟩
  · exact (Programs.bind_of_eq_ok hrun).trans ((Programs.bind_of_eq_ok hlink).trans
      (Programs.bind_of_eq_ok hcolor))
  · have hasc := h.ascending
    rw [hinorder, List.map_append, List.pairwise_append] at hasc
    obtain ⟨hleft, hright, hacross⟩ := hasc
    rw [hinorder', List.map_append, List.map_cons, List.pairwise_append, List.pairwise_cons]
    refine ⟨hleft, ⟨List.forall_mem_map.mpr hafter, hright⟩, ?_⟩
    have hless : ∀ x ∈ (before q).map mc.num, x < mc.num tmp := List.forall_mem_map.mpr hbefore
    intro x hx y hy
    rcases List.mem_cons.mp hy with rfl | hy
    · exact hless x hx
    · exact hacross x hx y hy
  · rw [Finset.mem_insert, h.mem_iff n, hinorder, hinorder', List.map_append, List.map_append,
      List.map_cons, List.mem_append, List.mem_append, List.mem_cons]
    tauto
  · rw [hmemT, ← h.allocated a, ← Option.isSome_iff_ne_none, ← Option.isSome_iff_ne_none,
      hrest.cells a]

end Beside

namespace Keeps

/-- The tree has as many nodes as the set has numbers. -/
theorem size_eq (h : Keeps mc t s) : t.size = s.card := by
  have hset : s = (t.inorder.map mc.num).toFinset := by
    ext n
    rw [h.mem_iff, List.mem_toFinset]
  have hnodup : (t.inorder.map mc.num).Nodup := h.ascending.imp fun hlt => hlt.ne
  rw [hset, List.toFinset_card_of_nodup hnodup, List.length_map, length_inorder]

theorem height_le (h : Keeps mc t s) : t.height ≤ 2 * Nat.log 2 (s.card + 1) :=
  h.size_eq ▸ h.redBlack.height_le

/-- From left to right, the nodes have the numbers of the sorted set. -/
theorem nums_eq (h : Keeps mc t s) : t.inorder.map mc.num = s.sort := by
  refine List.Perm.eq_of_pairwise' (h.ascending.imp fun hlt => hlt.le) (s.pairwise_sort _) ?_
  refine (List.perm_ext_iff_of_nodup (h.ascending.imp fun hlt => hlt.ne) (s.sort_nodup _)).mpr ?_
  intro n
  rw [← h.mem_iff, Finset.mem_sort]

theorem printf (h : Keeps mc t s) (text : String) : Keeps (mc.printf text) t s :=
  ⟨h.holds, h.redBlack, h.ascending, h.mem_iff, h.allocated⟩

theorem focus (h : Keeps mc t s) : Focus mc.memory t.inorder () mc.memory [] t :=
  h.holds.focus fun _ ha => ha

/-- The search finds exactly the numbers of the set. -/
theorem mySearch (h : Keeps mc t s) (hfuel : 2 * Nat.log 2 (s.card + 1) < fuel) (num : Int32) :
    ∃ a, Rbtree.mySearch fuel mc num = .ok a ∧
      (num ∈ s ∧ a ∈ t.inorder ∧ mc.num a = num ∨ num ∉ s ∧ a = 0) := by
  obtain ⟨a, hrun, ⟨ha, heq⟩ | ⟨rfl, hne⟩⟩ :=
    h.focus.searchLoop h.ascending (h.height_le.trans_lt hfuel) num
  · refine ⟨a, by rw [Rbtree.mySearch, h.holds.root, hrun], .inl ⟨?_, ha, heq⟩⟩
    exact (h.mem_iff num).mpr (List.mem_map.mpr ⟨a, ha, heq⟩)
  · refine ⟨0, by rw [Rbtree.mySearch, h.holds.root, hrun], .inr ⟨fun hmem => ?_, rfl⟩⟩
    obtain ⟨b, hb, heq⟩ := List.mem_map.mp ((h.mem_iff num).mp hmem)
    exact hne b hb heq

/-- The tree is printed as the sorted set. -/
theorem printRbtree (h : Keeps mc t s) (hfuel : Enough fuel s.card) :
    Rbtree.printRbtree fuel mc = .ok (mc.printf (line s)) := by
  have hvisit := h.holds.visit_next (h.height_le.trans hfuel.down.le)
    (show fuel > t.inorder.length by rw [length_inorder, h.size_eq]; exact hfuel.all)
  obtain ⟨a, hfirst, hrest⟩ := Programs.exists_of_bind_eq_ok hvisit
  simp only [Rbtree.printRbtree, printedNums, hfirst, hrest, Programs.ok_bind]
  exact congrArg (fun nums => Except.ok (mc.printf (String.join (nums.map fun n =>
    toString n ++ " ") ++ "\n"))) h.nums_eq

/-- A number is deleted from the set, and its node is freed. -/
theorem myDelete (h : Keeps mc t s) (hfuel : 2 * Nat.log 2 (s.card + 1) < fuel) (num : Int32) :
    ∃ mc' t', Rbtree.myDelete fuel mc num = .ok mc' ∧ Keeps mc' t' (s.erase num) ∧
      mc'.stdin = mc.stdin ∧ mc'.stdout = mc.stdout ∧
      mc'.stderr = mc.stderr ++ missing s num := by
  obtain ⟨a, hrun, ⟨hmem, ha, rfl⟩ | ⟨hmem, rfl⟩⟩ := h.mySearch hfuel num
  · have ha0 : a ≠ 0 := (h.holds.valid a ha).ne_null
    obtain ⟨m₁, t', hrun₁, ht', hrb', hinorder, hrest⟩ :=
      h.holds.erase h.redBlack ha (h.size_eq ▸ hfuel.le)
    have hmemT : ∀ b, b ∈ t'.inorder ↔ b ≠ a ∧ b ∈ t.inorder := fun b => by
      rw [hinorder, h.holds.nodup.mem_erase_iff]
    have hbeside : Beside { mc with memory := m₁ } t' (s.erase (mc.num a)) a := by
      refine ⟨ht', hrb', ?_, fun n => ?_, fun b => ?_, h.holds.valid a ha, ?_⟩
      · rw [hinorder]
        exact h.ascending.sublist (List.erase_sublist.map _)
      · -- the numbers are all different
        have hinj := List.inj_on_of_nodup_map (h.ascending.imp fun hlt => hlt.ne :
          (t.inorder.map mc.num).Nodup)
        rw [Finset.mem_erase, h.mem_iff, List.mem_map, List.mem_map]
        constructor
        · rintro ⟨hne, b, hb, rfl⟩
          exact ⟨b, (hmemT b).mpr ⟨fun heq => hne (congrArg mc.num heq), hb⟩, rfl⟩
        · rintro ⟨b, hb, rfl⟩
          obtain ⟨hne, hb⟩ := (hmemT b).mp hb
          exact ⟨fun heq => hne (hinj hb ha heq), b, hb, rfl⟩
      · rw [hmemT, ← Option.isSome_iff_ne_none, hrest.cells b, Option.isSome_iff_ne_none,
          h.allocated b]
        rcases eq_or_ne b a with rfl | hne
        · simp [ha]
        · simp [hne]
      · rw [hmemT]
        exact fun hmem => hmem.1 rfl
    obtain ⟨mc', hfree, hkeeps, hin, hout, herr⟩ := hbeside.free
    refine ⟨mc', t', ?_, hkeeps, hin, hout, ?_⟩
    · rw [Rbtree.myDelete, hrun, Programs.ok_bind, if_neg ha0, hrun₁, Programs.ok_bind, hfree]
    · rw [herr, missing, if_pos hmem]
      exact (String.append_empty).symm
  · refine ⟨mc.eprintf ("Not found " ++ toString num ++ ".\n"), t, ?_, ?_, rfl, rfl, ?_⟩
    · rw [Rbtree.myDelete, hrun]
      rfl
    · rw [Finset.erase_eq_of_notMem hmem]
      exact ⟨h.holds, h.redBlack, h.ascending, h.mem_iff, h.allocated⟩
    · rw [missing, if_neg hmem]
      rfl

/-- `malloc` gives a node, and a number is read into it. -/
theorem beside {tmp : Addr} (h : Keeps mc t s) (hvalid : Valid tmp)
    (hfree : mc.memory.node tmp = none) (dirt : RbNode) (n : Int32) (rest : List Item) :
    Beside { mc with
      memory := mc.memory.write tmp dirt
      num := Function.update mc.num tmp n
      stdin := rest } t s tmp := by
  have hfresh : tmp ∉ t.inorder := fun hmem => (h.allocated tmp).mpr hmem hfree
  have hnode : ∀ a, a ≠ tmp → (mc.memory.write tmp dirt).node a = mc.memory.node a :=
    fun a ha => Memory.write_node_of_ne ha
  have hnums : t.inorder.map (Function.update mc.num tmp n) = t.inorder.map mc.num :=
    List.map_congr_left fun a ha => Function.update_of_ne (ne_of_mem_of_not_mem ha hfresh) ..
  refine ⟨?_, h.redBlack, hnums ▸ h.ascending, fun k => hnums ▸ h.mem_iff k, fun a => ?_, hvalid,
    hfresh⟩
  · exact h.holds.congr rfl fun a ha => hnode a (ne_of_mem_of_not_mem ha hfresh)
  · rcases eq_or_ne a tmp with rfl | hne
    · rw [Memory.write_node_self]
      simp
    · rw [or_iff_left hne, ← h.allocated a]
      exact not_congr (hnode a hne ▸ Iff.rfl)

/-- A number is read into a new node and entered into the set. When it is in the set already, there
is a complaint, and the node is freed. -/
theorem enter {tmp : Addr} {rest : List Item} (h : Keeps mc t s)
    (hfuel : 2 * Nat.log 2 (s.card + 1) < fuel) (hvalid : Valid tmp)
    (hfree : mc.memory.node tmp = none) (hstdin : mc.stdin = .number n :: rest) (dirt : RbNode) :
    ∃ mc' t', Rbtree.enter fuel mc tmp dirt = .ok mc' ∧ Keeps mc' t' (insert n s) ∧
      (∀ a, a ∈ t'.inorder ↔ a ∈ t.inorder ∨ a = tmp ∧ n ∉ s) ∧ mc'.stdin = rest ∧
      mc'.stdout = mc.stdout ∧ mc'.stderr = mc.stderr ++ duplicate s n := by
  have htmp0 : tmp ≠ 0 := hvalid.ne_null
  let mc₁ : Machine := { mc with
    memory := mc.memory.write tmp dirt
    num := Function.update mc.num tmp n
    stdin := rest }
  have hnum : mc₁.num tmp = n := Function.update_self ..
  have hbeside : Beside mc₁ t s tmp := h.beside hvalid hfree dirt n rest
  have hstart : Rbtree.enter fuel mc tmp dirt = (do
      let (mc, ret) ← myInsert fuel mc₁ tmp
      if ret < 0 then
        (mc.eprintf ("The " ++ toString (mc.num tmp) ++ " already exists.\n")).free tmp
      else return mc) := by
    have hread : (mc.memory.write tmp dirt).read tmp = .ok dirt :=
      Memory.read_eq htmp0 Memory.write_node_self
    simp only [Rbtree.enter, Machine.malloc, if_neg htmp0, Machine.scanNum, hstdin, hread,
      Programs.ok_bind]
    rfl
  rw [hstart]
  have hheight : t.height < fuel := h.height_le.trans_lt hfuel
  by_cases hmem : n ∈ s
  · have hinsert : myInsert fuel mc₁ tmp = .ok (mc₁, -1) :=
      hbeside.myInsert_of_mem hheight (hnum.symm ▸ hmem)
    obtain ⟨mc', hrun, hkeeps, hin, hout, herr⟩ :=
      (hbeside.eprintf ("The " ++ toString (mc₁.num tmp) ++ " already exists.\n")).free
    refine ⟨mc', t, ?_, ?_, fun a => ?_, hin, hout, ?_⟩
    · rw [hinsert, Programs.ok_bind]
      exact hrun
    · rwa [Finset.insert_eq_of_mem hmem]
    · exact ⟨.inl, fun ha => ha.resolve_right fun ha => ha.2 hmem⟩
    · rw [herr, duplicate, if_pos hmem, ← hnum]
      rfl
  · have hlog : Nat.log 2 (t.size + 1) < fuel := by
      rw [h.size_eq]
      omega
    obtain ⟨mc', t', hinsert, hkeeps, hmemT, hin, hout, herr⟩ :=
      hbeside.myInsert_of_notMem hheight hlog (hnum.symm ▸ hmem)
    refine ⟨mc', t', ?_, hnum ▸ hkeeps, fun a => ?_, hin, hout, ?_⟩
    · rw [hinsert]
      rfl
    · rw [hmemT]
      exact or_congr_right (and_iff_left hmem).symm
    · rw [herr, duplicate, if_neg hmem]
      exact String.append_empty.symm

/-- The loop of `main` adds all numbers of the input to the set, and reports the duplicates. -/
theorem enterAll {blocks : List (Addr × RbNode)} {ns : List Int32} {rest : List Item}
    (h : Keeps mc t s) (hfuel : 2 * Nat.log 2 (s.card + ns.length + 1) < fuel)
    (hstdin : mc.stdin = ns.map .number ++ rest) (hlength : blocks.length = ns.length)
    (hblocks : Available (fun a => a ∈ t.inorder) s blocks ns) :
    ∃ mc' t', Rbtree.enterAll fuel mc blocks = .ok mc' ∧ Keeps mc' t' (s ∪ ns.toFinset) ∧
      mc'.stdin = rest ∧ mc'.stdout = mc.stdout ∧ mc'.stderr = mc.stderr ++ duplicates s ns := by
  induction ns generalizing mc t s blocks with
  | nil =>
    obtain rfl := List.length_eq_zero_iff.mp hlength
    exact ⟨mc, t, rfl, by simpa using h, hstdin, rfl, String.append_empty.symm⟩
  | cons n ns ih =>
    obtain ⟨block, blocks, rfl⟩ := List.exists_cons_of_length_eq_add_one hlength
    obtain ⟨hvalid, hused, hblocks⟩ := hblocks
    have hfree : mc.memory.node block.1 = none := by
      by_contra hne
      exact hused ((h.allocated block.1).mp hne)
    have hlog : 2 * Nat.log 2 (s.card + 1) < fuel := lt_of_le_of_lt
      (Nat.mul_le_mul_left 2 (Nat.log_mono_right (by omega))) hfuel
    obtain ⟨mc₁, t₁, hrun₁, h₁, hmem₁, hstdin₁, hstdout₁, hstderr₁⟩ :=
      h.enter hlog hvalid hfree hstdin block.2
    have hcard : (insert n s).card ≤ s.card + 1 := Finset.card_insert_le n s
    have hlog₁ : 2 * Nat.log 2 ((insert n s).card + ns.length + 1) < fuel := lt_of_le_of_lt
      (Nat.mul_le_mul_left 2 (Nat.log_mono_right (by rw [List.length_cons]; omega))) hfuel
    have hblocks₁ : Available (fun a => a ∈ t₁.inorder) (insert n s) blocks ns := by
      simpa only [hmem₁] using hblocks
    obtain ⟨mc₂, t₂, hrun₂, h₂, hstdin₂, hstdout₂, hstderr₂⟩ :=
      ih h₁ hlog₁ hstdin₁ (Nat.succ.inj hlength) hblocks₁
    refine ⟨mc₂, t₂, ?_, ?_, hstdin₂, hstdout₂.trans hstdout₁, ?_⟩
    · rw [Rbtree.enterAll, List.foldlM_cons, hrun₁]
      exact hrun₂
    · rwa [List.toFinset_cons, Finset.union_insert, ← Finset.insert_union]
    · rw [hstderr₂, hstderr₁, duplicates, String.append_assoc]

end Keeps

/-! ## Runs -/

/-- One call does to the machine what it does to the set. -/
theorem Call.shows_step {call : Call} {v : View} (h : Shows mc v) (hlegal : call.Legal mc)
    (hfuel : Enough fuel v.set.card) :
    ∃ mc', call.run fuel mc = .ok mc' ∧ Shows mc' (call.apply v) := by
  obtain ⟨⟨t, ht⟩, hstdin, hstdout, hstderr⟩ := h
  cases call with
  | enter tmp dirt =>
    obtain ⟨hvalid, hfree, n, rest, hnext⟩ := hlegal
    obtain ⟨mc', t', hrun, h', -, hstdin', hstdout', hstderr'⟩ :=
      ht.enter hfuel.down hvalid hfree hnext dirt
    refine ⟨mc', hrun, ?_⟩
    rw [Call.apply, ← hstdin, hnext]
    exact ⟨⟨t', h'⟩, hstdin', hstdout'.trans hstdout, hstderr'.trans (by rw [hstderr])⟩
  | delete num =>
    obtain ⟨mc', t', hrun, h', hstdin', hstdout', hstderr'⟩ := ht.myDelete hfuel.down num
    exact ⟨mc', hrun, ⟨t', h'⟩, hstdin'.trans hstdin, hstdout'.trans hstdout,
      hstderr'.trans (by rw [hstderr]; rfl)⟩
  | print =>
    exact ⟨_, ht.printRbtree hfuel, ⟨t, ht.printf _⟩, hstdin, congrArg (· ++ line v.set) hstdout,
      hstderr⟩

theorem Call.card_apply_le (call : Call) (v : View) :
    (call.apply v).set.card ≤ v.set.card + 1 := by
  cases call with
  | enter tmp dirt =>
    rw [Call.apply]
    split
    · exact Finset.card_insert_le _ _
    · exact Nat.le_succ _
  | delete num => exact (Finset.card_erase_le).trans (Nat.le_succ _)
  | print => exact Nat.le_succ _

theorem Enough.mono {k l : ℕ} (h : Enough fuel l) (hkl : k ≤ l) : Enough fuel k :=
  ⟨hkl.trans_lt h.all, lt_of_le_of_lt
    (Nat.mul_le_mul_left 2 (Nat.log_mono_right (Nat.succ_le_succ hkl))) h.down⟩

theorem Shows.searches {v : View} (h : Shows mc v) : Searches mc v.set := by
  intro num steps hsteps
  obtain ⟨t, ht⟩ := h.keeps
  obtain ⟨a, hrun, ⟨hmem, ha, heq⟩ | ⟨hmem, rfl⟩⟩ := ht.mySearch hsteps num
  · exact ⟨a, hrun, iff_of_true (ht.holds.valid a ha).ne_null hmem, fun _ => heq⟩
  · exact ⟨0, hrun, iff_of_false (fun hne => hne rfl) hmem, fun hne => absurd rfl hne⟩

/-- Every sequence of legal calls does to the machine what it does to the set. -/
theorem numbers_refine {calls : List Call} {v : View} (h : Shows mc v)
    (hlegal : AllLegal fuel mc calls) (hfuel : Enough fuel (v.set.card + calls.length)) :
    RunShows fuel mc v calls := by
  induction calls generalizing mc v with
  | nil => exact ⟨h, h.searches⟩
  | cons call calls ih =>
    have hnow := hfuel.mono (Nat.le_add_right v.set.card (call :: calls).length)
    obtain ⟨mc', hrun, h'⟩ := Call.shows_step h hlegal.1 hnow
    have hcard := call.card_apply_le v
    refine ⟨h, h.searches, mc', hrun, ih h' (hlegal.2 mc' hrun) (hfuel.mono ?_)⟩
    rw [List.length_cons]
    omega

/-- The case of five numbers that are entered, one of them twice and one below zero. The set is
printed, a number is deleted whose memory is used again, and another one is missing. -/
theorem numbers_refine_five_numbers : RunShows 10
    ⟨⟨fun _ => none, fun _ => 0⟩, fun _ => 0,
      [.number 21, .number 7, .number (-3), .number 7, .number 30], "", ""⟩
    ⟨∅, [.number 21, .number 7, .number (-3), .number 7, .number 30], "", ""⟩
    [.enter 8 ⟨0, 0, 0⟩, .enter 16 ⟨1, 1, 1⟩, .enter 24 ⟨0, 0, 0⟩, .enter 32 ⟨0, 0, 0⟩, .print,
      .delete 7, .delete 4, .enter 16 ⟨0, 0, 0⟩, .print] := by
  refine numbers_refine ⟨⟨.leaf, ⟨rfl, trivial, List.nodup_nil, nofun⟩, ⟨rfl, 0, rfl⟩,
    List.Pairwise.nil, by simp [inorder], by simp [inorder]⟩, rfl, rfl, rfl⟩ ?_
    ⟨by decide, by decide⟩
  decide +kernel

/-- The output of the program, when `malloc` gives as many nodes as numbers are asked for, and so
many numbers are in the input, each of them an `int`. -/
theorem main_prints {atoi : String → Int32} {malloc : ℕ → Addr × RbNode} {prog arg : String}
    {args : List String} {ns : List Int32} {rest : List Item}
    (hns : (atoi arg).toInt.toNat = ns.length)
    (hstdin : mc.stdin = ns.map .number ++ rest) (hmemory : ∀ a, mc.memory.node a = none)
    (hmalloc : Available (fun _ => False) ∅ ((List.range ns.length).map malloc) ns)
    (hfuel : Enough fuel ns.length) :
    ∃ mc', main fuel atoi malloc prog (arg :: args) mc = .ok (mc', 0) ∧
      mc'.stdout = mc.stdout ++ "Please enter " ++ toString (atoi arg) ++ " integers:\n" ++
        "\nthe first test\n" ++ line ns.toFinset ++
        "\nthe second test\n" ++ line (ns.toFinset.erase 21) ∧
      mc'.stderr = mc.stderr ++ duplicates ∅ ns ++ missing ns.toFinset 21 ∧
      ∃ t, Keeps mc' t (ns.toFinset.erase 21) := by
  let mc₀ : Machine := { mc with
    memory := { mc.memory with rbNode := fun _ => 0 }
    stdout := mc.stdout ++ ("Please enter " ++ toString (atoi arg) ++ " integers:\n") }
  have h₀ : Keeps mc₀ .leaf ∅ := by
    refine ⟨⟨rfl, trivial, List.nodup_nil, nofun⟩, ⟨rfl, 0, rfl⟩, List.Pairwise.nil, fun n => ?_,
      fun a => ?_⟩
    · exact iff_of_false (Finset.notMem_empty n) List.not_mem_nil
    · exact iff_of_false (fun hne => hne (hmemory a)) List.not_mem_nil
  have hcard : ns.toFinset.card ≤ ns.length := ns.toFinset_card_le
  have hfuel₁ : Enough fuel ns.toFinset.card := hfuel.mono hcard
  have hfuel₂ : Enough fuel (ns.toFinset.erase 21).card := hfuel₁.mono Finset.card_erase_le
  have hblocks₀ : Available (fun a => a ∈ (leaf : RbTree Addr).inorder) ∅
      ((List.range ns.length).map malloc) ns := by
    simpa only [inorder, List.not_mem_nil] using hmalloc
  obtain ⟨mc₁, t₁, hrun₁, h₁, -, hstdout₁, hstderr₁⟩ := h₀.enterAll
    (by simpa using hfuel.down) hstdin (by simp) hblocks₀
  rw [Finset.empty_union] at h₁
  obtain ⟨mc₂, t₂, hrun₂, h₂, -, hstdout₂, hstderr₂⟩ :=
    ((h₁.printf "\nthe first test\n").printf (line ns.toFinset)).myDelete hfuel₁.down 21
  have h₃ := h₂.printf "\nthe second test\n"
  refine ⟨_, ?_, ?_, ?_, t₂, h₃.printf (line (ns.toFinset.erase 21))⟩
  · rw [main, hns]
    refine (Programs.bind_of_eq_ok hrun₁).trans ?_
    refine (Programs.bind_of_eq_ok ((h₁.printf _).printRbtree hfuel₁)).trans ?_
    refine (Programs.bind_of_eq_ok hrun₂).trans ?_
    exact Programs.bind_of_eq_ok (h₃.printRbtree hfuel₂)
  · simp only [Machine.printf, hstdout₂, hstdout₁, mc₀, String.append_assoc]
  · simp only [Machine.printf, hstderr₂, hstderr₁, mc₀]

/-- The case of four numbers, of which 21 is entered twice. -/
theorem main_prints_four_numbers :
    ∃ mc', main 5 (fun _ => 4) (fun k => (BitVec.ofNat 64 (8 * (k + 1)), ⟨1, 1, 1⟩)) "rbtree_test"
        ["4"] ⟨⟨fun _ => none, fun _ => 1⟩, fun _ => 0,
          [.number 21, .number (-5), .number 21, .number 3], "", ""⟩ = .ok (mc', 0) ∧
      mc'.stdout = "" ++ "Please enter " ++ toString (4 : Int32) ++ " integers:\n" ++
        "\nthe first test\n" ++ line [21, -5, 21, 3].toFinset ++
        "\nthe second test\n" ++ line ([21, -5, 21, 3].toFinset.erase 21) ∧
      mc'.stderr = "" ++ duplicates ∅ [21, -5, 21, 3] ++ missing [21, -5, 21, 3].toFinset 21 ∧
      ∃ t, Keeps mc' t ([21, -5, 21, 3].toFinset.erase 21) := by
  have hstdin : [Item.number 21, .number (-5), .number 21, .number 3] =
      [21, -5, 21, 3].map .number ++ [] := rfl
  exact main_prints rfl hstdin (fun _ => rfl) (by decide +kernel) ⟨by decide, by decide⟩

end Hixo.Rbtree
