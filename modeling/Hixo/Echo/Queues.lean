import Hixo.Echo.Defs
import Hixo.Foundation.Programs

/-!
# The buffer queues of a connection

While the read handler runs, the buffers of a connection lie in three queues: `m_readbuf_queue`,
`old_queue` and `tmp_queue`.

* `Base`, `Rings`: the queues are disjoint rings through the nodes of the buffers;
* `Rings.delOld`, `Rings.initNode`, `Rings.addTmp`: a buffer goes to `tmp_queue`;
* `Rings.mergeTmp`, `Base.mergeOld`, `base_start`: a queue is merged into another one;
* `forEach_queue`, `forEachSafe_queue`: the loops over a queue, buffer by buffer.
-/

namespace Hixo.Echo

open RingHeap

/-- The cells of buffers. -/
def nodes (is : List ℕ) : List Cell := is.map .bufNode

/-- `m_readbuf_queue` and `old_queue` are rings. -/
structure Base (h : RingHeap Cell) (read old : List ℕ) : Prop where
  read : h.IsRing .readbufQueue (nodes read)
  old : h.IsRing .oldQueue (nodes old)

/-- The three queues are rings. -/
structure Rings (h : RingHeap Cell) (read old tmp : List ℕ) : Prop extends Base h read old where
  tmp : h.IsRing .tmpQueue (nodes tmp)

variable {h : RingHeap Cell} {read old tmp : List ℕ} {i j : ℕ}

@[simp]
theorem mem_nodes : Cell.bufNode i ∈ nodes read ↔ i ∈ read := by
  simp [nodes]

@[simp]
theorem nodes_append {is js : List ℕ} : nodes (is ++ js) = nodes is ++ nodes js :=
  List.map_append

@[simp]
theorem nodes_cons {is : List ℕ} : nodes (i :: is) = .bufNode i :: nodes is := rfl

@[simp]
theorem nodes_nil : nodes [] = [] := rfl

@[simp]
theorem length_nodes {is : List ℕ} : (nodes is).length = is.length := List.length_map _

/-- The heads of the queues. -/
def Cell.isHead : Cell → Bool
  | .bufNode _ => false
  | _ => true

/-- A cell of a queue is no cell of a queue with another head and other buffers. -/
theorem notMem_queue {a b : Cell} {is js : List ℕ} (hab : a ≠ b) (ha : a.isHead) (hb : b.isHead)
    (hdisj : ∀ i ∈ is, i ∉ js) : ∀ c ∈ a :: nodes is, c ∉ b :: nodes js := by
  intro c hc hc'
  simp only [nodes, List.mem_cons, List.mem_map] at hc hc'
  rcases hc with rfl | ⟨i, hi, rfl⟩
  · rcases hc' with rfl | ⟨j, hj, rfl⟩
    · exact hab rfl
    · simp [Cell.isHead] at ha
  · rcases hc' with rfl | ⟨j, hj, heq⟩
    · simp [Cell.isHead] at hb
    · obtain rfl : j = i := Cell.bufNode.inj heq
      exact hdisj j hi hj

/-- A buffer is in a queue exactly when its node is. -/
theorem bufNode_mem_queue {a : Cell} {is : List ℕ} (ha : a.isHead) :
    Cell.bufNode i ∈ a :: nodes is ↔ i ∈ is := by
  rw [List.mem_cons, mem_nodes, or_iff_right]
  rintro rfl
  simp [Cell.isHead] at ha

/-- Three queues without a common buffer are disjoint pair by pair. -/
theorem nodup_queues :
    (read ++ old ++ tmp).Nodup ↔ read.Nodup ∧ old.Nodup ∧ tmp.Nodup ∧
      (∀ i ∈ read, i ∉ old) ∧ (∀ i ∈ read, i ∉ tmp) ∧ ∀ i ∈ old, i ∉ tmp := by
  simp only [List.nodup_append, List.mem_append]
  constructor
  · rintro ⟨⟨hr, ho, hro⟩, ht, hrot⟩
    exact ⟨hr, ho, ht, fun i hi hj => hro i hi i hj rfl, fun i hi hj => hrot i (.inl hi) i hj rfl,
      fun i hi hj => hrot i (.inr hi) i hj rfl⟩
  · rintro ⟨hr, ho, ht, hro, hrt, hot⟩
    refine ⟨⟨hr, ho, fun i hi j hj heq => hro i hi (heq ▸ hj)⟩, ht, fun i hi j hj heq => ?_⟩
    rcases hi with hi | hi
    · exact hrt i hi (heq ▸ hj)
    · exact hot i hi (heq ▸ hj)

/-! ## Moving buffers between the queues -/

/-- Another queue is not touched when the first buffer of a queue is taken out. -/
theorem isRing_del_other {a q : Cell} {is js : List ℕ} (ha : h.IsRing a (nodes js))
    (hq : h.IsRing q (nodes (i :: is))) (hne : a ≠ q) (hhead : a.isHead) (hhead' : q.isHead)
    (hdisj : ∀ k ∈ js, k ∉ i :: is) : (h.del (.bufNode i)).IsRing a (nodes js) := by
  have hring : h.IsRing q ([] ++ Cell.bufNode i :: nodes is) := hq
  exact ha.congr fun c hc => hring.del_same (notMem_queue hne hhead hhead' hdisj c hc)

/-- Another queue is not touched when a buffer is put at the end of a queue. -/
theorem isRing_addTail_other {a q : Cell} {is js : List ℕ} (ha : h.IsRing a (nodes js))
    (hq : h.IsRing q (nodes is)) (hne : a ≠ q) (hhead : a.isHead) (hhead' : q.isHead)
    (hi : i ∉ js) (hdisj : ∀ k ∈ js, k ∉ is) :
    (h.addTail q (.bufNode i)).IsRing a (nodes js) := by
  refine ha.congr fun c hc => hq.addTail_same fun hmem => ?_
  rcases List.mem_cons.mp hmem with rfl | hmem
  · exact hi ((bufNode_mem_queue hhead).mp hc)
  · exact notMem_queue hne hhead hhead' hdisj c hc hmem

/-- A queue is not touched when a cell outside of it is initialised. -/
theorem isRing_init_other {a c : Cell} {is : List ℕ} (ha : h.IsRing a (nodes is))
    (hc : c ∉ a :: nodes is) : (h.init c).IsRing a (nodes is) :=
  ha.congr fun _ hd => init_same fun heq => hc (heq ▸ hd)

/-- The initialisation of `tmp_queue` leaves the other two queues alone. -/
theorem Base.initTmp (hbase : Base h read old) : Rings (h.init .tmpQueue) read old [] :=
  ⟨⟨isRing_init_other hbase.read (by simp [nodes]), isRing_init_other hbase.old (by simp [nodes])⟩,
    isRing_init⟩

/-- When the first buffer of `old_queue` is taken out, the other ones stay in their queues. -/
theorem Rings.delOld (hrings : Rings h read (i :: old) tmp)
    (hnodup : (read ++ i :: old ++ tmp).Nodup) : Rings (h.del (.bufNode i)) read old tmp := by
  obtain ⟨-, -, -, hro, -, hot⟩ := nodup_queues.mp hnodup
  have hring : h.IsRing .oldQueue ([] ++ Cell.bufNode i :: nodes old) := hrings.old
  refine ⟨⟨isRing_del_other hrings.read hrings.old (by simp) rfl rfl hro, hring.del⟩, ?_⟩
  exact isRing_del_other hrings.tmp hrings.old (by simp) rfl rfl fun k hk hk' => hot k hk' hk

/-- The initialisation of the node of a new buffer leaves the queues alone. -/
theorem Rings.initNode (hrings : Rings h read old tmp) (hread : i ∉ read) (hold : i ∉ old)
    (htmp : i ∉ tmp) : Rings (h.init (.bufNode i)) read old tmp :=
  ⟨⟨isRing_init_other hrings.read (by simpa using hread),
    isRing_init_other hrings.old (by simpa using hold)⟩,
    isRing_init_other hrings.tmp (by simpa using htmp)⟩

/-- A buffer outside of the queues goes to the end of `tmp_queue`. -/
theorem Rings.addTmp (hrings : Rings h read old tmp) (hread : i ∉ read) (hold : i ∉ old)
    (htmp : i ∉ tmp) (hnodup : (read ++ old ++ tmp).Nodup) :
    Rings (h.addTail .tmpQueue (.bufNode i)) read old (tmp ++ [i]) := by
  obtain ⟨-, -, -, -, hrt, hot⟩ := nodup_queues.mp hnodup
  refine ⟨⟨isRing_addTail_other hrings.read hrings.tmp (by simp) rfl rfl hread hrt,
    isRing_addTail_other hrings.old hrings.tmp (by simp) rfl rfl hold hot⟩, ?_⟩
  simpa using hrings.tmp.addTail (by simpa using htmp)

/-- The buffers of `tmp_queue` go to the end of `m_readbuf_queue`. -/
theorem Rings.mergeTmp (hrings : Rings h read old tmp) (hnodup : (read ++ old ++ tmp).Nodup) :
    Rings (h.merge .readbufQueue .tmpQueue) (read ++ tmp) old [] := by
  obtain ⟨-, -, -, hro, hrt, hot⟩ := nodup_queues.mp hnodup
  obtain ⟨hread, htmp, hsame⟩ := hrings.read.merge hrings.tmp
    (notMem_queue (by simp) rfl rfl hrt)
  refine ⟨⟨by simpa using hread, hrings.old.congr fun c hc => hsame c ?_⟩, htmp⟩
  have hcr := notMem_queue (b := .readbufQueue) (by simp) rfl rfl
    (fun k hk hk' => hro k hk' hk) c hc
  have hct := notMem_queue (b := .tmpQueue) (by simp) rfl rfl hot c hc
  simp only [List.mem_cons, List.mem_append] at hcr hct ⊢
  tauto

/-- The buffers of `old_queue` go to the end of `m_readbuf_queue`. -/
theorem Base.mergeOld (hbase : Base h read old) (hdisj : ∀ i ∈ read, i ∉ old) :
    Base (h.merge .readbufQueue .oldQueue) (read ++ old) [] := by
  obtain ⟨hread, hold, -⟩ := hbase.read.merge hbase.old (notMem_queue (by simp) rfl rfl hdisj)
  exact ⟨by simpa using hread, hold⟩

/-- At the start all buffers go to `old_queue`. -/
theorem base_start (hread : h.IsRing .readbufQueue (nodes read)) :
    Base ((h.init .oldQueue).merge .oldQueue .readbufQueue) [] read := by
  have hinit : (h.init .oldQueue).IsRing .readbufQueue (nodes read) :=
    isRing_init_other hread (by simp [nodes])
  obtain ⟨hold, hread', -⟩ := (isRing_init (h := h) (a := Cell.oldQueue)).merge hinit
    (notMem_queue (by simp) rfl rfl (by simp : ∀ i ∈ ([] : List ℕ), i ∉ read))
  exact ⟨hread', hold⟩

/-! ## Loops over a queue -/

/-- A queue has no buffer twice. -/
theorem nodup_of_isRing {q : Cell} {is : List ℕ} (hring : h.IsRing q (nodes is)) : is.Nodup :=
  List.Nodup.of_map _ (List.nodup_cons.mp hring.nodup).2

/-- The buffer that a loop is at was not visited before. -/
theorem notMem_of_nodup {done todo : List ℕ} (hnodup : (done ++ i :: todo).Nodup) : i ∉ done := by
  intro hmem
  exact (List.nodup_cons.mp (List.nodup_middle.mp hnodup)).1 (List.mem_append_left _ hmem)

section Loops

variable {σ ε : Type} (links : σ → RingHeap Cell) (endless : ε) {queue : Cell} {is : List ℕ}
  {P : List ℕ → List ℕ → σ → Prop} {s : σ} {fuel : ℕ}

/-- The rule for a loop whose body keeps the links: `P` holds between the passes, of the buffers
that were visited and of those that are left, and `Q` when the loop is over. -/
theorem forEach_queue {body : Cell → σ → Except ε (Pass σ)} {Q : σ → Prop}
    (hring : (links s).IsRing queue (nodes is))
    (hlinks : ∀ done todo t, P done todo t → links t = links s)
    (hbody : ∀ done i todo t, is = done ++ i :: todo → i ∉ done → P done (i :: todo) t →
      (∃ t', body (.bufNode i) t = .ok (.next t') ∧ P (done ++ [i]) todo t') ∨
        ∃ t', body (.bufNode i) t = .ok (.stop t') ∧ Q t')
    (hend : ∀ t, P is [] t → Q t) (hP : P [] is s) (hfuel : is.length < fuel) :
    ∃ s', forEach links endless queue body fuel ((links s).next queue) s = .ok s' ∧ Q s' := by
  -- the rule for rings speaks of cells: `R` is `P` over the nodes of the buffers
  let R : List Cell → List Cell → σ → Prop := fun vs rest t =>
    ∃ done todo, is = done ++ todo ∧ vs = nodes done ∧ rest = nodes todo ∧ P done todo t
  have hrings : ∀ vs rest t, R vs rest t → (links t).IsRing queue (vs ++ rest) := by
    rintro vs rest t ⟨done, todo, rfl, rfl, rfl, hP⟩
    rw [hlinks done todo t hP, ← nodes_append]
    exact hring
  have hpass : ∀ vs x rest t, R vs (x :: rest) t →
      (∃ t', body x t = .ok (.next t') ∧ R (vs ++ [x]) rest t') ∨
        ∃ t', body x t = .ok (.stop t') ∧ Q t' := by
    rintro vs x rest t ⟨done, todo, his, rfl, heq, hP⟩
    cases todo with
    | nil => cases heq
    | cons i todo =>
      obtain ⟨rfl, rfl⟩ := List.cons.inj heq
      have hi : i ∉ done := notMem_of_nodup (his ▸ nodup_of_isRing hring)
      rcases hbody done i todo t his hi hP with ⟨t', hrun, hP'⟩ | hstop
      · exact .inl ⟨t', hrun, done ++ [i], todo, by simp [his], by simp, rfl, hP'⟩
      · exact .inr hstop
  have hover : ∀ vs t, R vs [] t → Q t := by
    rintro vs t ⟨done, todo, rfl, rfl, heq, hP⟩
    obtain rfl : todo = [] := List.map_eq_nil_iff.mp heq.symm
    rw [List.append_nil] at hend
    exact hend t hP
  exact forEach_rule links endless hrings hpass hover ⟨[], is, rfl, rfl, rfl, hP⟩
    (by rwa [length_nodes])

/-- The rule for a loop whose body takes the visited buffer out of the queue. -/
theorem forEachSafe_queue {body : Cell → σ → Except ε σ} (hnodup : is.Nodup)
    (hring : ∀ done todo t, P done todo t → (links t).IsRing queue (nodes todo))
    (hbody : ∀ done i todo t, is = done ++ i :: todo → i ∉ done → P done (i :: todo) t →
      ∃ t', body (.bufNode i) t = .ok t' ∧ P (done ++ [i]) todo t')
    (hP : P [] is s) (hfuel : is.length < fuel) :
    ∃ s', forEachSafe links endless queue body fuel ((links s).next queue)
      ((links s).next ((links s).next queue)) s = .ok s' ∧ P is [] s' := by
  -- the ring that is left is the second part of the list, and the first part was visited
  let R : List Cell → σ → Prop := fun rest t =>
    ∃ done todo, is = done ++ todo ∧ rest = nodes todo ∧ P done todo t
  have hrings : ∀ rest t, R rest t → (links t).IsRing queue rest := by
    rintro rest t ⟨done, todo, -, rfl, hP⟩
    exact hring done todo t hP
  have hpass : ∀ x rest t, R (x :: rest) t → ∃ t', body x t = .ok t' ∧ R rest t' := by
    rintro x rest t ⟨done, todo, his, heq, hP⟩
    cases todo with
    | nil => cases heq
    | cons i todo =>
      obtain ⟨rfl, rfl⟩ := List.cons.inj heq
      have hi : i ∉ done := notMem_of_nodup (his ▸ hnodup)
      obtain ⟨t', hrun, hP'⟩ := hbody done i todo t his hi hP
      exact ⟨t', hrun, done ++ [i], todo, by simp [his], rfl, hP'⟩
  obtain ⟨s', hrun, done, todo, rfl, heq, hP'⟩ := forEachSafe_rule links endless hrings hpass
    ⟨[], is, rfl, rfl, hP⟩ (by rwa [length_nodes])
  obtain rfl : todo = [] := List.map_eq_nil_iff.mp heq.symm
  exact ⟨s', hrun, by rwa [List.append_nil]⟩

end Loops

end Hixo.Echo
