import Hixo.Foundation.Programs
import Hixo.Worker.Registration

/-!
# The filter for stale events

`epoll_process_events` drops an event when the descriptor of its socket is `-1` or when its tag is
not `m_stale`. `hixo_create_socket` toggles `m_stale`, and nothing sets a descriptor to `-1`, so
that the tag alone decides: it tells two uses of a slot apart when an odd number of creations lies
between them.

* `SlotHistory`: the creations, registrations and closings of one slot;
* `Passes`: the filter;
* `SlotHistory.invariant`: the tag of a use, and the descriptor;
* `passes_only_if_current_iff`: when the filter does its work.
-/

namespace Hixo

open Worker Programs

/-! ## Histories of a slot -/

/-- A registration: the use of the slot it was made for, and its tag. -/
structure Recorded where
  use : ℕ
  tag : Bool
  deriving DecidableEq, Repr

/-- The histories of slot `i` from `w₀` on: the number of creations so far, whether the slot is
open, and the registrations that were made. -/
inductive SlotHistory (i : ℕ) (w₀ : Worker) : Worker → ℕ → Bool → List Recorded → Prop
  | start : SlotHistory i w₀ w₀ 0 false []
  /-- `hixo_create_socket` -/
  | create {w : Worker} {n : ℕ} {regs : List Recorded} {fd : ℤ} {type : SockType}
      {readHandler : Option ReadHandler} {writeHandler disconnectHandler : Option Callback} :
      SlotHistory i w₀ w n false regs → 0 ≤ fd →
      SlotHistory i w₀ (w.hixoCreateSocket i fd type readHandler writeHandler disconnectHandler)
        (n + 1) true regs
  /-- `epoll_add_event`, with success -/
  | register {env : Env} {w : Worker} {n : ℕ} {regs : List Recorded} :
      SlotHistory i w₀ w n true regs → env.addEvent w i = .ok →
      SlotHistory i w₀ (epollAddEvent env w i).2 n true (⟨n, (w.sock i).stale⟩ :: regs)
  /-- `hixo_handle_close` -/
  | close {env : Env} {w w' : Worker} {n : ℕ} {regs : List Recorded} :
      SlotHistory i w₀ w n true regs → hixoHandleClose env w i = .ok w' →
      SlotHistory i w₀ w' n false regs
  /-- `hixo_destroy_socket`, when a new connection cannot be registered -/
  | destroy {w : Worker} {n : ℕ} {regs : List Recorded} :
      SlotHistory i w₀ w n true regs → SlotHistory i w₀ (w.hixoDestroySocket i) n false regs
  /-- Anything else, which touches neither the descriptor nor the tag of the slot -/
  | other {w w' : Worker} {n : ℕ} {isOpen : Bool} {regs : List Recorded} :
      SlotHistory i w₀ w n isOpen regs → (w'.sock i).fd = (w.sock i).fd →
      (w'.sock i).stale = (w.sock i).stale → SlotHistory i w₀ w' n isOpen regs

/-! ## The filter -/

/-- The event is not dropped. -/
def Passes (w : Worker) (ev : EpollEvent) : Prop :=
  ¬((w.sock ev.slot).fd = -1 ∨ ev.stale ≠ (w.sock ev.slot).stale)

section Filter

variable {w : Worker} {ev : EpollEvent}

/-- An event that does not pass the filter changes nothing. -/
theorem postEvent_of_not_passes (h : ¬Passes w ev) : postEvent w ev = w :=
  if_pos (not_not.mp h)

/-- An event that passes the filter and reports something posts its socket. -/
theorem postEvent_of_passes (h : Passes w ev) (hflag : (ev.writable || ev.readable) = true) :
    (postEvent w ev).links .postedEvents = some (.postedNode ev.slot) := by
  have hdef : postEvent w ev =
      if ev.writable || ev.readable then
        (w.modifySock ev.slot (·.flag ev)).addNode .postedEvents (.postedNode ev.slot)
      else w.modifySock ev.slot (·.flag ev) :=
    if_neg h
  rw [hdef, if_pos hflag]
  simp [Worker.addNode, LinkHeap.addNode]

end Filter

/-! ## What a history leaves -/

section History

variable {i n : ℕ} {w₀ w : Worker} {isOpen : Bool} {regs : List Recorded}

/-- `hixo_handle_close` leaves the descriptor and the tag in the slot. -/
theorem hixoHandleClose_sock {env : Env} {w' : Worker} (h : hixoHandleClose env w i = .ok w') :
    (w'.sock i).fd = (w.sock i).fd ∧ (w'.sock i).stale = (w.sock i).stale := by
  obtain ⟨w₁, hrm, h⟩ := exists_of_bind_eq_ok h
  obtain ⟨w₂, hfree, h⟩ := exists_of_bind_eq_ok h
  obtain rfl := Except.ok.inj h
  -- only flags and the ownership bit change
  have h₁ : (w₁.sock i).fd = (w.sock i).fd ∧ (w₁.sock i).stale = (w.sock i).stale := by
    obtain ⟨rslt, interest, hdel, -⟩ := epollDelEvent_snd env
      ((w.record (.handleClose i)).modifySock i fun s =>
        { s with readable := false, writable := false }) i
    rw [hdel] at hrm
    unfold assertRmNode at hrm
    split at hrm
    · cases hrm
    · cases hrm
    · obtain rfl := Except.ok.inj hrm
      simp [hixoDestroySocket, closeFd, record, modifySock]
  unfold freeResource at hfree
  dsimp only at hfree
  split_ifs at hfree
  · obtain rfl := Except.ok.inj hfree
    exact h₁
  · obtain rfl := Except.ok.inj hfree
    simpa [modifySock, addNode] using h₁

/-- The tag of use `n` of a slot whose memory had the tag `tag₀` at first. -/
def tagOfUse (tag₀ : Bool) (n : ℕ) : Bool := xor tag₀ (decide (n % 2 = 1))

theorem tagOfUse_succ (tag₀ : Bool) (n : ℕ) : tagOfUse tag₀ (n + 1) = !tagOfUse tag₀ n := by
  unfold tagOfUse
  rcases Nat.mod_two_eq_zero_or_one n with h | h <;> cases tag₀ <;> simp [h, Nat.add_mod]

theorem tagOfUse_eq_iff (tag₀ : Bool) {m : ℕ} (h : m ≤ n) :
    tagOfUse tag₀ m = tagOfUse tag₀ n ↔ (n - m) % 2 = 0 := by
  rw [tagOfUse, tagOfUse, Bool.xor_right_inj, decide_eq_decide]
  omega

/-- The tag is that of the present use, every registration has the tag of its own use, and the
descriptor is not `-1`. -/
theorem SlotHistory.invariant (h : SlotHistory i w₀ w n isOpen regs) :
    (w.sock i).stale = tagOfUse (w₀.sock i).stale n ∧ (0 < n → (w.sock i).fd ≠ -1) ∧
      (isOpen = true → 0 < n) ∧
      ∀ r ∈ regs, 0 < r.use ∧ r.use ≤ n ∧ r.tag = tagOfUse (w₀.sock i).stale r.use := by
  induction h with
  | start => exact ⟨by simp [tagOfUse], by simp, by simp, by simp⟩
  -- a new use: the tag flips, and all registrations are of earlier uses
  | @create w n regs fd _ _ _ _ _ hfd ih =>
    obtain ⟨hstale, -, -, hregs⟩ := ih
    refine ⟨?_, fun _ => ?_, fun _ => Nat.succ_pos n, fun r hr => ?_⟩
    · simp [hixoCreateSocket, modifySock, hstale, tagOfUse_succ]
    · simp only [hixoCreateSocket, modifySock, Function.update_self]
      omega
    · obtain ⟨hpos, hle, htag⟩ := hregs r hr
      exact ⟨hpos, Nat.le_succ_of_le hle, htag⟩
  | @register env w n regs _ _ ih =>
    obtain ⟨hstale, hfd, hopen, hregs⟩ := ih
    obtain ⟨rslt, interest, hadd, -⟩ := epollAddEvent_snd env w i
    rw [hadd]
    refine ⟨hstale, hfd, hopen, fun r hr => ?_⟩
    rcases List.mem_cons.mp hr with rfl | hr
    · -- the new registration carries the tag of the present use
      exact ⟨hopen rfl, le_rfl, hstale⟩
    · exact hregs r hr
  | close _ hclose ih =>
    obtain ⟨hstale, hfd, hopen, hregs⟩ := ih
    obtain ⟨hfd', hstale'⟩ := hixoHandleClose_sock hclose
    exact ⟨hstale'.trans hstale, fun hn => hfd' ▸ hfd hn, by simp, hregs⟩
  | destroy _ ih =>
    obtain ⟨hstale, hfd, -, hregs⟩ := ih
    exact ⟨hstale, hfd, by simp, hregs⟩
  | other _ hfd' hstale' ih =>
    obtain ⟨hstale, hfd, hopen, hregs⟩ := ih
    exact ⟨hstale'.trans hstale, fun hn => hfd' ▸ hfd hn, hopen, hregs⟩

/-- An event with the tag of a registration passes exactly when an even number of creations
followed the registration. -/
theorem SlotHistory.passes_iff (h : SlotHistory i w₀ w n isOpen regs) {r : Recorded}
    (hr : r ∈ regs) {ev : EpollEvent} (hslot : ev.slot = i) (htag : ev.stale = r.tag) :
    Passes w ev ↔ (n - r.use) % 2 = 0 := by
  obtain ⟨hstale, hfd, -, hregs⟩ := h.invariant
  obtain ⟨hpos, hle, hrtag⟩ := hregs r hr
  rw [Passes, hslot, htag, hrtag, hstale, not_or, not_ne_iff,
    and_iff_right (hfd (lt_of_lt_of_le hpos hle)), tagOfUse_eq_iff _ hle]

/-- The filter lets the events of a registration pass only for its own use of the slot if and only
if the slot is still in this use, or was created an odd number of times since. -/
theorem passes_only_if_current_iff (h : SlotHistory i w₀ w n isOpen regs) {r : Recorded}
    (hr : r ∈ regs) {ev : EpollEvent} (hslot : ev.slot = i) (htag : ev.stale = r.tag) :
    (Passes w ev → isOpen = true ∧ r.use = n) ↔
      (isOpen = true ∧ r.use = n) ∨ (n - r.use) % 2 = 1 := by
  rw [h.passes_iff hr hslot htag]
  constructor
  · intro hcurrent
    rcases Nat.mod_two_eq_zero_or_one (n - r.use) with heven | hodd
    · exact Or.inl (hcurrent heven)
    · exact Or.inr hodd
  · rintro (hcurrent | hodd) heven
    · exact hcurrent
    · omega

end History

/-! ## A sample -/

/-- A worker whose slot 0 is handed out. -/
def slotStart : Worker where
  capacity := 1
  sock _ := { belong := true }

/-- A connection with descriptor 5 is created and registered in the slot. -/
def slotRegistered : Worker :=
  (epollAddEvent (ctlEnv (fun _ => false) fun _ => false)
    (slotStart.hixoCreateSocket 0 5 .cmnct none none none) 0).2

/-- Then it is closed. -/
def slotClosed : Worker :=
  match hixoHandleClose (ctlEnv (fun _ => false) fun _ => false)
    (slotRegistered.putConnection 0) 0 with
  | .ok w => w
  | .error _ => {}

theorem slotHistory_closed : SlotHistory 0 slotStart slotClosed 1 false [⟨1, true⟩] := by
  have hcreate : SlotHistory 0 slotStart
      (slotStart.hixoCreateSocket 0 5 .cmnct none none none) 1 true [] :=
    .create .start (by decide)
  have hregister : SlotHistory 0 slotStart slotRegistered 1 true [⟨1, true⟩] :=
    .register hcreate rfl
  have hconnect : SlotHistory 0 slotStart (slotRegistered.putConnection 0) 1 true [⟨1, true⟩] :=
    .other hregister rfl rfl
  have hclose : hixoHandleClose (ctlEnv (fun _ => false) fun _ => false)
      (slotRegistered.putConnection 0) 0 = .ok slotClosed :=
    rfl
  exact .close hconnect hclose

theorem passes_only_if_current_iff_sample :
    (Passes slotClosed ⟨0, true, hixoEventIn⟩ → false = true ∧ 1 = 1) ↔
      (false = true ∧ 1 = 1) ∨ (1 - 1) % 2 = 1 :=
  passes_only_if_current_iff slotHistory_closed List.mem_cons_self rfl rfl

/-- An event of the connection that was closed passes and posts the free slot. -/
theorem passes_closed : SlotHistory 0 slotStart slotClosed 1 false [⟨1, true⟩] ∧
    Passes slotClosed ⟨0, true, hixoEventIn⟩ ∧
      (postEvent slotClosed ⟨0, true, hixoEventIn⟩).links .postedEvents = some (.postedNode 0) := by
  have hpasses : Passes slotClosed ⟨0, true, hixoEventIn⟩ :=
    (slotHistory_closed.passes_iff List.mem_cons_self rfl rfl).mpr rfl
  exact ⟨slotHistory_closed, hpasses, postEvent_of_passes hpasses (by decide)⟩

end Hixo
