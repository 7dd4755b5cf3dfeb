import Hixo.Echo.EndToEnd
import Hixo.SimpleHttp.Defs

/-!
# The loops around `writev`

The two functions `test_syn_send` offer a header and a body to `writev` until it has taken as many
bytes as they have. The vectors are the same in every call; so after a call that takes only some of
the bytes the next one offers the first bytes again.

* `Env.ErrorFree`: what is assumed of `writev`;
* `sendLoop_errorFree`: the loop ends, and each call sends from the front;
* `SimpleHttp.sendLoop_eq`: the loop of the simple HTTP module sends the same;
* `sendsOnce_iff`: the bytes are sent exactly once if and only if the first call takes all.
-/

namespace Hixo.Echo

/-- When `writev` is offered `len` bytes, it takes some of them. -/
def Env.ErrorFree (env : Env) (len : ℕ) : Prop :=
  ∀ k, ∃ n, env.writev k len = .accepted n ∧ (0 < len → 1 ≤ n) ∧ n ≤ len

variable {env : Env} {out : List UInt8} {fuel sentSize : ℕ} {s : Conn}

/-- When less than everything was taken so far, the loop calls `writev` again, and counts what it
takes. -/
theorem sendLoop_accepted {n : ℕ} (hmore : sentSize < out.length)
    (hwritev : env.writev s.writes out.length = .accepted n) :
    sendLoop env out (fuel + 1) sentSize s = sendLoop env out fuel (sentSize + n)
      { s with writes := s.writes + 1, sent := s.sent ++ out.take n } := by
  rw [sendLoop, if_pos hmore, hwritev]

/-- When as much was taken as there is to send, the loop is over. -/
theorem sendLoop_done (hdone : out.length ≤ sentSize) :
    sendLoop env out (fuel + 1) sentSize s = .ok s := by
  rw [sendLoop, if_neg (Nat.not_lt.mpr hdone)]

/-- Without errors the loop comes to its end, and as long as something is missing it sends the
first byte once more. -/
theorem sendLoop_errorFree (henv : env.ErrorFree out.length) (s : Conn)
    (hfuel : out.length - sentSize < fuel) :
    ∃ s' pieces, sendLoop env out fuel sentSize s = .ok s' ∧ s'.sent = s.sent ++ pieces ∧
      (sentSize < out.length → out.take 1 <+: pieces) ∧ (out.length ≤ sentSize → pieces = []) := by
  induction fuel generalizing sentSize s with
  | zero => exact absurd hfuel (Nat.not_lt_zero _)
  | succ fuel ih =>
    -- each turn sends at least one byte, so the distance to the end is enough fuel
    by_cases hmore : sentSize < out.length
    · obtain ⟨n, hwritev, hpos, -⟩ := henv s.writes
      have hn : 1 ≤ n := hpos (by omega)
      obtain ⟨s', pieces, hrun, hsent, -, -⟩ :=
        ih { s with writes := s.writes + 1, sent := s.sent ++ out.take n }
          (show out.length - (sentSize + n) < fuel by omega)
      refine ⟨s', out.take n ++ pieces, (sendLoop_accepted hmore hwritev).trans hrun, ?_,
        fun _ => ?_, fun hdone => absurd hmore (Nat.not_lt.mpr hdone)⟩
      · rw [hsent, List.append_assoc]
      · refine List.IsPrefix.trans ?_ (List.prefix_append (out.take n) pieces)
        exact List.take_prefix_take_left hn
    · have hdone := Nat.not_lt.mp hmore
      exact ⟨s, [], sendLoop_done hdone, by rw [List.append_nil],
        fun hlt => absurd hlt hmore, fun _ => rfl⟩

/-- With a first call that takes everything, the bytes are sent once. -/
theorem sendLoop_all (hall : env.writev s.writes out.length = .accepted out.length) :
    ∃ s', sendLoop env out (out.length + 1) 0 s = .ok s' ∧ s'.sent = s.sent ++ out := by
  cases out with
  | nil => exact ⟨s, rfl, by rw [List.append_nil]⟩
  | cons b bytes =>
    refine ⟨_, (sendLoop_accepted (by simp) hall).trans (sendLoop_done (by simp)), ?_⟩
    simp

/-- With a first call that takes only some of the bytes, the first byte comes again behind them. -/
theorem sendLoop_some (henv : env.ErrorFree out.length) {n : ℕ}
    (hwritev : env.writev s.writes out.length = .accepted n) (hn : n < out.length) :
    ∃ s' rest, sendLoop env out (out.length + 1) 0 s = .ok s' ∧
      s'.sent = s.sent ++ (out.take n ++ (out.take 1 ++ rest)) := by
  obtain ⟨n', hwritev', hpos, -⟩ := henv s.writes
  obtain rfl : n = n' := WritevResult.accepted.inj (hwritev.symm.trans hwritev')
  have hpos : 1 ≤ n := hpos (by omega)
  obtain ⟨s', pieces, hrun, hsent, hmore, -⟩ := sendLoop_errorFree henv
    { s with writes := s.writes + 1, sent := s.sent ++ out.take n }
    (show out.length - (0 + n) < out.length by omega)
  obtain ⟨rest, rfl⟩ := hmore (by omega)
  refine ⟨s', rest, (sendLoop_accepted (by omega) hwritev).trans hrun, ?_⟩
  rw [hsent, List.append_assoc]

/-- Whatever the header and the body of these lengths are, the loop sends them exactly once. -/
def SendsOnce (env : Env) (s : Conn) (headLen bodyLen : ℕ) : Prop :=
  ∀ header body : List UInt8, header.length = headLen → body.length = bodyLen →
    ∃ s', sendLoop env (header ++ body) ((header ++ body).length + 1) 0 s = .ok s' ∧
      s'.sent = s.sent ++ (header ++ body)

/-- When no call of `writev` fails, everything is sent once if and only if the first call takes all
of it. -/
theorem sendsOnce_iff_accepted {headLen bodyLen : ℕ} (henv : env.ErrorFree (headLen + bodyLen)) :
    SendsOnce env s headLen bodyLen ↔
      env.writev s.writes (headLen + bodyLen) = .accepted (headLen + bodyLen) := by
  constructor
  · intro hsends
    obtain ⟨n, hwritev, hpos, hle⟩ := henv s.writes
    rcases Nat.eq_or_lt_of_le hle with rfl | hlt
    · exact hwritev
    -- bytes in which the first one does not come again
    let out : List UInt8 := 1 :: List.replicate (headLen + bodyLen - 1) 0
    have hlen : out.length = headLen + bodyLen := by
      simp only [out, List.length_cons, List.length_replicate]
      omega
    have hout : out.take headLen ++ out.drop headLen = out := List.take_append_drop headLen out
    obtain ⟨s', hrun, hsent⟩ := hsends (out.take headLen) (out.drop headLen)
      (by rw [List.length_take]; omega) (by rw [List.length_drop]; omega)
    rw [hout] at hrun hsent
    rw [← hlen] at henv hwritev hlt
    obtain ⟨s'', rest, hrun', hsent'⟩ := sendLoop_some henv hwritev hlt
    obtain rfl : s' = s'' := Except.ok.inj (hrun.symm.trans hrun')
    have hsame : out = out.take n ++ (out.take 1 ++ rest) :=
      List.append_cancel_left (hsent.symm.trans hsent')
    have hpos : 1 ≤ n := hpos (by omega)
    have hget : out[n]? = some 1 := by
      rw [hsame, List.getElem?_append_right (by rw [List.length_take]; omega), List.length_take,
        Nat.min_eq_left (by omega), Nat.sub_self]
      rfl
    obtain ⟨m, rfl⟩ := Nat.exists_eq_add_of_le' hpos
    have hzero : (List.replicate (headLen + bodyLen - 1) (0 : UInt8))[m]? = some 1 := hget
    rw [List.getElem?_replicate] at hzero
    split at hzero <;> simp at hzero
  · rintro hall header body rfl rfl
    rw [← List.length_append] at hall
    exact sendLoop_all hall

end Hixo.Echo

namespace Hixo.SimpleHttp

open Echo

variable {env : Env} {out : List UInt8} {fuel sentSize : ℕ} {s : Conn}

/-- Without errors the loop is left by its condition, and sends what the loop of the echo module
sends. -/
theorem sendLoop_eq (henv : env.ErrorFree out.length) :
    sendLoop env out fuel sentSize s = (Echo.sendLoop env out fuel sentSize s).map (true, ·) := by
  induction fuel generalizing sentSize s with
  | zero => rfl
  | succ fuel ih =>
    by_cases hmore : sentSize < out.length
    · obtain ⟨n, hwritev, -, -⟩ := henv s.writes
      rw [Echo.sendLoop_accepted hmore hwritev, ← ih, sendLoop, if_pos hmore, hwritev]
    · rw [Echo.sendLoop_done (Nat.not_lt.mp hmore), sendLoop, if_neg hmore]
      rfl

/-- Whatever the header and the body of these lengths are, the loop sends them exactly once. -/
def SendsOnce (env : Env) (s : Conn) (headLen bodyLen : ℕ) : Prop :=
  ∀ header body : List UInt8, header.length = headLen → body.length = bodyLen →
    ∃ s', sendLoop env (header ++ body) ((header ++ body).length + 1) 0 s = .ok (true, s') ∧
      s'.sent = s.sent ++ (header ++ body)

/-- The functions of both modules send everything once in the same cases. -/
theorem sendsOnce_iff_echo {headLen bodyLen : ℕ} (henv : env.ErrorFree (headLen + bodyLen)) :
    SendsOnce env s headLen bodyLen ↔ Echo.SendsOnce env s headLen bodyLen := by
  refine forall_congr' fun header => forall_congr' fun body => ?_
  refine imp_congr_right fun hheader => imp_congr_right fun hbody => exists_congr fun s' => ?_
  refine and_congr_left fun _ => ?_
  have hlen : (header ++ body).length = headLen + bodyLen := by
    rw [List.length_append, hheader, hbody]
  rw [sendLoop_eq (hlen ▸ henv)]
  cases Echo.sendLoop env (header ++ body) ((header ++ body).length + 1) 0 s <;>
    simp [Except.map]

/-- Without errors each of the two loops sends the header and the body exactly once if and only if
the first call of `writev` takes all of them. -/
theorem sendsOnce_iff (env : Env) (s : Conn) (headLen bodyLen : ℕ)
    (henv : env.ErrorFree (headLen + bodyLen)) :
    (Echo.SendsOnce env s headLen bodyLen ↔
        env.writev s.writes (headLen + bodyLen) = .accepted (headLen + bodyLen)) ∧
      (SendsOnce env s headLen bodyLen ↔
        env.writev s.writes (headLen + bodyLen) = .accepted (headLen + bodyLen)) :=
  ⟨sendsOnce_iff_accepted henv, (sendsOnce_iff_echo henv).trans (sendsOnce_iff_accepted henv)⟩

/-! ## A sample -/

/-- A `writev` that takes one byte at a time. -/
def slowEnv : Env where
  writev _ n := .accepted (min 1 n)

theorem errorFree_slowEnv (len : ℕ) : slowEnv.ErrorFree len :=
  fun _ => ⟨min 1 len, rfl, by omega, Nat.min_le_right ..⟩

theorem sendsOnce_iff_slow :
    (Echo.SendsOnce slowEnv connected 1 1 ↔
        slowEnv.writev connected.writes (1 + 1) = .accepted (1 + 1)) ∧
      (SendsOnce slowEnv connected 1 1 ↔
        slowEnv.writev connected.writes (1 + 1) = .accepted (1 + 1)) :=
  sendsOnce_iff slowEnv connected 1 1 (errorFree_slowEnv _)

/-- Of a header and a body of one byte each, the header is sent twice. -/
theorem not_sendsOnce_slow :
    ¬∀ env s headLen bodyLen, env.ErrorFree (headLen + bodyLen) →
      Echo.SendsOnce env s headLen bodyLen ∧ SendsOnce env s headLen bodyLen := by
  intro hall
  obtain ⟨hecho, -⟩ := hall slowEnv connected 1 1 (errorFree_slowEnv _)
  obtain ⟨s', hrun, hsent⟩ := hecho [72] [105] rfl rfl
  have htwice : Echo.sendLoop slowEnv [72, 105] 3 0 connected =
      .ok { connected with writes := 2, sent := [72, 72] } := rfl
  obtain rfl := Except.ok.inj (htwice.symm.trans hrun)
  exact absurd hsent (by decide)

end Hixo.SimpleHttp
