import Esp32c6Fw.Espctl.Orderly

namespace Esp32c6Fw.Espctl

open Script

/-- The frame stops inside an escape: it ends in an odd number of escape bytes. -/
def Dangling (f : Bytes) : Prop := (f.reverse.takeWhile (· = slipEsc)).length % 2 = 1

instance (f : Bytes) : Decidable (Dangling f) := inferInstanceAs (Decidable (_ = 1))

inductive Reply
  | silent
  | cut
  | frame (f : Bytes)
  deriving DecidableEq

def closeFrame (f : Bytes) : List (Option UInt8) → Option (Reply × List (Option UInt8))
  | [] => none
  | none :: rs => some (.cut, rs)
  | some b :: rs => if b = slipEnd then some (.frame f, rs) else closeFrame (f ++ [b]) rs

/-- The next frame of the line, or the silence before or inside it, and what follows. -/
def nextReply : List (Option UInt8) → Option (Reply × List (Option UInt8))
  | [] => none
  | none :: rs => some (.silent, rs)
  | some b :: rs => if b = slipEnd then nextReply rs else closeFrame [b] rs

def accept (cmd : ℕ) (f : Bytes) : Except Error Bytes := do
  let packet ← slipDecode f
  checkResponse packet cmd
  return packet

def Reply.answer (cmd : ℕ) : Reply → Outcome Error (Option Bytes)
  | silent => .ok none
  | cut => .raise (.serialTimeout s!"Failed to get end of packet: cmd({cmd})")
  | frame f =>
    match accept cmd f with
    | .ok packet => .ok (some packet)
    | .error e => .raise e

variable {rs l : List (Option UInt8)} {f : Bytes} {cmd : ℕ} {r : Reply}

theorem dangling_cons {b : UInt8} (hb : b ≠ slipEsc) (f : Bytes) :
    Dangling (b :: f) ↔ Dangling f := by
  simp only [Dangling, List.reverse_cons, List.takeWhile_append]
  split
  next h =>
    have hw : [b].takeWhile (· = slipEsc) = [] := by
      simp [hb]
    rw [hw, List.append_nil, h]
  · rfl

theorem dangling_esc (c : UInt8) (f : Bytes) : Dangling (slipEsc :: c :: f) ↔ Dangling f := by
  simp only [Dangling, List.reverse_cons, List.append_assoc, List.takeWhile_append]
  split
  next h =>
    rw [List.length_append, h]
    by_cases hc : c = slipEsc
    · simp [hc]
    · simp [hc]
  · rfl

theorem map_eq_error {x : Except Error Bytes} {g : Bytes → Bytes} {e : Error} :
    x.map g = .error e ↔ x = .error e := by
  cases x <;> simp [Except.map]

theorem slipDecode_error_iff {e : Error} :
    slipDecode f = .error e ↔ e = .indexError ∧ Dangling f := by
  induction f using slipDecode.induct with
  | case1 =>
    simp only [slipDecode, reduceCtorEq, false_iff, not_and]
    exact fun _ ↦ by decide
  | case2 =>
    have hd : Dangling [slipEsc] := by decide
    simp only [slipDecode, if_true, Except.error.injEq, hd, and_true]
    exact eq_comm
  | case3 data ih =>
    rw [dangling_esc, ← ih, slipDecode, if_pos rfl]
    simp only [if_true]
    exact map_eq_error
  | case4 data hne ih =>
    rw [dangling_esc, ← ih, slipDecode, if_pos rfl]
    simp only [if_neg hne, if_true]
    exact map_eq_error
  | case5 c data hne hne' ih =>
    rw [dangling_esc, ← ih, slipDecode, if_pos rfl]
    simp only [if_neg hne, if_neg hne']
  | case6 b data hb ih =>
    rw [dangling_cons hb, ← ih, slipDecode_cons hb]
    exact map_eq_error

theorem checkResponse_error {p : Bytes} {e : Error} (h : checkResponse p cmd = .error e) :
    ∃ msg, e = .valueError msg := by
  unfold checkResponse at h
  split at h
  · cases h
    exact ⟨_, rfl⟩
  split at h
  · cases h
    exact ⟨_, rfl⟩
  split at h
  · cases h
    exact ⟨_, rfl⟩
  simp only at h
  split at h
  · cases h
    exact ⟨_, rfl⟩
  · cases h

theorem accept_of_error {e : Error} (h : slipDecode f = .error e) : accept cmd f = .error e := by
  rw [accept, h]
  rfl

theorem accept_of_ok {p : Bytes} (h : slipDecode f = .ok p) :
    accept cmd f = (checkResponse p cmd).map fun _ ↦ p := by
  rw [accept, h]
  show (checkResponse p cmd >>= fun _ ↦ .ok p) = _
  cases checkResponse p cmd <;> rfl

theorem accept_dangling (h : Dangling f) : accept cmd f = .error .indexError :=
  accept_of_error (slipDecode_error_iff.mpr ⟨rfl, h⟩)

theorem accept_error {e : Error} (h : ¬ Dangling f) (he : accept cmd f = .error e) :
    ∃ msg, e = .valueError msg := by
  cases hd : slipDecode f with
  | error e' => exact absurd (slipDecode_error_iff.mp hd).2 h
  | ok p =>
    rw [accept_of_ok hd] at he
    cases hc : checkResponse p cmd with
    | error e' =>
      rw [hc] at he
      cases he
      exact checkResponse_error hc
    | ok _ =>
      rw [hc] at he
      cases he

theorem accept_ok {p : Bytes} (h : accept cmd f = .ok p) : checkResponse p cmd = .ok () := by
  cases hd : slipDecode f with
  | error e =>
    rw [accept_of_error hd] at h
    cases h
  | ok p' =>
    rw [accept_of_ok hd] at h
    cases hc : checkResponse p' cmd with
    | error e =>
      rw [hc] at h
      cases h
    | ok _ =>
      rw [hc] at h
      cases h
      exact hc

theorem collect_run (cmd : ℕ) (f : Bytes) (rs : List (Option UInt8)) :
    (collect cmd f).run rs =
      match closeFrame f rs with
      | none => ⟨.blocked, [], []⟩
      | some (.frame g, l) => ⟨.ok g, l, []⟩
      | some (_, l) =>
        ⟨.raise (.serialTimeout s!"Failed to get end of packet: cmd({cmd})"), l, []⟩ := by
  induction rs generalizing f with
  | nil => rfl
  | cons r rs ih =>
    cases r with
    | none => rfl
    | some b =>
      by_cases hb : b = slipEnd
      · subst hb
        rfl
      · rw [collect_byte hb, ih, closeFrame, if_neg hb]

theorem closeFrame_ne_silent : closeFrame f rs ≠ some (.silent, l) := by
  induction rs generalizing f with
  | nil => simp [closeFrame]
  | cons r rs ih =>
    cases r with
    | none => simp [closeFrame]
    | some b =>
      rw [closeFrame]
      split
      · simp
      · exact ih

theorem recvResponse_end : (recvResponse cmd).run (some slipEnd :: rs) =
    (recvResponse cmd).run rs := by
  simp only [recvResponse, run_bind, recvFrame_end]

theorem run_respond (cmd : ℕ) (f : Bytes) (l : List (Option UInt8)) :
    ((respond cmd (some f)).run l).outcome = (Reply.frame f).answer cmd ∧
      ((respond cmd (some f)).run l).rest = l := by
  cases hd : slipDecode f with
  | error e =>
    simp only [respond, Reply.answer, accept_of_error hd, hd]
    exact ⟨rfl, rfl⟩
  | ok p =>
    simp only [respond, Reply.answer, accept_of_ok hd, hd, run_bind, run_ofExcept_ok,
      Result.ok_bind]
    cases checkResponse p cmd <;> exact ⟨rfl, rfl⟩

theorem recvResponse_byte {b : UInt8} (hb : b ≠ slipEnd) : (recvResponse cmd).run (some b :: rs) =
    ((collect cmd [b]).run rs).bind fun resp ↦ (respond cmd (some resp)).run := by
  rw [recvResponse_eq, run_bind, recvFrame_byte hb, Result.bind_assoc]
  rfl

theorem recvResponse_run (cmd : ℕ) (rs : List (Option UInt8)) :
    (nextReply rs = none → ((recvResponse cmd).run rs).outcome = .blocked) ∧
    ∀ r l, nextReply rs = some (r, l) →
      ((recvResponse cmd).run rs).outcome = r.answer cmd ∧
        ((recvResponse cmd).run rs).rest = l := by
  induction rs with
  | nil => exact ⟨fun _ ↦ rfl, fun r l h ↦ by cases h⟩
  | cons r rs ih =>
    cases r with
    | none =>
      refine ⟨fun h ↦ (by cases h), fun r l h ↦ ?_⟩
      cases h
      exact ⟨rfl, rfl⟩
    | some b =>
      rw [nextReply]
      by_cases hb : b = slipEnd
      · rw [if_pos hb, hb, recvResponse_end]
        exact ih
      · rw [if_neg hb, recvResponse_byte hb, collect_run]
        refine ⟨fun h ↦ (by rw [h]; rfl), fun r l h ↦ ?_⟩
        rw [h]
        cases r with
        | silent => exact absurd h closeFrame_ne_silent
        | cut => exact ⟨rfl, rfl⟩
        | frame f => exact run_respond cmd f l

end Esp32c6Fw.Espctl
