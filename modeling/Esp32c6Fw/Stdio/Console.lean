import Esp32c6Fw.Stdio.Conforming
import Esp32c6Fw.UsbSerialJtag.Console

namespace Esp32c6Fw.Stdio

open Formatted Mmio Output Soc UsbSerialJtag

/-- `printf`, whose `stdout` is the console. -/
def printf (vfprintfFloat : Spec → Byte → BitVec 64 → Output Byte ℤ) (fmt : CString)
    (ap : VaList) : Driver (Option Word × Byte) :=
  vfprintf vfprintfFloat stubPutc swr fmt ap

variable {vfprintfFloat : Spec → Byte → BitVec 64 → Output Byte ℤ} {start pre : List Byte}
  {I : Trace → State → Prop} {t : Trace} {s s' : State} {α : Type}

/-- A character that is put to the console is not refused. -/
theorem refuses_safe {c : Byte} (hI : ∀ t s, Wrote start pre t s → I t s)
    (hI' : ∀ t s, Wrote start (pre ++ [c]) t s → I t s) (h : Wrote start pre t s) :
    Safe device I (fun r t s ↦ r = false ∧ Wrote start (pre ++ [c]) t s) (refuses stubPutc c)
      t s := by
  have hput : Safe device I
      (fun r t s ↦ r = c.setWidth 32 ∧ Wrote start (pre ++ [c]) t s) (stubPutc c) t s := by
    refine (putc_safe hI hI' h).bind fun _ t s h ↦ ?_
    exact Safe.ret wrote_stable hI' (fun _ _ h ↦ ⟨rfl, h⟩) h
  refine hput.bind fun r t s h ↦ ?_
  obtain ⟨rfl, h⟩ := h
  exact Safe.ret wrote_stable hI' (fun _ _ h ↦ ⟨stubPutc_not_negative c, h⟩) h

theorem run_safe (p : Output Byte α) (n : ℕ)
    (hI : ∀ pre', pre <+: pre' → pre' <+: pre ++ p.chars → ∀ t s, Wrote start pre' t s → I t s)
    (h : Wrote start pre t s) :
    Safe device I
      (fun r t s ↦ r = (p.ending, n + p.chars.length) ∧ Wrote start (pre ++ p.chars) t s)
      (p.run (refuses stubPutc) n) t s := by
  induction p generalizing pre n t s with
  | ret a =>
    refine Safe.ret wrote_stable (hI pre (List.prefix_refl _) (List.prefix_append _ _)) ?_ h
    exact fun t s h ↦ ⟨rfl, (List.append_nil pre).symm ▸ h⟩
  | undefined =>
    refine Safe.ret wrote_stable (hI pre (List.prefix_refl _) (List.prefix_append _ _)) ?_ h
    exact fun t s h ↦ ⟨rfl, (List.append_nil pre).symm ▸ h⟩
  | put c rest ih =>
    have hchars : pre ++ (Output.put c rest).chars = (pre ++ [c]) ++ rest.chars :=
      List.append_cons ..
    rw [hchars] at hI ⊢
    have hput := refuses_safe
      (hI pre (List.prefix_refl _) (List.append_assoc .. ▸ List.prefix_append _ _))
      (hI (pre ++ [c]) (List.prefix_append _ _) (List.prefix_append _ _)) h
    refine hput.bind fun r t s h ↦ ?_
    obtain ⟨rfl, h⟩ := h
    have hrest := ih (n + 1) (fun pre' h₁ h₂ ↦ hI pre' ((List.prefix_append _ _).trans h₁) h₂) h
    have hn : n + 1 + rest.chars.length = n + (Output.put c rest).chars.length := by
      rw [chars, List.length_cons]
      omega
    rw [hn] at hrest
    exact hrest

theorem printf_safe (c : PrintfCall)
    (hI : ∀ pre', pre <+: pre' → pre' <+: pre ++ c.out → ∀ t s, Wrote start pre' t s → I t s)
    (h : Wrote start pre t s) :
    Safe device I
      (fun r t s ↦ r = (some (BitVec.ofNat 32 c.out.length), swr) ∧
        Wrote start (pre ++ c.out) t s)
      (printf vfprintfFloat c.fmt c.args) t s := by
  obtain ⟨hchars, -⟩ := id (@PrintfCall.yields vfprintfFloat c)
  have hend := (@PrintfCall.yields vfprintfFloat c).ending_eq
  have hw : ¬ swr &&& swr = 0 := by decide
  have hout := c.out_lt
  rw [printf, vfprintf, if_neg hw]
  rw [← hchars] at hI hout ⊢
  refine (run_safe _ 0 hI h).bind fun r t s h ↦ ?_
  obtain ⟨rfl, h⟩ := h
  refine Safe.ret wrote_stable (hI _ (List.prefix_append _ _) (List.prefix_refl _)) ?_ h
  refine fun t s h ↦ ⟨?_, h⟩
  rw [hend, Nat.zero_add, vfprintfResult, if_pos hout]

/-- `printf` to the console loses nothing and mixes up nothing. In every session of calls, at every
moment and whatever the host does in between: the calls that have returned returned the numbers
of their characters, with all of these written; the host has and the FIFO holds exactly what has
been written (after what was there at the start); that is the start of what the calls print
by the standard, one after the other, and every byte of it has found space in the FIFO. -/
theorem printf_intact {calls : List PrintfCall} {as : List (Option Word × Byte)}
    {qs : List (Driver (Option Word × Byte))}
    (hs : Session device (calls.map fun c ↦ printf vfprintfFloat c.fmt c.args) s t as qs s') :
    (∃ done rest, calls = done ++ rest ∧ qs.length = rest.length ∧
      as = done.map (fun c ↦ (some (BitVec.ofNat 32 c.out.length), swr)) ∧
      done.flatMap PrintfCall.out <+: ep1Bytes t) ∧
    s'.host ++ s'.fifo = (s.host ++ s.fifo) ++ ep1Bytes t ∧
    ep1Bytes t <+: calls.flatMap PrintfCall.out ∧
    ∀ m ∈ t, (ep1Byte m).isSome → m.before.free := by
  let J (done : List PrintfCall) := Wrote (s.host ++ s.fifo) (done.flatMap PrintfCall.out)
  let I (done : List PrintfCall) (t : Trace) (s' : State) : Prop :=
    ∃ pre, Wrote (s.host ++ s.fifo) pre t s' ∧ done.flatMap PrintfCall.out <+: pre ∧
      pre <+: calls.flatMap PrintfCall.out
  have call : ∀ done c rest t s, calls = done ++ c :: rest → J done t s →
      Safe device (I done)
        (fun a t s ↦ a = (some (BitVec.ofNat 32 c.out.length), swr) ∧ J (done ++ [c]) t s)
        (printf vfprintfFloat c.fmt c.args) t s := by
    intro done c rest t s hcs hJ
    have hb : (done ++ [c]).flatMap PrintfCall.out = done.flatMap PrintfCall.out ++ c.out := by
      simp
    have hpre : done.flatMap PrintfCall.out ++ c.out <+: calls.flatMap PrintfCall.out := by
      rw [hcs, List.flatMap_append, List.flatMap_cons, ← List.append_assoc]
      exact List.prefix_append _ _
    have hw := @printf_safe vfprintfFloat _ _ (I done) _ _ c
      (fun pre' h₁ h₂ t s h ↦ ⟨pre', h, h₁, h₂.trans hpre⟩) hJ
    rwa [← hb] at hw
  have h₀ : J [] [] s := ⟨⟨(List.append_nil _).symm, fun m hm ↦ by cases hm⟩, rfl⟩
  obtain ⟨done, rest, h₁, h₂, h₃, pre, ⟨hi, hp⟩, h₄, h₅⟩ :=
    session_safe (I := I) (J := J) wrote_stable
      (fun t s h ↦ ⟨_, h, List.prefix_refl _, List.prefix_refl _⟩) call h₀ hs
  subst hp
  exact ⟨⟨done, rest, h₁, h₃, h₂, h₄⟩, hi.stream, h₅, hi.space⟩

/-- `printf("A%c", 0x42)` -/
def callAB : PrintfCall where
  pieces := [.literal 0x41 (by decide), .directive (.bare [] .char)]
  args := [.word 0x42]
  out := [0x41, 0x42]
  render_eq := by decide
  int_precision := rfl
  keeps_zeros := rfl
  out_lt := by decide

theorem session_printf_AB :
    Session device ([callAB].map fun c ↦ printf (fun _ _ _ ↦ .undefined) c.fmt c.args)
      resetState traceAB [(some 2, swr)] [] sentAB := by
  refine .step (.ready (by decide)) (.step (.write store_withSpace) ?_)
  refine .step (.write wrDone_withSpace) (.step (.ready (by decide)) ?_)
  refine .step (.write intClr_withSpace) (.step (.env drain_withSpace) ?_)
  refine .step (.ready (by decide)) (.step (.write store_withSpace) ?_)
  refine .step (.write wrDone_withSpace) (.step (.ready (by decide)) ?_)
  exact .step (.write intClr_withSpace) (.returned (.nil _ _))

theorem printf_intact_AB :
    Session device ([callAB].map fun c ↦ printf (fun _ _ _ ↦ .undefined) c.fmt c.args)
      resetState traceAB [(some 2, swr)] [] sentAB ∧
    sentAB.host ++ sentAB.fifo = (resetState.host ++ resetState.fifo) ++ ep1Bytes traceAB ∧
    ep1Bytes traceAB <+: [callAB].flatMap PrintfCall.out ∧
    ∀ m ∈ traceAB, (ep1Byte m).isSome → m.before.free :=
  ⟨session_printf_AB, (@printf_intact (fun _ _ _ ↦ .undefined) _ _ _ _ _ _ session_printf_AB).2⟩

end Esp32c6Fw.Stdio
