import Esp32c6Fw.UsbSerialJtag.Driver
import Mathlib.Data.List.Infix

namespace Esp32c6Fw.UsbSerialJtag

open Mmio Soc Stub

abbrev Trace := List (Moment State Addr Word)

def ep1Byte (m : Moment State Addr Word) : Option Byte :=
  match m.access with
  | some (.write addr v) => if addr = ep1Reg usbSerialJtagBase then some (v.setWidth 8) else none
  | _ => none

def ep1Bytes (t : Trace) : List Byte := t.filterMap ep1Byte

/-- What the host has and what waits in the FIFO are what was there at the
start and the bytes written since, and each of these found space. -/
structure Intact (start : List Byte) (t : Trace) (s : State) : Prop where
  stream : s.host ++ s.fifo = start ++ ep1Bytes t
  space : ∀ m ∈ t, (ep1Byte m).isSome → m.before.free

def Wrote (start pre : List Byte) (t : Trace) (s : State) : Prop :=
  Intact start t s ∧ ep1Bytes t = pre

variable {start pre : List Byte} {t : Trace} {s s' : State}

theorem ep1Bytes_snoc (t : Trace) (m : Moment State Addr Word) :
    ep1Bytes (t ++ [m]) = ep1Bytes t ++ (ep1Byte m).toList := filterMap_snoc ep1Byte t m

theorem Intact.snoc {m : Moment State Addr Word} (h : Intact start t s)
    (hs : s'.host ++ s'.fifo = (s.host ++ s.fifo) ++ (ep1Byte m).toList)
    (hm : (ep1Byte m).isSome → m.before.free) : Intact start (t ++ [m]) s' where
  stream := by rw [hs, h.stream, ep1Bytes_snoc, List.append_assoc]
  space := forall_mem_snoc h.space hm

theorem Wrote.silent {m : Moment State Addr Word} (h : Wrote start pre t s)
    (hm : ep1Byte m = none) (hs : s'.host ++ s'.fifo = s.host ++ s.fifo) :
    Wrote start pre (t ++ [m]) s' := by
  refine ⟨h.1.snoc (by rw [hs, hm]; simp) (by simp [hm]), ?_⟩
  rw [ep1Bytes_snoc, hm, h.2]
  simp

theorem load_ep1Conf (s : State) : device.load s (ep1ConfReg usbSerialJtagBase) = s.ep1Conf := by
  simp only [device, load, if_true]

theorem wrote_stable : Stable device (Wrote start pre) where
  env h s s' hw he := by
    obtain ⟨taken, hf, hh⟩ := he.drain
    exact hw.silent rfl (by rw [hh, hf, List.append_assoc])
  read h s addr hw := hw.silent rfl rfl

theorem wrote_free_stable : Stable device (fun t s ↦ Wrote start pre t s ∧ s.free) where
  env h s s' hw he := ⟨wrote_stable.env h s s' hw.1 he, he.free hw.2⟩
  read h s addr hw := ⟨wrote_stable.read h s addr hw.1, hw.2⟩

theorem Wrote.store_ep1 {v : Word} (h : Wrote start pre t s) (hf : s.free)
    (hs : store s (ep1Reg usbSerialJtagBase) v s') :
    Wrote start (pre ++ [v.setWidth 8])
      (t ++ [⟨s, some (.write (ep1Reg usbSerialJtagBase) v), s'⟩]) s' := by
  rw [store, if_pos rfl, if_pos hf] at hs
  have hb : ep1Byte ⟨s, some (.write (ep1Reg usbSerialJtagBase) v), s'⟩ = some (v.setWidth 8) := by
    simp only [ep1Byte, if_true]
  refine ⟨h.1.snoc ?_ (fun _ ↦ hf), ?_⟩
  · rw [hb, hs]
    simp
  · rw [ep1Bytes_snoc, hb, h.2]
    rfl

theorem Wrote.store_other {addr : Addr} {v : Word} (ha : addr ≠ ep1Reg usbSerialJtagBase)
    (h : Wrote start pre t s) (hs : store s addr v s') :
    Wrote start pre (t ++ [⟨s, some (.write addr v), s'⟩]) s' := by
  refine h.silent (if_neg ha) ?_
  rw [store, if_neg ha] at hs
  split at hs
  · rw [hs]
  · split at hs <;> rw [hs]

variable {I : Trace → State → Prop}

theorem flush_safe (hI : ∀ t s, Wrote start pre t s → I t s) (h : Wrote start pre t s) :
    Safe device I (fun _ t s ↦ Wrote start pre t s) usbSerialJtagFlush t s := by
  refine Safe.write wrote_stable hI (fun t s s' h hs ↦ ?_) h
  refine Safe.poll wrote_stable hI (fun t s h _ ↦ ?_) (h.store_other (by decide) hs)
  refine Safe.write wrote_stable hI (fun t s s' h hs ↦ ?_) h
  exact Safe.ret wrote_stable hI (fun _ _ h ↦ h) (h.store_other (by decide) hs)

theorem putc_safe {c : Byte} (hI : ∀ t s, Wrote start pre t s → I t s)
    (hI' : ∀ t s, Wrote start (pre ++ [c]) t s → I t s) (h : Wrote start pre t s) :
    Safe device I (fun _ t s ↦ Wrote start (pre ++ [c]) t s) (usbSerialJtagPutc c) t s := by
  refine Safe.poll wrote_stable hI (fun t s h hr ↦ ?_) h
  rw [load_ep1Conf] at hr
  have hf : s.free := of_decide_eq_true hr
  refine Safe.write wrote_free_stable (fun t s h ↦ hI t s h.1) (fun t s s' h hs ↦ ?_) ⟨h, hf⟩
  have hw := h.1.store_ep1 h.2 hs
  have hc : (c.setWidth 32).setWidth 8 = c := by simp
  rw [hc] at hw
  exact flush_safe hI' hw

theorem stubPutc_not_negative (c : Byte) : (c.setWidth 32).slt 0 = false := by
  have hc := c.isLt
  simp only [BitVec.slt, BitVec.toInt_eq_toNat_cond, BitVec.toNat_setWidth]
  simp
  omega

def bytesAt (p : ℕ → Byte) (i k : ℕ) : List Byte := (List.range' i k).map p

theorem bytesAt_succ (p : ℕ → Byte) (i k : ℕ) :
    bytesAt p i (k + 1) = p i :: bytesAt p (i + 1) k := by
  simp [bytesAt, List.range'_succ]

theorem writeLoop_safe {p : ℕ → Byte} {n left : ℕ} (hn : left ≤ n)
    (hI : ∀ pre', pre <+: pre' → pre' <+: pre ++ bytesAt p (n - left) left →
      ∀ t s, Wrote start pre' t s → I t s)
    (h : Wrote start pre t s) :
    Safe device I
      (fun r t s ↦ r = ⟨BitVec.ofNat 32 n, none⟩ ∧
        Wrote start (pre ++ bytesAt p (n - left) left) t s)
      (writeLoop stubPutc p n left) t s := by
  induction left generalizing pre t s with
  | zero =>
    refine Safe.ret wrote_stable (hI pre (List.prefix_refl _) (List.prefix_append _ _)) ?_ h
    exact fun t s h ↦ ⟨rfl, by simpa [bytesAt] using h⟩
  | succ left ih =>
    have hi : n - (left + 1) + 1 = n - left := by omega
    have hb : pre ++ bytesAt p (n - (left + 1)) (left + 1) =
        (pre ++ [p (n - (left + 1))]) ++ bytesAt p (n - left) left := by
      rw [bytesAt_succ, hi]
      simp
    rw [hb] at hI ⊢
    have hput : Safe device I
        (fun r t s ↦ r.slt 0 = false ∧ Wrote start (pre ++ [p (n - (left + 1))]) t s)
        (stubPutc (p (n - (left + 1)))) t s := by
      refine (putc_safe (hI _ (List.prefix_refl _) ?_) (hI _ (List.prefix_append _ _)
        (List.prefix_append _ _)) h).bind (fun _ t s h ↦ ?_)
      · rw [List.append_assoc]
        exact List.prefix_append _ _
      · exact Safe.ret wrote_stable (hI _ (List.prefix_append _ _) (List.prefix_append _ _))
          (fun _ _ h ↦ ⟨stubPutc_not_negative _, h⟩) h
    refine hput.bind (fun r t s h ↦ ?_)
    simp only [h.1, Bool.false_eq_true, if_false]
    exact ih (by omega) (fun pre' h₁ h₂ ↦ hI pre' ((List.prefix_append _ _).trans h₁) h₂) h.2

structure WriteCall where
  fd : BitVec 32
  buf : ℕ → Byte
  n : BitVec 32

namespace WriteCall

def prog (c : WriteCall) : Driver IoResult := write stubPutc c.fd c.buf c.n

def bytes (c : WriteCall) : List Byte := bytesAt c.buf 0 c.n.toNat

end WriteCall

theorem write_safe {c : WriteCall} (hfd : c.fd = 1 ∨ c.fd = 2)
    (hI : ∀ pre', pre <+: pre' → pre' <+: pre ++ c.bytes → ∀ t s, Wrote start pre' t s → I t s)
    (h : Wrote start pre t s) :
    Safe device I (fun r t s ↦ r = ⟨c.n, none⟩ ∧ Wrote start (pre ++ c.bytes) t s) c.prog t s := by
  have hfd' : ¬ (c.fd ≠ 1 ∧ c.fd ≠ 2) := by tauto
  have hb : bytesAt c.buf (c.n.toNat - c.n.toNat) c.n.toNat = c.bytes := by
    rw [Nat.sub_self, WriteCall.bytes]
  rw [← hb] at hI ⊢
  have hw := writeLoop_safe le_rfl hI h
  rw [WriteCall.prog, write, if_neg hfd']
  rwa [BitVec.ofNat_toNat, BitVec.setWidth_eq] at hw

/-- Console output loses nothing. In every session of `write` calls on stdout
and stderr, at every moment: the calls that have returned returned their `n`,
with all their bytes written; the host stream and the FIFO are exactly the
bytes written to EP1 so far (after what was there at the start); these are a
prefix of the buffers in order, and each was written with space in the FIFO. -/
theorem console_intact {calls : List WriteCall} (hfd : ∀ c ∈ calls, c.fd = 1 ∨ c.fd = 2)
    {s s' : State} {t : Trace} {as : List IoResult} {qs : List (Driver IoResult)}
    (hs : Session device (calls.map WriteCall.prog) s t as qs s') :
    (∃ done rest, calls = done ++ rest ∧ qs.length = rest.length ∧
      as = done.map (fun c ↦ ⟨c.n, none⟩) ∧ done.flatMap WriteCall.bytes <+: ep1Bytes t) ∧
    s'.host ++ s'.fifo = (s.host ++ s.fifo) ++ ep1Bytes t ∧
    ep1Bytes t <+: calls.flatMap WriteCall.bytes ∧
    ∀ m ∈ t, (ep1Byte m).isSome → m.before.free := by
  let J (done : List WriteCall) := Wrote (s.host ++ s.fifo) (done.flatMap WriteCall.bytes)
  let I (done : List WriteCall) (t : Trace) (s' : State) : Prop :=
    ∃ pre, Wrote (s.host ++ s.fifo) pre t s' ∧ done.flatMap WriteCall.bytes <+: pre ∧
      pre <+: calls.flatMap WriteCall.bytes
  have call : ∀ done c rest t s, calls = done ++ c :: rest → J done t s →
      Safe device (I done) (fun a t s ↦ a = ⟨c.n, none⟩ ∧ J (done ++ [c]) t s) c.prog t s := by
    intro done c rest t s hcs hJ
    have hb : (done ++ [c]).flatMap WriteCall.bytes =
        done.flatMap WriteCall.bytes ++ c.bytes := by simp
    have hpre : done.flatMap WriteCall.bytes ++ c.bytes <+: calls.flatMap WriteCall.bytes := by
      simp only [hcs, List.flatMap_append, List.flatMap_cons, ← List.append_assoc]
      exact List.prefix_append _ _
    have hw := write_safe (I := I done) (hfd c (by rw [hcs]; simp))
      (fun pre' h₁ h₂ t s h ↦ ⟨pre', h, h₁, h₂.trans hpre⟩) hJ
    rwa [← hb] at hw
  have h₀ : J [] [] s := ⟨⟨by simp [ep1Bytes], by simp⟩, rfl⟩
  obtain ⟨done, rest, h₁, h₂, h₃, pre, ⟨hi, hp⟩, h₄, h₅⟩ :=
    session_safe (I := I) (J := J) wrote_stable
      (fun t s h ↦ ⟨_, h, List.prefix_refl _, List.prefix_refl _⟩) call h₀ hs
  subst hp
  exact ⟨⟨done, rest, h₁, h₃, h₂, h₄⟩, hi.stream, h₅, hi.space⟩

/-- Space in the FIFO, and `SERIAL_IN_EMPTY` set as it is out of reset. -/
def withSpace (fifo host : List Byte) : State := ⟨2, 8, fifo, host⟩

def resetState : State := withSpace [] []

/-- The accesses of `usb_serial_jtag_putc` when it does not have to wait. -/
def putTrace (fifo host : List Byte) (c : Byte) : Trace :=
  let s := withSpace fifo host
  let s' := withSpace (fifo ++ [c]) host
  [⟨s, some (.read (ep1ConfReg usbSerialJtagBase) 2), s⟩,
    ⟨s, some (.write (ep1Reg usbSerialJtagBase) (c.setWidth 32)), s'⟩,
    ⟨s', some (.write (ep1ConfReg usbSerialJtagBase) ep1ConfWrDoneMask), s'⟩,
    ⟨s', some (.read (intRawReg usbSerialJtagBase) 8), s'⟩,
    ⟨s', some (.write (intClrReg usbSerialJtagBase) intClrJtagInFlushIntClrMask), s'⟩]

section Witness

variable {fifo host : List Byte} {c : Byte}

theorem store_withSpace : store (withSpace fifo host) (ep1Reg usbSerialJtagBase) (c.setWidth 32)
    (withSpace (fifo ++ [c]) host) := by
  have hf : (withSpace fifo host).free := (by decide : inEpDataFree 2 = 1)
  have hc : (c.setWidth 32).setWidth 8 = c := by simp
  rw [store, if_pos rfl, if_pos hf, hc]
  rfl

theorem wrDone_withSpace : store (withSpace fifo host) (ep1ConfReg usbSerialJtagBase)
    ep1ConfWrDoneMask (withSpace fifo host) := by
  rw [store, if_neg (by decide), if_pos ⟨rfl, by decide⟩]

theorem intClr_withSpace : store (withSpace fifo host) (intClrReg usbSerialJtagBase)
    intClrJtagInFlushIntClrMask (withSpace fifo host) := by
  have hr : (8 : Word) = 8 &&& ~~~intClrJtagInFlushIntClrMask := by decide
  rw [store, if_neg (by decide), if_neg (by decide), if_pos rfl]
  exact congrArg (State.mk 2 · fifo host) hr

theorem drain_withSpace : Env (withSpace fifo host) (withSpace [] (host ++ fifo)) :=
  ⟨⟨fifo, (List.append_nil fifo).symm, rfl⟩, fun h ↦ h⟩

end Witness

def traceAB : Trace :=
  putTrace [] [] 0x41 ++ ⟨withSpace [0x41] [], none, withSpace [] [0x41]⟩ :: putTrace [] [0x41] 0x42

def sentAB : State := withSpace [0x42] [0x41]

def putAB : WriteCall := ⟨1, fun i ↦ if i = 0 then 0x41 else 0x42, 2⟩

theorem session_AB : Session device [putAB.prog] resetState traceAB [⟨2, none⟩] [] sentAB := by
  refine .step (.ready (by decide)) (.step (.write store_withSpace) ?_)
  refine .step (.write wrDone_withSpace) (.step (.ready (by decide)) ?_)
  refine .step (.write intClr_withSpace) (.step (.env drain_withSpace) ?_)
  refine .step (.ready (by decide)) (.step (.write store_withSpace) ?_)
  refine .step (.write wrDone_withSpace) (.step (.ready (by decide)) ?_)
  exact .step (.write intClr_withSpace) (.returned (.nil _ _))

theorem console_intact_AB :
    Session device ([putAB].map WriteCall.prog) resetState traceAB [⟨2, none⟩] [] sentAB ∧
    sentAB.host ++ sentAB.fifo = (resetState.host ++ resetState.fifo) ++ ep1Bytes traceAB ∧
    ep1Bytes traceAB <+: [putAB].flatMap WriteCall.bytes ∧
    ∀ m ∈ traceAB, (ep1Byte m).isSome → m.before.free :=
  ⟨session_AB, (@console_intact [putAB] (by simp [putAB]) _ _ _ _ _ session_AB).2⟩

end Esp32c6Fw.UsbSerialJtag
