import Esp32c6Fw.Lib.Packing
import Esp32c6Fw.UsbSerialJtag.Console

namespace Esp32c6Fw.UsbSerialJtag

open Mmio Soc

inductive Call
  | putc (c : Byte)
  | flush

def Call.prog : Call → Driver Unit
  | .putc c => usbSerialJtagPutc c
  | .flush => usbSerialJtagFlush

def FlushCall (call : Trace) : Prop :=
  ∃ s s', Run latchedDevice usbSerialJtagFlush s call (.ret ()) s'

def IsWrDone (m : Moment State Addr Word) : Prop :=
  m.access = some (.write (ep1ConfReg usbSerialJtagBase) ep1ConfWrDoneMask)

def Emptied (call : Trace) : Prop :=
  ∃ pre m post, call = pre ++ m :: post ∧ IsWrDone m ∧ ∃ m' ∈ m :: post, m'.after.fifo = []

def cleared : Trace → Word
  | [] => 0
  | m :: t => (m.before.intRaw &&& ~~~m.after.intRaw) ||| cleared t

structure Flushed (call : Trace) : Prop where
  emptied : Emptied call
  acknowledged : cleared call = intRawSerialInEmptyIntRawMask

def FlushWrites (addr : Addr) (v : Word) : Prop :=
  addr = intClrReg usbSerialJtagBase → v = intClrJtagInFlushIntClrMask

theorem flush_onlyWrites : OnlyWrites FlushWrites usbSerialJtagFlush := by
  refine ⟨fun h ↦ absurd h (by decide), fun _ ↦ ⟨fun _ ↦ rfl, trivial⟩⟩

theorem call_onlyWrites (c : Call) : OnlyWrites FlushWrites c.prog := by
  cases c with
  | putc c => exact fun _ ↦ ⟨fun h ↦ absurd h (by decide), flush_onlyWrites⟩
  | flush => exact flush_onlyWrites

theorem serialInEmptyIntRaw_ne_zero (w : Word) :
    serialInEmptyIntRaw w ≠ 0 ↔ w.getLsbD 3 = true := Packing.bit_ne_zero w 3

theorem moves_keep {m : Moment State Addr Word} (h : Moves latchedDevice FlushWrites m) :
    (m.before.intRaw &&& ~~~m.after.intRaw).getLsbD 3 = false := by
  obtain ⟨s, access, s'⟩ := m
  match access, h with
  | none, h =>
    have hs : s.intRaw &&& ~~~s'.intRaw = 0 := LatchedEnv.sticky h
    rw [hs]
    rfl
  | some (.read _ _), h =>
    cases h
    simp
  | some (.write addr v), ⟨hv, h⟩ =>
    replace h : store s addr v s' := h
    unfold store at h
    split at h
    · rw [h]
      simp
    · split at h
      · rw [h]
        simp
      · split at h
        · rename_i ha
          rw [h, hv ha]
          simp [intClrJtagInFlushIntClrMask]
        · rw [h]
          simp

theorem cleared_keeps {t : Trace} (h : ∀ m ∈ t, Moves latchedDevice FlushWrites m) :
    (cleared t).getLsbD 3 = false := by
  induction t with
  | nil => rfl
  | cons m t ih =>
    simp only [List.forall_mem_cons] at h
    rw [cleared, BitVec.getLsbD_or, moves_keep h.1, ih h.2]
    rfl

theorem FlushCall.not_flushed {call : Trace} (h : FlushCall call) : ¬ Flushed call := by
  obtain ⟨s, s', hr⟩ := h
  intro hf
  have hk := cleared_keeps (run_moves flush_onlyWrites hr)
  rw [hf.acknowledged] at hk
  exact absurd hk (by decide)

/-- After the WR_DONE write of a call: has the flag come on since, the FIFO has been empty. -/
def Waiting (P : Trace → State → Prop) (t : Trace) (s : State) : Prop :=
  ∃ pre m post, t = pre ++ m :: post ∧ IsWrDone m ∧
    (serialInEmptyIntRaw m.before.intRaw = 0 →
      P t s ∨ ∃ m' ∈ m :: post, m'.after.fifo = [])

def Quiet (_ : Trace) (s : State) : Prop := serialInEmptyIntRaw s.intRaw = 0

theorem Waiting.snoc {P P' : Trace → State → Prop} {t : Trace} {s s' : State}
    {m : Moment State Addr Word} (h : Waiting P t s)
    (hP : P t s → P' (t ++ [m]) s' ∨ m.after.fifo = []) : Waiting P' (t ++ [m]) s' := by
  obtain ⟨pre, w, post, rfl, hw, h⟩ := h
  refine ⟨pre, w, post ++ [m], by simp, hw, fun h₀ ↦ ?_⟩
  rcases h h₀ with h | ⟨m', hm', he⟩
  · rcases hP h with h | h
    · exact .inl h
    · exact .inr ⟨m, by simp, h⟩
  · rw [← List.cons_append]
    exact .inr ⟨m', List.mem_append_left _ hm', he⟩

theorem waiting_quiet_stable : Stable latchedDevice (Waiting Quiet) where
  env _ _ s' hw he := by
    refine hw.snoc (fun hq ↦ ?_)
    by_cases hq' : serialInEmptyIntRaw s'.intRaw = 0
    · exact .inl hq'
    · exact .inr (LatchedEnv.empty he hq hq')
  read _ _ _ hw := hw.snoc .inl

theorem waited_stable : Stable latchedDevice (Waiting fun _ _ ↦ False) where
  env _ _ _ hw _ := hw.snoc False.elim
  read _ _ _ hw := hw.snoc False.elim

theorem store_ep1Conf_intRaw {s s' : State} {v : Word}
    (h : latchedDevice.store s (ep1ConfReg usbSerialJtagBase) v s') : s'.intRaw = s.intRaw := by
  replace h : store s (ep1ConfReg usbSerialJtagBase) v s' := h
  rw [store, if_neg (by decide)] at h
  split at h
  · rw [h]
  · rw [if_neg (by decide)] at h
    rw [h]

theorem flush_waits {s s' : State} {call : Trace}
    (h : Run latchedDevice usbSerialJtagFlush s call (.ret ()) s') :
    ∃ pre m post, call = pre ++ m :: post ∧ IsWrDone m ∧
      (serialInEmptyIntRaw m.before.intRaw = 0 → ∃ m' ∈ m :: post, m'.after.fifo = []) := by
  have any : Stable latchedDevice (fun (_ : Trace) _ ↦ True) :=
    ⟨fun _ _ _ _ _ ↦ trivial, fun _ _ _ _ ↦ trivial⟩
  have hf : Safe latchedDevice (fun _ _ ↦ True) (fun _ t s ↦ Waiting (fun _ _ ↦ False) t s)
      usbSerialJtagFlush [] s := by
    refine Safe.write any (fun _ _ h ↦ h) (fun t s s' _ hs ↦ ?_) trivial
    have hw : Waiting Quiet (t ++ [⟨s, some (.write _ _), s'⟩]) s' :=
      ⟨t, _, [], rfl, rfl, fun h₀ ↦ .inl (by rwa [Quiet, store_ep1Conf_intRaw hs])⟩
    refine Safe.poll waiting_quiet_stable (fun _ _ _ ↦ trivial) (fun t s hw hr ↦ ?_) hw
    have hset : serialInEmptyIntRaw s.intRaw ≠ 0 := of_decide_eq_true hr
    have hd : Waiting (fun _ _ ↦ False) t s := by
      obtain ⟨pre, m, post, ht, hm, h⟩ := hw
      exact ⟨pre, m, post, ht, hm, fun h₀ ↦ .inr ((h h₀).resolve_left hset)⟩
    refine Safe.write waited_stable (fun _ _ _ ↦ trivial) (fun t s s' hw _ ↦ ?_) hd
    exact Safe.ret waited_stable (fun _ _ _ ↦ trivial) (fun _ _ h ↦ h) (hw.snoc False.elim)
  obtain ⟨pre, m, post, ht, hm, hw⟩ := (hf call _ s' h).2 () rfl
  exact ⟨pre, m, post, ht, hm, fun h₀ ↦ (hw h₀).resolve_left id⟩

def Stale (s : State) : Prop := serialInEmptyIntRaw s.intRaw ≠ 0

theorem moves_stale {m : Moment State Addr Word} (hm : Moves latchedDevice FlushWrites m)
    (hb : Stale m.before) : Stale m.after := by
  rw [Stale, serialInEmptyIntRaw_ne_zero] at hb ⊢
  have hk := moves_keep hm
  rw [BitVec.getLsbD_and, hb, Bool.true_and] at hk
  simpa using hk

variable {calls : List Call} {s s' : State} {t : Trace} {as : List Unit}
  {qs : List (Driver Unit)}

/-- The flag is never acknowledged: once set it stays set, and no later call waits. -/
theorem stale_forever (hs : Session latchedDevice (calls.map Call.prog) s t as qs s')
    (h₀ : Stale s) : ∀ m ∈ t, Stale m.after := by
  refine session_invariant (fun m ↦ moves_stale) hs (fun p hp ↦ ?_) h₀
  obtain ⟨c, -, rfl⟩ := List.mem_map.mp hp
  exact call_onlyWrites c

theorem call_flushes {c : Call} (h : Run latchedDevice c.prog s t (.ret ()) s') :
    ∃ call, call <:+: t ∧ FlushCall call := by
  cases c with
  | flush => exact ⟨t, List.infix_refl t, s, s', h⟩
  | putc c =>
    rcases run_bind h with ⟨p', hp, hr⟩ | ⟨_, s₁, t₁, t₂, rfl, -, h⟩
    · cases p' <;> cases hr
    · rcases run_bind h with ⟨p', hp, hr⟩ | ⟨_, s₂, t₂, t₃, rfl, -, h⟩
      · cases p' <;> cases hr
      · exact ⟨t₃, ⟨t₁ ++ t₂, [], by simp⟩, s₂, s', h⟩

/-- In no session does any call of `usb_serial_jtag_flush` wait and acknowledge
as it should, and every session in which a call has returned has one. -/
theorem flush_never_acknowledges
    (hs : Session latchedDevice (calls.map Call.prog) s t as qs s') :
    (∀ call, call <:+: t → FlushCall call → ¬ Flushed call) ∧
    (as ≠ [] → ∃ call, call <:+: t ∧ FlushCall call) := by
  refine ⟨fun call _ h ↦ h.not_flushed, fun has ↦ ?_⟩
  cases calls with
  | nil => exact absurd (session_nil hs) has
  | cons c calls =>
    rcases session_cons hs with rfl | ⟨a, as', t₁, t₂, s₁, rfl, rfl, hr, -⟩
    · exact absurd rfl has
    · obtain ⟨call, hc, hf⟩ := call_flushes hr
      exact ⟨call, hc.trans (List.prefix_append t₁ t₂).isInfix, hf⟩

theorem latchedSession_A :
    Session latchedDevice [(Call.putc 0x41).prog] resetState (putTrace [] [] 0x41) [()] []
      (withSpace [0x41] []) := by
  refine .step (.ready (by decide)) (.step (.write store_withSpace) ?_)
  refine .step (.write wrDone_withSpace) ?_
  exact .step (.ready (by decide)) (.step (.write intClr_withSpace) (.returned (.nil _ _)))

theorem flush_never_acknowledges_A :
    ∃ call, call <:+: (putTrace [] [] 0x41) ∧ FlushCall call ∧ ¬ Flushed call := by
  obtain ⟨hn, hc⟩ := @flush_never_acknowledges [.putc 0x41] _ _ _ _ _ latchedSession_A
  obtain ⟨call, hi, hf⟩ := hc (by simp)
  exact ⟨call, hi, hf, hn call hi hf⟩

/-- The byte is still in the FIFO, and was at every moment, when the call returns. -/
theorem flush_falls_through :
    ¬ ∀ (calls : List Call) (s s' : State) (t : Trace) (as : List Unit) (qs : List (Driver Unit)),
      Session latchedDevice (calls.map Call.prog) s t as qs s' →
      ∀ call, call <:+: t → FlushCall call → Flushed call := by
  intro h
  have hf := h [.putc 0x41] _ _ _ _ _ latchedSession_A ((putTrace [] [] 0x41).drop 2)
    (List.drop_suffix 2 _).isInfix ⟨withSpace [0x41] [], withSpace [0x41] [], ?_⟩
  · obtain ⟨pre, m, post, hc, -, m', hm', he⟩ := hf.emptied
    have hm : m' ∈ (putTrace [] [] 0x41).drop 2 := by
      rw [hc]
      exact List.mem_append_right pre hm'
    simp only [putTrace, List.drop_succ_cons, List.drop_zero, List.mem_cons, List.not_mem_nil,
      or_false] at hm
    rcases hm with rfl | rfl | rfl <;> cases he
  · refine .cons (.write wrDone_withSpace) (.cons (.ready (by decide)) ?_)
    exact .cons (.write intClr_withSpace) (.nil _ _)

end Esp32c6Fw.UsbSerialJtag
