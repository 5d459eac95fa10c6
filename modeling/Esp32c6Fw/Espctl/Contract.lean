import Esp32c6Fw.Espctl.Decode
import Esp32c6Fw.Espctl.Hostile

namespace Esp32c6Fw.Espctl

open Script Struct

def Silent (rs : List (Option UInt8)) : Prop := ∃ l, nextReply rs = some (.silent, l)

def Answers (cmd : ℕ) (p : Bytes) (rs : List (Option UInt8)) : Prop :=
  ∃ f l, nextReply rs = some (.frame f, l) ∧ accept cmd f = .ok p ∧ 10 ≤ p.length

/-- Once its request is out, a method returns `False` when no response starts, and otherwise
whether the status of the response is zero. -/
structure KeepsContract (r : Message) (rs : List (Option UInt8)) : Prop where
  silent : written (r.send.run rs).log ≠ [] → Silent rs → (r.send.run rs).outcome = .ok false
  answered : written (r.send.run rs).log ≠ [] → ∀ p, Answers r.kind.code p rs →
    (r.send.run rs).outcome = .ok (p[8]? = some 0)

/-- The lines that do not show what a method leaves out: `flash_begin`, `flash_data` and
`flash_end` do not look at the status, and `spi_set_params` does not get to it. -/
def Message.Unharmed (rs : List (Option UInt8)) : Message → Prop
  | .sync => True
  | .spiSetParams _ => ¬Silent rs ∧ ∀ p, ¬Answers romCommandSpiSetParams p rs
  | .call m => m.readsStatus = true ∨ ∀ p, Answers m.cmd p rs → p[8]? = some 0

variable {rs : List (Option UInt8)} {p : Bytes} {m : Method}

theorem code_call (m : Method) : (Message.call m).kind.code = m.cmd := by
  cases m <;> rfl

theorem recvResponse_silent (cmd : ℕ) (h : Silent rs) :
    ((recvResponse cmd).run rs).outcome = .ok none := by
  obtain ⟨l, h⟩ := h
  exact ((recvResponse_run cmd rs).2 _ _ h).1

theorem recvResponse_answers {cmd : ℕ} (h : Answers cmd p rs) :
    ((recvResponse cmd).run rs).outcome = .ok (some p) := by
  obtain ⟨f, l, hn, ha, -⟩ := h
  have ho := ((recvResponse_run cmd rs).2 _ _ hn).1
  rw [ho, Reply.answer, ha]

theorem attachOutcome_long (h : 10 ≤ p.length) :
    attachOutcome (some p) = .ok (p[8]? = some 0) := by
  rw [attachOutcome, List.getElem?_eq_getElem (by omega : 8 < p.length),
    List.getElem?_eq_getElem (by omega : 9 < p.length)]
  simp

theorem outcome_readsStatus (hm : m.readsStatus = true) (h : 10 ≤ p.length) :
    m.outcome (some p) = .ok (p[8]? = some 0) := by
  cases m with
  | flashBegin | flashData | flashEnd => cases hm
  | readReg =>
    have hlen : ((p.drop 4).take 4).length = 4 := by
      rw [List.length_take, List.length_drop]
      omega
    obtain ⟨value, hv⟩ := structUnpackWord_ok hlen
    simp only [Method.outcome, hv, attachOutcome_long h]
  | writeReg | memBegin | memData | memEnd | spiAttach => exact attachOutcome_long h

theorem outcome_ignoresStatus (hm : m.readsStatus = false) (p : Bytes) :
    m.outcome (some p) = .ok true := by
  cases m with
  | flashBegin | flashData | flashEnd => rfl
  | readReg | writeReg | memBegin | memData | memEnd | spiAttach => cases hm

theorem keepsContract_call (h : m.Fits) :
    KeepsContract (.call m) rs ↔ (Message.call m).Unharmed rs := by
  obtain ⟨hasks, ho⟩ := m.call_asks h rs
  have hsent : written ((Message.call m).send.run rs).log ≠ [] := by
    rw [Message.send, hasks.sent]
    simp [Framing.enclose]
  have hanswer (p : Bytes) (hp : Answers m.cmd p rs) :
      ((Message.call m).send.run rs).outcome = m.outcome (some p) := by
    rw [Message.send, ho, recvResponse_answers hp]
    rfl
  constructor
  · intro hk
    cases hm : m.readsStatus with
    | true => exact Or.inl hm
    | false =>
      refine Or.inr fun p hp ↦ ?_
      have hout := hk.answered hsent p (by rwa [code_call])
      rw [hanswer p hp, outcome_ignoresStatus hm, Outcome.ok.injEq] at hout
      exact of_decide_eq_true hout.symm
  · intro hu
    refine ⟨fun _ hs ↦ ?_, fun _ p hp ↦ ?_⟩
    · rw [Message.send, ho, recvResponse_silent m.cmd hs]
      exact outcome_none m
    · rw [code_call] at hp
      rw [hanswer p hp]
      cases hm : m.readsStatus with
      | true =>
        obtain ⟨f, l, -, -, hlen⟩ := hp
        exact outcome_readsStatus hm hlen
      | false =>
        obtain hm' | hz := hu
        · exact absurd hm' (by simp [hm])
        · rw [outcome_ignoresStatus hm, hz p hp]
          rfl

theorem spiSetParams_unfit {totalSize : ℕ} (h : ¬(Message.spiSetParams totalSize).Fits) :
    written ((spiSetParams totalSize).run rs).log = [] := by
  have hpack : pack [(4, 0), (4, totalSize), (4, 64 * 1024), (4, 4 * 1024), (4, 256),
      (4, 0xFFFF)] = none :=
    pack_eq_none (f := (4, totalSize)) (by simp only [List.mem_cons, true_or, or_true])
      (not_lt.mp h)
  rw [spiSetParams, structPack, hpack]
  rfl

theorem keepsContract_spiSetParams {totalSize : ℕ} (h : (Message.spiSetParams totalSize).Fits) :
    KeepsContract (.spiSetParams totalSize) rs ↔ (Message.spiSetParams totalSize).Unharmed rs := by
  obtain ⟨hw, ho⟩ := Message.run_spiSetParams h rs
  have hsent : written ((spiSetParams totalSize).run rs).log ≠ [] := by
    rw [hw]
    simp [Framing.enclose]
  constructor
  · intro hk
    refine ⟨fun hs ↦ ?_, fun p hp ↦ ?_⟩
    · have hout := hk.silent hsent hs
      rw [Message.send, ho, recvResponse_silent _ hs] at hout
      cases hout
    · have hout := hk.answered hsent p hp
      rw [Message.send, ho, recvResponse_answers hp] at hout
      cases hout
  · intro hu
    exact ⟨fun _ hs ↦ absurd hs hu.1, fun _ p hp ↦ absurd hp (hu.2 p)⟩

theorem keepsContract_unfit {r : Message} (h : ¬r.Fits) : KeepsContract r rs := by
  have hsilent : written (r.send.run rs).log = [] := by
    cases r with
    | sync => exact absurd trivial h
    | spiSetParams totalSize => exact spiSetParams_unfit h
    | call m => exact (m.call_unfit h rs).2
  exact ⟨fun hw ↦ absurd hsilent hw, fun hw ↦ absurd hsilent hw⟩

/-- Arguments that do not fit are refused before anything is sent. -/
theorem keepsContract_iff {r : Message} (hr : r ≠ .sync) (rs : List (Option UInt8)) :
    KeepsContract r rs ↔ (r.Fits → r.Unharmed rs) := by
  by_cases h : r.Fits
  · have hcases : KeepsContract r rs ↔ r.Unharmed rs := by
      cases r with
      | sync => exact absurd rfl hr
      | spiSetParams totalSize => exact keepsContract_spiSetParams h
      | call m => exact keepsContract_call h
    rw [hcases]
    exact ⟨fun hu _ ↦ hu, fun hu ↦ hu h⟩
  · exact ⟨fun _ hf ↦ absurd hf h, fun _ ↦ keepsContract_unfit h⟩

theorem keepsContract_iff_memEnd :
    KeepsContract (.call (.memEnd 1 0x40800000)) [none] ↔
      ((Message.call (.memEnd 1 0x40800000)).Fits →
        (Message.call (.memEnd 1 0x40800000)).Unharmed [none]) :=
  keepsContract_iff Message.noConfusion [none]

def refusal : Bytes := [0x01, 0x04, 0x02, 0x00, 0x00, 0x00, 0x00, 0x00, 0x01, 0x05]

/-- The device refuses, and `flash_end` returns `True`. -/
theorem flashEnd_ignores_status :
    Answers romCommandFlashEnd refusal (refusal.map some ++ [some slipEnd]) ∧
      ((Message.call (.flashEnd true)).send.run (refusal.map some ++ [some slipEnd])).outcome =
        .ok true ∧
      ¬KeepsContract (.call (.flashEnd true)) (refusal.map some ++ [some slipEnd]) := by
  have ha : Answers romCommandFlashEnd refusal (refusal.map some ++ [some slipEnd]) :=
    ⟨refusal, [], by decide +kernel, by decide +kernel, by decide⟩
  have ho : ((Message.call (.flashEnd true)).send.run
      (refusal.map some ++ [some slipEnd])).outcome = .ok true := by decide +kernel
  have hw : written ((Message.call (.flashEnd true)).send.run
      (refusal.map some ++ [some slipEnd])).log ≠ [] := by decide +kernel
  refine ⟨ha, ho, ?_⟩
  intro hk
  have hout := hk.answered hw refusal ha
  rw [ho] at hout
  exact absurd hout (by decide)

end Esp32c6Fw.Espctl
