import Esp32c6Fw.Espctl.Flash

namespace Esp32c6Fw.Espctl

open Script

variable {rs : List (Option UInt8)} {cmd : ℕ} {b : UInt8} {resp f : Bytes}

theorem skipEnd_consumes : Consumes skipEnd := consumes_read.bind _

theorem collectByte_consumes (cmd : ℕ) (resp : Bytes) : Consumes (collectByte cmd resp) :=
  consumes_read.bind _

@[simp] theorem skipEnds_nil : skipEnds.run [] = ⟨.blocked, [], []⟩ := rfl

@[simp] theorem skipEnds_timeout : skipEnds.run (none :: rs) = ⟨.ok none, rs, []⟩ := rfl

@[simp] theorem skipEnds_end : skipEnds.run (some slipEnd :: rs) = skipEnds.run rs := by
  rw [skipEnds, run_loop fun _ ↦ skipEnd_consumes]
  rfl

theorem skipEnds_byte (hb : b ≠ slipEnd) :
    skipEnds.run (some b :: rs) = ⟨.ok (some b), rs, []⟩ := by
  rw [skipEnds, run_loop fun _ ↦ skipEnd_consumes]
  simp [skipEnd, hb]

@[simp] theorem collect_nil : (collect cmd resp).run [] = ⟨.blocked, [], []⟩ := rfl

@[simp] theorem collect_timeout : (collect cmd resp).run (none :: rs) =
    ⟨.raise (.serialTimeout s!"Failed to get end of packet: cmd({cmd})"), rs, []⟩ := rfl

@[simp] theorem collect_end :
    (collect cmd resp).run (some slipEnd :: rs) = ⟨.ok resp, rs, []⟩ := rfl

theorem collect_byte (hb : b ≠ slipEnd) :
    (collect cmd resp).run (some b :: rs) = (collect cmd (resp ++ [b])).run rs := by
  rw [collect, run_loop (collectByte_consumes cmd)]
  simp [collectByte, hb, collect]

theorem collect_bytes (hf : slipEnd ∉ f) :
    (collect cmd resp).run (f.map some ++ rs) = (collect cmd (resp ++ f)).run rs := by
  induction f generalizing resp with
  | nil => simp
  | cons b f ih =>
    simp only [List.mem_cons, not_or] at hf
    rw [List.map_cons, List.cons_append, collect_byte (Ne.symm hf.1), ih hf.2, List.append_assoc]
    rfl

theorem recvFrame_end : (recvFrame cmd).run (some slipEnd :: rs) = (recvFrame cmd).run rs := by
  simp only [recvFrame, run_bind, skipEnds_end]

theorem recvFrame_byte (hb : b ≠ slipEnd) :
    (recvFrame cmd).run (some b :: rs) =
      ((collect cmd [b]).run rs).bind fun resp ↦ (pure (some resp) : Host _).run := by
  rw [recvFrame, run_bind, skipEnds_byte hb]
  simp

theorem skipEnds_log : (skipEnds.run rs).log = [] := by
  induction rs with
  | nil => rfl
  | cons r rs ih =>
    cases r with
    | none => rfl
    | some b =>
      by_cases hb : b = slipEnd
      · rw [hb, skipEnds_end, ih]
      · rw [skipEnds_byte hb]

theorem collect_log : ((collect cmd resp).run rs).log = [] := by
  induction rs generalizing resp with
  | nil => rfl
  | cons r rs ih =>
    cases r with
    | none => rfl
    | some b =>
      by_cases hb : b = slipEnd
      · rw [hb, collect_end]
      · rw [collect_byte hb, ih]

theorem recvFrame_log : ((recvFrame cmd).run rs).log = [] := by
  rw [recvFrame, run_bind]
  have hs := @skipEnds_log rs
  generalize skipEnds.run rs = r at hs ⊢
  obtain ⟨o, l, e⟩ := r
  cases hs
  cases o with
  | raise x | blocked => rfl
  | ok byte =>
    cases byte with
    | none => rfl
    | some b =>
      have hc := @collect_log l cmd [b]
      simp only [Result.ok_bind, run_bind, List.nil_append]
      generalize (collect cmd [b]).run l = r at hc ⊢
      obtain ⟨o, l', e⟩ := r
      cases hc
      cases o <;> rfl

inductive Received (cmd : ℕ) : Result (Option UInt8) Error Event (Option Bytes) → Prop
  | timeout (l : List (Option UInt8)) : Received cmd ⟨.ok none, l, [.response cmd none]⟩
  | packet {p : Bytes} (l : List (Option UInt8)) : checkResponse p cmd = .ok () →
      Received cmd ⟨.ok (some p), l, [.response cmd (some p)]⟩
  | raised (x : Error) (l : List (Option UInt8)) : Received cmd ⟨.raise x, l, []⟩
  | blocked (l : List (Option UInt8)) : Received cmd ⟨.blocked, l, []⟩

@[simp] theorem run_ofExcept_ok {α : Type} (a : α) : (ofExcept (.ok a)).run rs = ⟨.ok a, rs, []⟩ :=
  rfl

@[simp] theorem run_ofExcept_error {α : Type} (e : Error) :
    (ofExcept (.error e) : Host α).run rs = ⟨.raise e, rs, []⟩ := rfl

@[simp] theorem run_print (line : String) : (print line).run rs = ⟨.ok (), rs, [.print line]⟩ := rfl

theorem received (cmd : ℕ) (rs : List (Option UInt8)) :
    Received cmd ((recvResponse cmd).run rs) := by
  rw [recvResponse, run_bind]
  have hl := @recvFrame_log rs cmd
  generalize (recvFrame cmd).run rs = r at hl ⊢
  obtain ⟨o, l, e⟩ := r
  cases hl
  cases o with
  | raise x => exact .raised x l
  | blocked => exact .blocked l
  | ok frame =>
    cases frame with
    | none => exact .timeout l
    | some resp =>
      simp only [Result.ok_bind, run_bind, List.nil_append]
      cases slipDecode resp with
      | error e => exact .raised e l
      | ok p =>
        simp only [run_ofExcept_ok, Result.ok_bind, List.nil_append]
        cases hp : checkResponse p cmd with
        | error e => exact .raised e l
        | ok _ => exact .packet l hp

end Esp32c6Fw.Espctl
