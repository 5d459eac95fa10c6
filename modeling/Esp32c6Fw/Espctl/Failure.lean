import Esp32c6Fw.Espctl.Talk

namespace Esp32c6Fw.Espctl

open Script Struct Framing

def Succeeded (cmd : ℕ) (e : Option Event) : Prop :=
  ∃ p, e = some (.response cmd (some p)) ∧ checkResponse p cmd = .ok () ∧ p[8]? = some 0

def Event.GoesOn : Event → Prop
  | .request c => c.cmd = romCommandFlashData ∨ c.cmd = romCommandFlashEnd
  | _ => False

def Watched (cmd : ℕ) : Prop :=
  cmd = romCommandSpiAttach ∨ cmd = romCommandFlashBegin ∨ cmd = romCommandFlashData

instance (cmd : ℕ) : Decidable (Watched cmd) := inferInstanceAs (Decidable (_ ∨ _ ∨ _))

def StopsAtFailure : List Event → Prop
  | [] => True
  | .request c :: t =>
    (Watched c.cmd → Succeeded c.cmd t.head? ∨ ∀ e ∈ t, ¬ e.GoesOn) ∧ StopsAtFailure t
  | _ :: t => StopsAtFailure t

def replies (cmd : ℕ) : List Event → List (Option Event)
  | [] => []
  | .request c :: t => if c.cmd = cmd then t.head? :: replies cmd t else replies cmd t
  | _ :: t => replies cmd t

def AllSucceeded (cmd n : ℕ) (t : List Event) : Prop :=
  (replies cmd t).length = n ∧ ∀ e ∈ replies cmd t, Succeeded cmd e

def Reboots (t : List Event) : Prop := ∃ c, .request c ∈ t ∧ c.cmd = romCommandFlashEnd

structure NoFalseSuccess (nrBlocks : ℕ) (t : List Event) : Prop where
  answered : Reboots t →
    AllSucceeded romCommandSpiAttach 1 t ∧ AllSucceeded romCommandFlashBegin 1 t ∧
    AllSucceeded romCommandFlashData nrBlocks t
  stops : StopsAtFailure t

def Good (resp : Option Bytes) : Prop := ∃ p, resp = some p ∧ p[8]? = some 0

/-- The reply to each command that is reached: it has not timed out, and if it
is accepted its status is 0. -/
def DataSound : ℕ → List (Option UInt8) → Prop
  | 0, _ => True
  | left + 1, rs =>
    let r := (recvResponse romCommandFlashData).run rs
    ∀ resp, r.outcome = .ok resp → Good resp ∧ DataSound left r.rest

def BeginSound (left : ℕ) (rs : List (Option UInt8)) : Prop :=
  let r := (recvResponse romCommandFlashBegin).run rs
  ∀ resp, r.outcome = .ok resp → Good resp ∧ DataSound left r.rest

/-- A failed SPI_ATTACH does no harm if FLASH_BEGIN then raises. -/
def AttachSound (left : ℕ) (rs : List (Option UInt8)) : Prop :=
  let r := (recvResponse romCommandSpiAttach).run rs
  (r.outcome.bind attachOutcome = .ok true → BeginSound left r.rest) ∧
  (r.outcome.bind attachOutcome = .ok false →
    ∀ resp, ((recvResponse romCommandFlashBegin).run r.rest).outcome ≠ .ok resp)

variable {c : Command} {t : List Event} {rs : List (Option UInt8)}
  {r : Result (Option UInt8) Error Event (Option Bytes)}

section Prefix

variable {pre : List Event}

theorem stopsAtFailure_sync (h : ∀ e ∈ pre, e.OfSync) :
    StopsAtFailure (pre ++ t) ↔ StopsAtFailure t := by
  induction pre with
  | nil => rfl
  | cons e pre ih =>
    rw [List.forall_mem_cons] at h
    cases e with
    | request c =>
      have hc : c.cmd = romCommandSync := h.1
      have hw : ¬ Watched c.cmd := by
        rw [hc]
        decide
      simp only [List.cons_append, StopsAtFailure, hw, false_implies, true_and, ih h.2]
    | _ => exact ih h.2

theorem replies_sync {cmd : ℕ} (h : ∀ e ∈ pre, e.OfSync) (hcmd : cmd ≠ romCommandSync) :
    replies cmd (pre ++ t) = replies cmd t := by
  induction pre with
  | nil => rfl
  | cons e pre ih =>
    rw [List.forall_mem_cons] at h
    cases e with
    | request c =>
      have hc : c.cmd = romCommandSync := h.1
      have hne : c.cmd ≠ cmd := by
        rw [hc]
        exact hcmd.symm
      simp only [List.cons_append, replies, if_neg hne, ih h.2]
    | _ => exact ih h.2

theorem noFalseSuccess_sync {n : ℕ} (h : ∀ e ∈ pre, e.OfSync) :
    NoFalseSuccess n (pre ++ t) ↔ NoFalseSuccess n t := by
  have hend : Reboots (pre ++ t) ↔ Reboots t := by
    refine exists_congr fun c ↦ and_congr_left fun hc ↦ ?_
    rw [List.mem_append, or_iff_right]
    intro hm
    have hs : c.cmd = romCommandSync := h _ hm
    rw [hs] at hc
    exact absurd hc (by decide)
  have ha : AllSucceeded romCommandSpiAttach 1 (pre ++ t) ↔
      AllSucceeded romCommandSpiAttach 1 t := by
    rw [AllSucceeded, replies_sync h (by decide), AllSucceeded]
  have hb : AllSucceeded romCommandFlashBegin 1 (pre ++ t) ↔
      AllSucceeded romCommandFlashBegin 1 t := by
    rw [AllSucceeded, replies_sync h (by decide), AllSucceeded]
  have hd : AllSucceeded romCommandFlashData n (pre ++ t) ↔
      AllSucceeded romCommandFlashData n t := by
    rw [AllSucceeded, replies_sync h (by decide), AllSucceeded]
  constructor
  · intro ⟨h₁, h₂⟩
    exact ⟨by rwa [hend, ha, hb, hd] at h₁, (stopsAtFailure_sync h).mp h₂⟩
  · intro ⟨h₁, h₂⟩
    exact ⟨by rwa [hend, ha, hb, hd], (stopsAtFailure_sync h).mpr h₂⟩

end Prefix

section Step

variable (hr : Received c.cmd r)
include hr

theorem goesOn_received : ∀ e ∈ r.log, ¬ e.GoesOn := by
  intro e he
  obtain ⟨p, rfl⟩ := received_log hr e he
  exact id

theorem stopsAtFailure_received : StopsAtFailure (r.log ++ t) ↔ StopsAtFailure t := by
  cases hr <;> rfl

theorem replies_received (cmd : ℕ) : replies cmd (r.log ++ t) = replies cmd t := by
  cases hr <;> rfl

theorem succeeded_iff_good {resp : Option Bytes} (ho : r.outcome = .ok resp) :
    Succeeded c.cmd (r.log ++ t).head? ↔ Good resp := by
  cases hr with
  | timeout l =>
    cases ho
    simp [Succeeded, Good]
  | packet l hp =>
    cases ho
    simp [Succeeded, Good, hp]
  | raised | blocked => cases ho

theorem stopsAtFailure_next (hw : Watched c.cmd) {resp : Option Bytes}
    (ho : r.outcome = .ok resp) (hgo : ∃ e ∈ t, e.GoesOn) :
    StopsAtFailure (.request c :: (r.log ++ t)) ↔ Good resp ∧ StopsAtFailure t := by
  rw [StopsAtFailure, succeeded_iff_good hr ho, stopsAtFailure_received hr]
  have hn : ¬ ∀ e ∈ r.log ++ t, ¬ e.GoesOn := by
    obtain ⟨e, he, hg⟩ := hgo
    exact fun h ↦ h e (List.mem_append_right _ he) hg
  simp only [hw, hn, or_false, true_implies]

theorem stopsAtFailure_stop : StopsAtFailure (.request c :: r.log) := by
  have hs := (stopsAtFailure_received hr (t := [])).mpr trivial
  rw [List.append_nil] at hs
  exact ⟨fun _ ↦ .inr (goesOn_received hr), hs⟩

theorem reboots_received : Reboots (r.log ++ t) ↔ Reboots t := by
  refine exists_congr fun c' ↦ and_congr_left fun _ ↦ ?_
  rw [List.mem_append, or_iff_right]
  intro he
  obtain ⟨p, hp⟩ := received_log hr _ he
  cases hp

theorem reboots_next (hc : c.cmd ≠ romCommandFlashEnd) :
    Reboots (.request c :: (r.log ++ t)) ↔ Reboots t := by
  constructor
  · intro ⟨c', hm, hc'⟩
    rcases List.mem_cons.mp hm with he | hm
    · cases he
      exact absurd hc' hc
    · exact (reboots_received hr).mp ⟨c', hm, hc'⟩
  · intro ⟨c', hm, hc'⟩
    exact ⟨c', List.mem_cons_of_mem _ (List.mem_append_right _ hm), hc'⟩

theorem not_reboots_stop (hc : c.cmd ≠ romCommandFlashEnd) : ¬ Reboots (.request c :: r.log) := by
  have h := reboots_next hr hc (t := [])
  rw [List.append_nil] at h
  rw [h]
  exact fun ⟨c', hm, _⟩ ↦ List.not_mem_nil hm

theorem allSucceeded_next {n : ℕ} {resp : Option Bytes} (ho : r.outcome = .ok resp)
    (hg : Good resp) (h : AllSucceeded c.cmd n t) :
    AllSucceeded c.cmd (n + 1) (.request c :: (r.log ++ t)) := by
  obtain ⟨hn, hs⟩ := h
  rw [AllSucceeded, replies, if_pos rfl, replies_received hr]
  refine ⟨by rw [List.length_cons, hn], ?_⟩
  rw [List.forall_mem_cons]
  exact ⟨(succeeded_iff_good hr ho).mpr hg, hs⟩

theorem allSucceeded_other {cmd n : ℕ} (hc : c.cmd ≠ cmd) :
    AllSucceeded cmd n (.request c :: (r.log ++ t)) ↔ AllSucceeded cmd n t := by
  rw [AllSucceeded, replies, if_neg hc, replies_received hr, AllSucceeded]

end Step

theorem bind_isSome_ok {resp : Option Bytes} (ho : r.outcome = .ok resp) :
    (r.outcome.bind fun resp ↦ (.ok resp.isSome : Outcome Error Bool)) = .ok resp.isSome := by
  rw [ho]
  rfl

theorem bind_ne_ok {o : Option Bytes → Outcome Error Bool} (ho : ∀ resp, r.outcome ≠ .ok resp) :
    ∀ b, r.outcome.bind o ≠ .ok b := by
  intro b hb
  obtain ⟨resp, hr, -⟩ := Outcome.bind_eq_ok.mp hb
  exact ho resp hr

theorem stopsAtFailure_method {x : Result (Option UInt8) Error Event Bool} {β : Type} {k : Host β}
    (hr : Received c.cmd r) (hx : Asks c r x)
    (hox : x.outcome = r.outcome.bind fun resp ↦ .ok resp.isSome) (hw : Watched c.cmd)
    (hgo : ∀ l, ∃ e ∈ talk (k.run l).log, e.GoesOn) :
    StopsAtFailure (talk (x.bind fun _ ↦ k.run).log) ↔
      ∀ resp, r.outcome = .ok resp → Good resp ∧ StopsAtFailure (talk (k.run r.rest).log) := by
  by_cases ho : ∃ resp, r.outcome = .ok resp
  · obtain ⟨resp, ho⟩ := ho
    obtain ⟨-, -, ht, -⟩ := hx.next (k := k) (hox.trans (bind_isSome_ok ho))
    rw [ht, stopsAtFailure_next hr hw ho (hgo _)]
    constructor
    · intro h resp' ho'
      rw [ho] at ho'
      cases ho'
      exact h
    · exact fun h ↦ h resp ho
  · have ho' : ∀ resp, r.outcome ≠ .ok resp := fun resp h ↦ ho ⟨resp, h⟩
    obtain ⟨ht, -⟩ := hx.stop (k := k) (fun b ↦ by rw [hox]; exact bind_ne_ok ho' b)
    rw [ht]
    exact ⟨fun _ resp h ↦ absurd h (ho' resp), fun _ ↦ stopsAtFailure_stop hr⟩

theorem reboots_method {x : Result (Option UInt8) Error Event Bool} {β : Type} {k : Host β}
    {o : Option Bytes → Outcome Error Bool} (hr : Received c.cmd r) (hx : Asks c r x)
    (hox : x.outcome = r.outcome.bind o) (hc : c.cmd ≠ romCommandFlashEnd)
    (h : Reboots (talk (x.bind fun _ ↦ k.run).log)) :
    ∃ resp b, r.outcome = .ok resp ∧ o resp = .ok b ∧ Reboots (talk (k.run r.rest).log) ∧
      talk (x.bind fun _ ↦ k.run).log = .request c :: (r.log ++ talk (k.run r.rest).log) := by
  by_cases ho : ∃ b, x.outcome = .ok b
  · obtain ⟨b, ho⟩ := ho
    obtain ⟨-, -, ht, -⟩ := hx.next (k := k) ho
    rw [ht, reboots_next hr hc] at h
    obtain ⟨resp, hro, hb⟩ := Outcome.bind_eq_ok.mp (hox.symm.trans ho)
    exact ⟨resp, b, hro, hb, h, ht⟩
  · rw [(hx.stop fun b h ↦ ho ⟨b, h⟩).1] at h
    exact absurd h (not_reboots_stop hr hc)

theorem mem_talk_method {x : Result (Option UInt8) Error Event Bool} {β : Type} {k : Host β}
    (hx : Asks c r x) : .request c ∈ talk (x.bind fun _ ↦ k.run).log := by
  obtain ⟨t, ht⟩ := hx.head (k := k)
  rw [ht]
  exact List.mem_cons_self ..

theorem goesOn_flashTail {seq left : ℕ} (h : seq + left ≤ 2 ^ 32) (inputBin : Bytes)
    (rs : List (Option UInt8)) :
    ∃ e ∈ talk ((flashTail seq left inputBin).run rs).log, e.GoesOn := by
  cases left with
  | zero =>
    rw [flashTail_zero, run_bind]
    exact ⟨_, mem_talk_method (flashEnd_asks rs).1, .inr rfl⟩
  | succ left =>
    rw [flashTail_succ, run_bind]
    exact ⟨_, mem_talk_method (flashData_asks (by omega) (length_block inputBin) rs).1, .inl rfl⟩

theorem talk_flashEnd (rs : List (Option UInt8)) :
    talk (((flashEnd true).run rs).bind fun _ ↦ (return () : Host Unit).run).log =
      .request endCommand :: ((recvResponse romCommandFlashEnd).run rs).log := by
  have hx := flashEnd_asks rs
  by_cases ho : ∃ b, ((flashEnd true).run rs).outcome = .ok b
  · obtain ⟨b, ho⟩ := ho
    obtain ⟨-, -, ht, -⟩ := hx.1.next (k := (return () : Host Unit)) ho
    rw [ht]
    exact congrArg _ (List.append_nil _)
  · exact (hx.1.stop fun b h ↦ ho ⟨b, h⟩).1

theorem stopsAtFailure_flashTail {seq left : ℕ} (h : seq + left ≤ 2 ^ 32) (inputBin : Bytes)
    (rs : List (Option UInt8)) :
    StopsAtFailure (talk ((flashTail seq left inputBin).run rs).log) ↔ DataSound left rs := by
  induction left generalizing seq inputBin rs with
  | zero =>
    rw [flashTail_zero, run_bind, talk_flashEnd, DataSound, iff_true]
    exact stopsAtFailure_stop (received endCommand.cmd rs)
  | succ left ih =>
    have hx := flashData_asks (show seq < 2 ^ 32 by omega) (length_block inputBin) rs
    rw [flashTail_succ, run_bind, stopsAtFailure_method (received _ rs) hx.1 hx.2 (.inr (.inr rfl))
      (goesOn_flashTail (by omega) _), DataSound]
    simp only [ih (show seq + 1 + left ≤ 2 ^ 32 by omega)]
    rfl

theorem answered_flashTail {seq left : ℕ} (h : seq + left ≤ 2 ^ 32) (inputBin : Bytes)
    {rs : List (Option UInt8)} (hs : DataSound left rs)
    (hre : Reboots (talk ((flashTail seq left inputBin).run rs).log)) :
    AllSucceeded romCommandSpiAttach 0 (talk ((flashTail seq left inputBin).run rs).log) ∧
    AllSucceeded romCommandFlashBegin 0 (talk ((flashTail seq left inputBin).run rs).log) ∧
    AllSucceeded romCommandFlashData left (talk ((flashTail seq left inputBin).run rs).log) := by
  induction left generalizing seq inputBin rs with
  | zero =>
    have hr := received endCommand.cmd rs
    have he (cmd : ℕ) (hc : endCommand.cmd ≠ cmd) : AllSucceeded cmd 0
        (.request endCommand :: ((recvResponse romCommandFlashEnd).run rs).log) := by
      have ha := allSucceeded_other hr (n := 0) (t := []) hc
      rw [List.append_nil] at ha
      exact ha.mpr ⟨rfl, by simp [replies]⟩
    rw [flashTail_zero, run_bind, talk_flashEnd]
    exact ⟨he _ (by decide), he _ (by decide), he _ (by decide)⟩
  | succ left ih =>
    have hx := flashData_asks (show seq < 2 ^ 32 by omega) (length_block inputBin) rs
    have hr : Received (dataCommand seq (block inputBin)).cmd _ := received romCommandFlashData rs
    have hc {cmd : ℕ} (h : romCommandFlashData ≠ cmd) :
        (dataCommand seq (block inputBin)).cmd ≠ cmd := h
    rw [flashTail_succ, run_bind] at hre ⊢
    obtain ⟨resp, b, ho, -, hre, ht⟩ := reboots_method hr hx.1 hx.2 (hc (by decide)) hre
    obtain ⟨hg, hs⟩ := hs resp ho
    obtain ⟨h₁, h₂, h₃⟩ := ih (by omega) _ hs hre
    rw [ht]
    exact ⟨(allSucceeded_other hr (hc (by decide))).mpr h₁,
      (allSucceeded_other hr (hc (by decide))).mpr h₂, allSucceeded_next hr ho hg h₃⟩

section Image

variable {inputBin : Bytes} (h : inputBin.length < 2 ^ 32)
include h

theorem stopsAtFailure_flashImage (rs : List (Option UInt8)) :
    StopsAtFailure (talk ((flashImage inputBin).run rs).log) ↔
      BeginSound (nrBlocks inputBin.length) rs := by
  have hn : 0 + nrBlocks inputBin.length ≤ 2 ^ 32 := by
    have := nrBlocks_le inputBin.length
    omega
  have hx := flashBegin_asks h rs
  rw [flashImage_eq, run_bind, stopsAtFailure_method (received _ rs) hx.1 hx.2 (.inr (.inl rfl))
    (goesOn_flashTail hn _), BeginSound]
  simp only [stopsAtFailure_flashTail hn]
  rfl

theorem goesOn_flashImage (rs : List (Option UInt8)) :
    (∃ e ∈ talk ((flashImage inputBin).run rs).log, e.GoesOn) ↔
      ∃ resp, ((recvResponse romCommandFlashBegin).run rs).outcome = .ok resp := by
  have hn : 0 + nrBlocks inputBin.length ≤ 2 ^ 32 := by
    have := nrBlocks_le inputBin.length
    omega
  obtain ⟨hx, hox⟩ := flashBegin_asks h rs
  have hr : Received (beginCommand inputBin.length).cmd _ := received romCommandFlashBegin rs
  rw [flashImage_eq, run_bind]
  constructor
  · intro ⟨e, he, hg⟩
    by_contra hno
    have ho : ∀ resp, ((recvResponse romCommandFlashBegin).run rs).outcome ≠ .ok resp :=
      fun resp h ↦ hno ⟨resp, h⟩
    rw [(hx.stop fun b ↦ by rw [hox]; exact bind_ne_ok ho b).1] at he
    rcases List.mem_cons.mp he with rfl | he
    · exact absurd hg (show ¬ (romCommandFlashBegin = romCommandFlashData ∨
        romCommandFlashBegin = romCommandFlashEnd) by decide)
    · exact goesOn_received hr e he hg
  · intro ⟨resp, ho⟩
    obtain ⟨-, -, ht, -⟩ := hx.next (k := flashTail 0 (nrBlocks inputBin.length) inputBin)
      (hox.trans (bind_isSome_ok ho))
    obtain ⟨e, he, hg⟩ := goesOn_flashTail hn inputBin
      ((recvResponse romCommandFlashBegin).run rs).rest
    rw [ht]
    exact ⟨e, List.mem_cons_of_mem _ (List.mem_append_right _ he), hg⟩

theorem answered_flashImage {rs : List (Option UInt8)}
    (hs : BeginSound (nrBlocks inputBin.length) rs)
    (hre : Reboots (talk ((flashImage inputBin).run rs).log)) :
    AllSucceeded romCommandSpiAttach 0 (talk ((flashImage inputBin).run rs).log) ∧
    AllSucceeded romCommandFlashBegin 1 (talk ((flashImage inputBin).run rs).log) ∧
    AllSucceeded romCommandFlashData (nrBlocks inputBin.length)
      (talk ((flashImage inputBin).run rs).log) := by
  have hn : 0 + nrBlocks inputBin.length ≤ 2 ^ 32 := by
    have := nrBlocks_le inputBin.length
    omega
  have hx := flashBegin_asks h rs
  have hr : Received (beginCommand inputBin.length).cmd _ := received romCommandFlashBegin rs
  have hc {cmd : ℕ} (h : romCommandFlashBegin ≠ cmd) :
      (beginCommand inputBin.length).cmd ≠ cmd := h
  rw [flashImage_eq, run_bind] at hre ⊢
  obtain ⟨resp, b, ho, -, hre, ht⟩ := reboots_method hr hx.1 hx.2 (hc (by decide)) hre
  obtain ⟨hg, hs⟩ := hs resp ho
  obtain ⟨h₁, h₂, h₃⟩ := answered_flashTail hn inputBin hs hre
  rw [ht]
  exact ⟨(allSucceeded_other hr (hc (by decide))).mpr h₁, allSucceeded_next hr ho hg h₂,
    (allSucceeded_other hr (hc (by decide))).mpr h₃⟩

end Image

theorem attachOutcome_ok {resp : Option Bytes} {b : Bool} (h : attachOutcome resp = .ok b) :
    b = true ↔ Good resp := by
  cases resp with
  | none =>
    cases h
    simp [Good]
  | some resp =>
    simp only [attachOutcome] at h
    cases h₈ : resp[8]? with
    | none =>
      rw [h₈] at h
      cases h
    | some status =>
      cases h₉ : resp[9]? with
      | none =>
        rw [h₈, h₉] at h
        cases h
      | some error =>
        rw [h₈, h₉] at h
        cases h
        simp [Good, h₈]

theorem Reboots.goesOn (h : Reboots t) : ∃ e ∈ t, e.GoesOn := by
  obtain ⟨c, hm, hc⟩ := h
  exact ⟨_, hm, .inr hc⟩

def attachAndFlash (inputBin : Bytes) : Host Unit := spiAttach 0 >>= fun _ ↦ flashImage inputBin

section Attach

variable {inputBin : Bytes}

theorem stopsAtFailure_attach (h : inputBin.length < 2 ^ 32) (rs : List (Option UInt8)) :
    StopsAtFailure (talk ((attachAndFlash inputBin).run rs).log) ↔
      AttachSound (nrBlocks inputBin.length) rs := by
  obtain ⟨hx, hox⟩ := spiAttach_asks rs
  have hr : Received attachCommand.cmd _ := received romCommandSpiAttach rs
  rw [attachAndFlash, run_bind, AttachSound, ← hox]
  by_cases ho : ∃ b, ((spiAttach 0).run rs).outcome = .ok b
  · obtain ⟨b, ho⟩ := ho
    obtain ⟨-, -, ht, -⟩ := hx.next (k := flashImage inputBin) ho
    obtain ⟨resp, hro, ha⟩ := Outcome.bind_eq_ok.mp (hox.symm.trans ho)
    have hg := attachOutcome_ok ha
    have hw : Watched attachCommand.cmd := .inl rfl
    rw [ht, StopsAtFailure, succeeded_iff_good hr hro, ← hg, stopsAtFailure_received hr,
      stopsAtFailure_flashImage h, ho]
    simp only [hw, true_implies]
    cases b with
    | true => simp
    | false =>
      generalize ((recvResponse romCommandSpiAttach).run rs).rest = l at *
      have hgo : (∀ e ∈ ((recvResponse romCommandSpiAttach).run rs).log ++
          talk ((flashImage inputBin).run l).log, ¬ e.GoesOn) ↔
          ∀ resp, ((recvResponse romCommandFlashBegin).run l).outcome ≠ .ok resp := by
        have hi := goesOn_flashImage h l
        constructor
        · intro hall resp hok
          obtain ⟨e, he, hge⟩ := hi.mpr ⟨resp, hok⟩
          exact hall e (List.mem_append_right _ he) hge
        · intro hno e he hge
          rcases List.mem_append.mp he with he | he
          · exact goesOn_received hr e he hge
          · obtain ⟨resp, hok⟩ := hi.mp ⟨e, he, hge⟩
            exact hno resp hok
      have hb : (∀ resp, ((recvResponse romCommandFlashBegin).run l).outcome ≠ .ok resp) →
          BeginSound (nrBlocks inputBin.length) l := fun hno resp hok ↦ absurd hok (hno resp)
      rw [hgo]
      simp only [Bool.false_eq_true, false_or, Outcome.ok.injEq, false_implies, true_and,
        true_implies]
      exact ⟨fun hall ↦ hall.1, fun hno ↦ ⟨hno, hb hno⟩⟩
  · have ho' : ∀ b, ((spiAttach 0).run rs).outcome ≠ .ok b := fun b hb ↦ ho ⟨b, hb⟩
    rw [(hx.stop ho').1]
    exact ⟨fun _ ↦ ⟨fun hb ↦ absurd hb (ho' true), fun hb ↦ absurd hb (ho' false)⟩,
      fun _ ↦ stopsAtFailure_stop hr⟩

theorem noFalseSuccess_attach (h : inputBin.length < 2 ^ 32) (rs : List (Option UInt8)) :
    NoFalseSuccess (nrBlocks inputBin.length) (talk ((attachAndFlash inputBin).run rs).log) ↔
      AttachSound (nrBlocks inputBin.length) rs := by
  refine ⟨fun hn ↦ (stopsAtFailure_attach h rs).mp hn.stops,
    fun hs ↦ ⟨fun hre ↦ ?_, (stopsAtFailure_attach h rs).mpr hs⟩⟩
  obtain ⟨hx, hox⟩ := spiAttach_asks rs
  have hr : Received attachCommand.cmd _ := received romCommandSpiAttach rs
  rw [attachAndFlash, run_bind] at hre ⊢
  obtain ⟨resp, b, ho, ha, hre, ht⟩ := reboots_method hr hx hox (by decide) hre
  have hg := attachOutcome_ok ha
  have hb := Outcome.bind_eq_ok.mpr ⟨resp, ho, ha⟩
  rw [ht]
  cases b with
  | true =>
    obtain ⟨h₁, h₂, h₃⟩ := answered_flashImage h (hs.1 hb) hre
    exact ⟨allSucceeded_next hr ho (hg.mp rfl) h₁, (allSucceeded_other hr (by decide)).mpr h₂,
      (allSucceeded_other hr (by decide)).mpr h₃⟩
  | false =>
    obtain ⟨resp', hok⟩ := (goesOn_flashImage h _).mp hre.goesOn
    exact absurd hok (hs.2 hb resp')

theorem noFalseSuccess_huge (h : 2 ^ 32 ≤ inputBin.length) (rs : List (Option UInt8)) :
    NoFalseSuccess (nrBlocks inputBin.length) (talk ((attachAndFlash inputBin).run rs).log) := by
  obtain ⟨hx, hox⟩ := spiAttach_asks rs
  have hr : Received attachCommand.cmd _ := received romCommandSpiAttach rs
  have ht : talk ((attachAndFlash inputBin).run rs).log =
      .request attachCommand :: ((recvResponse romCommandSpiAttach).run rs).log := by
    rw [attachAndFlash, run_bind]
    by_cases ho : ∃ b, ((spiAttach 0).run rs).outcome = .ok b
    · obtain ⟨b, ho⟩ := ho
      obtain ⟨-, -, ht, -⟩ := hx.next (k := flashImage inputBin) ho
      rw [ht, run_flashImage_huge h]
      exact congrArg _ (List.append_nil _)
    · exact (hx.stop fun b hb ↦ ho ⟨b, hb⟩).1
  rw [ht]
  exact ⟨fun hre ↦ absurd hre (not_reboots_stop hr (by decide)), stopsAtFailure_stop hr⟩

end Attach

/-- `esp_flash` reports no false success exactly when, once `sync` is through and
the size fits its field, the device fails no command silently. -/
theorem no_false_success_iff {setup : Setup} {inputBin : Bytes}
    (h : setup.contents = some inputBin) (rs : List (Option UInt8)) :
    NoFalseSuccess (nrBlocks inputBin.length) (talk ((espFlash setup).run rs).log) ↔
      (inputBin.length < 2 ^ 32 → ((connect setup).run rs).outcome = .ok () →
        AttachSound (nrBlocks inputBin.length) ((connect setup).run rs).rest) := by
  obtain ⟨tail, hq, hlog⟩ := espFlash_log h rs
  have hsync : ∀ e ∈ talk ((connect setup).run rs).log, e.OfSync :=
    fun e he ↦ ofSync_connect setup rs e (List.mem_of_mem_filter he)
  rw [hlog, talk_append, talk_quiet hq, List.append_nil]
  have htr : (transfer setup inputBin).run rs =
      ((connect setup).run rs).bind fun _ ↦ (attachAndFlash inputBin).run := rfl
  rw [htr]
  generalize (connect setup).run rs = r at hsync ⊢
  obtain ⟨o, l, e⟩ := r
  cases o with
  | ok _ =>
    rw [Result.ok_bind, talk_append, noFalseSuccess_sync hsync]
    by_cases hl : inputBin.length < 2 ^ 32
    · rw [noFalseSuccess_attach hl]
      exact ⟨fun hs _ _ ↦ hs, fun hs ↦ hs hl rfl⟩
    · have hh := noFalseSuccess_huge (by omega : 2 ^ 32 ≤ inputBin.length) l
      exact ⟨fun _ hl' ↦ absurd hl' hl, fun _ ↦ hh⟩
  | raise x | blocked =>
    have hn := (noFalseSuccess_sync (n := nrBlocks inputBin.length) (t := []) hsync).mpr
      ⟨fun ⟨c, hm, _⟩ ↦ absurd hm List.not_mem_nil, trivial⟩
    rw [List.append_nil] at hn
    simpa using hn

def dataRefused : Bytes := [1, 0x03, 2, 0, 0, 0, 0, 0, 1, 5]

/-- Every command is acknowledged but the only block, which the device refuses. -/
def refusedReads : List (Option UInt8) :=
  none :: ackReads 0x08 ++ none :: ackReads 0x0D ++ ackReads 0x02 ++
    (enclose slipEnd [slipEncode dataRefused]).map some ++ [none]

theorem talk_refused : talk ((espFlash twoBytes).run refusedReads).log =
    [.request ⟨romCommandSync, syncData, 0⟩,
      .response romCommandSync (some (ack 0x08)),
      .response romCommandSync none, .request attachCommand,
      .response romCommandSpiAttach (some (ack 0x0D)),
      .request (beginCommand 2), .response romCommandFlashBegin (some (ack 0x02)),
      .request (dataCommand 0 (block [0xC0, 0x41])),
      .response romCommandFlashData (some dataRefused),
      .request endCommand, .response romCommandFlashEnd none] := by
  decide +kernel

theorem no_false_success_iff_refused :
    NoFalseSuccess 1 (talk ((espFlash twoBytes).run refusedReads).log) ↔
      (2 < 2 ^ 32 → ((connect twoBytes).run refusedReads).outcome = .ok () →
        AttachSound 1 ((connect twoBytes).run refusedReads).rest) :=
  @no_false_success_iff twoBytes [0xC0, 0x41] rfl refusedReads

theorem false_success : ¬ ∀ (setup : Setup) (inputBin : Bytes) (rs : List (Option UInt8)),
    setup.contents = some inputBin →
    NoFalseSuccess (nrBlocks inputBin.length) (talk ((espFlash setup).run rs).log) := by
  intro h
  have hn : NoFalseSuccess 1 (talk ((espFlash twoBytes).run refusedReads).log) :=
    h twoBytes [0xC0, 0x41] refusedReads rfl
  rw [talk_refused] at hn
  obtain ⟨-, -, -, hd, -⟩ := hn.stops
  rcases hd (.inr (.inr rfl)) with ⟨p, hp, hst⟩ | hno
  · cases hp
    revert hst
    decide
  · exact hno (.request endCommand) (by simp) (.inr rfl)

end Esp32c6Fw.Espctl
