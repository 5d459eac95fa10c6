import Esp32c6Fw.Espctl.Connect

namespace Esp32c6Fw.Espctl

open Script

inductive AttemptEnd
  | silent
  | cut
  | refused
  | synced
  deriving DecidableEq

/-- Whole answers to `sync` up to a timeout inside a frame. -/
inductive Severed : Line → Line → Prop
  | cut {rs l : Line} : nextReply rs = some (.cut, l) → Severed rs l
  | answer {rs l l' : Line} {f p : Bytes} : nextReply rs = some (.frame f, l) →
      accept romCommandSync f = .ok p → Severed l l' → Severed rs l'

/-- What one attempt finds on the line, if it finds no malformed response. -/
inductive Attempt : Line → AttemptEnd → Line → Prop
  | silent {rs l : Line} : nextReply rs = some (.silent, l) → Attempt rs .silent l
  | cut {rs l : Line} : nextReply rs = some (.cut, l) → Attempt rs .cut l
  | refused {rs l : Line} {f p : Bytes} : nextReply rs = some (.frame f, l) →
      accept romCommandSync f = .ok p → 10 ≤ p.length → p[8]? ≠ some 0 → Attempt rs .refused l
  | synced {rs l l' : Line} {f p : Bytes} : nextReply rs = some (.frame f, l) →
      accept romCommandSync f = .ok p → 10 ≤ p.length → p[8]? = some 0 → Drained l l' →
      Attempt rs .synced l'
  | severed {rs l l' : Line} {f p : Bytes} : nextReply rs = some (.frame f, l) →
      accept romCommandSync f = .ok p → 10 ≤ p.length → p[8]? = some 0 → Severed l l' →
      Attempt rs .cut l'

/-- This many attempts in a row end without success. -/
inductive Attempts : ℕ → Line → Line → Prop
  | nil {rs : Line} : Attempts 0 rs rs
  | cons {k : ℕ} {rs l l' : Line} {e : AttemptEnd} : Attempt rs e l → e ≠ .synced →
      Attempts k l l' → Attempts (k + 1) rs l'

def syncPacket : Bytes := (⟨romCommandSync, syncData, 0⟩ : Command).packet

def syncsSent (log : List Event) : ℕ := log.count (.write (slipEncode syncPacket))

def syncFailure : Error := .runtimeError "Failed to sync with ESP32C6 ROM Loader"

/-- The retries that `sync` is written for: each attempt that fails by silence, by a timeout
inside a frame or by its status is followed by another one, up to ten. What is raised with
nothing read after such a timeout is the failure of all ten. -/
structure RetriesAsDesigned (rs : Line) : Prop where
  again : ∀ k l, k < 10 → Attempts k rs l → k < syncsSent (sync.run rs).log
  atMost : syncsSent (sync.run rs).log ≤ 10
  returned : ∀ b l, Returns sync rs b l →
    b = true ∧ ∃ k l₁, k < 10 ∧ Attempts k rs l₁ ∧ Attempt l₁ .synced l
  exhausted : ∀ l, Attempts 10 rs l → (sync.run rs).outcome = .raise syncFailure
  reported : ∀ k l₁ l x, k < 10 → Attempts k rs l₁ → Attempt l₁ .cut l →
    (sync.run rs).outcome = .raise x → (sync.run rs).rest = l → x = syncFailure

def Uncut (n : ℕ) (rs : Line) : Prop := ∀ k l₁ l, k < n → Attempts k rs l₁ → ¬Attempt l₁ .cut l

variable {rs l l' : Line} {n k : ℕ}

section Log

theorem syncsSent_append (log log' : List Event) :
    syncsSent (log ++ log') = syncsSent log + syncsSent log' := List.count_append

def NotRequest (e : Event) : Prop := e ≠ .write (slipEncode syncPacket)

theorem syncsSent_eq_zero {log : List Event} (h : ∀ e ∈ log, NotRequest e) : syncsSent log = 0 :=
  List.count_eq_zero.mpr fun hm ↦ h _ hm rfl

theorem notRequest_recvResponse (cmd : ℕ) : LogAll NotRequest (recvResponse cmd) := by
  intro l e he
  obtain ⟨p, rfl⟩ := received_log (received cmd l) e he
  exact Event.noConfusion

theorem notRequest_syncDrain : LogAll NotRequest syncDrain := by
  refine logAll_loop (fun _ ↦ (notRequest_recvResponse _).bind fun resp ↦ ?_) ()
  cases resp <;> exact logAll_pure _

theorem notRequest_syncStatus (resp : Option Bytes) : LogAll NotRequest (syncStatus resp) := by
  cases resp with
  | none => exact logAll_pure _
  | some resp =>
    refine (logAll_ofExcept _).bind fun status ↦ (logAll_ofExcept _).bind fun error ↦ ?_
    by_cases hs : status ≠ 0
    · rw [if_pos hs]
      exact (logAll_emit Event.noConfusion).bind fun _ ↦ logAll_pure _
    · rw [if_neg hs]
      exact notRequest_syncDrain.bind fun _ ↦ logAll_pure _

theorem syncsSent_syncTurn (rs : Line) : syncsSent (syncTurn.run rs).log = 1 := by
  have hrest := (notRequest_recvResponse romCommandSync).bind notRequest_syncStatus
  have hsent : (sendCommand ⟨romCommandSync, syncData, 0⟩).run rs = _ :=
    run_sendCommand syncCommand_fits
  rw [syncTurn_eq, log_reraise, run_bind, hsent, Result.ok_bind, syncsSent_append,
    syncsSent_eq_zero (hrest rs)]
  rfl

end Log

section Runs

theorem raises_of_cut {cmd : ℕ} (h : nextReply rs = some (.cut, l)) :
    ∃ x, Raises (recvResponse cmd) rs x l :=
  ⟨_, (recvResponse_run cmd rs).2 _ _ h⟩

theorem raises_syncDrain (h : Severed rs l) : ∃ x, Raises syncDrain rs x l := by
  induction h with
  | cut hn =>
    obtain ⟨x, hx⟩ := raises_of_cut hn
    exact ⟨x, (raises_loop fun _ ↦ consumes_syncDrop).mpr (Or.inl (raises_bind.mpr (Or.inl hx)))⟩
  | answer hn ha _ ih =>
    obtain ⟨x, hx⟩ := ih
    have hdrop := returns_syncDrop.mpr (Or.inr ⟨_, _, hn, ha, rfl⟩)
    exact ⟨x, (raises_loop fun _ ↦ consumes_syncDrop).mpr (Or.inr ⟨(), _, hdrop, hx⟩)⟩

theorem raises_syncStatus {p : Bytes} (hl : 10 ≤ p.length) (hp : p[8]? = some 0)
    (h : Severed rs l) : ∃ x, Raises (syncStatus (some p)) rs x l := by
  obtain ⟨x, hx⟩ := raises_syncDrain h
  have h₉ : p[9]? = some p[9] := List.getElem?_eq_getElem (by omega)
  refine ⟨x, ?_⟩
  simp only [syncStatus, raises_bind, returns_ofExcept, index_eq_ok, hp, h₉]
  refine Or.inr ⟨0, rs, ⟨rfl, rfl⟩, Or.inr ⟨_, rs, ⟨rfl, rfl⟩, ?_⟩⟩
  rw [if_neg (not_not.mpr rfl)]
  exact raises_bind.mpr (Or.inl hx)

/-- A timeout inside a frame leaves `sync` at once, by the name of an exception that is not
imported. -/
theorem raises_syncTurn (h : Attempt rs .cut l) :
    Raises syncTurn rs (.nameError "SerialTimeoutException") l := by
  have hsend : Returns (sendCommand ⟨romCommandSync, syncData, 0⟩) rs () rs :=
    (returns_sendCommand syncCommand_fits).mpr rfl
  have hinner : ∃ x, Raises (recvResponse romCommandSync >>= syncStatus) rs x l := by
    cases h with
    | cut hn =>
      obtain ⟨x, hx⟩ := raises_of_cut hn
      exact ⟨x, raises_bind.mpr (Or.inl hx)⟩
    | severed hn ha hl hp hs =>
      obtain ⟨x, hx⟩ := raises_syncStatus hl hp hs
      have hrecv := returns_recvResponse.mpr ⟨_, hn, answer_eq_some.mpr ⟨_, rfl, ha⟩⟩
      exact ⟨x, raises_bind.mpr (Or.inr ⟨_, _, hrecv, hx⟩)⟩
  obtain ⟨x, hx⟩ := hinner
  rw [syncTurn_eq]
  exact raises_reraise.mpr ⟨rfl, x, raises_bind.mpr (Or.inr ⟨(), rs, hsend, hx⟩)⟩

theorem returns_of_attempt {e : AttemptEnd} (h : Attempt rs e l) (he : e ≠ .cut) :
    Returns syncTurn rs (e = .synced) l := by
  apply returns_syncTurn.mpr
  cases h with
  | silent hn => exact Or.inl ⟨hn, rfl⟩
  | refused hn ha hl hp => exact Or.inr ⟨_, _, _, hn, ha, hl, Or.inl ⟨hp, rfl, rfl⟩⟩
  | synced hn ha hl hp hd => exact Or.inr ⟨_, _, _, hn, ha, hl, Or.inr ⟨hp, rfl, hd⟩⟩
  | cut | severed => exact absurd rfl he

theorem Uncut.tail {e : AttemptEnd} (h : Uncut (n + 1) rs) (ha : Attempt rs e l)
    (he : e ≠ .synced) : e ≠ .cut ∧ Uncut n l := by
  constructor
  · rintro rfl
    exact h 0 rs l (by omega) .nil ha
  · intro k l₁ l₂ hk hs
    exact h (k + 1) l₁ l₂ (by omega) (.cons ha he hs)

theorem syncTurns_retry (h : Returns syncTurn rs false l) (n : ℕ) :
    ((syncTurns (n + 1)).run rs).outcome = ((syncTurns n).run l).outcome ∧
      ((syncTurns (n + 1)).run rs).rest = ((syncTurns n).run l).rest ∧
      syncsSent ((syncTurns (n + 1)).run rs).log = syncsSent ((syncTurns n).run l).log + 1 := by
  have hone := syncsSent_syncTurn rs
  obtain ⟨ho, hr⟩ := h
  rw [syncTurns, run_bind]
  generalize syncTurn.run rs = r at ho hr hone ⊢
  obtain ⟨o, l₁, log⟩ := r
  simp only at ho hr hone
  rw [ho, hr, Result.ok_bind, syncsSent_append, hone]
  exact ⟨rfl, rfl, Nat.add_comm ..⟩

theorem syncsSent_le (n : ℕ) (rs : Line) : syncsSent ((syncTurns n).run rs).log ≤ n := by
  induction n generalizing rs with
  | zero => exact le_rfl
  | succ n ih =>
    have hone := syncsSent_syncTurn rs
    rw [syncTurns, run_bind]
    generalize syncTurn.run rs = r at hone ⊢
    obtain ⟨o, l, log⟩ := r
    simp only at hone
    cases o with
    | raise x | blocked =>
      simp only [Result.raise_bind, Result.blocked_bind, hone]
      omega
    | ok b =>
      rw [Result.ok_bind, syncsSent_append, hone]
      cases b with
      | true =>
        rw [if_pos rfl, run_pure]
        exact Nat.le_add_left 1 n
      | false =>
        have := ih l
        rw [if_neg Bool.false_ne_true]
        omega

theorem syncsSent_pos (n : ℕ) (rs : Line) : 0 < syncsSent ((syncTurns (n + 1)).run rs).log := by
  have hone := syncsSent_syncTurn rs
  have hp := Result.log_prefix_bind (syncTurn.run rs) fun b ↦
    (if b = true then pure true else syncTurns n : Host Bool).run
  obtain ⟨tail, ht⟩ := hp
  rw [syncTurns, run_bind, ← ht, syncsSent_append, hone]
  omega

theorem syncTurns_attempts (h : Attempts k rs l) (hu : Uncut k rs) (n : ℕ) :
    ((syncTurns (n + k)).run rs).outcome = ((syncTurns n).run l).outcome ∧
      syncsSent ((syncTurns (n + k)).run rs).log = syncsSent ((syncTurns n).run l).log + k := by
  induction h with
  | nil => exact ⟨rfl, rfl⟩
  | cons ha he _ ih =>
    obtain ⟨hne, htail⟩ := hu.tail ha he
    have hret := returns_of_attempt ha hne
    rw [decide_eq_false he] at hret
    obtain ⟨ho, -, hs⟩ := syncTurns_retry hret (n + _)
    obtain ⟨ho', hs'⟩ := ih htail
    rw [← Nat.add_assoc, ho, hs, ho', hs']
    exact ⟨rfl, Nat.add_assoc ..⟩

theorem raises_syncTurns {l₁ : Line} (h : Attempts k rs l₁) (hc : Attempt l₁ .cut l)
    (hk : k < n) : ∃ j l₂ l', j < n ∧ Attempts j rs l₂ ∧ Attempt l₂ .cut l' ∧
      Raises (syncTurns n) rs (.nameError "SerialTimeoutException") l' := by
  induction h generalizing n with
  | nil =>
    obtain ⟨n, rfl⟩ := Nat.exists_eq_add_of_lt hk
    exact ⟨0, _, _, hk, .nil, hc, raises_bind.mpr (Or.inl (raises_syncTurn hc))⟩
  | @cons k rs l₂ _ e ha he _ ih =>
    obtain ⟨n, rfl⟩ : ∃ m, n = m + 1 := ⟨n - 1, by omega⟩
    by_cases hcut : e = .cut
    · subst hcut
      exact ⟨0, _, _, by omega, .nil, ha, raises_bind.mpr (Or.inl (raises_syncTurn ha))⟩
    obtain ⟨j, l₃, l', hj, hs, hc', hx⟩ := ih (n := n) hc (by omega)
    have hret := returns_of_attempt ha hcut
    rw [decide_eq_false he] at hret
    exact ⟨j + 1, l₃, l', by omega, .cons ha he hs, hc',
      raises_bind.mpr (Or.inr ⟨false, l₂, hret, hx⟩)⟩

theorem run_sync (rs : Line) : (sync.run rs).outcome = ((syncTurns 10).run rs).outcome ∧
    (sync.run rs).rest = ((syncTurns 10).run rs).rest ∧
    syncsSent (sync.run rs).log = syncsSent ((syncTurns 10).run rs).log := by
  have hprint : (print "[ESPCTL] SYNC").run rs = ⟨.ok (), rs, [.print "[ESPCTL] SYNC"]⟩ := rfl
  rw [sync, run_bind, hprint, Result.ok_bind, syncsSent_append]
  exact ⟨rfl, rfl, Nat.zero_add _⟩

theorem attempts_of_synced (h : Synced n rs l) :
    ∃ k l₁, k < n ∧ Attempts k rs l₁ ∧ Attempt l₁ .synced l := by
  induction h with
  | silent hn _ ih =>
    obtain ⟨k, l₁, hk, hs, ha⟩ := ih
    exact ⟨k + 1, l₁, by omega, .cons (.silent hn) AttemptEnd.noConfusion hs, ha⟩
  | refused hn ha hl hp _ ih =>
    obtain ⟨k, l₁, hk, hs, ha'⟩ := ih
    exact ⟨k + 1, l₁, by omega, .cons (.refused hn ha hl hp) AttemptEnd.noConfusion hs, ha'⟩
  | answered hn ha hl hp hd => exact ⟨0, _, by omega, .nil, .synced hn ha hl hp hd⟩

end Runs

theorem Uncut.mono (h : Uncut n rs) (hk : k ≤ n) : Uncut k rs :=
  fun j l₁ l hj ↦ h j l₁ l (by omega)

/-- `sync` retries as it is written to until a timeout inside a frame comes. -/
theorem retriesAsDesigned_iff (rs : Line) : RetriesAsDesigned rs ↔ Uncut 10 rs := by
  obtain ⟨ho, hr, hs⟩ := run_sync rs
  constructor
  · intro hd k l₁ l hk hchain hc
    obtain ⟨j, l₂, l', hj, hchain', hc', hx, hl⟩ := raises_syncTurns hchain hc hk
    have he := hd.reported j l₂ l' _ hj hchain' hc' (ho.trans hx) (hr.trans hl)
    cases he
  · intro hu
    refine ⟨fun k l hk hchain ↦ ?_, ?_, fun b l hret ↦ ?_, fun l hchain ↦ ?_,
      fun k l₁ l x hk hchain hc ↦ absurd hc (hu k l₁ l hk hchain)⟩
    · obtain ⟨m, hm⟩ : ∃ m, 10 = m + 1 + k := ⟨9 - k, by omega⟩
      have hsent := (syncTurns_attempts hchain (hu.mono hk.le) (m + 1)).2
      have hpos := syncsSent_pos m l
      rw [hs, hm, hsent]
      omega
    · rw [hs]
      exact syncsSent_le 10 rs
    · obtain ⟨hb, hsynced⟩ := returns_syncTurns.mp ⟨ho.symm.trans hret.1, hr.symm.trans hret.2⟩
      exact ⟨hb, attempts_of_synced hsynced⟩
    · rw [ho]
      exact (syncTurns_attempts hchain hu 0).1

/-- One byte of a response, and then nothing. -/
theorem sync_crashes :
    Attempt [some 0x01, none] .cut [] ∧
      (sync.run [some 0x01, none]).outcome = .raise (.nameError "SerialTimeoutException") ∧
      syncsSent (sync.run [some 0x01, none]).log = 1 ∧ ¬RetriesAsDesigned [some 0x01, none] := by
  have hc : Attempt [some 0x01, none] .cut [] := .cut rfl
  obtain ⟨ho, hr, -⟩ := run_sync [some 0x01, none]
  obtain ⟨hx, hl⟩ : Raises (syncTurns 10) [some 0x01, none]
      (.nameError "SerialTimeoutException") [] := raises_bind.mpr (Or.inl (raises_syncTurn hc))
  refine ⟨hc, ho.trans hx, by decide +kernel, ?_⟩
  intro hd
  have he := hd.reported 0 _ [] _ (by omega) .nil hc (ho.trans hx) (hr.trans hl)
  cases he

end Esp32c6Fw.Espctl
