import Esp32c6Fw.Lib.Transfer
import Esp32c6Fw.Stub.Io

namespace Esp32c6Fw.Stub

open Soc Transfer

/-- The weak `stub_putc`, which a target may override. -/
def weakStubPutc (_c : Byte) : StateM Unit (BitVec 32) := pure (-1)

def ssizeMax : ℕ := 0x7FFFFFFF

structure IoCall where
  fd : BitVec 32
  buf : ℕ → Byte
  n : BitVec 32
  le_max : n.toNat ≤ ssizeMax

variable {S : Type}

abbrev failed (r : BitVec 32) : Bool := r.slt 0

section Write

variable {stubPutc : Byte → StateM S (BitVec 32)} {p : ℕ → Byte} {n i : ℕ} {s : S}

def writeResult (k n : ℕ) : IoResult := ⟨BitVec.ofNat 32 k, if k < n then some .eio else none⟩

theorem writeLoop_at (hi : i < n) :
    writeLoop stubPutc p n (n - i) = stubPutc (p i) >>= fun r ↦
      if failed r then pure (writeResult i n) else writeLoop stubPutc p n (n - (i + 1)) := by
  have hl : n - i = n - (i + 1) + 1 := by omega
  have hj : n - (n - (i + 1) + 1) = i := by omega
  rw [hl, writeLoop, writeResult, if_pos hi, hj]

theorem writeLoop_run (hi : i ≤ n)
    (h : ∀ j < i, failed (answer (fun i ↦ stubPutc (p i)) s j) = false) :
    (writeLoop stubPutc p n (n - i)).run (after (fun i ↦ stubPutc (p i)) s i) =
      (writeResult (untilFailure failed (fun i ↦ stubPutc (p i)) s n) n,
        after (fun i ↦ stubPutc (p i)) s
          (min (untilFailure failed (fun i ↦ stubPutc (p i)) s n + 1) n)) := by
  refine induction_from_end (fun hk ↦ ?_) (fun i hi hf hk ↦ ?_) (fun i hi hf ih ↦ ?_) hi h
  · rw [hk, Nat.sub_self, writeResult, if_neg (Nat.lt_irrefl n), Nat.min_eq_right (Nat.le_succ n)]
    rfl
  · rw [writeLoop_at hi, run_ask_bind (fun i ↦ stubPutc (p i)), if_pos hf, hk,
      Nat.min_eq_left hi]
    rfl
  · rw [writeLoop_at hi, run_ask_bind (fun i ↦ stubPutc (p i)), if_neg (ne_true_of_eq_false hf)]
    exact ih

end Write

section Read

variable {stubGetc : StateM S (BitVec 32)} {buf : ℕ → Byte} {n i : ℕ} {s : S}

/-- The buffer once what came in answer to the requests before `k` is stored. -/
def filled (answers : ℕ → BitVec 32) (buf : ℕ → Byte) (k : ℕ) : ℕ → Byte :=
  fun j ↦ if j < k then (answers j).setWidth 8 else buf j

theorem filled_zero (answers : ℕ → BitVec 32) (buf : ℕ → Byte) : filled answers buf 0 = buf := by
  funext j
  exact if_neg (Nat.not_lt_zero j)

theorem filled_succ (answers : ℕ → BitVec 32) (buf : ℕ → Byte) (k : ℕ) :
    Function.update (filled answers buf k) k ((answers k).setWidth 8) =
      filled answers buf (k + 1) := by
  funext j
  rcases Nat.lt_trichotomy j k with h | rfl | h
  · rw [Function.update_of_ne (by omega), filled, filled, if_pos h, if_pos (by omega)]
  · rw [Function.update_self, filled, if_pos (Nat.lt_succ_self j)]
  · rw [Function.update_of_ne (by omega), filled, filled, if_neg (by omega), if_neg (by omega)]

theorem readLoop_at {b : ℕ → Byte} (hi : i < n) :
    readLoop stubGetc n (n - i) b = stubGetc >>= fun c ↦
      if failed c then pure (⟨BitVec.ofNat 32 i, none⟩, b)
      else readLoop stubGetc n (n - (i + 1)) (Function.update b i (c.setWidth 8)) := by
  have hl : n - i = n - (i + 1) + 1 := by omega
  have hj : n - (n - (i + 1) + 1) = i := by omega
  rw [hl, readLoop, hj]

theorem readLoop_run (hi : i ≤ n)
    (h : ∀ j < i, failed (answer (fun _ ↦ stubGetc) s j) = false) :
    (readLoop stubGetc n (n - i) (filled (answer (fun _ ↦ stubGetc) s) buf i)).run
        (after (fun _ ↦ stubGetc) s i) =
      ((⟨BitVec.ofNat 32 (untilFailure failed (fun _ ↦ stubGetc) s n), none⟩,
          filled (answer (fun _ ↦ stubGetc) s) buf
            (untilFailure failed (fun _ ↦ stubGetc) s n)),
        after (fun _ ↦ stubGetc) s
          (min (untilFailure failed (fun _ ↦ stubGetc) s n + 1) n)) := by
  refine induction_from_end (fun hk ↦ ?_) (fun i hi hf hk ↦ ?_) (fun i hi hf ih ↦ ?_) hi h
  · rw [hk, Nat.sub_self, Nat.min_eq_right (Nat.le_succ n)]
    rfl
  · rw [readLoop_at hi, run_ask_bind (fun _ ↦ stubGetc), if_pos hf, hk, Nat.min_eq_left hi]
    rfl
  · rw [readLoop_at hi, run_ask_bind (fun _ ↦ stubGetc), if_neg (ne_true_of_eq_false hf),
      filled_succ]
    exact ih

end Read

section Calls

variable {T : Type} {stubPutc : Byte → StateM S (BitVec 32)} {stubGetc : StateM T (BitVec 32)}
  {s : S} {t : T} {c : IoCall}

def IoCall.console (c : IoCall) : Prop := c.fd = 1 ∨ c.fd = 2

/-- A call of `write` on a device at `s`, with the bytes it passes to `stub_putc`. -/
def written (stubPutc : Byte → StateM S (BitVec 32)) (s : S) (c : IoCall) :
    IoResult × S × List Byte :=
  (write (fun b ↦ logging b (stubPutc b)) c.fd c.buf c.n).run (s, [])

/-- The bytes of the buffer before the first that `stub_putc` refuses. -/
def accepted (stubPutc : Byte → StateM S (BitVec 32)) (s : S) (c : IoCall) : ℕ :=
  untilFailure failed (fun i ↦ stubPutc (c.buf i)) s c.n.toNat

structure WriteTruthful (stubPutc : Byte → StateM S (BitVec 32)) (s : S) (c : IoCall) : Prop where
  passed : c.console → (written stubPutc s c).2.2 =
    (List.range (min (accepted stubPutc s c + 1) c.n.toNat)).map c.buf
  count : c.console → 0 < accepted stubPutc s c ∨ c.n.toNat = 0 →
    (written stubPutc s c).1.ret.toInt = accepted stubPutc s c
  refused : c.console → 0 < c.n.toNat → accepted stubPutc s c = 0 →
    (written stubPutc s c).1 = ⟨-1, some .eio⟩
  progress : c.console → 0 < c.n.toNat → (written stubPutc s c).1.ret ≠ 0
  other : ¬ c.console → written stubPutc s c = (⟨-1, some .enosys⟩, s, [])

/-- A call of `read`, with the buffer and the device afterwards. -/
def fetched (stubGetc : StateM T (BitVec 32)) (t : T) (c : IoCall) :
    (IoResult × (ℕ → Byte)) × T :=
  (read stubGetc c.fd c.buf c.n).run t

def received (stubGetc : StateM T (BitVec 32)) (t : T) (c : IoCall) : ℕ :=
  untilFailure failed (fun _ ↦ stubGetc) t c.n.toNat

structure ReadTruthful (stubGetc : StateM T (BitVec 32)) (t : T) (c : IoCall) : Prop where
  stored : c.fd = 0 → ∀ i < received stubGetc t c,
    (fetched stubGetc t c).1.2 i = (answer (fun _ ↦ stubGetc) t i).setWidth 8
  untouched : c.fd = 0 → ∀ i, received stubGetc t c ≤ i → (fetched stubGetc t c).1.2 i = c.buf i
  count : c.fd = 0 → (fetched stubGetc t c).1.1.ret.toInt = received stubGetc t c
  other : c.fd ≠ 0 → fetched stubGetc t c = ((⟨-1, some .enosys⟩, c.buf), t)

theorem toInt_count {k : ℕ} (h : k ≤ c.n.toNat) : (BitVec.ofNat 32 k).toInt = k := by
  have hn := c.le_max
  rw [ssizeMax] at hn
  have hk : (BitVec.ofNat 32 k).toNat = k := by
    rw [BitVec.toNat_ofNat]
    exact Nat.mod_eq_of_lt (by omega)
  rw [BitVec.toInt_eq_toNat_of_lt (by omega), hk]

theorem written_console (h : c.console) :
    written stubPutc s c = (writeResult (accepted stubPutc s c) c.n.toNat,
      after (fun i ↦ stubPutc (c.buf i)) s (min (accepted stubPutc s c + 1) c.n.toNat),
      (List.range (min (accepted stubPutc s c + 1) c.n.toNat)).map c.buf) := by
  have hfd : ¬ (c.fd ≠ 1 ∧ c.fd ≠ 2) := fun hn ↦ h.elim hn.1 hn.2
  rw [written, write, if_neg hfd]
  refine (writeLoop_run (Nat.zero_le _) fun j hj ↦ absurd hj (Nat.not_lt_zero j)).trans ?_
  rw [untilFailure_logging, after_logging]
  rfl

theorem written_other (h : ¬ c.console) :
    written stubPutc s c = (⟨-1, some .enosys⟩, s, []) := by
  have hfd : c.fd ≠ 1 ∧ c.fd ≠ 2 := not_or.mp h
  rw [written, write, if_pos hfd]
  rfl

theorem fetched_stdin (h : c.fd = 0) :
    fetched stubGetc t c = ((⟨BitVec.ofNat 32 (received stubGetc t c), none⟩,
      filled (answer (fun _ ↦ stubGetc) t) c.buf (received stubGetc t c)),
      after (fun _ ↦ stubGetc) t (min (received stubGetc t c + 1) c.n.toNat)) := by
  rw [fetched, read, if_neg (not_not_intro h)]
  conv_lhs => rw [← filled_zero (answer (fun _ ↦ stubGetc) t) c.buf]
  exact readLoop_run (Nat.zero_le _) fun j hj ↦ absurd hj (Nat.not_lt_zero j)

theorem read_truthful (stubGetc : StateM T (BitVec 32)) (t : T) (c : IoCall) :
    ReadTruthful stubGetc t c where
  stored h i hi := by
    rw [fetched_stdin h]
    exact if_pos hi
  untouched h i hi := by
    rw [fetched_stdin h]
    exact if_neg (by omega)
  count h := by
    rw [fetched_stdin h]
    exact toInt_count untilFailure_le
  other h := by
    rw [fetched, read, if_pos h]
    rfl

theorem write_truthful (h : ¬ c.console ∨ c.n.toNat = 0 ∨ 0 < accepted stubPutc s c) :
    WriteTruthful stubPutc s c where
  passed hc := by rw [written_console hc]
  count hc _ := by
    rw [written_console hc]
    exact toInt_count untilFailure_le
  refused hc hn h₀ := by
    rcases h with h | h | h
    · exact absurd hc h
    · omega
    · omega
  progress hc hn h₀ := by
    rw [written_console hc] at h₀
    have hk : (writeResult (accepted stubPutc s c) c.n.toNat).ret.toInt = accepted stubPutc s c :=
      toInt_count untilFailure_le
    have hz : (0 : BitVec 32).toInt = 0 := rfl
    rw [h₀, hz] at hk
    rcases h with h | h | h
    · exact absurd hc h
    · omega
    · omega
  other hc := written_other hc

/-- The calls report as they should exactly when `stub_putc` does not refuse the first of the
bytes of `write`: there it sets EIO, but returns a count of 0 and not -1. -/
theorem transfers_truthful_iff (stubPutc : Byte → StateM S (BitVec 32))
    (stubGetc : StateM T (BitVec 32)) (s : S) (t : T) (w r : IoCall) :
    WriteTruthful stubPutc s w ∧ ReadTruthful stubGetc t r ↔
      ¬ w.console ∨ w.n.toNat = 0 ∨ failed ((stubPutc (w.buf 0)).run s).1 = false := by
  constructor
  · intro ⟨hw, _⟩
    by_contra! h
    obtain ⟨hc, hn, hf⟩ := h
    have hpos : 0 < w.n.toNat := Nat.pos_of_ne_zero hn
    have h₀ : accepted stubPutc s w = 0 :=
      (untilFailure_eq_zero hpos).mpr ((Bool.not_eq_false _).mp hf)
    apply hw.progress hc hpos
    rw [written_console hc, h₀]
    rfl
  · intro h
    refine ⟨write_truthful ?_, read_truthful stubGetc t r⟩
    rcases h with h | h | h
    · exact .inl h
    · exact .inr (.inl h)
    · rcases Nat.eq_zero_or_pos w.n.toNat with hn | hn
      · exact .inr (.inl hn)
      · refine .inr (.inr (Nat.pos_of_ne_zero fun h₀ ↦ ?_))
        exact Bool.false_ne_true (h.symm.trans ((untilFailure_eq_zero hn).mp h₀))

end Calls

def writeA : IoCall where
  fd := 1
  buf _ := 0x41
  n := 1
  le_max := by decide

/-- Without a `stub_putc` of the target the count is 0 every time. -/
theorem write_reports_nothing : ¬ WriteTruthful weakStubPutc () writeA := by
  intro h
  exact h.progress (.inl rfl) (by decide) (by decide)

end Esp32c6Fw.Stub
