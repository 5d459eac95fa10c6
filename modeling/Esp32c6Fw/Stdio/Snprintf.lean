import Esp32c6Fw.Lib.Memory
import Esp32c6Fw.Stdio.Conforming

namespace Esp32c6Fw.Stdio

open Formatted Output Rv32 Soc

structure FileStr where
  pos : Addr
  bufEnd : Addr

def fileStrPut (c : Byte) : StateM (FileStr × Mem) Word := fun (f, m) ↦
  if f.pos ≠ f.bufEnd then
    (c.setWidth 32, { f with pos := f.pos + 1 }, Function.update m f.pos c)
  else (c.setWidth 32, f, m)

/-- `FDEV_STRING_WRITE_END` -/
def stringWriteEnd (s n : Word) : Addr :=
  if n.slt 0 then 0 else if n ≠ 0 then s + n - 1 else s

variable (vfprintfFloat : Spec → Byte → BitVec 64 → Output Byte ℤ)

def vsnprintf (s n : Word) (fmt : CString) (ap : VaList) : StateM Mem (Option Word) := fun m ↦
  let r := (vfprintf vfprintfFloat fileStrPut swr fmt ap).run (⟨s, stringWriteEnd s n⟩, m)
  let m := if n ≠ 0 then Function.update r.2.2 r.2.1.pos 0 else r.2.2
  (r.1.1, m)

def StringAt (m : Mem) (p : Addr) (bs : List Byte) : Prop :=
  ∀ i b, (bs ++ [0])[i]? = some b → m (p + BitVec.ofNat 32 i) = b

def stored (r : FileStr × Mem) (c : Byte) : FileStr × Mem :=
  if r.1.pos ≠ r.1.bufEnd then ({ r.1 with pos := r.1.pos + 1 }, Function.update r.2 r.1.pos c)
  else r

theorem setWidth_not_slt (c : Byte) : (c.setWidth 32).slt 0 = false := by
  have hs : (c.setWidth 32).slt 0 = decide ((c.setWidth 32).toInt < 0) := rfl
  have hc := c.isLt
  rw [hs, decide_eq_false_iff_not, BitVec.toInt_eq_toNat_cond, BitVec.toNat_setWidth]
  split <;> omega

theorem refuses_fileStrPut (c : Byte) (r : FileStr × Mem) :
    (refuses fileStrPut c).run r = (false, stored r c) := by
  obtain ⟨f, m⟩ := r
  have hput : fileStrPut c (f, m) = (c.setWidth 32, stored (f, m) c) := by
    rw [fileStrPut, stored]
    split <;> rfl
  have hrun : (refuses fileStrPut c).run (f, m) =
      ((fileStrPut c (f, m)).1.slt 0, (fileStrPut c (f, m)).2) := rfl
  rw [hrun, hput, setWidth_not_slt]

/-- The buffer once these characters have come to it, the first of them `k` behind its start. -/
def bufferAfter (m : Mem) (s : Addr) (k cap : ℕ) (bs : List Byte) : Mem := fun a ↦
  let i := (a - s).toNat
  if k ≤ i ∧ i < min (k + bs.length) cap then (bs[i - k]?).getD 0 else m a

theorem bufferAfter_full (m : Mem) (s : Addr) {k cap : ℕ} (h : cap ≤ k) (bs : List Byte) :
    bufferAfter m s k cap bs = m := by
  funext a
  exact if_neg (by omega)

theorem bufferAfter_nil (m : Mem) (s : Addr) (k cap : ℕ) : bufferAfter m s k cap [] = m := by
  funext a
  exact if_neg (by simp only [List.length_nil]; omega)

theorem bufferAfter_cons {s : Addr} {k cap : ℕ} (hcap : s.toNat + cap < 2 ^ 32) (hk : k < cap)
    (m : Mem) (c : Byte) (bs : List Byte) :
    bufferAfter (Function.update m (s + BitVec.ofNat 32 k) c) s (k + 1) cap bs =
      bufferAfter m s k cap (c :: bs) := by
  funext a
  have ha : a = s + BitVec.ofNat 32 k ↔ (a - s).toNat = k := by
    rw [← BitVec.toNat_inj, BitVec.toNat_add, BitVec.toNat_sub, BitVec.toNat_ofNat]
    have h := a.isLt
    omega
  simp only [bufferAfter, List.length_cons]
  by_cases hi : (a - s).toNat = k
  · rw [if_neg (by omega), if_pos (by omega), ha.mpr hi, Function.update_self, ← ha.mpr hi, hi,
      Nat.sub_self]
    rfl
  · rw [Function.update_of_ne (fun h ↦ hi (ha.mp h))]
    have hcond : (k + 1 ≤ (a - s).toNat ∧ (a - s).toNat < min (k + 1 + bs.length) cap) ↔
        (k ≤ (a - s).toNat ∧ (a - s).toNat < min (k + (bs.length + 1)) cap) := by omega
    simp only [hcond]
    split
    next h =>
      have hs : (a - s).toNat - k = (a - s).toNat - (k + 1) + 1 := by omega
      rw [hs, List.getElem?_cons_succ]
    next => rfl

theorem foldl_stored {s : Addr} {cap k : ℕ} (hcap : s.toNat + cap < 2 ^ 32) (hk : k ≤ cap)
    (bs : List Byte) (m : Mem) :
    bs.foldl stored (⟨s + BitVec.ofNat 32 k, s + BitVec.ofNat 32 cap⟩, m) =
      (⟨s + BitVec.ofNat 32 (min (k + bs.length) cap), s + BitVec.ofNat 32 cap⟩,
        bufferAfter m s k cap bs) := by
  induction bs generalizing k m with
  | nil => rw [bufferAfter_nil, List.foldl_nil, List.length_nil, Nat.add_zero, min_eq_left hk]
  | cons c bs ih =>
    rw [List.foldl_cons, stored]
    by_cases hlt : k < cap
    · have hne : s + BitVec.ofNat 32 k ≠ s + BitVec.ofNat 32 cap := by
        rw [ne_eq, ← BitVec.toNat_inj, BitVec.toNat_add, BitVec.toNat_add, BitVec.toNat_ofNat,
          BitVec.toNat_ofNat]
        omega
      have hnext : s + BitVec.ofNat 32 k + 1 = s + BitVec.ofNat 32 (k + 1) := by
        rw [BitVec.ofNat_add, ← BitVec.add_assoc]
        rfl
      have hlen : k + 1 + bs.length = k + (c :: bs).length := by
        rw [List.length_cons]
        omega
      have hrec := ih hlt (Function.update m (s + BitVec.ofNat 32 k) c)
      rw [bufferAfter_cons hcap hlt, hlen, ← hnext] at hrec
      rw [if_pos hne]
      exact hrec
    · obtain rfl : k = cap := by omega
      have hrec := ih le_rfl m
      rw [bufferAfter_full m s le_rfl, min_eq_right (by omega)] at hrec
      rw [if_neg (fun h ↦ h rfl), bufferAfter_full m s le_rfl, min_eq_right (by omega)]
      exact hrec

variable {vfprintfFloat} {fmt : CString} {ap : VaList} {bs : Text} {s n : Word} {m : Mem}

theorem vfprintf_accepting (r : FileStr × Mem) :
    (vfprintf vfprintfFloat fileStrPut swr fmt ap).run r =
      let p := format vfprintfFloat fmt ap
      (vfprintfResult swr (p.ending, p.chars.length), p.chars.foldl stored r) := by
  rw [run_vfprintf vfprintfFloat (by decide), run_accepting refuses_fileStrPut, Nat.zero_add]

theorem stringWriteEnd_eq (hn : n.toNat < 2 ^ 31) :
    stringWriteEnd s n = s + BitVec.ofNat 32 (n.toNat - 1) := by
  have hslt : n.slt 0 = false := by
    have hs : n.slt 0 = decide (n.toInt < 0) := rfl
    rw [hs, decide_eq_false_iff_not, BitVec.toInt_eq_toNat_cond]
    split <;> omega
  have h0 : n = 0 ↔ n.toNat = 0 := BitVec.toNat_eq
  rw [stringWriteEnd, hslt]
  by_cases hz : n = 0
  · simp [hz]
  · simp only [Bool.false_eq_true, if_false, hz, not_false_eq_true, if_true, ne_eq]
    apply BitVec.eq_of_toNat_eq
    have hpos : n.toNat ≠ 0 := fun h ↦ hz (h0.mpr h)
    have h1 : (1 : Word).toNat = 1 := rfl
    simp only [BitVec.toNat_add, BitVec.toNat_sub, BitVec.toNat_ofNat, h1]
    omega

theorem vsnprintf_run (hn : n.toNat < 2 ^ 31) (hs : s.toNat + n.toNat ≤ 2 ^ 32) :
    (vsnprintf vfprintfFloat s n fmt ap).run m =
      let p := format vfprintfFloat fmt ap
      let m' := bufferAfter m s 0 (n.toNat - 1) p.chars
      ((vfprintfResult swr (p.ending, p.chars.length)).1,
        if n ≠ 0 then
          Function.update m' (s + BitVec.ofNat 32 (min p.chars.length (n.toNat - 1))) 0
        else m') := by
  have hcap : s.toNat + (n.toNat - 1) < 2 ^ 32 := by
    have h := s.isLt
    omega
  have hstart : s = s + BitVec.ofNat 32 0 := (BitVec.add_zero s).symm
  have hfold := foldl_stored hcap (Nat.zero_le _) (format vfprintfFloat fmt ap).chars m
  rw [← hstart, Nat.zero_add] at hfold
  have hrun := @vfprintf_accepting vfprintfFloat fmt ap (⟨s, stringWriteEnd s n⟩, m)
  rw [stringWriteEnd_eq hn] at hrun
  simp only [hfold] at hrun
  change ((_, _) : Option Word × Mem) = _
  rw [stringWriteEnd_eq hn, hrun]

theorem toNat_sub_start (s : Addr) {k : ℕ} (hk : k < 2 ^ 32) :
    (s + BitVec.ofNat 32 k - s).toNat = k := by
  have hs : s + BitVec.ofNat 32 k - s = BitVec.ofNat 32 k := by
    rw [BitVec.add_comm, BitVec.add_sub_cancel]
  rw [hs, BitVec.toNat_ofNat, Nat.mod_eq_of_lt hk]

theorem stringAt_buffer {cap : ℕ} (hcap : cap < 2 ^ 32) (m : Mem) (s : Addr) (bs : Text) :
    StringAt (Function.update (bufferAfter m s 0 cap bs)
      (s + BitVec.ofNat 32 (min bs.length cap)) 0) s (bs.take cap) := by
  intro i b hb
  have hlen : (bs.take cap).length = min bs.length cap := by
    rw [List.length_take, Nat.min_comm]
  have hi : i ≤ min bs.length cap := by
    have h := (List.getElem?_eq_some_iff.mp hb).1
    rw [List.length_append, hlen] at h
    exact Nat.le_of_lt_succ h
  have hsub := toNat_sub_start s (show i < 2 ^ 32 by omega)
  rcases Nat.lt_or_eq_of_le hi with hlt | rfl
  · have hne : s + BitVec.ofNat 32 i ≠ s + BitVec.ofNat 32 (min bs.length cap) := by
      intro h
      have hsub' := toNat_sub_start s (show min bs.length cap < 2 ^ 32 by omega)
      rw [← h, hsub] at hsub'
      omega
    rw [List.getElem?_append_left (by omega), List.getElem?_take_of_lt (by omega)] at hb
    rw [Function.update_of_ne hne]
    simp only [bufferAfter, hsub]
    rw [if_pos (by omega), Nat.sub_zero, hb]
    rfl
  · rw [List.getElem?_append_right (by omega), hlen, Nat.sub_self] at hb
    cases hb
    exact Function.update_self ..

theorem sameOutside_buffer {cap : ℕ} (hn : cap < n.toNat) (hs : s.toNat + n.toNat ≤ 2 ^ 32)
    (m : Mem) (bs : Text) :
    SameOutside (Set.Ico s.toNat (s.toNat + n.toNat)) m (bufferAfter m s 0 cap bs) := by
  intro a ha
  refine if_neg fun h ↦ ha ?_
  have hlt : (a - s).toNat < n.toNat := by omega
  exact (toNat_sub_lt_iff hs).mp hlt

/-- `vsnprintf` stays in its buffer, whatever the format and the arguments: with `n` bytes for it
nothing outside them changes. A call with a meaning returns the number of all the characters,
and as many of them as fit are there as a string. -/
theorem vsnprintf_bounded (hn : n.toNat < 2 ^ 31) (hs : s.toNat + n.toNat ≤ 2 ^ 32)
    (fmt : CString) (ap : VaList) (m : Mem) :
    SameOutside (Set.Ico s.toNat (s.toNat + n.toNat)) m
        ((vsnprintf vfprintfFloat s n fmt ap).run m).2 ∧
      ∀ bs, (format vfprintfFloat fmt ap).Yields bs () → bs.length < 2 ^ 31 →
        ((vsnprintf vfprintfFloat s n fmt ap).run m).1 = some (BitVec.ofNat 32 bs.length) ∧
        (n ≠ 0 → StringAt ((vsnprintf vfprintfFloat s n fmt ap).run m).2 s
          (bs.take (n.toNat - 1))) := by
  have h0 : n = 0 ↔ n.toNat = 0 := BitVec.toNat_eq
  rw [vsnprintf_run hn hs]
  refine ⟨?_, fun bs h hlen ↦ ⟨?_, fun hnz ↦ ?_⟩⟩
  · dsimp only
    generalize (format vfprintfFloat fmt ap).chars = bs
    by_cases hz : n = 0
    · have hcap : n.toNat - 1 = 0 := by
        rw [h0.mp hz]
      rw [if_neg (fun h ↦ h hz), bufferAfter_full m s hcap.le]
      exact SameOutside.refl _ m
    · have hpos : 0 < n.toNat := Nat.pos_of_ne_zero fun h ↦ hz (h0.mpr h)
      rw [if_pos hz]
      refine (sameOutside_buffer (show n.toNat - 1 < n.toNat by omega) hs m bs).trans
        fun a ha ↦ ?_
      refine Function.update_of_ne (fun h ↦ ha ?_) ..
      refine (toNat_sub_lt_iff hs).mp ?_
      rw [h, toNat_sub_start s (by omega)]
      omega
  · simp only [h.ending_eq, h.1, vfprintfResult, if_pos hlen]
  · simp only [if_pos hnz, h.1]
    exact stringAt_buffer (by omega) m s bs

theorem vsnprintf_bounded_small :
    let r := (vsnprintf (fun _ _ _ ↦ .undefined) 0x40800000 4 smallCall.fmt smallCall.args).run
      fun _ ↦ 0xff
    SameOutside (Set.Ico 0x40800000 0x40800004) (fun _ ↦ 0xff) r.2 ∧ r.1 = some 16 ∧
      StringAt r.2 0x40800000 ("0xf".toList.map chr) := by
  obtain ⟨hsame, h⟩ := @vsnprintf_bounded (fun _ _ _ ↦ .undefined) 0x40800000 4 (by decide)
    (by decide) smallCall.fmt smallCall.args fun _ ↦ 0xff
  obtain ⟨hr, hstring⟩ := h smallCall.out smallCall.yields smallCall.out_lt
  have hlen : some (BitVec.ofNat 32 smallCall.out.length) = some (16 : Word) := by decide
  exact ⟨hsame, hr.trans hlen, hstring (by decide)⟩

end Esp32c6Fw.Stdio
