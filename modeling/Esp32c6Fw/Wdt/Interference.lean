import Esp32c6Fw.Lib.Interleave
import Esp32c6Fw.Wdt.Calls
import Mathlib.Data.BitVec
import Mathlib.Data.Fintype.EquivFin

namespace Esp32c6Fw.Wdt

open Mmio Soc Watchdog

abbrev Record := Option Word × List (Access Addr Word)

def recordAll : List Call → Driver (List Record)
  | [] => return []
  | c :: cs => do
    let r ← c.prog.recorded
    let rs ← recordAll cs
    return r :: rs

theorem exec_recordAll {cs : List Call} {s : Regs} {r : Finish Regs Addr Word (List (Option Word))}
    (h : exec bus (callAll cs) s = some r) :
    ∃ rs, exec bus (recordAll cs) s = some ⟨rs, r.state, r.trace⟩ ∧ rs.map (·.1) = r.value ∧
      rs.flatMap (·.2) = r.trace.filterMap (·.access) := by
  induction cs generalizing s r with
  | nil =>
    cases h
    exact ⟨[], rfl, rfl, rfl⟩
  | cons c cs ih =>
    simp only [callAll, exec_bind, Option.bind_eq_some_iff, Option.map_eq_some_iff] at h
    obtain ⟨r₁, h₁, _, ⟨r₂, h₂, _, hret, rfl⟩, rfl⟩ := h
    cases hret
    obtain ⟨rs, hrs, hv, ht⟩ := ih h₂
    refine ⟨(r₁.value, r₁.trace.filterMap (·.access)) :: rs, ?_, ?_, ?_⟩
    · simp only [recordAll, exec_bind, exec_recorded, h₁, hrs, Option.map_some, Option.bind_some]
      rfl
    · rw [List.map_cons, hv]
    · simp [ht]

theorem store_congr {s s' : Regs} {addr : Addr} (h : s addr = s' addr)
    (hk : ∀ w, guardOf addr = some w → s w.wprotectReg = s' w.wprotectReg) (v : Word) :
    store s addr v addr = store s' addr v addr := by
  simp only [store]
  cases hg : guardOf addr with
  | none => simp only [Function.update_self, h]
  | some w =>
    have hu : Unlocked s w ↔ Unlocked s' w := by rw [Unlocked, Unlocked, hk w hg]
    by_cases hs : Unlocked s w
    · simp only [if_pos hs, if_pos (hu.mp hs), Function.update_self, h]
    · simp only [if_neg hs, if_neg (mt hu.mpr hs), h]

theorem store_store {s : Regs} {w v : Watchdog} (h : w ≠ v) {a b : Addr} (ha : a ∈ w.regs)
    (hb : b ∈ v.regs) (x y : Word) : store (store s b y) a x a = store s a x a := by
  have hne : a ≠ b := fun he ↦ regs_disjoint h ha (he ▸ hb)
  refine store_congr (store_of_ne hne y) (fun u hu ↦ store_of_ne ?_ y) x
  have huw : u = w := by
    rcases List.mem_cons.mp ha with rfl | ha
    · rw [guardOf_wprotectReg] at hu
      cases hu
    · rw [guardOf_of_mem ha] at hu
      exact (Option.some.inj hu).symm
  rintro rfl
  exact regs_disjoint h (huw ▸ List.mem_cons_self ..) hb

theorem apart_regs {w v : Watchdog} (h : w ≠ v) : bus.Apart (· ∈ w.regs) (· ∈ v.regs) where
  load {a b} ha hb s y := by
    have hne : a ≠ b := fun he ↦ regs_disjoint h ha (he ▸ hb)
    simp only [bus_load, bus_store, load, store_of_ne hne]
  store {a b} ha hb s x y := by
    have hne : a ≠ b := fun he ↦ regs_disjoint h ha (he ▸ hb)
    simp only [bus_store]
    funext c
    by_cases hca : c = a
    · rw [hca, store_store h ha hb, store_of_ne hne]
    by_cases hcb : c = b
    · rw [hcb, store_of_ne hne.symm, store_store h.symm hb ha]
    · rw [store_of_ne hca, store_of_ne hcb, store_of_ne hcb, store_of_ne hca]

def Owns (id : BitVec 32) (addr : Addr) : Prop := ∃ w : Watchdog, id = w.id ∧ addr ∈ w.regs

theorem apart_owns {id id' : BitVec 32} (h : id ≠ id') : bus.Apart (Owns id) (Owns id') where
  load := by
    rintro a b ⟨w, rfl, ha⟩ ⟨v, rfl, hb⟩
    exact (apart_regs fun he ↦ h (congrArg Watchdog.id he)).load ha hb
  store := by
    rintro a b ⟨w, rfl, ha⟩ ⟨v, rfl, hb⟩
    exact (apart_regs fun he ↦ h (congrArg Watchdog.id he)).store ha hb

theorem recordAll_straight {id : BitVec 32} {cs : List Call} (h : ∀ c ∈ cs, c.id = id) :
    Straight (Owns id) (recordAll cs) := by
  induction cs with
  | nil => trivial
  | cons c cs ih =>
    rw [List.forall_mem_cons] at h
    have hc : Straight (Owns id) c.prog := c.straight.mono fun addr ha ↦ h.1 ▸ ha.mem_regs
    exact hc.recorded.bind fun _ ↦ (ih h.2).bind fun _ ↦ trivial

/-- Calls to different watchdogs, interleaved access by access in any way, end as they
do one sequence after the other: same registers, same values read, same return codes. -/
theorem no_interference {ι : Type} [DecidableEq ι] {ids : ι → BitVec 32}
    (hids : Function.Injective ids) {calls : ι → List Call}
    (hcalls : ∀ i, ∀ c ∈ calls i, c.id = ids i) (s : Regs) :
    (∀ ps s', Interleaves bus (fun i ↦ recordAll (calls i)) s ps s' →
      ∃ (rs : ι → List Record) (s'' : Regs), Interleaves bus ps s' (fun i ↦ .ret (rs i)) s'') ∧
    ∀ (rs : ι → List Record) (s' : Regs),
      Interleaves bus (fun i ↦ recordAll (calls i)) s (fun i ↦ .ret (rs i)) s' →
        ∀ order : List ι, order.Nodup → (∀ i, i ∈ order) →
          inTurn bus (fun i ↦ recordAll (calls i)) order s = some (order.map rs, s') := by
  have hps (i : ι) : Straight (Owns (ids i)) (recordAll (calls i)) := recordAll_straight (hcalls i)
  refine ⟨fun ps s' h ↦ ?_, fun rs s' h order hn hall ↦ ?_⟩
  · have : Finite ι := Finite.of_injective _ (BitVec.equivFin.injective.comp hids)
    have : Fintype ι := Fintype.ofFinite ι
    exact interleaves_finish Finset.univ.toList (h.straight hps)
      (fun i hi ↦ absurd (Finset.mem_toList.mpr (Finset.mem_univ i)) hi) s'
  · exact h.inTurn_eq hps (fun i j hij ↦ apart_owns (hids.ne hij))
      (fun i hi ↦ absurd (hall i) hi) hn

/-- The two watchdogs that share a register block. -/
def rtcBlockCalls : Bool → List Call
  | false => [.unlock 2, .disable 2]
  | true => [.swdEnableAutoFeed, .enable 3, .feed 3]

theorem no_interference_rtc_block :
    (∀ ps s', Interleaves bus (fun i ↦ recordAll (rtcBlockCalls i)) (fun _ ↦ 0) ps s' →
      ∃ (rs : Bool → List Record) (s'' : Regs), Interleaves bus ps s' (fun i ↦ .ret (rs i)) s'') ∧
    ∀ (rs : Bool → List Record) (s' : Regs),
      Interleaves bus (fun i ↦ recordAll (rtcBlockCalls i)) (fun _ ↦ 0) (fun i ↦ .ret (rs i)) s' →
        ∀ order : List Bool, order.Nodup → (∀ i, i ∈ order) →
          inTurn bus (fun i ↦ recordAll (rtcBlockCalls i)) order (fun _ ↦ 0) =
            some (order.map rs, s') :=
  @no_interference Bool _ (fun i ↦ if i then 3 else 2) (by decide) rtcBlockCalls (by decide)
    (fun _ ↦ 0)

end Esp32c6Fw.Wdt
