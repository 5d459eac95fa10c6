import Esp32c6Fw.Lib.Rv32
import Mathlib.Order.CompletePartialOrder
import Mathlib.Order.Interval.Set.Disjoint

namespace Esp32c6Fw.Rv32

def word (a : BitVec 32) : Set ℕ := Set.Ico a.toNat (a.toNat + 4)

def SameOutside (F : Set ℕ) (m m' : Mem) : Prop := ∀ a, a.toNat ∉ F → m' a = m a

def memset (m : Mem) (p : BitVec 32) (c : BitVec 8) (n : BitVec 32) : Mem := fun x ↦
  if (x - p).toNat < n.toNat then c else m x

/-- Source and destination do not overlap. -/
def memcpy (m : Mem) (dst src n : BitVec 32) : Mem := fun x ↦
  if (x - dst).toNat < n.toNat then m (src + (x - dst)) else m x

def Holds (m : Mem) (start : ℕ) (bs : List UInt8) : Prop :=
  ∀ i b, bs[i]? = some b → m (BitVec.ofNat 32 (start + i)) = b.toBitVec

variable {m m' m'' : Mem} {a b p : BitVec 32} {F G : Set ℕ}

theorem mem_word {x : ℕ} : x ∈ word a ↔ a.toNat ≤ x ∧ x < a.toNat + 4 := Iff.rfl

/-- The place of an address in a window that does not wrap around. -/
theorem toNat_sub_lt_iff {x n : BitVec 32} (h : p.toNat + n.toNat ≤ 2 ^ 32) :
    (x - p).toNat < n.toNat ↔ p.toNat ≤ x.toNat ∧ x.toNat < p.toNat + n.toNat := by
  have hx := x.isLt
  rw [BitVec.toNat_sub]
  omega

namespace SameOutside

theorem refl (F : Set ℕ) (m : Mem) : SameOutside F m m := fun _ _ ↦ rfl

theorem trans (h : SameOutside F m m') (h' : SameOutside F m' m'') : SameOutside F m m'' :=
  fun a ha ↦ (h' a ha).trans (h a ha)

theorem mono (h : SameOutside F m m') (hFG : F ⊆ G) : SameOutside G m m' :=
  fun a ha ↦ h a fun hF ↦ ha (hFG hF)

theorem union (h : SameOutside F m m') (h' : SameOutside G m' m'') :
    SameOutside (F ∪ G) m m'' :=
  (h.mono Set.subset_union_left).trans (h'.mono Set.subset_union_right)

theorem loadWord (h : SameOutside F m m') (hb : a.toNat + 4 ≤ 2 ^ 32)
    (hd : Disjoint (word a) F) : loadWord m' a = loadWord m a := by
  have hk (k : BitVec 32) (hk : k.toNat < 4) : m' (a + k) = m (a + k) := by
    refine h _ fun hF ↦ Set.disjoint_left.mp hd ?_ hF
    rw [mem_word, BitVec.toNat_add, Nat.mod_eq_of_lt (by omega)]
    omega
  have h₀ : m' a = m a := by
    have h := hk 0#32 (by decide)
    rwa [BitVec.add_zero] at h
  rw [Rv32.loadWord, Rv32.loadWord, hk 3 (by decide), hk 2 (by decide), hk 1 (by decide), h₀]

end SameOutside

theorem Holds.of_sameOutside {start : ℕ} {bs : List UInt8} (h : Holds m start bs)
    (hs : SameOutside F m m') (hlt : start + bs.length ≤ 2 ^ 32)
    (hd : Disjoint (Set.Ico start (start + bs.length)) F) : Holds m' start bs := by
  intro i b hb
  have hi : i < bs.length := (List.getElem?_eq_some_iff.mp hb).1
  have hn : (BitVec.ofNat 32 (start + i)).toNat = start + i :=
    (BitVec.toNat_ofNat ..).trans (Nat.mod_eq_of_lt (by omega))
  have hF : (BitVec.ofNat 32 (start + i)).toNat ∉ F := by
    rw [hn]
    exact Set.disjoint_left.mp hd ⟨Nat.le_add_right _ _, Nat.add_lt_add_left hi start⟩
  exact (hs _ hF).trans (h i b hb)

theorem Holds.loadWord {start i : ℕ} {bs : List UInt8} {b₀ b₁ b₂ b₃ : UInt8}
    (h : Holds m start bs) (h₀ : bs[i]? = some b₀) (h₁ : bs[i + 1]? = some b₁)
    (h₂ : bs[i + 2]? = some b₂) (h₃ : bs[i + 3]? = some b₃) :
    Rv32.loadWord m (BitVec.ofNat 32 (start + i)) =
      b₃.toBitVec ++ b₂.toBitVec ++ b₁.toBitVec ++ b₀.toBitVec := by
  have hk (k : ℕ) : BitVec.ofNat 32 (start + i) + BitVec.ofNat 32 k =
      BitVec.ofNat 32 (start + (i + k)) := by rw [← BitVec.ofNat_add, Nat.add_assoc]
  have e₁ := (congrArg m (hk 1)).trans (h _ _ h₁)
  have e₂ := (congrArg m (hk 2)).trans (h _ _ h₂)
  have e₃ := (congrArg m (hk 3)).trans (h _ _ h₃)
  exact congr (congrArg _ (congr (congrArg _ (congr (congrArg _ e₃) e₂)) e₁)) (h _ _ h₀)

theorem sameOutside_storeWord (m : Mem) (h : a.toNat + 4 ≤ 2 ^ 32) (v : BitVec 32) :
    SameOutside (word a) m (storeWord m a v) :=
  fun _ hx ↦ if_neg fun hlt ↦ hx ((toNat_sub_lt h).mp hlt)

theorem sameOutside_memset (m : Mem) {n : BitVec 32} (h : p.toNat + n.toNat ≤ 2 ^ 32)
    (c : BitVec 8) :
    SameOutside (Set.Ico p.toNat (p.toNat + n.toNat)) m (memset m p c n) :=
  fun _ hx ↦ if_neg fun hlt ↦ hx ((toNat_sub_lt_iff h).mp hlt)

theorem sameOutside_memcpy (m : Mem) {n : BitVec 32} (h : p.toNat + n.toNat ≤ 2 ^ 32) :
    SameOutside (Set.Ico p.toNat (p.toNat + n.toNat)) m (memcpy m p a n) :=
  fun _ hx ↦ if_neg fun hlt ↦ hx ((toNat_sub_lt_iff h).mp hlt)

theorem memcpy_add {n i : BitVec 32} (h : i.toNat < n.toNat) :
    memcpy m p a n (p + i) = m (a + i) := by
  have hs : p + i - p = i := by rw [BitVec.add_comm, BitVec.add_sub_cancel]
  rw [memcpy, hs, if_pos h]

@[simp] theorem loadWord_storeWord (m : Mem) (a v : BitVec 32) :
    loadWord (storeWord m a v) a = v := by
  have hk (k : BitVec 32) (hk : k.toNat < 4) :
      storeWord m a v (a + k) = v.extractLsb' (8 * k.toNat) 8 := by
    have hs : a + k - a = k := by rw [BitVec.add_comm, BitVec.add_sub_cancel]
    rw [storeWord, hs, if_pos hk]
  have h₀ : storeWord m a v a = v.extractLsb' 0 8 := by
    have h := hk 0#32 (by decide)
    rwa [BitVec.add_zero] at h
  rw [loadWord, hk 3 (by decide), hk 2 (by decide), hk 1 (by decide), h₀]
  ext i hi
  simp only [BitVec.getElem_append, BitVec.getElem_extractLsb']
  split
  · rw [Nat.zero_add]
    exact BitVec.getLsbD_eq_getElem hi
  split
  · exact (congrArg v.getLsbD (by simp; omega)).trans (BitVec.getLsbD_eq_getElem hi)
  split
  · exact (congrArg v.getLsbD (by simp; omega)).trans (BitVec.getLsbD_eq_getElem hi)
  · exact (congrArg v.getLsbD (by simp; omega)).trans (BitVec.getLsbD_eq_getElem hi)

end Esp32c6Fw.Rv32
