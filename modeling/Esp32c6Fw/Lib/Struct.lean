import Mathlib.Data.List.Basic
import Mathlib.Tactic.Ring

namespace Esp32c6Fw.Struct

def toLe : ℕ → ℕ → List UInt8
  | 0, _ => []
  | size + 1, v => UInt8.ofNat v :: toLe size (v / 256)

def ofLe : List UInt8 → ℕ
  | [] => 0
  | b :: bs => b.toNat + 256 * ofLe bs

def bytes (fields : List (ℕ × ℕ)) : List UInt8 := fields.flatMap fun f ↦ toLe f.1 f.2

/-- A format is the sizes of its unsigned little-endian fields; `pack` refuses a
value that does not fit its field. -/
def pack (fields : List (ℕ × ℕ)) : Option (List UInt8) :=
  if ∀ f ∈ fields, f.2 < 256 ^ f.1 then some (bytes fields) else none

def unpack : List ℕ → List UInt8 → Option (List ℕ)
  | [], [] => some []
  | [], _ :: _ => none
  | size :: sizes, bs =>
    if bs.length < size then none
    else (unpack sizes (bs.drop size)).map (ofLe (bs.take size) :: ·)

def unpackFrom (sizes : List ℕ) (bs : List UInt8) : Option (List ℕ × List UInt8) :=
  (unpack sizes (bs.take sizes.sum)).map (·, bs.drop sizes.sum)

@[simp] theorem length_toLe (size v : ℕ) : (toLe size v).length = size := by
  induction size generalizing v with
  | zero => rfl
  | succ size ih => simp only [toLe, List.length_cons, ih]

theorem ofLe_toLe {size v : ℕ} (h : v < 256 ^ size) : ofLe (toLe size v) = v := by
  induction size generalizing v with
  | zero =>
    have hv : v = 0 := by simpa using h
    rw [hv]
    rfl
  | succ size ih =>
    have hq : v / 256 < 256 ^ size := by
      rw [Nat.div_lt_iff_lt_mul (by omega), ← pow_succ]
      exact h
    rw [toLe, ofLe, ih hq, UInt8.toNat_ofNat']
    omega

variable {fields : List (ℕ × ℕ)}

theorem pack_eq_some (h : ∀ f ∈ fields, f.2 < 256 ^ f.1) :
    pack fields = some (bytes fields) := if_pos h

theorem pack_eq_none {f : ℕ × ℕ} (hf : f ∈ fields) (h : 256 ^ f.1 ≤ f.2) : pack fields = none :=
  if_neg fun hall ↦ absurd (hall f hf) (by omega)

theorem length_bytes (fields : List (ℕ × ℕ)) :
    (bytes fields).length = (fields.map (·.1)).sum := by
  simp [bytes, List.length_flatMap]

theorem unpack_bytes (hf : ∀ f ∈ fields, f.2 < 256 ^ f.1) :
    unpack (fields.map (·.1)) (bytes fields) = some (fields.map (·.2)) := by
  induction fields with
  | nil => rfl
  | cons f fields ih =>
    simp only [List.forall_mem_cons] at hf
    have hb : bytes (f :: fields) = toLe f.1 f.2 ++ bytes fields := List.flatMap_cons
    have hlen : ¬ (toLe f.1 f.2 ++ bytes fields).length < f.1 := by
      simp
    rw [hb, List.map_cons, List.map_cons, unpack, if_neg hlen,
      List.drop_left' (length_toLe _ _), List.take_left' (length_toLe _ _), ih hf.2,
      ofLe_toLe hf.1]
    rfl

theorem unpackFrom_bytes (hf : ∀ f ∈ fields, f.2 < 256 ^ f.1) (rest : List UInt8) :
    unpackFrom (fields.map (·.1)) (bytes fields ++ rest) = some (fields.map (·.2), rest) := by
  have hl := length_bytes fields
  rw [unpackFrom, List.take_left' hl, List.drop_left' hl, unpack_bytes hf, Option.map_some]

end Esp32c6Fw.Struct
