import Esp32c6Fw.Imager.Image

namespace Esp32c6Fw.Imager

open Struct

structure Segment where
  address : ℕ
  data : Bytes
  deriving DecidableEq

structure Loaded where
  entryPoint : ℕ
  segments : List Segment
  padding : Bytes
  checksum : UInt8
  rest : Bytes
  deriving DecidableEq

def Loaded.Passes (l : Loaded) : Prop := getChecksum (l.segments.flatMap (·.data)) = l.checksum

def loadSegments : ℕ → Bytes → Option (List Segment × Bytes)
  | 0, f => some ([], f)
  | n + 1, f =>
    match unpackFrom segmentHeaderFormat f with
    | some ([address, size], body) =>
      if body.length < size then none
      else (loadSegments n (body.drop size)).map fun l ↦ (⟨address, body.take size⟩ :: l.1, l.2)
    | _ => none

/-- What follows the segments, which stop at `stop`. The checksum is the last byte
before the first 16-byte boundary after them. -/
def loadFooter (stop : ℕ) (f : Bytes) : Option (Bytes × UInt8 × Bytes) :=
  let boundary := (stop / 16 + 1) * 16
  let last := boundary - 1 - stop
  f[last]?.map fun checksum ↦ (f.take last, checksum, f.drop (last + 1))

def load (f : Bytes) : Option Loaded :=
  match unpackFrom imageHeaderFormat f with
  | some ([_, segmentCount, _, _, entryPoint], f₁) =>
    (unpackFrom imageExtHeaderFormat f₁).bind fun (_, f₂) ↦
      (loadSegments segmentCount f₂).bind fun (segments, f₃) ↦
        (loadFooter (f.length - f₃.length) f₃).map fun (padding, checksum, rest) ↦
          ⟨entryPoint, segments, padding, checksum, rest⟩
  | _ => none

structure DiffersAt (k : ℕ) (f f' : Bytes) : Prop where
  length : f'.length = f.length
  here : f'[k]? ≠ f[k]?
  elsewhere : ∀ j, j ≠ k → f'[j]? = f[j]?

variable {b : Bytes} {e k : ℕ} {c : UInt8}

theorem loadSegments_one (hb : b.length < 2 ^ 32) (he : e < 2 ^ 32) (rest : Bytes) :
    loadSegments 1 (bytes (segmentHeader e b.length) ++ (b ++ rest)) = some ([⟨e, b⟩], rest) := by
  have hu : unpackFrom segmentHeaderFormat (bytes (segmentHeader e b.length) ++ (b ++ rest)) =
      some ([e, b.length], b ++ rest) := unpackFrom_bytes (segmentHeader_fits he hb) _
  have hl : ¬ (b ++ rest).length < b.length := by
    simp
  simp only [loadSegments, hu, if_neg hl, List.take_left, List.drop_left, Option.map_some]

theorem loadFooter_footer (stop : ℕ) (c : UInt8) :
    loadFooter stop (footer stop c) = some (List.replicate (15 - stop % 16) 0, c, []) := by
  have hlast : (stop / 16 + 1) * 16 - 1 - stop = 15 - stop % 16 := by
    omega
  have hp : (List.replicate (15 - stop % 16) (0 : UInt8)).length = 15 - stop % 16 :=
    List.length_replicate
  have hget : (List.replicate (15 - stop % 16) 0 ++ [c])[15 - stop % 16]? = some c := by
    rw [List.getElem?_append_right hp.le, hp, Nat.sub_self]
    rfl
  have hrest : (List.replicate (15 - stop % 16) 0 ++ [c]).drop (15 - stop % 16 + 1) = [] :=
    List.drop_of_length_le (by simp)
  simp only [loadFooter, footer_eq, hlast, hget, hrest, Option.map_some, List.take_left' hp]

theorem load_imageBytes (hb : b.length < 2 ^ 32) (he : e < 2 ^ 32) (c : UInt8) :
    load (imageBytes e b c) =
      some ⟨e, [⟨e, b⟩], List.replicate (15 - (32 + b.length) % 16) 0, c, []⟩ := by
  have hfmt : imageBytes e b c = bytes (imageHeader e) ++ (bytes imageExtHeader ++
      (bytes (segmentHeader e b.length) ++ (b ++ footer (32 + b.length) c))) := by
    simp only [imageBytes, List.append_assoc]
  have hhdr : unpackFrom imageHeaderFormat (imageBytes e b c) = some ([0xE9, 1, 2, 16, e], _) :=
    hfmt ▸ unpackFrom_bytes (imageHeader_fits he) _
  have hext : unpackFrom imageExtHeaderFormat (bytes imageExtHeader ++ _) = some (_, _) :=
    unpackFrom_bytes imageExtHeader_fits
      (bytes (segmentHeader e b.length) ++ (b ++ footer (32 + b.length) c))
  have hstop : (imageBytes e b c).length - (footer (32 + b.length) c).length = 32 + b.length := by
    simp only [imageBytes, List.length_append, length_imageHeader, length_imageExtHeader,
      length_segmentHeader]
    omega
  simp only [load, hhdr, hext, loadSegments_one hb he, hstop, loadFooter_footer, Option.bind_some,
    Option.map_some]

theorem getChecksum_append_cons {l r : Bytes} {x y : UInt8} (h : x ≠ y) :
    getChecksum (l ++ x :: r) ≠ getChecksum (l ++ y :: r) := by
  have hr (r : Bytes) {s t : UInt8} (hst : s ≠ t) : r.foldl (· ^^^ ·) s ≠ r.foldl (· ^^^ ·) t := by
    induction r generalizing s t with
    | nil => exact hst
    | cons z r ih => exact ih fun he ↦ hst ((UInt8.xor_left_inj z).mp he)
  simp only [getChecksum, List.foldl_append, List.foldl_cons]
  exact hr r fun he ↦ h ((UInt8.xor_right_inj _).mp he)

theorem getChecksum_set {y : UInt8} (hk : k < b.length) (h : b.set k y ≠ b) :
    getChecksum b ≠ getChecksum (b.set k y) := by
  have hb : b = b.take k ++ b[k] :: b.drop (k + 1) := by
    rw [List.getElem_cons_drop, List.take_append_drop]
  have hs : b.set k y = b.take k ++ y :: b.drop (k + 1) := by
    rw [List.set_eq_take_append_cons_drop, if_pos hk]
  have hy : b[k] ≠ y := by
    rintro rfl
    exact h (List.set_getElem_self hk)
  rw [hs]
  conv_lhs => rw [hb]
  exact getChecksum_append_cons hy

theorem DiffersAt.eq_set {f f' : Bytes} (h : DiffersAt k f f') (hk : k < f.length) :
    ∃ y, f' = f.set k y ∧ f.set k y ≠ f := by
  have hk' : k < f'.length := h.length ▸ hk
  have hs : f' = f.set k f'[k] := by
    refine List.ext_getElem? fun j ↦ ?_
    by_cases hj : j = k
    · subst hj
      rw [List.getElem?_set_self hk, List.getElem?_eq_getElem hk']
    · rw [List.getElem?_set_ne (Ne.symm hj), h.elsewhere j hj]
  refine ⟨f'[k], hs, fun he ↦ h.here ?_⟩
  rw [hs, he]

theorem imageBytes_set (hk : k < b.length) (y : UInt8) :
    (imageBytes e b c).set (32 + k) y = imageBytes e (b.set k y) c := by
  have hp : (bytes (imageHeader e) ++ bytes imageExtHeader ++
      bytes (segmentHeader e b.length)).length = 32 := by
    simp only [List.length_append, length_imageHeader, length_imageExtHeader, length_segmentHeader]
  simp only [imageBytes, List.length_set]
  rw [List.append_assoc, List.set_append_right _ _ (by omega), hp, Nat.add_sub_cancel_left,
    List.set_append_left _ _ hk, ← List.append_assoc]

/-- The image of a binary loads, and its checksum fails for any one byte changed in the data. -/
theorem image_loads (hb : b.length < 2 ^ 32) (he : e < 2 ^ 32) {files : Files}
    {inputFile : String} (hf : files inputFile = some b) (outputFile : String) :
    ∃ files' f, createFirmwareImage inputFile outputFile e files = some (files', []) ∧
      files' outputFile = some f ∧ f.length % 16 = 0 ∧
      (∃ l, load f = some l ∧ l.Passes ∧ l.entryPoint = e ∧ l.segments = [⟨e, b⟩] ∧ l.rest = [] ∧
        l.padding.length ≤ 15 ∧ ∀ x ∈ l.padding, x = 0) ∧
      ∀ k f', 32 ≤ k → k < 32 + b.length → DiffersAt k f f' →
        ∃ l, load f' = some l ∧ ¬ l.Passes := by
  refine ⟨_, _, createFirmwareImage_eq hb he hf outputFile, Function.update_self .., ?_,
    ⟨_, load_imageBytes hb he _, ?_, rfl, rfl, rfl, ?_, ?_⟩, ?_⟩
  · rw [length_imageBytes]
    omega
  · simp only [Loaded.Passes, List.flatMap_cons, List.flatMap_nil, List.append_nil]
  · rw [List.length_replicate]
    omega
  · exact fun x hx ↦ List.eq_of_mem_replicate hx
  · intro k f' hk hkb hd
    obtain ⟨j, rfl⟩ := Nat.exists_eq_add_of_le hk
    have hj : j < b.length := by
      omega
    have hlen : 32 + j < (imageBytes e b (getChecksum b)).length := by
      rw [length_imageBytes]
      omega
    obtain ⟨y, rfl, hy⟩ := hd.eq_set hlen
    rw [imageBytes_set hj] at hy ⊢
    have hb' : (b.set j y).length < 2 ^ 32 := by
      rwa [List.length_set]
    refine ⟨_, load_imageBytes hb' he _, ?_⟩
    simp only [Loaded.Passes, List.flatMap_cons, List.flatMap_nil, List.append_nil]
    refine (getChecksum_set hj fun hset ↦ hy ?_).symm
    rw [hset]

theorem image_loads_three : ∃ files' f,
    createFirmwareImage "fw.bin" "fw.img" 0x40800000
      (fun name ↦ if name = "fw.bin" then some [1, 2, 3] else none) = some (files', []) ∧
      files' "fw.img" = some f ∧ f.length % 16 = 0 ∧
      (∃ l, load f = some l ∧ l.Passes ∧ l.entryPoint = 0x40800000 ∧
        l.segments = [⟨0x40800000, [1, 2, 3]⟩] ∧ l.rest = [] ∧
        l.padding.length ≤ 15 ∧ ∀ x ∈ l.padding, x = 0) ∧
      ∀ k f', 32 ≤ k → k < 35 → DiffersAt k f f' →
        ∃ l, load f' = some l ∧ ¬ l.Passes :=
  image_loads (b := [1, 2, 3]) (by decide) (by decide) (if_pos rfl) "fw.img"

end Esp32c6Fw.Imager
