import Esp32c6Fw.Lib.Struct
import Mathlib.Logic.Function.Basic

namespace Esp32c6Fw.Imager

open Struct

abbrev Bytes := List UInt8
abbrev Files := String → Option Bytes

def imageHeaderFormat : List ℕ := [1, 1, 1, 1, 4]
def imageHeaderMagic : ℕ := 0xE9
def imageHeaderSpiModeDio : ℕ := 2
def imageHeaderFlashSize2mb : ℕ := 1 <<< 4
def imageHeaderFlashFreq40mhz : ℕ := 0
def imageExtHeaderFormat : List ℕ := [4, 2, 1, 2, 2, 4, 1]
def segmentHeaderFormat : List ℕ := [4, 4]

def getChecksum (inputBin : Bytes) : UInt8 := inputBin.foldl (· ^^^ ·) 0xEF

def imageHeader (entryPoint : ℕ) : List (ℕ × ℕ) :=
  imageHeaderFormat.zip
    [imageHeaderMagic, 0x01, imageHeaderSpiModeDio,
      imageHeaderFlashSize2mb ||| imageHeaderFlashFreq40mhz, entryPoint]

/-- `wp_drive`, `chip_id`, 0, `min_rev`, `max_rev`, 0 and `hash_append`. -/
def imageExtHeader : List (ℕ × ℕ) := imageExtHeaderFormat.zip [0xEE, 0x0D, 0, 0, 0x63, 0, 0]

def segmentHeader (entryPoint segmentSize : ℕ) : List (ℕ × ℕ) :=
  segmentHeaderFormat.zip [entryPoint, segmentSize]

def footer (totalSize : ℕ) (checksum : UInt8) : Bytes :=
  if totalSize % 16 ≠ 15 then List.replicate (15 - totalSize % 16) 0 ++ [checksum] else [checksum]

/-- The files afterwards and what is printed; no result where `struct.pack` raises. -/
def createFirmwareImage (inputFile outputFile : String) (entryPoint : ℕ) (files : Files) :
    Option (Files × List String) :=
  match files inputFile with
  | none => some (files, [s!"Error: '{inputFile}' not found"])
  | some inputBin => do
    let header ← pack (imageHeader entryPoint)
    let extHeader ← pack imageExtHeader
    let segment ← pack (segmentHeader entryPoint inputBin.length)
    let totalSize := header.length + extHeader.length + segment.length + inputBin.length
    let image := header ++ extHeader ++ segment ++ inputBin ++
      footer totalSize (getChecksum inputBin)
    return (Function.update files outputFile (some image), [])

variable {b : Bytes} {e : ℕ}

def imageBytes (e : ℕ) (b : Bytes) (checksum : UInt8) : Bytes :=
  bytes (imageHeader e) ++ bytes imageExtHeader ++ bytes (segmentHeader e b.length) ++ b ++
    footer (32 + b.length) checksum

theorem imageHeader_fits (he : e < 2 ^ 32) : ∀ f ∈ imageHeader e, f.2 < 256 ^ f.1 := by
  simp only [imageHeader, imageHeaderFormat, List.zip_cons_cons, List.zip_nil_right,
    List.forall_mem_cons]
  refine ⟨by decide, by decide, by decide, by decide, ?_, by simp⟩
  exact he.trans_eq (by norm_num)

theorem imageExtHeader_fits : ∀ f ∈ imageExtHeader, f.2 < 256 ^ f.1 := by decide

theorem segmentHeader_fits {size : ℕ} (he : e < 2 ^ 32) (hs : size < 2 ^ 32) :
    ∀ f ∈ segmentHeader e size, f.2 < 256 ^ f.1 := by
  simp only [segmentHeader, segmentHeaderFormat, List.zip_cons_cons, List.zip_nil_right,
    List.forall_mem_cons]
  exact ⟨he.trans_eq (by norm_num), hs.trans_eq (by norm_num), by simp⟩

@[simp] theorem length_imageHeader (e : ℕ) : (bytes (imageHeader e)).length = 8 := length_bytes _

@[simp] theorem length_imageExtHeader : (bytes imageExtHeader).length = 16 := length_bytes _

@[simp] theorem length_segmentHeader (e size : ℕ) : (bytes (segmentHeader e size)).length = 8 :=
  length_bytes _

theorem createFirmwareImage_eq (hb : b.length < 2 ^ 32) (he : e < 2 ^ 32) {files : Files}
    {inputFile : String} (hf : files inputFile = some b) (outputFile : String) :
    createFirmwareImage inputFile outputFile e files =
      some (Function.update files outputFile (some (imageBytes e b (getChecksum b))), []) := by
  simp only [createFirmwareImage, hf, pack_eq_some (imageHeader_fits he),
    pack_eq_some imageExtHeader_fits, pack_eq_some (segmentHeader_fits he hb), imageBytes]
  rfl

theorem footer_eq (n : ℕ) (c : UInt8) :
    footer n c = List.replicate (15 - n % 16) 0 ++ [c] := by
  unfold footer
  split
  · rfl
  next h =>
    have hz : 15 - n % 16 = 0 := by omega
    rw [hz]
    rfl

theorem length_imageBytes (e : ℕ) (b : Bytes) (c : UInt8) :
    (imageBytes e b c).length = ((32 + b.length) / 16 + 1) * 16 := by
  simp only [imageBytes, footer_eq, List.length_append, length_imageHeader, length_imageExtHeader,
    length_segmentHeader, List.length_replicate, List.length_singleton]
  omega

end Esp32c6Fw.Imager
