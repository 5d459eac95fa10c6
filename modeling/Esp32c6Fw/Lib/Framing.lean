import Mathlib.Data.List.Infix

namespace Esp32c6Fw.Framing

variable {α : Type} [DecidableEq α] {d : α} {f g l : List α}

/-- The maximal non-empty runs of `l` without the delimiter. -/
def pieces (d : α) (l : List α) : List (List α) := (l.splitOn d).filter (!·.isEmpty)

/-- The pieces of `l` that a delimiter ends. -/
def frames (d : α) (l : List α) : List (List α) := (l.splitOn d).dropLast.filter (!·.isEmpty)

theorem frames_prefix (d : α) (l : List α) : frames d l <+: pieces d l :=
  (List.dropLast_prefix _).filter _

theorem frames_append (d : α) (g l : List α) :
    frames d (g ++ d :: l) = pieces d g ++ frames d l := by
  rw [frames, List.splitOn_append_cons_self,
    List.dropLast_append_of_ne_nil (List.splitOn_ne_nil d l), List.filter_append, pieces, frames]

theorem pieces_of_notMem (hd : d ∉ f) (hf : f ≠ []) : pieces d f = [f] := by
  rw [pieces, List.splitOn_eq_singleton hd]
  simp [hf]

theorem pieces_nil (d : α) : pieces d [] = [] := by
  simp [pieces]

theorem frames_of_notMem (hd : d ∉ f) : frames d f = [] := by
  rw [frames, List.splitOn_eq_singleton hd]
  rfl

theorem frames_delim (d : α) (l : List α) : frames d (d :: l) = frames d l := by
  have h := frames_append d [] l
  rwa [pieces_nil] at h

theorem frames_frame (hd : d ∉ f) (hf : f ≠ []) (l : List α) :
    frames d (f ++ d :: l) = f :: frames d l := by
  rw [frames_append, pieces_of_notMem hd hf]
  rfl

theorem frames_mono (h : l <+: g) : frames d l <+: frames d g := by
  obtain ⟨t, rfl⟩ := h
  induction hn : l.length using Nat.strong_induction_on generalizing l with
  | _ n ih =>
    by_cases hd : d ∈ l
    · obtain ⟨f, r, rfl, -⟩ := List.eq_append_cons_of_mem hd
      have hlt : r.length < n := by
        rw [← hn, List.length_append, List.length_cons]
        omega
      rw [List.append_assoc, List.cons_append, frames_append, frames_append]
      exact (List.prefix_append_right_inj _).mpr (ih r.length hlt rfl)
    · rw [frames_of_notMem hd]
      exact List.nil_prefix

/-- What a sender puts on the line: each frame between two delimiters. -/
def enclose (d : α) (fs : List (List α)) : List α := fs.flatMap (fun f ↦ d :: f ++ [d])

theorem frames_enclose_append {fs : List (List α)} (hd : ∀ f ∈ fs, d ∉ f) (hf : ∀ f ∈ fs, f ≠ [])
    (l : List α) : frames d (enclose d fs ++ l) = fs ++ frames d l := by
  induction fs with
  | nil => rfl
  | cons f fs ih =>
    simp only [List.forall_mem_cons] at hd hf
    have he : enclose d (f :: fs) ++ l = d :: (f ++ d :: (enclose d fs ++ l)) := by
      simp [enclose]
    rw [he, frames_delim, frames_frame hd.1 hf.1, ih hd.2 hf.2]
    rfl

theorem frames_enclose {fs : List (List α)} (hd : ∀ f ∈ fs, d ∉ f) (hf : ∀ f ∈ fs, f ≠ []) :
    frames d (enclose d fs) = fs := by
  have h := frames_enclose_append hd hf []
  rwa [List.append_nil, frames_of_notMem (List.not_mem_nil), List.append_nil] at h

/-- Enclosed frames resynchronise: whatever precedes them is cut off at the first delimiter. -/
theorem frames_noise {fs : List (List α)} (hd : ∀ f ∈ fs, d ∉ f) (hf : ∀ f ∈ fs, f ≠ [])
    (hfs : fs ≠ []) (g : List α) : frames d (g ++ enclose d fs) = pieces d g ++ fs := by
  obtain ⟨l, hl⟩ : ∃ l, enclose d fs = d :: l := by
    cases fs with
    | nil => exact absurd rfl hfs
    | cons f fs => exact ⟨_, rfl⟩
  have he := frames_enclose hd hf
  rw [hl, frames_delim] at he
  rw [hl, frames_append, he]

end Esp32c6Fw.Framing
