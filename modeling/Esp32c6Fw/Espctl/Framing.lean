import Esp32c6Fw.Espctl.Receive
import Mathlib.Data.List.Forall2

namespace Esp32c6Fw.Espctl

open Script Struct Framing

def written (log : List Event) : Bytes :=
  log.flatMap fun
    | .write bs => bs
    | _ => []

@[simp] theorem written_append (l l' : List Event) : written (l ++ l') = written l ++ written l' :=
  List.flatMap_append

def Command.packet (c : Command) : Bytes :=
  bytes (romHdrFormatCommand romDirectionRequest c.cmd c.data.length c.checksum) ++ c.data

structure Command.Fits (c : Command) : Prop where
  cmd : c.cmd < 256
  data : c.data.length ≤ 65535
  checksum : c.checksum < 2 ^ 32

variable {c : Command} {rs : List (Option UInt8)}

theorem Command.Fits.fields (h : c.Fits) :
    ∀ f ∈ romHdrFormatCommand romDirectionRequest c.cmd c.data.length c.checksum,
      f.2 < 256 ^ f.1 := by
  have h₁ := h.cmd
  have h₂ := h.data
  have h₃ := h.checksum
  simp only [romHdrFormatCommand, romDirectionRequest, List.forall_mem_cons, List.not_mem_nil,
    false_implies, implies_true, and_true]
  omega

theorem Command.Fits.header (h : c.Fits) : c.header =
    .ok (bytes (romHdrFormatCommand romDirectionRequest c.cmd c.data.length c.checksum)) := by
  rw [Command.header, structPack, pack_eq_some h.fields]

theorem Command.packet_ne_nil (c : Command) : c.packet ≠ [] := by
  have hl : c.packet.length = 8 + c.data.length := by
    rw [Command.packet, List.length_append, length_bytes]
    rfl
  exact List.ne_nil_of_length_pos (by omega)

theorem run_sendCommand (h : c.Fits) : (sendCommand c).run rs =
    ⟨.ok (), rs,
      [.request c, .write [slipEnd], .write (slipEncode c.packet), .write [slipEnd]]⟩ := by
  rw [sendCommand, h.header]
  simp [Command.packet]

def sendAll : List Command → Host Unit
  | [] => return ()
  | c :: cs => do
    sendCommand c
    sendAll cs

def encoded (cs : List Command) : List Bytes := cs.map fun c ↦ slipEncode c.packet

theorem slipEnd_notMem_encoded (cs : List Command) : ∀ f ∈ encoded cs, slipEnd ∉ f := by
  intro f hf
  obtain ⟨c, -, rfl⟩ := List.mem_map.mp hf
  exact slipEnd_notMem_slipEncode c.packet

theorem encoded_ne_nil (cs : List Command) : ∀ f ∈ encoded cs, f ≠ [] := by
  intro f hf
  obtain ⟨c, -, rfl⟩ := List.mem_map.mp hf
  exact slipEncode_ne_nil c.packet_ne_nil

theorem written_sendAll {cs : List Command} (h : ∀ c ∈ cs, c.Fits) :
    written ((sendAll cs).run rs).log = enclose slipEnd (encoded cs) := by
  induction cs generalizing rs with
  | nil => rfl
  | cons c cs ih =>
    rw [List.forall_mem_cons] at h
    rw [sendAll, run_bind, run_sendCommand h.1, Result.ok_bind, written_append, ih h.2]
    simp [written, enclose, encoded]

theorem collect_first (cmd : ℕ) (resp bs : Bytes) :
    (slipEnd ∉ bs ∧ ((collect cmd resp).run (bs.map some)).outcome = .blocked) ∨
    ∃ f rest, bs = f ++ slipEnd :: rest ∧ slipEnd ∉ f ∧
      (collect cmd resp).run (bs.map some) = ⟨.ok (resp ++ f), rest.map some, []⟩ := by
  by_cases he : slipEnd ∈ bs
  · obtain ⟨f, rest, rfl, hf⟩ := List.eq_append_cons_of_mem he
    refine .inr ⟨f, rest, rfl, hf, ?_⟩
    rw [List.map_append, collect_bytes hf, List.map_cons, collect_end]
  · refine .inl ⟨he, ?_⟩
    have hc := @collect_bytes [] cmd resp bs he
    rw [List.append_nil] at hc
    rw [hc, collect_nil]

theorem recvFrame_first (cmd : ℕ) (bs : Bytes) :
    (frames slipEnd bs = [] ∧ ((recvFrame cmd).run (bs.map some)).outcome = .blocked) ∨
    ∃ f rest, frames slipEnd bs = f :: frames slipEnd rest ∧ rest.length < bs.length ∧
      (recvFrame cmd).run (bs.map some) = ⟨.ok (some f), rest.map some, []⟩ := by
  induction bs with
  | nil => exact .inl ⟨rfl, rfl⟩
  | cons b bs ih =>
    rw [List.map_cons]
    by_cases hb : b = slipEnd
    · rw [hb, recvFrame_end, frames_delim, List.length_cons]
      rcases ih with h | ⟨f, rest, hf, hl, hr⟩
      · exact .inl h
      · exact .inr ⟨f, rest, hf, by omega, hr⟩
    · rw [recvFrame_byte hb]
      rcases collect_first cmd [b] bs with ⟨he, hc⟩ | ⟨f, rest, rfl, he, hc⟩
      · left
        have hn : slipEnd ∉ b :: bs := by
          simp only [List.mem_cons, he, or_false]
          exact Ne.symm hb
        refine ⟨frames_of_notMem hn, ?_⟩
        generalize (collect cmd [b]).run (bs.map some) = r at hc ⊢
        obtain ⟨o, l, e⟩ := r
        cases hc
        rfl
      · right
        have hn : slipEnd ∉ b :: f := by
          simp only [List.mem_cons, he, or_false]
          exact Ne.symm hb
        refine ⟨b :: f, rest, frames_frame hn (List.cons_ne_nil b f) rest, by simp; omega, ?_⟩
        rw [hc]
        rfl

/-- Run the framing loop of `recv_response` again and again. -/
def rawFramesFrom (cmd : ℕ) : ℕ → List (Option UInt8) → List Bytes
  | 0, _ => []
  | n + 1, rs =>
    match (recvFrame cmd).run rs with
    | ⟨.ok (some f), rest, _⟩ => f :: rawFramesFrom cmd n rest
    | _ => []

def rawFrames (cmd : ℕ) (bs : Bytes) : List Bytes := rawFramesFrom cmd bs.length (bs.map some)

theorem rawFramesFrom_eq {cmd n : ℕ} {bs : Bytes} (hn : bs.length ≤ n) :
    rawFramesFrom cmd n (bs.map some) = frames slipEnd bs := by
  induction n generalizing bs with
  | zero =>
    have hb : bs = [] := List.eq_nil_of_length_eq_zero (by omega)
    rw [hb]
    rfl
  | succ n ih =>
    rw [rawFramesFrom]
    rcases recvFrame_first cmd bs with ⟨hf, ho⟩ | ⟨f, rest, hf, hl, hr⟩
    · generalize (recvFrame cmd).run (bs.map some) = r at ho ⊢
      obtain ⟨o, l, e⟩ := r
      cases ho
      rw [hf]
    · rw [hr, hf]
      have hi := @ih rest (by omega)
      simp only [hi]

theorem rawFrames_eq (cmd : ℕ) (bs : Bytes) : rawFrames cmd bs = frames slipEnd bs :=
  rawFramesFrom_eq le_rfl

def wire (cs : List Command) : Bytes := written ((sendAll cs).run []).log

/-- SLIP framing loses nothing and resynchronises. Behind any line noise, the
framing loop yields pieces of the noise, all of them once a command follows,
and then one frame for each command, which decodes to its header and data. -/
theorem slip_lossless (cmd : ℕ) (g : Bytes) {cs : List Command}
    (hcs : ∀ c ∈ cs, c.cmd < 256 ∧ c.data.length ≤ 65535 ∧ c.checksum < 2 ^ 32) :
    ∃ gs fs, rawFrames cmd (g ++ wire cs) = gs ++ fs ∧ gs <+: pieces slipEnd g ∧
      (cs ≠ [] → gs = pieces slipEnd g) ∧
      List.Forall₂ (fun c f ↦
        ∃ header, c.header = .ok header ∧ slipDecode f = .ok (header ++ c.data)) cs fs := by
  have hfit : ∀ c ∈ cs, c.Fits := fun c hc ↦ ⟨(hcs c hc).1, (hcs c hc).2.1, (hcs c hc).2.2⟩
  have hdec : List.Forall₂ (fun c f ↦
      ∃ header, c.header = .ok header ∧ slipDecode f = .ok (header ++ c.data)) cs (encoded cs) := by
    rw [encoded, List.forall₂_map_right_iff, List.forall₂_same]
    exact fun c hc ↦ ⟨_, (hfit c hc).header, slipDecode_slipEncode c.packet⟩
  rw [rawFrames_eq, wire, written_sendAll hfit]
  cases cs with
  | nil =>
    refine ⟨frames slipEnd g, [], ?_, frames_prefix slipEnd g, fun h ↦ absurd rfl h, .nil⟩
    simp [enclose, encoded]
  | cons c cs =>
    refine ⟨pieces slipEnd g, _, ?_, List.prefix_refl _, fun _ ↦ rfl, hdec⟩
    have hne : encoded (c :: cs) ≠ [] := List.cons_ne_nil _ _
    exact frames_noise (slipEnd_notMem_encoded _) (encoded_ne_nil _) hne g

def specials : Command := ⟨0x08, [0xC0, 0xDB, 0x41], 0⟩

theorem slip_lossless_specials :
    ∃ gs fs, rawFrames 0x08 ([0x41, 0xDB] ++ wire [specials]) = gs ++ fs ∧
      gs <+: pieces slipEnd [0x41, 0xDB] ∧ ([specials] ≠ [] → gs = pieces slipEnd [0x41, 0xDB]) ∧
      List.Forall₂ (fun c f ↦
        ∃ header, c.header = .ok header ∧ slipDecode f = .ok (header ++ c.data)) [specials] fs :=
  slip_lossless 0x08 [0x41, 0xDB] (by decide)

end Esp32c6Fw.Espctl
