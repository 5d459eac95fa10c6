import Esp32c6Fw.Espctl.Matching
import Mathlib.Logic.Relation

namespace Esp32c6Fw.Espctl

open Script Struct Framing Relation

/-- The tool and the device: what the reads of the tool have returned, what the
device has answered, and the bytes of its answers in flight and at the port. -/
structure Link where
  reads : List (Option UInt8)
  answers : List Bytes
  flight : Bytes
  arrived : Bytes

namespace Link

def initial : Link := ⟨[], [], [], []⟩

def log (setup : Setup) (s : Link) : List Event := talk ((espFlash setup).run s.reads).log

def Waits (setup : Setup) (s : Link) : Prop := ((espFlash setup).run s.reads).outcome = .blocked

/-- The device answers the requests once each and in order, whenever it likes; its
bytes arrive in order, whenever they like; a read returns the next byte at the
port, or times out while there is none. -/
inductive Step (setup : Setup) : Link → Link → Prop
  | answer {s : Link} {c : Command} {p : Bytes} :
      (requests (s.log setup))[s.answers.length]? = some c → Names c.cmd p →
      Step setup s { s with answers := s.answers ++ [p], flight := s.flight ++ stream [p] }
  | arrive {s : Link} {b : UInt8} {flight : Bytes} : s.flight = b :: flight →
      Step setup s { s with flight := flight, arrived := s.arrived ++ [b] }
  | read {s : Link} {b : UInt8} {arrived : Bytes} : s.Waits setup → s.arrived = b :: arrived →
      Step setup s { s with reads := s.reads ++ [some b], arrived := arrived }
  | timeout {s : Link} : s.Waits setup → s.arrived = [] →
      Step setup s { s with reads := s.reads ++ [none] }

/-- Each response that a flash command has taken is the answer to its request:
it is the last request, and it and the response have the same place. -/
def Matched (setup : Setup) (s : Link) : Prop :=
  ∀ pre cmd p post, s.log setup = pre ++ .response cmd (some p) :: post → OfFlash cmd →
    ∃ (reqs : List Command) (c : Command), requests pre = reqs ++ [c] ∧ c.cmd = cmd ∧
      (taken pre).length = reqs.length ∧ s.answers[reqs.length]? = some p

def AwaitsBlock (setup : Setup) (rs : List (Option UInt8)) : Prop :=
  ∃ inputBin seq payload, setup.contents = some inputBin ∧ seq + 1 < nrBlocks inputBin.length ∧
    (talk ((espFlash setup).run rs).log).getLast? = some (.request (dataCommand seq payload)) ∧
    Whole rs

/-- A step, but no timeout while a block awaits its response. -/
def PromptStep (setup : Setup) (s s' : Link) : Prop :=
  Step setup s s' ∧ (AwaitsBlock setup s.reads → s'.reads ≠ s.reads ++ [none])

variable {setup : Setup} {inputBin : Bytes} {s s' : Link} {rs : List (Option UInt8)}

def body (inputBin : Bytes) : Host Unit :=
  sync >>= fun _ ↦ spiAttach 0 >>= fun _ ↦ flashImage inputBin

theorem orderly_body (inputBin : Bytes) : Orderly (body inputBin) :=
  orderly_sync.bind fun _ ↦ (orderly_spiAttach 0).bind fun _ ↦ orderly_flashImage inputBin

theorem run_enterDownloadMode (usb : Bool) : ∃ e, (∀ ev ∈ e, ev.Quiet) ∧
    ∀ rs, (enterDownloadMode usb).run rs = ⟨.ok (), rs, e⟩ := by
  have hq := quiet_enterDownloadMode usb []
  cases usb <;> exact ⟨_, hq, fun rs ↦ rfl⟩

theorem transfer_eq (setup : Setup) (inputBin : Bytes) : transfer setup inputBin =
    openProtocol setup "/dev/ttyACM0" >>= fun usb ↦ enterDownloadMode usb >>= fun _ ↦
      flush >>= fun _ ↦ body inputBin := by
  simp only [transfer, connect, body, bind_assoc, pure_bind]

theorem run_flush (rs : List (Option UInt8)) : flush.run (none :: rs) = ⟨.ok (), rs, []⟩ := rfl

theorem talk_espFlash (setup : Setup) : (∀ rs, talk ((espFlash setup).run rs).log = []) ∨
    ∃ inputBin, setup.contents = some inputBin ∧ talk ((espFlash setup).run []).log = [] ∧
      ∀ rs, talk ((espFlash setup).run (none :: rs)).log = talk ((body inputBin).run rs).log := by
  cases hf : setup.contents with
  | none =>
    refine .inl fun rs ↦ ?_
    rw [espFlash, hf]
    rfl
  | some inputBin =>
    have ht (rs : List (Option UInt8)) : talk ((espFlash setup).run rs).log =
        talk ((transfer setup inputBin).run rs).log := by
      obtain ⟨tail, hq, hl⟩ := espFlash_log hf rs
      rw [hl, talk_append, talk_quiet hq, List.append_nil]
    by_cases hp : setup.portOpens
    · obtain ⟨e, he, hr⟩ :=
        run_enterDownloadMode (checkEspressifUsb setup.comports "/dev/ttyACM0")
      have hrun (rs : List (Option UInt8)) : (transfer setup inputBin).run rs =
          Result.bind ⟨.ok (), rs, e⟩ fun _ l ↦ (flush.run l).bind fun _ ↦ (body inputBin).run := by
        simp only [transfer_eq, openProtocol, hp, if_true, run_bind, run_pure, Result.ok_bind, hr,
          List.nil_append]
      refine .inr ⟨inputBin, rfl, ?_, fun rs ↦ ?_⟩
      · rw [ht, hrun, Result.ok_bind, talk_append, talk_quiet he]
        rfl
      · rw [ht, hrun, Result.ok_bind, run_flush, Result.ok_bind, talk_append, talk_quiet he]
        rfl
    · refine .inl fun rs ↦ ?_
      rw [ht, transfer_eq, openProtocol, if_neg hp]
      rfl

section Image

variable (hlen : inputBin.length < 2 ^ 32) (hfile : setup.contents = some inputBin)
include hlen hfile

/-- The block loop, where `used` has been read and `old` has been said: no block
but the last times out, so no response is left for the next. -/
theorem inPlace_flashTail {seq left : ℕ} (hseq : seq + left = nrBlocks inputBin.length)
    {rest : Bytes} {used : List (Option UInt8)} {old : List Event} (hu : Whole used)
    (hsaid : ∀ l, talk ((espFlash setup).run (used ++ l)).log =
      old ++ talk ((flashTail seq left rest).run l).log)
    (hT : Coded (old ++ talk ((flashTail seq left rest).run rs).log))
    (hb : Behind [romCommandFlashEnd] old)
    (hd : 0 < left → Behind [romCommandFlashData, romCommandFlashEnd] old)
    (hprompt : ∀ pre post, used ++ rs = pre ++ none :: post → ¬ AwaitsBlock setup pre) :
    InPlace old (talk ((flashTail seq left rest).run rs).log) := by
  have hn := nrBlocks_le inputBin.length
  induction left generalizing seq rest used old rs with
  | zero =>
    rw [flashTail_zero] at hT ⊢
    refine inPlace_method flashEnd_asks hb (List.mem_singleton.mpr rfl) hT ?_
    intro resp b used l e _ _ _ _ _ _
    exact inPlace_nil _
  | succ left ih =>
    have hm := flashData_asks (show seq < 2 ^ 32 by omega) (length_block rest)
    have hc : (dataCommand seq (block rest)).cmd ∈ [romCommandFlashData, romCommandFlashEnd] :=
      List.mem_cons_self ..
    simp only [flashTail_succ] at hT hsaid ⊢
    refine inPlace_method hm (hd (Nat.succ_pos left)) hc hT ?_
    intro resp b u l e hrs hw hrun hob hT' hb'
    refine ih (by omega) (hu.append hw) (fun l ↦ ?_) hT' ?_ (fun hl ↦ ?_) (fun pre post hpre ↦ ?_)
    · rw [List.append_assoc, hsaid, talk_method hm hrun hob, List.append_assoc]
      rfl
    · exact hb' _ (by simp) fun _ ↦ show romCommandFlashData ∉ [romCommandFlashEnd] by decide
    · apply hb' _ (List.Subset.refl _)
      intro hnone
      subst hnone
      obtain ⟨m, rfl⟩ := recvResponse_timeout hrun
      refine absurd ⟨inputBin, seq, block rest, hfile, by omega, ?_, hu.append (whole_ends m)⟩
        (hprompt (used ++ List.replicate m (some slipEnd)) l (by simp [hrs]))
      obtain ⟨hx, hox⟩ := hm (List.replicate m (some slipEnd))
      rw [recvResponse_ends] at hx hox
      obtain ⟨ht, -⟩ := hx.stop (k := flashTail (seq + 1) left (rest.drop maxBlockSize))
        (fun b h ↦ by rw [hox] at h; cases h)
      rw [hsaid, run_bind, ht, List.getLast?_append_cons]
      rfl
    · rw [hrs, ← List.append_assoc] at hprompt
      exact hprompt pre post hpre

theorem inPlace_flashImage {used : List (Option UInt8)} {old : List Event} (hu : Whole used)
    (hsaid : ∀ l, talk ((espFlash setup).run (used ++ l)).log =
      old ++ talk ((flashImage inputBin).run l).log)
    (hT : Coded (old ++ talk ((flashImage inputBin).run rs).log))
    (hb : Behind [romCommandFlashBegin, romCommandFlashData, romCommandFlashEnd] old)
    (hprompt : ∀ pre post, used ++ rs = pre ++ none :: post → ¬ AwaitsBlock setup pre) :
    InPlace old (talk ((flashImage inputBin).run rs).log) := by
  have hm := flashBegin_asks hlen
  have hc : (beginCommand inputBin.length).cmd ∈
      [romCommandFlashBegin, romCommandFlashData, romCommandFlashEnd] := List.mem_cons_self ..
  simp only [flashImage_eq] at hT hsaid ⊢
  refine inPlace_method hm hb hc hT ?_
  intro resp b u l e hrs hw hrun hob hT' hb'
  refine inPlace_flashTail hlen hfile (Nat.zero_add _) (hu.append hw) (fun l ↦ ?_) hT' ?_
    (fun _ ↦ ?_) (fun pre post hpre ↦ ?_)
  · rw [List.append_assoc, hsaid, talk_method hm hrun hob, List.append_assoc]
    rfl
  · exact hb' _ (by simp) fun _ ↦ show romCommandFlashBegin ∉ [romCommandFlashEnd] by decide
  · exact hb' _ (by simp) fun _ ↦
      show romCommandFlashBegin ∉ [romCommandFlashData, romCommandFlashEnd] by decide
  · rw [hrs, ← List.append_assoc] at hprompt
    exact hprompt pre post hpre

end Image

theorem talk_huge (h : ¬ inputBin.length < 2 ^ 32) (rs : List (Option UInt8)) :
    talk ((flashImage inputBin).run rs).log = [] := by
  rw [run_flashImage_huge (not_lt.mp h)]
  rfl

theorem inPlace_attach (hfile : setup.contents = some inputBin) {used : List (Option UInt8)}
    {old : List Event} (hu : Whole used)
    (hsaid : ∀ l, talk ((espFlash setup).run (used ++ l)).log =
      old ++ talk ((spiAttach 0 >>= fun _ ↦ flashImage inputBin).run l).log)
    (hT : Coded (old ++ talk ((spiAttach 0 >>= fun _ ↦ flashImage inputBin).run rs).log))
    (hb : Behind [romCommandSpiAttach, romCommandFlashBegin, romCommandFlashData,
      romCommandFlashEnd] old)
    (hprompt : ∀ pre post, used ++ rs = pre ++ none :: post → ¬ AwaitsBlock setup pre) :
    InPlace old (talk ((spiAttach 0 >>= fun _ ↦ flashImage inputBin).run rs).log) := by
  have hc : attachCommand.cmd ∈ [romCommandSpiAttach, romCommandFlashBegin, romCommandFlashData,
      romCommandFlashEnd] := List.mem_cons_self ..
  refine inPlace_method spiAttach_asks hb hc hT ?_
  intro resp b u l e hrs hw hrun hob hT' hb'
  by_cases hlen : inputBin.length < 2 ^ 32
  · refine inPlace_flashImage hlen hfile (hu.append hw) (fun l ↦ ?_) hT' ?_ (fun pre post hpre ↦ ?_)
    · rw [List.append_assoc, hsaid, talk_method spiAttach_asks hrun hob, List.append_assoc]
      rfl
    · exact hb' _ (by simp) fun _ ↦ show romCommandSpiAttach ∉ _ by decide
    · rw [hrs, ← List.append_assoc] at hprompt
      exact hprompt pre post hpre
  · rw [talk_huge hlen]
    exact inPlace_nil _

theorem behind_sync {old t : List Event} (hs : ∀ e ∈ old, e.OfSync)
    (hT : Coded (old ++ .request attachCommand :: t)) {cmds : List ℕ}
    (hc : romCommandSync ∉ cmds) : Behind cmds old := by
  have hreq : ∀ c ∈ requests old, c.cmd = romCommandSync := by
    intro c hc
    obtain ⟨e, he, hec⟩ := List.mem_filterMap.mp hc
    cases e with
    | request c' =>
      cases hec
      exact hs _ he
    | _ => cases hec
  refine ⟨?_, fun c hm ↦ by rw [hreq c (List.mem_of_mem_drop hm)]; exact hc⟩
  by_contra hlt
  rw [not_le] at hlt
  obtain ⟨⟨cmd, p⟩, hp⟩ : ∃ x, (taken old)[(requests old).length]? = some x :=
    ⟨_, List.getElem?_eq_getElem hlt⟩
  obtain ⟨c, hc', hcmd⟩ := hT (requests old).length cmd p (by
    rw [taken_append, List.getElem?_append_left hlt, hp])
  rw [requests_append, List.getElem?_append_right (le_refl _), Nat.sub_self] at hc'
  cases hc'
  obtain ⟨e, he, hec⟩ := List.mem_filterMap.mp (List.mem_of_getElem? hp)
  cases e with
  | response cmd' packet =>
    cases packet with
    | none => cases hec
    | some p' =>
      cases hec
      have hsync : cmd = romCommandSync := hs _ he
      rw [← hcmd] at hsync
      exact absurd hsync (by decide)
  | _ => cases hec

theorem inPlace_body (hfile : setup.contents = some inputBin) {used : List (Option UInt8)}
    (hu : Whole used)
    (hsaid : ∀ l, talk ((espFlash setup).run (used ++ l)).log = talk ((body inputBin).run l).log)
    (hT : Coded (talk ((body inputBin).run rs).log))
    (hprompt : ∀ pre post, used ++ rs = pre ++ none :: post → ¬ AwaitsBlock setup pre) :
    InPlace [] (talk ((body inputBin).run rs).log) := by
  have hs : ∀ e ∈ (sync.run rs).log, e.OfSync := ofSync_sync rs
  have hused := orderly_sync.used rs
  have hrun (l : List (Option UInt8)) : (body inputBin).run l = (sync.run l).bind fun _ ↦
      (spiAttach 0 >>= fun _ ↦ flashImage inputBin).run := rfl
  rw [hrun] at hT ⊢
  generalize sync.run rs = r at hs hused hT ⊢
  obtain ⟨o, l, e⟩ := r
  have hs' : ∀ ev ∈ talk e, ev.OfSync := fun ev he ↦ hs ev (List.mem_of_mem_filter he)
  cases o with
  | raise x | blocked => exact inPlace_ofSync hs'
  | ok b =>
    obtain ⟨u, rfl, hw, hr⟩ := hused b l e rfl
    rw [Result.ok_bind, talk_append] at hT ⊢
    refine inPlace_append (inPlace_ofSync hs') ?_
    refine inPlace_attach hfile (hu.append hw) (fun l ↦ ?_) hT ?_ (fun pre post hpre ↦ ?_)
    · rw [List.append_assoc, hsaid, hrun, run_append_of_ok hr, Result.ok_bind, talk_append]
      rfl
    · obtain ⟨t, ht⟩ := (spiAttach_asks l).1.head (k := flashImage inputBin)
      rw [run_bind, ht] at hT
      exact behind_sync hs' hT (by decide)
    · rw [← List.append_assoc] at hprompt
      exact hprompt pre post hpre

structure Inv (setup : Setup) (s : Link) : Prop where
  order : delivered s.reads ++ (s.arrived ++ s.flight) = stream s.answers
  answered : ∀ (i : ℕ) (p : Bytes), s.answers[i]? = some p →
    ∃ c : Command, (requests (s.log setup))[i]? = some c ∧ Names c.cmd p
  first : s.reads = [] ∧ s.answers = [] ∨ ∃ rs, s.reads = none :: rs

theorem log_nil (h : s.reads = []) : s.log setup = [] := by
  rw [log, h]
  rcases talk_espFlash setup with hs | ⟨_, _, hs, _⟩
  · exact hs []
  · exact hs

theorem inv_initial (setup : Setup) : Inv setup initial where
  order := rfl
  answered i p h := by cases h
  first := .inl ⟨rfl, rfl⟩

theorem requests_mono {rs post : List (Option UInt8)} {i : ℕ} {c : Command}
    (h : (requests (talk ((espFlash setup).run rs).log))[i]? = some c) :
    (requests (talk ((espFlash setup).run (rs ++ post)).log))[i]? = some c := by
  obtain ⟨t, ht⟩ := log_prefix (espFlash setup) rs post
  rw [requests_talk] at h ⊢
  have hi := (List.getElem?_eq_some_iff.mp h).1
  rw [← ht, requests_append, List.getElem?_append_left hi, h]

theorem Inv.answered_mono (h : Inv setup s) (post : List (Option UInt8)) :
    ∀ (i : ℕ) (p : Bytes), s.answers[i]? = some p →
      ∃ c : Command, (requests (talk ((espFlash setup).run (s.reads ++ post)).log))[i]? = some c ∧
        Names c.cmd p := by
  intro i p hp
  obtain ⟨c, hc, hn⟩ := h.answered i p hp
  exact ⟨c, requests_mono hc, hn⟩

theorem delivered_append (rs rs' : List (Option UInt8)) :
    delivered (rs ++ rs') = delivered rs ++ delivered rs' := List.filterMap_append ..

theorem inv_step (h : Inv setup s) (hs : Step setup s s') : Inv setup s' := by
  cases hs with
  | @answer c p hc hn =>
    refine ⟨?_, fun i q hq ↦ ?_, ?_⟩
    · simp only [stream_append, ← h.order, List.append_assoc]
    · by_cases hi : i < s.answers.length
      · rw [List.getElem?_append_left hi] at hq
        exact h.answered i q hq
      · have hlt := (List.getElem?_eq_some_iff.mp hq).1
        rw [List.length_append, List.length_singleton] at hlt
        have hl : i = s.answers.length := by omega
        subst hl
        rw [List.getElem?_append_right (le_refl _), Nat.sub_self] at hq
        cases hq
        exact ⟨c, hc, hn⟩
    · rcases h.first with ⟨hr, ha⟩ | hf
      · rw [log_nil hr] at hc
        cases hc
      · exact .inr hf
  | arrive hf =>
    refine ⟨?_, h.answered, h.first⟩
    rw [← h.order, hf]
    simp
  | @read b arrived hw ha =>
    refine ⟨?_, h.answered_mono _, ?_⟩
    · rw [← h.order, ha, delivered_append]
      simp [delivered]
    · rcases h.first with ⟨hr, hn⟩ | ⟨rs, hr⟩
      · have ho := h.order
        rw [hr, hn, ha] at ho
        cases ho
      · exact .inr ⟨rs ++ [some b], by rw [hr]; rfl⟩
  | timeout hw ha =>
    refine ⟨?_, h.answered_mono _, ?_⟩
    · rw [← h.order, delivered_append]
      simp [delivered]
    · rcases h.first with ⟨hr, hn⟩ | ⟨rs, hr⟩
      · exact .inr ⟨[], by rw [hr]; rfl⟩
      · exact .inr ⟨rs ++ [none], by rw [hr]; rfl⟩

theorem inv_run (h : ReflTransGen (Step setup) initial s) : Inv setup s := by
  induction h with
  | refl => exact inv_initial setup
  | tail _ hs ih => exact inv_step ih hs

theorem prompt_run (h : ReflTransGen (PromptStep setup) initial s) :
    ∀ pre post, s.reads = pre ++ none :: post → ¬ AwaitsBlock setup pre := by
  induction h with
  | refl =>
    intro pre post hp
    cases pre <;> cases hp
  | @tail s s' _ hs ih =>
    obtain ⟨hs, hp⟩ := hs
    cases hs with
    | answer | arrive => exact ih
    | @read _ b _ _ =>
      intro pre post hpre
      rcases List.eq_nil_or_concat post with rfl | ⟨post, r, rfl⟩
      · have hl := congrArg List.getLast? hpre
        simp at hl
      · rw [List.concat_eq_append, ← List.cons_append, ← List.append_assoc] at hpre
        exact ih pre post (List.append_inj_left' hpre rfl)
    | timeout _ _ =>
      intro pre post hpre
      rcases List.eq_nil_or_concat post with rfl | ⟨post, r, rfl⟩
      · rw [← List.append_inj_left' hpre rfl]
        exact fun hw ↦ hp hw rfl
      · rw [List.concat_eq_append, ← List.cons_append, ← List.append_assoc] at hpre
        exact ih pre post (List.append_inj_left' hpre rfl)

theorem names_unique {cmd cmd' : ℕ} {p : Bytes} (h : Names cmd p) (h' : Names cmd' p) :
    cmd = cmd' := by
  obtain ⟨b, hb, rfl⟩ := h
  obtain ⟨b', hb', rfl⟩ := h'
  rw [hb] at hb'
  cases hb'
  rfl

theorem Inv.coded (h : Inv setup s)
    (hp : (Espctl.taken (s.log setup)).map Prod.snd <+: s.answers)
    (hn : ∀ e ∈ s.log setup, e.Named) : Coded (s.log setup) := by
  intro i cmd p hi
  have hp' : s.answers[i]? = some p := by
    obtain ⟨t, ht⟩ := hp
    have hi' := (List.getElem?_eq_some_iff.mp hi).1
    rw [← ht, List.getElem?_append_left (by simpa using hi'), List.getElem?_map, hi]
    rfl
  obtain ⟨c, hc, hc'⟩ := h.answered i p hp'
  obtain ⟨e, he, hei⟩ := List.mem_filterMap.mp (List.mem_of_getElem? hi)
  refine ⟨c, hc, names_unique hc' ?_⟩
  cases e with
  | response cmd' packet =>
    cases packet with
    | none => cases hei
    | some p' =>
      cases hei
      exact hn _ he
  | _ => cases hei

theorem Inv.taken (h : Inv setup s) :
    (taken (s.log setup)).map Prod.snd <+: s.answers ∧ Coded (s.log setup) := by
  have hnil (hl : s.log setup = []) : (Espctl.taken (s.log setup)).map Prod.snd <+: s.answers ∧
      Coded (s.log setup) := by
    refine ⟨by rw [hl]; exact List.nil_prefix, h.coded (by rw [hl]; exact List.nil_prefix) ?_⟩
    simp [hl]
  rcases talk_espFlash setup with hs | ⟨inputBin, hfile, -, hs⟩
  · exact hnil (hs s.reads)
  · rcases h.first with ⟨hr, -⟩ | ⟨rs, hr⟩
    · exact hnil (log_nil hr)
    · have hlog : s.log setup = talk ((body inputBin).run rs).log := by
        rw [log, hr, hs]
      have hne : ∀ q ∈ s.answers, q ≠ [] := by
        intro q hq
        obtain ⟨i, hi⟩ := List.mem_iff_getElem?.mp hq
        obtain ⟨c, -, b, hb, -⟩ := h.answered i q hi
        rintro rfl
        cases hb
      have howes : Owes s.answers rs := by
        refine ⟨stream s.answers, .inl rfl, s.arrived ++ s.flight, ?_⟩
        rw [← h.order, hr]
        rfl
      obtain ⟨answers', ha, -⟩ := (orderly_body inputBin).served s.answers rs hne howes
      have hp : (Espctl.taken (s.log setup)).map Prod.snd <+: s.answers := by
        rw [hlog, taken_talk]
        exact ⟨answers', ha.symm⟩
      refine ⟨hp, h.coded hp fun e he ↦ ?_⟩
      rw [hlog] at he
      exact (orderly_body inputBin).named rs e (List.mem_of_mem_filter he)

/-- In a run in which no block but the last is given up for a timeout, each
response is taken by the call whose request it answers. -/
theorem responses_matched (h : ReflTransGen (PromptStep setup) initial s) : Matched setup s := by
  have hi : Inv setup s := inv_run (h.lift id fun _ _ hs ↦ hs.1)
  obtain ⟨htaken, hcoded⟩ := hi.taken
  have hin : InPlace [] (s.log setup) := by
    rcases talk_espFlash setup with hs | ⟨inputBin, hfile, -, hs⟩
    · rw [log, hs]
      exact inPlace_nil _
    · rcases hi.first with ⟨hr, -⟩ | ⟨rs, hr⟩
      · rw [log_nil hr]
        exact inPlace_nil _
      · have hp := prompt_run h
        rw [hr] at hp
        rw [log, hr, hs] at hcoded ⊢
        exact @inPlace_body setup inputBin rs hfile [none] (fun b hb ↦ by cases hb) hs hcoded hp
  intro pre cmd p post hl hc
  obtain ⟨reqs, c, hreq, hcmd, hlen⟩ := hin pre cmd p post hl hc
  rw [List.nil_append] at hreq hlen
  refine ⟨reqs, c, hreq, hcmd, hlen, ?_⟩
  obtain ⟨t, ht⟩ := htaken
  rw [← ht, hl, taken_append, List.map_append, List.append_assoc, ← hlen,
    List.getElem?_append_right (by simp), List.length_map, Nat.sub_self]
  rfl

section Rounds

variable {reads : List (Option UInt8)} {answers : List Bytes} {bs flight arrived : Bytes}

theorem arrive_all (bs : Bytes) : ReflTransGen (PromptStep setup)
    ⟨reads, answers, bs ++ flight, arrived⟩ ⟨reads, answers, flight, arrived ++ bs⟩ := by
  induction bs generalizing arrived with
  | nil => simpa using ReflTransGen.refl
  | cons b bs ih =>
    have hs : PromptStep setup ⟨reads, answers, b :: bs ++ flight, arrived⟩
        ⟨reads, answers, bs ++ flight, arrived ++ [b]⟩ := ⟨.arrive rfl, fun _ h ↦ by simp at h⟩
    have ht := @ih (arrived ++ [b])
    rw [List.append_assoc] at ht
    exact .head hs ht

theorem read_all (h : ((espFlash setup).run (reads ++ bs.dropLast.map some)).outcome = .blocked) :
    ReflTransGen (PromptStep setup) ⟨reads, answers, flight, bs⟩
      ⟨reads ++ bs.map some, answers, flight, []⟩ := by
  induction bs generalizing reads with
  | nil => simpa using ReflTransGen.refl
  | cons b bs ih =>
    have hs : PromptStep setup ⟨reads, answers, flight, b :: bs⟩
        ⟨reads ++ [some b], answers, flight, bs⟩ :=
      ⟨.read (blocked_of_append h) rfl, fun _ h ↦ by simp at h⟩
    cases bs with
    | nil => exact .single hs
    | cons b' bs =>
      rw [List.dropLast_cons_cons, List.map_cons, ← List.singleton_append,
        ← List.append_assoc] at h
      have ht := ih h
      rw [List.append_assoc] at ht
      exact .head hs ht

theorem round {cmd : ℕ} {p : Bytes}
    (hreq : ((requests (talk ((espFlash setup).run reads).log))[answers.length]?).map Command.cmd =
      some cmd) (hn : Names cmd p)
    (hw : ((espFlash setup).run (reads ++ (stream [p]).dropLast.map some)).outcome = .blocked) :
    ReflTransGen (PromptStep setup) ⟨reads, answers, [], []⟩
      ⟨reads ++ (stream [p]).map some, answers ++ [p], [], []⟩ := by
  obtain ⟨c, hc, rfl⟩ := Option.map_eq_some_iff.mp hreq
  have hs : PromptStep setup ⟨reads, answers, [], []⟩ ⟨reads, answers ++ [p], stream [p], []⟩ :=
    ⟨.answer hc hn, fun _ h ↦ by simp at h⟩
  have ha := @arrive_all setup reads (answers ++ [p]) [] [] (stream [p])
  rw [List.append_nil] at ha
  exact .head hs (ha.trans (read_all hw))

theorem silence (hw : ((espFlash setup).run reads).outcome = .blocked)
    (hl : ∀ c, (talk ((espFlash setup).run reads).log).getLast? ≠ some (.request c)) :
    PromptStep setup ⟨reads, answers, [], []⟩ ⟨reads ++ [none], answers, [], []⟩ :=
  ⟨.timeout hw rfl, fun ⟨_, _, _, _, _, h, _⟩ _ ↦ hl _ h⟩

end Rounds

def twoBlocks : Setup := ⟨"image.bin", some (List.replicate 1025 0x41), [], true⟩

def dataAnswer (value : UInt8) : Bytes := [1, 3, 2, 0, value, 0, 0, 0, 0, 0]

def begunReads : List (Option UInt8) :=
  none :: ((stream [ack 0x08]).map some ++ none :: ((stream [ack 0x0D]).map some ++
    (stream [ack 0x02]).map some))

/-- The response to the first block comes after its read has timed out. -/
def lateReads : List (Option UInt8) := begunReads ++ none :: (stream [dataAnswer 0]).map some

def lateLink : Link :=
  ⟨lateReads, [ack 0x08, ack 0x0D, ack 0x02, dataAnswer 0, dataAnswer 1], stream [dataAnswer 1], []⟩

theorem begun_reachable : ReflTransGen (PromptStep twoBlocks) initial
    ⟨begunReads, [ack 0x08, ack 0x0D, ack 0x02], [], []⟩ := by
  have h₁ : PromptStep twoBlocks initial ⟨[none], [], [], []⟩ :=
    silence (by decide +kernel) (fun c ↦ by
      rw [show (talk ((espFlash twoBlocks).run []).log).getLast? = none by decide +kernel]
      simp)
  have h₂ := @round twoBlocks [none] [] romCommandSync (ack 0x08) (by decide +kernel)
    ⟨_, rfl, rfl⟩ (by decide +kernel)
  have h₃ : PromptStep twoBlocks ⟨[none] ++ (stream [ack 0x08]).map some, [ack 0x08], [], []⟩
      ⟨[none] ++ (stream [ack 0x08]).map some ++ [none], [ack 0x08], [], []⟩ :=
    silence (by decide +kernel) (fun c ↦ by
      rw [show (talk ((espFlash twoBlocks).run
        ([none] ++ (stream [ack 0x08]).map some)).log).getLast? =
          some (.response romCommandSync (some (ack 0x08))) by decide +kernel]
      simp)
  have h₄ := @round twoBlocks ([none] ++ (stream [ack 0x08]).map some ++ [none]) [ack 0x08]
    romCommandSpiAttach (ack 0x0D) (by decide +kernel) ⟨_, rfl, rfl⟩ (by decide +kernel)
  have h₅ := @round twoBlocks ([none] ++ (stream [ack 0x08]).map some ++ [none] ++
    (stream [ack 0x0D]).map some) [ack 0x08, ack 0x0D] romCommandFlashBegin (ack 0x02)
    (by decide +kernel) ⟨_, rfl, rfl⟩ (by decide +kernel)
  exact .head h₁ (h₂.trans (.head h₃ (h₄.trans h₅)))

theorem responses_matched_prompt : Matched twoBlocks
    ⟨begunReads ++ (stream [dataAnswer 0]).map some ++ (stream [dataAnswer 1]).map some,
      [ack 0x08, ack 0x0D, ack 0x02, dataAnswer 0, dataAnswer 1], [], []⟩ := by
  have h₁ := @round twoBlocks begunReads [ack 0x08, ack 0x0D, ack 0x02] romCommandFlashData
    (dataAnswer 0) (by decide +kernel) ⟨_, rfl, rfl⟩ (by decide +kernel)
  have h₂ := @round twoBlocks (begunReads ++ (stream [dataAnswer 0]).map some)
    [ack 0x08, ack 0x0D, ack 0x02, dataAnswer 0] romCommandFlashData (dataAnswer 1)
    (by decide +kernel) ⟨_, rfl, rfl⟩ (by decide +kernel)
  exact responses_matched (begun_reachable.trans (h₁.trans h₂))

theorem late_answer : ReflTransGen (Step twoBlocks) initial lateLink ∧
    ¬ Matched twoBlocks lateLink := by
  refine ⟨?_, fun h ↦ ?_⟩
  · have h₁ : Step twoBlocks ⟨begunReads, [ack 0x08, ack 0x0D, ack 0x02], [], []⟩
        ⟨begunReads ++ [none], [ack 0x08, ack 0x0D, ack 0x02], [], []⟩ :=
      .timeout (show ((espFlash twoBlocks).run begunReads).outcome = .blocked by decide +kernel) rfl
    have h₂ := @round twoBlocks (begunReads ++ [none]) [ack 0x08, ack 0x0D, ack 0x02]
      romCommandFlashData (dataAnswer 0) (by decide +kernel) ⟨_, rfl, rfl⟩ (by decide +kernel)
    have h₃ : ∃ c, (requests (lateLink.log twoBlocks))[4]? = some c ∧
        c.cmd = romCommandFlashData :=
      Option.map_eq_some_iff.mp (show ((requests (lateLink.log twoBlocks))[4]?).map Command.cmd =
        some romCommandFlashData by decide +kernel)
    obtain ⟨c, hc, hcmd⟩ := h₃
    have h₄ : Step twoBlocks ⟨lateReads, [ack 0x08, ack 0x0D, ack 0x02, dataAnswer 0], [], []⟩
        lateLink := .answer hc ⟨3, rfl, hcmd.symm⟩
    exact ((begun_reachable.lift id fun _ _ hs ↦ hs.1).tail h₁).trans
      ((h₂.lift id fun _ _ hs ↦ hs.1).tail h₄)
  · obtain ⟨reqs, c, hreq, -, hlen, -⟩ := h ((lateLink.log twoBlocks).take 10) romCommandFlashData
      (dataAnswer 0) ((lateLink.log twoBlocks).drop 11) (by decide +kernel) (.inr (.inl rfl))
    have hr : (requests ((lateLink.log twoBlocks).take 10)).length = 5 := by decide +kernel
    have ht : (taken ((lateLink.log twoBlocks).take 10)).length = 3 := by decide +kernel
    rw [hreq, List.length_append, List.length_singleton] at hr
    omega

end Link

end Esp32c6Fw.Espctl
