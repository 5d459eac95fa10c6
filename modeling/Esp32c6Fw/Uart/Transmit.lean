import Esp32c6Fw.Lib.Packing
import Esp32c6Fw.Uart.Driver
import Mathlib.Data.List.Infix

namespace Esp32c6Fw.Uart

open Mmio Soc

abbrev TxTrace := List (Moment TxPorts Addr Word)

def fifoByte (ch : Channel) (m : Moment TxPorts Addr Word) : Option Byte :=
  match m.access with
  | some (.write addr v) => if addr = uartFifoReg (uartBases ch) then some (v.setWidth 8) else none
  | _ => none

def fifoBytes (ch : Channel) (t : TxTrace) : List Byte := t.filterMap (fifoByte ch)

/-- What has left channel `ch` and what waits in its FIFO are what was there in `s₀` and the
bytes written since, each of which found space. Of the interrupts only `TXFIFO_EMPTY` has been
disabled, enabled or cleared. -/
structure TxIntact (ch : Channel) (s₀ : TxPorts) (t : TxTrace) (s : TxPorts) : Prop where
  stream : (s ch).line ++ (s ch).fifo = (s₀ ch).line ++ (s₀ ch).fifo ++ fifoBytes ch t
  space : ∀ m ∈ t, (fifoByte ch m).isSome → (m.before ch).fifo.length < fifoDepth
  enables : otherInts (s ch).intEna = otherInts (s₀ ch).intEna
  spares : ∀ m ∈ t, m.access.isSome →
    otherInts (m.after ch).intRaw = otherInts (m.before ch).intRaw

/-- The program point at which exactly `pre` has been written and `G` holds of the port. -/
structure TxPoint (ch : Channel) (s₀ : TxPorts) (pre : List Byte) (G : TxPort → Prop)
    (t : TxTrace) (s : TxPorts) : Prop where
  intact : TxIntact ch s₀ t s
  wrote : fifoBytes ch t = pre
  port : G (s ch)

/-- What an access that writes no byte to the FIFO may do to a port. -/
structure TxPort.Quiet (p p' : TxPort) : Prop where
  stream : p'.line ++ p'.fifo = p.line ++ p.fifo
  ena : otherInts p'.intEna = otherInts p.intEna
  raw : otherInts p'.intRaw = otherInts p.intRaw

theorem otherInts_clrbits (w : Word) : otherInts (w &&& ~~~0x2) = otherInts w := by
  rw [otherInts, otherInts, BitVec.and_assoc, BitVec.and_self]

theorem otherInts_setbits (w : Word) : otherInts (w ||| 0x2) = otherInts w := by
  ext i hi
  simp only [otherInts, BitVec.getElem_and, BitVec.getElem_or, BitVec.getElem_not]
  cases (0x2 : Word)[i] <;> simp

theorem txfifoEmptyIntSt_ne_zero (w : Word) : txfifoEmptyIntSt w ≠ 0 ↔ TxfifoEmpty w :=
  Packing.bit_ne_zero w 1

section Points

variable {threshold : Channel → Fin 128} {ch : Channel} {s₀ s s' : TxPorts} {pre : List Byte}
  {t : TxTrace} {G G' : TxPort → Prop}

theorem TxPoint.mono (h : TxPoint ch s₀ pre G t s) (hG : G (s ch) → G' (s ch)) :
    TxPoint ch s₀ pre G' t s := ⟨h.intact, h.wrote, hG h.port⟩

theorem TxPoint.snoc {m : Moment TxPorts Addr Word} (h : TxPoint ch s₀ pre G t s)
    (hs : (s' ch).line ++ (s' ch).fifo = (s ch).line ++ (s ch).fifo ++ (fifoByte ch m).toList)
    (hm : (fifoByte ch m).isSome → (m.before ch).fifo.length < fifoDepth)
    (he : otherInts (s' ch).intEna = otherInts (s ch).intEna)
    (hr : m.access.isSome → otherInts (m.after ch).intRaw = otherInts (m.before ch).intRaw)
    (hG : G' (s' ch)) : TxPoint ch s₀ (pre ++ (fifoByte ch m).toList) G' (t ++ [m]) s' := by
  have hb : fifoBytes ch (t ++ [m]) = fifoBytes ch t ++ (fifoByte ch m).toList :=
    filterMap_snoc _ t m
  refine ⟨⟨?_, ?_, ?_, ?_⟩, ?_, hG⟩
  · rw [hs, h.intact.stream, hb, List.append_assoc _ (fifoBytes ch t)]
  · exact forall_mem_snoc h.intact.space hm
  · exact he.trans h.intact.enables
  · exact forall_mem_snoc h.intact.spares hr
  · rw [hb, h.wrote]

theorem TxPoint.silent {m : Moment TxPorts Addr Word} (h : TxPoint ch s₀ pre G t s)
    (hm : fifoByte ch m = none) (hs : (s' ch).line ++ (s' ch).fifo = (s ch).line ++ (s ch).fifo)
    (he : otherInts (s' ch).intEna = otherInts (s ch).intEna)
    (hr : m.access.isSome → otherInts (m.after ch).intRaw = otherInts (m.before ch).intRaw)
    (hG : G' (s' ch)) : TxPoint ch s₀ pre G' (t ++ [m]) s' := by
  have hn := h.snoc (m := m) (by rw [hs, hm]; simp) (by simp [hm]) he hr hG
  rwa [hm, Option.toList_none, List.append_nil] at hn

theorem point_stable (hG : ∀ p p', G p → p.Env (threshold ch) p' → G p') :
    Stable (device threshold) (TxPoint ch s₀ pre G) where
  env t s s' h he := by
    obtain ⟨sent, hf, hl⟩ := (he ch).drain
    refine h.silent rfl ?_ (by rw [(he ch).ena]) (fun hs ↦ by cases hs) (hG _ _ h.port (he ch))
    rw [hl, hf, List.append_assoc]
  read t s addr h := h.silent rfl rfl rfl (fun _ ↦ rfl) h.port

theorem TxPoint.store_reg {ofs : Addr} {v : Word} (h : TxPoint ch s₀ pre G t s)
    (ho : ofs < uartSize) (hf : ofs ≠ uartFifoOfs) (hs : s' = store s (uartBases ch + ofs) v)
    (hq : (s ch).Quiet ((s ch).store ofs v)) (hG : G' ((s ch).store ofs v)) :
    TxPoint ch s₀ pre G' (t ++ [⟨s, some (.write (uartBases ch + ofs) v), s'⟩]) s' := by
  have hp : s' ch = (s ch).store ofs v := by
    rw [hs, Uart.store_reg s ch ho, Function.update_self]
  have hb : uartBases ch + ofs ≠ uartFifoReg (uartBases ch) := fun he ↦
    hf ((BitVec.add_right_inj _).mp he)
  refine h.silent (if_neg hb) ?_ ?_ (fun _ ↦ ?_) ?_
  · rw [hp, hq.stream]
  · rw [hp, hq.ena]
  · change otherInts (s' ch).intRaw = _
    rw [hp, hq.raw]
  · rwa [hp]

theorem TxPoint.store_fifo {v : Word} (h : TxPoint ch s₀ pre G t s)
    (hl : (s ch).fifo.length < fifoDepth)
    (hs : s' = store s (uartFifoReg (uartBases ch)) v) (hG : G' (s' ch)) :
    TxPoint ch s₀ (pre ++ [v.setWidth 8]) G'
      (t ++ [⟨s, some (.write (uartFifoReg (uartBases ch)) v), s'⟩]) s' := by
  have hp : s' ch = { s ch with fifo := (s ch).fifo ++ [v.setWidth 8] } := by
    rw [hs, uartFifoReg, Uart.store_reg s ch (by decide), Function.update_self, TxPort.store,
      if_pos rfl, if_pos hl]
  have hb : fifoByte ch ⟨s, some (.write (uartFifoReg (uartBases ch)) v), s'⟩ =
      some (v.setWidth 8) := if_pos rfl
  have hr : (s' ch).intRaw = (s ch).intRaw := by rw [hp]
  rw [← Option.toList_some, ← hb]
  refine h.snoc ?_ (fun _ ↦ hl) (by rw [hp]) (fun _ ↦ congrArg otherInts hr) hG
  rw [hb, hp, Option.toList_some, List.append_assoc]

end Points

def Below (threshold : Channel → Fin 128) (ch : Channel) (p : TxPort) : Prop :=
  p.fifo.length < threshold ch

/-- If `TXFIFO_EMPTY` is on, then not from before the last byte was written. -/
def Fresh (threshold : Channel → Fin 128) (ch : Channel) (p : TxPort) : Prop :=
  TxfifoEmpty p.intRaw → Below threshold ch p

section Calls

variable {threshold : Channel → Fin 128} {ch : Channel} {s₀ s : TxPorts} {pre : List Byte}
  {t : TxTrace} {I : TxTrace → TxPorts → Prop} {G : TxPort → Prop} {p p' : TxPort}

theorem Below.env (h : Below threshold ch p) (he : p.Env (threshold ch) p') :
    Below threshold ch p' := by
  obtain ⟨sent, hf, -⟩ := he.drain
  have hl := congrArg List.length hf
  rw [List.length_append] at hl
  rw [Below] at h ⊢
  omega

theorem Fresh.env (h : Fresh threshold ch p) (he : p.Env (threshold ch) p') :
    Fresh threshold ch p' := by
  intro hr
  rcases he.empty hr with hr | hb
  · exact (h hr).env he
  · exact hb

theorem intEna_safe {k : Driver (BitVec 32)} {Q : BitVec 32 → TxTrace → TxPorts → Prop}
    {f : Word → Word} (hf : ∀ w, otherInts (f w) = otherInts w)
    (hG : ∀ p p', G p → p.Env (threshold ch) p' → G p')
    (hG' : ∀ p v, G p → G { p with intEna := v })
    (hI : ∀ t s, TxPoint ch s₀ pre (fun _ ↦ True) t s → I t s)
    (hk : ∀ t s, TxPoint ch s₀ pre G t s → Safe (device threshold) I Q k t s)
    (h : TxPoint ch s₀ pre G t s) :
    Safe (device threshold) I Q (.read (uartIntEnaReg (uartBases ch)) fun v ↦
      .write (uartIntEnaReg (uartBases ch)) (f v) k) t s := by
  have hI' {G : TxPort → Prop} (t s) (h : TxPoint ch s₀ pre G t s) : I t s :=
    hI t s (h.mono fun _ ↦ trivial)
  refine Safe.read (point_stable hG) hI' (fun t s h ↦ ?_) h
  have hl : (device threshold).load s (uartIntEnaReg (uartBases ch)) = (s ch).intEna :=
    load_reg s ch (by decide)
  rw [hl]
  generalize hv : (s ch).intEna = v
  have hst : Stable (device threshold) (TxPoint ch s₀ pre fun p ↦ G p ∧ p.intEna = v) :=
    point_stable fun p p' h he ↦ ⟨hG p p' h.1 he, he.ena.trans h.2⟩
  refine Safe.write hst hI' (fun t s s' h hs ↦ hk _ _ ?_) (h.mono fun hg ↦ ⟨hg, hv⟩)
  refine h.store_reg (by decide) (by decide) hs ⟨rfl, ?_, rfl⟩ (hG' _ _ h.port.1)
  exact (hf v).trans (congrArg otherInts h.port.2.symm)

/-- The acknowledgement: INT_CLR reads as 0, so 0x2 is written. -/
theorem intClr_safe {k : Driver (BitVec 32)} {Q : BitVec 32 → TxTrace → TxPorts → Prop}
    (hI : ∀ t s, TxPoint ch s₀ pre (fun _ ↦ True) t s → I t s)
    (hk : ∀ t s, TxPoint ch s₀ pre (Fresh threshold ch) t s →
      Safe (device threshold) I Q k t s)
    (h : TxPoint ch s₀ pre (fun _ ↦ True) t s) :
    Safe (device threshold) I Q (.read (uartIntClrReg (uartBases ch)) fun v ↦
      .write (uartIntClrReg (uartBases ch)) (v ||| 0x2) k) t s := by
  have hst : Stable (device threshold) (TxPoint ch s₀ pre fun _ ↦ True) :=
    point_stable fun _ _ _ _ ↦ trivial
  refine Safe.read hst hI (fun t s h ↦ ?_) h
  have hl : (device threshold).load s (uartIntClrReg (uartBases ch)) = 0 :=
    load_reg s ch (by decide)
  rw [hl]
  refine Safe.write hst hI (fun t s s' h hs ↦ hk _ _ ?_) h
  refine h.store_reg (by decide) (by decide) hs ⟨rfl, rfl, otherInts_clrbits _⟩ fun hr ↦ ?_
  have hc : ((s ch).intRaw &&& ~~~(0 ||| 0x2)).getLsbD 1 = false := by simp
  exact absurd (hc.symm.trans hr) Bool.false_ne_true

theorem setWidth_low (c : Byte) : (c.setWidth 32 &&& 0xFF).setWidth 8 = c := by
  rw [BitVec.setWidth_and, BitVec.setWidth_setWidth_of_le _ (by decide), BitVec.setWidth_eq]
  exact BitVec.and_allOnes

theorem uartTxChar_safe {c : Byte}
    (hI : ∀ t s, TxPoint ch s₀ pre (fun _ ↦ True) t s → I t s)
    (hI' : ∀ t s, TxPoint ch s₀ (pre ++ [c]) (fun _ ↦ True) t s → I t s)
    (h : TxPoint ch s₀ pre (Below threshold ch) t s) :
    Safe (device threshold) I
      (fun a t s ↦ a = 0 ∧ TxPoint ch s₀ (pre ++ [c]) (Below threshold ch) t s)
      (uartTxChar ch c) t s := by
  have hb : Stable (device threshold) (TxPoint ch s₀ pre (Below threshold ch)) :=
    point_stable fun _ _ h he ↦ h.env he
  have hIb (t s) (h : TxPoint ch s₀ pre (Below threshold ch) t s) : I t s :=
    hI t s (h.mono fun _ ↦ trivial)
  refine Safe.poll hb hIb (fun t s h _ ↦ ?_) h
  refine intEna_safe otherInts_clrbits (fun _ _ h he ↦ h.env he) (fun _ _ h ↦ h) hI
    (fun t s h ↦ ?_) h
  refine Safe.write hb hIb (fun t s s' h hs ↦ ?_) h
  have hlt : (s ch).fifo.length < fifoDepth := h.port.trans (threshold ch).isLt
  have hw : TxPoint ch s₀ _ (fun _ ↦ True) _ s' := h.store_fifo hlt hs trivial
  rw [setWidth_low] at hw
  refine intClr_safe hI' (fun t s h ↦ ?_) hw
  refine intEna_safe otherInts_setbits (fun _ _ h he ↦ h.env he) (fun _ _ h ↦ h) hI'
    (fun t s h ↦ ?_) h
  have hf : Stable (device threshold) (TxPoint ch s₀ (pre ++ [c]) (Fresh threshold ch)) :=
    point_stable fun _ _ h he ↦ h.env he
  refine Safe.poll hf (fun t s h ↦ hI' t s (h.mono fun _ ↦ trivial)) (fun t s h hr ↦ ?_) h
  have hl : (device threshold).load s (uartIntStReg (uartBases ch)) =
      (s ch).intRaw &&& (s ch).intEna := load_reg s ch (by decide)
  rw [hl, decide_eq_true_iff, txfifoEmptyIntSt_ne_zero, TxfifoEmpty, BitVec.getLsbD_and,
    Bool.and_eq_true] at hr
  refine Safe.ret (P := TxPoint ch s₀ (pre ++ [c]) (Below threshold ch))
    (point_stable fun _ _ h he ↦ h.env he) (fun t s h ↦ hI' t s (h.mono fun _ ↦ trivial))
    (fun _ _ h ↦ ⟨rfl, h⟩) (h.mono fun hg ↦ hg hr.1)

def OfChannel (ch : Channel) (addr : Addr) (_v : Word) : Prop :=
  ∃ ofs < uartSize, addr = uartBases ch + ofs

theorem uartTxChar_onlyWrites (ch : Channel) (c : Byte) :
    OnlyWrites (OfChannel ch) (uartTxChar ch c) := by
  have hr (ofs v : Addr) (h : ofs < uartSize) : OfChannel ch (uartBases ch + ofs) v :=
    ⟨ofs, h, rfl⟩
  intro _ _
  refine ⟨hr _ _ (by decide), hr _ _ (by decide), fun _ ↦ ⟨hr _ _ (by decide), fun _ ↦ ?_⟩⟩
  exact ⟨hr _ _ (by decide), fun _ ↦ trivial⟩

theorem otherChannel_safe {ch' : Channel} (hne : ch' ≠ ch) {c : Byte}
    (hI : ∀ t s, TxPoint ch s₀ pre (fun _ ↦ True) t s → I t s)
    (h : TxPoint ch s₀ pre (Below threshold ch) t s) :
    Safe (device threshold) I
      (fun a t s ↦ a = 0 ∧ TxPoint ch s₀ pre (Below threshold ch) t s)
      (uartTxChar ch' c) t s := by
  refine Safe.frame (R := (· = 0)) (point_stable fun _ _ h he ↦ h.env he)
    (fun t s h ↦ hI t s (h.mono fun _ ↦ trivial)) (fun t s addr v s' hw h hs ↦ ?_)
    (fun _ _ _ ha h ↦ ⟨ha, h⟩) (uartTxChar_onlyWrites ch' c) (fun _ _ _ _ _ ↦ rfl) h
  obtain ⟨ofs, ho, rfl⟩ := hw
  have hp : s' ch = s ch := by
    rw [show s' = store s _ v from hs, store_reg s ch' ho, Function.update_of_ne hne.symm]
  have hb : uartBases ch' + ofs ≠ uartFifoReg (uartBases ch) := by
    intro he
    have hd := decode_reg ch' ho
    rw [he, uartFifoReg, decode_reg ch (by decide)] at hd
    exact hne (congrArg Prod.fst (Option.some.inj hd)).symm
  refine h.silent (if_neg hb) (by rw [hp]) (by rw [hp]) (fun _ ↦ ?_) (hp ▸ h.port)
  change otherInts (s' ch).intRaw = _
  rw [hp]

end Calls

structure TxCall where
  ch : Channel
  c : Byte

def TxCall.prog (call : TxCall) : Driver (BitVec 32) := uartTxChar call.ch call.c

def bytesFor (ch : Channel) (calls : List TxCall) : List Byte :=
  calls.filterMap fun call ↦ if call.ch = ch then some call.c else none

/-- How channel `ch` fares in a session that leads from `s` to `s'`: what its calls that have
returned sent has been written, what has been written is a prefix of what they all send, and
whenever a call returns the occupancy is below the threshold. -/
structure Transmitted (threshold : Channel → Fin 128) (ch : Channel) (calls : List TxCall)
    (s : TxPorts) (t : TxTrace) (as : List (BitVec 32)) (qs : List (Driver (BitVec 32)))
    (s' : TxPorts) : Prop where
  intact : TxIntact ch s t s'
  returned : ∃ done rest, calls = done ++ rest ∧ qs.length = rest.length ∧
    as = done.map (fun _ ↦ 0) ∧ bytesFor ch done <+: fifoBytes ch t
  inOrder : fifoBytes ch t <+: bytesFor ch calls
  below : (qs = [] ∨ ∃ a qs', qs = .ret a :: qs') → (s' ch).fifo.length < threshold ch

section Sessions

variable {threshold : Channel → Fin 128} {ch : Channel} {calls : List TxCall} {s s' : TxPorts}
  {t : TxTrace} {as : List (BitVec 32)} {qs : List (Driver (BitVec 32))}

theorem txCall_safe {s₀ : TxPorts} {I : TxTrace → TxPorts → Prop} {done : List TxCall}
    {call : TxCall}
    (hI : ∀ t s, TxPoint ch s₀ (bytesFor ch done) (fun _ ↦ True) t s → I t s)
    (hI' : ∀ t s, TxPoint ch s₀ (bytesFor ch (done ++ [call])) (fun _ ↦ True) t s → I t s)
    (h : TxPoint ch s₀ (bytesFor ch done) (Below threshold ch) t s) :
    Safe (device threshold) I
      (fun a t s ↦ a = 0 ∧ TxPoint ch s₀ (bytesFor ch (done ++ [call])) (Below threshold ch) t s)
      call.prog t s := by
  have hb : bytesFor ch (done ++ [call]) = bytesFor ch done ++
      (if call.ch = ch then some call.c else none).toList := filterMap_snoc _ done call
  rw [hb] at hI' ⊢
  by_cases hc : call.ch = ch
  · rw [if_pos hc] at hI' ⊢
    have hs := uartTxChar_safe hI hI' h
    rwa [← hc] at hs ⊢
  · rw [if_neg hc, Option.toList_none, List.append_nil]
    exact otherChannel_safe hc hI h

theorem transmit_intact (h : (s ch).fifo.length < threshold ch)
    (hs : Session (device threshold) (calls.map TxCall.prog) s t as qs s') :
    Transmitted threshold ch calls s t as qs s' := by
  let J (done : List TxCall) := TxPoint ch s (bytesFor ch done) (Below threshold ch)
  let I (done : List TxCall) (t : TxTrace) (s' : TxPorts) : Prop :=
    ∃ pre, TxPoint ch s pre (fun _ ↦ True) t s' ∧ bytesFor ch done <+: pre ∧
      pre <+: bytesFor ch calls
  have hJ : Stable (device threshold) (J calls) := point_stable fun _ _ h he ↦ h.env he
  have call : ∀ done c rest t s, calls = done ++ c :: rest → J done t s →
      Safe (device threshold) (I done) (fun a t s ↦ a = 0 ∧ J (done ++ [c]) t s) c.prog t s := by
    intro done c rest t s hcs h
    have hpre : bytesFor ch (done ++ [c]) <+: bytesFor ch calls := by
      rw [hcs, List.append_cons done c rest]
      exact (List.prefix_append _ _).filterMap _
    have hpre' : bytesFor ch done <+: bytesFor ch (done ++ [c]) :=
      (List.prefix_append _ _).filterMap _
    exact txCall_safe (fun t s h ↦ ⟨_, h, List.prefix_refl _, hpre'.trans hpre⟩)
      (fun t s h ↦ ⟨_, h, hpre', hpre⟩) h
  have h₀ : J [] [] s := by
    refine ⟨⟨?_, ?_, rfl, ?_⟩, rfl, h⟩
    · simp [fifoBytes]
    · simp
    · simp
  obtain ⟨done, rest, h₁, h₂, h₃, pre, hp, h₄, h₅⟩ :=
    session_safe (I := I) (J := J) hJ
      (fun t s h ↦ ⟨_, h.mono fun _ ↦ trivial, List.prefix_refl _, List.prefix_refl _⟩) call h₀ hs
  have hw := hp.wrote
  subst hw
  refine ⟨hp.intact, ⟨done, rest, h₁, h₃, h₂, h₄⟩, h₅, fun hq ↦ ?_⟩
  obtain ⟨done', hd⟩ := session_returned (I := I) (J := J) hJ call h₀ hs hq
  exact hd.port

end Sessions

/-- The first UART at `p`, the second at rest. -/
def ports (p : TxPort) : TxPorts
  | 0 => p
  | 1 => ⟨0, 0, 0, [], []⟩

theorem store_ports (p : TxPort) {ofs : Addr} (h : ofs < uartSize) (v : Word) :
    store (ports p) (uartBases 0 + ofs) v = ports (p.store ofs v) := by
  rw [store_reg _ _ h]
  funext ch
  match ch with
  | 0 => rw [Function.update_self, ports, ports]
  | 1 => rw [Function.update_of_ne (by decide), ports, ports]

theorem takes_ports {p : TxPort} {sent left : List Byte} (hf : p.fifo = sent ++ left)
    (hlt : left.length < 10) (ch : Channel) :
    (ports p ch).Env 10
      (ports { p with intRaw := p.intRaw ||| 0x2, fifo := left, line := p.line ++ sent } ch) := by
  match ch with
  | 0 => exact ⟨⟨sent, hf, rfl⟩, rfl, fun _ ↦ .inr hlt⟩
  | 1 => exact ⟨⟨[], rfl, rfl⟩, rfl, .inl⟩

theorem run_uartTxChar {fifo line sent left : List Byte} {c : Byte}
    (hf : fifo ++ [c] = sent ++ left) (hroom : fifo.length < fifoDepth) (hlt : left.length < 10) :
    ∃ t, Run (device fun _ ↦ 10) (uartTxChar 0 c) (ports ⟨0, 2, 2, fifo, line⟩) t (.ret 0)
      (ports ⟨0, 2, 2, left, line ++ sent⟩) := by
  have h₁ : store (ports ⟨0, 2, 2, fifo, line⟩) (uartIntEnaReg (uartBases 0)) (2 &&& ~~~0x2) =
      ports ⟨0, 2, 0, fifo, line⟩ := @store_ports _ uartIntEnaOfs (by decide) _
  have h₂ : store (ports ⟨0, 2, 0, fifo, line⟩) (uartFifoReg (uartBases 0))
      (c.setWidth 32 &&& 0xFF) = ports ⟨0, 2, 0, fifo ++ [c], line⟩ := by
    have hofs : uartFifoOfs < uartSize := by decide
    rw [uartFifoReg, store_ports _ hofs, TxPort.store, if_pos rfl, if_pos hroom, setWidth_low]
  have h₃ : store (ports ⟨0, 2, 0, fifo ++ [c], line⟩) (uartIntClrReg (uartBases 0))
      (0 ||| 0x2) = ports ⟨0, 0, 0, fifo ++ [c], line⟩ := by
    have hraw : (2 : Word) &&& ~~~(0 ||| 0x2) = 0 := by decide
    have h := @store_ports ⟨0, 2, 0, fifo ++ [c], line⟩ uartIntClrOfs (by decide) (0 ||| 0x2)
    rw [show TxPort.store _ _ _ = ⟨0, 2 &&& ~~~(0 ||| 0x2), 0, fifo ++ [c], line⟩ from rfl,
      hraw] at h
    exact h
  have h₄ : store (ports ⟨0, 0, 0, fifo ++ [c], line⟩) (uartIntEnaReg (uartBases 0))
      (0 ||| 0x2) = ports ⟨0, 0, 0 ||| 0x2, fifo ++ [c], line⟩ :=
    @store_ports ⟨0, 0, 0, fifo ++ [c], line⟩ uartIntEnaOfs (by decide) _
  have h₅ : (device fun _ ↦ 10).env (ports ⟨0, 0, 0 ||| 0x2, fifo ++ [c], line⟩)
      (ports ⟨0, 2, 2, left, line ++ sent⟩) := by
    have hset : (0 : Word) ||| 0x2 = 2 := by decide
    have h := @takes_ports ⟨0, 0, 0 ||| 0x2, fifo ++ [c], line⟩ sent left hf hlt
    rwa [hset] at h
  have hload (p : TxPort) {ofs : Addr} (h : ofs < uartSize) :
      (device fun _ ↦ 10).load (ports p) (uartBases 0 + ofs) = p.load ofs := load_reg (ports p) 0 h
  have hupdate : decide (update ((device fun _ ↦ 10).load (ports ⟨0, 2, 2, fifo, line⟩)
      (uartRegUpdateReg (uartBases 0))) = 0) = true := by
    rw [uartRegUpdateReg, hload _ (by decide)]
    exact (by decide : decide (update 0 = 0) = true)
  have hempty : decide (txfifoEmptyIntSt ((device fun _ ↦ 10).load
      (ports ⟨0, 2, 2, left, line ++ sent⟩) (uartIntStReg (uartBases 0))) ≠ 0) = true := by
    rw [uartIntStReg, hload _ (by decide)]
    exact (by decide : decide (txfifoEmptyIntSt (2 &&& 2) ≠ 0) = true)
  exact ⟨_, .cons (.ready hupdate) (.cons (.read _ _ _) (.cons (.write h₁.symm)
    (.cons (.write h₂.symm) (.cons (.read _ _ _) (.cons (.write h₃.symm) (.cons (.read _ _ _)
    (.cons (.write h₄.symm) (.cons (.env h₅) (.cons (.ready hempty) (.nil _ _))))))))))⟩

/-- `uart_tx_char(0, 'A')` and `uart_tx_char(0, 'B')`, with a byte in the FIFO already. The
transmitter takes a byte in each of them. -/
theorem session_AB : ∃ t, Session (device fun _ ↦ 10) ([⟨0, 0x41⟩, ⟨0, 0x42⟩].map TxCall.prog)
    (ports ⟨0, 2, 2, [0x40], []⟩) t [0, 0] [] (ports ⟨0, 2, 2, [0x42], [0x40, 0x41]⟩) := by
  obtain ⟨t₁, h₁⟩ := @run_uartTxChar [0x40] [] [0x40] [0x41] 0x41 rfl (by decide) (by decide)
  obtain ⟨t₂, h₂⟩ := @run_uartTxChar [0x41] [0x40] [0x41] [0x42] 0x42 rfl (by decide) (by decide)
  exact ⟨_, session_of_run h₁ rfl (session_of_run h₂ rfl (.nil [] _))⟩

theorem transmit_intact_AB : ∃ t, Transmitted (fun _ ↦ 10) 0 [⟨0, 0x41⟩, ⟨0, 0x42⟩]
    (ports ⟨0, 2, 2, [0x40], []⟩) t [0, 0] [] (ports ⟨0, 2, 2, [0x42], [0x40, 0x41]⟩) := by
  obtain ⟨t, hs⟩ := session_AB
  exact ⟨t, transmit_intact (by decide) hs⟩

end Esp32c6Fw.Uart
