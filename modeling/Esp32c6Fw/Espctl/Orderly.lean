import Esp32c6Fw.Espctl.Stream

namespace Esp32c6Fw.Espctl

open Script Struct Framing

def Names (cmd : ℕ) (p : Bytes) : Prop := ∃ b, p[1]? = some b ∧ b.toNat = cmd

def Event.Named : Event → Prop
  | .response cmd (some p) => Names cmd p
  | _ => True

def Event.isResponse : Event → Bool
  | .response _ _ => true
  | _ => false

/-- A program that reads through `recv_response` only: when it returns, it has
used up whole frames, and what it took are the next answers in order. -/
structure Orderly {α : Type} (p : Host α) : Prop where
  used : ∀ rs a l e, p.run rs = ⟨.ok a, l, e⟩ →
    ∃ used, rs = used ++ l ∧ Whole used ∧ p.run used = ⟨.ok a, [], e⟩
  served : ∀ answers rs, (∀ q ∈ answers, q ≠ []) → Owes answers rs →
    ∃ answers', answers = (taken (p.run rs).log).map Prod.snd ++ answers' ∧
      ∀ a, (p.run rs).outcome = .ok a → Owes answers' (p.run rs).rest
  named : LogAll Event.Named p

variable {α β σ : Type} {p : Host α} {f : α → Host β} {cmd : ℕ} {rs : List (Option UInt8)}

theorem names_of_checkResponse {q : Bytes} (h : checkResponse q cmd = .ok ()) : Names cmd q := by
  unfold checkResponse at h
  split at h
  · cases h
  split at h
  · cases h
  split at h
  · cases h
  next hlen _ hcmd =>
    have h₁ : 1 < q.length := by omega
    refine ⟨q[1], List.getElem?_eq_getElem h₁, ?_⟩
    rw [List.getD_eq_getElem?_getD, List.getElem?_eq_getElem h₁] at hcmd
    exact not_not.mp hcmd

theorem orderly_pure (a : α) : Orderly (pure a : Host α) where
  used rs a l e h := by
    cases h
    exact ⟨[], rfl, fun b hb ↦ (by cases hb), rfl⟩
  served answers rs _ h := ⟨answers, rfl, fun _ _ ↦ h⟩
  named := logAll_pure a

theorem orderly_raise (x : Error) : Orderly (raise x : Host α) where
  used rs a l e h := by cases h
  served answers rs _ h := ⟨answers, rfl, fun _ _ ↦ h⟩
  named := logAll_raise x

theorem orderly_emit {e : Event} (h : e.isResponse = false) : Orderly (emit e : Host Unit) where
  used rs a l e h := by
    cases h
    exact ⟨[], rfl, fun b hb ↦ (by cases hb), rfl⟩
  served answers rs _ ho := by
    refine ⟨answers, ?_, fun _ _ ↦ ho⟩
    cases e with
    | response => cases h
    | _ => rfl
  named := logAll_emit (by cases e with
    | response => cases h
    | _ => trivial)

theorem Orderly.bind (hp : Orderly p) (hf : ∀ a, Orderly (f a)) : Orderly (p >>= f) where
  used rs b l e h := by
    rw [run_bind] at h
    have hu := hp.used rs
    generalize p.run rs = r at h hu
    obtain ⟨o, l₁, e₁⟩ := r
    cases o with
    | raise x | blocked => cases h
    | ok a =>
      obtain ⟨u₁, hu₁, hw₁, hr₁⟩ := hu a l₁ e₁ rfl
      have hu₂ := (hf a).used l₁
      rw [Result.ok_bind] at h
      generalize (f a).run l₁ = r at h hu₂
      obtain ⟨o, l₂, e₂⟩ := r
      cases h
      obtain ⟨u₂, rfl, hw₂, hr₂⟩ := hu₂ b l₂ e₂ rfl
      refine ⟨u₁ ++ u₂, by rw [hu₁, List.append_assoc], hw₁.append hw₂, ?_⟩
      rw [run_bind, run_append_of_ok hr₁, Result.ok_bind, List.nil_append, hr₂]
  served answers rs hne ho := by
    rw [run_bind]
    obtain ⟨answers₁, ha, hs⟩ := hp.served answers rs hne ho
    generalize p.run rs = r at ha hs
    obtain ⟨o, l, e⟩ := r
    cases o with
    | raise x | blocked => exact ⟨answers₁, ha, fun b hb ↦ (by cases hb)⟩
    | ok a =>
      subst ha
      obtain ⟨answers₂, ha₂, hs₂⟩ := (hf a).served answers₁ l
        (fun q hq ↦ hne q (List.mem_append_right _ hq)) (hs a rfl)
      refine ⟨answers₂, ?_, hs₂⟩
      rw [Result.ok_bind, taken_append, List.map_append, List.append_assoc, ← ha₂]
  named := hp.named.bind fun a ↦ (hf a).named

theorem orderly_ofExcept (x : Except Error α) : Orderly (ofExcept x) := by
  cases x with
  | ok a => exact orderly_pure a
  | error e => exact orderly_raise e

theorem orderly_print (line : String) : Orderly (print line) := orderly_emit rfl

theorem Orderly.reraise (hp : Orderly p) (x : Error) :
    Orderly (tryCatch p fun _ ↦ raise x) where
  used rs a l e h := by
    obtain ⟨used, hrs, hw, hr⟩ := hp.used rs a l e (reraise_eq_ok.mp h)
    exact ⟨used, hrs, hw, reraise_eq_ok.mpr hr⟩
  served answers rs hne ho := by
    obtain ⟨answers', ha, hs⟩ := hp.served answers rs hne ho
    rw [log_reraise]
    refine ⟨answers', ha, fun a h ↦ ?_⟩
    generalize hr : (tryCatch p fun _ ↦ raise x).run rs = r at h ⊢
    obtain ⟨o, l, e⟩ := r
    cases h
    rw [reraise_eq_ok.mp hr] at hs
    exact hs a rfl
  named l e he := by
    rw [log_reraise] at he
    exact hp.named l e he

theorem orderly_loop {body : σ → Host (σ ⊕ α)} (hc : ∀ s, Consumes (body s))
    (hb : ∀ s, Orderly (body s)) (s : σ) : Orderly (loop body s) where
  used rs := by
    induction h : rs.length using Nat.strong_induction_on generalizing rs s with
    | _ n ih =>
      intro a l e hr
      rw [run_loop hc] at hr
      have hu := (hb s).used rs
      have hl := hc s rs
      have hrun := fun (u : List (Option UInt8)) ↦ run_loop hc s u
      generalize (body s).run rs = r at hr hu hl
      obtain ⟨o, l₁, e₁⟩ := r
      cases o with
      | raise x | blocked => cases hr
      | ok b =>
        obtain ⟨u₁, hu₁, hw₁, hr₁⟩ := hu b l₁ e₁ rfl
        have hlen := hl b rfl
        cases b with
        | inr a' =>
          simp only [Result.ok_bind, List.append_nil] at hr
          cases hr
          exact ⟨u₁, hu₁, hw₁, by rw [hrun, hr₁]; simp⟩
        | inl s' =>
          simp only [Result.ok_bind] at hr
          have hu₂ := ih l₁.length (by simpa [h] using hlen) s' l₁ rfl
          generalize (loop body s').run l₁ = r at hr hu₂
          obtain ⟨o, l₂, e₂⟩ := r
          cases hr
          obtain ⟨u₂, rfl, hw₂, hr₂⟩ := hu₂ a l₂ e₂ rfl
          refine ⟨u₁ ++ u₂, by rw [hu₁, List.append_assoc], hw₁.append hw₂, ?_⟩
          rw [hrun, run_append_of_ok hr₁]
          simp only [Result.ok_bind, List.nil_append, hr₂]
  served answers rs := by
    induction h : rs.length using Nat.strong_induction_on generalizing rs s answers with
    | _ n ih =>
      intro hne ho
      rw [run_loop hc]
      obtain ⟨answers₁, ha, hs⟩ := (hb s).served answers rs hne ho
      have hl := hc s rs
      generalize (body s).run rs = r at ha hs hl
      obtain ⟨o, l₁, e₁⟩ := r
      cases o with
      | raise x | blocked => exact ⟨answers₁, ha, fun b hb ↦ (by cases hb)⟩
      | ok b =>
        have hlen := hl b rfl
        subst ha
        cases b with
        | inr a => exact ⟨answers₁, by simp, fun _ _ ↦ hs _ rfl⟩
        | inl s' =>
          obtain ⟨answers₂, ha₂, hs₂⟩ := ih l₁.length (by simpa [h] using hlen) s' answers₁ l₁ rfl
            (fun q hq ↦ hne q (List.mem_append_right _ hq)) (hs _ rfl)
          refine ⟨answers₂, ?_, hs₂⟩
          simp only [Result.ok_bind]
          rw [taken_append, List.map_append, List.append_assoc, ← ha₂]
  named := logAll_loop (fun s ↦ (hb s).named) s

theorem consumes_recvFrame (cmd : ℕ) : Consumes (recvFrame cmd) :=
  (Consumes.loop (fun _ ↦ skipEnd_consumes) ()).bind _

theorem consumes_recvResponse (cmd : ℕ) : Consumes (recvResponse cmd) :=
  (consumes_recvFrame cmd).bind _

def respond (cmd : ℕ) : Option Bytes → Host (Option Bytes)
  | none => do
    emit (.response cmd none)
    return none
  | some resp => do
    let packet ← ofExcept (slipDecode resp)
    ofExcept (checkResponse packet cmd)
    emit (.response cmd (some packet))
    return some packet

theorem recvResponse_eq (cmd : ℕ) : recvResponse cmd = recvFrame cmd >>= respond cmd := by
  refine congrArg (recvFrame cmd >>= ·) (funext fun frame ↦ ?_)
  cases frame <;> rfl

theorem respond_used {frame a : Option Bytes} {l l' : List (Option UInt8)} {e : List Event}
    (h : (respond cmd frame).run l = ⟨.ok a, l', e⟩) :
    l' = l ∧ ∀ l, (respond cmd frame).run l = ⟨.ok a, l, e⟩ := by
  cases frame with
  | none =>
    cases h
    exact ⟨rfl, fun _ ↦ rfl⟩
  | some resp =>
    simp only [respond, run_bind] at h ⊢
    cases hd : slipDecode resp with
    | error e => simp [hd] at h
    | ok packet =>
      cases hc : checkResponse packet cmd with
      | error e => simp [hd, hc] at h
      | ok _ =>
        simp only [hd, hc, run_ofExcept_ok, Result.ok_bind] at h ⊢
        cases h
        exact ⟨rfl, fun _ ↦ rfl⟩

theorem taken_respond (p : Bytes) (l : List (Option UInt8)) :
    ((respond cmd (some (slipEncode p))).run l).log = [] ∧
      (∀ a, ((respond cmd (some (slipEncode p))).run l).outcome ≠ .ok a) ∨
    (respond cmd (some (slipEncode p))).run l = ⟨.ok (some p), l, [.response cmd (some p)]⟩ := by
  simp only [respond, run_bind, slipDecode_slipEncode, run_ofExcept_ok, Result.ok_bind]
  cases checkResponse p cmd with
  | error e => exact .inl ⟨rfl, fun a ha ↦ (by cases ha)⟩
  | ok _ => exact .inr rfl

theorem orderly_recvResponse (cmd : ℕ) : Orderly (recvResponse cmd) where
  used rs a l e h := by
    rw [recvResponse_eq, run_bind] at h
    have hu := @recvFrame_used cmd rs
    generalize (recvFrame cmd).run rs = r at h hu
    obtain ⟨o, l₁, e₁⟩ := r
    cases o with
    | raise x | blocked => cases h
    | ok frame =>
      obtain ⟨used, hrs, hw, hr⟩ := hu rfl
      have hs := @respond_used cmd frame a l₁
      rw [Result.ok_bind] at h
      generalize (respond cmd frame).run l₁ = r at h hs
      obtain ⟨o, l₂, e₂⟩ := r
      cases h
      obtain ⟨rfl, hs'⟩ := hs rfl
      exact ⟨used, hrs, hw, by rw [recvResponse_eq, run_bind, hr, Result.ok_bind, hs']⟩
  served answers rs hne ho := by
    obtain ⟨hn, hs⟩ := @recvFrame_owes cmd answers rs hne ho
    have hlog := @recvFrame_log rs cmd
    rw [recvResponse_eq, run_bind]
    generalize (recvFrame cmd).run rs = r at hn hs hlog
    obtain ⟨o, l, e⟩ := r
    cases hlog
    cases o with
    | raise x | blocked => exact ⟨answers, rfl, fun a ha ↦ (by cases ha)⟩
    | ok frame =>
      rw [Result.ok_bind]
      cases frame with
      | none => exact ⟨answers, rfl, fun _ _ ↦ hn rfl⟩
      | some f =>
        obtain ⟨p, answers', rfl, rfl, ho'⟩ := hs f rfl
        rcases taken_respond p l with ⟨hl, hne'⟩ | hr
        · exact ⟨p :: answers', by rw [hl]; rfl, fun a ha ↦ absurd ha (hne' a)⟩
        · exact ⟨answers', by rw [hr]; rfl, fun _ _ ↦ by rw [hr]; exact ho'⟩
  named l e he := by
    have hr := received cmd l
    generalize (recvResponse cmd).run l = r at hr he
    cases hr with
    | timeout =>
      rw [List.mem_singleton.mp he]
      exact trivial
    | packet l hp =>
      rw [List.mem_singleton.mp he]
      exact names_of_checkResponse hp
    | raised | blocked => cases he

theorem recvResponse_timeout {l : List (Option UInt8)} {e : List Event}
    (h : (recvResponse cmd).run rs = ⟨.ok none, l, e⟩) :
    ∃ m, rs = List.replicate m (some slipEnd) ++ none :: l := by
  rw [recvResponse_eq, run_bind] at h
  have ht := @recvFrame_timeout cmd rs
  generalize (recvFrame cmd).run rs = r at h ht
  obtain ⟨o, l₁, e₁⟩ := r
  cases o with
  | raise x | blocked => cases h
  | ok frame =>
    cases frame with
    | none =>
      cases h
      exact ht rfl
    | some resp =>
      simp only [respond, Result.ok_bind, run_bind] at h
      cases hd : slipDecode resp with
      | error e => simp [hd] at h
      | ok packet =>
        cases hc : checkResponse packet cmd with
        | error e => simp [hd, hc] at h
        | ok _ => simp [hd, hc] at h

theorem recvResponse_ends (cmd m : ℕ) :
    (recvResponse cmd).run (List.replicate m (some slipEnd)) = ⟨.blocked, [], []⟩ := by
  rw [recvResponse_eq, run_bind, recvFrame_ends]
  rfl

theorem orderly_sendCommand (c : Command) : Orderly (sendCommand c) :=
  (orderly_ofExcept _).bind fun _ ↦ (orderly_emit rfl).bind fun _ ↦ (orderly_emit rfl).bind fun _ ↦
    (orderly_emit rfl).bind fun _ ↦ orderly_emit rfl

theorem orderly_syncDrain : Orderly syncDrain := by
  refine orderly_loop (fun _ ↦ (consumes_recvResponse _).bind _) (fun _ ↦ ?_) ()
  apply (orderly_recvResponse _).bind
  intro r
  cases r <;> exact orderly_pure _

theorem orderly_status (name : String) {success : Host Bool} (hs : Orderly success)
    (resp : Bytes) : Orderly (do
      let status ← ofExcept (index resp 8)
      let error ← ofExcept (index resp 9)
      if status ≠ 0 then
        print s!"{name} ERROR CODE: {error.toNat}"
        return false
      else success) := by
  refine (orderly_ofExcept _).bind fun status ↦ (orderly_ofExcept _).bind fun error ↦ ?_
  by_cases h : status ≠ 0
  · rw [if_pos h]
    exact (orderly_print _).bind fun _ ↦ orderly_pure _
  · rw [if_neg h]
    exact hs

theorem orderly_syncTurn : Orderly syncTurn := by
  refine Orderly.reraise ?_ _
  refine (orderly_sendCommand _).bind fun _ ↦ (orderly_recvResponse _).bind fun r ↦ ?_
  cases r with
  | none => exact orderly_pure _
  | some resp =>
    exact orderly_status "SYNC" (orderly_syncDrain.bind fun _ ↦ orderly_pure true) resp

theorem orderly_syncTurns (n : ℕ) : Orderly (syncTurns n) := by
  induction n with
  | zero => exact orderly_raise _
  | succ n ih =>
    apply orderly_syncTurn.bind
    intro b
    cases b with
    | false => exact ih
    | true => exact orderly_pure _

theorem orderly_sync : Orderly sync := (orderly_print _).bind fun _ ↦ orderly_syncTurns 10

theorem orderly_exchange (name : String) (c : Command) {wait : Host Unit} (hw : Orderly wait) :
    Orderly (exchange name c wait) := by
  refine (orderly_sendCommand c).bind fun _ ↦ hw.bind fun _ ↦ (orderly_recvResponse _).bind
    fun resp ↦ ?_
  by_cases hn : resp = none <;> simp only [hn, if_true, if_false]
  · exact (orderly_print _).bind fun _ ↦ orderly_pure _
  · exact orderly_pure _

theorem orderly_spiAttach (spiIf : ℕ) : Orderly (spiAttach spiIf) := by
  refine (orderly_print _).bind fun _ ↦ (orderly_ofExcept _).bind fun data ↦
    (orderly_exchange _ _ (orderly_pure _)).bind fun resp ↦ ?_
  cases resp with
  | none => exact orderly_pure _
  | some resp => exact orderly_status "SPI_ATTACH" (orderly_pure true) resp

theorem orderly_flashBegin (eraseSize nrBlocks blockSize offset encrypt : ℕ) :
    Orderly (flashBegin eraseSize nrBlocks blockSize offset encrypt) :=
  (orderly_print _).bind fun _ ↦ (orderly_ofExcept _).bind fun _ ↦
    (orderly_exchange _ _ (orderly_emit rfl)).bind fun _ ↦ orderly_pure _

theorem orderly_flashData (blockSize seq : ℕ) (payload : Bytes) :
    Orderly (flashData blockSize seq payload) :=
  (orderly_print _).bind fun _ ↦ (orderly_ofExcept _).bind fun _ ↦
    (orderly_exchange _ _ (orderly_pure _)).bind fun _ ↦ orderly_pure _

theorem orderly_flashEnd (reboot : Bool) : Orderly (flashEnd reboot) :=
  (orderly_print _).bind fun _ ↦ (orderly_ofExcept _).bind fun _ ↦
    (orderly_exchange _ _ (orderly_pure _)).bind fun _ ↦ orderly_pure _

theorem orderly_flashBlocks (blockSize seq left : ℕ) (inputBin : Bytes) :
    Orderly (flashBlocks blockSize seq left inputBin) := by
  induction left generalizing seq inputBin with
  | zero => exact orderly_pure _
  | succ left ih => exact (orderly_flashData ..).bind fun _ ↦ ih _ _

theorem orderly_flashImage (inputBin : Bytes) : Orderly (flashImage inputBin) :=
  (orderly_flashBegin ..).bind fun _ ↦ (orderly_flashBlocks ..).bind fun _ ↦
    (orderly_flashEnd _).bind fun _ ↦ orderly_pure _

end Esp32c6Fw.Espctl
