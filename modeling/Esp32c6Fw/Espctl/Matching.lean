import Esp32c6Fw.Espctl.Orderly

namespace Esp32c6Fw.Espctl

open Script Struct Framing

def OfFlash (cmd : ℕ) : Prop :=
  cmd = romCommandFlashBegin ∨ cmd = romCommandFlashData ∨ cmd = romCommandFlashEnd

/-- After the talk `old`, each response that a flash command takes in `t` has the
same place among the responses as the request of that command among the requests. -/
def InPlace (old t : List Event) : Prop :=
  ∀ pre cmd p post, t = pre ++ .response cmd (some p) :: post → OfFlash cmd →
    ∃ (reqs : List Command) (c : Command), requests (old ++ pre) = reqs ++ [c] ∧ c.cmd = cmd ∧
      (taken (old ++ pre)).length = reqs.length

/-- Each response is taken by a command like the request in its place. -/
def Coded (t : List Event) : Prop :=
  ∀ (i cmd : ℕ) (p : Bytes), (taken t)[i]? = some (cmd, p) →
    ∃ c : Command, (requests t)[i]? = some c ∧ c.cmd = cmd

structure Behind (cmds : List ℕ) (old : List Event) : Prop where
  le : (taken old).length ≤ (requests old).length
  skipped : ∀ c : Command, c ∈ (requests old).drop (taken old).length → c.cmd ∉ cmds

variable {α β : Type} {c : Command} {cmds : List ℕ} {old t t' pre : List Event}
  {rs l : List (Option UInt8)} {r : Result (Option UInt8) Error Event (Option Bytes)}

theorem requests_append (e e' : List Event) : requests (e ++ e') = requests e ++ requests e' :=
  List.filterMap_append ..

theorem requests_talk (e : List Event) : requests (talk e) = requests e := by
  induction e with
  | nil => rfl
  | cons e es ih =>
    cases e with
    | request c => exact congrArg (c :: ·) ih
    | _ => exact ih

theorem taken_talk (e : List Event) : taken (talk e) = taken e := by
  induction e with
  | nil => rfl
  | cons e es ih =>
    cases e with
    | response cmd p =>
      cases p with
      | none => exact ih
      | some p => exact congrArg ((cmd, p) :: ·) ih
    | _ => exact ih

theorem inPlace_nil (old : List Event) : InPlace old [] := by
  intro pre cmd p post h
  cases pre <;> cases h

theorem inPlace_append : InPlace old t → InPlace (old ++ t) t' → InPlace old (t ++ t') := by
  intro h h' pre cmd p post ht hc
  rcases List.append_eq_append_iff.mp ht with ⟨mid, rfl, hm⟩ | ⟨mid, rfl, hm⟩
  · rw [← List.append_assoc]
    exact h' mid cmd p post hm hc
  · cases mid with
    | nil =>
      have hp := h' [] cmd p post (by simpa using hm.symm) hc
      simpa using hp
    | cons e mid =>
      obtain ⟨rfl, -⟩ := List.cons_eq_cons.mp hm
      exact h pre cmd p mid rfl hc

theorem inPlace_ofSync (h : ∀ e ∈ t, e.OfSync) : InPlace old t := by
  intro pre cmd p post ht hc
  have hs : cmd = romCommandSync := h (.response cmd (some p)) (by simp [ht])
  rw [hs] at hc
  exact absurd hc (by unfold OfFlash; decide)

theorem requests_received {cmd : ℕ} (hr : Received cmd r) : requests r.log = [] := by
  cases hr <;> rfl

theorem taken_received {cmd : ℕ} (hr : Received cmd r) :
    r.outcome = .ok none ∧ taken r.log = [] ∨ taken r.log = [] ∧ (∀ resp, r.outcome ≠ .ok resp) ∨
      ∃ p, r.outcome = .ok (some p) ∧ r.log = [.response cmd (some p)] := by
  cases hr with
  | timeout => exact .inl ⟨rfl, rfl⟩
  | packet => exact .inr (.inr ⟨_, rfl, rfl⟩)
  | raised | blocked => exact .inr (.inl ⟨rfl, fun _ h ↦ (by cases h)⟩)

section Exchange

variable (hb : Behind cmds old) (hc : c.cmd ∈ cmds)
include hb hc

/-- A response that is taken is the one to the last request: the ones before it
are not of its command. -/
theorem taken_eq_requests (hT : Coded (old ++ .request c :: (r.log ++ t))) {p : Bytes}
    (hlog : r.log = [.response c.cmd (some p)]) : (taken old).length = (requests old).length := by
  obtain ⟨c', hc', hcmd⟩ := hT (taken old).length c.cmd p (by
    rw [hlog, taken_append, List.getElem?_append_right (le_refl _), Nat.sub_self]
    rfl)
  by_contra hne
  have hlt : (taken old).length < (requests old).length := lt_of_le_of_ne hb.le hne
  rw [requests_append, List.getElem?_append_left hlt] at hc'
  refine hb.skipped c' ?_ (hcmd ▸ hc)
  refine List.mem_iff_getElem?.mpr ⟨0, ?_⟩
  rw [List.getElem?_drop, Nat.add_zero, hc']

variable (hr : Received c.cmd r)
include hr

theorem inPlace_exchange (hT : Coded (old ++ .request c :: (r.log ++ t))) :
    InPlace old (.request c :: r.log) := by
  intro pre cmd p post h hf
  cases hr with
  | raised | blocked | timeout =>
    cases pre with
    | nil => cases h
    | cons e pre => cases pre <;> simp_all
  | packet l hp =>
    have ht := taken_eq_requests hb hc hT rfl
    cases pre with
    | nil => cases h
    | cons e pre =>
      cases pre with
      | cons e' pre => simp_all
      | nil =>
        cases h
        refine ⟨requests old, c, requests_append .., rfl, ?_⟩
        rw [taken_append, ← ht]
        exact congrArg _ (List.append_nil _)

theorem behind_exchange {cmds' : List ℕ} {resp : Option Bytes}
    (hT : Coded (old ++ .request c :: (r.log ++ t))) (ho : r.outcome = .ok resp)
    (hsub : cmds' ⊆ cmds) (hn : resp = none → c.cmd ∉ cmds') :
    Behind cmds' (old ++ .request c :: r.log) := by
  have hreq : requests (old ++ .request c :: r.log) = requests old ++ [c] := by
    rw [requests_append]
    exact congrArg (requests old ++ c :: ·) (requests_received hr)
  rcases taken_received hr with ⟨ho', ht⟩ | ⟨-, hno⟩ | ⟨p, ho', hlog⟩
  · rw [ho] at ho'
    cases ho'
    have htk : taken (old ++ .request c :: r.log) = taken old := by
      rw [taken_append]
      exact (congrArg (taken old ++ ·) ht).trans (List.append_nil _)
    have hle := hb.le
    refine ⟨by rw [htk, hreq, List.length_append]; omega, ?_⟩
    rw [htk, hreq, List.drop_append_of_le_length hle]
    intro c' hc'
    rcases List.mem_append.mp hc' with hc' | hc'
    · exact fun hm ↦ hb.skipped c' hc' (hsub hm)
    · rw [List.mem_singleton.mp hc']
      exact hn rfl
  · exact absurd ho (hno resp)
  · have ht := taken_eq_requests hb hc hT hlog
    have hlen : (taken (old ++ .request c :: r.log)).length =
        (requests (old ++ .request c :: r.log)).length := by
      rw [hreq, hlog, taken_append, List.length_append, List.length_append, ht]
      rfl
    refine ⟨hlen.le, ?_⟩
    rw [hlen, List.drop_length]
    simp

end Exchange

section Method

variable {m : Host Bool} {k : Host α} {o : Option Bytes → Outcome Error Bool}
  (hm : ∀ rs, Asks c ((recvResponse c.cmd).run rs) (m.run rs) ∧
    (m.run rs).outcome = ((recvResponse c.cmd).run rs).outcome.bind o)
include hm

theorem talk_method {resp : Option Bytes} {b : Bool} {used : List (Option UInt8)} {e : List Event}
    (hu : (recvResponse c.cmd).run used = ⟨.ok resp, [], e⟩) (ho : o resp = .ok b)
    (l : List (Option UInt8)) :
    talk ((m >>= fun _ ↦ k).run (used ++ l)).log = .request c :: (e ++ talk (k.run l).log) := by
  have hr := run_append_of_ok hu l
  obtain ⟨hx, hox⟩ := hm (used ++ l)
  rw [hr] at hx hox
  obtain ⟨-, -, ht, -⟩ := hx.next (k := k) (hox.trans ho)
  exact ht

theorem inPlace_method (hb : Behind cmds old) (hc : c.cmd ∈ cmds)
    (hT : Coded (old ++ talk ((m >>= fun _ ↦ k).run rs).log))
    (hk : ∀ resp b used l e, rs = used ++ l → Whole used →
      (recvResponse c.cmd).run used = ⟨.ok resp, [], e⟩ → o resp = .ok b →
      Coded ((old ++ .request c :: e) ++ talk (k.run l).log) →
      (∀ cmds', cmds' ⊆ cmds → (resp = none → c.cmd ∉ cmds') →
        Behind cmds' (old ++ .request c :: e)) →
      InPlace (old ++ .request c :: e) (talk (k.run l).log)) :
    InPlace old (talk ((m >>= fun _ ↦ k).run rs).log) := by
  have hr := received c.cmd rs
  obtain ⟨hx, hox⟩ := hm rs
  have hu := (orderly_recvResponse c.cmd).used rs
  by_cases ho : ∃ b, (m.run rs).outcome = .ok b
  · obtain ⟨b, ho⟩ := ho
    obtain ⟨resp, hro, hob⟩ := Outcome.bind_eq_ok.mp (hox.symm.trans ho)
    generalize hrun : (recvResponse c.cmd).run rs = r at hr hu hro
    obtain ⟨o', l, e⟩ := r
    cases hro
    obtain ⟨used, rfl, hw, hused⟩ := hu resp l e rfl
    rw [talk_method hm hused hob] at hT ⊢
    have hin := inPlace_exchange hb hc hr hT
    have hbe (cmds' : List ℕ) (hsub : cmds' ⊆ cmds) (hn : resp = none → c.cmd ∉ cmds') :=
      behind_exchange hb hc hr hT rfl hsub hn
    have hnext := hk resp b used l e rfl hw hused hob (by rwa [List.append_assoc]) hbe
    exact inPlace_append hin hnext
  · obtain ⟨ht, -⟩ := hx.stop (k := k) (fun b h ↦ ho ⟨b, h⟩)
    rw [run_bind] at hT ⊢
    rw [ht] at hT ⊢
    exact inPlace_exchange (t := []) hb hc hr (by rwa [List.append_nil])

end Method

end Esp32c6Fw.Espctl
