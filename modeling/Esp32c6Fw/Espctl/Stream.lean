import Esp32c6Fw.Espctl.Talk

namespace Esp32c6Fw.Espctl

open Script Framing

def delivered (rs : List (Option UInt8)) : Bytes := rs.filterMap id

def stream (answers : List Bytes) : Bytes := enclose slipEnd (answers.map slipEncode)

theorem stream_cons (p : Bytes) (answers : List Bytes) :
    stream (p :: answers) = slipEnd :: (slipEncode p ++ slipEnd :: stream answers) := by
  simp [stream, enclose]

theorem stream_append (answers answers' : List Bytes) :
    stream (answers ++ answers') = stream answers ++ stream answers' := by
  simp [stream, enclose]

/-- The reads go on with these answers, perhaps behind the first delimiter. -/
def Owes (answers : List Bytes) (rs : List (Option UInt8)) : Prop :=
  ∃ bs, (bs = stream answers ∨ slipEnd :: bs = stream answers) ∧ delivered rs <+: bs

def Whole (rs : List (Option UInt8)) : Prop := ∀ b, rs.getLast? = some (some b) → b = slipEnd

def requests (log : List Event) : List Command :=
  log.filterMap fun | .request c => some c | _ => none

def taken (log : List Event) : List (ℕ × Bytes) :=
  log.filterMap fun | .response cmd (some p) => some (cmd, p) | _ => none

variable {cmd : ℕ} {answers : List Bytes} {rs l : List (Option UInt8)} {bs f resp : Bytes}
  {e : List Event}

theorem taken_append (e e' : List Event) : taken (e ++ e') = taken e ++ taken e' :=
  List.filterMap_append ..

theorem delivered_none (rs : List (Option UInt8)) : delivered (none :: rs) = delivered rs := rfl

theorem delivered_some (b : UInt8) (rs : List (Option UInt8)) :
    delivered (some b :: rs) = b :: delivered rs := rfl

theorem Whole.append {rs rs' : List (Option UInt8)} (h : Whole rs) (h' : Whole rs') :
    Whole (rs ++ rs') := by
  cases rs' with
  | nil => rwa [List.append_nil]
  | cons r rs' =>
    intro b hb
    rw [List.getLast?_append_cons] at hb
    exact h' b hb

theorem whole_cons_end (h : Whole rs) : Whole (some slipEnd :: rs) := by
  refine @Whole.append [some slipEnd] rs ?_ h
  intro b hb
  cases hb
  rfl

theorem whole_ends (m : ℕ) : Whole (List.replicate m (some slipEnd)) := by
  induction m with
  | zero => exact fun b hb ↦ (by cases hb)
  | succ m ih => exact whole_cons_end ih

section Used

theorem collect_used {p : Bytes} (h : (collect cmd resp).run rs = ⟨.ok p, l, e⟩) :
    ∃ used, rs = used ++ l ∧ used.getLast? = some (some slipEnd) ∧
      (collect cmd resp).run used = ⟨.ok p, [], e⟩ := by
  induction rs generalizing resp with
  | nil => cases h
  | cons r rs ih =>
    cases r with
    | none => cases h
    | some b =>
      by_cases hb : b = slipEnd
      · subst hb
        rw [collect_end] at h
        cases h
        exact ⟨[some slipEnd], rfl, rfl, rfl⟩
      · rw [collect_byte hb] at h
        obtain ⟨used, hu, hw, hr⟩ := ih h
        refine ⟨some b :: used, by rw [hu]; rfl, ?_, by rw [collect_byte hb, hr]⟩
        cases used with
        | nil => cases hw
        | cons r used => exact hw

theorem recvFrame_used {frame : Option Bytes} (h : (recvFrame cmd).run rs = ⟨.ok frame, l, e⟩) :
    ∃ used, rs = used ++ l ∧ Whole used ∧ (recvFrame cmd).run used = ⟨.ok frame, [], e⟩ := by
  induction rs with
  | nil => cases h
  | cons r rs ih =>
    cases r with
    | none =>
      cases h
      exact ⟨[none], rfl, fun b hb ↦ (by cases hb), rfl⟩
    | some b =>
      by_cases hb : b = slipEnd
      · subst hb
        rw [recvFrame_end] at h
        obtain ⟨used, hu, hw, hr⟩ := ih h
        exact ⟨some slipEnd :: used, by rw [hu]; rfl, whole_cons_end hw, by rw [recvFrame_end, hr]⟩
      · rw [recvFrame_byte hb] at h
        have hc := @collect_used cmd rs l [b]
        generalize (collect cmd [b]).run rs = r at h hc
        obtain ⟨o, l', e'⟩ := r
        cases o with
        | raise x | blocked => cases h
        | ok p =>
          cases h
          obtain ⟨used, hu, hw, hr⟩ := hc rfl
          refine ⟨some b :: used, by rw [hu]; rfl, ?_, by rw [recvFrame_byte hb, hr]; rfl⟩
          intro b' hb'
          cases used with
          | nil => cases hw
          | cons r used =>
            rw [List.getLast?_cons_cons, hw] at hb'
            cases hb'
            rfl

theorem recvFrame_timeout (h : (recvFrame cmd).run rs = ⟨.ok none, l, e⟩) :
    ∃ m, rs = List.replicate m (some slipEnd) ++ none :: l := by
  induction rs with
  | nil => cases h
  | cons r rs ih =>
    cases r with
    | none =>
      cases h
      exact ⟨0, rfl⟩
    | some b =>
      by_cases hb : b = slipEnd
      · subst hb
        rw [recvFrame_end] at h
        obtain ⟨m, hm⟩ := ih h
        exact ⟨m + 1, by rw [hm]; rfl⟩
      · rw [recvFrame_byte hb] at h
        generalize (collect cmd [b]).run rs = r at h
        obtain ⟨o, l', e'⟩ := r
        cases o <;> cases h

theorem recvFrame_ends (m : ℕ) :
    (recvFrame cmd).run (List.replicate m (some slipEnd)) = ⟨.blocked, [], []⟩ := by
  induction m with
  | zero => rfl
  | succ m ih => rw [List.replicate_succ, recvFrame_end, ih]

end Used

section Owes

theorem collect_delivered (hf : slipEnd ∉ f) (h : delivered rs <+: f ++ slipEnd :: bs) {p : Bytes}
    (ho : ((collect cmd resp).run rs).outcome = .ok p) :
    p = resp ++ f ∧ delivered ((collect cmd resp).run rs).rest <+: bs := by
  induction rs generalizing f resp with
  | nil => cases ho
  | cons r rs ih =>
    cases r with
    | none => cases ho
    | some b =>
      rw [delivered_some] at h
      cases f with
      | nil =>
        obtain ⟨hb, hd⟩ := List.cons_prefix_cons.mp h
        subst hb
        rw [collect_end] at ho ⊢
        cases ho
        exact ⟨(List.append_nil _).symm, hd⟩
      | cons b' f =>
        obtain ⟨hb, hd⟩ := List.cons_prefix_cons.mp h
        subst hb
        simp only [List.mem_cons, not_or] at hf
        rw [collect_byte (Ne.symm hf.1)] at ho ⊢
        obtain ⟨hp, hr⟩ := ih hf.2 hd ho
        exact ⟨by rw [hp, List.append_assoc]; rfl, hr⟩

theorem recvFrame_owes (hne : ∀ p ∈ answers, p ≠ []) (h : Owes answers rs) :
    (((recvFrame cmd).run rs).outcome = .ok none → Owes answers ((recvFrame cmd).run rs).rest) ∧
    ∀ f, ((recvFrame cmd).run rs).outcome = .ok (some f) →
      ∃ p answers', answers = p :: answers' ∧ f = slipEncode p ∧
        Owes answers' ((recvFrame cmd).run rs).rest := by
  induction rs with
  | nil => exact ⟨fun ho ↦ (by cases ho), fun f ho ↦ (by cases ho)⟩
  | cons r rs ih =>
    obtain ⟨bs, hbs, hd⟩ := h
    cases r with
    | none =>
      rw [delivered_none] at hd
      exact ⟨fun _ ↦ ⟨bs, hbs, hd⟩, fun f ho ↦ (by cases ho)⟩
    | some b =>
      rw [delivered_some] at hd
      cases answers with
      | nil =>
        rcases hbs with rfl | hbs
        · cases List.prefix_nil.mp hd
        · cases hbs
      | cons p answers =>
        rw [stream_cons] at hbs
        have hp := slipEncode_ne_nil (hne p (List.mem_cons_self ..))
        have hn := slipEnd_notMem_slipEncode p
        rcases hbs with rfl | hbs
        · obtain ⟨hb, hd'⟩ := List.cons_prefix_cons.mp hd
          subst hb
          rw [recvFrame_end]
          exact ih ⟨_, .inr (stream_cons p answers).symm, hd'⟩
        · obtain ⟨-, rfl⟩ := List.cons_eq_cons.mp hbs
          cases hs : slipEncode p with
          | nil => exact absurd hs hp
          | cons b' f =>
            rw [hs] at hd hn
            obtain ⟨hb, hd'⟩ := List.cons_prefix_cons.mp hd
            subst hb
            simp only [List.mem_cons, not_or] at hn
            rw [recvFrame_byte (Ne.symm hn.1)]
            have hc := @collect_delivered cmd rs (stream answers) f [b] hn.2 hd'
            generalize (collect cmd [b]).run rs = r at hc
            obtain ⟨o, l, e⟩ := r
            refine ⟨fun ho ↦ ?_, fun f' ho ↦ ?_⟩
            · cases o <;> cases ho
            · cases o with
              | raise x | blocked => cases ho
              | ok q =>
                obtain ⟨rfl, hr⟩ := hc rfl
                cases ho
                exact ⟨p, answers, rfl, hs.symm, stream answers, .inl rfl, hr⟩

end Owes

end Esp32c6Fw.Espctl
