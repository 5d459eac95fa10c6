import Esp32c6Fw.Stdio.Digits
import Esp32c6Fw.Stdio.Parsing

namespace Esp32c6Fw.Stdio

open Formatted Output Soc

theorem yields_repeated (n : ℤ) (c : Byte) :
    (repeated n c).Yields (List.replicate n.toNat c) () := yields_putAll _

theorem int_of_lt {v : ℤ} (h₁ : -2 ^ 31 ≤ v) (h₂ : v < 2 ^ 31) : int v = .ret v := if_pos ⟨h₁, h₂⟩

structure Means (flags : Flags) (width prec : ℤ) (f : Field) : Prop where
  lpad : flags.lpad = f.minus
  zfill : flags.zfill = f.zero
  prec_isSome : flags.prec = f.precision.isSome
  width_eq : width = f.width
  prec_eq : prec = (f.precision.getD 0 : ℕ)

/-- It prints this text, but for the spaces behind it, and returns how many. -/
def Prints (p : Output Byte ℤ) (text : Text) : Prop :=
  ∃ s w, p.Yields s w ∧ s ++ List.replicate w.toNat (chr ' ') = text

section Strings

variable {flags : Flags} {width prec : ℤ} {f : Field}

theorem strLpad_prints (hm : Means flags width prec f) (pnt : Text) :
    Prints (strLpad flags width pnt) (f.pad pnt) := by
  obtain ⟨hl, -, -, hw, -⟩ := hm
  refine ⟨_, _, (yields_repeated _ _).bind ((yields_putAll pnt).bind (yields_ret _)), ?_⟩
  rw [Field.pad, hl, hw]
  cases f.minus with
  | true =>
    have hn : ((f.width : ℤ) - pnt.length).toNat = f.width - pnt.length := by omega
    simp [hn]
  | false =>
    have hn : ((f.width : ℤ) - pnt.length).toNat = f.width - pnt.length := by omega
    have hrest : (if pnt.length < f.width then (pnt.length : ℤ) else f.width).toNat -
        pnt.length = 0 := by
      split <;> omega
    simp [hn, hrest]

end Strings

section Numbers

variable {flags : Flags} {width prec : ℤ} {f : Field} {c : Byte} {buf : List Byte}

def zeroed (prec : ℤ) (buf : List Byte) : Text :=
  List.replicate (prec - buf.length).toNat (chr '0') ++ buf.reverse

theorem length_zeroed (prec : ℤ) (buf : List Byte) :
    ((zeroed prec buf).length : ℤ) = max prec buf.length := by
  rw [zeroed, List.length_append, List.length_replicate, List.length_reverse]
  omega

/-- The straight line at the end of `putNumber`. -/
theorem prints_emit {spaces zeros w : ℤ} {start digits text : Text} {a z b : ℕ}
    (ha : spaces.toNat = a) (hz : zeros.toNat = z) (hb : w.toNat = b)
    (htext : List.replicate a (chr ' ') ++ (start ++ (List.replicate z (chr '0') ++ digits)) ++
      List.replicate b (chr ' ') = text) :
    Prints (repeated spaces (chr ' ') >>= fun _ ↦ putAll start >>= fun _ ↦
      repeated zeros (chr '0') >>= fun _ ↦ putAll digits >>= fun _ ↦
        (.ret w : Output Byte ℤ)) text := by
  refine ⟨_, w, (yields_repeated _ _).bind ((yields_putAll _).bind ((yields_repeated _ _).bind
    ((yields_putAll _).bind (yields_ret w)))), ?_⟩
  rw [ha, hz, hb, List.append_nil]
  exact htext

theorem Flags.precise_lpad (flags : Flags) (prec : ℤ) (c : Byte) (bufLen : ℤ) :
    (flags.precise prec c bufLen).lpad = flags.lpad ∧
      (flags.precise prec c bufLen).zfill = (!flags.prec && flags.zfill) := by
  rw [Flags.precise]
  split
  next h =>
    dsimp only
    split <;> simp [h]
  next h => simp [h]

theorem putNumber_prints (hm : Means flags width prec f)
    (hlen : (leading (flags.precise prec c buf.length) c ++ zeroed prec buf).length < 2 ^ 31) :
    Prints (putNumber flags width prec c buf)
      (f.number (leading (flags.precise prec c buf.length) c) (zeroed prec buf)) := by
  obtain ⟨hl, hz, hp, hw, hpe⟩ := hm
  obtain ⟨hl', hz'⟩ := flags.precise_lpad prec c buf.length
  have hlz := length_zeroed prec buf
  rw [List.length_append] at hlen
  have hlen₀ : (if flags.prec && decide ((buf.length : ℤ) < prec) then prec else buf.length) =
      ((zeroed prec buf).length : ℤ) := by
    rw [hlz]
    cases hf : f.precision with
    | none =>
      rw [hf] at hp hpe
      simp [hp, hpe]
    | some p =>
      rw [hf] at hp
      simp only [hp, Option.isSome_some, Bool.true_and, decide_eq_true_eq]
      omega
  have hint := @int_of_lt ((zeroed prec buf).length +
    (leading (flags.precise prec c buf.length) c).length) (by omega) (by omega)
  rw [putNumber]
  simp only [hlen₀, hint, ret_bind, hl', hl, hz']
  generalize leading (flags.precise prec c buf.length) c = start at hlen ⊢
  have hsum : (start ++ zeroed prec buf).length = start.length + (zeroed prec buf).length :=
    List.length_append
  have hbody : zeroed prec buf =
      List.replicate (prec - buf.length).toNat (chr '0') ++ buf.reverse := rfl
  have hnone : f.precision.isNone = !flags.prec := by
    rw [hp]
    cases f.precision <;> rfl
  rw [Field.number, Field.pad, hnone, hz, hw]
  cases hmin : f.minus with
  | true =>
    refine prints_emit (a := 0) (z := (prec - buf.length).toNat)
      (b := f.width - (start ++ zeroed prec buf).length) rfl ?_ ?_ ?_
    · simp
    · simp
      omega
    · simp [hbody]
  | false =>
    have hcomm : (f.zero && !false && !flags.prec) = (!flags.prec && f.zero) := by
      rw [Bool.not_false, Bool.and_true, Bool.and_comm]
    rw [hcomm]
    cases hzero : (!flags.prec && f.zero) with
    | true =>
      have hprec : prec = 0 := by
        obtain ⟨hfalse, -⟩ := Bool.and_eq_true_iff.mp hzero
        rw [hp, Bool.not_eq_true', Option.isSome_eq_false_iff, Option.isNone_iff_eq_none] at hfalse
        rw [hpe, hfalse]
        rfl
      have hrev : zeroed prec buf = buf.reverse := by
        rw [hbody, hprec]
        simp
      refine prints_emit (a := 0) (z := f.width - (start ++ zeroed prec buf).length) (b := 0)
        ?_ ?_ ?_ ?_
      · simp
        split_ifs <;> omega
      · simp
        split_ifs <;> omega
      · simp
        split_ifs <;> omega
      · simp [hrev]
    | false =>
      refine prints_emit (a := f.width - (start ++ zeroed prec buf).length)
        (z := (prec - buf.length).toNat) (b := 0) ?_ ?_ ?_ ?_
      · simp
        omega
      · simp
      · simp
        split_ifs <;> omega
      · simp [hbody]

end Numbers

section Integers

variable {flags : Flags} {length : Length} {a : Arg} {ap : VaList} {v : BitVec length.bits}

structure Flags.Sized (flags : Flags) (length : Length) : Prop where
  long : flags.long = (({} : Flags).withLength length).long
  short : flags.short = (({} : Flags).withLength length).short
  repdType : flags.repdType = (({} : Flags).withLength length).repdType

theorem argToSigned_eq (hs : flags.Sized length) (h : length.integer a = some v) :
    argToSigned flags (a :: ap) = .ret (v.signExtend 64, ap) := by
  obtain ⟨hl, hsh, hr⟩ := hs
  cases a with
  | word w =>
    cases length <;> cases h <;>
      simp [argToSigned, Flags.withLength, hl, hsh, hr, vaInt, Length.bits]
  | dword w =>
    cases length <;> cases h <;>
      simp [argToSigned, Flags.withLength, hl, hr, vaLongLong, Length.bits]
  | str s => cases h

theorem argToUnsigned_eq (hs : flags.Sized length) (h : length.integer a = some v) :
    argToUnsigned flags (a :: ap) = .ret (v.setWidth 64, ap) := by
  obtain ⟨hl, hsh, hr⟩ := hs
  cases a with
  | word w =>
    cases length <;> cases h <;>
      simp [argToUnsigned, Flags.withLength, hl, hsh, hr, vaInt, Length.bits]
  | dword w =>
    cases length <;> cases h <;>
      simp [argToUnsigned, Flags.withLength, hl, hr, vaLongLong, Length.bits]
  | str s => cases h

structure Ready (σ : Spec) (f : Field) (length : Length) : Prop extends
    Means σ.flags σ.width σ.prec f, σ.flags.Sized length where
  plus : σ.flags.plus = f.plus
  space : σ.flags.space = (f.space || f.plus)
  alt : σ.flags.alt = f.alt
  negative : σ.flags.negative = false

/-- It prints this text, but for the spaces behind it, and takes its arguments. -/
def Converts (p : Output Byte (Option ℤ × VaList)) (text : Text) (ap : VaList) : Prop :=
  ∃ s w, p.Yields s (some w, ap) ∧ s ++ List.replicate w.toNat (chr ' ') = text

theorem Prints.converts {p : Output Byte ℤ} {text : Text} (h : Prints p text) (ap : VaList) :
    Converts (p >>= fun width ↦ .ret (some width, ap)) text ap := by
  obtain ⟨s, w, hy, ht⟩ := h
  refine ⟨s ++ [], w, hy.bind (yields_ret _), ?_⟩
  rw [List.append_nil]
  exact ht

variable {σ : Spec} {f : Field} {prec : ℤ}

theorem numberBuffer_eq {width : ℤ} (hm : Means flags width prec f) (base : Base) (x : BitVec 64) :
    numberBuffer flags prec x (baseWord base) = .ret (bufferOf base f.precision x.toNat) := by
  have hx : x = 0 ↔ x.toNat = 0 := BitVec.toNat_eq
  have hz : (flags.prec && decide (prec = 0)) = decide (f.precision = some 0) := by
    rw [hm.prec_isSome, hm.prec_eq]
    cases f.precision <;> simp
  rw [numberBuffer, Bool.and_assoc, hz, bufferOf, ultoaInvert_eq, ← Bool.decide_and]
  simp only [decide_eq_true_eq, hx]
  split <;> rfl

theorem zeroed_bufferOf {width : ℤ} (hm : Means flags width prec f) (base : Base) (n : ℕ) :
    zeroed prec (bufferOf base f.precision n) = f.atLeast (base.digits n) := by
  rw [← zeros_bufferOf, zeroed, hm.prec_eq]
  congr 2
  omega

theorem length_le_number (f : Field) (start body : Text) :
    (start ++ body).length ≤ (f.number start body).length := by
  rw [Field.number]
  split
  next =>
    simp only [List.length_append, List.length_replicate]
    omega
  next =>
    rw [Field.pad]
    split
    next => simp
    next => simp

theorem leading_precise {flags : Flags} {n : ℤ} {c : Byte} (h : c ≠ 0) :
    leading (flags.precise prec c n) c = leading flags c := by
  rw [Flags.precise]
  split
  next =>
    dsimp only
    rw [if_neg (by simpa using fun _ ↦ h)]
    rfl
  next => rfl

theorem toNat_magnitude (x : BitVec 64) :
    (if x.slt 0 then -x else x).toNat = x.toInt.natAbs := by
  have hlt := x.isLt
  have hs : x.slt 0 = decide (x.toInt < 0) := rfl
  have hi := BitVec.toInt_eq_toNat_cond x
  have hn : (-x).toNat = (2 ^ 64 - x.toNat) % 2 ^ 64 := BitVec.toNat_neg x
  simp only [hs, decide_eq_true_eq]
  split_ifs at hi ⊢ <;> omega

theorem vfprintfInt_signed (hr : Ready σ f length) (h : length.integer a = some v) (i : Bool)
    (hlen : (f.signed v.toInt).length < 2 ^ 31) :
    Converts (vfprintfInt σ (Conversion.signed length i).letter (a :: ap)) (f.signed v.toInt)
      ap := by
  have hc : (Conversion.signed length i).letter ≠ 0 ∧
      ((Conversion.signed length i).letter = chr 'd' ∨
        (Conversion.signed length i).letter = chr 'i') := by
    cases i with
    | false => exact ⟨(by decide : chr 'd' ≠ 0), .inl rfl⟩
    | true => exact ⟨(by decide : chr 'i' ≠ 0), .inr rfl⟩
  generalize (Conversion.signed length i).letter = c at hc ⊢
  obtain ⟨hc0, hc⟩ := hc
  have hbits : length.bits ≤ 64 := by
    cases length <;> decide
  have hx : (v.signExtend 64).toInt = v.toInt := BitVec.toInt_signExtend_of_le hbits
  rw [vfprintfInt, if_pos (by simpa using hc), argToSigned_eq hr.toSized h, ret_bind]
  rw [← hx] at hlen ⊢
  generalize v.signExtend 64 = x at hlen ⊢
  let flags := { σ.flags with negative := x.slt 0, alt := false }
  have hm : Means flags σ.width σ.prec f :=
    ⟨hr.lpad, hr.zfill, hr.prec_isSome, hr.width_eq, hr.prec_eq⟩
  have hbuf := numberBuffer_eq hm .decimal (if x.slt 0 then -x else x)
  rw [toNat_magnitude] at hbuf
  have hlead : leading flags c = f.sign x.toInt := by
    have hs : x.slt 0 = decide (x.toInt < 0) := rfl
    simp only [flags, leading, Field.sign, hs, hr.plus, hr.space, Bool.false_eq_true, if_false,
      decide_eq_true_eq]
    cases f.plus <;> simp
  have hp := @putNumber_prints _ _ _ _ c (bufferOf .decimal f.precision x.toInt.natAbs) hm
  rw [leading_precise hc0, zeroed_bufferOf hm, hlead] at hp
  change Converts (numberBuffer flags σ.prec (if x.slt 0 then -x else x) (baseWord .decimal) >>=
    fun buf ↦ putNumber flags σ.width σ.prec c buf >>= fun width ↦ .ret (some width, ap)) _ ap
  rw [hbuf, ret_bind]
  exact (hp ((length_le_number ..).trans_lt hlen)).converts ap

theorem putUnsigned_converts {flags : Flags} (base : Base) (c : Byte)
    (hm : Means flags σ.width σ.prec f) (hs : flags.Sized length) (hn : flags.negative = false)
    (h : length.integer a = some v) {start : Text}
    (hstart : leading (({ flags with
        plus := false, space := false, alt := flags.alt && v.toNat ≠ 0 } : Flags).precise σ.prec c
      (bufferOf base f.precision v.toNat).length) c = start)
    (hlen : (f.number start (f.atLeast (base.digits v.toNat))).length < 2 ^ 31) :
    Converts (putUnsigned σ (a :: ap) c (baseWord base) flags)
      (f.number start (f.atLeast (base.digits v.toNat))) ap := by
  have hbits : length.bits ≤ 64 := by
    cases length <;> decide
  have hx : (v.setWidth 64).toNat = v.toNat := by
    have hv : v.toNat < 2 ^ 64 := v.isLt.trans_le (Nat.pow_le_pow_right (by decide) hbits)
    rw [BitVec.toNat_setWidth, Nat.mod_eq_of_lt hv]
  have harg := @argToUnsigned_eq { flags with plus := false, space := false } length a ap v
    ⟨hs.long, hs.short, hs.repdType⟩ h
  rw [putUnsigned, harg, ret_bind]
  rw [← hx] at hstart hlen ⊢
  generalize v.setWidth 64 = x at hstart hlen ⊢
  let flags' : Flags := { flags with
    plus := false, space := false, alt := flags.alt && x.toNat ≠ 0 }
  have hflags : (if x = 0 then { flags with plus := false, space := false, alt := false }
      else { flags with plus := false, space := false } : Flags) = flags' := by
    have hz : x = 0 ↔ x.toNat = 0 := BitVec.toNat_eq
    simp only [flags', hz]
    split <;> simp_all
  have hm' : Means flags' σ.width σ.prec f :=
    ⟨hm.lpad, hm.zfill, hm.prec_isSome, hm.width_eq, hm.prec_eq⟩
  have hp := @putNumber_prints _ _ _ _ c (bufferOf base f.precision x.toNat) hm'
  rw [hstart, zeroed_bufferOf hm'] at hp
  change Converts (numberBuffer (if x = 0 then
      { flags with plus := false, space := false, alt := false }
      else { flags with plus := false, space := false }) σ.prec x (baseWord base) >>=
    fun buf ↦ putNumber _ σ.width σ.prec c buf >>= fun width ↦ .ret (some width, ap)) _ ap
  rw [hflags, numberBuffer_eq hm', ret_bind]
  exact (hp ((length_le_number ..).trans_lt hlen)).converts ap

theorem leading_unsigned {flags : Flags} (hn : flags.negative = false) (b : Bool) (c : Byte) :
    leading { flags with plus := false, space := false, alt := b } c =
      if b then if c ≠ 0 then [chr '0', c] else [chr '0'] else [] := by
  simp [leading, hn]

theorem number_zero (f : Field) (body : Text) :
    f.number [chr '0'] body = f.number [] (chr '0' :: body) := by
  rw [Field.number, Field.number, List.singleton_append, List.nil_append]
  split
  next =>
    have hlen : ([] ++ chr '0' :: body).length = (chr '0' :: body).length := rfl
    rw [hlen, List.append_cons, ← List.replicate_succ']
    rfl
  next => rfl

theorem head?_digits {base : Base} {n : ℕ} (hn : n ≠ 0) :
    ∃ d : ℕ, 0 < d ∧ d < base.radix ∧ (base.digits n).head? = some (base.digit d) := by
  have hne : Nat.digits base.radix n ≠ [] := Nat.digits_ne_nil_iff_ne_zero.mpr hn
  refine ⟨(Nat.digits base.radix n).getLast hne, ?_, ?_, ?_⟩
  · exact Nat.pos_of_ne_zero (Nat.getLast_digit_ne_zero base.radix hn)
  · exact Nat.digits_lt_base (one_lt_radix base) (List.getLast_mem hne)
  · rw [Base.digits, List.head?_map, List.head?_reverse, List.getLast?_eq_some_getLast hne]
    rfl

theorem octal_digit_ne {d : ℕ} (h₀ : 0 < d) (h : d < Base.octal.radix) :
    Base.octal.digit d ≠ chr '0' := by
  have hall : ∀ d < 8, 0 < d → Base.octal.digit d ≠ chr '0' := by decide
  exact hall d h h₀

/-- The one number that is not printed as the standard has it: with `#` and precision 0 an
octal 0 should still be a digit. -/
def lostZero (f : Field) (n : ℕ) : Bool := f.alt && f.precision = some 0 && n = 0

theorem head?_atLeast {f : Field} {ds : Text} (h : ds.length < f.precision.getD 1) :
    (f.atLeast ds).head? = some (chr '0') := by
  have hk : f.precision.getD 1 - ds.length = f.precision.getD 1 - ds.length - 1 + 1 := by omega
  rw [Field.atLeast, hk]
  rfl

theorem atLeast_of_le {f : Field} {ds : Text} (h : f.precision.getD 1 ≤ ds.length) :
    f.atLeast ds = ds := by
  rw [Field.atLeast, Nat.sub_eq_zero_of_le h]
  rfl

/-- Whether the code puts a zero before an octal number. -/
def octalStart (f : Field) (n : ℕ) : Text :=
  if f.alt && n ≠ 0 && !(f.precision.isSome && (bufferOf .octal f.precision n).length <
    f.precision.getD 0) then [chr '0'] else []

theorem octalStart_of_ne {f : Field} {n : ℕ} (hn : n ≠ 0) :
    octalStart f n =
      if f.alt && !(f.precision.isSome && (Base.octal.digits n).length < f.precision.getD 0)
      then [chr '0'] else [] := by
  rw [octalStart, length_bufferOf hn]
  simp [hn]

theorem octalStart_zero (f : Field) : octalStart f 0 = [] := by
  simp [octalStart]

theorem octal_number {f : Field} {n : ℕ} (hz : lostZero f n = false) :
    f.unsigned .octal n = f.number (octalStart f n) (f.atLeast (Base.octal.digits n)) := by
  by_cases hshort : (Base.octal.digits n).length < f.precision.getD 1
  · have hs : octalStart f n = [] := by
      by_cases hn : n = 0
      · rw [hn, octalStart_zero]
      · have hlen : 0 < (Base.octal.digits n).length := by
          obtain ⟨d, -, -, hhead⟩ := @head?_digits .octal n hn
          exact List.length_pos_of_ne_nil fun h ↦ by simp [h] at hhead
        rw [octalStart_of_ne hn]
        cases hp : f.precision with
        | none =>
          rw [hp] at hshort
          simp only [Option.getD_none] at hshort
          omega
        | some p =>
          rw [hp] at hshort
          simp only [Option.getD_some] at hshort
          simp [hshort]
    rw [Field.unsigned, hs, head?_atLeast hshort]
    simp
  · rw [not_lt] at hshort
    rw [Field.unsigned, atLeast_of_le hshort]
    by_cases hn : n = 0
    · have halt : f.alt = false := by
        have hp : f.precision = some 0 := by
          rw [hn] at hshort
          cases hp : f.precision with
          | none =>
            rw [hp] at hshort
            cases hshort
          | some p =>
            rw [hp] at hshort
            exact congrArg some (Nat.le_zero.mp hshort)
        simpa [lostZero, hp, hn] using hz
      rw [hn, octalStart_zero, halt]
      rfl
    · obtain ⟨d, h₀, hd, hhead⟩ := @head?_digits .octal n hn
      have hlt : ¬(Base.octal.digits n).length < f.precision.getD 0 := by
        cases hp : f.precision <;> simp_all
      rw [octalStart_of_ne hn, hhead]
      cases f.alt <;> simp [octal_digit_ne h₀ hd, hlt, number_zero]

/-- The characters of decimal and hexadecimal numbers, whose letter is no NUL. -/
theorem leading_precise_unsigned {flags : Flags} (hn : flags.negative = false) (b : Bool)
    {prec n : ℤ} {c : Byte} (hc : c ≠ 0) :
    leading (({ flags with plus := false, space := false, alt := b } : Flags).precise prec c n) c =
      if b then [chr '0', c] else [] := by
  rw [leading_precise hc, leading_unsigned hn, if_pos hc]

/-- The characters of octal numbers, for which the code has a NUL. -/
theorem leading_precise_octal {flags : Flags} (hm : Means flags σ.width σ.prec f)
    (hn : flags.negative = false) (ha : flags.alt = f.alt) (n : ℕ) :
    leading
      (({ flags with plus := false, space := false, alt := flags.alt && n ≠ 0 } : Flags).precise
        σ.prec 0 (bufferOf .octal f.precision n).length) 0 = octalStart f n := by
  rw [Flags.precise, octalStart, ha, hm.prec_isSome, hm.prec_eq]
  cases f.precision with
  | none => simp [leading, hn]
  | some p =>
    by_cases hlt : (bufferOf .octal (some p) n).length < p
    · simp [leading, hn, hlt]
    · simp [leading, hn, hlt]

theorem letter_hex_ne (upper : Bool) : (Base.hex upper).letter ≠ 0 := by
  cases upper <;> decide

theorem putUnsigned_hex {flags : Flags} (upper : Bool) (hm : Means flags σ.width σ.prec f)
    (hs : flags.Sized length) (hn : flags.negative = false) (ha : flags.alt = f.alt)
    (h : length.integer a = some v)
    (hlen : (f.unsigned (.hex upper) v.toNat).length < 2 ^ 31) :
    Converts (putUnsigned σ (a :: ap) (Base.hex upper).letter (baseWord (.hex upper)) flags)
      (f.unsigned (.hex upper) v.toNat) ap := by
  refine putUnsigned_converts (.hex upper) _ hm hs hn h ?_ hlen
  rw [leading_precise_unsigned hn _ (letter_hex_ne upper), ha]

/-- What the code prints for an octal number. -/
def octalText (f : Field) (n : ℕ) : Text :=
  f.number (octalStart f n) (f.atLeast (Base.octal.digits n))

theorem vfprintfInt_octal (hr : Ready σ f length) (h : length.integer a = some v)
    (hlen : (octalText f v.toNat).length < 2 ^ 31) :
    Converts (vfprintfInt σ Base.octal.letter (a :: ap)) (octalText f v.toNat) ap :=
  putUnsigned_converts .octal 0 hr.toMeans hr.toSized hr.negative h
    (leading_precise_octal hr.toMeans hr.negative hr.alt v.toNat) hlen

theorem vfprintfInt_unsigned {base : Base} (hr : Ready σ f length) (h : length.integer a = some v)
    (hb : base.letter ≠ Base.octal.letter) (hlen : (f.unsigned base v.toNat).length < 2 ^ 31) :
    Converts (vfprintfInt σ base.letter (a :: ap)) (f.unsigned base v.toNat) ap := by
  cases base with
  | decimal =>
    have hm : Means { σ.flags with alt := false } σ.width σ.prec f :=
      ⟨hr.lpad, hr.zfill, hr.prec_isSome, hr.width_eq, hr.prec_eq⟩
    exact putUnsigned_converts .decimal (chr 'u') hm ⟨hr.long, hr.short, hr.repdType⟩
      hr.negative h (leading_precise_unsigned hr.negative false (by decide)) hlen
  | octal => exact absurd rfl hb
  | hex upper =>
    have hp := @putUnsigned_hex _ _ ap _ _ _ _ upper hr.toMeans hr.toSized hr.negative hr.alt h hlen
    cases upper <;> exact hp

theorem vfprintfInt_pointer {v : Word} (hr : Ready σ f .none)
    (hlen : ({ f with alt := true }.unsigned (.hex false) v.toNat).length < 2 ^ 31) :
    Converts (vfprintfInt σ (chr 'p') (.word v :: ap))
      ({ f with alt := true }.unsigned (.hex false) v.toNat) ap := by
  have hm : Means { σ.flags with alt := true } σ.width σ.prec { f with alt := true } :=
    ⟨hr.lpad, hr.zfill, hr.prec_isSome, hr.width_eq, hr.prec_eq⟩
  have hv : Length.none.integer (.word v) = some v := by
    simp [Length.integer, Length.bits]
  exact putUnsigned_hex false hm ⟨hr.long, hr.short, hr.repdType⟩ hr.negative rfl hv hlen

end Integers

end Esp32c6Fw.Stdio
