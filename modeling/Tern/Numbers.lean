import Mathlib.Data.List.DropRight
import Mathlib.Data.Nat.Digits.Defs
import Tern.Strtol
import Tern.Texts

/-! Formatted numbers. With its padding taken off, the output of a number is a sign, a prefix,
zeros and the digits of the value, and is read back as the number. It is as wide as asked
for. A null pointer is a text of its own, without sign and prefix. -/

namespace Tern.Print

open Lib Written

/-- A specification from the flags of a directive, with what the conversion sets. -/
def Built (spec : FormatSpec) : Prop :=
  ∃ args fmt arg base alternateForm intWidth,
    spec = { (consumeNext args fmt {} arg).1 with base, alternateForm, intWidth }

/-- The text without its leading and trailing spaces. -/
def stripSpaces (text : List (BitVec 8)) : List (BitVec 8) :=
  (text.dropWhile (· == ascii ' ')).rdropWhile (· == ascii ' ')

def Base.radix : Base → Nat
  | .base10 => 10
  | .base16 | .base16Caps | .basePtr => 16
  | .base8 => 8
  | .base2 => 2

/-- The digits of the value in the base; zero has one digit. -/
def Base.digitsText (base : Base) (value : Word) : List (BitVec 8) :=
  if value = 0#64 then [ascii '0']
  else ((Nat.digits base.radix value.toNat).map fun d => base.layout.1.getD d 0#8).reverse

/-- The output of the number without padding. -/
def unpaddedText (spec : FormatSpec) (number : Number) : List (BitVec 8) :=
  headText spec number ++ formatLayoutInt spec number

/-- What the text of a number is read as: a sign, the prefix if there is one, and digits. -/
def readNumber (spec : FormatSpec) (text : List (BitVec 8)) : Int :=
  let negative := text.head? = some (ascii '-')
  let unsigned := if negative ∨ text.head? = some (ascii '+') then text.tail else text
  let digits := unsigned.drop (alternateText spec).length
  (if negative then -1 else 1) *
    (Nat.ofDigits spec.base.radix (digits.map digitValue).reverse : Nat)

/-- The text is an optional sign, the prefix if requested, zeros and the digits of the value. -/
def Shows (spec : FormatSpec) (number : Number) (text : List (BitVec 8)) : Prop :=
  ∃ sign zeros, (sign = [] ∨ sign = [ascii '+'] ∨ sign = [ascii '-']) ∧
    text = sign ++ alternateText spec ++ List.replicate zeros (ascii '0') ++
      spec.base.digitsText number.value

section

variable {spec : FormatSpec} {number : Number} {args : Nat → Word} {fmt : List (BitVec 8)}
  {arg : Nat}

/-! ## Padding characters -/

/-- A blank or a zero. -/
def padsPlainly (spec : FormatSpec) : Bool :=
  spec.paddingChar == ascii ' ' || spec.paddingChar == ascii '0'

theorem parseFlag_padsPlainly (args : Nat → Word) (c : BitVec 8) (arg : Nat)
    (hchar : padsPlainly spec = true) :
    (parseFlag args c spec arg).all (fun next => padsPlainly next.1) = true := by
  rw [padsPlainly] at hchar
  simp only [parseFlag, padsPlainly, apply_ite (Option.all _), Option.all_some, Option.all_none,
    hchar, beq_self_eq_true, Bool.true_or, Bool.or_true, ite_self]

theorem consumeNext_padsPlainly (args : Nat → Word) (fmt : List (BitVec 8)) (arg : Nat)
    (hchar : padsPlainly spec = true) : padsPlainly (consumeNext args fmt spec arg).1 = true := by
  induction fmt generalizing spec arg with
  | nil => exact hchar
  | cons c fmt ih =>
    have hflag := parseFlag_padsPlainly args c arg hchar
    rw [consumeNext]
    cases hparse : parseFlag args c spec arg with
    | none => exact hchar
    | some next =>
      rw [hparse, Option.all_some] at hflag
      exact ih next.2 hflag

theorem Built.paddingChar (h : Built spec) :
    spec.paddingChar = ascii ' ' ∨ spec.paddingChar = ascii '0' := by
  obtain ⟨args, fmt, arg, base, alternateForm, intWidth, rfl⟩ := h
  have hplain := consumeNext_padsPlainly args fmt arg (show padsPlainly {} = true from rfl)
  simpa [padsPlainly] using hplain

/-! ## Digits -/

theorem Base.radix_eq (base : Base) : base.layout.2.toNat = base.radix := by
  cases base <;> rfl

theorem Base.one_lt_radix (base : Base) : 1 < base.radix ∧ base.radix ≤ 16 := by
  cases base <;> decide

/-- The loop writes the digits of the accumulator in front of what is there, if it has enough
rounds. -/
theorem layoutDigits_eq (charset : List (BitVec 8)) {divisor acc : Word} {rounds : Nat}
    (hdivisor : 1 < divisor.toNat) (hacc : acc.toNat < divisor.toNat ^ rounds)
    (digits : List (BitVec 8)) :
    layoutDigits charset divisor rounds acc digits =
      ((Nat.digits divisor.toNat acc.toNat).map fun d => charset.getD d 0#8).reverse ++ digits := by
  induction rounds generalizing acc digits with
  | zero =>
    have hzero : acc.toNat = 0 := Nat.lt_one_iff.mp hacc
    rw [layoutDigits, hzero, Nat.digits_zero]
    rfl
  | succ rounds ih =>
    rw [layoutDigits]
    by_cases hzero : acc = 0#64
    · rw [if_pos hzero, hzero]
      simp
    · have hpos : 0 < acc.toNat := by
        rw [Nat.pos_iff_ne_zero]
        exact fun h => hzero (BitVec.eq_of_toNat_eq h)
      have hnext : (acc / divisor).toNat < divisor.toNat ^ rounds := by
        rw [BitVec.toNat_udiv]
        exact Nat.div_lt_of_lt_mul (by rwa [Nat.pow_succ, Nat.mul_comm] at hacc)
      rw [if_neg hzero, ih hnext, Nat.digits_def' hdivisor hpos, BitVec.toNat_udiv,
        BitVec.toNat_umod, List.map_cons, List.reverse_cons, List.append_assoc]
      rfl

theorem formatLayoutInt_eq (h : isNullPointer spec number = false) :
    formatLayoutInt spec number = spec.base.digitsText number.value := by
  rw [isNullPointer, decide_eq_false_iff_not] at h
  rw [formatLayoutInt, if_neg h, Base.digitsText]
  by_cases hzero : number.value = 0#64
  · rw [if_pos hzero, if_pos hzero]
  · have hradix := spec.base.radix_eq
    have hlt : number.value.toNat < spec.base.layout.2.toNat ^ numMaxDigits :=
      number.value.isLt.trans_le (Nat.pow_le_pow_left (hradix ▸ spec.base.one_lt_radix.1) 64)
    rw [if_neg hzero, if_neg hzero, layoutDigits_eq _ (hradix ▸ spec.base.one_lt_radix.1) hlt,
      List.append_nil, hradix]

theorem charset_getD : ∀ (base : Base) (d : Fin 16), d < base.radix →
    digitValue (base.layout.1.getD d 0#8) = d ∧
      base.layout.1.getD d 0#8 ∉ [ascii ' ', ascii '+', ascii '-'] := by
  intro base
  cases base <;> decide

theorem Base.digit_spec (base : Base) {value d : Nat} (hd : d ∈ Nat.digits base.radix value) :
    digitValue (base.layout.1.getD d 0#8) = d ∧
      base.layout.1.getD d 0#8 ∉ [ascii ' ', ascii '+', ascii '-'] := by
  have hlt := Nat.digits_lt_base base.one_lt_radix.1 hd
  exact charset_getD base ⟨d, hlt.trans_le base.one_lt_radix.2⟩ hlt

/-- Digits with zeros in front of them have the value. -/
theorem Base.digitsText_value (base : Base) (value : Word) (zeros : Nat) :
    Nat.ofDigits base.radix
      ((List.replicate zeros (ascii '0') ++ base.digitsText value).map digitValue).reverse =
      value.toNat := by
  have hzeros : (List.replicate zeros (ascii '0')).map digitValue = List.replicate zeros 0 :=
    List.map_replicate
  rw [List.map_append, List.reverse_append, hzeros, List.reverse_replicate,
    Nat.ofDigits_append_replicate_zero, Base.digitsText]
  by_cases hzero : value = 0#64
  · rw [if_pos hzero, hzero]
    rfl
  · have hdigits : (Nat.digits base.radix value.toNat).map
        (digitValue ∘ fun d => base.layout.1.getD d 0#8) = Nat.digits base.radix value.toNat :=
      (List.map_congr_left fun d hd => (base.digit_spec hd).1).trans (List.map_id' _)
    rw [if_neg hzero, List.map_reverse, List.reverse_reverse, List.map_map, hdigits,
      Nat.ofDigits_digits]

theorem Base.digitsText_plain (base : Base) (value : Word) :
    ∀ c ∈ base.digitsText value, c ∉ [ascii ' ', ascii '+', ascii '-'] := by
  intro c hc
  rw [Base.digitsText] at hc
  split_ifs at hc
  · rw [List.mem_singleton.mp hc]
    decide
  · rw [List.mem_reverse, List.mem_map] at hc
    obtain ⟨d, hd, rfl⟩ := hc
    exact (base.digit_spec hd).2

theorem alternateText_plain (spec : FormatSpec) :
    ∀ c ∈ alternateText spec, c ∉ [ascii ' ', ascii '+', ascii '-'] := by
  rw [alternateText]
  split_ifs
  · cases spec.base <;> decide
  · exact fun c hc => absurd hc List.not_mem_nil

/-! ## Widths -/

theorem signText_length (spec : FormatSpec) (number : Number) :
    (signText spec number).length =
      if number.negative || spec.printPlus || spec.leaveSpace then 1 else 0 := by
  rw [signText]
  cases number.negative <;> cases spec.printPlus <;> cases spec.leaveSpace <;> rfl

/-- `pad_len` is what is missing to the width. -/
theorem numberPadLen_eq (h : isNullPointer spec number = false) :
    numberPadLen spec number =
      spec.paddingWidth.toInt - ((unpaddedText spec number).length : Int) := by
  rw [unpaddedText, headText, h, if_neg Bool.false_ne_true, List.length_append, List.length_append,
    signText_length, numberPadLen, alternateText]
  simp only [h, Bool.not_false, Bool.and_true]
  generalize (formatLayoutInt spec number).length = len
  generalize spec.paddingWidth.toInt = width
  generalize (number.negative || spec.printPlus || spec.leaveSpace) = sign
  cases sign <;> cases spec.alternateForm <;> cases spec.base <;> simp [Base.prefixText] <;> omega

/-- A null pointer has no sign, but its `pad_len` leaves room for one. -/
theorem numberPadLen_null (h : isNullPointer spec number = true) :
    numberPadLen spec number = spec.paddingWidth.toInt - ((unpaddedText spec number).length : Int) -
      ((signText spec number).length : Int) := by
  rw [unpaddedText, headText, h, if_pos rfl, signText_length, numberPadLen, List.nil_append]
  simp only [h, Bool.not_true, Bool.and_false, Bool.false_eq_true, if_false]
  generalize (number.negative || spec.printPlus || spec.leaveSpace) = sign
  cases sign <;> simp

theorem numberText_length (spec : FormatSpec) (number : Number) :
    (numberText spec number).length = (unpaddedText spec number).length +
      if spec.paddingWidth = 0#16 then 0 else (numberPadLen spec number).toNat := by
  rw [numberText, unpaddedText, padText]
  split_ifs <;> simp <;> omega

/-! ## The form of the output -/

theorem stripSpaces_padded {core : List (BitVec 8)} (hcore : ascii ' ' ∉ core) (before after : Nat) :
    stripSpaces (List.replicate before (ascii ' ') ++
      (core ++ List.replicate after (ascii ' '))) = core := by
  have hfront : ∀ rest : List (BitVec 8),
      (List.replicate before (ascii ' ') ++ rest).dropWhile (· == ascii ' ') =
        rest.dropWhile (· == ascii ' ') := fun rest =>
    List.dropWhile_append_of_pos fun c hc => by simp [List.eq_of_mem_replicate hc]
  have hback : ∀ front : List (BitVec 8),
      (front ++ List.replicate after (ascii ' ')).rdropWhile (· == ascii ' ') =
        front.rdropWhile (· == ascii ' ') := fun front => by
    rw [List.rdropWhile, List.reverse_append, List.reverse_replicate,
      List.dropWhile_append_of_pos fun c hc => by simp [List.eq_of_mem_replicate hc],
      ← List.rdropWhile]
  have hself : core.rdropWhile (· == ascii ' ') = core :=
    List.rdropWhile_eq_self_iff.mpr fun hne hlast => by
      have hmem := List.getLast_mem hne
      rw [beq_iff_eq.mp hlast] at hmem
      exact hcore hmem
  rw [stripSpaces, hfront]
  cases core with
  | nil => rw [List.nil_append, List.dropWhile_replicate]; simp
  | cons c core =>
    rw [List.mem_cons, not_or] at hcore
    rw [List.cons_append, List.dropWhile_cons_of_neg (by simpa using Ne.symm hcore.1),
      ← List.cons_append, hback, hself]

/-- The sign that is not a space. -/
def markText (spec : FormatSpec) (number : Number) : List (BitVec 8) :=
  if number.negative then [ascii '-'] else if spec.printPlus then [ascii '+'] else []

theorem signText_eq (spec : FormatSpec) (number : Number) :
    ∃ k, signText spec number = List.replicate k (ascii ' ') ++ markText spec number := by
  rw [signText, markText]
  split_ifs
  · exact ⟨0, rfl⟩
  · exact ⟨0, rfl⟩
  · exact ⟨1, rfl⟩
  · exact ⟨0, rfl⟩

/-- The output is the number with spaces around it, unless zeros are put behind a number that
is not zero. -/
theorem numberText_form (hnull : isNullPointer spec number = false)
    (hchar : spec.paddingChar = ascii ' ' ∨ spec.paddingChar = ascii '0')
    (hzeros : spec.leftJustify = true → spec.paddingChar = ascii '0' →
      (numberPadLen spec number).toNat = 0 ∨ number.value = 0#64) :
    ∃ before after zeros, numberText spec number = List.replicate before (ascii ' ') ++
      (markText spec number ++ alternateText spec ++ List.replicate zeros (ascii '0') ++
        spec.base.digitsText number.value ++ List.replicate after (ascii ' ')) := by
  obtain ⟨k, hsign⟩ := signText_eq spec number
  have hhead : headText spec number =
      List.replicate k (ascii ' ') ++ markText spec number ++ alternateText spec := by
    rw [headText, hnull, if_neg Bool.false_ne_true, hsign]
  rw [numberText, hhead, formatLayoutInt_eq hnull, padText]
  by_cases hwidth : spec.paddingWidth = 0#16
  · exact ⟨k, 0, 0, by simp [hwidth]⟩
  · by_cases hleft : spec.leftJustify = true
    · rcases hchar with hblank | hzero
      · exact ⟨k, (numberPadLen spec number).toNat, 0, by simp [hwidth, hleft, hblank]⟩
      · rcases hzeros hleft hzero with hpad | hvalue
        · exact ⟨k, 0, 0, by simp [hwidth, hleft, hpad]⟩
        · -- zeros on either side of a zero
          refine ⟨k, 0, (numberPadLen spec number).toNat, ?_⟩
          have hswap : ∀ m, List.replicate m (ascii '0') ++ [ascii '0'] =
              ascii '0' :: List.replicate m (ascii '0') := fun m => by
            rw [← List.replicate_succ', List.replicate_succ]
          simp [hwidth, hleft, hzero, Base.digitsText, hvalue, hswap]
    · rcases hchar with hblank | hzero
      · have hne : ¬ascii ' ' = ascii '0' := by decide
        refine ⟨(numberPadLen spec number).toNat + k, 0, 0, ?_⟩
        rw [List.replicate_add]
        simp [hwidth, hleft, hblank, hne, -List.replicate_append_replicate]
      · exact ⟨k, 0, (numberPadLen spec number).toNat, by simp [hwidth, hleft, hzero]⟩

theorem markText_plain {c : BitVec 8} (hc : c ∈ markText spec number) : c ≠ ascii ' ' := by
  rw [markText] at hc
  split_ifs at hc
  · rw [List.mem_singleton.mp hc]
    decide
  · rw [List.mem_singleton.mp hc]
    decide
  · cases hc

/-- A text that starts with neither of the two signs. -/
theorem head?_ne_sign {text : List (BitVec 8)} (h : ∀ c ∈ text, c ∉ [ascii ' ', ascii '+', ascii '-']) :
    text.head? ≠ some (ascii '-') ∧ text.head? ≠ some (ascii '+') := by
  cases text with
  | nil => simp
  | cons c text =>
    have hc := h c List.mem_cons_self
    simp only [List.mem_cons, not_or] at hc
    simp only [List.head?_cons, ne_eq, Option.some.injEq]
    exact ⟨hc.2.2.1, hc.2.1⟩

theorem unsigned_plain (spec : FormatSpec) (value : Word) (zeros : Nat) :
    ∀ c ∈ alternateText spec ++ (List.replicate zeros (ascii '0') ++ spec.base.digitsText value),
      c ∉ [ascii ' ', ascii '+', ascii '-'] := by
  intro c hc
  rcases List.mem_append.mp hc with hc | hc
  · exact alternateText_plain spec c hc
  · rcases List.mem_append.mp hc with hc | hc
    · rw [List.eq_of_mem_replicate hc]
      decide
    · exact spec.base.digitsText_plain value c hc

theorem readNumber_eq (spec : FormatSpec) (number : Number) (zeros : Nat) :
    readNumber spec (markText spec number ++ alternateText spec ++
      List.replicate zeros (ascii '0') ++ spec.base.digitsText number.value) =
        (if number.negative then -1 else 1) * (number.value.toNat : Int) := by
  have hplain := unsigned_plain spec number.value zeros
  have hvalue := spec.base.digitsText_value number.value zeros
  rw [List.append_assoc, List.append_assoc, readNumber, markText]
  obtain ⟨hminus, hplus⟩ := head?_ne_sign hplain
  generalize List.replicate zeros (ascii '0') ++ spec.base.digitsText number.value = digits
    at hvalue hminus hplus
  cases hnegative : number.negative with
  | true => simp [hvalue]
  | false =>
    have hne : ¬ascii '+' = ascii '-' := by decide
    cases hmark : spec.printPlus with
    | true => simp [hne, hvalue]
    | false =>
      simp only [Bool.false_eq_true, if_false, List.nil_append, hminus, hplus, or_self,
        List.drop_left, hvalue]

theorem numberText_length_eq (h : isNullPointer spec number = false ∨ signText spec number = []) :
    (numberText spec number).length =
      max spec.paddingWidth.toInt.toNat (unpaddedText spec number).length := by
  have hpad : numberPadLen spec number =
      spec.paddingWidth.toInt - ((unpaddedText spec number).length : Int) := by
    cases hnull : isNullPointer spec number with
    | false => exact numberPadLen_eq hnull
    | true =>
      rw [numberPadLen_null hnull, h.resolve_left (by simp [hnull])]
      simp
  rw [numberText_length, hpad]
  split_ifs with hwidth
  · rw [hwidth]
    simp
  · omega

theorem numberText_length_le (spec : FormatSpec) (number : Number) :
    (numberText spec number).length ≤
      max spec.paddingWidth.toInt.toNat (unpaddedText spec number).length := by
  cases hnull : isNullPointer spec number with
  | false => exact (numberText_length_eq (Or.inl hnull)).le
  | true =>
    rw [numberText_length, numberPadLen_null hnull]
    split_ifs <;> omega

/-- Nothing but padding goes with the text of a null pointer. -/
theorem numberText_null (h : isNullPointer spec number = true) :
    ∃ before after, (if spec.leftJustify = true then before = 0 else after = 0) ∧
      numberText spec number = List.replicate before spec.paddingChar ++ nullptrText ++
        List.replicate after spec.paddingChar := by
  have htext : formatLayoutInt spec number = nullptrText := by
    rw [formatLayoutInt, if_pos (of_decide_eq_true h)]
  rw [numberText, headText, h, if_pos rfl, htext, padText]
  by_cases hwidth : spec.paddingWidth = 0#16
  · exact ⟨0, 0, by simp, by simp [hwidth]⟩
  · by_cases hleft : spec.leftJustify = true
    · exact ⟨0, (numberPadLen spec number).toNat, by simp [hleft], by simp [hwidth, hleft]⟩
    · exact ⟨(numberPadLen spec number).toNat, 0, by simp [hleft], by simp [hwidth, hleft]⟩

end

/-- What `format_number` writes with a limit that is large enough. A number has the width asked
for, and without its padding it is an optional sign, the prefix if requested, zeros and the
digits of its value, and read back as the number, unless zeros were put behind it. A null
pointer is its own text with padding on one side. -/
theorem format_number_spec {spec : FormatSpec} (hspec : Built spec) (number : Number) {n : Word}
    (hn : max spec.paddingWidth.toInt.toNat (unpaddedText spec number).length ≤ n.toNat) :
    (isNullPointer spec number = false →
      (formatNumber spec number n).out.length =
        max spec.paddingWidth.toInt.toNat (unpaddedText spec number).length ∧
      (¬(spec.leftJustify = true ∧ spec.paddingChar = ascii '0' ∧ number.value ≠ 0#64 ∧
          (unpaddedText spec number).length < spec.paddingWidth.toInt) →
        Shows spec number (stripSpaces (formatNumber spec number n).out) ∧
        readNumber spec (stripSpaces (formatNumber spec number n).out) =
          (if number.negative then -1 else 1) * (number.value.toNat : Int))) ∧
    (isNullPointer spec number = true →
      (∃ before after, (if spec.leftJustify = true then before = 0 else after = 0) ∧
        (formatNumber spec number n).out = List.replicate before spec.paddingChar ++ nullptrText ++
          List.replicate after spec.paddingChar) ∧
      (spec.printPlus = false → spec.leaveSpace = false → number.negative = false →
        (formatNumber spec number n).out.length =
          max spec.paddingWidth.toInt.toNat nullptrText.length)) := by
  have hout : (formatNumber spec number n).out = numberText spec number := by
    rw [(formatNumber_upto spec number n).out,
      List.take_of_length_le ((numberText_length_le spec number).trans hn)]
  rw [hout]
  refine ⟨fun hnull => ⟨numberText_length_eq (Or.inl hnull), fun hbehind => ?_⟩,
    fun hnull => ⟨numberText_null hnull, fun hplus hspace hnegative => ?_⟩⟩
  · have hzeros : spec.leftJustify = true → spec.paddingChar = ascii '0' →
        (numberPadLen spec number).toNat = 0 ∨ number.value = 0#64 := fun hleft hchar => by
      rw [numberPadLen_eq hnull]
      by_cases hvalue : number.value = 0#64
      · exact Or.inr hvalue
      · have hwide : ¬((unpaddedText spec number).length : Int) < spec.paddingWidth.toInt :=
          fun hlt => hbehind ⟨hleft, hchar, hvalue, hlt⟩
        exact Or.inl (by omega)
    obtain ⟨before, after, zeros, hform⟩ := numberText_form hnull hspec.paddingChar hzeros
    have hblank : ascii ' ' ∉ markText spec number ++ alternateText spec ++
        List.replicate zeros (ascii '0') ++ spec.base.digitsText number.value := by
      rw [List.append_assoc, List.append_assoc]
      intro hc
      rcases List.mem_append.mp hc with hc | hc
      · exact markText_plain hc rfl
      · exact unsigned_plain spec number.value zeros _ hc List.mem_cons_self
    rw [hform, stripSpaces_padded hblank]
    refine ⟨⟨markText spec number, zeros, ?_, rfl⟩, readNumber_eq spec number zeros⟩
    rw [markText]
    split_ifs
    · exact Or.inr (Or.inr rfl)
    · exact Or.inr (Or.inl rfl)
    · exact Or.inl rfl
  · have hsign : signText spec number = [] := by simp [signText, hplus, hspace, hnegative]
    have hunpadded : unpaddedText spec number = nullptrText := by
      rw [unpaddedText, headText, hnull, if_pos rfl, formatLayoutInt,
        if_pos (of_decide_eq_true hnull), List.nil_append]
    rw [numberText_length_eq (Or.inr hsign), hunpadded]

/-- 42 with the flags of `%+05d`. -/
theorem format_number_spec_zeros :
    let spec : FormatSpec := { printPlus := true, paddingChar := ascii '0', paddingWidth := 5#16 }
    readNumber spec (stripSpaces (formatNumber spec ⟨42#64, false⟩ 5#64).out) = 42 := by
  intro spec
  have hspec : Built spec :=
    ⟨fun _ => 0#64, [ascii '+', ascii '0', ascii '5', ascii 'd'], 0, .base10, false, 0#8, by decide⟩
  exact (((format_number_spec hspec ⟨42#64, false⟩ (n := 5#64) (by decide)).1 (by decide)).2
    (by decide)).2

/-- The null pointer of `%p` is not written as a number. -/
theorem format_number_null_pointer : ∃ (spec : FormatSpec) (number : Number) (n : Word),
    Built spec ∧ max spec.paddingWidth.toInt.toNat (unpaddedText spec number).length ≤ n.toNat ∧
      ¬Shows spec number (stripSpaces (formatNumber spec number n).out) := by
  refine ⟨{ base := .basePtr, alternateForm := true, intWidth := 2#8 }, ⟨0#64, false⟩, 9#64,
    ⟨fun _ => 0#64, [ascii 'p'], 0, .basePtr, true, 2#8, by decide⟩, by decide, ?_⟩
  rintro ⟨sign, zeros, -, htext⟩
  have hlast := congrArg List.getLast? htext
  rw [show Base.digitsText .basePtr 0#64 = [ascii '0'] from rfl, List.getLast?_concat] at hlast
  exact absurd hlast (by decide)

end Tern.Print
