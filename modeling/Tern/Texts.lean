import Tern.Formats

/-! What the output functions write when nothing limits them, as one text for each. With a
limit they write the start of it; so the whole output of a format is cut at its end only. -/

namespace Tern.Print

open Lib Written

/-! ## The pieces -/

def padText (spec : FormatSpec) (padLen : Int) : List (BitVec 8) :=
  List.replicate padLen.toNat spec.paddingChar

def signText (spec : FormatSpec) (number : Number) : List (BitVec 8) :=
  if number.negative then [ascii '-']
  else if spec.printPlus then [ascii '+']
  else if spec.leaveSpace then [ascii ' ']
  else []

def Base.prefixText : Base → List (BitVec 8)
  | .base2 => [ascii '0', ascii 'b']
  | .base8 => [ascii '0']
  | .base10 => []
  | .base16Caps => [ascii '0', ascii 'X']
  | .base16 | .basePtr => [ascii '0', ascii 'x']

def alternateText (spec : FormatSpec) : List (BitVec 8) :=
  if spec.alternateForm then spec.base.prefixText else []

/-- The sign and the prefix; a null pointer has neither. -/
def headText (spec : FormatSpec) (number : Number) : List (BitVec 8) :=
  if isNullPointer spec number then [] else signText spec number ++ alternateText spec

def numberText (spec : FormatSpec) (number : Number) : List (BitVec 8) :=
  let head := headText spec number
  let digits := formatLayoutInt spec number
  let pad := padText spec (numberPadLen spec number)
  if spec.paddingWidth = 0#16 then head ++ digits
  else if spec.leftJustify then head ++ digits ++ pad
  else if spec.paddingChar = ascii '0' then head ++ pad ++ digits
  else pad ++ head ++ digits

def stringText (spec : FormatSpec) (s : List (BitVec 8)) : List (BitVec 8) :=
  let text := (stringParts spec s).1
  let pad := padText spec (stringParts spec s).2.toInt
  if spec.paddingWidth = 0#16 then text
  else if spec.leftJustify then text ++ pad
  else pad ++ text

section

variable {spec : FormatSpec} {number : Number} {n : Word} {s : Output} {text : List (BitVec 8)}

theorem formatPad_upto (spec : FormatSpec) (padLen : Int) (n : Word) :
    Upto n (padText spec padLen) (formatPad spec padLen n) := by
  rw [padText, formatPad]
  induction padLen.toNat with
  | zero => exact .start
  | succ k ih =>
    rw [List.range_succ, List.foldl_append, List.replicate_succ']
    exact ih.write (Nat.one_lt_two_pow (by decide))

theorem formatNumberSign_upto (spec : FormatSpec) (number : Number) (n : Word) :
    Upto n (signText spec number) (formatNumberSign spec number n) := by
  rw [signText, formatNumberSign]
  split_ifs
  · exact Upto.start.write (by decide)
  · exact Upto.start.write (by decide)
  · exact Upto.start.write (by decide)
  · exact .start

theorem formatNumberAlternateForm_upto (spec : FormatSpec) (n : Word) :
    Upto n (alternateText spec) (formatNumberAlternateForm spec n) := by
  rw [alternateText, formatNumberAlternateForm]
  split_ifs
  · cases spec.base with
    | base10 => exact .start
    | base16 => exact Upto.start.write (by decide)
    | base16Caps => exact Upto.start.write (by decide)
    | base8 => exact Upto.start.write (by decide)
    | base2 => exact Upto.start.write (by decide)
    | basePtr => exact Upto.start.write (by decide)
  · exact .start

theorem layoutDigits_length_le (charset : List (BitVec 8)) (divisor : Word) (rounds : Nat)
    (acc : Word) (digits : List (BitVec 8)) :
    (layoutDigits charset divisor rounds acc digits).length ≤ rounds + digits.length := by
  induction rounds generalizing acc digits with
  | zero => exact Nat.le_add_left _ _
  | succ rounds ih =>
    rw [layoutDigits]
    split
    · exact Nat.le_add_left _ _
    · refine (ih _ _).trans ?_
      rw [List.length_cons]
      omega

theorem formatLayoutInt_length_le (spec : FormatSpec) (number : Number) :
    (formatLayoutInt spec number).length ≤ 64 := by
  rw [formatLayoutInt]
  split_ifs
  · decide
  · decide
  · exact layoutDigits_length_le _ _ _ _ _

theorem signAndForm_upto (h : Upto n text s) (spec : FormatSpec) (number : Number) :
    Upto n (text ++ (signText spec number ++ alternateText spec))
      ((s.call n (formatNumberSign spec number)).call n (formatNumberAlternateForm spec)) := by
  rw [← List.append_assoc]
  exact (h.call (formatNumberSign_upto spec number)).call (formatNumberAlternateForm_upto spec)

theorem formatNumber_upto (spec : FormatSpec) (number : Number) (n : Word) :
    Upto n (numberText spec number) (formatNumber spec number n) := by
  have hdigits : (formatLayoutInt spec number).length < 2 ^ 64 :=
    (formatLayoutInt_length_le spec number).trans_lt (by decide)
  have hpad := formatPad_upto spec (numberPadLen spec number)
  have hhead : Upto n (headText spec number) (if isNullPointer spec number then (.start : Output)
      else ((Written.start.call n (formatNumberSign spec number)).call n
        (formatNumberAlternateForm spec))) := by
    rw [headText]
    split
    · exact .start
    · exact signAndForm_upto .start spec number
  rw [numberText, formatNumber]
  by_cases hwidth : spec.paddingWidth = 0#16
  · simp only [hwidth, ne_eq, not_true_eq_false, false_and, if_false, if_true]
    exact hhead.write hdigits
  · by_cases hleft : spec.leftJustify = true
    · simp only [hwidth, hleft, ne_eq, not_false_eq_true, and_self, if_false, if_true]
      exact (hhead.write hdigits).call hpad
    · simp only [hwidth, hleft, ne_eq, not_false_eq_true, if_false, if_true]
      cases hnull : isNullPointer spec number with
      | true =>
        rw [headText, hnull]
        simp only [Bool.not_true, Bool.false_eq_true, and_false, if_false, if_true,
          List.nil_append, List.append_nil, ite_self]
        exact (Upto.start.call hpad).write hdigits
      | false =>
        rw [headText, hnull]
        by_cases hzero : spec.paddingChar = ascii '0'
        · simp only [hzero, not_true_eq_false, Bool.not_false, Bool.false_eq_true, and_true,
            if_false, if_true]
          exact ((signAndForm_upto .start spec number).call hpad).write hdigits
        · simp only [hzero, not_false_eq_true, Bool.not_false, Bool.false_eq_true, false_and,
            true_and, if_false, if_true]
          exact (signAndForm_upto (Upto.start.call hpad) spec number).write hdigits

theorem formatString_upto (spec : FormatSpec) {chars : List (BitVec 8)}
    (hshort : chars.length < 2 ^ 64) (n : Word) :
    Upto n (stringText spec chars) (formatString spec chars n) := by
  have htext : (stringParts spec chars).1.length < 2 ^ 64 :=
    (List.take_sublist _ _).length_le.trans_lt hshort
  have hpad := formatPad_upto spec (stringParts spec chars).2.toInt
  rw [stringText, formatString]
  by_cases hwidth : spec.paddingWidth = 0#16
  · simp only [hwidth, ne_eq, not_true_eq_false, false_and, if_false, if_true]
    exact Upto.start.write htext
  · by_cases hleft : spec.leftJustify = true
    · simp only [hwidth, hleft, ne_eq, not_false_eq_true, Bool.not_true, Bool.false_eq_true,
        and_false, if_false, if_true]
      exact (Upto.start.write htext).call hpad
    · simp only [hwidth, hleft, ne_eq, not_false_eq_true, Bool.not_false, and_self, if_false,
        if_true]
      exact (Upto.start.call hpad).write htext

end

/-! ## Whole formats -/

section

variable {string : Word → CString} {args : Nat → Word} {spec : FormatSpec} {arg : Nat}
  {ok : BitVec 8 → Bool} {fuel : Nat} {fmt : List (BitVec 8)}

/-- A part of a run that goes on by `more` and takes the arguments up to `arg'`, with any limit. -/
def Adds (arg : Nat) (run : Word → State → State) (more : List (BitVec 8)) (arg' : Nat) : Prop :=
  ∀ n s text, s.arg = arg → Upto n text s.written →
    (run n s).arg = arg' ∧ Upto n (text ++ more) (run n s).written

theorem exists_adds_ite {b : Prop} [Decidable b] {run run' : Word → State → State}
    (h : ∃ more arg', Adds arg run more arg') (h' : ∃ more arg', Adds arg run' more arg') :
    ∃ more arg', Adds arg (fun n s => if b then run n s else run' n s) more arg' := by
  by_cases hb : b
  · simpa only [hb, if_true] using h
  · simpa only [hb, if_false] using h'

theorem printNumber_adds (args : Nat → Word) (spec : FormatSpec) (signed : Bool) (arg : Nat) :
    ∃ more arg', Adds arg (fun n s => printNumber args n spec signed s) more arg' := by
  refine ⟨numberText spec (getNumber args spec signed arg).1, (getNumber args spec signed arg).2, ?_⟩
  rintro n s text rfl h
  exact ⟨rfl, h.call (formatNumber_upto _ _)⟩

theorem printString_adds (string : Word → CString) (args : Nat → Word) (spec : FormatSpec)
    (arg : Nat) : ∃ more arg', Adds arg (fun n s =>
      { s with
        written := s.written.call n (formatString spec
          (if args s.arg = 0#64 then nullText else (string (args s.arg)).chars))
        arg := s.arg + 1 }) more arg' := by
  refine ⟨stringText spec (if args arg = 0#64 then nullText else (string (args arg)).chars),
    arg + 1, ?_⟩
  rintro n s text rfl h
  refine ⟨rfl, h.call fun m => formatString_upto spec ?_ m⟩
  split_ifs
  · decide
  · exact (string _).short

/-- One case for each conversion, in the order of the switch. -/
theorem convert_adds (string : Word → CString) (args : Nat → Word) (c : BitVec 8)
    (spec : FormatSpec) (arg : Nat) :
    ∃ more arg', Adds arg (fun n s => convert string args n c spec s) more arg' := by
  unfold convert
  refine exists_adds_ite ?_ (exists_adds_ite ?_ (exists_adds_ite ?_ (exists_adds_ite
    (printString_adds string args spec arg) (exists_adds_ite (printNumber_adds args _ _ arg)
    (exists_adds_ite (printNumber_adds args _ _ arg) (exists_adds_ite (printNumber_adds args _ _ arg)
    (exists_adds_ite (printNumber_adds args _ _ arg) (exists_adds_ite (printNumber_adds args _ _ arg)
    (exists_adds_ite (printNumber_adds args _ _ arg) (exists_adds_ite (printNumber_adds args _ _ arg)
    ?_))))))))))
  · exact ⟨[ascii '%'], arg, fun n s text hs h => ⟨hs, h.write (by decide)⟩⟩
  · exact ⟨[], arg + 1, fun n s text hs h => ⟨congrArg (· + 1) hs, by rwa [List.append_nil]⟩⟩
  · refine ⟨[(args arg).truncate 8], arg + 1, ?_⟩
    rintro n s text rfl h
    exact ⟨rfl, h.write (Nat.one_lt_two_pow (by decide))⟩
  · exact ⟨[], arg, fun n s text hs h => ⟨hs, by rwa [List.append_nil]⟩⟩

/-- What a complete format adds to the output, by induction on the fuel: in each round the
literal text, then the conversion. -/
theorem formatLoop_adds (hnul : 0#8 ∉ fmt) (hshort : fmt.length < 2 ^ 64)
    (hcomplete : directives ok false fmt = true) (hfuel : fmt.length < fuel) (arg : Nat) :
    ∃ more, ∀ n s text, s.arg = arg → Upto n text s.written →
      ∃ s', formatLoop string args n fuel fmt s = .ok s' ∧ Upto n (text ++ more) s'.written := by
  induction fuel generalizing fmt arg with
  | zero => exact absurd hfuel (Nat.not_lt_zero _)
  | succ fuel ih =>
    rcases formatLoop_cases string args ok hnul arg with
      ⟨-, h⟩ | ⟨hcut, -⟩ | ⟨before, spec, arg', c, rest, hsuffix, hless, hsame, h⟩
    · refine ⟨fmt, fun n s text _ hs => ⟨_, h n fuel s, ?_⟩⟩
      split_ifs with hend
      · rwa [hend, List.append_nil]
      · exact hs.write hshort
    · rw [hcut] at hcomplete
      cases hcomplete
    · rw [hsame, Bool.and_eq_true] at hcomplete
      obtain ⟨converted, arg'', hconvert⟩ := convert_adds string args c spec arg'
      obtain ⟨more, hmore⟩ := ih (fun hin => hnul (hsuffix.mem hin)) (by omega) hcomplete.2 (by omega)
        arg''
      refine ⟨before ++ (converted ++ more), fun n s text hs hupto => ?_⟩
      have hbefore : Upto n (text ++ before) (s.write n before).written := hupto.write (by omega)
      obtain ⟨harg, hconverted⟩ :=
        hconvert n { s.write n before with arg := arg' } (text ++ before) rfl hbefore
      rw [h n fuel s hs, ← List.append_assoc, ← List.append_assoc]
      exact hmore n _ _ harg hconverted

end

/-- With a limit `n` the output of a format is the first `n - 1` bytes of one text, and the
value returned is their number, as an `int`. -/
theorem vfnprintf_prefix (string : Word → CString) (args : Nat → Word) (format : CString)
    (hsupported : supported format.chars = true) :
    ∃ text : List (BitVec 8), ∀ n : Word, 1 ≤ n.toNat →
      ∃ printed, (∀ fuel, format.chars.length < fuel →
          vfnprintf string args fuel n format.chars = .ok printed) ∧
        printed.out = text.take (n.toNat - 1) ++ [0#8] ∧
        printed.result = BitVec.ofNat 32 (min (n.toNat - 1) text.length) ∧
        (min (n.toNat - 1) text.length < 2 ^ 31 →
          printed.result.toInt = min (n.toNat - 1) text.length) := by
  obtain ⟨text, htext⟩ := formatLoop_adds format.no_nul
    format.short hsupported (Nat.lt_succ_self _) 0
  refine ⟨text, fun n hn => ?_⟩
  obtain ⟨s, hs, hupto⟩ := htext (n - 1#64) {} [] rfl .start
  have hlimit : (n - 1#64).toNat = n.toNat - 1 := BitVec.toNat_sub_of_le hn
  have hcount := hupto.count_eq
  rw [List.nil_append, hlimit] at hcount
  have hresult : s.written.count.truncate 32 = BitVec.ofNat 32 (min (n.toNat - 1) text.length) := by
    apply BitVec.eq_of_toNat_eq
    rw [BitVec.toNat_setWidth, BitVec.toNat_ofNat, hcount]
  refine ⟨⟨s.written.count.truncate 32, s.written.out ++ [0#8], s.stores, s.invalid⟩,
    fun fuel hfuel => ?_, ?_, hresult, fun hsmall => ?_⟩
  · rw [vfnprintf, formatLoop_fuel format.no_nul hfuel (Nat.lt_succ_self _), hs]
    rfl
  · rw [hupto.out, hlimit, List.nil_append]
  · have hnat : (s.written.count.truncate 32).toNat = min (n.toNat - 1) text.length := by
      rw [hresult, BitVec.toNat_ofNat, Nat.mod_eq_of_lt (by omega)]
    exact (BitVec.toInt_eq_toNat_of_lt (by rw [hnat]; omega)).trans (by rw [hnat])

/-- The format `a%d` with the argument 42, cut after two bytes. -/
theorem vfnprintf_prefix_cut : ∃ text : List (BitVec 8), ∃ printed, ∀ fuel, 3 < fuel →
    vfnprintf (fun _ => emptyString) (fun _ => 42#64) fuel 3#64 [ascii 'a', ascii '%', ascii 'd'] =
      .ok printed ∧ printed.out = text.take 2 ++ [0#8] := by
  obtain ⟨text, htext⟩ := vfnprintf_prefix (fun _ => emptyString) (fun _ => 42#64)
    ⟨[ascii 'a', ascii '%', ascii 'd'], by decide, by decide⟩ (by decide)
  obtain ⟨printed, hrun, hout, -⟩ := htext 3#64 (by decide)
  exact ⟨text, printed, fun fuel hfuel => ⟨hrun fuel hfuel, hout⟩⟩

/-- `2 ^ 31` literal bytes: they are all written, but their number is not an `int`. -/
theorem vfnprintf_result_negative : ∃ (format : CString) (n : Word),
    supported format.chars = true ∧ 1 ≤ n.toNat ∧ ∀ string args,
      ∃ printed, (∀ fuel, format.chars.length < fuel →
          vfnprintf string args fuel n format.chars = .ok printed) ∧
        printed.out.length = 2 ^ 31 + 1 ∧ printed.result.toInt = -2 ^ 31 := by
  have hpercent : ascii '%' ∉ List.replicate (2 ^ 31) (ascii 'a') := fun h =>
    absurd (List.eq_of_mem_replicate h) (by decide)
  have hnul : 0#8 ∉ List.replicate (2 ^ 31) (ascii 'a') := fun h =>
    absurd (List.eq_of_mem_replicate h) (by decide)
  have hlen : (List.replicate (2 ^ 31) (ascii 'a')).length = 2 ^ 31 := List.length_replicate
  generalize List.replicate (2 ^ 31) (ascii 'a') = chars at hpercent hnul hlen
  have hne : chars ≠ [] := by
    rintro rfl
    cases hlen
  have hsupported : supported chars = true := by
    have hliteral := directives_literal
      (· ∈ ['%', 'c', 's', 'd', 'i', 'u', 'x', 'X', 'o', 'b', 'p'].map ascii) hpercent []
    rwa [List.append_nil] at hliteral
  refine ⟨⟨chars, hnul, by rw [hlen]; decide⟩, 0x80000001#64, hsupported, by decide,
    fun string args => ?_⟩
  have hupto : Upto 0x80000000#64 chars (Written.start.write 0x80000000#64 chars) :=
    Upto.start.write (by rw [hlen]; decide)
  have hcount := hupto.count_eq
  rw [hlen] at hcount
  have hround : ∀ fuel, chars.length < fuel → formatLoop string args 0x80000000#64 fuel chars {} =
      .ok (State.write 0x80000000#64 chars {}) := fun fuel hfuel => by
    obtain ⟨fuel, rfl⟩ := Nat.exists_eq_add_of_le' (Nat.zero_lt_of_lt hfuel)
    rw [formatLoop, if_neg fun h => hne ((headD_eq_zero_iff hnul).mp h),
      strchr_eq_none_iff.mpr hpercent]
  refine ⟨⟨(Written.start.write 0x80000000#64 chars).count.truncate 32,
    (Written.start.write 0x80000000#64 chars).out ++ [0#8], [], []⟩, fun fuel hfuel => ?_, ?_, ?_⟩
  · rw [vfnprintf, show 0x80000001#64 - 1#64 = 0x80000000#64 by decide, hround fuel hfuel]
    rfl
  · rw [List.length_append, ← hupto.count, hcount]
    rfl
  · have hcount' : (Written.start.write 0x80000000#64 chars).count = 0x80000000#64 :=
      BitVec.eq_of_toNat_eq (by rw [hcount]; decide)
    have hint : (BitVec.truncate 32 0x80000000#64).toInt = -2 ^ 31 := by decide
    rw [hcount', hint]

end Tern.Print
