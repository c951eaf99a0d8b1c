import Tern.Print

/-! The scan of the format and what its limit does. The scan is safe if every directive is
complete: a `%` that the end of the format cuts off takes it behind the terminator. The
limit cuts off the end of the output and changes nothing in front of it. -/

namespace Tern.Print

open Lib Written

/-! ## Directives -/

def flagChars : List (BitVec 8) :=
  ['-', '+', ' ', '#', '0', '1', '2', '3', '4', '5', '6', '7', '8', '9', '*', '.', 'l', 'h', 'j', 'z',
    't'].map ascii

/-- Every directive ends with a conversion that meets `ok`; the flag tells whether the text
starts inside of a directive. -/
def directives (ok : BitVec 8 → Bool) : Bool → List (BitVec 8) → Bool
  | false, [] => true
  | true, [] => false
  | false, c :: fmt => directives ok (c == ascii '%') fmt
  | true, c :: fmt =>
    if c ∈ flagChars then directives ok true fmt else ok c && directives ok false fmt

/-- No directive is cut off by the end of the format. -/
def complete (format : List (BitVec 8)) : Bool := directives (fun _ => true) false format

/-- Literal text and the conversions other than `%n`. -/
def supported (format : List (BitVec 8)) : Bool :=
  directives (· ∈ ['%', 'c', 's', 'd', 'i', 'u', 'x', 'X', 'o', 'b', 'p'].map ascii) false format

section

variable {args : Nat → Word} {spec : FormatSpec} {arg : Nat} {c : BitVec 8} {ok : BitVec 8 → Bool}
  {fmt p : List (BitVec 8)}

theorem parseFlag_isSome (args : Nat → Word) (c : BitVec 8) (spec : FormatSpec) (arg : Nat) :
    (parseFlag args c spec arg).isSome = true ↔ c ∈ flagChars := by
  simp only [parseFlag, apply_ite Option.isSome, Option.isSome_some, Option.isSome_none, ite_self]
  revert c
  decide +kernel

theorem strchr_eq_none_iff : strchr fmt c = none ↔ c ∉ fmt := by
  induction fmt with
  | nil => simp [strchr]
  | cons a fmt ih =>
    by_cases hac : a = c
    · simp [strchr, hac]
    · simp [strchr, hac, ih, Ne.symm hac]

/-- What `strchr` finds, and the text in front of it. -/
theorem strchr_eq_some (h : strchr fmt c = some p) :
    ∃ before rest, p = c :: rest ∧ fmt = before ++ p ∧ c ∉ before := by
  induction fmt with
  | nil => cases h
  | cons a fmt ih =>
    by_cases hac : a = c
    · rw [strchr, if_pos hac] at h
      cases h
      exact ⟨[], fmt, by rw [hac], rfl, List.not_mem_nil⟩
    · rw [strchr, if_neg hac] at h
      obtain ⟨before, rest, hp, hfmt, hbefore⟩ := ih h
      refine ⟨a :: before, rest, hp, by rw [hfmt, List.cons_append], ?_⟩
      rw [List.mem_cons, not_or]
      exact ⟨Ne.symm hac, hbefore⟩

theorem directives_literal (ok : BitVec 8 → Bool) {before : List (BitVec 8)}
    (h : ascii '%' ∉ before) (rest : List (BitVec 8)) :
    directives ok false (before ++ rest) = directives ok false rest := by
  induction before with
  | nil => rfl
  | cons a before ih =>
    rw [List.mem_cons, not_or] at h
    rw [List.cons_append, directives, beq_eq_false_iff_ne.mpr (Ne.symm h.1)]
    exact ih h.2

theorem directives_percent (ok : BitVec 8 → Bool) (rest : List (BitVec 8)) :
    directives ok false (ascii '%' :: rest) = directives ok true rest := rfl

/-- Where the flags of a directive end: at the end of the format, or at a conversion. -/
theorem consumeNext_cases (args : Nat → Word) (ok : BitVec 8 → Bool) (fmt : List (BitVec 8))
    (spec : FormatSpec) (arg : Nat) :
    ((consumeNext args fmt spec arg).2.2 = [] ∧ directives ok true fmt = false) ∨
    ∃ c rest, (consumeNext args fmt spec arg).2.2 = c :: rest ∧ c :: rest <:+ fmt ∧
      directives ok true fmt = (ok c && directives ok false rest) := by
  induction fmt generalizing spec arg with
  | nil => exact Or.inl ⟨rfl, rfl⟩
  | cons a fmt ih =>
    have hflag := parseFlag_isSome args a spec arg
    rw [consumeNext]
    cases hparse : parseFlag args a spec arg with
    | some next =>
      rw [hparse, Option.isSome_some] at hflag
      have hdirectives : directives ok true (a :: fmt) = directives ok true fmt := by
        rw [directives, if_pos (hflag.mp rfl)]
      rw [hdirectives]
      rcases ih next.1 next.2 with h | ⟨c, rest, hrest, hsuffix, h⟩
      · exact Or.inl h
      · exact Or.inr ⟨c, rest, hrest, hsuffix.trans (List.suffix_cons a fmt), h⟩
    | none =>
      rw [hparse] at hflag
      refine Or.inr ⟨a, fmt, rfl, List.suffix_refl _, ?_⟩
      rw [directives, if_neg fun h => by simp [h] at hflag]

end

/-! ## The scan -/

section

variable {string : Word → CString} {args : Nat → Word} {n : Word} {ok : BitVec 8 → Bool}
  {fuel fuel' : Nat} {fmt : List (BitVec 8)} {s : State}

theorem headD_eq_zero_iff (hnul : 0#8 ∉ fmt) : fmt.headD 0#8 = 0#8 ↔ fmt = [] := by
  cases fmt with
  | nil => simp
  | cons c fmt =>
    rw [List.mem_cons, not_or] at hnul
    simp [Ne.symm hnul.1]

/-- One round: there is no directive any more, or the first one is cut off, or the scan goes
on behind it. What is read and where does not depend on the limit. -/
theorem formatLoop_cases (string : Word → CString) (args : Nat → Word) (ok : BitVec 8 → Bool)
    (hnul : 0#8 ∉ fmt) (arg : Nat) :
    (directives ok false fmt = true ∧ ∀ n fuel s,
      formatLoop string args n (fuel + 1) fmt s = .ok (if fmt = [] then s else s.write n fmt)) ∨
    (directives ok false fmt = false ∧ ∀ n fuel s, s.arg = arg →
      formatLoop string args n (fuel + 1) fmt s = .error .fault) ∨
    ∃ before spec arg' c rest, rest <:+ fmt ∧ before.length + rest.length < fmt.length ∧
      directives ok false fmt = (ok c && directives ok false rest) ∧ ∀ n fuel s, s.arg = arg →
        formatLoop string args n (fuel + 1) fmt s = formatLoop string args n fuel rest
          (convert string args n c spec { s.write n before with arg := arg' }) := by
  by_cases hend : fmt = []
  · refine Or.inl ⟨by rw [hend]; rfl, fun n fuel s => ?_⟩
    rw [formatLoop, if_pos ((headD_eq_zero_iff hnul).mpr hend), if_pos hend]
  · have hhead : ¬fmt.headD 0#8 = 0#8 := fun h => hend ((headD_eq_zero_iff hnul).mp h)
    cases hchr : strchr fmt (ascii '%') with
    | none =>
      have hliteral := directives_literal ok (strchr_eq_none_iff.mp hchr) []
      rw [List.append_nil] at hliteral
      refine Or.inl ⟨hliteral, fun n fuel s => ?_⟩
      rw [formatLoop, if_neg hhead, hchr, if_neg hend]
    | some p =>
      obtain ⟨before, rest, rfl, hfmt, hbefore⟩ := strchr_eq_some hchr
      have hlen : fmt.take (fmt.length - (ascii '%' :: rest).length) = before := by
        rw [hfmt, List.length_append, Nat.add_sub_cancel, List.take_left]
      have hdirectives : directives ok false fmt = directives ok true rest := by
        rw [hfmt, directives_literal ok hbefore, directives_percent]
      have hstep : ∀ n fuel s, s.arg = arg → formatLoop string args n (fuel + 1) fmt s =
          nextChar (consumeNext args rest {} arg).2.2 >>= fun fmt =>
            formatLoop string args n fuel fmt
              (convert string args n ((consumeNext args rest {} arg).2.2.headD 0#8)
                (consumeNext args rest {} arg).1
                { s.write n before with arg := (consumeNext args rest {} arg).2.1 }) := by
        rintro n fuel s rfl
        rw [formatLoop, if_neg hhead, hchr]
        dsimp only
        rw [hlen]
        rfl
      refine Or.inr ?_
      rcases consumeNext_cases args ok rest {} arg with ⟨hcut, hfalse⟩ | ⟨c, rest', hrest, hsuffix, h⟩
      · refine Or.inl ⟨hdirectives.trans hfalse, fun n fuel s hs => ?_⟩
        rw [hstep n fuel s hs, hcut]
        rfl
      · have hless := hsuffix.length_le
        rw [List.length_cons] at hless
        refine Or.inr ⟨before, (consumeNext args rest {} arg).1, (consumeNext args rest {} arg).2.1,
          c, rest', ?_, ?_, hdirectives.trans h, fun n fuel s hs => ?_⟩
        · rw [hfmt]
          exact (((List.suffix_cons c rest').trans hsuffix).trans (List.suffix_cons _ rest)).trans
            (List.suffix_append before _)
        · rw [hfmt, List.length_append, List.length_cons]
          omega
        · rw [hstep n fuel s hs, hrest]
          rfl

/-- The fuel does not matter as long as there is more of it than characters. -/
theorem formatLoop_fuel (hnul : 0#8 ∉ fmt) (hfuel : fmt.length < fuel) (hfuel' : fmt.length < fuel') :
    formatLoop string args n fuel fmt s = formatLoop string args n fuel' fmt s := by
  induction fuel generalizing fuel' fmt s with
  | zero => exact absurd hfuel (Nat.not_lt_zero _)
  | succ fuel ih =>
    obtain ⟨fuel', rfl⟩ := Nat.exists_eq_add_of_le' (Nat.zero_lt_of_lt hfuel')
    rcases formatLoop_cases string args (fun _ => true) hnul s.arg with
      ⟨-, h⟩ | ⟨-, h⟩ | ⟨before, spec, arg, c, rest, hsuffix, hless, -, h⟩
    · rw [h, h]
    · rw [h n fuel s rfl, h n fuel' s rfl]
    · rw [h n fuel s rfl, h n fuel' s rfl]
      exact ih (fun hin => hnul (hsuffix.mem hin)) (by omega) (by omega)

/-- A complete format is read to its end, another one past it. -/
theorem formatLoop_spec (hnul : 0#8 ∉ fmt) (hfuel : fmt.length < fuel) :
    if complete fmt then ∃ s', formatLoop string args n fuel fmt s = .ok s'
    else formatLoop string args n fuel fmt s = .error .fault := by
  induction fuel generalizing fmt s with
  | zero => exact absurd hfuel (Nat.not_lt_zero _)
  | succ fuel ih =>
    rcases formatLoop_cases string args (fun _ => true) hnul s.arg with
      ⟨hok, h⟩ | ⟨hcut, h⟩ | ⟨before, spec, arg, c, rest, hsuffix, hless, hsame, h⟩
    · rw [complete, hok, if_pos rfl]
      exact ⟨_, h n fuel s⟩
    · rw [complete, hcut, if_neg Bool.false_ne_true]
      exact h n fuel s rfl
    · rw [h n fuel s rfl, complete, hsame, Bool.true_and]
      exact ih (fun hin => hnul (hsuffix.mem hin)) (by omega)

end

/-- `vfnprintf` returns, without a look behind the terminator of the format, if and only if no
directive is cut off by the end of the format; otherwise it goes past the terminator. -/
theorem vfnprintf_stops_iff (string : Word → CString) (args : Nat → Word) (n : Word)
    {format : List (BitVec 8)} (hnul : 0#8 ∉ format) :
    ∃ r, (∀ fuel, format.length < fuel → vfnprintf string args fuel n format = r) ∧
      ((∃ printed, r = .ok printed) ↔ complete format = true) ∧
      (complete format = false → r = .error .fault) := by
  refine ⟨vfnprintf string args (format.length + 1) n format, fun fuel hfuel => ?_, ?_⟩
  · rw [vfnprintf, vfnprintf, formatLoop_fuel hnul hfuel (Nat.lt_succ_self _)]
  · have hloop := @formatLoop_spec string args (n - 1#64) _ format {} hnul
      (Nat.lt_succ_self format.length)
    cases hcomplete : complete format with
    | true =>
      rw [hcomplete, if_pos rfl] at hloop
      obtain ⟨s', hs'⟩ := hloop
      rw [vfnprintf, hs']
      exact ⟨iff_of_true ⟨_, rfl⟩ rfl, fun h => by cases h⟩
    | false =>
      rw [hcomplete, if_neg Bool.false_ne_true] at hloop
      have hfault : vfnprintf string args (format.length + 1) n format = .error .fault := by
        rw [vfnprintf, hloop]
        rfl
      rw [hfault]
      exact ⟨iff_of_false (fun ⟨_, h⟩ => by cases h) Bool.false_ne_true, fun _ => rfl⟩

/-- A string for every address. -/
def emptyString : CString := ⟨[], List.not_mem_nil, by decide⟩

/-- A literal `%` is complete. -/
theorem vfnprintf_stops_iff_percent : ∃ printed, ∀ fuel, 2 < fuel →
    vfnprintf (fun _ => emptyString) (fun _ => 0#64) fuel 16#64 [ascii '%', ascii '%'] =
      .ok printed := by
  have hnul : 0#8 ∉ [ascii '%', ascii '%'] := by decide
  obtain ⟨r, hr, hiff, -⟩ := vfnprintf_stops_iff (fun _ => emptyString) (fun _ => 0#64) 16#64 hnul
  obtain ⟨printed, rfl⟩ := hiff.mpr (by decide)
  exact ⟨printed, hr⟩

/-- A lone `%` takes the scan behind the terminator. -/
theorem vfnprintf_lone_percent : ∃ format : List (BitVec 8), 0#8 ∉ format ∧
    ∀ string args n fuel, format.length < fuel →
      vfnprintf string args fuel n format = .error .fault := by
  refine ⟨[ascii '%'], by decide, fun string args n fuel hfuel => ?_⟩
  obtain ⟨fuel, rfl⟩ := Nat.exists_eq_add_of_le' (Nat.zero_lt_of_lt hfuel)
  rfl

end Tern.Print
