import Tern.Basic
import Tern.Lib.Bounded

/-! The formatted output of the library: `vfnprintf` and the functions it calls, each with
a limit of its own for what it writes. Arguments are the words of the argument list, and
strings are given by their addresses. -/

namespace Tern.Print

open Lib

def ascii (c : Char) : BitVec 8 := BitVec.ofNat 8 c.toNat

inductive Base
  | base10 | base16 | base16Caps | base8 | base2 | basePtr
  deriving DecidableEq, Repr

/-- `struct format_spec`; the defaults are those of `vfnprintf`. -/
structure FormatSpec where
  base : Base := .base10
  alternateForm : Bool := false
  printPlus : Bool := false
  leaveSpace : Bool := false
  leftJustify : Bool := false
  paddingChar : BitVec 8 := ascii ' '
  intWidth : BitVec 8 := 0#8
  paddingWidth : BitVec 16 := 0#16
  precision : BitVec 16 := -1#16
  deriving DecidableEq, Repr

structure Number where
  value : Word
  negative : Bool
  deriving DecidableEq, Repr

/-- What a function has written to `f`, with its variable `written`. -/
abbrev Output := Written 64 (BitVec 8)

def formatPad (spec : FormatSpec) (padLen : Int) (n : Word) : Output :=
  (List.range padLen.toNat).foldl (fun s _ => s.write n [spec.paddingChar]) .start

/-- The number, and the index of the next argument. An invalid width takes no argument:
`panic` is empty in this file. -/
def getNumber (args : Nat → Word) (spec : FormatSpec) (signed : Bool) (arg : Nat) : Number × Nat :=
  let width := spec.intWidth.toInt
  if signed || width < 0 then
    let (value, arg) :=
      if -2 ≤ width ∧ width ≤ 0 then (((args arg).truncate 32).signExtend 64, arg + 1)
      else if width = 1 ∨ width = 2 then (args arg, arg + 1)
      else (0#64, arg)
    if value.toInt < 0 then (⟨-value, true⟩, arg) else (⟨value, false⟩, arg)
  else if -2 ≤ width ∧ width ≤ 0 then (⟨((args arg).truncate 32).zeroExtend 64, false⟩, arg + 1)
  else if width = 1 ∨ width = 2 then (⟨args arg, false⟩, arg + 1)
  else (⟨0#64, false⟩, arg)

/-! ## Numbers -/

def lowerHexCharset : List (BitVec 8) :=
  ['0', '1', '2', '3', '4', '5', '6', '7', '8', '9', 'a', 'b', 'c', 'd', 'e', 'f'].map ascii

def upperHexCharset : List (BitVec 8) :=
  ['0', '1', '2', '3', '4', '5', '6', '7', '8', '9', 'A', 'B', 'C', 'D', 'E', 'F'].map ascii

def numMaxDigits : Nat := 64

/-- `charset` and `divisor`. -/
def Base.layout : Base → List (BitVec 8) × Word
  | .base10 => (lowerHexCharset, 10#64)
  | .base16 => (lowerHexCharset, 16#64)
  | .base16Caps | .basePtr => (upperHexCharset, 16#64)
  | .base8 => (lowerHexCharset, 8#64)
  | .base2 => (lowerHexCharset, 2#64)

/-- The loop that fills the buffer from its end, with as many rounds left. -/
def layoutDigits (charset : List (BitVec 8)) (divisor : Word) :
    Nat → Word → List (BitVec 8) → List (BitVec 8)
  | 0, _, digits => digits
  | rounds + 1, acc, digits =>
    if acc = 0#64 then digits
    else layoutDigits charset divisor rounds (acc / divisor)
      (charset.getD (acc % divisor).toNat 0#8 :: digits)

def nullptrText : List (BitVec 8) := ['(', 'n', 'u', 'l', 'l', 'p', 't', 'r', ')'].map ascii

/-- The string in the buffer. -/
def formatLayoutInt (spec : FormatSpec) (number : Number) : List (BitVec 8) :=
  if number.value = 0#64 ∧ spec.base = .basePtr then nullptrText
  else if number.value = 0#64 then [ascii '0']
  else layoutDigits spec.base.layout.1 spec.base.layout.2 numMaxDigits number.value []

def formatNumberSign (spec : FormatSpec) (number : Number) (n : Word) : Output :=
  if number.negative then .write n [ascii '-'] .start
  else if spec.printPlus then .write n [ascii '+'] .start
  else if spec.leaveSpace then .write n [ascii ' '] .start
  else .start

def formatNumberAlternateForm (spec : FormatSpec) (n : Word) : Output :=
  if spec.alternateForm then
    match spec.base with
    | .base2 => .write n [ascii '0', ascii 'b'] .start
    | .base8 => .write n [ascii '0'] .start
    | .base10 => .start
    | .base16Caps => .write n [ascii '0', ascii 'X'] .start
    | .base16 | .basePtr => .write n [ascii '0', ascii 'x'] .start
  else .start

def isNullPointer (spec : FormatSpec) (number : Number) : Bool :=
  number.value = 0#64 ∧ spec.base = .basePtr

/-- The variable `pad_len` of `format_number`. -/
def numberPadLen (spec : FormatSpec) (number : Number) : Int :=
  let padLen := spec.paddingWidth.toInt - (formatLayoutInt spec number).length
  let padLen :=
    if number.negative || spec.printPlus || spec.leaveSpace then padLen - 1 else padLen
  if spec.alternateForm && !isNullPointer spec number then
    match spec.base with
    | .base2 => padLen - 2
    | .base8 => padLen - 1
    | .base10 => padLen
    | .base16Caps | .base16 | .basePtr => padLen - 2
  else padLen

def formatNumber (spec : FormatSpec) (number : Number) (n : Word) : Output :=
  let digits := formatLayoutInt spec number
  let padLen := numberPadLen spec number
  let nullPointer := isNullPointer spec number
  let signAndForm := fun (s : Output) =>
    (s.call n (formatNumberSign spec number)).call n (formatNumberAlternateForm spec)
  let s : Output := .start
  if spec.paddingWidth ≠ 0#16 ∧ spec.leftJustify then
    let s := if nullPointer then s else signAndForm s
    let s := s.write n digits
    s.call n (formatPad spec padLen)
  else if spec.paddingWidth ≠ 0#16 then
    let s := if spec.paddingChar = ascii '0' ∧ !nullPointer then signAndForm s else s
    let s := s.call n (formatPad spec padLen)
    let s := if spec.paddingChar ≠ ascii '0' ∧ !nullPointer then signAndForm s else s
    s.write n digits
  else
    let s := if nullPointer then s else signAndForm s
    s.write n digits

/-! ## Strings -/

def nullText : List (BitVec 8) := ['(', 'n', 'u', 'l', 'l', ')'].map ascii

/-- A string argument: the characters in front of its terminator. -/
structure CString where
  chars : List (BitVec 8)
  no_nul : 0#8 ∉ chars
  short : chars.length < 2 ^ 64

/-- The characters that `format_string` prints of a string, and `pad_len`. -/
def stringParts (spec : FormatSpec) (s : List (BitVec 8)) : List (BitVec 8) × BitVec 32 :=
  let len := BitVec.ofNat 64 s.length
  let precision := spec.precision.signExtend 64
  let len := if 0 ≤ spec.precision.toInt then (if len < precision then len else precision) else len
  let intLen := len.truncate 32
  (s.take len.toNat, if spec.paddingWidth.toInt > intLen.toInt then
    spec.paddingWidth.signExtend 32 - intLen else 0#32)

def formatString (spec : FormatSpec) (s : List (BitVec 8)) (n : Word) : Output :=
  let (text, padLen) := stringParts spec s
  if spec.paddingWidth ≠ 0#16 ∧ !spec.leftJustify then
    let s := Written.call n (formatPad spec padLen.toInt) .start
    s.write n text
  else if spec.paddingWidth ≠ 0#16 then
    let s := Written.write n text .start
    s.call n (formatPad spec padLen.toInt)
  else .write n text .start

/-! ## The format -/

/-- The cases of `consume_next` that go on to the next character. -/
def parseFlag (args : Nat → Word) (c : BitVec 8) (spec : FormatSpec) (arg : Nat) :
    Option (FormatSpec × Nat) :=
  if c = ascii '-' then some ({ spec with leftJustify := true }, arg)
  else if c = ascii '+' then some ({ spec with printPlus := true }, arg)
  else if c = ascii ' ' then some ({ spec with leaveSpace := true }, arg)
  else if c = ascii '#' then some ({ spec with alternateForm := true }, arg)
  else if c = ascii '0' then
    if 0 ≤ spec.precision.toInt then some ({ spec with precision := spec.precision * 10#16 }, arg)
    else if spec.paddingWidth ≠ 0#16 then
      some ({ spec with paddingWidth := spec.paddingWidth * 10#16 }, arg)
    else some ({ spec with paddingChar := ascii '0' }, arg)
  else if ascii '1' ≤ c ∧ c ≤ ascii '9' then
    let digit := (c - ascii '0').zeroExtend 16
    if 0 ≤ spec.precision.toInt then
      some ({ spec with precision := spec.precision * 10#16 + digit }, arg)
    else some ({ spec with paddingWidth := spec.paddingWidth * 10#16 + digit }, arg)
  else if c = ascii '*' then
    let value := (args arg).truncate 16
    if 0 ≤ spec.precision.toInt then some ({ spec with precision := value }, arg + 1)
    else if value.toInt < 0 then
      some ({ spec with leftJustify := true, paddingWidth := -value, paddingChar := ascii ' ' },
        arg + 1)
    else some ({ spec with paddingWidth := value, paddingChar := ascii ' ' }, arg + 1)
  else if c = ascii '.' then some ({ spec with precision := 0#16 }, arg)
  else if c = ascii 'l' then some ({ spec with intWidth := spec.intWidth + 1#8 }, arg)
  else if c = ascii 'h' then some ({ spec with intWidth := spec.intWidth - 1#8 }, arg)
  else if c = ascii 'j' ∨ c = ascii 'z' ∨ c = ascii 't' then
    some ({ spec with intWidth := 2#8 }, arg)
  else none

/-- From the character behind the `%`: the specification, the index of the next argument and
the rest of the format where the switch leaves; it is empty at the terminator. -/
def consumeNext (args : Nat → Word) :
    List (BitVec 8) → FormatSpec → Nat → FormatSpec × Nat × List (BitVec 8)
  | [], spec, arg => (spec, arg, [])
  | c :: fmt, spec, arg =>
    match parseFlag args c spec arg with
    | some (spec, arg) => consumeNext args fmt spec arg
    | none => (spec, arg, c :: fmt)

/-- The state of `vfnprintf`: its output, the index of the next argument, what `%n` has
stored, and the conversions that were reported as invalid. -/
structure State where
  written : Output := .start
  arg : Nat := 0
  stores : List (Word × BitVec 32) := []
  invalid : List (BitVec 8) := []

def State.write (n : Word) (data : List (BitVec 8)) (s : State) : State :=
  { s with written := s.written.write n data }

section

variable (string : Word → CString) (args : Nat → Word) (n : Word)

def printNumber (spec : FormatSpec) (signed : Bool) (s : State) : State :=
  let (number, arg) := getNumber args spec signed s.arg
  { s with written := s.written.call n (formatNumber spec number), arg }

/-- The cases of the switch that leave it. -/
def convert (c : BitVec 8) (spec : FormatSpec) (s : State) : State :=
  if c = 0#8 ∨ c = ascii '%' then s.write n [ascii '%']
  else if c = ascii 'n' then
    { s with
      stores := s.stores ++ [(args s.arg, s.written.count.truncate 32)]
      arg := s.arg + 1 }
  else if c = ascii 'c' then { s.write n [(args s.arg).truncate 8] with arg := s.arg + 1 }
  else if c = ascii 's' then
    let text := if args s.arg = 0#64 then nullText else (string (args s.arg)).chars
    { s with written := s.written.call n (formatString spec text), arg := s.arg + 1 }
  else if c = ascii 'd' ∨ c = ascii 'i' then printNumber args n spec true s
  else if c = ascii 'u' then printNumber args n spec false s
  else if c = ascii 'x' then printNumber args n { spec with base := .base16 } false s
  else if c = ascii 'X' then printNumber args n { spec with base := .base16Caps } false s
  else if c = ascii 'o' then printNumber args n { spec with base := .base8 } false s
  else if c = ascii 'b' then printNumber args n { spec with base := .base2 } false s
  else if c = ascii 'p' then
    printNumber args n { spec with base := .basePtr, alternateForm := true, intWidth := 2#8 } false s
  else { s with invalid := s.invalid ++ [c] }

def strchr : List (BitVec 8) → BitVec 8 → Option (List (BitVec 8))
  | [], _ => none
  | a :: s, c => if a = c then some (a :: s) else strchr s c

/-- `fmt++`, with a fault for the read behind the terminator that follows. -/
def nextChar : List (BitVec 8) → Result (List (BitVec 8))
  | [] => .error .fault
  | _ :: fmt => .ok fmt

/-- The loop of `vfnprintf`. `fmt` is the rest of the format in front of its terminator. -/
def formatLoop : Nat → List (BitVec 8) → State → Result State
  | 0, _, _ => .error .outOfFuel
  | fuel + 1, fmt, s =>
    if fmt.headD 0#8 = 0#8 then .ok s
    else
      match strchr fmt (ascii '%') with
      | none => .ok (s.write n fmt)
      | some p => do
        let s := s.write n (fmt.take (fmt.length - p.length))
        let (spec, arg, conversion) := consumeNext args p.tail {} s.arg
        let s := convert string args n (conversion.headD 0#8) spec { s with arg }
        let fmt ← nextChar conversion
        formatLoop fuel fmt s

/-- The value returned, the output with its final terminator, and the other effects. -/
structure Printed where
  result : BitVec 32
  out : List (BitVec 8)
  stores : List (Word × BitVec 32)
  invalid : List (BitVec 8)
  deriving DecidableEq, Repr

def vfnprintf (fuel : Nat) (n : Word) (format : List (BitVec 8)) : Result Printed := do
  let s ← formatLoop string args (n - 1#64) fuel format {}
  .ok
    { result := s.written.count.truncate 32
      out := s.written.out ++ [0#8]
      stores := s.stores
      invalid := s.invalid }

end

end Tern.Print
