import Mathlib.Tactic.Common
import Mathlib.Data.Nat.Digits.Lemmas
import Mathlib.Tactic.IntervalCases

/-! The formatter of `lib/stdio.c`.  A format is the memory at the format pointer,
read byte by byte, so that nothing stops a conversion from looking past the
terminator; what is written to the output function is a list of characters.  The
walks over the format have fuel; an argument of the wrong kind is `none`. -/

namespace Pintos.Stdio

inductive ArgType where
  | char
  | short
  | int
  | intmax
  | long
  | longlong
  | ptrdifft
  | sizet
  deriving DecidableEq

structure Conversion where
  minus : Bool := false
  plus : Bool := false
  space : Bool := false
  pound : Bool := false
  zero : Bool := false
  group : Bool := false
  width : BitVec 32 := 0
  precision : BitVec 32 := -1
  type : ArgType := .int
  deriving DecidableEq

/-- A variadic argument: a word, a doubleword or a pointer to a string. -/
inductive Arg where
  | word (value : BitVec 32)
  | wide (value : BitVec 64)
  | string (characters : Option (List UInt8))
  deriving DecidableEq

structure IntegerBase where
  base : Nat
  digits : List UInt8
  x : UInt8
  group : Nat

def bytes (characters : List Char) : List UInt8 :=
  characters.map fun c => UInt8.ofNat c.toNat

def baseD : IntegerBase :=
  ⟨10, bytes ['0', '1', '2', '3', '4', '5', '6', '7', '8', '9'], 0, 3⟩

def baseO : IntegerBase :=
  ⟨8, bytes ['0', '1', '2', '3', '4', '5', '6', '7'], 0, 3⟩

def baseLowerX : IntegerBase :=
  ⟨16, bytes ['0', '1', '2', '3', '4', '5', '6', '7', '8', '9', 'a', 'b', 'c', 'd', 'e', 'f'],
    120, 4⟩

def baseUpperX : IntegerBase :=
  ⟨16, bytes ['0', '1', '2', '3', '4', '5', '6', '7', '8', '9', 'A', 'B', 'C', 'D', 'E', 'F'],
    88, 4⟩

/-- The memory at a string literal. -/
def literal (characters : List Char) : Nat → UInt8 :=
  fun i => (bytes characters).getD i 0

def isdigit (c : UInt8) : Bool :=
  48 ≤ c && c ≤ 57

def nextWord : List Arg → Option (BitVec 32 × List Arg)
  | .word value :: args => some (value, args)
  | _ => none

def nextWide : List Arg → Option (BitVec 64 × List Arg)
  | .wide value :: args => some (value, args)
  | _ => none

def nextString : List Arg → Option (Option (List UInt8) × List Arg)
  | .string characters :: args => some (characters, args)
  | _ => none

def parseFlags (format : Nat → UInt8) : Nat → Conversion → Nat → Option (Conversion × Nat)
  | 0, _, _ => none
  | fuel + 1, c, pos =>
    if format pos = 45 then parseFlags format fuel { c with minus := true } (pos + 1)
    else if format pos = 43 then parseFlags format fuel { c with plus := true } (pos + 1)
    else if format pos = 32 then parseFlags format fuel { c with space := true } (pos + 1)
    else if format pos = 35 then parseFlags format fuel { c with pound := true } (pos + 1)
    else if format pos = 48 then parseFlags format fuel { c with zero := true } (pos + 1)
    else if format pos = 39 then parseFlags format fuel { c with group := true } (pos + 1)
    else some (c, pos)

/-- The digits of a width or precision, as an `int`. -/
def parseNumber (format : Nat → UInt8) : Nat → BitVec 32 → Nat → Option (BitVec 32 × Nat)
  | 0, _, _ => none
  | fuel + 1, number, pos =>
    if isdigit (format pos) then
      parseNumber format fuel (number * 10 + BitVec.ofNat 32 (format pos).toNat - 48) (pos + 1)
    else some (number, pos)

def parseType (format : Nat → UInt8) (pos : Nat) : ArgType × Nat :=
  if format pos = 104 then
    if format (pos + 1) = 104 then (.char, pos + 2) else (.short, pos + 1)
  else if format pos = 106 then (.intmax, pos + 1)
  else if format pos = 108 then
    if format (pos + 1) = 108 then (.longlong, pos + 2) else (.long, pos + 1)
  else if format pos = 116 then (.ptrdifft, pos + 1)
  else if format pos = 122 then (.sizet, pos + 1)
  else (.int, pos)

def parseConversion (fuel : Nat) (format : Nat → UInt8) (pos : Nat) (args : List Arg) :
    Option (Conversion × Nat × List Arg) := do
  let (c, pos) ← parseFlags format fuel {} pos
  let c := { c with zero := c.zero && !c.minus, space := c.space && !c.plus }
  let (width, pos, args) ←
    if format pos = 42 then do
      let (width, args) ← nextWord args
      pure (width, pos + 1, args)
    else do
      let (width, pos) ← parseNumber format fuel 0 pos
      pure (width, pos, args)
  let c :=
    if width.slt 0 then { c with width := -width, minus := true } else { c with width := width }
  let (precision, pos, args) ←
    if format pos = 46 then do
      let (precision, pos, args) ←
        if format (pos + 1) = 42 then do
          let (precision, args) ← nextWord args
          pure (precision, pos + 2, args)
        else do
          let (precision, pos) ← parseNumber format fuel 0 (pos + 1)
          pure (precision, pos, args)
      pure (if precision.slt 0 then -1 else precision, pos, args)
    else pure (-1, pos, args)
  let c := { c with precision := precision, zero := c.zero && precision.slt 0 }
  let (type, pos) := parseType format pos
  return ({ c with type := type }, pos, args)

/-- The digits of `value`, the last one deepest, with the grouping commas. -/
def digitLoop (b : IntegerBase) (group : Bool) : Nat → Nat → Nat → List UInt8 → List UInt8
  | 0, _, _, buf => buf
  | fuel + 1, value, digitCnt, buf =>
    if value = 0 then buf
    else
      let buf := if group && 0 < digitCnt && digitCnt % b.group = 0 then 44 :: buf else buf
      digitLoop b group fuel (value / b.base) (digitCnt + 1)
        (b.digits.getD (value % b.base) 0 :: buf)

/-- Zeros up to the precision, as far as the buffer of 64 characters allows. -/
def padLoop (precision : Int) : Nat → List UInt8 → List UInt8
  | 0, buf => buf
  | fuel + 1, buf =>
    if (buf.length : Int) < precision ∧ buf.length < 63 then padLoop precision fuel (48 :: buf)
    else buf

/-- The characters of an integer conversion.  The buffer is a list whose head is the
character written last, which is the one put out first. -/
def formatInteger (value : BitVec 64) (isSigned negative : Bool) (b : IntegerBase)
    (c : Conversion) : List UInt8 :=
  let sign : UInt8 :=
    if isSigned then
      if c.plus then (if negative then 45 else 43)
      else if c.space then (if negative then 45 else 32)
      else if negative then 45 else 0
    else 0
  let x : UInt8 := if c.pound && value ≠ 0 then b.x else 0
  let buf := digitLoop b c.group 64 value.toNat 0 []
  let buf := padLoop (if c.precision.slt 0 then 1 else c.precision.toInt) 64 buf
  let buf := if c.pound && b.base = 8 && buf.head? ≠ some 48 then 48 :: buf else buf
  let padCnt :=
    (c.width.toInt - buf.length - (if x ≠ 0 then 2 else 0) - (if sign ≠ 0 then 1 else 0)).toNat
  (if !c.minus && !c.zero then List.replicate padCnt 32 else []) ++
    (if sign ≠ 0 then [sign] else []) ++
    (if x ≠ 0 then [48, x] else []) ++
    (if c.zero then List.replicate padCnt 48 else []) ++
    buf ++
    (if c.minus then List.replicate padCnt 32 else [])

def formatString (characters : List UInt8) (c : Conversion) : List UInt8 :=
  let padCnt := (c.width.toInt - characters.length).toNat
  (if c.minus then [] else List.replicate padCnt 32) ++ characters ++
    (if c.minus then List.replicate padCnt 32 else [])

def signedArg (type : ArgType) (args : List Arg) : Option (BitVec 64 × List Arg) :=
  match type with
  | .char => (nextWord args).map fun (v, args) => ((v.setWidth 8).signExtend 64, args)
  | .short => (nextWord args).map fun (v, args) => ((v.setWidth 16).signExtend 64, args)
  | .int => (nextWord args).map fun (v, args) => (v.signExtend 64, args)
  | .intmax => nextWide args
  | .long => (nextWord args).map fun (v, args) => (v.signExtend 64, args)
  | .longlong => nextWide args
  | .ptrdifft => (nextWord args).map fun (v, args) => (v.signExtend 64, args)
  | .sizet => (nextWord args).map fun (v, args) =>
      let value := v.setWidth 64
      (if value > 0xffffffff / 2 then value - 0xffffffff - 1 else value, args)

def unsignedArg (type : ArgType) (args : List Arg) : Option (BitVec 64 × List Arg) :=
  match type with
  | .char => (nextWord args).map fun (v, args) => ((v.setWidth 8).setWidth 64, args)
  | .short => (nextWord args).map fun (v, args) => ((v.setWidth 16).setWidth 64, args)
  | .int => (nextWord args).map fun (v, args) => (v.setWidth 64, args)
  | .intmax => nextWide args
  | .long => (nextWord args).map fun (v, args) => (v.setWidth 64, args)
  | .longlong => nextWide args
  | .ptrdifft => (nextWord args).map fun (v, args) => (v.signExtend 64 &&& 0xffffffff, args)
  | .sizet => (nextWord args).map fun (v, args) => (v.setWidth 64, args)

def unsupportedText : List Char :=
  ['<', '<', 'n', 'o', ' ', '%', '%', '%', 'c', ' ', 'i', 'n', ' ', 'k', 'e', 'r', 'n', 'e', 'l',
    '>', '>']

def unknownText : List Char :=
  ['<', '<', 'n', 'o', ' ', '%', '%', '%', 'c', ' ', 'c', 'o', 'n', 'v', 'e', 'r', 's', 'i', 'o',
    'n', '>', '>']

def nullText : List UInt8 :=
  bytes ['(', 'n', 'u', 'l', 'l', ')']

/-- `strnlen` of a string whose characters are all before its terminator. -/
def strnlen (characters : List UInt8) (maxlen : BitVec 32) : Nat :=
  min characters.length maxlen.toNat

/-- `__vprintf`: the characters put out, from `format + pos` on. -/
def vprintf : Nat → (Nat → UInt8) → Nat → List Arg → Option (List UInt8)
  | 0, _, _, _ => none
  | fuel + 1, format, pos, args =>
    if format pos = 0 then some []
    else if format pos ≠ 37 then
      (vprintf fuel format (pos + 1) args).map (format pos :: ·)
    else if format (pos + 1) = 37 then
      (vprintf fuel format (pos + 2) args).map (37 :: ·)
    else do
      let (c, pos, args) ← parseConversion fuel format (pos + 1) args
      let (out, args) ←
        if format pos = 100 ∨ format pos = 105 then do
          let (value, args) ← signedArg c.type args
          pure (formatInteger (if value.slt 0 then -value else value) true (value.slt 0) baseD c,
            args)
        else if format pos = 111 then do
          let (value, args) ← unsignedArg c.type args
          pure (formatInteger value false false baseO c, args)
        else if format pos = 117 then do
          let (value, args) ← unsignedArg c.type args
          pure (formatInteger value false false baseD c, args)
        else if format pos = 120 then do
          let (value, args) ← unsignedArg c.type args
          pure (formatInteger value false false baseLowerX c, args)
        else if format pos = 88 then do
          let (value, args) ← unsignedArg c.type args
          pure (formatInteger value false false baseUpperX c, args)
        else if format pos = 99 then do
          let (value, args) ← nextWord args
          pure (formatString [UInt8.ofBitVec (value.setWidth 8)] c, args)
        else if format pos = 115 then do
          let (characters, args) ← nextString args
          let characters := characters.getD nullText
          pure (formatString (characters.take (strnlen characters c.precision)) c, args)
        else if format pos = 112 then do
          let (value, args) ← nextWord args
          let c := { ({} : Conversion) with
            pound := true, width := c.width, precision := c.precision, type := c.type }
          pure (formatInteger (value.setWidth 64) false false baseLowerX c, args)
        else do
          let letter := Arg.word (BitVec.ofNat 32 (format pos).toNat)
          let text :=
            if format pos ∈ bytes ['f', 'e', 'E', 'g', 'G', 'n'] then unsupportedText
            else unknownText
          let out ← vprintf fuel (literal text) 0 [letter]
          pure (out, args)
      let rest ← vprintf fuel format (pos + 1) args
      return out ++ rest

/-- The bytes that `vsnprintf` stores in a buffer of `bufSize` bytes, and its result. -/
def vsnprintf (fuel bufSize : Nat) (format : Nat → UInt8) (args : List Arg) :
    Option (List UInt8 × Nat) :=
  (vprintf fuel format 0 args).map fun out =>
    (if 0 < bufSize then out.take (bufSize - 1) ++ [0] else [], out.length)

theorem digitLoop_eq {b : IntegerBase} (atLeast : 2 ≤ b.base) {fuel value : Nat}
    (enough : value < b.base ^ fuel) (digitCnt : Nat) (buf : List UInt8) :
    digitLoop b false fuel value digitCnt buf =
      ((Nat.digits b.base value).reverse.map fun d => b.digits.getD d 0) ++ buf := by
  induction fuel generalizing value digitCnt buf with
  | zero =>
    have zero : value = 0 := by simpa using enough
    simp [digitLoop, zero]
  | succ fuel ih =>
    by_cases zero : value = 0
    · simp [digitLoop, zero]
    have shorter : value / b.base < b.base ^ fuel := by
      apply Nat.div_lt_of_lt_mul
      rwa [← Nat.pow_succ']
    rw [digitLoop, if_neg zero, Bool.false_and, Bool.false_and, if_neg Bool.false_ne_true,
      ih shorter, Nat.digits_def' atLeast (Nat.pos_of_ne_zero zero)]
    simp

/-- The octal digits of `value`, with zeros in front up to `width` characters. -/
def octalText (width value : Nat) : List UInt8 :=
  List.replicate (width - (Nat.digits 8 value).length) 48 ++
    (Nat.digits 8 value).reverse.map fun d => UInt8.ofNat (48 + d)

theorem octalText_length {width value : Nat} (fits : value < 8 ^ width) :
    (octalText width value).length = width := by
  have short := (Nat.digits_length_le_iff (by omega) value).mpr fits
  simp [octalText]
  omega

theorem octalText_digit {width value : Nat} {c : UInt8} (member : c ∈ octalText width value) :
    48 ≤ c ∧ c ≤ 55 := by
  rcases List.mem_append.mp member with zero | digit
  · rw [List.eq_of_mem_replicate zero]
    decide
  · obtain ⟨d, inside, rfl⟩ := List.mem_map.mp digit
    have below : d < 8 := Nat.digits_lt_base (by omega) (List.mem_reverse.mp inside)
    interval_cases d <;> decide

theorem formatInteger_octal (value : BitVec 64) {width : Nat} (positive : 0 < width)
    (word : width < 2 ^ 31) (fits : value.toNat < 8 ^ width) :
    formatInteger value false false baseO { zero := true, width := BitVec.ofNat 32 width } =
      octalText width value.toNat := by
  have short := (Nat.digits_length_le_iff (by omega) value.toNat).mpr fits
  have digits : digitLoop baseO false 64 value.toNat 0 [] =
      (Nat.digits 8 value.toNat).reverse.map fun d => UInt8.ofNat (48 + d) := by
    have room : value.toNat < baseO.base ^ 64 :=
      value.isLt.trans_le (Nat.pow_le_pow_left (by decide) 64)
    rw [digitLoop_eq (by decide) room, List.append_nil]
    apply List.map_congr_left
    intro d inside
    have below : d < 8 := Nat.digits_lt_base (by omega) (List.mem_reverse.mp inside)
    interval_cases d <;> rfl
  have number : (BitVec.ofNat 32 width).toInt = width := by
    have small : (BitVec.ofNat 32 width).toNat = width := by
      rw [BitVec.toNat_ofNat]
      omega
    rw [BitVec.toInt_eq_toNat_of_lt (by omega), small]
  have padded : padLoop 1 64 (digitLoop baseO false 64 value.toNat 0 []) =
      octalText (max 1 (Nat.digits 8 value.toNat).length) value.toNat := by
    rw [digits]
    by_cases zero : value.toNat = 0
    · simp [zero, padLoop, octalText]
    have some : 1 ≤ (Nat.digits 8 value.toNat).length :=
      List.length_pos_iff.mpr (Nat.digits_ne_nil_iff_ne_zero.mpr zero)
    have full : ¬ (((Nat.digits 8 value.toNat).reverse.map fun d => UInt8.ofNat (48 + d)).length
        : Int) < 1 := by
      rw [List.length_map, List.length_reverse]
      omega
    rw [padLoop, if_neg (fun less => full less.1), octalText, max_eq_right some]
    simp
  have more : (octalText (max 1 (Nat.digits 8 value.toNat).length) value.toNat).length =
      max 1 (Nat.digits 8 value.toNat).length :=
    octalText_length ((Nat.digits_length_le_iff (by omega) _).mp (le_max_right _ _))
  have split : List.replicate (width - max 1 (Nat.digits 8 value.toNat).length) 48 ++
      octalText (max 1 (Nat.digits 8 value.toNat).length) value.toNat =
        octalText width value.toNat := by
    rw [octalText, octalText, ← List.append_assoc, List.replicate_append_replicate]
    congr 2
    omega
  have missing : ((width : Int) - max 1 ((Nat.digits 8 value.toNat).length : Int)).toNat =
      width - max 1 (Nat.digits 8 value.toNat).length := by
    omega
  simpa [formatInteger, padded, number, more, missing] using split

example : vprintf 40 (literal ['%', '0', '7', 'o', '%', '%', '%', 's']) 0
    [.word 420, .string (some (bytes ['a', 'b']))] =
      some (bytes ['0', '0', '0', '0', '6', '4', '4', '%', 'a', 'b']) := by decide

end Pintos.Stdio
