import Pintos.Stdio

/-! The formats that `__vprintf` takes: characters, `%%` and conversions that are complete. What
it puts out for one is a function of these pieces and of the arguments. -/

namespace Pintos.Printf

open Stdio
open List (length_cons)
open Option (bind_some map_some)

variable {f : Nat → UInt8} {pos fuel : Nat} {args : List Arg}

/-- The memory from `pos` on begins with the characters. -/
def At (f : Nat → UInt8) : Nat → List UInt8 → Prop
  | _, [] => True
  | pos, c :: l => f pos = c ∧ At f (pos + 1) l

theorem at_append {l r : List UInt8} :
    At f pos (l ++ r) ↔ At f pos l ∧ At f (pos + l.length) r := by
  induction l generalizing pos with
  | nil => simp [At]
  | cons c l ih => simp [At, ih, and_assoc, Nat.add_assoc, Nat.add_comm 1]

inductive Flag where
  | minus
  | plus
  | space
  | pound
  | zero
  | group
  deriving DecidableEq

def Flag.char : Flag → UInt8
  | minus => 45
  | plus => 43
  | space => 32
  | pound => 35
  | zero => 48
  | group => 39

def Flag.set (c : Conversion) : Flag → Conversion
  | minus => { c with minus := true }
  | plus => { c with plus := true }
  | space => { c with space := true }
  | pound => { c with pound := true }
  | zero => { c with zero := true }
  | group => { c with group := true }

/-- A field width or a precision, as it is given. -/
inductive Field where
  | digits (ds : List UInt8)
  | star

def Field.text : Field → List UInt8
  | digits ds => ds
  | star => [42]

def number (ds : List UInt8) : BitVec 32 :=
  ds.foldl (fun n d => n * 10 + BitVec.ofNat 32 d.toNat - 48) 0

def Field.read (args : List Arg) : Field → Option (BitVec 32 × List Arg)
  | digits ds => some (number ds, args)
  | star => nextWord args

/-- The field ends before `rest`. -/
def Field.Ends (rest : List UInt8) : Field → Prop
  | digits ds => (∀ d ∈ ds, isdigit d = true) ∧ (∀ c ∈ rest.head?, isdigit c = false) ∧
      (ds ++ rest).head? ≠ some 42
  | star => True

def typeText : ArgType → List UInt8
  | .char => [104, 104]
  | .short => [104]
  | .int => []
  | .intmax => [106]
  | .long => [108]
  | .longlong => [108, 108]
  | .ptrdifft => [116]
  | .sizet => [122]

structure Spec where
  flags : List Flag
  width : Field
  precision : Option Field
  type : ArgType
  letter : UInt8

namespace Spec

variable (s : Spec)

def afterPrecision : List UInt8 := typeText s.type ++ [s.letter]

def afterWidth : List UInt8 :=
  match s.precision with
  | none => s.afterPrecision
  | some p => 46 :: (p.text ++ s.afterPrecision)

def afterFlags : List UInt8 := s.width.text ++ s.afterWidth

/-- What stands after the percent sign. -/
def text : List UInt8 := s.flags.map Flag.char ++ s.afterFlags

/-- There is a conversion character, and each part ends where the next begins. -/
structure Complete : Prop where
  letter : s.letter ≠ 0
  percent : s.text.head? ≠ some 37
  flags : ∀ g : Flag, s.afterFlags.head? ≠ some g.char
  width : s.width.Ends s.afterWidth
  dot : s.precision = none → s.afterPrecision.head? ≠ some 46
  precision : ∀ p ∈ s.precision, p.Ends s.afterPrecision
  type : match s.type with
    | .int => s.letter ∉ [104, 106, 108, 116, 122]
    | .short => s.letter ≠ 104
    | .long => s.letter ≠ 108
    | _ => True

def readPrecision (args : List Arg) : Option (BitVec 32 × List Arg) :=
  match s.precision with
  | none => some (-1, args)
  | some p => (p.read args).map fun r => (if r.1.slt 0 then -1 else r.1, r.2)

/-- What `parse_conversion` makes of it. -/
def conversion (args : List Arg) : Option (Conversion × List Arg) :=
  let c := s.flags.foldl Flag.set {}
  (s.width.read args).bind fun w => (s.readPrecision w.2).map fun p =>
    ({ c with
        minus := w.1.slt 0 || c.minus
        space := c.space && !c.plus
        zero := c.zero && !c.minus && p.1.slt 0
        width := if w.1.slt 0 then -w.1 else w.1
        precision := p.1
        type := s.type }, p.2)

end Spec

section Parse

variable {c : UInt8} {rest : List UInt8}

theorem parseFlags_text (fuel : Nat) (cv : Conversion) (gs : List Flag)
    (here : At f pos (gs.map Flag.char ++ c :: rest)) (stop : ∀ g : Flag, c ≠ g.char)
    (enough : gs.length < fuel) :
    parseFlags f fuel cv pos = some (gs.foldl Flag.set cv, pos + gs.length) := by
  induction gs generalizing pos fuel cv with
  | nil =>
    obtain _ | fuel := fuel
    · omega
    rw [parseFlags, here.1]
    exact (if_neg (stop .minus)).trans ((if_neg (stop .plus)).trans ((if_neg (stop .space)).trans
      ((if_neg (stop .pound)).trans ((if_neg (stop .zero)).trans (if_neg (stop .group))))))
  | cons g gs ih =>
    obtain _ | fuel := fuel
    · omega
    obtain ⟨first, later⟩ := here
    rw [List.foldl_cons, length_cons, Nat.add_comm gs.length, ← Nat.add_assoc,
      ← ih _ _ later (Nat.lt_of_succ_lt_succ enough)]
    cases g <;> simp [parseFlags, first, Flag.char, Flag.set]

theorem parseNumber_text (ds : List UInt8) {n : BitVec 32}
    (here : At f pos (ds ++ c :: rest)) (all : ∀ d ∈ ds, isdigit d = true)
    (stop : isdigit c = false) (enough : ds.length < fuel) :
    parseNumber f fuel n pos = some
      (ds.foldl (fun n d => n * 10 + BitVec.ofNat 32 d.toNat - 48) n, pos + ds.length) := by
  induction ds generalizing pos fuel n with
  | nil =>
    obtain _ | fuel := fuel
    · omega
    rw [parseNumber, here.1, stop]
    rfl
  | cons d ds ih =>
    obtain _ | fuel := fuel
    · omega
    obtain ⟨first, later⟩ := here
    obtain ⟨digit, all⟩ := List.forall_mem_cons.mp all
    rw [List.foldl_cons, length_cons, Nat.add_comm ds.length, ← Nat.add_assoc,
      ← ih later all (Nat.lt_of_succ_lt_succ enough), parseNumber, first, if_pos digit]

theorem field_text (fuel : Nat) (p : Field) (here : At f pos (p.text ++ c :: rest))
    (stop : p.Ends (c :: rest)) (enough : p.text.length < fuel) :
    p = .star ∧ f pos = 42 ∨ ∃ ds, p = .digits ds ∧ f pos ≠ 42 ∧
      parseNumber f fuel 0 pos = some (number ds, pos + ds.length) := by
  cases p with
  | star => exact .inl ⟨rfl, here.1⟩
  | digits ds =>
    obtain ⟨all, next, other⟩ := stop
    refine .inr ⟨ds, rfl, fun same => other ?_, parseNumber_text ds here all (next c rfl) enough⟩
    cases ds <;> exact congrArg some (here.1.symm.trans same)

variable {s : Spec}

theorem parseType_text (whole : s.Complete) (here : At f pos s.afterPrecision) :
    parseType f pos = (s.type, pos + (typeText s.type).length) := by
  obtain ⟨flags, width, precision, type, letter⟩ := s
  have ends := whole.type
  cases type <;> simp_all [At, Spec.afterPrecision, typeText, parseType]

theorem afterPrecision_cons (s : Spec) : ∃ c r, s.afterPrecision = c :: r :=
  List.exists_cons_of_ne_nil (by simp [Spec.afterPrecision])

theorem afterWidth_cons (s : Spec) : ∃ c r, s.afterWidth = c :: r := by
  rw [Spec.afterWidth]
  split
  · exact afterPrecision_cons s
  · exact ⟨_, _, rfl⟩

theorem text_last (s : Spec) : ∃ front, s.text = front ++ [s.letter] := by
  rw [Spec.text, Spec.afterFlags, Spec.afterWidth, Spec.afterPrecision]
  cases s.precision with
  | none => exact ⟨s.flags.map Flag.char ++ (s.width.text ++ typeText s.type), by simp⟩
  | some p =>
    exact ⟨s.flags.map Flag.char ++ (s.width.text ++ 46 :: (p.text ++ typeText s.type)), by simp⟩

theorem precision_text (fuel : Nat) (whole : s.Complete) (here : At f pos s.afterWidth)
    (enough : s.afterWidth.length < fuel) :
    (s.precision = none ∧ f pos ≠ 46 ∧
      parseType f pos = (s.type, pos + (s.afterWidth.length - 1))) ∨
    (s.precision = some .star ∧ f pos = 46 ∧ f (pos + 1) = 42 ∧
      parseType f (pos + 2) = (s.type, pos + (s.afterWidth.length - 1))) ∨
    ∃ ds, s.precision = some (.digits ds) ∧ f pos = 46 ∧ f (pos + 1) ≠ 42 ∧
      parseNumber f fuel 0 (pos + 1) = some (number ds, pos + 1 + ds.length) ∧
      parseType f (pos + 1 + ds.length) = (s.type, pos + (s.afterWidth.length - 1)) := by
  obtain ⟨c, r, last⟩ := afterPrecision_cons s
  have length : s.afterPrecision.length = (typeText s.type).length + 1 := by
    simp [Spec.afterPrecision]
  rw [Spec.afterWidth] at *
  cases given : s.precision with
  | none =>
    rw [given] at here
    refine .inl ⟨rfl, fun same => whole.dot given ?_, ?_⟩
    · rw [last] at here ⊢
      exact congrArg some (here.1.symm.trans same)
    · rw [parseType_text whole here, length]
      rfl
  | some p =>
    rw [given] at here enough
    simp only [length_cons, List.length_append] at enough ⊢
    have type := parseType_text whole (at_append.mp here.2).2
    rcases field_text fuel p (by rw [← last]; exact here.2) (last ▸ whole.precision p given)
      (by omega) with ⟨rfl, star⟩ | ⟨ds, rfl, star, value⟩ <;> rw [length]
    · exact .inr (.inl ⟨rfl, here.1, star, type.trans (by simp [Field.text]; omega)⟩)
    · exact .inr (.inr ⟨ds, rfl, here.1, star, value, type.trans (by simp [Field.text]; omega)⟩)

theorem parseConversion_text (fuel : Nat) (args : List Arg) (whole : s.Complete)
    (here : At f pos s.text) (enough : s.text.length < fuel) : parseConversion fuel f pos args =
      (s.conversion args).map fun r => (r.1, pos + (s.text.length - 1), r.2) := by
  obtain ⟨c1, r1, middle⟩ := afterWidth_cons s
  obtain ⟨c0, r0, first⟩ : ∃ c r, s.afterFlags = c :: r :=
    List.exists_cons_of_ne_nil (by simp [Spec.afterFlags, middle])
  have length : s.text.length = s.flags.length + (s.width.text.length + s.afterWidth.length) := by
    simp [Spec.text, Spec.afterFlags]
  have some : s.afterWidth.length ≠ 0 := by simp [middle]
  have flags := parseFlags_text fuel {} s.flags (by rwa [Spec.text, first] at here)
    (fun g same => whole.flags g (by rw [first, same]; rfl)) (by omega)
  obtain ⟨-, here⟩ := at_append.mp here
  rw [List.length_map] at here
  have width := field_text fuel s.width (by rwa [Spec.afterFlags, middle] at here)
    (middle ▸ whole.width) (by omega)
  have precision := precision_text fuel whole (at_append.mp here).2 (by omega)
  have final : pos + s.flags.length + s.width.text.length + (s.afterWidth.length - 1) =
      pos + (s.text.length - 1) := by omega
  rw [final] at precision
  rw [parseConversion, flags]
  simp only [Option.bind_eq_bind, bind_some, Option.pure_def, Spec.conversion,
    Spec.readPrecision]
  rcases width with ⟨w, star⟩ | ⟨ds, w, star, value⟩ <;>
    rcases precision with ⟨p, dot, type⟩ | ⟨p, dot, next, type⟩ |
      ⟨ps, p, dot, next, digits, type⟩ <;>
    simp only [w, p, Field.text, List.length_singleton, Field.read] at *
  · rw [if_pos star]
    cases nextWord args with
    | none => rfl
    | some r =>
      simp only [bind_some, if_neg dot, type, map_some]
      cases r.1.slt 0 <;> rfl
  · rw [if_pos star]
    cases nextWord args with
    | none => rfl
    | some r =>
      simp only [bind_some, if_pos dot, if_pos next]
      cases nextWord r.2 with
      | none => rfl
      | some r' =>
        simp only [bind_some, type, map_some]
        cases r.1.slt 0 <;> rfl
  · rw [if_pos star]
    cases nextWord args with
    | none => rfl
    | some r =>
      simp only [bind_some, if_pos dot, if_neg next, digits, type, map_some]
      cases r.1.slt 0 <;> rfl
  · rw [if_neg star, value]
    simp only [bind_some, if_neg dot, type, map_some]
    cases (number ds).slt 0 <;> rfl
  · rw [if_neg star, value]
    simp only [bind_some, if_pos dot, if_pos next]
    cases nextWord args with
    | none => rfl
    | some r =>
      simp only [bind_some, type, map_some]
      cases (number ds).slt 0 <;> rfl
  · rw [if_neg star, value]
    simp only [bind_some, if_pos dot, if_neg next, digits, type, map_some]
    cases (number ds).slt 0 <;> rfl

end Parse

section Pieces

/-- A text that names a letter without a conversion. -/
def refusal (text : List Char) (letter : UInt8) : List UInt8 :=
  bytes (text.take 6) ++ [letter] ++ bytes (text.drop 9)

/-- The `switch` of `__vprintf`. -/
def convert (letter : UInt8) (c : Conversion) (args : List Arg) : Option (List UInt8 × List Arg) :=
  let integer := fun b => (unsignedArg c.type args).map fun r =>
    (formatInteger r.1 false false b c, r.2)
  if letter = 100 ∨ letter = 105 then (signedArg c.type args).map fun r =>
    (formatInteger (if r.1.slt 0 then -r.1 else r.1) true (r.1.slt 0) baseD c, r.2)
  else if letter = 111 then integer baseO
  else if letter = 117 then integer baseD
  else if letter = 120 then integer baseLowerX
  else if letter = 88 then integer baseUpperX
  else if letter = 99 then (nextWord args).map fun r =>
    (formatString [UInt8.ofBitVec (r.1.setWidth 8)] c, r.2)
  else if letter = 115 then (nextString args).map fun r =>
    (formatString ((r.1.getD nullText).take (strnlen (r.1.getD nullText) c.precision)) c, r.2)
  else if letter = 112 then (nextWord args).map fun r =>
    (formatInteger (r.1.setWidth 64) false false baseLowerX { ({} : Conversion) with
      pound := true, width := c.width, precision := c.precision, type := c.type }, r.2)
  else
    some (refusal (if letter ∈ bytes ['f', 'e', 'E', 'g', 'G', 'n'] then unsupportedText
      else unknownText) letter, args)

theorem vprintf_refusal (fuel : Nat) (letter : UInt8) (q : Prop) [Decidable q] :
    vprintf (fuel + 24) (literal (if q then unsupportedText else unknownText)) 0
        [.word (BitVec.ofNat 32 letter.toNat)] =
      some (refusal (if q then unsupportedText else unknownText) letter) := by
  have char : UInt8.ofBitVec ((BitVec.ofNat 32 letter.toNat).setWidth 8) = letter := by
    apply UInt8.toNat_inj.mp
    simp
  generalize BitVec.ofNat 32 letter.toNat = v at *
  subst char
  split <;> rfl

theorem vprintf_conversion {c : Conversion} {p : Nat} {rest : List Arg} (percent : f pos = 37)
    (other : f (pos + 1) ≠ 37)
    (parse : parseConversion (fuel + 24) f (pos + 1) args = some (c, p, rest)) :
    vprintf (fuel + 25) f pos args = (convert (f p) c rest).bind fun r =>
      (vprintf (fuel + 24) f (p + 1) r.2).map (r.1 ++ ·) := by
  have push : ∀ (q : Prop) [Decidable q] (x y : Option (List UInt8 × List Arg))
      (k : List UInt8 × List Arg → Option (List UInt8)),
      (if q then x else y).bind k = if q then x.bind k else y.bind k :=
    fun q _ x y k => apply_ite (Option.bind · k) q x y
  rw [vprintf, percent, if_neg (by decide), if_neg (by decide), if_neg other, parse]
  simp only [Option.bind_eq_bind, bind_some, Option.pure_def, convert, vprintf_refusal,
    Option.map_eq_bind, push, Option.bind_assoc, Function.comp_apply]

inductive Piece where
  | char (c : UInt8)
  | percent
  | conversion (s : Spec)

def Piece.text : Piece → List UInt8
  | char c => [c]
  | percent => [37, 37]
  | conversion s => 37 :: s.text

def Piece.Complete : Piece → Prop
  | char c => c ≠ 0 ∧ c ≠ 37
  | percent => True
  | conversion s => s.Complete

/-- The characters put out for a format, if the arguments are of the kinds it asks for. -/
def render : List Piece → List Arg → Option (List UInt8)
  | [], _ => some []
  | .char c :: ps, args => (render ps args).map (c :: ·)
  | .percent :: ps, args => (render ps args).map (37 :: ·)
  | .conversion s :: ps, args =>
    (s.conversion args).bind fun r => (convert s.letter r.1 r.2).bind fun r =>
      (render ps r.2).map (r.1 ++ ·)

theorem vprintf_render {ps : List Piece} (whole : ∀ p ∈ ps, p.Complete)
    (here : At f pos (ps.flatMap Piece.text ++ [0]))
    (enough : (ps.flatMap Piece.text).length + 25 ≤ fuel) :
    vprintf fuel f pos args = render ps args := by
  obtain ⟨fuel, rfl⟩ : ∃ k, fuel = k + 25 := ⟨fuel - 25, by omega⟩
  induction ps generalizing pos fuel args with
  | nil =>
    rw [vprintf, here.1, if_pos rfl]
    rfl
  | cons p ps ih =>
    obtain ⟨first, others⟩ := List.forall_mem_cons.mp whole
    rw [List.flatMap_cons, List.append_assoc] at here
    rw [List.flatMap_cons, List.length_append] at enough
    obtain ⟨here, later⟩ := at_append.mp here
    have next (pos : Nat) (args : List Arg) (later : At f pos (ps.flatMap Piece.text ++ [0])) :
        vprintf (fuel + 24) f pos args = render ps args := by
      obtain _ | fuel := fuel
      · cases p <;> simp [Piece.text] at enough
      refine ih others later fuel ?_
      cases p <;> simp only [Piece.text, length_cons] at enough <;> omega
    cases p with
    | char c =>
      rw [vprintf, here.1, if_neg first.1, if_pos first.2]
      exact congrArg _ (next _ args later)
    | percent =>
      rw [vprintf, here.1, if_neg (by decide), if_neg (by decide), if_pos here.2.1]
      exact congrArg _ (next _ args later)
    | conversion s =>
      simp only [Piece.text, length_cons] at enough later
      obtain ⟨percent, here⟩ := here
      obtain ⟨front, last⟩ := text_last s
      have parse := parseConversion_text (fuel + 24) args first here (by omega)
      have letter : f (pos + 1 + front.length) = s.letter := by
        rw [last] at here
        exact (at_append.mp here).2.1
      have start : f (pos + 1) ≠ 37 := by
        have other := first.percent
        cases shape : s.text with
        | nil => simp [last] at shape
        | cons c r =>
          rw [shape] at other here
          exact fun same => other (congrArg some (here.1.symm.trans same))
      have length : s.text.length = front.length + 1 := by simp [last]
      rw [length] at later parse
      have rest (args : List Arg) := next (pos + 1 + front.length + 1) args
        (by convert later using 1; omega)
      rw [Nat.add_sub_cancel] at parse
      rw [render]
      cases read : s.conversion args with
      | none =>
        rw [read] at parse
        rw [vprintf, percent, if_neg (by decide), if_neg (by decide), if_neg start, parse]
        rfl
      | some r =>
        rw [read] at parse
        rw [vprintf_conversion percent start parse, letter]
        simp only [rest]
        rfl

end Pieces

section Buffer

variable {value : BitVec 64} {b : IntegerBase} {c : Conversion}

/-- What `format_integer` has in its buffer when it begins to put out. -/
def buffer (value : BitVec 64) (b : IntegerBase) (c : Conversion) : List UInt8 :=
  let buf := padLoop (if c.precision.slt 0 then 1 else c.precision.toInt) 64
    (digitLoop b c.group 64 value.toNat 0 [])
  if c.pound && b.base = 8 && buf.head? ≠ some 48 then 48 :: buf else buf

def bases : List IntegerBase := [baseD, baseO, baseLowerX, baseUpperX]

theorem digitLoop_length {n : Nat} (group : Bool) (fuel k digits : Nat) (buf : List UInt8)
    (small : n < b.base ^ k) :
    (digitLoop b group fuel n digits buf).length ≤ 2 * k + buf.length := by
  induction fuel generalizing n k digits buf with
  | zero => exact Nat.le_add_left ..
  | succ fuel ih =>
    rw [digitLoop]
    by_cases zero : n = 0
    · rw [if_pos zero]
      exact Nat.le_add_left ..
    rw [if_neg zero]
    cases k with
    | zero => exact absurd (Nat.lt_one_iff.mp small) zero
    | succ k =>
      have shorter : n / b.base < b.base ^ k := Nat.div_lt_of_lt_mul (by rwa [← Nat.pow_succ'])
      refine (ih k _ _ shorter).trans ?_
      split_ifs <;> simp only [length_cons] <;> omega

theorem padLoop_length (p : Int) (fuel : Nat) {buf : List UInt8} (short : buf.length ≤ 63) :
    (padLoop p fuel buf).length ≤ 63 := by
  induction fuel generalizing buf with
  | zero => exact short
  | succ fuel ih =>
    rw [padLoop]
    split_ifs with more
    · exact ih (by rw [length_cons]; omega)
    · exact short

theorem buffer_length (member : b ∈ bases) : (buffer value b c).length ≤ 64 := by
  have small : value.toNat < b.base ^ 22 := by
    refine value.isLt.trans_le ?_
    simp only [bases, List.mem_cons, List.not_mem_nil, or_false] at member
    rcases member with rfl | rfl | rfl | rfl <;> decide
  have digits := digitLoop_length c.group 64 22 0 [] small
  have padded := padLoop_length (if c.precision.slt 0 then 1 else c.precision.toInt) 64
    (digits.trans (by decide))
  rw [buffer]
  generalize padLoop _ 64 _ = buf at *
  split_ifs
  · rw [length_cons]
    omega
  · omega

end Buffer

theorem digits_complete : ∀ ds ∈ [[], [53]], Spec.Complete ⟨[], .digits ds, none, .int, 100⟩ := by
  simp only [List.forall_mem_cons, List.not_mem_nil, false_implies, implies_true, and_true]
  constructor <;> exact ⟨by decide, by decide, fun g => by cases g <;> decide,
    ⟨by decide +kernel, by decide +kernel, by decide⟩, fun _ => by decide,
    fun p h => (by cases h), by decide⟩

/-- The format `%`, with an `a` after its terminator. -/
def percentThen : Nat → UInt8 := fun i => if i = 2 then 97 else literal ['%'] i

end Pintos.Printf
