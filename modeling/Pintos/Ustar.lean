import Pintos.Stdio
import Pintos.ByteStore
import Mathlib.Data.List.TakeWhile

/-! Archive headers of `lib/ustar.c`.  A header is 512 bytes at known offsets, its
numbers are octal text that `snprintf` writes, and the checksum is taken with its
own field read as spaces.  File names are the characters before their terminator. -/

namespace Pintos.Ustar
open ByteStore Stdio Function

inductive UstarType where
  | regular
  | directory
  | eof
  deriving DecidableEq

/-- The byte that stands for a type in a header. -/
def UstarType.flag : UstarType → UInt8
  | .regular => 48
  | .directory => 53
  | .eof => 255

/-- No string is longer than the address space. -/
def textLimit : Nat := 2 ^ 32

/-- Starts with "/", "./" or "../". -/
def antisocial (fileName : List UInt8) : Bool :=
  fileName.head? == some 47 || [46, 47].isPrefixOf fileName || [46, 46, 47].isPrefixOf fileName

/-- `strchr (file_name, '/') + 1`. -/
def afterSlash (fileName : List UInt8) : List UInt8 :=
  (fileName.dropWhile (· != 47)).drop 1

def stripLoop : Nat → List UInt8 → Option (List UInt8)
  | 0, _ => none
  | fuel + 1, fileName =>
    if antisocial fileName then stripLoop fuel (afterSlash fileName) else some fileName

def stripAntisocialPrefixes (fileName : List UInt8) : Option (List UInt8) :=
  (stripLoop (fileName.length + 1) fileName).map fun fileName =>
    if fileName = [] ∨ fileName = [46, 46] then [46] else fileName

def inChksumField (i : Nat) : Bool :=
  148 ≤ i && i < 156

def calculateChksum (h : Nat → UInt8) : BitVec 32 :=
  (List.range 512).foldl
    (fun chksum i => chksum + if inChksumField i then 32 else (h i).toBitVec.setWidth 32) 0

def strlcpy (src : List UInt8) (size : Nat) : List UInt8 :=
  if 0 < size then src.take (size - 1) ++ [0] else []

def snprintf (size : Nat) (format : List Char) (value : BitVec 32) : Option (List UInt8) :=
  (vsnprintf textLimit size (literal format) [.word value]).map Prod.fst

def ustarMakeHeader (fileName : List UInt8) (type : UstarType) (size : BitVec 32) :
    Option (Option (Nat → UInt8)) := do
  guard (type = .regular ∨ type = .directory)
  let fileName ← stripAntisocialPrefixes fileName
  if fileName.length > 99 then
    return none
  let h : Nat → UInt8 := fun _ => 0
  let h := splice h 0 (strlcpy fileName 100)
  let h := splice h 100 (← snprintf 8 ['%', '0', '7', 'o'] (if type = .regular then 420 else 493))
  let h := splice h 108 (strlcpy (bytes ['0', '0', '0', '0', '0', '0', '0']) 8)
  let h := splice h 116 (strlcpy (bytes ['0', '0', '0', '0', '0', '0', '0']) 8)
  let h := splice h 124 (← snprintf 12 ['%', '0', '1', '1', 'o'] size)
  let h := splice h 136 (← snprintf 12 ['%', '0', '1', '1', 'o'] 1136102400)
  let h := splice h 156 [type.flag]
  let h := splice h 257 (strlcpy (bytes ['u', 's', 't', 'a', 'r']) 6)
  let h := splice h 263 [48, 48]
  let h := splice h 297 (strlcpy (bytes ['r', 'o', 'o', 't']) 32)
  let h := splice h 265 (strlcpy (bytes ['r', 'o', 'o', 't']) 32)
  let h := splice h 148 (← snprintf 8 ['%', '0', '7', 'o'] (calculateChksum h))
  return some h

def octalLoop : List UInt8 → Nat → BitVec 32 → Option (BitVec 32)
  | [], _, _ => none
  | c :: rest, ofs, value =>
    if 48 ≤ c ∧ c ≤ 55 then
      if value > 0xffffffff / 8 then none
      else octalLoop rest (ofs + 1) ((c - 48).toBitVec.setWidth 32 + value * 8)
    else if c = 32 ∨ c = 0 then
      if 0 < ofs then some value else none
    else none

/-- The value of the field at `ofs`, if it is accepted. -/
def parseOctalField (h : Nat → UInt8) (ofs size : Nat) : Option (BitVec 32) :=
  octalLoop (slice h ofs size) 0 0

def isAllZeros (h : Nat → UInt8) (cnt : Nat) : Bool :=
  (slice h 0 cnt).all (· == 0)

structure Entry where
  fileName : Option (List UInt8)
  type : UstarType
  size : BitVec 32

/-- The entry or the error message. -/
def ustarParseHeader (h : Nat → UInt8) : Option (Except String Entry) :=
  if isAllZeros h 512 then some (.ok ⟨none, .eof, 0⟩)
  else if slice h 257 6 ≠ bytes ['u', 's', 't', 'a', 'r'] ++ [0] then
    some (.error "not a ustar archive")
  else if h 263 ≠ 48 ∨ h 264 ≠ 48 then some (.error "invalid ustar version")
  else
    match parseOctalField h 148 8 with
    | none => some (.error "corrupt chksum field")
    | some chksum =>
      if chksum ≠ calculateChksum h then some (.error "checksum mismatch")
      else if h 99 ≠ 0 ∨ h 345 ≠ 0 then some (.error "file name too long")
      else if h 156 ≠ UstarType.regular.flag ∧ h 156 ≠ UstarType.directory.flag then
        some (.error "unimplemented file type")
      else
        let fileName := (slice h 0 100).takeWhile (· != 0)
        if h 156 = UstarType.regular.flag then
          match parseOctalField h 124 12 with
          | none => some (.error "corrupt file size field")
          | some size =>
            if size > 0x7fffffff then some (.error "file too large")
            else (stripAntisocialPrefixes fileName).map fun name => .ok ⟨some name, .regular, size⟩
        else (stripAntisocialPrefixes fileName).map fun name => .ok ⟨some name, .directory, 0⟩

variable {s name : List UInt8} {h : Nat → UInt8}

theorem antisocial_slash (bad : antisocial s) : 47 ∈ s := by
  simp only [antisocial, Bool.or_eq_true, beq_iff_eq, List.isPrefixOf_iff_prefix] at bad
  rcases bad with (first | ⟨rest, rfl⟩) | ⟨rest, rfl⟩
  · exact List.mem_of_mem_head? first
  · simp
  · simp

theorem afterSlash_length (bad : antisocial s) : (afterSlash s).length < s.length := by
  have found : s.dropWhile (· != 47) ≠ [] := by
    intro none
    have all := List.dropWhile_eq_nil_iff.mp none 47 (antisocial_slash bad)
    simp at all
  have some := List.length_pos_iff.mpr found
  have most := (List.dropWhile_sublist (l := s) (· != 47)).length_le
  rw [afterSlash, List.length_drop]
  omega

theorem stripLoop_spec {fuel : Nat} (enough : s.length < fuel) : ∃ r, stripLoop fuel s = some r ∧
    antisocial r = false ∧ (∀ c ∈ r, c ∈ s) ∧ r.length ≤ s.length := by
  induction fuel generalizing s with
  | zero => omega
  | succ fuel ih =>
    cases bad : antisocial s with
    | false => exact ⟨s, by simp [stripLoop, bad], bad, fun _ member => member, le_rfl⟩
    | true =>
      have shorter := afterSlash_length bad
      obtain ⟨r, stripped, social, inside, most⟩ := ih (s := afterSlash s) (by omega)
      refine ⟨r, by simp [stripLoop, bad, stripped], social, fun c member => ?_, by omega⟩
      exact (List.dropWhile_sublist _).subset (List.mem_of_mem_drop (inside c member))

/-- A name that stripping leaves as it is. -/
structure Stripped (name : List UInt8) : Prop where
  nonempty : name ≠ []
  notParent : name ≠ [46, 46]
  social : antisocial name = false

theorem strip_spec (s : List UInt8) : ∃ r, stripAntisocialPrefixes s = some r ∧ Stripped r ∧
    (0 ∉ s → 0 ∉ r) ∧ r.length ≤ max 1 s.length := by
  obtain ⟨r, looped, social, inside, most⟩ := stripLoop_spec (Nat.lt_succ_self s.length)
  by_cases special : r = [] ∨ r = [46, 46]
  · refine ⟨[46], ?_, ⟨by simp, by simp, by decide⟩, by simp, le_max_left _ _⟩
    rw [stripAntisocialPrefixes, looped, Option.map_some, if_pos special]
  · rw [not_or] at special
    refine ⟨r, ?_, ⟨special.1, special.2, social⟩, fun clean member => clean (inside 0 member),
      le_max_of_le_right most⟩
    rw [stripAntisocialPrefixes, looped, Option.map_some, if_neg (by simp [special])]

theorem Stripped.fixed (stripped : Stripped name) : stripAntisocialPrefixes name = some name := by
  have other : ¬ (name = [] ∨ name = [46, 46]) := by
    simp [stripped.nonempty, stripped.notParent]
  rw [stripAntisocialPrefixes, stripLoop, stripped.social, if_neg Bool.false_ne_true,
    Option.map_some, if_neg other]

theorem snprintf_octal {format : List Char} {width : Nat} {value : BitVec 32}
    (parsed : vprintf textLimit (literal format) 0 [.word value] =
      some (formatInteger (value.setWidth 64) false false baseO
        { zero := true, width := BitVec.ofNat 32 width } ++ []))
    (positive : 0 < width) (word : width < 2 ^ 31) (fits : value.toNat < 8 ^ width) :
    snprintf (width + 1) format value = some (octalText width value.toNat ++ [0]) := by
  have wide : (value.setWidth 64).toNat = value.toNat := by
    have below := value.isLt
    rw [BitVec.toNat_setWidth]
    omega
  rw [formatInteger_octal _ positive word (by rwa [wide]), wide, List.append_nil] at parsed
  have exact_ := octalText_length fits
  simp [snprintf, vsnprintf, parsed, List.take_of_length_le exact_.le]

/-- The number that octal digits denote, read on from `n`. -/
def octalValue (n : Nat) (digits : List UInt8) : Nat :=
  digits.foldl (fun n c => n * 8 + (c.toNat - 48)) n

theorem le_octalValue (n : Nat) (digits : List UInt8) : n ≤ octalValue n digits := by
  induction digits generalizing n with
  | nil => exact le_rfl
  | cons c digits ih => exact le_trans (by omega) (ih (n * 8 + (c.toNat - 48)))

/-- A digit is added without wrapping, after the test for overflow. -/
theorem octal_step {c : UInt8} {value : BitVec 32} (digit : 48 ≤ c ∧ c ≤ 55)
    (room : ¬ value > 0xffffffff / 8) : (value * 8).toNat = value.toNat * 8 ∧
      ((c - 48).toBitVec.setWidth 32 + value * 8).toNat = value.toNat * 8 + (c.toNat - 48) := by
  have high : c.toNat ≤ 55 := digit.2
  have limit : (0xffffffff / 8 : BitVec 32).toNat = 536870911 := rfl
  have eight : (8 : BitVec 32).toNat = 8 := rfl
  have most : value.toNat ≤ (0xffffffff / 8 : BitVec 32).toNat := Nat.not_lt.mp room
  rw [BitVec.toNat_add, BitVec.toNat_setWidth, BitVec.toNat_mul, eight, UInt8.toNat_toBitVec,
    UInt8.toNat_sub_of_le c 48 digit.1, show (48 : UInt8).toNat = 48 from rfl]
  omega

theorem octalLoop_eq_some {cs : List UInt8} {ofs : Nat} {value v : BitVec 32} :
    octalLoop cs ofs value = some v ↔ ∃ digits c rest, cs = digits ++ c :: rest ∧
      0 < ofs + digits.length ∧ (∀ d ∈ digits, 48 ≤ d ∧ d ≤ 55) ∧ (c = 32 ∨ c = 0) ∧
      octalValue value.toNat digits < 2 ^ 32 ∧ v.toNat = octalValue value.toNat digits := by
  induction cs generalizing ofs value with
  | nil => simp [octalLoop]
  | cons c cs ih =>
    rw [octalLoop]
    by_cases digit : 48 ≤ c ∧ c ≤ 55
    · rw [if_pos digit]
      have other : ¬ (c = 32 ∨ c = 0) := by rintro (rfl | rfl) <;> exact absurd digit (by decide)
      by_cases room : value > 0xffffffff / 8
      · rw [if_pos room]
        refine iff_of_false (by simp) ?_
        rintro ⟨_ | ⟨d, digits⟩, x, rest, same, -, -, stop, fits, -⟩ <;> cases same
        · exact other stop
        · have more : (0xffffffff / 8 : BitVec 32).toNat < value.toNat := room
          have limit : (0xffffffff / 8 : BitVec 32).toNat = 536870911 := rfl
          have grows := (le_octalValue (value.toNat * 8 + (c.toNat - 48)) digits).trans_lt fits
          omega
      · rw [if_neg room, ih, (octal_step digit room).2]
        constructor
        · rintro ⟨digits, x, rest, rfl, -, octal, facts⟩
          exact ⟨c :: digits, x, rest, rfl, Nat.succ_pos _, by simpa [digit] using octal, facts⟩
        · rintro ⟨_ | ⟨d, digits⟩, x, rest, same, -, octal, stop, facts⟩ <;> cases same
          · exact absurd stop other
          · exact ⟨digits, x, rest, rfl, by omega, (List.forall_mem_cons.mp octal).2, stop, facts⟩
    · rw [if_neg digit]
      constructor
      · intro found
        split_ifs at found with stop begun
        cases found
        exact ⟨[], c, cs, rfl, begun, by simp, stop, v.isLt, rfl⟩
      · rintro ⟨_ | ⟨d, digits⟩, x, rest, same, begun, octal, stop, -, same'⟩ <;> cases same
        · rw [if_pos stop, if_pos (by simpa using begun), BitVec.eq_of_toNat_eq same']
        · exact absurd (octal c List.mem_cons_self) digit

/-- A field is accepted exactly when it begins with octal digits, of a number of 32 bits, that a
blank or a null byte ends inside the field. -/
theorem parseOctalField_iff (h : Nat → UInt8) (ofs size : Nat) :
    (∀ v, parseOctalField h ofs size = some v ↔ ∃ digits c rest,
      slice h ofs size = digits ++ c :: rest ∧ 0 < digits.length ∧
      (∀ d ∈ digits, 48 ≤ d ∧ d ≤ 55) ∧ (c = 32 ∨ c = 0) ∧ octalValue 0 digits < 2 ^ 32 ∧
      v.toNat = octalValue 0 digits) ∧
    ∀ (c : UInt8) (value : BitVec 32), 48 ≤ c ∧ c ≤ 55 → ¬ value > 0xffffffff / 8 →
      (value * 8).toNat = value.toNat * 8 ∧
      ((c - 48).toBitVec.setWidth 32 + value * 8).toNat = value.toNat * 8 + (c.toNat - 48) :=
  ⟨fun v => by simp [parseOctalField, octalLoop_eq_some], fun _ _ => octal_step⟩

theorem parseOctalField_iff_fifteen : parseOctalField (literal ['1', '7', ' ']) 0 3 = some 15 ∧
    ((55 - 48 : UInt8).toBitVec.setWidth 32 + 1 * 8 : BitVec 32).toNat = 15 :=
  ⟨((parseOctalField_iff (literal ['1', '7', ' ']) 0 3).1 15).mpr
    ⟨[49, 55], 32, [], rfl, by decide, by decide +kernel, .inl rfl, by decide, rfl⟩,
    ((parseOctalField_iff (literal ['1', '7', ' ']) 0 3).2 55 1 (by decide) (by decide)).2⟩

theorem octalValue_octalText (width value : Nat) :
    octalValue 0 (octalText width value) = value := by
  have zeros : ∀ k, octalValue 0 (List.replicate k 48) = 0 := by
    intro k
    induction k with
    | zero => rfl
    | succ k ih => exact ih
  have digits : ∀ ds : List Nat, (∀ d ∈ ds, d < 8) →
      octalValue 0 (ds.reverse.map fun d => UInt8.ofNat (48 + d)) = Nat.ofDigits 8 ds := by
    intro ds small
    induction ds with
    | nil => rfl
    | cons d ds ih =>
      have head := small d List.mem_cons_self
      have tail := ih (fun e member => small e (List.mem_cons_of_mem d member))
      have letter : (UInt8.ofNat (48 + d)).toNat - 48 = d := by interval_cases d <;> rfl
      rw [List.reverse_cons, List.map_append, octalValue, List.foldl_append, Nat.ofDigits_cons,
        ← tail]
      simp only [List.map_cons, List.map_nil, List.foldl_cons, List.foldl_nil, letter]
      rw [← octalValue]
      omega
  rw [octalText, octalValue, List.foldl_append]
  rw [← octalValue, ← octalValue, zeros, digits, Nat.ofDigits_digits]
  exact fun d member => Nat.digits_lt_base (by omega) member

theorem octalLoop_octalText {width value : Nat} (positive : 0 < width) (fits : value < 8 ^ width)
    (word : value < 2 ^ 32) :
    octalLoop (octalText width value ++ [0]) 0 0 = some (BitVec.ofNat 32 value) := by
  have read : octalValue (0 : BitVec 32).toNat (octalText width value) = value :=
    octalValue_octalText width value
  refine octalLoop_eq_some.mpr ⟨_, 0, [], rfl, ?_, fun c => octalText_digit, .inr rfl, ?_, ?_⟩
  · rw [octalText_length fits]
    omega
  · rwa [read]
  · rw [read, BitVec.toNat_ofNat, Nat.mod_eq_of_lt word]

theorem chksum_fold (indices : List Nat) (start : BitVec 32)
    (room : start.toNat + 255 * indices.length < 2 ^ 32) : (indices.foldl (fun chksum i =>
      chksum + if inChksumField i then 32 else (h i).toBitVec.setWidth 32) start).toNat ≤
        start.toNat + 255 * indices.length := by
  induction indices generalizing start with
  | nil => simp
  | cons i indices ih =>
    rw [List.length_cons] at room ⊢
    have term : (if inChksumField i then 32 else (h i).toBitVec.setWidth 32 : BitVec 32).toNat ≤
        255 := by
      split
      · decide
      · have byte := (h i).toNat_lt
        rw [BitVec.toNat_setWidth, UInt8.toNat_toBitVec]
        omega
    have sum : (start + if inChksumField i then 32 else (h i).toBitVec.setWidth 32).toNat ≤
        start.toNat + 255 := by
      rw [BitVec.toNat_add]
      omega
    have rest := ih (start + if inChksumField i then 32 else (h i).toBitVec.setWidth 32) (by omega)
    rw [List.foldl_cons]
    omega

theorem calculateChksum_lt (h : Nat → UInt8) : (calculateChksum h).toNat < 8 ^ 7 := by
  have most := chksum_fold (h := h) (List.range 512) 0 (by simp)
  have zero : (0 : BitVec 32).toNat = 0 := rfl
  rw [List.length_range, zero] at most
  rw [calculateChksum]
  omega

theorem calculateChksum_congr {h' : Nat → UInt8}
    (same : ∀ i < 512, inChksumField i = false → h i = h' i) :
    calculateChksum h = calculateChksum h' := by
  rw [calculateChksum, calculateChksum]
  apply List.foldl_ext
  intro chksum i member
  cases field : inChksumField i with
  | true => rfl
  | false => rw [same i (List.mem_range.mp member) field]

/-- The fields that are filled in before the checksum, in the source's order. -/
def fields (name : List UInt8) (type : UstarType) (size : BitVec 32) : List (Nat × List UInt8) :=
  [(0, name ++ [0]), (100, octalText 7 (if type = .regular then 420 else 493) ++ [0]),
    (108, bytes ['0', '0', '0', '0', '0', '0', '0'] ++ [0]),
    (116, bytes ['0', '0', '0', '0', '0', '0', '0'] ++ [0]),
    (124, octalText 11 size.toNat ++ [0]),
    (136, octalText 11 1136102400 ++ [0]),
    (156, [type.flag]),
    (257, bytes ['u', 's', 't', 'a', 'r'] ++ [0]),
    (263, [48, 48]),
    (297, bytes ['r', 'o', 'o', 't'] ++ [0]),
    (265, bytes ['r', 'o', 'o', 't'] ++ [0])]

def unsummed (name : List UInt8) (type : UstarType) (size : BitVec 32) : Nat → UInt8 :=
  spliceAll (fun _ => 0) (fields name type size)

def summed (h : Nat → UInt8) : Nat → UInt8 :=
  splice h 148 (octalText 7 (calculateChksum h).toNat ++ [0])

theorem ustarMakeHeader_eq {fileName : List UInt8} {type : UstarType} {size : BitVec 32}
    (kind : type = .regular ∨ type = .directory) (small : size.toNat < 2 ^ 31)
    (stripped : stripAntisocialPrefixes fileName = some name) (short : name.length ≤ 99) :
    ustarMakeHeader fileName type size = some (some (summed (unsummed name type size))) := by
  have sizeText : snprintf 12 ['%', '0', '1', '1', 'o'] size =
      some (octalText 11 size.toNat ++ [0]) :=
    snprintf_octal rfl (by decide) (by decide) (by omega)
  have timeText : snprintf 12 ['%', '0', '1', '1', 'o'] 1136102400 =
      some (octalText 11 1136102400 ++ [0]) :=
    snprintf_octal rfl (by decide) (by decide) (by decide)
  have modeText : snprintf 8 ['%', '0', '7', 'o'] (if type = .regular then 420 else 493) =
      some (octalText 7 (if type = .regular then 420 else 493) ++ [0]) := by
    split
    · exact snprintf_octal rfl (by decide) (by decide) (by decide)
    · exact snprintf_octal rfl (by decide) (by decide) (by decide)
  have chksumText : ∀ h, snprintf 8 ['%', '0', '7', 'o'] (calculateChksum h) =
      some (octalText 7 (calculateChksum h).toNat ++ [0]) := fun h =>
    snprintf_octal rfl (by decide) (by decide) (calculateChksum_lt h)
  have nameText : strlcpy name 100 = name ++ [0] := by
    simp [strlcpy, List.take_of_length_le short]
  have allowed : ¬ name.length > 99 := by omega
  simp only [ustarMakeHeader, guard, if_pos kind, stripped, Option.bind_eq_bind, Option.pure_def,
    Option.bind_some, if_neg allowed, nameText, modeText, sizeText, timeText, chksumText]
  rfl

theorem ustarMakeHeader_long {fileName : List UInt8} {type : UstarType} {size : BitVec 32}
    (kind : type = .regular ∨ type = .directory)
    (stripped : stripAntisocialPrefixes fileName = some name) (long : 99 < name.length) :
    ustarMakeHeader fileName type size = some none := by
  simp [ustarMakeHeader, guard, kind, stripped, long]

/-- What `ustar_parse_header` finds in a header with these contents. -/
structure Describes (h : Nat → UInt8) (name : List UInt8) (type : UstarType) (size : BitVec 32) :
    Prop where
  magic : slice h 257 6 = bytes ['u', 's', 't', 'a', 'r'] ++ [0]
  version : slice h 263 2 = [48, 48]
  chksum : slice h 148 8 = octalText 7 (calculateChksum h).toNat ++ [0]
  name : (slice h 0 100).takeWhile (· != 0) = name
  terminated : h 99 = 0
  noPrefix : h 345 = 0
  flag : h 156 = type.flag
  size : slice h 124 12 = octalText 11 size.toNat ++ [0]

section
variable {name : List UInt8} {type : UstarType} {size : BitVec 32}

theorem Describes.congr {h' : Nat → UInt8} (describes : Describes h name type size)
    (same : ∀ x < 512, h' x = h x) : Describes h' name type size := by
  have field : ∀ a n, a + n ≤ 512 → slice h' a n = slice h a n := fun a n inside =>
    slice_congr fun x _ below => same x (by omega)
  have sum : calculateChksum h' = calculateChksum h :=
    calculateChksum_congr fun x below _ => same x below
  refine ⟨?_, ?_, ?_, ?_, ?_, ?_, ?_, ?_⟩
  · rw [field _ _ (by decide), describes.magic]
  · rw [field _ _ (by decide), describes.version]
  · rw [field _ _ (by decide), describes.chksum, sum]
  · rw [field _ _ (by decide), describes.name]
  · rw [same _ (by decide), describes.terminated]
  · rw [same _ (by decide), describes.noPrefix]
  · rw [same _ (by decide), describes.flag]
  · rw [field _ _ (by decide), describes.size]

theorem field_lengths (type : UstarType) (small : size.toNat < 2 ^ 31) :
    (octalText 11 size.toNat).length = 11 ∧ (octalText 11 1136102400).length = 11 ∧
      (octalText 7 (if type = .regular then 420 else 493)).length = 7 := by
  refine ⟨octalText_length (by omega), octalText_length (by decide), ?_⟩
  split
  · exact octalText_length (by decide)
  · exact octalText_length (by decide)

theorem fields_off (short : name.length ≤ 99) (small : size.toNat < 2 ^ 31) {chksum : List UInt8}
    (eight : chksum.length = 8) {x : Nat} (gap : name.length < x ∧ x < 100 ∨ 302 ≤ x) :
    spliceAll (fun _ => 0) (fields name type size ++ [(148, chksum)]) x = 0 := by
  obtain ⟨size11, time11, mode7⟩ := field_lengths type small
  apply spliceAll_off
  simp [fields, size11, time11, mode7, bytes, eight]
  omega

theorem describes_summed (clean : 0 ∉ name) (short : name.length ≤ 99)
    (small : size.toNat < 2 ^ 31) :
    Describes (summed (unsummed name type size)) name type size := by
  have sum7 := octalText_length (calculateChksum_lt (unsummed name type size))
  have eight :
      (octalText 7 (calculateChksum (unsummed name type size)).toNat ++ [0]).length = 8 := by
    simp [sum7]
  obtain ⟨size11, time11, mode7⟩ := field_lengths type small
  have all : summed (unsummed name type size) = spliceAll (fun _ => 0) (fields name type size ++
      [(148, octalText 7 (calculateChksum (unsummed name type size)).toNat ++ [0])]) := by
    rw [spliceAll, List.foldl_append]
    rfl
  have field : ∀ w ∈ fields name type size ++
      [(148, octalText 7 (calculateChksum (unsummed name type size)).toNat ++ [0])],
      slice (summed (unsummed name type size)) w.1 w.2.length = w.2 := by
    intro w
    rw [all]
    refine slice_spliceAll _ ?_
    simp [fields, Separate, size11, time11, mode7, bytes, sum7]
    omega
  have nameField : slice (summed (unsummed name type size)) 0 (name.length + 1) = name ++ [0] := by
    have whole := field (0, name ++ [0]) (by simp [fields])
    rwa [List.length_append] at whole
  constructor
  · exact field (257, bytes ['u', 's', 't', 'a', 'r'] ++ [0]) (by simp [fields])
  · exact field (263, [48, 48]) (by simp [fields])
  · have chk : calculateChksum (summed (unsummed name type size)) =
        calculateChksum (unsummed name type size) := by
      apply calculateChksum_congr
      intro i _ off
      simp only [inChksumField, Bool.and_eq_false_iff, decide_eq_false_iff_not] at off
      rw [summed, splice, eight, if_neg]
      omega
    rw [chk]
    have whole := field (148, octalText 7 (calculateChksum (unsummed name type size)).toNat ++ [0])
      (by simp)
    rwa [eight] at whole
  · have cut : slice (summed (unsummed name type size)) 0 100 = name ++ 0 ::
        slice (summed (unsummed name type size)) (name.length + 1) (99 - name.length) := by
      have total : 100 = (name.length + 1) + (99 - name.length) := by omega
      rw [total, slice_add, nameField]
      simp
    have letters : ∀ c ∈ name, (c != 0) = true := by
      intro c member
      simp only [bne_iff_ne]
      rintro rfl
      exact clean member
    rw [cut, List.takeWhile_append_of_pos letters, List.takeWhile_cons_of_neg (by simp),
      List.append_nil]
  · by_cases full : name.length = 99
    · have last := slice_getD (summed (unsummed name type size)) 0 (name.length + 1) 99 (by omega)
      rw [nameField] at last
      simpa [full] using last.symm
    · rw [all]
      exact fields_off short small eight (.inl (by omega))
  · rw [all]
    exact fields_off short small eight (.inr (by omega))
  · simpa [slice] using field (156, [type.flag]) (by simp [fields])
  · have whole := field (124, octalText 11 size.toNat ++ [0]) (by simp [fields])
    rwa [List.length_append, size11] at whole

theorem Describes.digits (describes : Describes h name type size) : h 263 = 48 ∧ h 264 = 48 := by
  simpa [slice, List.range_succ] using describes.version

theorem Describes.parseChksum (describes : Describes h name type size) :
    parseOctalField h 148 8 = some (calculateChksum h) := by
  rw [parseOctalField, describes.chksum,
    octalLoop_octalText (by decide) (calculateChksum_lt h) (calculateChksum h).isLt]
  simp

theorem not_isAllZeros {x : Nat} (lt : x < 512) (digit : h x = 48) : isAllZeros h 512 = false := by
  refine List.all_eq_false.mpr ⟨h x, ?_, by simp [digit]⟩
  exact List.mem_map.mpr ⟨x, List.mem_range.mpr lt, by rw [Nat.zero_add]⟩

theorem Describes.parse (describes : Describes h name type size) (stripped : Stripped name)
    (kind : type = .regular ∨ type = .directory) (small : size.toNat < 2 ^ 31) :
    ustarParseHeader h = some (.ok ⟨some name, type, if type = .regular then size else 0⟩) := by
  have digits := describes.digits
  have version : ¬ (h 263 ≠ 48 ∨ h 264 ≠ 48) := by simp [digits]
  have length : parseOctalField h 124 12 = some size := by
    rw [parseOctalField, describes.size, octalLoop_octalText (by decide) (by omega) size.isLt]
    simp
  have within : size ≤ 2147483647#32 := by
    have limit : (2147483647#32).toNat = 2147483647 := rfl
    apply BitVec.le_def.mpr
    omega
  have ends : ¬ (h 99 ≠ 0 ∨ h 345 ≠ 0) := by simp [describes.terminated, describes.noPrefix]
  rw [ustarParseHeader, not_isAllZeros (by decide) digits.1, if_neg Bool.false_ne_true,
    if_neg (not_not.mpr describes.magic), if_neg version, describes.parseChksum]
  simp only
  rw [if_neg (not_not.mpr rfl), if_neg ends]
  rcases kind with rfl | rfl
  · simp [describes.flag, describes.name, length, within, stripped.fixed]
  · simp [describes.flag, describes.name, stripped.fixed, UstarType.flag]

end

/-- Headers made by `ustar_make_header` are read back by `ustar_parse_header`, and the
stripped names have none of the forms that stripping is there to remove. -/
theorem ustar_round_trip {fileName : List UInt8} (terminated : 0 ∉ fileName) :
    ∃ name, stripAntisocialPrefixes fileName = some name ∧
      stripAntisocialPrefixes name = some name ∧
      name ≠ [] ∧ name ≠ [46, 46] ∧ ¬ [47] <+: name ∧ ¬ [46, 47] <+: name ∧
      ¬ [46, 46, 47] <+: name ∧
      ∀ type, type = .regular ∨ type = .directory → ∀ size : BitVec 32, size.toNat ≤ 2 ^ 31 - 1 →
        ∃ made, ustarMakeHeader fileName type size = some made ∧
          (made.isSome ↔ name.length ≤ 99) ∧
          ∀ h, made = some h → ustarParseHeader h =
            some (.ok ⟨some name, type, if type = .regular then size else 0⟩) := by
  obtain ⟨name, found, stripped, clean, -⟩ := strip_spec fileName
  have social := stripped.social
  simp only [antisocial, Bool.or_eq_false_iff, beq_eq_false_iff_ne] at social
  refine ⟨name, found, stripped.fixed, stripped.nonempty, stripped.notParent, ?_, ?_, ?_,
    fun type kind size most => ?_⟩
  · rintro ⟨rest, rfl⟩
    simp at social
  · intro starts
    simp [List.isPrefixOf_iff_prefix.mpr starts] at social
  · intro starts
    simp [List.isPrefixOf_iff_prefix.mpr starts] at social
  have small : size.toNat < 2 ^ 31 := by omega
  by_cases short : name.length ≤ 99
  · refine ⟨_, ustarMakeHeader_eq kind small found short, by simp [short], ?_⟩
    rintro h made
    cases made
    exact (describes_summed (clean terminated) short small).parse stripped kind small
  · refine ⟨none, ustarMakeHeader_long kind found (by omega), by simp; omega, ?_⟩
    intro h made
    cases made

theorem ustar_round_trip_parent :
    ∃ h, ustarMakeHeader [46, 46, 47, 97, 47, 98] .regular 5 = some (some h) ∧
      ustarParseHeader h = some (.ok ⟨some [97, 47, 98], .regular, 5⟩) := by
  obtain ⟨name, found, -, -, -, -, -, -, made⟩ :=
    ustar_round_trip (show (0 : UInt8) ∉ [46, 46, 47, 97, 47, 98] by decide)
  have stripped : stripAntisocialPrefixes [46, 46, 47, 97, 47, 98] = some [97, 47, 98] := by decide
  obtain rfl : name = [97, 47, 98] := Option.some.inj (found.symm.trans stripped)
  obtain ⟨r, written, fits, read⟩ := made .regular (.inl rfl) 5 (by decide)
  obtain ⟨h, rfl⟩ := Option.isSome_iff_exists.mp (fits.mpr (by decide))
  exact ⟨h, written, read h rfl⟩

section Corruption

variable {i : Nat} {b : UInt8}

theorem foldl_range_off {t t' : Nat → BitVec 32} (off : ∀ j, j ≠ i → t' j = t j) (n : Nat) :
    (List.range n).foldl (fun sum j => sum + t' j) 0 =
      (List.range n).foldl (fun sum j => sum + t j) 0 + if i < n then t' i - t i else 0 := by
  induction n with
  | zero => rfl
  | succ n ih =>
    rw [List.range_succ, List.foldl_append, List.foldl_append, ih]
    simp only [List.foldl_cons, List.foldl_nil]
    rcases Nat.lt_trichotomy i n with less | rfl | more
    · rw [if_pos less, if_pos (by omega), off n (by omega)]
      bv_omega
    · rw [if_neg (by omega), if_pos (by omega)]
      bv_omega
    · rw [if_neg (by omega), if_neg (by omega), off n (by omega)]
      bv_omega

theorem calculateChksum_update (lt : i < 512) (outside : inChksumField i = false) (ne : b ≠ h i) :
    calculateChksum (update h i b) ≠ calculateChksum h := by
  rw [calculateChksum, calculateChksum,
    foldl_range_off (i := i) fun j other => by rw [update_of_ne other], if_pos lt, outside,
    if_neg Bool.false_ne_true, if_neg Bool.false_ne_true, update_self]
  intro same
  have equal : b.toBitVec.setWidth 32 = (h i).toBitVec.setWidth 32 := by bv_omega
  have byte := congrArg BitVec.toNat equal
  have small := b.toNat_lt
  have small' := (h i).toNat_lt
  rw [BitVec.toNat_setWidth, BitVec.toNat_setWidth, UInt8.toNat_toBitVec,
    UInt8.toNat_toBitVec] at byte
  exact ne (UInt8.toNat_inj.mp (by omega))

variable {name : List UInt8} {type : UstarType} {size : BitVec 32}

/-- A byte of the checksum field changes what is read there at most; any other byte changes the
sum. -/
theorem Describes.corrupt (describes : Describes h name type size) (lt : i < 512) (b : UInt8) :
    (∃ message, ustarParseHeader (update h i b) = some (.error message)) ∨
      ustarParseHeader (update h i b) = ustarParseHeader h := by
  by_cases same : b = h i
  · rw [same, update_eq_self]
    exact .inr rfl
  have digits := describes.digits
  have nonzero : isAllZeros (update h i b) 512 = false := by
    by_cases here : i = 263
    · exact not_isAllZeros (x := 264) (by decide) (by rw [update_of_ne (by omega), digits.2])
    · exact not_isAllZeros (x := 263) (by decide) (by rw [update_of_ne (by omega), digits.1])
  have field (a n : Nat) (off : i < a ∨ a + n ≤ i) : slice (update h i b) a n = slice h a n :=
    slice_congr fun x low high => update_of_ne (by omega) ..
  rw [ustarParseHeader, nonzero, if_neg Bool.false_ne_true]
  cases inside : inChksumField i with
  | true =>
    have range : 148 ≤ i ∧ i < 156 := by simpa [inChksumField] using inside
    have byte (x : Nat) (off : x < 148 ∨ 156 ≤ x) : update h i b x = h x :=
      update_of_ne (by omega) ..
    have sum : calculateChksum (update h i b) = calculateChksum h :=
      calculateChksum_congr fun x _ off => update_of_ne (by rintro rfl; simp [inside] at off) ..
    rw [ustarParseHeader, not_isAllZeros (by decide) digits.1, if_neg Bool.false_ne_true,
      describes.parseChksum]
    simp only [field 257 6 (by omega), byte 263 (by omega), byte 264 (by omega), sum,
      byte 99 (by omega), byte 345 (by omega), byte 156 (by omega), field 0 100 (by omega),
      parseOctalField, field 124 12 (by omega), describes.magic, digits, ne_eq, not_true_eq_false,
      or_self, if_false]
    cases octalLoop (slice (update h i b) 148 8) 0 0 with
    | none => exact .inl ⟨_, rfl⟩
    | some v =>
      by_cases equal : v = calculateChksum h
      · exact .inr (if_neg (not_not_intro equal))
      · exact .inl ⟨_, if_pos equal⟩
  | false =>
    have off : i < 148 ∨ 148 + 8 ≤ i := by
      simp only [inChksumField, Bool.and_eq_false_iff, decide_eq_false_iff_not] at inside
      omega
    rw [parseOctalField, field 148 8 off, ← parseOctalField, describes.parseChksum]
    simp only [if_pos (calculateChksum_update lt inside same).symm]
    split_ifs <;> exact .inl ⟨_, rfl⟩

end Corruption

/-- Whatever byte of a header is replaced, parsing reports an error or finds what the header
says. -/
theorem corruption_detected {fileName : List UInt8} (terminated : 0 ∉ fileName) {type : UstarType}
    {size : BitVec 32} (positive : size.toNat ≤ 2 ^ 31 - 1)
    (made : ustarMakeHeader fileName type size = some (some h)) {i : Nat} (lt : i < 512)
    (b : UInt8) : (∃ message, ustarParseHeader (update h i b) = some (.error message)) ∨
      ustarParseHeader (update h i b) = ustarParseHeader h := by
  have kind : type = .regular ∨ type = .directory := by
    by_contra other
    simp [ustarMakeHeader, guard, other] at made
  obtain ⟨name, found, -, clean, -⟩ := strip_spec fileName
  by_cases short : name.length ≤ 99
  · rw [ustarMakeHeader_eq kind (by omega) found short] at made
    cases made
    exact (describes_summed (clean terminated) short (by omega)).corrupt lt b
  · rw [ustarMakeHeader_long kind found (by omega)] at made
    cases made

theorem corruption_detected_first : ∃ h, ustarMakeHeader [97] .regular 5 = some (some h) ∧
    ((∃ message, ustarParseHeader (update h 0 98) = some (.error message)) ∨
      ustarParseHeader (update h 0 98) = ustarParseHeader h) := by
  have made : ustarMakeHeader [97] .regular 5 = some (some (summed (unsummed [97] .regular 5))) :=
    ustarMakeHeader_eq (.inl rfl) (by decide) (by decide) (by decide)
  exact ⟨_, made, corruption_detected (by decide) (by decide) made (by decide) 98⟩

end Pintos.Ustar
