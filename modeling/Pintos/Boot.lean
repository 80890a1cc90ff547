import Pintos.Stdio
import Pintos.Strings
import Mathlib.Data.List.Perm.Basic

/-! What `threads/init.c` does with the arguments of the kernel, and the generator of `lib/random.c`
that it seeds. The block of the loader begins at address 0 of the memory here; bytes after it are
read only by `strnlen`. A panic, and the shutdown by `-h`, is `none`. -/

namespace Pintos.Boot

open Stdio Strings

section Random

/-- The static variables of `lib/random.c`. -/
structure Rng where
  s : List UInt8
  i : UInt8
  j : UInt8
  inited : Bool
  deriving DecidableEq

def swapByte (s : List UInt8) (a b : UInt8) : List UInt8 := s.swap a.toNat b.toNat

/-- The bytes of an `unsigned`, from the lowest one. -/
def seedByte (seed : BitVec 32) (i : Nat) : UInt8 := .ofNat (seed.toNat >>> (8 * (i % 4)))

def initLoop (seed : BitVec 32) : List Nat → List UInt8 → UInt8 → List UInt8
  | [], s, _ => s
  | i :: is, s, j =>
    let j := j + (s.getD i 0 + seedByte seed i)
    initLoop seed is (swapByte s (.ofNat i) j) j

def identity : List UInt8 := (List.range 256).map .ofNat

def randomInit (seed : BitVec 32) : Rng :=
  { s := initLoop seed (List.range 256) identity 0, i := 0, j := 0, inited := true }

def bytesLoop : Nat → Rng → List UInt8 × Rng
  | 0, r => ([], r)
  | size + 1, r =>
    let i := r.i + 1
    let j := r.j + r.s.getD i.toNat 0
    let s := swapByte r.s i j
    let k := s.getD i.toNat 0 + s.getD j.toNat 0
    let (bytes, r) := bytesLoop size { r with s, i, j }
    (s.getD k.toNat 0 :: bytes, r)

def randomBytes (size : Nat) (r : Rng) : List UInt8 × Rng :=
  bytesLoop size (if !r.inited then randomInit 0 else r)

def randomUlong (r : Rng) : BitVec 32 × Rng :=
  let (bytes, r) := randomBytes 4 r
  (.ofNat 32 (ByteStore.readLe32 bytes), r)

theorem initLoop_perm (seed : BitVec 32) (is : List Nat) (s : List UInt8) (j : UInt8) :
    (initLoop seed is s j).Perm s := by
  induction is generalizing s j with
  | nil => exact .refl s
  | cons i is ih => exact (ih _ _).trans (List.swap_perm ..)

theorem bytesLoop_perm (size : Nat) (r : Rng) :
    (bytesLoop size r).2.s.Perm r.s ∧ (bytesLoop size r).2.inited = r.inited ∧
      (bytesLoop size r).1.length = size := by
  induction size generalizing r with
  | zero => exact ⟨.refl _, rfl, rfl⟩
  | succ size ih =>
    obtain ⟨perm, inited, length⟩ := ih _
    exact ⟨perm.trans (List.swap_perm ..), inited, congrArg (· + 1) length⟩

theorem bytesLoop_add (a b : Nat) (r : Rng) : bytesLoop (a + b) r =
    ((bytesLoop a r).1 ++ (bytesLoop b (bytesLoop a r).2).1,
      (bytesLoop b (bytesLoop a r).2).2) := by
  induction a generalizing r with
  | zero => rw [Nat.zero_add]; rfl
  | succ a ih =>
    rw [Nat.succ_add, bytesLoop, ih]
    rfl

/-- What a run of requests after `random_init` leaves. -/
def requests (seed : BitVec 32) (sizes : List Nat) : Rng :=
  sizes.foldl (fun r size => (randomBytes size r).2) (randomInit seed)

theorem requests_perm (seed : BitVec 32) (sizes : List Nat) :
    (requests seed sizes).s.Perm identity ∧ (requests seed sizes).inited = true := by
  have start : (randomInit seed).s.Perm identity ∧ (randomInit seed).inited = true := by
    have perm := initLoop_perm seed (List.range 256) identity 0
    simpa only [randomInit, and_true] using perm
  rw [requests]
  generalize randomInit seed = r at start
  induction sizes generalizing r with
  | nil => exact start
  | cons size sizes ih =>
    refine ih _ ?_
    obtain ⟨swapped, kept, -⟩ := bytesLoop_perm size r
    simp only [randomBytes, start.2, Bool.not_true, Bool.false_eq_true, if_false]
    exact ⟨swapped.trans start.1, kept.trans start.2⟩

/-- Bytes asked for in two requests are those of one request, cut in two. -/
theorem random_stream (seed : BitVec 32) (sizes : List Nat) (a b : Nat) :
    (requests seed sizes).s.Perm identity ∧
      ∃ first second rng rng', randomBytes a (requests seed sizes) = (first, rng) ∧
        randomBytes b rng = (second, rng') ∧ first.length = a ∧
        randomBytes (a + b) (requests seed sizes) = (first ++ second, rng') := by
  obtain ⟨perm, inited⟩ := requests_perm seed sizes
  obtain ⟨-, kept, length⟩ := bytesLoop_perm a (requests seed sizes)
  simp only [randomBytes, inited, Bool.not_true, Bool.false_eq_true, if_false]
  refine ⟨perm, _, _, _, _, rfl, ?_, length, bytesLoop_add ..⟩
  rw [kept, inited]
  rfl

end Random

section CommandLine

def loaderArgsLen : Nat := 128

def strnlen (m : Nat → UInt8) (string : Nat) : Nat → Nat
  | 0 => 0
  | maxlen + 1 => if m string ≠ 0 then strnlen m (string + 1) maxlen + 1 else 0

/-- The pointers stored in `argv` by the iterations that remain. -/
def splitLoop (m : Nat → UInt8) : Nat → Nat → Option (List Nat)
  | 0, _ => some []
  | n + 1, p =>
    if p ≥ loaderArgsLen then none
    else (splitLoop m n (p + (strnlen m p (loaderArgsLen - p) + 1))).map (p :: ·)

/-- The pointers stored from the index 0 on, and the index at which null is stored. -/
def readCommandLine (argCnt : BitVec 32) (m : Nat → UInt8) : Option (List Nat × Int) := do
  let argc := argCnt.toInt
  let argv ← splitLoop m argc.toNat 0
  return (argv, argc)

theorem splitLoop_spec {m : Nat → UInt8} {n p : Nat} {argv : List Nat}
    (run : splitLoop m n p = some argv) :
    argv.length = n ∧ ∀ q ∈ argv, q < loaderArgsLen := by
  induction n generalizing p argv with
  | zero =>
    cases run
    exact ⟨rfl, List.forall_mem_nil _⟩
  | succ n ih =>
    rw [splitLoop] at run
    split_ifs at run with past
    obtain ⟨rest, later, rfl⟩ := Option.map_eq_some_iff.mp run
    obtain ⟨length, inside⟩ := ih later
    exact ⟨congrArg (· + 1) length, List.forall_mem_cons.mpr ⟨Nat.not_le.mp past, inside⟩⟩

end CommandLine

section Options

inductive ShutdownType
  | none
  | powerOff
  | reboot

/-- The variables that the options of a kernel with file system and user programs set. -/
structure Settings where
  shutdown : ShutdownType
  formatFilesys : Bool
  filesysBdevName : Option (List UInt8)
  scratchBdevName : Option (List UInt8)
  threadMlfqs : Bool
  userPageLimit : BitVec 32
  rng : Rng

def isspace (c : UInt8) : Bool := c ∈ [32, 12, 10, 13, 9, 11]

def parseDigits (string : List UInt8) : BitVec 32 :=
  (string.takeWhile isdigit).foldl (fun value c => value * 10 - (BitVec.ofNat 32 c.toNat - 48)) 0

def atoi (string : List UInt8) : BitVec 32 :=
  let string := string.dropWhile isspace
  if string.head? = some 43 then -parseDigits string.tail
  else if string.head? = some 45 then parseDigits string.tail
  else -parseDigits string

/-- The name and the value of an option, by two calls of `strtok_r`. -/
def nameValue (arg : List UInt8) : Option (List UInt8 × Option (List UInt8)) := do
  let (name, buffer, savePtr) ← strtokR [61] (arg ++ [0]) 0
  let (value, buffer, _) ← strtokR [] buffer savePtr
  return (string buffer (← name), value.map (string buffer))

def parseOption (name : List UInt8) (value : Option (List UInt8)) (k : Settings) :
    Option Settings :=
  if name = bytes ['-', 'h'] then none
  else if name = bytes ['-', 'q'] then some { k with shutdown := .powerOff }
  else if name = bytes ['-', 'r'] then some { k with shutdown := .reboot }
  else if name = bytes ['-', 'f'] then some { k with formatFilesys := true }
  else if name = bytes ['-', 'f', 'i', 'l', 'e', 's', 'y', 's'] then
    some { k with filesysBdevName := value }
  else if name = bytes ['-', 's', 'c', 'r', 'a', 't', 'c', 'h'] then
    some { k with scratchBdevName := value }
  else if name = bytes ['-', 'r', 's'] then value.map fun v => { k with rng := randomInit (atoi v) }
  else if name = bytes ['-', 'm', 'l', 'f', 'q', 's'] then some { k with threadMlfqs := true }
  else if name = bytes ['-', 'u', 'l'] then value.map fun v => { k with userPageLimit := atoi v }
  else none

def optionsLoop : List (List UInt8) → Settings → Option (Settings × List (List UInt8))
  | [], k => some (k, [])
  | arg :: argv, k =>
    if arg.head? = some 45 then do
      let (name, value) ← nameValue arg
      optionsLoop argv (← parseOption name value k)
    else some (k, arg :: argv)

def parseOptions (rtcTime : BitVec 32) (argv : List (List UInt8)) (k : Settings) :
    Option (Settings × List (List UInt8)) := do
  let (k, argv) ← optionsLoop argv k
  return ({ k with rng := randomInit rtcTime }, argv)

/-- The value of the last `-rs` among the options. -/
def lastSeed : List (List UInt8) → Option (List UInt8)
  | [] => none
  | arg :: argv =>
    if arg.head? = some 45 then
      (lastSeed argv).or <| (nameValue arg).bind fun (name, value) =>
        if name = bytes ['-', 'r', 's'] then value else none
    else none

theorem parseOption_rng {name : List UInt8} {value : Option (List UInt8)} {k k' : Settings}
    (run : parseOption name value k = some k') :
    k'.rng = ((if name = bytes ['-', 'r', 's'] then value else none).map
      (randomInit ∘ atoi)).getD k.rng := by
  unfold parseOption at run
  split_ifs at run with h q r f fs sc rs ml ul
  all_goals try obtain ⟨v, rfl, rfl⟩ := Option.map_eq_some_iff.mp run
  all_goals try cases run
  all_goals subst name
  all_goals rfl

theorem optionsLoop_rng {argv rest : List (List UInt8)} {k k' : Settings}
    (run : optionsLoop argv k = some (k', rest)) :
    k'.rng = ((lastSeed argv).map (randomInit ∘ atoi)).getD k.rng := by
  induction argv generalizing k with
  | nil =>
    cases run
    rfl
  | cons arg argv ih =>
    rw [optionsLoop] at run
    rw [lastSeed]
    split_ifs at run ⊢ with dash
    · obtain ⟨⟨name, value⟩, split, run⟩ := Option.bind_eq_some_iff.mp run
      obtain ⟨k1, set, run⟩ := Option.bind_eq_some_iff.mp run
      rw [ih run, parseOption_rng set, split]
      cases lastSeed argv <;> rfl
    · cases run
      rfl

/-- What is set before the options. -/
def defaults : Settings :=
  { shutdown := .none, formatFilesys := false, filesysBdevName := none, scratchBdevName := none,
    threadMlfqs := false, userPageLimit := 0xffffffff,
    rng := { s := List.replicate 256 0, i := 0, j := 0, inited := false } }

end Options

end Pintos.Boot
