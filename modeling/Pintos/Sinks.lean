import Mathlib
import Pintos.ByteStore
import Pintos.Stdio

/-! Where the characters of `__vprintf` go: the buffer of `vsnprintf` in `lib/stdio.c`, and the
`write` calls of `vhprintf` in `lib/user/console.c`. -/

namespace Pintos.Sinks

open ByteStore Stdio

structure VsnprintfAux where
  p : Nat
  length : BitVec 32
  maxLength : BitVec 32

def vsnprintfHelper (s : (Nat → UInt8) × VsnprintfAux) (ch : UInt8) :
    (Nat → UInt8) × VsnprintfAux :=
  let (ram, aux) := s
  if aux.length.slt aux.maxLength then
    (splice ram aux.p [ch], { aux with p := aux.p + 1, length := aux.length + 1 })
  else (ram, { aux with length := aux.length + 1 })

/-- The memory after the call, and the number returned. -/
def vsnprintf (fuel : Nat) (ram : Nat → UInt8) (buffer : Nat) (bufSize : BitVec 32)
    (format : Nat → UInt8) (args : List Arg) : Option ((Nat → UInt8) × BitVec 32) :=
  (vprintf fuel format 0 args).map fun out =>
    let (ram, aux) := out.foldl vsnprintfHelper
      (ram, { p := buffer, length := 0, maxLength := if bufSize > 0 then bufSize - 1 else 0 })
    (if bufSize > 0 then splice ram aux.p [0] else ram, aux.length)

structure VhprintfAux where
  /-- The characters in `buf` before `p`. -/
  buf : List UInt8
  charCnt : BitVec 32
  handle : BitVec 32
  /-- The calls of `write`. -/
  writes : List (BitVec 32 × List UInt8)

def flush (aux : VhprintfAux) : VhprintfAux :=
  if aux.buf = [] then aux
  else { aux with buf := [], writes := aux.writes ++ [(aux.handle, aux.buf)] }

def addChar (aux : VhprintfAux) (c : UInt8) : VhprintfAux :=
  let aux := { aux with buf := aux.buf ++ [c] }
  let aux := if 64 ≤ aux.buf.length then flush aux else aux
  { aux with charCnt := aux.charCnt + 1 }

/-- The calls of `write`, and the number returned. -/
def vhprintf (fuel : Nat) (handle : BitVec 32) (format : Nat → UInt8) (args : List Arg) :
    Option (List (BitVec 32 × List UInt8) × BitVec 32) :=
  (vprintf fuel format 0 args).map fun out =>
    let aux := flush (out.foldl addChar { buf := [], charCnt := 0, handle := handle, writes := [] })
    (aux.writes, aux.charCnt)

theorem foldl_vsnprintfHelper (ram : Nat → UInt8) (buffer : Nat) {max : Nat}
    (small : max < 2 ^ 31) {w : List UInt8} (short : w.length < 2 ^ 31) :
    w.foldl vsnprintfHelper (ram, ⟨buffer, 0, BitVec.ofNat 32 max⟩) =
      (splice ram buffer (w.take max),
        ⟨buffer + (w.take max).length, BitVec.ofNat 32 w.length, BitVec.ofNat 32 max⟩) := by
  induction w using List.reverseRecOn with
  | nil => simp
  | append_singleton w ch ih =>
    rw [List.length_append, List.length_singleton] at short
    have value : ∀ n < 2 ^ 31, (BitVec.ofNat 32 n).toInt = n := by
      intro n lt
      have same : (BitVec.ofNat 32 n).toNat = n := Nat.mod_eq_of_lt (by omega)
      rw [BitVec.toInt_eq_toNat_of_lt (by omega), same]
    have count : BitVec.ofNat 32 w.length + 1 = BitVec.ofNat 32 (w ++ [ch]).length := by
      simp [BitVec.ofNat_add]
    have less : (BitVec.ofNat 32 w.length).slt (BitVec.ofNat 32 max) =
        decide (w.length < max) := by
      rw [BitVec.slt, value _ (by omega), value _ small]
      exact decide_eq_decide.mpr Int.ofNat_lt
    rw [List.foldl_append, ih (by omega), List.foldl_cons, List.foldl_nil, vsnprintfHelper]
    simp only [less, decide_eq_true_eq, count]
    split_ifs with room
    · rw [List.take_of_length_le (Nat.le_of_lt room), List.take_of_length_le (by simpa using room),
        splice_append, List.length_append, List.length_singleton, Nat.add_assoc]
    · rw [List.take_append_of_le_length (by omega)]

/-- What has been put out: the calls of `write` and what is left in the buffer. -/
structure Chunks (w : List UInt8) (aux : VhprintfAux) : Prop where
  whole : (aux.writes.map Prod.snd).flatten ++ aux.buf = w
  sizes : ∀ c ∈ aux.writes, 1 ≤ c.2.length ∧ c.2.length ≤ 64

variable {w : List UInt8} {aux : VhprintfAux}

theorem Chunks.flush (h : Chunks w aux) (le : aux.buf.length ≤ 64) :
    Chunks w (flush aux) ∧ (Sinks.flush aux).buf = [] := by
  rw [Sinks.flush]
  split_ifs with empty
  · exact ⟨h, empty⟩
  · refine ⟨⟨by simpa using h.whole, fun c mem => ?_⟩, rfl⟩
    rcases List.mem_append.mp mem with old | new
    · exact h.sizes c old
    · rw [List.mem_singleton.mp new]
      exact ⟨List.length_pos_iff.mpr empty, le⟩

theorem flush_charCnt (aux : VhprintfAux) : (flush aux).charCnt = aux.charCnt := by
  rw [flush]
  split_ifs <;> rfl

theorem Chunks.addChar (h : Chunks w aux) (short : aux.buf.length < 64) (c : UInt8) :
    Chunks (w ++ [c]) (addChar aux c) ∧ (Sinks.addChar aux c).buf.length < 64 := by
  have more : Chunks (w ++ [c]) { aux with buf := aux.buf ++ [c] } :=
    ⟨by rw [← h.whole, List.append_assoc], h.sizes⟩
  rw [Sinks.addChar]
  split_ifs with full
  · obtain ⟨chunks, empty⟩ := more.flush (by simpa using short)
    exact ⟨⟨chunks.whole, chunks.sizes⟩, by simp [empty]⟩
  · exact ⟨⟨more.whole, more.sizes⟩, Nat.not_le.mp full⟩

theorem foldl_addChar (handle : BitVec 32) (w : List UInt8) :
    let aux := w.foldl addChar { buf := [], charCnt := 0, handle := handle, writes := [] }
    Chunks w aux ∧ aux.buf.length < 64 ∧ aux.charCnt = BitVec.ofNat 32 w.length := by
  induction w using List.reverseRecOn with
  | nil => exact ⟨⟨rfl, by simp⟩, by simp, rfl⟩
  | append_singleton w c ih =>
    obtain ⟨chunks, short, count⟩ := ih
    rw [List.foldl_append]
    obtain ⟨chunks', short'⟩ := chunks.addChar short c
    refine ⟨chunks', short', ?_⟩
    rw [List.foldl_cons, List.foldl_nil, List.length_append, BitVec.ofNat_add, ← count, addChar]
    split_ifs
    · exact congrArg (· + 1) (flush_charCnt _)
    · rfl

end Pintos.Sinks
