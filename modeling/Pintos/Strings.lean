import Pintos.ByteStore
import Pintos.Transition
import Mathlib.Data.List.TakeWhile

/-! `memmove`, `strchr` and `strtok_r` of `lib/string.c`. `memmove` works on all of memory;
the string that `strtok_r` takes apart is the list of the bytes of its array, and an access
outside of the list is `none`. -/

namespace Pintos.Strings
open ByteStore Transition
open List (append_assoc append_nil drop_drop drop_left forall_mem_cons length_append length_drop)

section Memmove

variable {m : Nat → UInt8} {dst src : Nat}

/-- `while (size-- > 0) *dst++ = *src++`, with the final `dst`. -/
def moveUp : Nat → (Nat → UInt8) → Nat → Nat → (Nat → UInt8) × Nat
  | 0, m, dst, _ => (m, dst)
  | size + 1, m, dst, src => moveUp size (splice m dst [m src]) (dst + 1) (src + 1)

/-- `while (size-- > 0) *--dst = *--src`, with the final `dst`. -/
def moveDown : Nat → (Nat → UInt8) → Nat → Nat → (Nat → UInt8) × Nat
  | 0, m, dst, _ => (m, dst)
  | size + 1, m, dst, src =>
    moveDown size (splice m (dst - 1) [m (src - 1)]) (dst - 1) (src - 1)

/-- The memory after the call and the pointer returned. A null pointer fails an assertion. -/
def memmove (m : Nat → UInt8) (dst src size : Nat) : Option ((Nat → UInt8) × Nat) :=
  if (dst = 0 ∨ src = 0) ∧ size ≠ 0 then none
  else if dst < src then some (moveUp size m dst src)
  else some (moveDown size m (dst + size) (src + size))

theorem moveUp_eq (size : Nat) (lt : dst < src) :
    moveUp size m dst src = (splice m dst (slice m src size), dst + size) := by
  induction size generalizing m dst src with
  | zero => simp [moveUp]
  | succ size ih =>
    have ahead : slice (splice m dst [m src]) (src + 1) size = slice m (src + 1) size :=
      slice_splice_of_disjoint _ _ _ _ _ (.inr (by simp; omega))
    have first : slice m src (size + 1) = [m src] ++ slice m (src + 1) size := by
      rw [Nat.add_comm, slice_add]
      rfl
    rw [moveUp, ih (by omega), ahead, first, ← splice_append, Nat.add_right_comm]
    rfl

theorem moveDown_eq (size : Nat) (le : src ≤ dst) :
    moveDown size m (dst + size) (src + size) = (splice m dst (slice m src size), dst) := by
  induction size generalizing m with
  | zero => simp [moveDown]
  | succ size ih =>
    have behind : slice (splice m (dst + size) [m (src + size)]) src size = slice m src size :=
      slice_splice_of_disjoint _ _ _ _ _ (.inl (by omega))
    have last : slice m src (size + 1) = slice m src size ++ [m (src + size)] := slice_add ..
    have step := splice_prepend m dst (slice m src size) [m (src + size)]
    rw [slice_length] at step
    rw [moveDown, Nat.add_succ_sub_one, Nat.add_succ_sub_one, ih, behind, last, step]

end Memmove

section Runs

variable {α : Type} {p : α → Bool}

/-- The maximal parts of a list without an element of `p`. -/
def runs (p : α → Bool) (l : List α) : List (List α) := (l.splitOnP p).filter (· ≠ [])

theorem exists_run (p : α → Bool) (l : List α) : ∃ front, (∀ x ∈ front, p x = true) ∧
    (l = front ∨ ∃ d rest, p d = false ∧ l = front ++ d :: rest) := by
  induction l with
  | nil => exact ⟨[], by simp, .inl rfl⟩
  | cons a l ih =>
    by_cases h : p a = true
    · obtain ⟨front, all, rfl | ⟨d, rest, stop, rfl⟩⟩ := ih
      · exact ⟨a :: l, forall_mem_cons.mpr ⟨h, all⟩, .inl rfl⟩
      · exact ⟨a :: front, forall_mem_cons.mpr ⟨h, all⟩, .inr ⟨d, rest, stop, rfl⟩⟩
    · exact ⟨[], by simp, .inr ⟨a, l, by simpa using h, rfl⟩⟩

theorem takeWhile_run {l r : List α} (all : ∀ x ∈ l, p x = true)
    (stop : ∀ d ∈ r.head?, p d = false) : (l ++ r).takeWhile p = l := by
  rw [List.takeWhile_append_of_pos all]
  cases r with
  | nil => simp
  | cons d r => simp [stop d rfl]

theorem dropWhile_run {l r : List α} (all : ∀ x ∈ l, p x = true)
    (stop : ∀ d ∈ r.head?, p d = false) : (l ++ r).dropWhile p = r := by
  rw [List.dropWhile_append_of_pos all]
  cases r with
  | nil => rfl
  | cons d r => simp [stop d rfl]

theorem runs_append {l : List α} (all : ∀ x ∈ l, p x = true) (rest : List α) :
    runs p (l ++ rest) = runs p rest := by
  induction l with
  | nil => rfl
  | cons a l ih =>
    obtain ⟨first, later⟩ := forall_mem_cons.mp all
    rw [← ih later, runs, List.cons_append, List.splitOnP_cons_eq_if_modifyHead, if_pos first,
      List.filter_cons_of_neg (by simp), runs]

theorem runs_cons {t rest : List α} {d : α} (some : t ≠ []) (off : ∀ a ∈ t, p a = false)
    (stop : p d = true) : runs p (t ++ d :: rest) = t :: runs p rest := by
  rw [runs, List.splitOnP_append_cons_of_forall_mem off d stop, List.filter_cons_of_pos (by simpa)]
  rfl

theorem runs_last {t : List α} (some : t ≠ []) (off : ∀ a ∈ t, p a = false) : runs p t = [t] := by
  rw [runs, List.splitOnP_eq_singleton off, List.filter_cons_of_pos (by simpa)]
  rfl

end Runs

section Strtok

/-- `strchr` in a string without null bytes: a null byte is found at its end. -/
def strchr : List UInt8 → UInt8 → Option Nat
  | [], c => if c = 0 then some 0 else none
  | d :: string, c => if d = c then some 0 else (strchr string c).map (· + 1)

def skipDelimiters (delimiters buffer : List UInt8) : Nat → Nat → Option (Nat × Bool)
  | 0, _ => none
  | fuel + 1, s => do
    let c ← buffer[s]?
    if (strchr delimiters c).isSome then
      if c = 0 then return (s, true) else skipDelimiters delimiters buffer fuel (s + 1)
    else return (s, false)

def skipToken (delimiters buffer : List UInt8) : Nat → Nat → Option Nat
  | 0, _ => none
  | fuel + 1, s => do
    let c ← buffer[s]?
    if (strchr delimiters c).isNone then skipToken delimiters buffer fuel (s + 1) else return s

/-- The token found, the bytes after the call, and the position saved. -/
def strtokR (delimiters buffer : List UInt8) (s : Nat) : Option (Option Nat × List UInt8 × Nat) := do
  let (token, ended) ← skipDelimiters delimiters buffer (buffer.length + 1) s
  if ended then return (none, buffer, token)
  let s ← skipToken delimiters buffer (buffer.length + 1) token
  let c ← buffer[s]?
  if c ≠ 0 then return (some token, buffer.set s 0, s + 1) else return (some token, buffer, s)

variable {D l : List UInt8} {c : UInt8} {fuel : Nat}

theorem strchr_isSome : (strchr D c).isSome = (D.contains c || c == 0) := by
  induction D with
  | nil => by_cases zero : c = 0 <;> simp [strchr, zero]
  | cons d D ih =>
    by_cases same : d = c
    · simp [strchr, same]
    · simp [strchr, same, ih, Ne.symm same]

theorem strchr_isNone : (strchr D c).isNone = (!D.contains c && c != 0) := by
  rw [← Option.not_isSome, strchr_isSome, Bool.not_or]
  rfl

theorem getElem?_front (before after : List UInt8) (x : UInt8) :
    (before ++ x :: after)[before.length]? = some x := by simp

theorem skipDelimiters_eq (before after : List UInt8) (all : ∀ x ∈ l, x ∈ D ∧ x ≠ 0)
    (stop : c ∉ D) (enough : l.length < fuel) :
    skipDelimiters D (before ++ (l ++ c :: after)) fuel before.length =
      some (before.length + l.length, c == 0) := by
  induction l generalizing before fuel with
  | nil =>
    cases fuel with
    | zero => cases enough
    | succ fuel => by_cases zero : c = 0 <;> simp [skipDelimiters, strchr_isSome, stop, zero]
  | cons x l ih =>
    cases fuel with
    | zero => cases enough
    | succ fuel =>
      obtain ⟨here, later⟩ := forall_mem_cons.mp all
      have rest := ih (before ++ [x]) later (Nat.lt_of_succ_lt_succ enough)
      rw [append_assoc, length_append] at rest
      simpa [skipDelimiters, getElem?_front, strchr_isSome, here, Nat.add_assoc, Nat.add_comm 1]
        using rest

theorem skipToken_eq (before after : List UInt8) (all : ∀ x ∈ l, x ∉ D ∧ x ≠ 0)
    (stop : c ∈ D ∨ c = 0) (enough : l.length < fuel) :
    skipToken D (before ++ (l ++ c :: after)) fuel before.length =
      some (before.length + l.length) := by
  induction l generalizing before fuel with
  | nil =>
    cases fuel with
    | zero => cases enough
    | succ fuel => rcases stop with stop | rfl <;> simp [skipToken, strchr_isNone, *]
  | cons x l ih =>
    cases fuel with
    | zero => cases enough
    | succ fuel =>
      obtain ⟨here, later⟩ := forall_mem_cons.mp all
      have rest := ih (before ++ [x]) later (Nat.lt_of_succ_lt_succ enough)
      rw [append_assoc, length_append] at rest
      simpa [skipToken, getElem?_front, strchr_isNone, here, Nat.add_assoc, Nat.add_comm 1]
        using rest

theorem strtokR_none (null : 0 ∉ D) (before after : List UInt8) (all : ∀ x ∈ l, x ∈ D ∧ x ≠ 0) :
    strtokR D (before ++ (l ++ 0 :: after)) before.length =
      some (none, before ++ (l ++ 0 :: after), before.length + l.length) := by
  rw [strtokR, skipDelimiters_eq before after all null (by simp; omega)]
  rfl

theorem strtokR_some {t buffer : List UInt8} (before after : List UInt8)
    (all : ∀ x ∈ l, x ∈ D ∧ x ≠ 0) (some : t ≠ []) (off : ∀ x ∈ t, x ∉ D ∧ x ≠ 0)
    (stop : c ∈ D ∨ c = 0) (whole : before ++ (l ++ (t ++ c :: after)) = buffer) :
    strtokR D buffer before.length = .some (.some (before.length + l.length),
      if c = 0 then (buffer, before.length + l.length + t.length)
      else (buffer.set (before.length + l.length + t.length) 0,
        before.length + l.length + t.length + 1)) := by
  have atToken : buffer = (before ++ l) ++ (t ++ c :: after) := by simp [← whole]
  have atEnd : buffer = (before ++ l ++ t) ++ c :: after := by simp [← whole]
  have skip : skipDelimiters D buffer (buffer.length + 1) before.length =
      .some (before.length + l.length, false) := by
    obtain ⟨x, t, rfl⟩ := List.exists_cons_of_ne_nil some
    have first := off x List.mem_cons_self
    rw [← whole, List.cons_append, skipDelimiters_eq before _ all first.1 (by simp; omega)]
    simp [first.2]
  have token : skipToken D buffer (buffer.length + 1) (before.length + l.length) =
      .some (before.length + l.length + t.length) := by
    rw [← length_append, atToken]
    exact skipToken_eq _ after off stop (by simp; omega)
  have last : buffer[before.length + l.length + t.length]? = .some c := by
    rw [← length_append, ← length_append, atEnd]
    exact getElem?_front ..
  by_cases zero : c = 0 <;> simp [strtokR, skip, token, last, zero]

def string (buffer : List UInt8) (s : Nat) : List UInt8 := (buffer.drop s).takeWhile (· != 0)

/-- The first character at or after `s` that is no delimiter, and the end of the longest run
of such characters there. -/
def tokenAt (D line : List UInt8) (s : Nat) : Nat × Nat :=
  let start := s + ((line.drop s).takeWhile D.contains).length
  (start, start + ((line.drop start).takeWhile (!D.contains ·)).length)

theorem line_cases (D line : List UInt8) : ∃ l, (∀ x ∈ l, x ∈ D) ∧ (line = l ∨
    ∃ t rest, t ≠ [] ∧ (∀ x ∈ t, x ∉ D) ∧ (∀ d ∈ rest.head?, d ∈ D) ∧ line = l ++ (t ++ rest)) := by
  obtain ⟨l, all, rfl | ⟨x, rest, other, rfl⟩⟩ := exists_run D.contains line
  · exact ⟨line, by simpa using all, .inl rfl⟩
  refine ⟨l, by simpa using all, .inr ?_⟩
  obtain ⟨t, off, whole | ⟨d, after, stop, whole⟩⟩ := exists_run (!D.contains ·) (x :: rest)
  · exact ⟨t, [], whole ▸ List.cons_ne_nil x rest, by simpa using off, by simp, by simp [whole]⟩
  · refine ⟨t, d :: after, ?_, by simpa using off, by simpa using stop, by rw [whole]⟩
    rintro rfl
    cases whole
    simp_all

/-- The bytes from the saved position on are still those of the string. -/
structure Intact (line buffer : List UInt8) (s : Nat) : Prop where
  le : s ≤ line.length
  suffix : buffer.drop s = line.drop s ++ [0]

theorem Intact.later {line buffer : List UInt8} {s s' : Nat} (h : Intact line buffer s)
    (le : s ≤ s') (le' : s' ≤ line.length) : Intact line buffer s' := by
  obtain ⟨k, rfl⟩ := Nat.exists_eq_add_of_le le
  refine ⟨le', ?_⟩
  rw [← drop_drop, h.suffix, List.drop_append_of_le_length (by simp; omega), drop_drop]

theorem Intact.cut {line buffer : List UInt8} {s e : Nat} (h : Intact line buffer s) (lt : e < s) :
    Intact line (buffer.set e 0) s := by
  refine ⟨h.le, ?_⟩
  rw [List.drop_set_of_lt lt, h.suffix]

theorem Intact.strtokR {line buffer : List UInt8} {s : Nat} (h : Intact line buffer s)
    (text : 0 ∉ line) (null : 0 ∉ D) :
    ((∀ x ∈ line.drop s, x ∈ D) ∧ strtokR D buffer s = some (none, buffer, line.length)) ∨
    ∃ l t rest, (∀ x ∈ l, x ∈ D) ∧ t ≠ [] ∧ (∀ x ∈ t, x ∉ D) ∧ (∀ d ∈ rest.head?, d ∈ D) ∧
    line.drop s = l ++ (t ++ rest) ∧ ∃ next, strtokR D buffer s = some (some (s + l.length), next) ∧
    next = (if s + l.length + t.length < line.length then
          (buffer.set (s + l.length + t.length) 0, s + l.length + t.length + 1)
        else (buffer, line.length)) ∧ Intact line next.1 next.2 ∧ string next.1 (s + l.length) = t := by
  have le := h.le
  have whole : buffer.take s ++ (line.drop s ++ [0]) = buffer := by
    rw [← h.suffix, List.take_append_drop]
  have length : (buffer.take s).length = s := by
    have := congrArg List.length h.suffix
    simp at this ⊢
    omega
  have left : (line.drop s).length = line.length - s := length_drop
  have own : ∀ x ∈ line.drop s, x ≠ 0 := fun x mem zero => text (zero ▸ List.mem_of_mem_drop mem)
  obtain ⟨l, all, rfl | ⟨t, rest, some, off, stop, shape⟩⟩ := line_cases D (line.drop s)
  · have token := strtokR_none null (buffer.take s) [] fun x mem => ⟨all x mem, own x mem⟩
    rw [whole, length, left, Nat.add_sub_cancel' le] at token
    exact .inl ⟨all, token⟩
  refine .inr ⟨l, t, rest, all, some, off, stop, shape, ?_⟩
  have front : buffer.drop (s + l.length) = t ++ (rest ++ [0]) := by
    rw [← drop_drop, h.suffix, shape, append_assoc, drop_left, append_assoc]
  rw [shape] at whole left own
  rw [length_append, length_append] at left
  simp only [List.mem_append] at own
  have solid : ∀ x ∈ t, (x != 0) = true := fun x mem => by simpa using own x (.inr (.inl mem))
  have spec := fun c after stop (whole : _ = buffer) => strtokR_some (c := c) (buffer.take s)
    after (fun x mem => ⟨all x mem, own x (.inl mem)⟩) some
    (fun x mem => ⟨off x mem, own x (.inr (.inl mem))⟩) stop whole
  rw [length] at spec
  cases rest with
  | nil =>
    rw [List.length_nil] at left
    have ended : s + l.length + t.length = line.length := by omega
    refine ⟨_, spec 0 [] (.inr rfl) (by simpa using whole), ?_, ?_, ?_⟩
    · rw [if_pos rfl, if_neg (by omega), ended]
    · rw [if_pos rfl, ended]
      exact h.later le le_rfl
    · rw [if_pos rfl, string, front]
      exact takeWhile_run solid (by simp)
  | cons d rest =>
    rw [List.length_cons] at left
    have other := own d (by simp)
    refine ⟨_, spec d (rest ++ [0]) (.inl (stop d rfl)) (by simpa using whole), ?_, ?_, ?_⟩
    · rw [if_neg other, if_pos (by omega)]
    · rw [if_neg other]
      exact (h.later (by omega) (by omega)).cut (Nat.lt_succ_self _)
    · rw [if_neg other, string, List.drop_set, if_neg (by omega), Nat.add_sub_cancel_left, front]
      have cut : (t ++ (d :: rest ++ [0])).set t.length 0 = t ++ 0 :: (rest ++ [0]) := by simp
      rw [cut]
      exact takeWhile_run solid (by simp)

/-- `for (token = strtok_r (s, ..); token != NULL; token = strtok_r (NULL, ..))`, with the
tokens as strings. -/
def tokenLoop (D : List UInt8) : Nat → List UInt8 → Nat → Option (List (List UInt8))
  | 0, _, _ => none
  | fuel + 1, buffer, s => do
    let (token, buffer, s) ← strtokR D buffer s
    match token with
    | none => return []
    | some token => return string buffer token :: (← tokenLoop D fuel buffer s)

theorem Intact.tokenLoop {line buffer : List UInt8} {s : Nat} (h : Intact line buffer s)
    (text : 0 ∉ line) (null : 0 ∉ D) (enough : line.length - s < fuel) :
    tokenLoop D fuel buffer s = some (runs D.contains (line.drop s)) := by
  induction fuel generalizing buffer s with
  | zero => cases enough
  | succ fuel ih =>
    have left : (line.drop s).length = line.length - s := length_drop
    rcases h.strtokR text null with ⟨all, run⟩ |
      ⟨l, t, rest, all, some, off, stop, shape, next, run, moved, intact, token⟩
    · have none := runs_append (p := D.contains) (by simpa using all) []
      rw [append_nil] at none
      rw [Strings.tokenLoop, run, none]
      rfl
    have positive := List.length_pos_iff.mpr some
    rw [shape, length_append, length_append] at left
    have ahead : line.drop next.2 = rest.tail ∧ line.length - next.2 < fuel := by
      have behind : line.drop (s + l.length + t.length) = rest := by
        rw [← drop_drop, ← drop_drop, shape, drop_left, drop_left]
      cases rest with
      | nil =>
        rw [moved, if_neg (by simp only [List.length_nil] at left; omega), List.drop_length]
        exact ⟨rfl, by omega⟩
      | cons d rest =>
        rw [List.length_cons] at left
        rw [moved, if_pos (by omega), ← drop_drop, behind]
        exact ⟨rfl, by omega⟩
    have found : runs D.contains (t ++ rest) = t :: runs D.contains rest.tail := by
      cases rest with
      | nil =>
        rw [append_nil]
        exact runs_last some (by simpa using off)
      | cons d rest => exact runs_cons some (by simpa using off) (by simpa using stop)
    rw [shape, runs_append (by simpa using all), found, ← ahead.1]
    simp [Strings.tokenLoop, run, ih intact ahead.2, token]

/-- A call with the delimiters `D`, seen from the bytes and the position saved. -/
def call (state : List UInt8 × Nat) (D : List UInt8) : Option (List UInt8 × Nat) :=
  (strtokR D state.1 state.2).map Prod.snd

theorem tokenAt_eq {line t rest : List UInt8} {s : Nat} (all : ∀ x ∈ l, x ∈ D) (some : t ≠ [])
    (off : ∀ x ∈ t, x ∉ D) (stop : ∀ d ∈ rest.head?, d ∈ D) (shape : line.drop s = l ++ (t ++ rest)) :
    tokenAt D line s = (s + l.length, s + l.length + t.length) := by
  have skipped : (line.drop s).takeWhile D.contains = l := by
    rw [shape]
    refine takeWhile_run (by simpa using all) ?_
    obtain ⟨x, t, rfl⟩ := List.exists_cons_of_ne_nil some
    simpa using off x List.mem_cons_self
  have there : (line.drop (s + l.length)).takeWhile (!D.contains ·) = t := by
    rw [← drop_drop, shape, drop_left]
    exact takeWhile_run (by simpa using off) (by simpa using stop)
  simp only [tokenAt, skipped, there]

/-- Every call, after any calls with other delimiters, returns the next token by the characters
of the original string, or null from there on; with one set of delimiters the tokens are the
runs without a delimiter. -/
theorem strtokR_delivers (line : List UInt8) (text : 0 ∉ line) :
    (∀ state, Reachable (line ++ [0], 0) call (fun _ D => 0 ∉ D) state → ∀ D, 0 ∉ D →
      ∃ start stop, tokenAt D line state.2 = (start, stop) ∧
      ((start = line.length ∧ strtokR D state.1 state.2 = some (none, state.1, line.length) ∧
        ∀ D, 0 ∉ D → strtokR D state.1 line.length = some (none, state.1, line.length)) ∨
      (start < stop ∧ stop ≤ line.length ∧ (∀ d ∈ (line)[stop]?, d ∈ D) ∧
        ∃ buffer s, strtokR D state.1 state.2 = some (some start, buffer, s) ∧
          (buffer, s) = (if stop < line.length then (state.1.set stop 0, stop + 1)
            else (state.1, line.length)) ∧
          string buffer start = (line.drop start).take (stop - start)))) ∧
    ∀ D, 0 ∉ D → tokenLoop D (line.length + 1) (line ++ [0]) 0 =
      some ((line.splitOnP D.contains).filter (· ≠ [])) := by
  have first : Intact line (line ++ [0]) 0 := ⟨Nat.zero_le _, rfl⟩
  refine ⟨fun state reached D null => ?_, fun D null => first.tokenLoop text null (by omega)⟩
  have intact : Intact line state.1 state.2 := by
    refine reached.invariant (P := fun state => Intact line state.1 state.2) first ?_
    intro state D next intact null run
    rcases intact.strtokR text null with ⟨-, ran⟩ | ⟨_, _, _, -, -, -, -, -, _, ran, -, later, -⟩
    · rw [call, ran] at run
      cases run
      exact intact.later intact.le le_rfl
    · rw [call, ran] at run
      cases run
      exact later
  have left : (line.drop state.2).length = line.length - state.2 := length_drop
  have le := intact.le
  rcases intact.strtokR text null with ⟨all, run⟩ |
    ⟨l, t, rest, all, some, off, stop, shape, next, run, moved, -, token⟩
  · have skipped := takeWhile_run (p := D.contains) (r := []) (by simpa using all) (by simp)
    rw [append_nil] at skipped
    refine ⟨_, _, rfl, .inl ⟨by rw [skipped]; omega, run, fun D null => ?_⟩⟩
    rcases (intact.later le le_rfl).strtokR text null with ⟨-, run⟩ | ⟨l, t, _, -, some, -, -, shape, -⟩
    · exact run
    · simp [some] at shape
  have positive := List.length_pos_iff.mpr some
  have ahead : line.drop (state.2 + l.length) = t ++ rest := by
    rw [← drop_drop, shape, drop_left]
  rw [shape, length_append, length_append] at left
  refine ⟨_, _, tokenAt_eq all some off stop shape, .inr ⟨by omega, by omega, ?_, next.1, next.2,
    run, moved, ?_⟩⟩
  · rwa [← List.head?_drop, ← drop_drop, ahead, drop_left]
  · rw [token, ahead, Nat.add_sub_cancel_left, List.take_left]

theorem strtokR_delivers_comma :
    tokenLoop [44] 4 [97, 44, 98, 0] 0 = some [[97], [98]] ∧
      strtokR [44] [97, 44, 98, 0] 0 = some (some 0, [97, 0, 98, 0], 2) := by
  have spec := strtokR_delivers [97, 44, 98] (by decide)
  obtain ⟨start, stop, place, ended | ⟨-, -, -, buffer, s, run, moved, -⟩⟩ :=
    spec.1 _ .start [44] (by decide)
  · cases place
    exact absurd ended.1 (by decide)
  · cases place
    cases moved
    exact ⟨spec.2 [44] (by decide), run⟩

end Strtok

end Pintos.Strings
