import Pintos.Process
import Pintos.Strings
import Mathlib.Algebra.Order.BigOperators.Group.List
import Mathlib.Data.List.TakeWhile

/-! The tokens of a command line. It is cut with `strtok_r` in `process_execute`, in
`start_process` and in `setup_stack_arguments`; the first two go on with the buffer that the
call has left, the last one with the token that it returns. -/

namespace Pintos.Tokens
open Stoppable Vaddr Palloc PageFault Process
open Strings hiding strtokR

/-- The runs of a line without a blank. -/
def tokens (line : List UInt8) : List (List UInt8) := (line.splitOn blank).filter (· ≠ [])

theorem strtokR_cases (line : List UInt8) :
    ((∀ x ∈ line, x ∈ [blank]) ∧ strtokR line = none ∧ tokens line = []) ∨
    ∃ l t rest, (∀ x ∈ l, x ∈ [blank]) ∧ t ≠ [] ∧ (∀ x ∈ t, x ∉ [blank]) ∧
    (∀ d ∈ rest.head?, d ∈ [blank]) ∧ line = l ++ (t ++ rest) ∧ strtokR line = some (t, rest.tail) ∧
    cutToken line = l ++ t ∧ tokens line = t :: tokens rest.tail := by
  have skip : ∀ l rest, (∀ x ∈ l, x ∈ [blank]) → tokens (l ++ rest) = tokens rest :=
    fun l rest all => runs_append (p := (· == blank)) (by simpa using all) rest
  obtain ⟨l, all, rfl | ⟨t, rest, some, off, stop, rfl⟩⟩ := line_cases [blank] line
  · have dropped := dropWhile_run (p := (· == blank)) (r := []) (by simpa using all) (by simp)
    have none := skip line [] all
    rw [List.append_nil] at dropped none
    exact .inl ⟨all, by rw [strtokR, dropped], none⟩
  obtain ⟨c, t, rfl⟩ := List.exists_cons_of_ne_nil some
  have head : ∀ d ∈ (c :: t ++ rest).head?, (d == blank) = false := by
    simpa using off c List.mem_cons_self
  have dropped := dropWhile_run (p := (· == blank)) (by simpa using all) head
  have taken := takeWhile_run (p := (· == blank)) (by simpa using all) head
  have token := takeWhile_run (p := (· != blank)) (l := c :: t) (r := rest)
    (by simpa using off) (by simpa using stop)
  have left := dropWhile_run (p := (· != blank)) (l := c :: t) (r := rest)
    (by simpa using off) (by simpa using stop)
  refine .inr ⟨l, c :: t, rest, all, some, off, stop, rfl, ?_, ?_, ?_⟩
  · rw [strtokR, dropped]
    exact congrArg Option.some (Prod.ext token (congrArg List.tail left))
  · rw [cutToken, taken, dropped, token]
  rw [skip _ _ all]
  cases rest with
  | nil =>
    rw [List.append_nil]
    exact runs_last (p := (· == blank)) some (by simpa using off)
  | cons d rest => exact runs_cons (p := (· == blank)) some (by simpa using off) (by simpa using stop)

theorem strtokR_tokens (s : List UInt8) : (strtokR s = none ∧ tokens s = []) ∨
    ∃ t rest, strtokR s = some (t, rest) ∧ tokens s = t :: tokens rest := by
  rcases strtokR_cases s with ⟨-, next, none⟩ | ⟨_, t, rest, -, -, -, -, -, next, -, tokens⟩
  · exact .inl ⟨next, none⟩
  · exact .inr ⟨t, rest.tail, next, tokens⟩

theorem parseArguments_eq (n : Nat) (s : List UInt8) :
    parseArguments n s = if (tokens s).length < n then some (tokens s) else none := by
  induction n generalizing s with
  | zero => rfl
  | succ n ih =>
    rcases strtokR_tokens s with ⟨last, none⟩ | ⟨t, rest, next, tokens⟩
    · rw [parseArguments, last, none]
      rfl
    · rw [parseArguments, next, tokens]
      simp only [ih, List.length_cons, Nat.add_lt_add_iff_right]
      split_ifs
      · rfl
      · rfl

theorem tokens_length (line : List UInt8) :
    ((tokens line).map fun t => t.length + 1).sum ≤ line.length + 1 := by
  have whole : ((line.splitOn blank).map fun t => t.length + 1).sum = line.length + 1 := by
    induction line with
    | nil => rfl
    | cons c rest ih =>
      rw [List.splitOn_cons_eq_if_modifyHead]
      split_ifs
      · rw [List.map_cons, List.sum_cons, ih, List.length_nil, List.length_cons]
        omega
      cases split : rest.splitOn blank with
      | nil => exact absurd split (List.splitOnP_ne_nil _ _)
      | cons t ts =>
        rw [split, List.map_cons, List.sum_cons] at ih
        rw [List.modifyHead_cons, List.map_cons, List.sum_cons, List.length_cons, List.length_cons]
        omega
  rw [← whole]
  exact (List.filter_sublist.map _).sum_le_sum fun _ _ => Nat.zero_le _

variable {line : List UInt8}

theorem string_append {l : List UInt8} (text : ∀ c ∈ l, c ≠ 0) (before rest : List UInt8) :
    string (before ++ (l ++ 0 :: rest)) before.length = l := by
  rw [string, List.drop_left]
  exact takeWhile_run (by simpa using text) (by simp)

/-- What the call leaves in the buffer: the token is at its position, the tokens left are at
the position saved, and at the position of the call the string goes on up to the end of the
token. -/
theorem strtok_spec {line : List UInt8} (text : ∀ c ∈ line, c ≠ 0) (before after : List UInt8) :
    (strtokR line = none ∧ ∃ save, Strings.strtokR [blank] (before ++ (line ++ 0 :: after))
      before.length = some (none, before ++ (line ++ 0 :: after), save)) ∨
    ∃ t rest p buffer save, strtokR line = some (t, rest) ∧
      Strings.strtokR [blank] (before ++ (line ++ 0 :: after)) before.length =
        some (some p, buffer, save) ∧
      string buffer p = t ∧ string buffer save = rest ∧
      string buffer before.length = cutToken line := by
  rcases strtokR_cases line with ⟨all, next, -⟩ | ⟨l, t, rest, all, some, off, stop, rfl, next, cut, -⟩
  · exact .inl ⟨next, _, strtokR_none (by decide) before after fun x mem => ⟨all x mem, text x mem⟩⟩
  simp only [List.mem_append] at text
  have call := fun c after stop => strtokR_some (c := c) (D := [blank]) before after
    (fun x mem => ⟨all x mem, text x (.inl mem)⟩) some
    (fun x mem => ⟨off x mem, text x (.inr (.inl mem))⟩) stop rfl
  have leading : ∀ c ∈ l ++ t, c ≠ 0 := fun c mem => text c ((List.mem_append.mp mem).imp id .inl)
  have token : ∀ c ∈ t, c ≠ 0 := fun c mem => text c (.inr (.inl mem))
  have shown : ∀ after, string (before ++ (l ++ (t ++ 0 :: after))) (before.length + l.length) = t ∧
      string (before ++ (l ++ (t ++ 0 :: after))) before.length = l ++ t := fun after => by
    have found := string_append token (before ++ l) after
    have whole := string_append leading before after
    simp only [List.append_assoc, List.length_append] at found whole
    exact ⟨found, whole⟩
  rw [cut]
  refine .inr ⟨t, rest.tail, before.length + l.length, ?_⟩
  cases rest with
  | nil =>
    have run := call 0 after (.inr rfl)
    have ended := string_append (l := []) (by simp) (before ++ (l ++ t)) after
    simp only [List.append_assoc, List.length_append, List.nil_append] at run ended ⊢
    refine ⟨_, _, next, run, (shown after).1, ?_, (shown after).2⟩
    rw [Nat.add_assoc]
    exact ended
  | cons d rest =>
    have other : d ≠ 0 := text d (.inr (.inr List.mem_cons_self))
    have run := call d (rest ++ 0 :: after) (.inl (stop d rfl))
    have behind := string_append (l := rest)
      (fun c mem => text c (.inr (.inr (List.mem_cons_of_mem d mem))))
      (before ++ (l ++ (t ++ [0]))) after
    have set : (before ++ (l ++ (t ++ d :: (rest ++ 0 :: after)))).set
        (before.length + l.length + t.length) 0 =
        before ++ (l ++ (t ++ 0 :: (rest ++ 0 :: after))) := by
      rw [← List.append_assoc, ← List.append_assoc, ← List.length_append, ← List.length_append]
      simp
    rw [if_neg other, set] at run
    refine ⟨_, _, next, by simpa using run, (shown _).1, ?_, (shown _).2⟩
    simpa [Nat.add_assoc] using behind

theorem strtok_spec_letter : ∃ p buffer save, Strings.strtokR [blank] [32, 97, 0] 0 =
    some (some p, buffer, save) ∧ string buffer p = [97] := by
  rcases strtok_spec (show ∀ c ∈ [32, 97], c ≠ 0 by simp) [] [] with
    ⟨none, -⟩ | ⟨t, _, p, buffer, save, next, run, token, -⟩
  · exact absurd none (by decide)
  · cases next
    exact ⟨p, buffer, save, run, token⟩

/-- The name that `start_process` passes to `load`. -/
def loadName (child : Child) : List UInt8 := cutToken (child.cmdLine.take (pgsize - 1))

/-- The arguments that `setup_stack_arguments` pushes for the child, if they fit. -/
def arguments (child : Child) : Option (List (List UInt8)) :=
  parseArguments maxArguments (child.cmdLine.take (pgsize - 1))

theorem startProcess_loadName (files : List UInt8 → Option Loader.OpenFile) (child : Child)
    (s : Machine) : (startProcess files child).run s =
      (startProcess (fun _ => files (loadName child)) child).run s := by
  rw [startProcess, startProcess]
  rcases page : (paging (Pagedir.alloc (pallocGetPage { assert := true, zero := true, user := true }))).run s
    with ⟨e | p, s'⟩
  · rw [Exec.run_bind_error page, Exec.run_bind_error page]
  · rw [Exec.run_bind_ok page, Exec.run_bind_ok page]
    cases p with
    | none => rfl
    | some fnCopy => rfl

theorem processExecute_child {m m' : Mem} {child : Child}
    (created : (processExecute line).run m = (.ok (some child), m')) :
    child.cmdLine = line.take (pgsize - 1) ∧ child.name = (cutToken line).take 15 := by
  obtain ⟨page, m1, -, created⟩ := Exec.run_bind_iff.mp created
  cases page with
  | none => cases created
  | some fnCopy =>
    obtain ⟨copy, m2, copied, created⟩ := Exec.run_bind_iff.mp created
    cases copied
    obtain ⟨thread, m3, made, created⟩ := Exec.run_bind_iff.mp created
    obtain ⟨page, m4, -, made⟩ := Exec.run_bind_iff.mp made
    cases page with
    | none =>
      cases made
      obtain ⟨_, m5, -, created⟩ := Exec.run_bind_iff.mp created
      cases created
    | some t =>
      cases made
      cases created
      exact ⟨rfl, rfl⟩

theorem cutToken_flush (flush : line.head? ≠ some blank) :
    cutToken line = line.takeWhile (· != blank) := by
  cases line with
  | nil => rfl
  | cons c rest =>
    have other : ¬ (c == blank) = true := by simpa using flush
    rw [cutToken, List.takeWhile_cons_of_neg (p := (· == blank)) other,
      List.dropWhile_cons_of_neg (p := (· == blank)) other, List.nil_append]

theorem tokens_flush (some : line ≠ []) (flush : line.head? ≠ .some blank) :
    (tokens line).head? = .some (cutToken line) := by
  obtain ⟨c, rest, rfl⟩ := List.exists_cons_of_ne_nil some
  have other : ¬ (c == blank) = true := by simpa using flush
  have first : strtokR (c :: rest) = .some ((c :: rest).takeWhile (· != blank),
      ((c :: rest).dropWhile (· != blank)).tail) := by
    rw [strtokR, List.dropWhile_cons_of_neg (p := (· == blank)) other]
  rcases strtokR_tokens (c :: rest) with ⟨none, -⟩ | ⟨t, left, next, tokens⟩
  · rw [first] at none
    cases none
  · rw [first] at next
    cases next
    rw [tokens, cutToken_flush flush, List.head?_cons]

end Pintos.Tokens
