import Pintos.UserMemory

/-! `syscall_handler` of `userprog/syscall.c`, up to the call of the function that serves the
request. The words at the user's stack pointer are read as the kernel reads its own memory;
before that, one byte of each of them is checked. -/

namespace Pintos.Syscall
open Stoppable Vaddr Palloc Pagedir PageFault Demand UserMemory
open Exec (Moves)

inductive Request where
  | halt
  | exit (status : BitVec 32)
  | exec (cmdLine : BitVec 32)
  | wait (pid : BitVec 32)
  | create (file initialSize : BitVec 32)
  | remove (file : BitVec 32)
  | openFile (file : BitVec 32)
  | filesize (fd : BitVec 32)
  | read (fd buffer size : BitVec 32)
  | write (fd buffer size : BitVec 32)
  | seek (fd position : BitVec 32)
  | tell (fd : BitVec 32)
  | close (fd : BitVec 32)
  deriving DecidableEq

def arg (args : BitVec 32) (k : Nat) : BitVec 32 := args + BitVec.ofNat 32 (4 * k)

/-- `args[k]`; the bytes of a word are fetched one by one. -/
def argument (args : BitVec 32) (k : Nat) : Cpu (BitVec 32) := do
  let b₀ ← direct .argument (arg args k) none
  let b₁ ← direct .argument (arg args k + 1) none
  let b₂ ← direct .argument (arg args k + 2) none
  let b₃ ← direct .argument (arg args k + 3) none
  pure (b₀ + b₁ <<< 8 + b₂ <<< 16 + b₃ <<< 24)

def checkArguments (args : BitVec 32) : List Nat → Cpu Unit
  | [] => pure ()
  | k :: ks => do
    checkValidPtr (arg args k)
    checkArguments args ks

/-- The first statements of `syscall_handler`. -/
def syscallNumber (args : BitVec 32) : Cpu (BitVec 32) := do
  checkValidPtr args
  argument args 0

def checkPath (args : BitVec 32) : Cpu Unit := do
  let path ← argument args 1
  checkValidString path

def checkTransfer (args : BitVec 32) : Cpu Unit := do
  let buffer ← argument args 2
  let size ← argument args 3
  checkValidBuffer buffer size

def dispatch (args number : BitVec 32) : Cpu Request :=
  match number.toNat with
  | 0 => pure .halt
  | 1 => do
    checkArguments args [1]
    return .exit (← argument args 1)
  | 2 => do
    checkArguments args [1]
    checkPath args
    return .exec (← argument args 1)
  | 3 => do
    checkArguments args [1]
    return .wait (← argument args 1)
  | 4 => do
    checkArguments args [1, 2]
    checkPath args
    return .create (← argument args 1) (← argument args 2)
  | 5 => do
    checkArguments args [1]
    checkPath args
    return .remove (← argument args 1)
  | 6 => do
    checkArguments args [1]
    checkPath args
    return .openFile (← argument args 1)
  | 7 => do
    checkArguments args [1]
    return .filesize (← argument args 1)
  | 8 => do
    checkArguments args [1, 2, 3]
    checkTransfer args
    return .read (← argument args 1) (← argument args 2) (← argument args 3)
  | 9 => do
    checkArguments args [1, 2, 3]
    checkTransfer args
    return .write (← argument args 1) (← argument args 2) (← argument args 3)
  | 10 => do
    checkArguments args [1, 2]
    return .seek (← argument args 1) (← argument args 2)
  | 11 => do
    checkArguments args [1]
    return .tell (← argument args 1)
  | 12 => do
    checkArguments args [1]
    return .close (← argument args 1)
  | _ => sysExit

def syscallHandler (esp : BitVec 32) : Cpu Request := do
  let number ← syscallNumber esp
  dispatch esp number

def argc (number : BitVec 32) : Nat := [0, 1, 1, 1, 2, 1, 1, 1, 3, 3, 2, 1, 1].getD number.toNat 0

theorem argc_le (number : BitVec 32) : argc number ≤ 3 := by
  rw [argc]
  match number.toNat with
  | 0 | 1 | 2 | 3 | 4 | 5 | 6 | 7 | 8 | 9 | 10 | 11 | 12 => decide
  | n + 13 => exact Nat.zero_le 3

variable {α β : Type} {s s' s'' : Machine} {va esp : BitVec 32} {k : Nat}

/-- No argument was read from the kernel since `s`. -/
def ArgumentsInUser (s s' : Machine) : Prop :=
  ∃ new, s'.touched = new ++ s.touched ∧ ∀ e ∈ new, e.1 = .argument → isUserVaddr e.2 = true

theorem ArgumentsInUser.refl (s : Machine) : ArgumentsInUser s s := ⟨[], rfl, by simp⟩

theorem ArgumentsInUser.trans (h : ArgumentsInUser s s') (h' : ArgumentsInUser s' s'') :
    ArgumentsInUser s s'' := by
  obtain ⟨new, log, user⟩ := h
  obtain ⟨new', log', user'⟩ := h'
  refine ⟨new' ++ new, by rw [log', log, List.append_assoc], fun e mem => ?_⟩
  exact (List.mem_append.mp mem).elim (user' e) (user e)

instance : IsPreorder Machine ArgumentsInUser where
  refl := ArgumentsInUser.refl
  trans _ _ _ := ArgumentsInUser.trans

theorem Accessed.touched {kind : Kind} {w : Option UInt8} {eip eax : BitVec 32}
    {r : Except Stop (BitVec 32) × Machine} (h : Accessed false (s.log kind va) va w eip eax r) :
    r.2.touched = (kind, va) :: s.touched := by
  have performed : ∀ (s' : Machine) a, (perform s' a w eax).2.touched = s'.touched := by
    intro s' a
    cases w <;> rfl
  cases h with
  | made hit => rw [performed]; rfl
  | brought addr brought hit =>
    rw [performed]
    cases brought
    rfl
  | lost fault same => rfl
  | panic dir => rfl

theorem getUser_arguments (va : BitVec 32) : Moves ArgumentsInUser (getUser va) := fun s =>
  ⟨[(.getUser, va)], Accessed.touched (getUser_spec s va), by simp⟩

theorem sysExit_arguments (α : Type) : Moves ArgumentsInUser (sysExit : Cpu α) := by
  refine .bind (fun s => ?_) fun _ => .stop _
  exact ⟨[], (processExit_pagedir s).2, by simp⟩

theorem direct_arguments (user : isUserVaddr va = true) (w : Option UInt8) :
    Moves ArgumentsInUser (direct .argument va w) := fun s =>
  ⟨[(.argument, va)], Accessed.touched (direct_spec .argument s va w), by simpa using user⟩

theorem checkValidPtr_arguments (ptr : BitVec 32) :
    Moves ArgumentsInUser (checkValidPtr ptr) :=
  checkValidPtr_moves getUser_arguments sysExit_arguments ptr

/-- All four bytes of `args[k]` are in user memory. -/
def InUser (args : BitVec 32) (k : Nat) : Prop :=
  ∀ i < 4, isUserVaddr (arg args k + BitVec.ofNat 32 i) = true

theorem argument_arguments (user : InUser esp k) : Moves ArgumentsInUser (argument esp k) := by
  have first : isUserVaddr (arg esp k) = true := by
    have user := user 0 (by omega)
    rwa [BitVec.add_zero] at user
  exact .bind (direct_arguments first none) fun _ =>
    .bind (direct_arguments (user 1 (by omega)) none) fun _ =>
    .bind (direct_arguments (user 2 (by omega)) none) fun _ =>
    .bind (direct_arguments (user 3 (by omega)) none) fun _ => .pure _

theorem moves_then {p : Prop} {x : Cpu α} {f : α → Cpu β} (first : Moves ArgumentsInUser x)
    (returns : ∀ {s a s'}, x.run s = (.ok a, s') → p)
    (next : p → ∀ a, Moves ArgumentsInUser (f a)) : Moves ArgumentsInUser (x >>= f) := by
  by_cases h : p
  · exact .bind first (next h)
  intro s
  rcases run : x.run s with ⟨e | a, s'⟩
  · rw [Exec.run_bind_error run]
    have moved := first s
    rwa [run] at moved
  · exact absurd (returns run) h

theorem checkArguments_arguments (ks : List Nat) :
    Moves ArgumentsInUser (checkArguments esp ks) := by
  induction ks with
  | nil => exact .pure _
  | cons k ks ih => exact .bind (checkValidPtr_arguments _) fun _ => ih

theorem checkArguments_user {ks : List Nat} (run : (checkArguments esp ks).run s = (.ok (), s')) :
    ∀ k ∈ ks, isUserVaddr (arg esp k) = true := by
  induction ks generalizing s with
  | nil => simp
  | cons k ks ih =>
    obtain ⟨_, s1, check, rest⟩ := Exec.run_bind_iff.mp run
    rw [List.forall_mem_cons]
    exact ⟨checkValidPtr_user check, ih rest⟩

/-- No word of the arguments lies across `PHYS_BASE`: the stack pointer is aligned, or it is not
among the last bytes of user memory. -/
def Fits (esp : BitVec 32) : Prop :=
  esp.toNat % 4 = 0 ∨ esp.toNat + 16 ≤ physBase.toNat ∨ physBase.toNat ≤ esp.toNat

theorem arg_toNat (user : isUserVaddr esp = true) (le : k ≤ 3) {i : Nat} (lt : i < 4) :
    (arg esp k + BitVec.ofNat 32 i).toNat = esp.toNat + 4 * k + i := by
  have below := (isUserVaddr_iff _).mp user
  have base : physBase.toNat = 3221225472 := rfl
  rw [arg, BitVec.toNat_add, BitVec.toNat_add, BitVec.toNat_ofNat, BitVec.toNat_ofNat]
  omega

theorem Fits.inUser (fits : Fits esp) (user : isUserVaddr esp = true) (le : k ≤ 3)
    (first : isUserVaddr (arg esp k) = true) : InUser esp k := by
  intro i lt
  have base : physBase.toNat = 3221225472 := rfl
  have below := (isUserVaddr_iff _).mp user
  have word := (isUserVaddr_iff _).mp first
  have start := arg_toNat user le (i := 0) (by omega)
  rw [BitVec.add_zero] at start
  rw [isUserVaddr_iff, arg_toNat user le lt]
  rcases fits with aligned | far | kernel <;> omega

section Dispatch

variable (fits : Fits esp) (user : isUserVaddr esp = true)
include fits user

theorem checked_then {ks : List Nat} (few : ∀ k ∈ ks, k ≤ 3) {f : Cpu α}
    (next : (∀ k ∈ ks, Moves ArgumentsInUser (argument esp k)) →
      Moves ArgumentsInUser f) :
    Moves ArgumentsInUser (checkArguments esp ks >>= fun _ => f) :=
  moves_then (checkArguments_arguments ks) (fun run => checkArguments_user run)
    fun first _ => next fun k mem =>
      argument_arguments (fits.inUser user (few k mem) (first k mem))

theorem one_then {f : Cpu α} (next : Moves ArgumentsInUser (argument esp 1) →
    Moves ArgumentsInUser f) : Moves ArgumentsInUser (checkArguments esp [1] >>= fun _ => f) :=
  checked_then fits user (by simp) fun words => next (words 1 (by simp))

omit fits user in
theorem checkPath_arguments (path : Moves ArgumentsInUser (argument esp 1)) :
    Moves ArgumentsInUser (checkPath esp) :=
  .bind path fun str => .bind (checkValidPtr_arguments str) fun _ => 
    scanString_moves getUser_arguments sysExit_arguments _ str

theorem dispatch_arguments (number : BitVec 32) :
    Moves ArgumentsInUser (dispatch esp number) := by
  have single : ∀ answer : BitVec 32 → Request, Moves ArgumentsInUser (do
      checkArguments esp [1]
      return answer (← argument esp 1)) := fun answer =>
    one_then fits user fun word => .bind word fun _ => .pure _
  have named : ∀ answer : BitVec 32 → Request, Moves ArgumentsInUser (do
      checkArguments esp [1]
      checkPath esp
      return answer (← argument esp 1)) := fun answer =>
    one_then fits user fun word => .bind (checkPath_arguments word) fun _ =>
      .bind word fun _ => .pure _
  have transfer : ∀ answer : BitVec 32 → BitVec 32 → BitVec 32 → Request,
      Moves ArgumentsInUser (do
        checkArguments esp [1, 2, 3]
        checkTransfer esp
        return answer (← argument esp 1) (← argument esp 2) (← argument esp 3)) := fun answer =>
    checked_then fits user (by simp) fun words =>
      .bind (.bind (words 2 (by simp)) fun _ => .bind (words 3 (by simp)) fun _ =>
        checkValidBuffer_moves getUser_arguments sysExit_arguments _ _) fun _ =>
      .bind (words 1 (by simp)) fun _ => .bind (words 2 (by simp)) fun _ =>
      .bind (words 3 (by simp)) fun _ => .pure _
  unfold dispatch
  split
  · exact .pure _
  · exact single .exit
  · exact named .exec
  · exact single .wait
  · exact checked_then fits user (by simp) fun words =>
      .bind (checkPath_arguments (words 1 (by simp))) fun _ =>
      .bind (words 1 (by simp)) fun _ => .bind (words 2 (by simp)) fun _ => .pure _
  · exact named .remove
  · exact named .openFile
  · exact single .filesize
  · exact transfer .read
  · exact transfer .write
  · exact checked_then fits user (by simp) fun words =>
      .bind (words 1 (by simp)) fun _ => .bind (words 2 (by simp)) fun _ => .pure _
  · exact single .tell
  · exact single .close
  · exact sysExit_arguments _

end Dispatch

theorem handler_arguments (fits : Fits esp) : Moves ArgumentsInUser (syscallHandler esp) := by
  have number : Moves ArgumentsInUser (syscallNumber esp) :=
    moves_then (checkValidPtr_arguments esp) (fun run => checkValidPtr_user run) fun user _ => by
      have first : isUserVaddr (arg esp 0) = true := by
        rw [arg, Nat.mul_zero, BitVec.add_zero]
        exact user
      exact argument_arguments (fits.inUser user (by omega) first)
  refine moves_then number (fun run => ?_) fun user number => dispatch_arguments fits user number
  obtain ⟨_, s1, check, -⟩ := Exec.run_bind_iff.mp run
  exact checkValidPtr_user check

/-- The process has been terminated by `sys_exit`, or there was no memory for a page that the
user has touched, and the kernel has panicked. -/
def Ended (r : Except Stop α × Machine) : Prop :=
  r.1 = .error .panic ∨ ∃ s, r = (sysExit : Cpu α).run s

theorem Ended.bind {x : Cpu α} {f : α → Cpu β} (h : Ended (x.run s)) : Ended ((x >>= f).run s) := by
  rcases h with panic | ⟨s1, exit⟩
  · rcases run : x.run s with ⟨e | a, s'⟩
    · rw [run] at panic
      rw [Exec.run_bind_error run]
      cases panic
      exact .inl rfl
    · rw [run] at panic
      cases panic
  · obtain ⟨e, s', stop⟩ := sysExit_run s1
    rw [stop] at exit
    rw [Exec.run_bind_error exit]
    exact .inr ⟨s1, (stop β).symm⟩

def ReturnsOrEnds (x : Cpu α) : Prop := ∀ s, (∃ a s', x.run s = (.ok a, s')) ∨ Ended (x.run s)

theorem ReturnsOrEnds.bind {x : Cpu α} {f : α → Cpu β} (hx : ReturnsOrEnds x)
    (hf : ∀ a, ReturnsOrEnds (f a)) : ReturnsOrEnds (x >>= f) := fun s => by
  rcases hx s with ⟨a, s', run⟩ | ended
  · rw [Exec.run_bind_ok run]
    exact hf a s'
  · exact .inr ended.bind

theorem ReturnsOrEnds.pure (a : α) : ReturnsOrEnds (pure a) := fun s => .inl ⟨a, s, rfl⟩

theorem sysExit_ends : ReturnsOrEnds (sysExit : Cpu α) := fun s => .inr (.inr ⟨s, rfl⟩)

theorem Accessed.returns {w : Option UInt8} {eip eax : BitVec 32}
    {r : Except Stop (BitVec 32) × Machine} (h : Accessed false s va w eip eax r) :
    (∃ a s', r = (.ok a, s')) ∨ Ended r := by
  have performed : ∀ (s' : Machine) a, ∃ b s'', perform s' a w eax = (.ok b, s'') := by
    intro s' a
    cases w <;> exact ⟨_, _, rfl⟩
  cases h with
  | made hit => exact .inl (performed _ _)
  | brought addr brought hit => exact .inl (performed _ _)
  | lost fault same => exact .inr (.inl rfl)
  | panic dir => exact .inr (.inl rfl)

theorem checkValidPtr_returns (ptr : BitVec 32) : ReturnsOrEnds (checkValidPtr ptr) := by
  unfold checkValidPtr
  split_ifs
  · exact sysExit_ends
  · refine .bind (fun s => Accessed.returns (getUser_spec s ptr)) fun byte => ?_
    split_ifs
    · exact sysExit_ends
    · exact .pure _

theorem checkArguments_returns (ks : List Nat) : ReturnsOrEnds (checkArguments esp ks) := by
  induction ks with
  | nil => exact .pure _
  | cons k ks ih => exact .bind (checkValidPtr_returns _) fun _ => ih

theorem checkArguments_ends {ks : List Nat} (mem : k ∈ ks)
    (kernel : isUserVaddr (arg esp k) = false) (s : Machine) :
    Ended ((checkArguments esp ks).run s) := by
  rcases checkArguments_returns ks s with ⟨_, s', run⟩ | ended
  · have user := checkArguments_user run k mem
    rw [kernel] at user
    cases user
  · exact ended

theorem dispatch_ends {number : BitVec 32} (pos : 0 < k) (needed : k ≤ argc number)
    (kernel : isUserVaddr (arg esp k) = false) (s : Machine) :
    Ended ((dispatch esp number).run s) := by
  have one : ∀ {f : Cpu Request}, k ≤ 1 → Ended ((checkArguments esp [1] >>= fun _ => f).run s) :=
    fun le => (checkArguments_ends (by simp; omega) kernel s).bind
  have two : ∀ {f : Cpu Request}, k ≤ 2 →
      Ended ((checkArguments esp [1, 2] >>= fun _ => f).run s) :=
    fun le => (checkArguments_ends (by simp; omega) kernel s).bind
  have three : ∀ {f : Cpu Request}, k ≤ 3 →
      Ended ((checkArguments esp [1, 2, 3] >>= fun _ => f).run s) :=
    fun le => (checkArguments_ends (by simp; omega) kernel s).bind
  rw [argc] at needed
  rw [dispatch]
  generalize number.toNat = n at needed
  match n, needed with
  | 0, le => exact absurd pos (Nat.not_lt.mpr le)
  | 1, le => exact one le
  | 2, le => exact one le
  | 3, le => exact one le
  | 4, le => exact two le
  | 5, le => exact one le
  | 6, le => exact one le
  | 7, le => exact one le
  | 8, le => exact three le
  | 9, le => exact three le
  | 10, le => exact two le
  | 11, le => exact one le
  | 12, le => exact one le
  | n + 13, _ => exact .inr ⟨s, rfl⟩

end Pintos.Syscall
