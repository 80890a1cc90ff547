import Pintos.Demand

/-! The functions of `userprog/syscall.c` that check user pointers, buffers and strings, and
the one that copies a string into the kernel. A string that ends below `PHYS_BASE` is read
there only; one that does not is read on in kernel memory. -/

namespace Pintos.UserMemory
open Stoppable Vaddr Palloc Pagedir PageFault Demand
open Exec (Moves run_bind_iff)

/-- `sys_exit` takes and releases `process_list_lock`, which guards nothing, and its status
is not kept. -/
def sysExit {α : Type} : Cpu α := threadExit

def checkValidPtr (ptr : BitVec 32) : Cpu Unit :=
  if ptr = 0 ∨ isUserVaddr ptr = false then sysExit
  else do
    let byte ← getUser ptr
    if byte = -1 then sysExit else pure ()

def checkValidBuffer (buffer size : BitVec 32) : Cpu Unit := do
  checkValidPtr buffer
  if 0 < size then checkValidPtr (buffer + size - 1) else pure ()

/-- The loop of `check_valid_string`. One that has gone through all addresses has changed
nothing and never ends. -/
def scanString : Nat → BitVec 32 → Cpu Unit
  | 0, _ => Exec.stop .hang
  | n + 1, str => do
    let byte ← getUser str
    if byte = -1 then sysExit
    else if byte = 0 then pure ()
    else scanString n (str + 1)

def checkValidString (str : BitVec 32) : Cpu Unit := do
  checkValidPtr str
  scanString (2 ^ 32) str

/-- A buffer in the kernel, by index; the index wraps like a pointer. -/
abbrev Buffer := BitVec 32 → UInt8

/-- The loop of `copy_in_string`, with `n` rounds left; the index when it ends, and the
buffer. -/
def copyLoop (src : BitVec 32) : Nat → BitVec 32 → Buffer → Cpu (BitVec 32 × Buffer)
  | 0, i, dst => pure (i, dst)
  | n + 1, i, dst => do
    let value ← getUser (src + i)
    if value = -1 then sysExit
    else
      let dst := Function.update dst i (UInt8.ofBitVec (value.setWidth 8))
      if value = 0 then pure (i, dst) else copyLoop src n (i + 1) dst

def copyInString (src : BitVec 32) (dst : Buffer) (maxLen : BitVec 32) : Cpu Buffer := do
  let (i, dst) ← copyLoop src maxLen.toNat 0 dst
  pure (if i = maxLen then Function.update dst (maxLen - 1) 0 else dst)

variable {α β : Type} {s s' s'' t : Machine} {va str : BitVec 32}

theorem sysExit_run (s : Machine) : ∃ e s', ∀ α : Type, (sysExit : Cpu α).run s = (.error e, s') :=
  threadExit_run s

theorem sysExit_ok {a : α} : ¬(sysExit : Cpu α).run s = (.ok a, s') := by
  obtain ⟨e, s1, run⟩ := sysExit_run s
  rw [run]
  simp

theorem sysExit_demanded (α : Type) : Moves Demanded (sysExit : Cpu α) := threadExit_demanded α

section Moves

variable {R : Machine → Machine → Prop} [IsPreorder Machine R]
  (reads : ∀ va, Moves R (getUser va)) (exits : ∀ α, Moves R (sysExit : Cpu α))
include reads exits

theorem checkValidPtr_moves (ptr : BitVec 32) : Moves R (checkValidPtr ptr) := by
  unfold checkValidPtr
  split_ifs
  · exact exits _
  · refine .bind (reads ptr) fun byte => ?_
    split_ifs
    · exact exits _
    · exact .pure _

theorem checkValidBuffer_moves (buffer size : BitVec 32) :
    Moves R (checkValidBuffer buffer size) := by
  refine .bind (checkValidPtr_moves reads exits buffer) fun _ => ?_
  split_ifs
  · exact checkValidPtr_moves reads exits _
  · exact .pure _

theorem scanString_moves (n : Nat) (str : BitVec 32) : Moves R (scanString n str) := by
  induction n generalizing str with
  | zero => exact .stop _
  | succ n ih =>
    refine .bind (reads str) fun byte => ?_
    split_ifs
    · exact exits _
    · exact .pure _
    · exact ih (str + 1)

theorem copyLoop_moves (src : BitVec 32) (n : Nat) (i : BitVec 32) (dst : Buffer) :
    Moves R (copyLoop src n i dst) := by
  induction n generalizing i dst with
  | zero => exact .pure _
  | succ n ih =>
    refine .bind (reads _) fun value => ?_
    simp only
    split_ifs
    · exact exits _
    · exact .pure _
    · exact ih _ _

end Moves

/-- The accesses since `s` were made to user addresses only. -/
def UserOnly (s s' : Machine) : Prop :=
  ∃ new, s'.touched = new ++ s.touched ∧ ∀ e ∈ new, isUserVaddr e.2 = true

theorem UserOnly.refl (s : Machine) : UserOnly s s := ⟨[], rfl, by simp⟩

theorem UserOnly.trans (h : UserOnly s s') (h' : UserOnly s' s'') : UserOnly s s'' := by
  obtain ⟨new, log, user⟩ := h
  obtain ⟨new', log', user'⟩ := h'
  refine ⟨new' ++ new, by rw [log', log, List.append_assoc], fun e mem => ?_⟩
  exact (List.mem_append.mp mem).elim (user' e) (user e)

theorem not_userOnly {kind : Kind} (before : s.touched <:+ s'.touched)
    (after : (kind, va) :: s'.touched <:+ s''.touched) (kernel : isUserVaddr va = false) :
    ¬UserOnly s s'' := by
  rintro ⟨new, log, user⟩
  obtain ⟨old, log'⟩ := before
  obtain ⟨later, log''⟩ := after
  have split : (later ++ (kind, va) :: old) ++ s.touched = new ++ s.touched := by
    rw [← log, ← log'', ← log', List.append_assoc, List.cons_append]
  have mem : (kind, va) ∈ new := by
    rw [← List.append_cancel_right split]
    simp
  have := user _ mem
  rw [kernel] at this
  cases this

/-- `x` returns `a`, having read user memory only, and would do so on every machine that
looks the same from there. -/
structure Confined (x : Cpu α) (s : Machine) (a : α) (s' : Machine) : Prop where
  run : x.run s = (.ok a, s')
  userOnly : UserOnly s s'
  zeroed : Zeroed s s'
  same : ∀ t, SameUser s t → ∃ t', x.run t = (.ok a, t') ∧ SameUser s' t'

theorem Confined.pure (a : α) (s : Machine) : Confined (pure a) s a s where
  run := rfl
  userOnly := .refl s
  zeroed _ := .inl rfl
  same t same := ⟨t, rfl, same⟩

theorem Confined.bind {x : Cpu α} {f : α → Cpu β} {a : α} {b : β} (hx : Confined x s a s')
    (hf : Confined (f a) s' b s'') : Confined (x >>= f) s b s'' where
  run := by rw [Exec.run_bind_ok hx.run, hf.run]
  userOnly := hx.userOnly.trans hf.userOnly
  zeroed := hx.zeroed.trans hf.zeroed
  same t same := by
    obtain ⟨t', run, same'⟩ := hx.same t same
    obtain ⟨t'', run', same''⟩ := hf.same t' same'
    exact ⟨t'', by rw [Exec.run_bind_ok run, run'], same''⟩

theorem log_zeroed (s : Machine) (kind : Kind) (va : BitVec 32) : Zeroed s (s.log kind va) :=
  fun _ => .inl rfl

theorem getUser_confined {b : BitVec 32} (addr : isUserVaddr va = true)
    (run : (getUser va).run s = (.ok b, s')) : Confined (getUser va) s b s' := by
  refine ⟨run, ?_, ?_, fun t same => getUser_same addr same run⟩
  · exact ⟨[(.getUser, va)], getUser_touched run, by simpa using addr⟩
  · rcases getUser_ok run with rfl | brought
    · exact log_zeroed s _ va
    · exact (log_zeroed s _ va).trans (Brought.zeroed brought)

/-- The string at `str` has its terminator in user memory. -/
def Terminated (s : Machine) (str : BitVec 32) : Prop :=
  ∃ k, str.toNat + k < physBase.toNat ∧ s.userByte (str + BitVec.ofNat 32 k) = 0

theorem Terminated.user (h : Terminated s str) : isUserVaddr str = true := by
  obtain ⟨k, lt, -⟩ := h
  exact (isUserVaddr_iff _).mpr (Nat.lt_of_le_of_lt (Nat.le_add_right _ k) lt)

theorem Terminated.mono (h : Terminated s str) (zeroed : Zeroed s s') : Terminated s' str := by
  obtain ⟨k, lt, zero⟩ := h
  exact ⟨k, lt, (zeroed _).elim (fun e => e.trans zero) id⟩

theorem succ_toNat (user : isUserVaddr str = true) : (str + 1).toNat = str.toNat + 1 := by
  have lt := (isUserVaddr_iff _).mp user
  rw [BitVec.toNat_add, show (1 : BitVec 32).toNat = 1 from rfl, Nat.mod_eq_of_lt (by omega)]

theorem add_succ (str : BitVec 32) (k : Nat) :
    str + 1 + BitVec.ofNat 32 k = str + BitVec.ofNat 32 (k + 1) := by
  rw [BitVec.ofNat_add, BitVec.add_comm (BitVec.ofNat 32 k), BitVec.add_assoc]
  rfl

theorem terminated_succ (user : isUserVaddr str = true) (ne : s.userByte str ≠ 0) :
    Terminated s str ↔ Terminated s (str + 1) := by
  constructor
  · rintro ⟨_ | k, lt, zero⟩
    · rw [BitVec.add_zero] at zero
      exact absurd zero ne
    · exact ⟨k, by rw [succ_toNat user]; omega, by rw [add_succ]; exact zero⟩
  · rintro ⟨k, lt, zero⟩
    rw [succ_toNat user] at lt
    rw [add_succ] at zero
    exact ⟨k + 1, by omega, zero⟩

theorem byte_eq_zero {b : UInt8} : b.toBitVec.setWidth 32 = (0 : BitVec 32) ↔ b = 0 := by
  constructor
  · intro e
    have lt := b.toBitVec.isLt
    have value := congrArg BitVec.toNat e
    rw [BitVec.toNat_setWidth, Nat.mod_eq_of_lt (by omega)] at value
    exact UInt8.toBitVec_inj.mp (BitVec.eq_of_toNat_eq value)
  · rintro rfl
    rfl

theorem read_terminated {b : BitVec 32} (h : Terminated s str)
    (run : (getUser str).run s = (.ok b, s')) (ne : b ≠ 0) : Terminated s' (str + 1) := by
  obtain rfl := getUser_value h.user run
  have more := (terminated_succ h.user (mt byte_eq_zero.mpr ne)).mp h
  exact more.mono (getUser_confined h.user run).zeroed

theorem checkValidPtr_confined (user : isUserVaddr va = true)
    (run : (checkValidPtr va).run s = (.ok (), s')) : Confined (checkValidPtr va) s () s' := by
  unfold checkValidPtr at run ⊢
  split_ifs at run ⊢ with bad
  · exact absurd run sysExit_ok
  obtain ⟨b, s1, read, rest⟩ := run_bind_iff.mp run
  refine (getUser_confined user read).bind ?_
  split_ifs at rest ⊢ with fault
  · exact absurd rest sysExit_ok
  · cases rest
    exact .pure () s'

theorem checkValidPtr_user (run : (checkValidPtr va).run s = (.ok (), s')) :
    isUserVaddr va = true := by
  by_contra kernel
  rw [checkValidPtr, if_pos (.inr (by simpa using kernel))] at run
  exact sysExit_ok run

theorem scanString_confined {n : Nat} (h : Terminated s str)
    (run : (scanString n str).run s = (.ok (), s')) : Confined (scanString n str) s () s' := by
  induction n generalizing s str with
  | zero => cases run
  | succ n ih =>
    obtain ⟨b, s1, read, rest⟩ := run_bind_iff.mp run
    refine (getUser_confined h.user read).bind ?_
    split_ifs at rest ⊢ with fault ended
    · exact absurd rest sysExit_ok
    · cases rest
      exact .pure () s'
    · exact ih (read_terminated h read ended) rest

theorem copyLoop_confined {src i : BitVec 32} {n : Nat} {dst : Buffer} {r : BitVec 32 × Buffer}
    (h : Terminated s (src + i)) (run : (copyLoop src n i dst).run s = (.ok r, s')) :
    Confined (copyLoop src n i dst) s r s' := by
  induction n generalizing s i dst with
  | zero =>
    cases run
    exact .pure _ s'
  | succ n ih =>
    obtain ⟨b, s1, read, rest⟩ := run_bind_iff.mp run
    refine (getUser_confined h.user read).bind ?_
    simp only at rest ⊢
    split_ifs at rest ⊢ with fault ended
    · exact absurd rest sysExit_ok
    · cases rest
      exact .pure _ s'
    · have more := read_terminated h read ended
      rw [BitVec.add_assoc] at more
      exact ih more rest

/-- A string is checked, and copied then, as in `sys_exec`, `sys_create`, `sys_remove` and
`sys_open`. -/
def readString (str : BitVec 32) (dst : Buffer) (maxLen : BitVec 32) : Cpu Buffer := do
  checkValidString str
  copyInString str dst maxLen

variable {dst out : Buffer} {maxLen : BitVec 32}

theorem readString_confined (h : Terminated s str)
    (run : (readString str dst maxLen).run s = (.ok out, s')) :
    Confined (readString str dst maxLen) s out s' := by
  obtain ⟨_, s1, check, copy⟩ := run_bind_iff.mp run
  obtain ⟨_, s2, first, scan⟩ := run_bind_iff.mp check
  obtain ⟨r, s3, loop, finish⟩ := run_bind_iff.mp copy
  have first := checkValidPtr_confined h.user first
  have scan := scanString_confined (h.mono first.zeroed) scan
  have ended := (h.mono first.zeroed).mono scan.zeroed
  have loop := copyLoop_confined (i := 0) (by simpa using ended) loop
  cases finish
  exact (first.bind scan).bind (loop.bind (.pure _ _))

theorem getUser_nonzero (user : isUserVaddr va = true) (ne : s.userByte va ≠ 0) :
    (getUser va).run s = (.ok ((s.userByte va).toBitVec.setWidth 32), s.log .getUser va) := by
  have there : Present s va false := by
    cases pte : pteOf s va with
    | none =>
      rw [pteOf] at pte
      rw [Machine.userByte, pte] at ne
      exact absurd rfl ne
    | some x =>
      obtain ⟨pd, dir, pte⟩ := Option.bind_eq_some_iff.mp pte
      exact ⟨pd, x, dir, pte, by simp⟩
  obtain ⟨a, hit⟩ := (translate_ok_iff false user).mpr there
  have run := attempt_tries_hit (s := s.log .getUser va) (w := none) hit s.getUserSite.access
    s.getUserSite.next
  rw [← run_getUser] at run
  rw [← getUser_value user run]
  exact run

theorem first_nonzero (user : isUserVaddr str = true) (h : ¬Terminated s str) :
    s.userByte str ≠ 0 :=
  fun zero => h ⟨0, (isUserVaddr_iff _).mp user, by rwa [BitVec.add_zero]⟩

theorem checkValidPtr_unterminated (user : isUserVaddr str = true) (h : ¬Terminated s str)
    (run : (checkValidPtr str).run s = (.ok (), s')) : ¬Terminated s' str := by
  unfold checkValidPtr at run
  split_ifs at run
  · exact absurd run sysExit_ok
  · rw [Exec.run_bind_ok (getUser_nonzero user (first_nonzero user h)),
      if_neg (byte_ne_neg_one _)] at run
    cases run
    exact h

theorem scanString_escapes {n : Nat} (le : str.toNat ≤ physBase.toNat) (h : ¬Terminated s str)
    (run : (scanString n str).run s = (.ok (), s')) :
    ∃ s1 : Machine, s.touched <:+ s1.touched ∧ (.getUser, physBase) :: s1.touched <:+ s'.touched := by
  induction n generalizing s str with
  | zero => cases run
  | succ n ih =>
    rcases Nat.lt_or_eq_of_le le with lt | eq
    · have user : isUserVaddr str = true := (isUserVaddr_iff _).mpr lt
      have ne := first_nonzero user h
      rw [scanString, Exec.run_bind_ok (getUser_nonzero user ne), if_neg (byte_ne_neg_one _),
        if_neg (mt byte_eq_zero.mp ne)] at run
      have more : ¬Terminated (s.log .getUser str) (str + 1) :=
        fun more => h ((terminated_succ user ne).mpr more)
      obtain ⟨s1, before, after⟩ := ih (by rw [succ_toNat user]; exact lt) more run
      exact ⟨s1, (List.suffix_cons _ _).trans before, after⟩
    · obtain rfl : str = physBase := BitVec.eq_of_toNat_eq eq
      obtain ⟨b, s1, read, rest⟩ := run_bind_iff.mp run
      refine ⟨s, List.suffix_refl _, ?_⟩
      rw [← getUser_touched read]
      have later : Moves Demanded (if b = -1 then sysExit else if b = 0 then pure ()
          else scanString n (physBase + 1) : Cpu Unit) := by
        split_ifs
        · exact sysExit_demanded _
        · exact .pure _
        · exact scanString_moves getUser_demanded sysExit_demanded _ _
      have := (later s1).suffix
      rwa [rest] at this

/-- A string that is checked and copied is read in user memory only exactly when it ends
there; what is copied then does not depend on other memory. -/
theorem readString_in_user_space (run : (readString str dst maxLen).run s = (.ok out, s')) :
    (UserOnly s s' ↔ Terminated s str) ∧
      (Terminated s str → ∀ t, SameUser s t → ((readString str dst maxLen).run t).1 = .ok out) := by
  refine ⟨⟨fun userOnly => ?_, fun h => (readString_confined h run).userOnly⟩, fun h t same => ?_⟩
  · by_contra h
    obtain ⟨_, s1, check, copy⟩ := run_bind_iff.mp run
    obtain ⟨_, s2, first, scan⟩ := run_bind_iff.mp check
    have user := checkValidPtr_user first
    have before := (checkValidPtr_moves getUser_demanded sysExit_demanded str s).suffix
    have copies : Moves Demanded (copyInString str dst maxLen) :=
      .bind (copyLoop_moves getUser_demanded sysExit_demanded str _ _ dst) fun _ => .pure _
    have later := (copies s1).suffix
    have running : ¬Terminated s2 str := checkValidPtr_unterminated user h first
    obtain ⟨s3, here, beyond⟩ :=
      scanString_escapes (Nat.le_of_lt ((isUserVaddr_iff _).mp user)) running scan
    rw [first] at before
    rw [copy] at later
    exact not_userOnly (before.trans here) (beyond.trans later) (by decide) userOnly
  · obtain ⟨t', run', -⟩ := (readString_confined h run).same t same
    rw [run']

def lastPage (ram : Nat → UInt8) : Machine := onePage 767 1023 ram

theorem readString_in_user_space_letter : ∃ out s',
    (readString 0xbfffff00#32 (fun _ => 7) 128#32).run
      (lastPage fun a => if a = 0xc0102f00 then 65 else 0) = (.ok out, s') ∧
    UserOnly (lastPage fun a => if a = 0xc0102f00 then 65 else 0) s' := by
  have returns : ((readString 0xbfffff00#32 (fun _ => 7) 128#32).run
    (lastPage fun a => if a = 0xc0102f00 then 65 else 0)).1.isOk = true := by rfl
  rcases run : (readString 0xbfffff00#32 (fun _ => 7) 128#32).run
    (lastPage fun a => if a = 0xc0102f00 then 65 else 0) with ⟨_ | out, s'⟩
  · rw [run] at returns
    cases returns
  · exact ⟨out, s', rfl, (readString_in_user_space run).1.mpr ⟨1, by decide, by rfl⟩⟩

/-- A letter in the last byte of user memory, and some byte at `PHYS_BASE`. -/
def full (b : UInt8) : Machine :=
  lastPage fun a => if a = 0xc0102fff then 65 else if a = 0xc0000000 then b else 0

theorem lastPage_pteOf {ram : Nat → UInt8} {x : Pte} (h : pteOf (lastPage ram) va = some x) :
    x.kpage = 0xc0102000 := by
  change Option.bind (if (pdNo va).toNat = 767 then some _ else none) _ = some x at h
  split_ifs at h with dir
  · change (if (ptNo va).toNat = 1023 then some _ else none) = some x at h
    split_ifs at h with tab
    cases h
    rfl
  · cases h

theorem full_sameUser (b c : UInt8) : SameUser (full b) (full c) := by
  refine ⟨⟨(full c).ram, rfl⟩, fun va user => ?_⟩
  cases pte : pteOf (full b) va with
  | none =>
    have pte' : pteOf (full c) va = none := pte
    rw [pteOf] at pte pte'
    rw [Machine.userByte, Machine.userByte, pte, pte']
  | some x =>
    have frame : frameAddr x va ≠ 0xc0000000 := by
      rw [frameAddr, lastPage_pteOf pte]
      omega
    rw [userByte_pteOf pte, userByte_pteOf (s := full c) pte]
    simp only [full, lastPage, onePage, if_neg frame]

/-- The string in the last byte of user memory is copied together with a byte of the kernel,
and which one that is can be seen in the copy. -/
theorem kernel_byte_copied : SameUser (full 66) (full 67) ∧
    (.getUser, physBase) ∈ ((readString 0xbfffffff#32 (fun _ => 7) 128#32).run (full 66)).2.touched ∧
    ((readString 0xbfffffff#32 (fun _ => 7) 128#32).run (full 66)).1.map (fun out => out 1) = .ok 66 ∧
    ((readString 0xbfffffff#32 (fun _ => 7) 128#32).run (full 67)).1.map (fun out => out 1) = .ok 67 :=
  ⟨full_sameUser 66 67, by decide, by rfl, by rfl⟩

end Pintos.UserMemory
