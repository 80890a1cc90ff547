import Pintos.Pagedir

/-! Memory accesses of the processor and the page-fault handler of `userprog/exception.c`.
An access goes through the page directory of the running thread; one that faults runs
`page_fault` and goes on at the instruction address in the frame that the handler leaves.
`get_user` and `put_user` of `userprog/syscall.c` are such accesses, with the address of the
instruction after the access in eax. -/

namespace Pintos.PageFault
open ByteStore Bitmap Stoppable Vaddr Palloc Pagedir
open Exec (Respects run_bind_error run_bind_ok run_state)

/-- Addresses of a memory access in the kernel and of what is in eax when it is made; for
`get_user` and `put_user` that is the instruction after the access. -/
structure Site where
  access : BitVec 32
  next : BitVec 32
  ne : access ≠ next
  next_ne : next ≠ -1

inductive Kind where
  | getUser
  | putUser
  | argument
  | stack
  | user
  deriving DecidableEq

/-- The processor as the running thread sees it. The log `touched` has the accesses that
were made to user memory or on behalf of the user, the last one first. -/
structure Machine extends Space where
  getUserSite : Site
  putUserSite : Site
  directSite : Site
  kernelText : Nat → Bool
  touched : List (Kind × BitVec 32)

abbrev Cpu := Exec Stop Machine

def paging {α : Type} (x : Paging α) : Cpu α :=
  x.zoom Machine.toSpace fun s m => { s with toSpace := m }

def Machine.log (s : Machine) (kind : Kind) (va : BitVec 32) : Machine :=
  { s with touched := (kind, va) :: s.touched }

def touch (kind : Kind) (va : BitVec 32) : Cpu Unit := Exec.modify fun s => s.log kind va

structure Frame where
  errorCode : BitVec 32
  eip : BitVec 32
  eax : BitVec 32
  cs : BitVec 16

def pfP : BitVec 32 := 1

def pfW : BitVec 32 := 2

def pfU : BitVec 32 := 4

def selKcseg : BitVec 16 := 0x08

def selUcseg : BitVec 16 := 0x1b

def errorCode (present write user : Bool) : BitVec 32 :=
  (if present then pfP else 0) ||| (if write then pfW else 0) ||| (if user then pfU else 0)

def Machine.translate (s : Machine) (va : BitVec 32) (write user : Bool) : Except (BitVec 32) Nat :=
  if isUserVaddr va then
    match s.pagedir.bind fun pd => pd.pte va with
    | none => .error (errorCode false write user)
    | some pte =>
      if write && !pte.writable then .error (errorCode true write user)
      else .ok (pte.kpage + (pgOfs va).toNat)
  else if vtop va.toNat / pgsize < s.initRamPages then
    if user || (write && s.kernelText va.toNat) then .error (errorCode true write user)
    else .ok va.toNat
  else .error (errorCode false write user)

def processExit : Cpu Unit := do
  let s ← Exec.state
  match s.pagedir with
  | none => pure ()
  | some pd => do
    paging (setPagedir none)
    paging (pagedirDestroy (some pd))

def threadExit {α : Type} : Cpu α := do
  processExit
  Exec.stop .exit

def kill {α : Type} (f : Frame) : Cpu α :=
  if f.cs = selUcseg then threadExit
  else if f.cs = selKcseg then Exec.stop .panic
  else threadExit

/-- The part of the handler that brings the page of `faultAddr` in. -/
def bringIn (f : Frame) (faultAddr : BitVec 32) : Cpu Frame := do
  match ← paging (pagedirGetPage (pgRoundDown faultAddr)) with
  | none => do
    match ← paging (alloc (pallocGetPage { user := true, zero := true })) with
    | none => kill f
    | some kpage => do
      if ← paging (pagedirSetPage (pgRoundDown faultAddr) kpage true) then pure f
      else do
        paging (alloc (pallocFreePage (some kpage)))
        kill f
  | some _ => do
    paging (pagedirSetAccessed (pgRoundDown faultAddr) true)
    pure f

/-- The frame with which the interrupted code goes on. -/
def pageFault (f : Frame) (faultAddr : BitVec 32) : Cpu Frame :=
  let notPresent := f.errorCode &&& pfP = 0
  let user := f.errorCode &&& pfU ≠ 0
  if ¬user ∧ f.eip = f.eax then pure { f with eax := -1 }
  else if isUserVaddr faultAddr = false then kill f
  else if ¬notPresent then kill f
  else bringIn f faultAddr

/-- The instruction at `eip` reads a byte, or writes the byte `w`; the result is eax after
it. When the handler returns to `eip` the instruction is executed again. -/
def attempt (user : Bool) (eip va : BitVec 32) (w : Option UInt8) : Nat → BitVec 32 → Cpu (BitVec 32)
  | 0, _ => Exec.stop .hang
  | n + 1, eax => do
    let s ← Exec.state
    match s.translate va w.isSome user with
    | .ok a =>
      match w with
      | none => pure ((s.ram a).toBitVec.setWidth 32)
      | some b => do
        paging (alloc (Exec.modify fun m => m.store a [b]))
        pure eax
    | .error code => do
      let f ← pageFault ⟨code, eip, eax, if user then selUcseg else selKcseg⟩ va
      if f.eip = eip then attempt user eip va w n f.eax else pure f.eax

def tries : Nat := 2

def getUser (uaddr : BitVec 32) : Cpu (BitVec 32) := do
  touch .getUser uaddr
  let s ← Exec.state
  attempt false s.getUserSite.access uaddr none tries s.getUserSite.next

def putUser (udst : BitVec 32) (byte : UInt8) : Cpu Bool := do
  touch .putUser udst
  let s ← Exec.state
  let errorCode ← attempt false s.putUserSite.access udst (some byte) tries s.putUserSite.next
  pure (errorCode ≠ -1)

/-- An access of the kernel to user memory that is not prepared for a fault. -/
def direct (kind : Kind) (va : BitVec 32) (w : Option UInt8) : Cpu (BitVec 32) := do
  touch kind va
  let s ← Exec.state
  attempt false s.directSite.access va w tries s.directSite.next

/-- An access of the program, with what its registers hold. -/
def userAccess (eip eax va : BitVec 32) (w : Option UInt8) : Cpu (BitVec 32) := do
  touch .user va
  attempt true eip va w tries eax

theorem errorCode_pfP (present write user : Bool) :
    errorCode present write user &&& pfP = 0 ↔ present = false := by
  cases present <;> cases write <;> cases user <;> decide

variable {s s' : Machine} {va : BitVec 32} {write user : Bool}
variable {α : Type} {pd : Directory} {f : Frame} {a : Nat} {w : Option UInt8} {eip eax : BitVec 32}

theorem run_paging {x : Paging α} {r : Except Stop α} {t : Space} (h : x.run s.toSpace = (r, t)) :
    (paging x).run s = (r, { s with toSpace := t }) :=
  Exec.run_zoom h

theorem pgRoundDown_user (h : isUserVaddr va = true) : isUserVaddr (pgRoundDown va) = true := by
  rw [isUserVaddr_iff] at *
  rw [pgRoundDown_toNat]
  omega

theorem pgRoundDown_page (va : BitVec 32) : (pgRoundDown va).toNat / 4096 = va.toNat / 4096 := by
  rw [pgRoundDown_toNat]
  omega

theorem pgOfs_pgRoundDown (va : BitVec 32) : pgOfs (pgRoundDown va) = 0 := by
  apply BitVec.eq_of_toNat_eq
  rw [pgOfs_toNat, pgRoundDown_toNat]
  simp

theorem pte_congr {va' : BitVec 32} (h : va.toNat / 4096 = va'.toNat / 4096) :
    pd.pte va = pd.pte va' := by
  obtain ⟨dir, tab⟩ := same_page.mpr h
  rw [Directory.pte, Directory.pte, dir, tab]

inductive Brought (s : Machine) (va : BitVec 32) : Machine → Prop where
  | intro {pd : Directory} {pt : PageTable} {m m' : Mem} {kpage : Nat} :
      s.pagedir = some pd → pd.pte va = none → Taken s.toMem m true kpage 1 →
      Table ⟨m.store kpage (List.replicate pgsize 0), some pd⟩ pd (pgRoundDown va) pt m' →
      Brought s va { s with
        toSpace := ⟨m', some (pd.map (pgRoundDown va) pt ⟨kpage, true, false⟩)⟩ }

theorem not_recovered {present : Bool} (code : f.errorCode = errorCode present write user)
    (ne : user = true ∨ f.eip ≠ f.eax) : ¬(¬f.errorCode &&& pfU ≠ 0 ∧ f.eip = f.eax) := by
  have fromUser : errorCode present write user &&& pfU ≠ 0 ↔ user = true := by
    cases present <;> cases write <;> cases user <;> decide
  rw [code, fromUser]
  rintro ⟨kernel, same⟩
  exact ne.elim kernel fun ne => ne same

theorem pageFault_present (addr : isUserVaddr va = true)
    (code : f.errorCode = errorCode false write user) (ne : user = true ∨ f.eip ≠ f.eax) :
    pageFault f va = bringIn f va := by
  have notPresent : f.errorCode &&& pfP = 0 := by rw [code, errorCode_pfP]
  unfold pageFault
  rw [if_neg (not_recovered code ne), if_neg (by simp [addr]), if_neg (not_not_intro notPresent)]

/-- No frame is free, or a page table is missing and no page is free for it. -/
def Short (s : Machine) (pd : Directory) (va : BitVec 32) : Prop :=
  (∀ q, s.userPool.Has q → s.userPool.Used q) ∨
    (pd.pdes (pdNo va).toNat = none ∧ ∀ q, s.kernelPool.Has q → s.kernelPool.Used q)

theorem pdNo_pgRoundDown (va : BitVec 32) : (pdNo (pgRoundDown va)).toNat = (pdNo va).toNat :=
  (same_page.mpr (pgRoundDown_page va)).1

theorem bringIn_absent (addr : isUserVaddr va = true) (dir : s.pagedir = some pd)
    (absent : pd.pte va = none) (f : Frame) :
    (∃ s', Brought s va s' ∧ (bringIn f va).run s = (.ok f, s')) ∨
      ∃ m, (∀ u q, (m.pool u).Used q ↔ (s.pool u).Used q) ∧ Short s pd va ∧
        (bringIn f va).run s = (kill f).run { s with toMem := m } := by
  have round := pgRoundDown_user addr
  have absent' : pd.pte (pgRoundDown va) = none := (pte_congr (pgRoundDown_page va)).trans absent
  have get := run_pagedirGetPage round dir
  rw [absent', Option.map_none] at get
  rw [bringIn, run_bind_ok (run_paging get)]
  simp only
  rcases pallocGetPage_cases { user := true, zero := true } s.toMem with
    ⟨kpage, m, taken, run⟩ | ⟨full, run⟩
  · have frame : (s.pool true).Has kpage := taken.has kpage (span_one.mpr rfl)
    rw [run_bind_ok (run_paging (run_alloc run))]
    simp only [if_true]
    rcases run_pagedirSetPage (s := ⟨m.store kpage (List.replicate pgsize 0), some pd⟩) true
      (pgOfs_pgRoundDown va) round (by rw [store_pool, taken.has_iff]; exact frame) rfl absent' with
      ⟨pt, m', table, set⟩ | ⟨missing, full, set⟩
    · refine .inl ⟨_, .intro dir absent taken table, ?_⟩
      rw [dir, run_bind_ok (run_paging set)]
      rfl
    have used : ((m.store kpage (List.replicate pgsize 0)).pool true).Used kpage := by
      rw [store_pool, taken.used_iff]
      exact .inl ⟨rfl, span_one.mpr rfl⟩
    obtain ⟨m', freed, free⟩ := pallocFreePage_spec used
    refine .inr ⟨m'.store kpage (List.replicate pgsize 0xcc), taken.free fun u q => ?_, ?_, ?_⟩
    · rw [store_pool, freed.used_iff, store_pool]
    · obtain ⟨b, size, rfl⟩ := taken.eq
      rw [pdNo_pgRoundDown] at missing
      exact .inr ⟨missing, full⟩
    · rw [dir, run_bind_ok (run_paging set)]
      simp only
      rw [if_neg (by simp), run_bind_ok (run_paging (run_alloc free))]
  · refine .inr ⟨s.toMem, fun _ _ => Iff.rfl, .inl full, ?_⟩
    rw [run_bind_ok (run_paging (run_alloc run))]

theorem pageFault_absent (addr : isUserVaddr va = true) (dir : s.pagedir = some pd)
    (absent : pd.pte va = none) (code : f.errorCode = errorCode false write user)
    (ne : user = true ∨ f.eip ≠ f.eax) :
    (∃ s', Brought s va s' ∧ (pageFault f va).run s = (.ok f, s')) ∨
      ∃ m, (∀ u q, (m.pool u).Used q ↔ (s.pool u).Used q) ∧
        (pageFault f va).run s = (kill f).run { s with toMem := m } := by
  rw [pageFault_present addr code ne]
  refine (bringIn_absent addr dir absent f).imp_right ?_
  rintro ⟨m, same, -, run⟩
  exact ⟨m, same, run⟩

def frameAddr (x : Pte) (va : BitVec 32) : Nat := x.kpage + (pgOfs va).toNat

theorem zeros_store (m : Nat → UInt8) (a n x : Nat) :
    splice m a (List.replicate n 0) x = if a ≤ x ∧ x < a + n then 0 else m x := by
  by_cases inside : a ≤ x ∧ x < a + n
  · rw [if_pos inside, splice_of_mem _ _ inside.1 (by simpa using inside.2)]
    simp
  · rw [if_neg inside, splice, if_neg (by simpa using inside)]

theorem table_zero {t : Space} {pt : PageTable} {m : Mem} (h : Table t pd va pt m)
    (zero : t.ram a = 0) : m.ram a = 0 := by
  cases h with
  | old => exact zero
  | new e taken =>
    obtain ⟨b, size, rfl⟩ := taken.eq
    change splice (Mem.setMap _ _ _ _).ram _ _ _ = 0
    rw [zeros_store, setMap_ram]
    split_ifs
    · rfl
    · exact zero

theorem Brought.mapped (h : Brought s va s') : ∃ pd x, s'.pagedir = some pd ∧ pd.pte va = some x ∧
    x.writable = true ∧ s'.ram (frameAddr x va) = 0 := by
  cases h with
  | @intro pd pt m m' kpage dir absent taken table =>
    refine ⟨_, ⟨kpage, true, false⟩, rfl, ?_, rfl, ?_⟩
    · rw [pte_map table, if_pos (pgRoundDown_page va).symm]
    · refine table_zero table ?_
      change splice m.ram kpage (List.replicate pgsize 0) (kpage + (pgOfs va).toNat) = 0
      rw [zeros_store, if_pos ⟨Nat.le_add_right _ _, Nat.add_lt_add_left (pgOfs_lt va) _⟩]

theorem translate_mapped (addr : isUserVaddr va = true) (dir : s.pagedir = some pd) {x : Pte}
    (pte : pd.pte va = some x) (allowed : write = true → x.writable = true) :
    s.translate va write user = .ok (frameAddr x va) := by
  rw [Machine.translate, if_pos addr, dir, Option.bind_some, pte]
  cases write with
  | false => rfl
  | true => simp [allowed rfl, frameAddr]

/-- What stands in the frame of an access: its error code and the two addresses. -/
def accessFrame (user : Bool) (code eip eax : BitVec 32) : Frame :=
  ⟨code, eip, eax, if user then selUcseg else selKcseg⟩

/-- The access itself, at the kernel address behind it. -/
def perform (s : Machine) (a : Nat) (w : Option UInt8) (eax : BitVec 32) :
    Except Stop (BitVec 32) × Machine :=
  match w with
  | none => (.ok ((s.ram a).toBitVec.setWidth 32), s)
  | some b => (.ok eax, { s with toMem := s.toMem.store a [b] })

theorem threadExit_run (s : Machine) :
    ∃ e s', ∀ α : Type, (threadExit : Cpu α).run s = (.error e, s') := by
  rcases h : processExit.run s with ⟨r, s'⟩
  cases r with
  | error e => exact ⟨e, s', fun _ => run_bind_error h _⟩
  | ok _ => exact ⟨.exit, s', fun _ => run_bind_ok h _⟩

theorem kill_run (f : Frame) (s : Machine) :
    ∃ e s', ∀ α : Type, (kill f : Cpu α).run s = (.error e, s') := by
  unfold kill
  split_ifs
  · exact threadExit_run s
  · exact ⟨.panic, s, fun _ => rfl⟩
  · exact threadExit_run s

/-- All that an access can come to: it is made, its page is brought in first, or the fault
is not handled. -/
inductive Accessed (user : Bool) (s : Machine) (va : BitVec 32) (w : Option UInt8)
    (eip eax : BitVec 32) : Except Stop (BitVec 32) × Machine → Prop where
  | made {a : Nat} : s.translate va w.isSome user = .ok a →
      Accessed user s va w eip eax (perform s a w eax)
  | brought {s' : Machine} {a : Nat} : isUserVaddr va = true → Brought s va s' →
      s'.translate va w.isSome user = .ok a → Accessed user s va w eip eax (perform s' a w eax)
  | lost {code : BitVec 32} {m : Mem} : s.translate va w.isSome user = .error code →
      (∀ u q, (m.pool u).Used q ↔ (s.pool u).Used q) →
      Accessed user s va w eip eax
        ((kill (accessFrame user code eip eax)).run { s with toMem := m })
  | panic : s.pagedir = none → Accessed user s va w eip eax (.error .panic, s)

theorem attempt_hit (h : s.translate va w.isSome user = .ok a) (n : Nat) (eip eax : BitVec 32) :
    (attempt user eip va w (n + 1) eax).run s = perform s a w eax := by
  rw [attempt, run_bind_ok (run_state s), h]
  cases w <;> rfl

theorem attempt_tries_hit (h : s.translate va w.isSome user = .ok a) (eip eax : BitVec 32) :
    (attempt user eip va w tries eax).run s = perform s a w eax :=
  attempt_hit h 1 eip eax

@[simp] theorem translate_log (s : Machine) (kind : Kind) (x va : BitVec 32) (write user : Bool) :
    (s.log kind x).translate va write user = s.translate va write user := rfl

theorem pageFault_kill {present : Bool} (code : f.errorCode = errorCode present write user)
    (ne : user = true ∨ f.eip ≠ f.eax) (h : isUserVaddr va = false ∨ present = true) :
    pageFault f va = kill f := by
  unfold pageFault
  rw [if_neg (not_recovered code ne)]
  by_cases addr : isUserVaddr va = false
  · rw [if_pos addr]
  · have violation : f.errorCode &&& pfP ≠ 0 := by
      rw [code, Ne, errorCode_pfP, h.resolve_left addr]
      decide
    rw [if_neg addr, if_pos violation]

theorem pageFault_noDir (addr : isUserVaddr va = true) (dir : s.pagedir = none)
    (code : f.errorCode = errorCode false write user) (ne : user = true ∨ f.eip ≠ f.eax) :
    (pageFault f va).run s = (.error .panic, s) := by
  have get : (pagedirGetPage (pgRoundDown va)).run s.toSpace = (.error .panic, s.toSpace) := by
    rw [pagedirGetPage, run_bind_ok (run_assert (pgRoundDown_user addr) _), lookupPage]
    refine run_bind_error ?_ _
    rw [run_bind_ok (run_state _), dir]
    rfl
  rw [pageFault_present addr code ne, bringIn, run_bind_error (run_paging get)]

theorem attempt_fault {code : BitVec 32} (fault : s.translate va w.isSome user = .error code)
    (eip eax : BitVec 32) :
    (attempt user eip va w tries eax).run s = (pageFault (accessFrame user code eip eax) va >>=
      fun f => if f.eip = eip then attempt user eip va w 1 f.eax else pure f.eax).run s := by
  rw [tries, attempt, run_bind_ok (run_state s), fault]
  rfl

theorem attempt_absent (addr : isUserVaddr va = true)
    (absent : (s.pagedir.bind fun pd => pd.pte va) = none) (ne : user = true ∨ eip ≠ eax) :
    Accessed user s va w eip eax ((attempt user eip va w tries eax).run s) := by
  let f := accessFrame user (errorCode false w.isSome user) eip eax
  have fault : s.translate va w.isSome user = .error (errorCode false w.isSome user) := by
    rw [Machine.translate, if_pos addr, absent]
  rw [attempt_fault fault]
  cases dir : s.pagedir with
  | none =>
    rw [run_bind_error (pageFault_noDir (f := f) addr dir rfl ne)]
    exact .panic dir
  | some pd =>
    rw [dir, Option.bind_some] at absent
    rcases pageFault_absent (f := f) addr dir absent rfl ne with ⟨s', brought, run⟩ | ⟨m, same, run⟩
    · obtain ⟨pd', x, dir', pte, writable, -⟩ := brought.mapped
      have hit : s'.translate va w.isSome user = .ok (frameAddr x va) :=
        translate_mapped addr dir' pte fun _ => writable
      rw [run_bind_ok run, if_pos (show f.eip = eip from rfl), attempt_hit hit]
      exact .brought addr brought hit
    · obtain ⟨e, s', killed⟩ := kill_run f { s with toMem := m }
      rw [run_bind_error (run.trans (killed _)), ← killed]
      exact .lost fault same

theorem attempt_spec (user : Bool) (s : Machine) (va : BitVec 32) (w : Option UInt8)
    (ne : user = true ∨ eip ≠ eax) :
    Accessed user s va w eip eax ((attempt user eip va w tries eax).run s) := by
  cases h : s.translate va w.isSome user with
  | ok a =>
    rw [tries, attempt_hit h]
    exact .made h
  | error code =>
    let f := accessFrame user code eip eax
    have unhandled : ∀ present, code = errorCode present w.isSome user →
        isUserVaddr va = false ∨ present = true →
        Accessed user s va w eip eax ((attempt user eip va w tries eax).run s) := by
      intro present e why
      have run : (attempt user eip va w tries eax).run s = (kill f).run s := by
        obtain ⟨e', s', killed⟩ := kill_run f _
        rw [attempt_fault h, pageFault_kill (f := f) e ne why, run_bind_error (killed _), killed]
      rw [run]
      exact .lost h fun _ _ => Iff.rfl
    unfold Machine.translate at h
    split_ifs at h with addr kernel denied
    · split at h
      · rename_i absent
        cases h
        exact attempt_absent addr absent ne
      · split_ifs at h with denied
        cases h
        exact unhandled true rfl (.inr rfl)
    · cases h
      exact unhandled true rfl (.inr rfl)
    · cases h
      exact unhandled false rfl (.inl (by simpa using addr))

theorem run_getUser (s : Machine) (va : BitVec 32) : (getUser va).run s =
    (attempt false s.getUserSite.access va none tries s.getUserSite.next).run
      (s.log .getUser va) := rfl

theorem run_putUser (s : Machine) (va : BitVec 32) (byte : UInt8) : (putUser va byte).run s =
    (attempt false s.putUserSite.access va (some byte) tries s.putUserSite.next >>=
      fun errorCode => pure (decide (errorCode ≠ -1))).run (s.log .putUser va) := rfl

theorem getUser_spec (s : Machine) (va : BitVec 32) :
    Accessed false (s.log .getUser va) va none s.getUserSite.access s.getUserSite.next
      ((getUser va).run s) := by
  rw [run_getUser]
  exact attempt_spec false _ va none (.inr s.getUserSite.ne)

theorem putUser_spec (s : Machine) (va : BitVec 32) (byte : UInt8) :
    ∃ r s', Accessed false (s.log .putUser va) va (some byte) s.putUserSite.access
        s.putUserSite.next (r, s') ∧
      (putUser va byte).run s = (r.map fun eax => decide (eax ≠ -1), s') := by
  have spec := attempt_spec false (s.log .putUser va) va (some byte) (.inr s.putUserSite.ne)
  rcases e : (attempt false s.putUserSite.access va (some byte) tries s.putUserSite.next).run
    (s.log .putUser va) with ⟨r, s'⟩
  rw [e] at spec
  refine ⟨r, s', spec, ?_⟩
  rw [run_putUser]
  cases r with
  | error r => exact run_bind_error e _
  | ok eax => exact run_bind_ok e _

theorem direct_spec (kind : Kind) (s : Machine) (va : BitVec 32) (w : Option UInt8) :
    Accessed false (s.log kind va) va w s.directSite.access s.directSite.next
      ((direct kind va w).run s) :=
  attempt_spec false (s.log kind va) va w (.inr s.directSite.ne)

theorem direct_write {kind : Kind} (h : s.translate va true false = .ok a) (b : UInt8) :
    (direct kind va (some b)).run s = (.ok s.directSite.next,
      { s.log kind va with toMem := s.toMem.store a [b] }) := by
  have hit : (s.log kind va).translate va (some b).isSome false = .ok a := h
  have run : (direct kind va (some b)).run s =
    (attempt false s.directSite.access va (some b) tries s.directSite.next).run (s.log kind va) := rfl
  rw [run, attempt_tries_hit hit]
  rfl

theorem userAccess_spec (s : Machine) (eip eax va : BitVec 32) (w : Option UInt8) :
    Accessed true (s.log .user va) va w eip eax ((userAccess eip eax va w).run s) :=
  attempt_spec true (s.log .user va) va w (.inl rfl)

def Present (s : Machine) (va : BitVec 32) (write : Bool) : Prop :=
  ∃ pd x, s.pagedir = some pd ∧ pd.pte va = some x ∧ (write = true → x.writable = true)

theorem translate_ok_iff (user : Bool) (addr : isUserVaddr va = true) :
    (∃ a, s.translate va write user = .ok a) ↔ Present s va write := by
  constructor
  · rintro ⟨a, h⟩
    rw [Machine.translate, if_pos addr] at h
    split at h
    · cases h
    rename_i x found
    obtain ⟨pd, dir, pte⟩ := Option.bind_eq_some_iff.mp found
    refine ⟨pd, x, dir, pte, fun e => ?_⟩
    subst e
    by_contra read_only
    simp [Bool.eq_false_iff.mpr read_only] at h
  · rintro ⟨pd, x, dir, pte, allowed⟩
    exact ⟨_, translate_mapped addr dir pte allowed⟩

/-- What `get_user` promises: the byte, or -1 when the access faults, and a memory that is as
it was. -/
def GetUserContract (s : Machine) (va : BitVec 32) : Prop :=
  ((getUser va).run s).2.toSpace = s.toSpace ∧
    ((getUser va).run s).1 = .ok (match s.translate va false false with
      | .ok a => (s.ram a).toBitVec.setWidth 32
      | .error _ => -1)

/-- What `put_user` promises: the byte is written, or the access faults and nothing is. -/
def PutUserContract (s : Machine) (va : BitVec 32) (byte : UInt8) : Prop :=
  match s.translate va true false with
  | .ok a => ((putUser va byte).run s).1 = .ok true ∧
      ((putUser va byte).run s).2.toSpace = { s.toSpace with toMem := s.toMem.store a [byte] }
  | .error _ => ((putUser va byte).run s).1 = .ok false ∧
      ((putUser va byte).run s).2.toSpace = s.toSpace

theorem byte_ne_neg_one (b : UInt8) : b.toBitVec.setWidth 32 ≠ (-1 : BitVec 32) := by
  intro e
  have lt := b.toBitVec.isLt
  have := congrArg BitVec.toNat e
  simp only [BitVec.toNat_setWidth] at this
  rw [Nat.mod_eq_of_lt (by omega), show (-1 : BitVec 32).toNat = 4294967295 from rfl] at this
  omega

theorem kill_kernel (code eip eax : BitVec 32) (s : Machine) :
    (kill (accessFrame false code eip eax) : Cpu α).run s = (.error .panic, s) := rfl

theorem Accessed.unrecovered {code : BitVec 32} {r : Except Stop (BitVec 32) × Machine}
    (h : Accessed false s va w eip eax r) (fault : s.translate va w.isSome false = .error code)
    (ne : eax ≠ -1) : r.1 ≠ .ok (-1) := by
  cases h with
  | made hit => simp [fault] at hit
  | brought _ _ _ =>
    cases w with
    | none => exact fun e => byte_ne_neg_one _ (Except.ok.inj e)
    | some b => exact fun e => ne (Except.ok.inj e)
  | lost _ _ =>
    rw [kill_kernel]
    simp
  | panic _ => simp

theorem getUser_contract_iff (addr : isUserVaddr va = true) :
    GetUserContract s va ↔ Present s va false := by
  rw [← translate_ok_iff false addr]
  constructor
  · rintro ⟨-, value⟩
    cases h : s.translate va false false with
    | ok a => exact ⟨a, rfl⟩
    | error code =>
      rw [h] at value
      exact absurd value ((getUser_spec s va).unrecovered h s.getUserSite.next_ne)
  · rintro ⟨a, h⟩
    have hit := attempt_tries_hit (s := s.log .getUser va) (w := none) h
    rw [GetUserContract, run_getUser, hit, h]
    exact ⟨rfl, rfl⟩

theorem putUser_contract_iff (addr : isUserVaddr va = true) (byte : UInt8) :
    PutUserContract s va byte ↔ Present s va true := by
  rw [← translate_ok_iff false addr, PutUserContract]
  cases h : s.translate va true false with
  | ok a =>
    have hit := attempt_tries_hit (s := s.log .putUser va) (w := some byte) h
    have run : (putUser va byte).run s =
        (.ok true, { s.log .putUser va with toMem := s.toMem.store a [byte] }) := by
      rw [run_putUser, run_bind_ok (hit _ _), Exec.run_pure, decide_eq_true s.putUserSite.next_ne]
      rfl
    rw [run]
    exact iff_of_true ⟨rfl, rfl⟩ ⟨a, rfl⟩
  | error code =>
    obtain ⟨r, s', spec, run⟩ := putUser_spec s va byte
    have lost := spec.unrecovered h s.putUserSite.next_ne
    refine iff_of_false ?_ (by simp)
    rintro ⟨value, -⟩
    rw [run] at value
    cases r with
    | error r => cases value
    | ok eax =>
      refine lost (congrArg Except.ok ?_)
      simpa using Except.ok.inj value

/-- The byte that a read of a user address finds: a page that is not there reads as zeros. -/
def Machine.userByte (s : Machine) (va : BitVec 32) : UInt8 :=
  match s.pagedir.bind fun pd => pd.pte va with
  | some x => s.ram (frameAddr x va)
  | none => 0

theorem userByte_mapped {x : Pte} (dir : s.pagedir = some pd) (pte : pd.pte va = some x) :
    s.userByte va = s.ram (frameAddr x va) := by
  rw [Machine.userByte, dir, Option.bind_some, pte]

theorem userByte_absent (dir : s.pagedir = some pd) (absent : pd.pte va = none) :
    s.userByte va = 0 := by
  rw [Machine.userByte, dir, Option.bind_some, absent]

theorem Brought.dir (h : Brought s va s') : ∃ pd, s.pagedir = some pd ∧ pd.pte va = none := by
  cases h with
  | intro dir absent _ _ => exact ⟨_, dir, absent⟩

theorem Accessed.read {r : Except Stop (BitVec 32) × Machine}
    (h : Accessed false s va none eip eax r) (addr : isUserVaddr va = true) :
    r.1 = .ok ((s.userByte va).toBitVec.setWidth 32) ∨ r.1 = .error .panic := by
  cases h with
  | made hit =>
    obtain ⟨pd, x, dir, pte, -⟩ := (translate_ok_iff false addr).mp ⟨_, hit⟩
    rw [translate_mapped addr dir pte (by simp), Except.ok.injEq] at hit
    rw [userByte_mapped dir pte, hit]
    exact .inl rfl
  | brought _ brought hit =>
    obtain ⟨pd, dir, absent⟩ := brought.dir
    obtain ⟨pd', x, dir', pte, -, zero⟩ := brought.mapped
    rw [translate_mapped addr dir' pte (by simp), Except.ok.injEq] at hit
    rw [userByte_absent dir absent, ← zero, hit]
    exact .inl rfl
  | lost _ _ =>
    rw [kill_kernel]
    exact .inr rfl
  | panic _ => exact .inr rfl

/-- Both functions keep their contract exactly when the access does not fault. -/
theorem user_access_contract (s : Machine) (va : BitVec 32) (addr : isUserVaddr va = true)
    (byte : UInt8) : (GetUserContract s va ↔ Present s va false) ∧
      (PutUserContract s va byte ↔ Present s va true) :=
  ⟨getUser_contract_iff addr, putUser_contract_iff addr byte⟩

section Hidden

/-- The same machine, but for bytes of memory outside of `A`. -/
def MachineHidden (A : Nat → Prop) (s t : Machine) : Prop :=
  ∃ m, Hidden A s.toMem m ∧ t = { s with toMem := m }

variable {A : Nat → Prop}

theorem paging_respects {x : Paging α} (h : Respects (SpaceHidden A) x) :
    Respects (MachineHidden A) (paging x) := by
  refine .zoom h ?_ ?_
  · rintro s t ⟨m, hidden, rfl⟩
    exact ⟨m, hidden, rfl⟩
  · rintro s t a b ⟨m, -, rfl⟩ ⟨m', hidden, rfl⟩
    exact ⟨m', hidden, rfl⟩

theorem threadExit_respects (α : Type) : Respects (MachineHidden A) (threadExit : Cpu α) := by
  refine .bind (.read ?_ fun s => ?_) fun _ => .stop _
  · rintro s t ⟨m, -, rfl⟩
    rfl
  · cases s.pagedir with
    | none => exact .pure _
    | some pd =>
      exact .bind (paging_respects (setPagedir_respects _)) fun _ =>
        paging_respects (pagedirDestroy_respects _)

theorem kill_respects (α : Type) (f : Frame) :
    Respects (MachineHidden A) (kill f : Cpu α) := by
  unfold kill
  split_ifs
  · exact threadExit_respects α
  · exact .stop _
  · exact threadExit_respects α

theorem bringIn_respects (f : Frame) (va : BitVec 32) :
    Respects (MachineHidden A) (bringIn f va) := by
  refine .bind (paging_respects (pagedirGetPage_respects _)) fun found => ?_
  cases found with
  | some _ => exact .bind (paging_respects (pagedirSetAccessed_respects _ _)) fun _ => .pure _
  | none =>
    refine .bind (paging_respects (alloc_respects (pallocGetMultiple_respects _ _))) fun kpage => ?_
    cases kpage with
    | none => exact kill_respects _ f
    | some kpage =>
      refine .bind (paging_respects (pagedirSetPage_respects _ _ _)) fun set => ?_
      cases set with
      | true => exact .pure _
      | false =>
        exact .bind (paging_respects (alloc_respects (pallocFreeMultiple_respects _ _))) fun _ =>
          kill_respects _ f

theorem pageFault_respects (f : Frame) (va : BitVec 32) :
    Respects (MachineHidden A) (pageFault f va) := by
  unfold pageFault
  simp only
  split_ifs
  · exact .pure _
  · exact kill_respects _ f
  · exact bringIn_respects f va
  · exact kill_respects _ f

end Hidden

/-- A process with an empty page directory in the first of two kernel pages, and one free
user page. -/
def bare : Machine where
  kernelPool := ⟨⟨2, [1], rfl, twoPages_small⟩, 0xc0100000, 2, rfl, kernelStart_aligned,
    kernelStart_above⟩
  userPool := ⟨⟨1, [0], allFree_length, onePage_small⟩, 0xc0102000, 1, rfl, by decide, by decide⟩
  initRamPages := 0x103
  ram _ := 0
  apart := by decide
  room := by decide
  fits := by decide
  pagedir := some ⟨0xc0100000, fun _ => none⟩
  getUserSite := ⟨0xc0021000, 0xc0021003, by decide, by decide⟩
  putUserSite := ⟨0xc0021100, 0xc0021102, by decide, by decide⟩
  directSite := ⟨0xc0021200, 0, by decide, by decide⟩
  kernelText a := a < 0xc0030000
  touched := []

/-- On a page that is not there `get_user` returns 0 and takes a frame for it. -/
theorem getUser_unrecovered : isUserVaddr 0x08048000#32 = true ∧
    ¬Present bare 0x08048000#32 false ∧ ((getUser 0x08048000#32).run bare).1 = .ok 0 ∧
    bare.userPool.usedMap.bit 0 = false ∧
    ((getUser 0x08048000#32).run bare).2.userPool.usedMap.bit 0 = true := by
  have returns : ((getUser 0x08048000#32).run bare).1.isOk = true := by rfl
  refine ⟨by decide, ?_, ?_, by rfl, by rfl⟩
  · rintro ⟨pd, x, dir, pte, -⟩
    cases dir
    cases pte
  · rcases (getUser_spec bare 0x08048000#32).read (by decide) with value | panic
    · exact value
    · rw [panic] at returns
      cases returns

/-- One page of the process is there, the one of entry `j` in table `i`. -/
def onePage (i j : Nat) (ram : Nat → UInt8) : Machine :=
  { bare with
    kernelPool := { bare.kernelPool with usedMap := ⟨2, [3], rfl, twoPages_small⟩ }
    userPool := { bare.userPool with usedMap := ⟨1, [1], firstUsed_length, onePage_small⟩ }
    ram := ram
    pagedir := some ⟨0xc0100000, fun i' => if i' = i then some ⟨0xc0101000, fun j' =>
      if j' = j then some ⟨0xc0102000, true, false⟩ else none⟩ else none⟩ }

def mapped : Machine := onePage 32 72 fun _ => 0

theorem user_access_contract_mapped : GetUserContract mapped 0x08048000#32 ∧
    PutUserContract mapped 0x08048000#32 7 := by
  have spec := user_access_contract mapped 0x08048000#32 (by decide) 7
  exact ⟨spec.1.mpr ⟨_, _, rfl, rfl, fun _ => rfl⟩, spec.2.mpr ⟨_, _, rfl, rfl, fun _ => rfl⟩⟩

end Pintos.PageFault
