import Pintos.HeapSizes
import Pintos.Descriptors
import Pintos.Syscall
import Pintos.LoaderRuns

/-! `sys_read` and `sys_write` of `userprog/syscall.c`. They move the bytes of a file through a
buffer from `malloc`, and bytes of user memory one by one with `get_user` and `put_user`. The
kernel is the processor, the heap in its memory, the file system and the open files of the
running thread. -/

namespace Pintos.Transfers
open Resumption ByteStore Stoppable Transition Vaddr Palloc Pagedir PageFault Demand UserMemory
open Accounts Disk InodeIO Filesys Descriptors
open Heap (Desc Arenas Malloc)
open HeapLayout HeapRuns HeapSizes
open Exec (Moves)

/-- The keys that are typed from now on, and what the console shows. -/
structure Kernel extends Machine where
  descs : List Desc
  fs : FS
  current : Thread
  input : List UInt8
  console : List UInt8

abbrev Sys := Exec Stop Kernel

def Kernel.arenas (s : Kernel) : Arenas := ⟨s.toMem, s.descs⟩

def Kernel.withArenas (s : Kernel) (a : Arenas) : Kernel :=
  { s with toMem := a.toMem, descs := a.descs }

def cpu {α : Type} (x : Cpu α) : Sys α := x.zoom Kernel.toMachine fun s m => { s with toMachine := m }

def heap {α : Type} (x : Malloc α) : Sys α := x.zoom Kernel.arenas Kernel.withArenas

/-- Whether the heap has a bounce buffer of one sector, as the file system asks for it. -/
def Kernel.bounce (s : Kernel) : List Bool :=
  match ((Heap.malloc 512).run s.arenas).1 with
  | .ok (some _) => []
  | _ => [false]

/-- A call of the file system. The bounce buffer that it may take is given back before it
returns, so that of the heap only matters whether it has one. -/
def transfer {α : Type} (x : Code α) : Sys α :=
  update fun s => (Prog.run x { s.fs with mallocs := s.bounce }).map fun r =>
    (r.1, { s with fs := { r.2 with mallocs := [] } })

/-- Nobody types when there is no key left. -/
def inputGetc : Sys UInt8 := do
  let s ← Exec.state
  match s.input with
  | [] => Exec.stop .hang
  | c :: rest => do
    Exec.modify fun s => { s with input := rest }
    pure c

def putbuf (bs : List UInt8) : Sys Unit := Exec.modify fun s => { s with console := s.console ++ bs }

def storeBytes (a : Nat) (bs : List UInt8) : Cpu Unit :=
  paging (alloc (Exec.modify fun m => m.store a bs))

def byteOf (value : BitVec 32) : UInt8 := UInt8.ofBitVec (value.setWidth 8)

def readKeys (buf : BitVec 32) : Nat → Nat → Sys Unit
  | 0, _ => pure ()
  | n + 1, i => do
    let c ← inputGetc
    if ← cpu (putUser (buf + BitVec.ofNat 32 i) c) then readKeys buf n (i + 1)
    else cpu sysExit

def copyOut (buffer : BitVec 32) (kernBuf : Nat) : Nat → Nat → Cpu Bool
  | 0, _ => pure true
  | n + 1, i => do
    let s ← Exec.state
    if ← putUser (buffer + BitVec.ofNat 32 i) (s.ram (kernBuf + i)) then
      copyOut buffer kernBuf n (i + 1)
    else pure false

/-- The copy loop of `sys_write`: whether all bytes could be read. -/
def copyIn (buffer : BitVec 32) (kernBuf : Nat) : Nat → Nat → Cpu Bool
  | 0, _ => pure true
  | n + 1, i => do
    let value ← getUser (buffer + BitVec.ofNat 32 i)
    if value = -1 then pure false
    else do
      storeBytes (kernBuf + i) [byteOf value]
      copyIn buffer kernBuf n (i + 1)

def readChunk (buf : BitVec 32) : Nat → Nat → Cpu (List UInt8)
  | 0, _ => pure []
  | n + 1, i => do
    let value ← getUser (buf + BitVec.ofNat 32 i)
    if value = -1 then sysExit
    else do
      let rest ← readChunk buf n (i + 1)
      pure (byteOf value :: rest)

def putChunks : Nat → BitVec 32 → Nat → Sys Unit
  | 0, _, _ => pure ()
  | fuel + 1, buf, bytesToWrite =>
    if bytesToWrite = 0 then pure ()
    else do
      let chunkSize := if bytesToWrite < 256 then bytesToWrite else 256
      let chunk ← cpu (readChunk buf chunkSize 0)
      putbuf chunk
      putChunks fuel (buf + BitVec.ofNat 32 chunkSize) (bytesToWrite - chunkSize)

def readFile (file : Nat) (buffer size : BitVec 32) (kernBuf : Nat) : Sys (BitVec 32) := do
  let bytes ← transfer (fileRead file size.toInt)
  cpu (storeBytes kernBuf bytes)
  if ← cpu (copyOut buffer kernBuf bytes.length 0) then do
    heap (Heap.free (some kernBuf))
    pure (BitVec.ofNat 32 bytes.length)
  else do
    heap (Heap.free (some kernBuf))
    cpu sysExit

def sysRead (fd buffer size : BitVec 32) : Sys (BitVec 32) := do
  if fd = 0 then do
    readKeys buffer size.toNat 0
    pure size
  else do
    let s ← Exec.state
    match findFd s.current fd with
    | none => pure (-1)
    | some e => do
      match ← heap (Heap.malloc size) with
      | none => pure (-1)
      | some kernBuf => readFile e.file buffer size kernBuf

def writeFile (file : Nat) (buffer size : BitVec 32) (kernBuf : Nat) : Sys (BitVec 32) := do
  if ← cpu (copyIn buffer kernBuf size.toNat 0) then do
    let s ← Exec.state
    let written ← transfer (fileWrite file (slice s.ram kernBuf size.toNat) size.toInt)
    heap (Heap.free (some kernBuf))
    pure (BitVec.ofInt 32 written)
  else do
    heap (Heap.free (some kernBuf))
    cpu sysExit

def sysWrite (fd buffer size : BitVec 32) : Sys (BitVec 32) := do
  if fd = 1 then do
    putChunks size.toNat buffer size.toNat
    pure size
  else do
    let s ← Exec.state
    match findFd s.current fd with
    | none => pure (-1)
    | some e => do
      match ← heap (Heap.malloc size) with
      | none => pure (-1)
      | some kernBuf => writeFile e.file buffer size kernBuf

variable {α β : Type} {s s' : Kernel} {buffer size : BitVec 32} {n i kernBuf : Nat}

instance : IsPreorder Machine UserOnly where
  refl := UserOnly.refl
  trans _ _ _ := UserOnly.trans

/-- The same of the kernel. -/
def KernelUserOnly (s s' : Kernel) : Prop := UserOnly s.toMachine s'.toMachine

instance : IsPreorder Kernel KernelUserOnly where
  refl s := UserOnly.refl s.toMachine
  trans _ _ _ := UserOnly.trans

theorem cpu_userOnly {x : Cpu α} (h : Moves UserOnly x) :
    Moves KernelUserOnly (cpu x) := fun s => h s.toMachine

theorem heap_userOnly (x : Malloc α) : Moves KernelUserOnly (heap x) :=
  fun s => ⟨[], rfl, by simp⟩

theorem run_transfer {x : Code α} {a : α} {fs : FS}
    (h : Prog.run x { s.fs with mallocs := s.bounce } = some (a, fs)) :
    (transfer x).run s = (.ok a, { s with fs := { fs with mallocs := [] } }) :=
  run_update (by rw [h]; rfl)

theorem run_transfer_none {x : Code α} (h : Prog.run x { s.fs with mallocs := s.bounce } = none) :
    (transfer x).run s = (.error .panic, s) := by
  have none : (Prog.run x { s.fs with mallocs := s.bounce }).map (fun r =>
      (r.1, { s with fs := { r.2 with mallocs := [] } })) = none := by rw [h]; rfl
  simp only [transfer, update, none]

theorem transfer_userOnly (x : Code α) : Moves KernelUserOnly (transfer x) := by
  intro s
  cases done : Prog.run x { s.fs with mallocs := s.bounce } with
  | none =>
    rw [run_transfer_none done]
    exact UserOnly.refl s.toMachine
  | some r =>
    rw [run_transfer done]
    exact UserOnly.refl s.toMachine

theorem inputGetc_userOnly : Moves KernelUserOnly inputGetc := by
  refine .read fun s => ?_
  cases s.input with
  | nil => exact .stop _
  | cons c rest => exact .bind (fun s => UserOnly.refl s.toMachine) fun _ => .pure _

theorem storeBytes_userOnly (a : Nat) (bs : List UInt8) :
    Moves UserOnly (storeBytes a bs) := fun s => ⟨[], rfl, by simp⟩

theorem sysExit_userOnly : Moves UserOnly (sysExit : Cpu α) := by
  refine .bind (fun s => ?_) fun _ => .stop _
  exact ⟨[], (processExit_pagedir s).2, by simp⟩

theorem getUser_userOnly {va : BitVec 32} (user : isUserVaddr va = true) :
    Moves UserOnly (getUser va) := fun s =>
  ⟨[(.getUser, va)], Syscall.Accessed.touched (getUser_spec s va), by simpa using user⟩

theorem putUser_userOnly {va : BitVec 32} (user : isUserVaddr va = true) (byte : UInt8) :
    Moves UserOnly (putUser va byte) := by
  intro s
  obtain ⟨r, s', spec, run⟩ := putUser_spec s va byte
  rw [run]
  exact ⟨[(.putUser, va)], Syscall.Accessed.touched spec, by simpa using user⟩

def InUser (buffer : BitVec 32) (i n : Nat) : Prop :=
  ∀ j, i ≤ j → j < i + n → isUserVaddr (buffer + BitVec.ofNat 32 j) = true

theorem InUser.first (h : InUser buffer i (n + 1)) :
    isUserVaddr (buffer + BitVec.ofNat 32 i) = true := h i (Nat.le_refl i) (by omega)

theorem InUser.rest (h : InUser buffer i (n + 1)) : InUser buffer (i + 1) n :=
  fun j le lt => h j (by omega) (by omega)

theorem InUser.mono {k : Nat} (h : InUser buffer i n) (le : k ≤ n) : InUser buffer i k :=
  fun j low lt => h j low (by omega)

theorem InUser.shift {k : Nat} (h : InUser buffer i n) (le : k ≤ n) :
    InUser (buffer + BitVec.ofNat 32 k) i (n - k) := by
  intro j low lt
  have user := h (k + j) (by omega) (by omega)
  rwa [BitVec.ofNat_add, ← BitVec.add_assoc] at user

theorem readKeys_userOnly (user : InUser buffer i n) :
    Moves KernelUserOnly (readKeys buffer n i) := by
  induction n generalizing i with
  | zero => exact .pure _
  | succ n ih =>
    refine .bind inputGetc_userOnly fun c =>
      .bind (cpu_userOnly (putUser_userOnly user.first c)) fun ok => ?_
    cases ok with
    | false => exact cpu_userOnly sysExit_userOnly
    | true => exact ih user.rest

theorem copyOut_userOnly (user : InUser buffer i n) :
    Moves UserOnly (copyOut buffer kernBuf n i) := by
  induction n generalizing i with
  | zero => exact .pure _
  | succ n ih =>
    refine .read fun s => .bind (putUser_userOnly user.first _) fun ok => ?_
    cases ok with
    | false => exact .pure _
    | true => exact ih user.rest

theorem copyIn_userOnly (user : InUser buffer i n) :
    Moves UserOnly (copyIn buffer kernBuf n i) := by
  induction n generalizing i with
  | zero => exact .pure _
  | succ n ih =>
    refine .bind (getUser_userOnly user.first) fun value => ?_
    split_ifs
    · exact .pure _
    · exact .bind (storeBytes_userOnly _ _) fun _ => ih user.rest

theorem readChunk_userOnly (user : InUser buffer i n) :
    Moves UserOnly (readChunk buffer n i) := by
  induction n generalizing i with
  | zero => exact .pure _
  | succ n ih =>
    refine .bind (getUser_userOnly user.first) fun value => ?_
    split_ifs
    · exact sysExit_userOnly
    · exact .bind (ih user.rest) fun _ => .pure _

theorem putChunks_userOnly {fuel : Nat} (user : InUser buffer 0 n) :
    Moves KernelUserOnly (putChunks fuel buffer n) := by
  induction fuel generalizing buffer n with
  | zero => exact .pure _
  | succ fuel ih =>
    rw [putChunks]
    split_ifs with done small
    · exact .pure _
    · exact .bind (cpu_userOnly (readChunk_userOnly user)) fun chunk =>
        .bind (fun s => UserOnly.refl s.toMachine) fun _ => ih (user.shift (Nat.le_refl n))
    · exact .bind (cpu_userOnly (readChunk_userOnly (user.mono (by omega)))) fun chunk =>
        .bind (fun s => UserOnly.refl s.toMachine) fun _ => ih (user.shift (by omega))

theorem transfer_length {file : Nat} {size : BitVec 32} {bytes : List UInt8}
    (run : (transfer (fileRead file size.toInt)).run s = (.ok bytes, s')) :
    bytes.length ≤ size.toNat := by
  cases done : Prog.run (fileRead file size.toInt) { s.fs with mallocs := s.bounce } with
  | none =>
    rw [run_transfer_none done] at run
    cases run
  | some r =>
    rw [run_transfer done] at run
    cases run
    obtain ⟨bs, fs⟩ := r
    rw [fileRead] at done
    obtain ⟨f, t, -, rest⟩ := Prog.run_bind_iff.mp done
    obtain ⟨bs', t', read, rest'⟩ := Prog.run_bind_iff.mp rest
    cases rest'
    have bound := readLoop_length read
    have sign : size.toInt.toNat ≤ size.toNat := by
      rw [BitVec.toInt_eq_toNat_cond]
      split_ifs <;> omega
    simp only [List.length_nil] at bound
    exact Nat.le_trans bound (by omega)

theorem readFile_userOnly {file : Nat} (user : InUser buffer 0 size.toNat) :
    Moves KernelUserOnly (readFile file buffer size kernBuf) := by
  intro s
  have first := transfer_userOnly (fileRead file size.toInt) s
  rcases run : (transfer (fileRead file size.toInt)).run s with ⟨e | bytes, t⟩
  · rw [run] at first
    rwa [readFile, Exec.run_bind_error run]
  rw [run] at first
  rw [readFile, Exec.run_bind_ok run]
  have next : Moves KernelUserOnly (do
      cpu (storeBytes kernBuf bytes)
      if ← cpu (copyOut buffer kernBuf bytes.length 0) then do
        heap (Heap.free (some kernBuf))
        pure (BitVec.ofNat 32 bytes.length)
      else do
        heap (Heap.free (some kernBuf))
        cpu sysExit) := by
    refine .bind (cpu_userOnly (storeBytes_userOnly _ _)) fun _ =>
      .bind (cpu_userOnly (copyOut_userOnly (user.mono (transfer_length run)))) fun ok => ?_
    cases ok with
    | false => exact .bind (heap_userOnly _) fun _ => cpu_userOnly sysExit_userOnly
    | true => exact .bind (heap_userOnly _) fun _ => .pure _
  exact first.trans (next t)

theorem writeFile_userOnly {file : Nat} (user : InUser buffer 0 size.toNat) :
    Moves KernelUserOnly (writeFile file buffer size kernBuf) := by
  refine .bind (cpu_userOnly (copyIn_userOnly user)) fun ok => ?_
  cases ok with
  | false => exact .bind (heap_userOnly _) fun _ => cpu_userOnly sysExit_userOnly
  | true =>
    exact .read fun s => .bind (transfer_userOnly _) fun _ => .bind (heap_userOnly _) fun _ => .pure _

theorem buffered_userOnly (fd size : BitVec 32) {move : FileDescriptor → Nat → Sys (BitVec 32)}
    (moves : ∀ e kernBuf, Moves KernelUserOnly (move e kernBuf)) :
    Moves KernelUserOnly (do
      let s ← Exec.state
      match findFd s.current fd with
      | none => pure (-1)
      | some e => do
        match ← heap (Heap.malloc size) with
        | none => pure (-1)
        | some kernBuf => move e kernBuf) := by
  refine .read fun s => ?_
  cases findFd s.current fd with
  | none => exact .pure _
  | some e =>
    refine .bind (heap_userOnly _) fun r => ?_
    cases r with
    | none => exact .pure _
    | some kernBuf => exact moves e kernBuf

theorem sysRead_userOnly (fd : BitVec 32) (user : InUser buffer 0 size.toNat) :
    Moves KernelUserOnly (sysRead fd buffer size) := by
  rw [sysRead]
  split_ifs
  · exact .bind (readKeys_userOnly user) fun _ => .pure _
  · exact buffered_userOnly fd size fun _ _ => readFile_userOnly user

theorem sysWrite_userOnly (fd : BitVec 32) (user : InUser buffer 0 size.toNat) :
    Moves KernelUserOnly (sysWrite fd buffer size) := by
  rw [sysWrite]
  split_ifs
  · exact .bind (putChunks_userOnly user) fun _ => .pure _
  · exact buffered_userOnly fd size fun _ _ => writeFile_userOnly user

/-- A buffer that does not run over the end of the address space is in user memory if its first
and its last byte are. -/
theorem checked_inUser {s s' : Machine} (wraps : buffer.toNat + size.toNat ≤ 2 ^ 32)
    (check : (checkValidBuffer buffer size).run s = (.ok (), s')) : InUser buffer 0 size.toNat := by
  intro j _ lt
  obtain ⟨_, t, -, rest⟩ := Exec.run_bind_iff.mp check
  have nonempty : 0 < size := by
    rw [BitVec.lt_def, show (0 : BitVec 32).toNat = 0 from rfl]
    omega
  rw [if_pos nonempty] at rest
  have last := checkValidPtr_user rest
  rw [isUserVaddr_iff] at last ⊢
  have lastNat : (buffer + size - 1).toNat = buffer.toNat + size.toNat - 1 := by
    bv_omega
  have place : (buffer + BitVec.ofNat 32 j).toNat = buffer.toNat + j := by
    bv_omega
  omega

section Copying

variable {t t' : Machine} {va : BitVec 32} {c : Page}

theorem Brought.keeps (h : Brought t va t') (used : c ∈ usedPages t.toMem) :
    c ∈ usedPages t'.toMem ∧ ∀ o < pgsize, t'.ram (c.2 + o) = t.ram (c.2 + o) := by
  cases h with
  | @intro pd pt m m' kpage dir absent taken table =>
    have has := taken.has kpage (span_one.mpr rfl)
    have ne : c.2 ≠ kpage := LoaderRuns.page_ne (d := (true, kpage)) (Pool.Used.has used) has
      fun same => notMem_taken taken (same ▸ used)
    have still : c ∈ usedPages (m.store kpage (List.replicate pgsize 0)) := by
      rw [usedPages_store, usedPages_taken taken]
      exact Set.mem_insert_of_mem _ used
    refine ⟨?_, fun o lt => ?_⟩
    · rcases table_page table with ⟨-, same⟩ | ⟨-, -, more⟩
      · exact same ▸ still
      · exact more ▸ Set.mem_insert_of_mem _ still
    · have kept := LoaderRuns.store_other (m := m) 0 (List.replicate pgsize 0)
        (Pool.Used.has used).aligned has.aligned ne lt (by simp)
      rw [Nat.add_zero] at kept
      exact (LoaderRuns.Table.ram table still lt).trans
        (kept.trans (congrFun (LoaderRuns.Taken.ram taken) _))

theorem getUser_keeps {value : BitVec 32} (run : (getUser va).run t = (.ok value, t'))
    (used : c ∈ usedPages t.toMem) :
    c ∈ usedPages t'.toMem ∧ ∀ o < pgsize, t'.ram (c.2 + o) = t.ram (c.2 + o) := by
  rcases getUser_ok run with rfl | brought
  · exact ⟨used, fun _ _ => rfl⟩
  · exact Brought.keeps (t := t.log .getUser va) brought used

theorem copyIn_keeps {u : Nat} {ok : Bool} (room : i + n ≤ u)
    (run : (copyIn buffer kernBuf n i).run t = (.ok ok, t')) (used : c ∈ usedPages t.toMem)
    {o : Nat} (lt : o < pgsize) (off : c.2 + o < kernBuf ∨ kernBuf + u ≤ c.2 + o) :
    t'.ram (c.2 + o) = t.ram (c.2 + o) := by
  induction n generalizing i t with
  | zero =>
    cases run
    rfl
  | succ n ih =>
    obtain ⟨value, t1, read, rest⟩ := Exec.run_bind_iff.mp run
    obtain ⟨used1, same⟩ := getUser_keeps read used
    split_ifs at rest
    · cases rest
      exact same o lt
    obtain ⟨_, t2, stored, rest⟩ := Exec.run_bind_iff.mp rest
    cases stored
    have byte : (t1.toMem.store (kernBuf + i) [byteOf value]).ram (c.2 + o) = t1.ram (c.2 + o) :=
      splice_off _ _ (by simp only [List.length_singleton]; omega)
    have later := ih (by omega) rest (by
      change c ∈ usedPages (t1.toMem.store _ _)
      rwa [usedPages_store])
    exact later.trans (byte.trans (same o lt))

end Copying

end Pintos.Transfers
