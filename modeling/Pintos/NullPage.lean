import Pintos.Tokens

/-! The page at address 0. Pages of a process come from its executable, its stack and the
page-fault handler. The first two never take the page at 0, and the arguments on the stack are
far from it; the handler brings in whatever page is asked for. -/

namespace Pintos.NullPage
open ByteStore Stoppable Vaddr Palloc Pagedir PageFault Demand UserMemory Loader LoaderRuns Process
  Tokens

def Clear (s : Machine) : Prop := pteOf s 0 = none

variable {α β : Type} {s s' : Machine} {va : BitVec 32}

/-- `x` does not map it, whether it returns, and then with `φ`, or stops. -/
def KeepsClear (x : Cpu α) (φ : α → Prop) : Prop :=
  Exec.Triple Clear x (fun a s => φ a ∧ Clear s) fun _ => Clear

theorem KeepsClear.pure {φ : α → Prop} {a : α} (h : φ a) : KeepsClear (pure a) φ :=
  Exec.Triple.pure fun _ clear => ⟨h, clear⟩

theorem KeepsClear.bind {φ : α → Prop} {ψ : β → Prop} {x : Cpu α} {f : α → Cpu β}
    (hx : KeepsClear x φ) (hf : ∀ a, φ a → KeepsClear (f a) ψ) : KeepsClear (x >>= f) ψ :=
  Exec.Triple.bind hx fun a s ⟨h, clear⟩ => hf a h s clear

theorem KeepsClear.of_moves {x : Cpu α} (h : ∀ s, Clear s → Clear (x.run s).2) :
    KeepsClear x fun _ => True := by
  intro s clear
  have after := h s clear
  rcases run : x.run s with ⟨e | a, t⟩
  · rw [run] at after
    exact after
  · rw [run] at after
    exact ⟨trivial, after⟩

theorem KeepsClear.final {φ : α → Prop} {x : Cpu α} (h : KeepsClear x φ) (clear : Clear s) :
    Clear (x.run s).2 := by
  have after := h s clear
  rcases run : x.run s with ⟨e | a, t⟩
  · rw [run] at after
    exact after
  · rw [run] at after
    exact after.2

theorem alloc_clear (x : Alloc α) : KeepsClear (paging (alloc x)) fun _ => True :=
  .of_moves fun _ clear => clear

theorem threadExit_gone (s : Machine) :
    ∃ e t, Clear t ∧ ∀ α : Type, (threadExit : Cpu α).run s = (.error e, t) := by
  obtain ⟨e, t, run⟩ := threadExit_run s
  refine ⟨e, t, ?_, run⟩
  have gone := (processExit_pagedir s).1
  have last : (processExit.run s).2 = t := by
    have run := run Unit
    rcases exit : processExit.run s with ⟨e' | a, t'⟩
    · rw [threadExit, Exec.run_bind_error exit] at run
      exact (Prod.mk.inj run).2
    · rw [threadExit, Exec.run_bind_ok exit] at run
      exact (Prod.mk.inj run).2
  rw [last] at gone
  rw [Clear, pteOf, gone]
  rfl

theorem threadExit_clear {φ : α → Prop} : KeepsClear (threadExit : Cpu α) φ := by
  intro s _
  obtain ⟨e, t, clear, run⟩ := threadExit_gone s
  rw [run]
  exact clear

theorem kill_clear (f : Frame) {φ : α → Prop} : KeepsClear (kill f : Cpu α) φ := by
  unfold kill
  split_ifs
  · exact threadExit_clear
  · exact fun _ clear => clear
  · exact threadExit_clear

theorem Accessed.clear {user : Bool} {kind : Kind} {w : Option UInt8} {eip eax : BitVec 32}
    {r : Except Stop (BitVec 32) × Machine} (h : Accessed user (s.log kind va) va w eip eax r)
    (off : pgsize ≤ va.toNat) (clear : Clear s) : Clear r.2 := by
  have page : pgsize = 4096 := rfl
  have performed : ∀ (t : Machine) a, Clear t → Clear (perform t a w eax).2 := by
    intro t a clear
    cases w <;> exact clear
  cases h with
  | made hit => exact performed _ _ clear
  | brought addr brought hit =>
    refine performed _ _ ?_
    have page0 : (0 : BitVec 32).toNat / 4096 ≠ va.toNat / 4096 := by
      rw [show (0 : BitVec 32).toNat = 0 from rfl]
      omega
    exact (Brought.pteOf_other brought page0).trans clear
  | @lost code m fault same =>
    have ended : KeepsClear (kill (accessFrame user code eip eax) : Cpu (BitVec 32))
        fun _ => True := kill_clear _
    exact ended.final (s := { s.log kind va with toMem := m }) clear
  | panic dir => exact clear

theorem direct_clear (kind : Kind) (w : Option UInt8) (off : pgsize ≤ va.toNat) :
    KeepsClear (direct kind va w) fun _ => True :=
  .of_moves fun s clear => Accessed.clear (direct_spec kind s va w) off clear

def address : Access → BitVec 32
  | .user _ _ va _ => va
  | .getUser uaddr => uaddr
  | .putUser udst _ => udst
  | .direct _ va _ => va

theorem perform_clear {a : Access} (off : pgsize ≤ (address a).toNat) :
    KeepsClear a.perform fun _ => True := by
  cases a with
  | user eip eax va w =>
    exact .bind (.of_moves fun s clear => Accessed.clear (userAccess_spec s eip eax va w) off clear)
      fun _ _ => .pure trivial
  | getUser uaddr =>
    exact .bind (.of_moves fun s clear => Accessed.clear (getUser_spec s uaddr) off clear)
      fun _ _ => .pure trivial
  | putUser udst byte =>
    refine .bind (.of_moves fun s clear => ?_) fun _ _ => .pure trivial
    obtain ⟨r, t, spec, run⟩ := putUser_spec s udst byte
    rw [run]
    exact Accessed.clear spec off clear
  | direct kind va w => exact .bind (direct_clear kind w off) fun _ _ => .pure trivial

theorem performAll_clear {accesses : List Access}
    (off : ∀ a ∈ accesses, pgsize ≤ (address a).toNat) :
    KeepsClear (performAll accesses) fun _ => True := by
  induction accesses with
  | nil => exact .pure trivial
  | cons a rest ih =>
    rw [List.forall_mem_cons] at off
    exact .bind (perform_clear off.1) fun _ _ => ih off.2

/-! The arguments of a process are less than two pages below `PHYS_BASE`. -/

theorem storeBytes_clear {bs : List UInt8} (low : pgsize ≤ va.toNat)
    (fits : va.toNat + bs.length ≤ 2 ^ 32) : KeepsClear (storeBytes va bs) fun _ => True := by
  induction bs generalizing va with
  | nil => exact .pure trivial
  | cons b rest ih =>
    rw [List.length_cons] at fits
    refine .bind (direct_clear _ _ low) fun _ _ => ?_
    cases rest with
    | nil => exact .pure trivial
    | cons c rest =>
      have next : (va + 1).toNat = va.toNat + 1 := by
        rw [List.length_cons] at fits
        rw [BitVec.toNat_add, show (1 : BitVec 32).toNat = 1 from rfl]
        omega
      exact ih (by omega) (by omega)

def size (args : List (List UInt8)) : Nat := (args.map fun t => t.length + 1).sum
variable {esp : BitVec 32}

theorem sub_toNat {n : Nat} (le : n ≤ esp.toNat) :
    (esp - BitVec.ofNat 32 n).toNat = esp.toNat - n := by
  have lt := esp.isLt
  have small : n % 2 ^ 32 = n := Nat.mod_eq_of_lt (by omega)
  rw [BitVec.toNat_sub, BitVec.toNat_ofNat, small]
  omega

theorem pushStrings_clear (args : List (List UInt8)) (room : pgsize + size args ≤ esp.toNat) :
    KeepsClear (pushStrings args esp)
      fun r => r.1.toNat = esp.toNat - size args ∧ r.2.length = args.length := by
  induction args with
  | nil => exact .pure ⟨rfl, rfl⟩
  | cons token rest ih =>
    have more : size (token :: rest) = token.length + 1 + size rest := List.sum_cons
    refine .bind (ih (by omega)) fun r placed => ?_
    obtain ⟨esp', argv⟩ := r
    obtain ⟨place, count⟩ := placed
    simp only at place count ⊢
    have next : (esp' - BitVec.ofNat 32 (token.length + 1)).toNat = esp'.toNat - (token.length + 1) :=
      sub_toNat (by omega)
    refine .bind (storeBytes_clear (by omega) ?_) fun _ _ => .pure ⟨next.trans (by omega), ?_⟩
    · have lt := esp'.isLt
      rw [List.length_append, List.length_singleton]
      omega
    · rw [List.length_cons, count, List.length_cons]

theorem pushWord_clear (w : BitVec 32) (room : pgsize + 4 ≤ esp.toNat) :
    KeepsClear (pushWord esp w) fun esp' => esp'.toNat = esp.toNat - 4 := by
  have next : (esp - 4).toNat = esp.toNat - 4 := sub_toNat (n := 4) (by omega)
  have lt := esp.isLt
  refine .bind (storeBytes_clear (by omega) ?_) fun _ _ => .pure next
  rw [le32_length]
  omega

theorem pushWords_clear (ws : List (BitVec 32)) (room : pgsize + 4 * ws.length ≤ esp.toNat) :
    KeepsClear (pushWords ws esp) fun esp' => esp'.toNat = esp.toNat - 4 * ws.length := by
  induction ws with
  | nil => exact .pure rfl
  | cons w rest ih =>
    rw [List.length_cons] at room ⊢
    refine .bind (ih (by omega)) fun esp' place => ?_
    refine (pushWord_clear w (by omega)).mono (fun _ => id) (fun a s h => ?_) fun _ _ => id
    exact ⟨by omega, h.2⟩

theorem pushArguments_clear {args : List (List UInt8)}
    (room : pgsize + size args + 4 * args.length + 19 ≤ esp.toNat) :
    KeepsClear (pushArguments args esp) fun _ => True := by
  refine .bind (pushStrings_clear args (by omega)) fun r placed => ?_
  obtain ⟨esp1, argv⟩ := r
  obtain ⟨place, count⟩ := placed
  simp only at place count ⊢
  generalize pad : (4 - esp1.toNat % 4) % 4 = align
  have few : align < 4 := pad ▸ Nat.mod_lt _ (by decide)
  have aligned : (esp1 - BitVec.ofNat 32 align).toNat = esp1.toNat - align := sub_toNat (by omega)
  have lt := esp1.isLt
  refine .bind (storeBytes_clear (by omega) (by rw [List.length_replicate]; omega)) fun _ _ => ?_
  refine .bind (pushWord_clear 0 (by omega)) fun esp2 place2 => ?_
  refine .bind (pushWords_clear argv (by omega)) fun esp3 place3 => ?_
  refine .bind (pushWord_clear _ (by omega)) fun esp4 place4 => ?_
  refine .bind (pushWord_clear _ (by omega)) fun esp5 place5 => ?_
  exact (pushWord_clear 0 (by omega)).mono (fun _ => id) (fun _ _ h => ⟨trivial, h.2⟩) fun _ _ => id

theorem setupStackArguments_clear (cmdLine : List UInt8) (high : 3 * pgsize ≤ esp.toNat) :
    KeepsClear (setupStackArguments esp cmdLine) fun _ => True := by
  have page : pgsize = 4096 := rfl
  have limit : maxArguments = 128 := rfl
  refine .bind (alloc_clear _) fun page _ => ?_
  cases page with
  | none => exact .pure trivial
  | some cmdCopy =>
    have copied : KeepsClear (paging (alloc (strlcpy cmdCopy cmdLine)))
        fun copy => copy = cmdLine.take (pgsize - 1) := fun _ clear => ⟨rfl, clear⟩
    refine .bind copied fun copy same => ?_
    subst same
    rw [parseArguments_eq]
    split_ifs with few
    · have bytes : size (tokens (cmdLine.take (pgsize - 1))) ≤ _ := tokens_length _
      rw [List.length_take] at bytes
      exact .bind (pushArguments_clear (by omega)) fun _ _ =>
        .bind (alloc_clear _) fun _ _ => .pure trivial
    · exact .pure trivial

theorem load_clear {file : Option OpenFile} {l l' : Loading} {eip : BitVec 32}
    (run : (load file).run l = (.ok (some (eip, esp)), l')) :
    esp = physBase ∧ (l'.pagedir.bind fun pd => pd.pte 0) = none := by
  obtain ⟨r, t, run', -, -, loaded⟩ := load_spec l file
  rw [run] at run'
  cases run'
  obtain ⟨f, u, -, -, empty, -, stack, v, headers, -, seen⟩ := loaded eip esp rfl
  have zero : (0 : BitVec 32).toNat = 0 := rfl
  have page : stackPage.toNat = 3221221376 := rfl
  have uncovered : ∀ phdr ∈ phdrsAt f.content (ehdrOf f.content).phoff.toNat
      (ehdrOf f.content).phnum, phdr.type = ptLoad → ¬Covers phdr 0 := by
    intro phdr member load covers
    have low := (headers.valid phdr member load).low
    have first := covers.1
    rw [zero] at first
    omega
  have unseen : view l'.toSpace 0 = none := by
    rw [seen, if_neg (by omega), headers.old 0 uncovered, empty]
  exact ⟨stack, Option.map_eq_none_iff.mp unseen⟩

theorem loadProcess_clear (file : Option OpenFile) (child : Child) :
    KeepsClear (loadProcess file child) fun _ => True := by
  intro s _
  obtain ⟨r, l, run, -⟩ := load_spec ⟨s.toSpace, ⟨[], 0, [], by decide⟩, []⟩ file
  have loaded : (loading (load file)).run s = (.ok r, { s with toSpace := l.toSpace }) :=
    Exec.run_zoom run
  rw [loadProcess, Exec.run_bind_ok loaded]
  cases r with
  | none =>
    obtain ⟨e, t, clear, exit⟩ := threadExit_gone { s with toSpace := l.toSpace }
    simp only [exit]
    exact clear
  | some entry =>
    obtain ⟨eip, esp⟩ := entry
    obtain ⟨rfl, clear⟩ := load_clear run
    exact KeepsClear.bind (setupStackArguments_clear child.cmdLine (by decide))
      (fun _ _ => .bind (alloc_clear _) fun _ _ => .pure trivial) _ clear

theorem startProcess_clear (files : List UInt8 → Option OpenFile) (child : Child) :
    KeepsClear (startProcess files child) fun _ => True := by
  refine .bind (alloc_clear _) fun page _ => ?_
  cases page with
  | none => exact .bind (alloc_clear _) fun _ _ => .pure trivial
  | some fnCopy =>
    exact .bind (alloc_clear _) fun copy _ => .bind (alloc_clear _) fun name _ =>
      loadProcess_clear (files name) child

/-- The page at address 0 is never mapped in a process that starts without pages and makes no
access to it, neither itself nor through the kernel, until it ends. -/
theorem page_zero_unmapped (files : List UInt8 → Option OpenFile) (child : Child)
    {accesses : List Access} (off : ∀ a ∈ accesses, pgsize ≤ (address a).toNat)
    (killed : Option Frame) (s : Machine) :
    pteOf ((do let _ ← startProcess files child; performAll accesses).run
      { s with pagedir := none }).2 0 = none ∧
    pteOf ((process files child accesses killed).run { s with pagedir := none }).2 0 = none := by
  have running : KeepsClear (do let _ ← startProcess files child; performAll accesses)
      fun _ => True :=
    .bind (startProcess_clear files child) fun _ _ => performAll_clear off
  have ending : KeepsClear (process files child accesses killed) fun _ => True := by
    refine .bind (startProcess_clear files child) fun _ _ => .bind (performAll_clear off)
      fun _ _ => ?_
    cases killed with
    | none => exact threadExit_clear
    | some f => exact kill_clear f
  exact ⟨running.final rfl, ending.final rfl⟩

def roomy : Machine :=
  { bare with
    kernelPool := ⟨⟨8, [1], firstUsed_length, by decide⟩, 0xc0100000, 8, rfl, kernelStart_aligned,
      kernelStart_above⟩
    userPool := ⟨⟨8, [1], firstUsed_length, by decide⟩, 0xc0108000, 8, rfl, by decide, by decide⟩
    initRamPages := 0x110
    apart := by decide
    room := by decide
    fits := by decide }

def newcomer : Child := ⟨0xc0100000, [0x61], 0xc0108000, [0x61]⟩

set_option maxRecDepth 100000 in
theorem page_zero_unmapped_spin :
    ((do
      let _ ← startProcess (fun _ => some spin) newcomer
      performAll [.user 0x08048054 0 0x08048054 none]).run { roomy with pagedir := none }).1 =
        .ok () ∧
    pteOf ((do
      let _ ← startProcess (fun _ => some spin) newcomer
      performAll [.user 0x08048054 0 0x08048054 none]).run { roomy with pagedir := none }).2 0 =
        none := by
  refine ⟨by rfl, (page_zero_unmapped _ _ ?_ none roomy).1⟩
  simp only [List.forall_mem_cons]
  decide

set_option maxRecDepth 100000 in
/-- A program reads through a null pointer: it goes on, and the page is mapped. -/
theorem null_page_brought_in :
    ((do
      let _ ← startProcess (fun _ => some spin) newcomer
      performAll [.user 0x08048054 0 0 none]).run { roomy with pagedir := none }).1 = .ok () ∧
    (pteOf ((do
      let _ ← startProcess (fun _ => some spin) newcomer
      performAll [.user 0x08048054 0 0 none]).run { roomy with pagedir := none }).2 0).isSome :=
  ⟨by rfl, by rfl⟩

end Pintos.NullPage
