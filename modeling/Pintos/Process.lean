import Pintos.LoaderRuns
import Pintos.UserMemory
import Mathlib.Data.Set.Card
import Mathlib.Order.BooleanAlgebra.Set

/-! The life of a process, from `userprog/process.c`: `process_execute` makes a thread for a
command line, the thread loads the program and passes it its arguments, the program runs and
ends, and the page of the thread is released by the next one that is scheduled. Strings in
pages that one thread writes and nobody else knows of are passed on as values. -/

namespace Pintos.Process
open ByteStore Stoppable Vaddr Palloc Pagedir PageFault Demand UserMemory Accounts Loader
  LoaderRuns
open Exec (Triple run_bind_ok)

def blank : UInt8 := 0x20

def strtokR (s : List UInt8) : Option (List UInt8 × List UInt8) :=
  match s.dropWhile (· == blank) with
  | [] => none
  | c :: rest =>
    some ((c :: rest).takeWhile (· != blank), ((c :: rest).dropWhile (· != blank)).tail)

def cutToken (s : List UInt8) : List UInt8 :=
  s.takeWhile (· == blank) ++ (s.dropWhile (· == blank)).takeWhile (· != blank)

def strlcpy (page : Nat) (src : List UInt8) : Alloc (List UInt8) := do
  Exec.modify fun m => m.store page (src.take (pgsize - 1) ++ [0])
  pure (src.take (pgsize - 1))

/-- The first call of `strtok_r` on a string in a page. -/
def strtokFirst (page : Nat) (s : List UInt8) : Alloc (List UInt8) := do
  Exec.modify fun m => m.store (page + (cutToken s).length) [0]
  pure (cutToken s)

/-- A thread that is to run `start_process`: its page and its name, and the page with the
command line. -/
structure Child where
  thread : Nat
  name : List UInt8
  fileName : Nat
  cmdLine : List UInt8

/-- The page and the name of the new thread. -/
def threadCreate (name : List UInt8) : Alloc (Option (Nat × List UInt8)) := do
  match ← pallocGetPage { zero := true } with
  | none => pure none
  | some t => pure (some (t, name.take 15))

def processExecute (fileName : List UInt8) : Alloc (Option Child) := do
  match ← pallocGetPage { user := true, zero := true, assert := true } with
  | none => pure none
  | some fnCopy => do
    let cmdLine ← strlcpy fnCopy fileName
    match ← threadCreate (cutToken fileName) with
    | none => do
      pallocFreePage (some fnCopy)
      pure none
    | some (t, name) => pure (some ⟨t, name, fnCopy, cmdLine⟩)

/-- The tokens of a command line with room for `n` more; there is none for the last. -/
def parseArguments : Nat → List UInt8 → Option (List (List UInt8))
  | 0, _ => none
  | n + 1, s =>
    match strtokR s with
    | none => some []
    | some (token, rest) => (parseArguments n rest).map (token :: ·)

def storeBytes : BitVec 32 → List UInt8 → Cpu Unit
  | _, [] => pure ()
  | va, b :: rest => do
    let _ ← direct .stack va (some b)
    storeBytes (va + 1) rest

/-- Push the arguments from right to left; the stack pointer then, and their addresses. -/
def pushStrings : List (List UInt8) → BitVec 32 → Cpu (BitVec 32 × List (BitVec 32))
  | [], esp => pure (esp, [])
  | token :: rest, esp => do
    let (esp, argv) ← pushStrings rest esp
    let esp := esp - BitVec.ofNat 32 (token.length + 1)
    storeBytes esp (token ++ [0])
    pure (esp, esp :: argv)

def pushWord (esp w : BitVec 32) : Cpu (BitVec 32) := do
  storeBytes (esp - 4) (le32 w.toNat)
  pure (esp - 4)

def pushWords : List (BitVec 32) → BitVec 32 → Cpu (BitVec 32)
  | [], esp => pure esp
  | w :: rest, esp => do
    let esp ← pushWords rest esp
    pushWord esp w

def maxArguments : Nat := 128

/-- What is put on the stack for arguments that fit. -/
def pushArguments (args : List (List UInt8)) (esp : BitVec 32) : Cpu (BitVec 32) := do
  let (esp, argv) ← pushStrings args esp
  let align := (4 - esp.toNat % 4) % 4
  let esp := esp - BitVec.ofNat 32 align
  storeBytes esp (List.replicate align 0)
  let esp ← pushWord esp 0
  let esp ← pushWords argv esp
  let esp ← pushWord esp esp
  let esp ← pushWord esp (BitVec.ofNat 32 args.length)
  pushWord esp 0

/-- The result, which nobody looks at, and the stack pointer. -/
def setupStackArguments (esp : BitVec 32) (cmdLine : List UInt8) : Cpu (Bool × BitVec 32) := do
  match ← paging (alloc (pallocGetPage {})) with
  | none => pure (false, esp)
  | some cmdCopy => do
    let copy ← paging (alloc (strlcpy cmdCopy cmdLine))
    match parseArguments maxArguments copy with
    | none => pure (false, esp)
    | some args => do
      let esp ← pushArguments args esp
      paging (alloc (pallocFreePage (some cmdCopy)))
      pure (true, esp)

/-- `load` begins without a file and opens the executable. -/
def loading {α : Type} (x : Load α) : Cpu α :=
  x.zoom (fun s => ⟨s.toSpace, ⟨[], 0, [], emptyFile_small⟩, []⟩) fun s l =>
    { s with toSpace := l.toSpace }

/-- The part of `start_process` from the call of `load` on. -/
def loadProcess (file : Option OpenFile) (child : Child) : Cpu (BitVec 32 × BitVec 32) := do
  match ← loading (load file) with
  | none => threadExit
  | some (eip, esp) => do
    let (_, esp) ← setupStackArguments esp child.cmdLine
    paging (alloc (pallocFreePage (some child.fileName)))
    pure (eip, esp)

/-- Entry point and stack pointer of the program; `files` is the result of `filesys_open` for
each name. -/
def startProcess (files : List UInt8 → Option OpenFile) (child : Child) :
    Cpu (BitVec 32 × BitVec 32) := do
  match ← paging (alloc (pallocGetPage { assert := true, zero := true, user := true })) with
  | none => do
    paging (alloc (pallocFreePage (some child.fileName)))
    pure (0, 0)
  | some fnCopy => do
    let copy ← paging (alloc (strlcpy fnCopy child.cmdLine))
    let name ← paging (alloc (strtokFirst fnCopy copy))
    loadProcess (files name) child

/-- An access to memory while a process runs, its own or one by the kernel for it. -/
inductive Access where
  | user (eip eax va : BitVec 32) (w : Option UInt8)
  | getUser (uaddr : BitVec 32)
  | putUser (udst : BitVec 32) (byte : UInt8)
  | direct (kind : Kind) (va : BitVec 32) (w : Option UInt8)

def Access.perform : Access → Cpu Unit
  | .user eip eax va w => do
    let _ ← userAccess eip eax va w
    pure ()
  | .getUser uaddr => do
    let _ ← PageFault.getUser uaddr
    pure ()
  | .putUser udst byte => do
    let _ ← PageFault.putUser udst byte
    pure ()
  | .direct kind va w => do
    let _ ← PageFault.direct kind va w
    pure ()

def performAll : List Access → Cpu Unit
  | [] => pure ()
  | a :: rest => do
    a.perform
    performAll rest

/-- A course of the process: it starts, makes accesses and exits, or is killed by an exception
with the given frame. -/
def process (files : List UInt8 → Option OpenFile) (child : Child) (accesses : List Access)
    (killed : Option Frame) : Cpu Unit := do
  let _ ← startProcess files child
  performAll accesses
  match killed with
  | none => sysExit
  | some f => kill f

/-- What `thread_schedule_tail` does with a thread that is dying. -/
def threadScheduleTail (child : Child) : Alloc Unit := pallocFreePage (some child.thread)

/-- Memory after `process_execute` and, if there is a child, after its end. -/
inductive Executed (files : List UInt8 → Option OpenFile) (cmdLine : List UInt8)
    (accesses : List Access) (killed : Option Frame) (s : Machine) : Mem → Prop where
  | refused {m : Mem} : (processExecute cmdLine).run s.toMem = (.ok none, m) →
      Executed files cmdLine accesses killed s m
  | reaped {m m' : Mem} {t : Machine} {child : Child} :
      (processExecute cmdLine).run s.toMem = (.ok (some child), m) →
      (process files child accesses killed).run { s with toMem := m, pagedir := none } =
        (.error .exit, t) →
      (threadScheduleTail child).run t.toMem = (.ok (), m') →
      Executed files cmdLine accesses killed s m'

variable {α : Type} {s s' : Machine} {m m' : Mem} {base : Set Page} {va : BitVec 32} {user : Bool}

/-- All pages in use but those of `base` are held by the page directory of the process. -/
def Owns (base : Set Page) (s : Machine) : Prop :=
  ∃ pd, s.pagedir = some pd ∧ Balanced s.toMem pd base

theorem Owns.congr (h : Owns base s) (used : usedPages m = usedPages s.toMem) :
    Owns base { s with toMem := m } := by
  obtain ⟨pd, dir, balanced⟩ := h
  exact ⟨pd, dir, balanced.congr used⟩

theorem Brought.owns (h : Brought s va s') (addr : isUserVaddr va = true) (owns : Owns base s) :
    Owns base s' := by
  obtain ⟨pd', dir', balanced⟩ := owns
  cases h with
  | @intro pd pt m m' kpage dir absent taken table =>
    obtain rfl : pd' = pd := Option.some.inj (dir'.symm.trans dir)
    have took := (balanced.take taken).congr (usedPages_store kpage (List.replicate pgsize 0))
    have absent' : pd'.pte (pgRoundDown va) = none := (pte_congr (pgRoundDown_page va)).trans absent
    exact ⟨_, rfl, Balanced.map (x := ⟨kpage, true, false⟩) took (balanced.fresh taken)
      (pgRoundDown_user addr) absent' table⟩

variable {w : Option UInt8} {page : Nat} {child : Child} {before : Set Page}

section Pages

attribute [local irreducible] pagedirDestroy

theorem threadExit_owns (h : Owns base s) :
    ∃ t, usedPages t.toMem = base ∧ ∀ α : Type, (threadExit : Cpu α).run s = (.error .exit, t) := by
  obtain ⟨pd, dir, balanced⟩ := h
  obtain ⟨m, destroy, used⟩ := pagedirDestroy_spec (s := ⟨s.toMem, none⟩) balanced
  have exit : processExit.run s = (.ok (), { s with toSpace := ⟨m, none⟩ }) := by
    rw [processExit, run_bind_ok (Exec.run_state s), dir]
    simp only
    rw [run_bind_ok (run_paging (rfl : (setPagedir none).run s.toSpace = _))]
    exact run_paging destroy
  exact ⟨_, used, fun α => run_bind_ok exit _⟩

def Gone (base : Set Page) (e : Stop) (s : Machine) : Prop :=
  e = .panic ∨ e = .exit ∧ usedPages s.toMem = base

/-- The kernel does not end the process in the middle of an access of its own. -/
def Panics (e : Stop) (_ : Machine) : Prop := e = .panic

theorem kill_owns {f : Frame} (h : Owns base s) : ∃ e t, Gone base e t ∧
    (f.cs = selKcseg → e = .panic) ∧ ∀ α : Type, (kill f : Cpu α).run s = (.error e, t) := by
  obtain ⟨t, used, exit⟩ := threadExit_owns h
  unfold kill
  split_ifs with user kernel
  · refine ⟨.exit, t, .inr ⟨rfl, used⟩, fun kernel => ?_, exit⟩
    rw [kernel] at user
    cases user
  · exact ⟨.panic, s, .inl rfl, fun _ => rfl, fun _ => rfl⟩
  · exact ⟨.exit, t, .inr ⟨rfl, used⟩, fun e => absurd e kernel, exit⟩

theorem Accessed.owns {eip eax : BitVec 32} {r : Except Stop (BitVec 32)}
    (h : Accessed user s va w eip eax (r, s')) (owns : Owns base s) :
    (∀ b, r = .ok b → Owns base s') ∧
      ∀ e, r = .error e → Gone base e s' ∧ (user = false → e = .panic) := by
  have performed : ∀ (t : Machine) a, Owns base t → (r, s') = PageFault.perform t a w eax →
      (∀ b, r = .ok b → Owns base s') ∧
        ∀ e, r = .error e → Gone base e s' ∧ (user = false → e = .panic) := by
    intro t a owns run
    cases w with
    | none =>
      cases run
      exact ⟨fun _ _ => owns, fun _ e => by cases e⟩
    | some b =>
      cases run
      exact ⟨fun _ _ => owns.congr (usedPages_store _ _), fun _ e => by cases e⟩
  generalize pair : (r, s') = out at h
  cases h with
  | made hit => exact performed s _ owns pair
  | brought addr brought hit => exact performed _ _ (Brought.owns brought addr owns) pair
  | @lost code m fault same =>
    have used : usedPages m = usedPages s.toMem := Set.ext fun c => same c.1 c.2
    obtain ⟨e, t, gone, kernel, run⟩ :=
      kill_owns (f := accessFrame user code eip eax) (owns.congr used)
    rw [run] at pair
    cases pair
    refine ⟨fun b e => (by cases e), fun e' same => ?_⟩
    cases same
    refine ⟨gone, fun e => kernel ?_⟩
    rw [e]
    rfl
  | panic dir =>
    obtain ⟨pd, dir', -⟩ := owns
    rw [dir] at dir'
    cases dir'

theorem owns_of_spec {x : Cpu (BitVec 32)} {kind : Kind}
    (spec : ∀ s, ∃ eip eax, Accessed user (s.log kind va) va w eip eax (x.run s)) :
    Triple (Owns base) x (fun _ => Owns base)
      fun e t => Gone base e t ∧ (user = false → e = .panic) := by
  intro s owns
  obtain ⟨eip, eax, spec⟩ := spec s
  rcases run : x.run s with ⟨r, t⟩
  rw [run] at spec
  obtain ⟨returns, stops⟩ := Accessed.owns (s := s.log kind va) spec owns
  cases r with
  | ok b => exact returns b rfl
  | error e => exact stops e rfl

theorem panics_of_spec {x : Cpu (BitVec 32)} {kind : Kind}
    (spec : ∀ s, ∃ eip eax, Accessed false (s.log kind va) va w eip eax (x.run s)) :
    Triple (Owns base) x (fun _ => Owns base) Panics :=
  (owns_of_spec spec).mono (fun _ => id) (fun _ _ => id) fun _ _ stops => stops.2 rfl

theorem direct_owns (kind : Kind) (va : BitVec 32) (w : Option UInt8) :
    Triple (Owns base) (direct kind va w) (fun _ => Owns base) Panics :=
  panics_of_spec fun s => ⟨_, _, direct_spec kind s va w⟩

theorem storeBytes_owns (va : BitVec 32) (bs : List UInt8) :
    Triple (Owns base) (storeBytes va bs) (fun _ => Owns base) Panics := by
  induction bs generalizing va with
  | nil => exact .pure fun _ => id
  | cons b rest ih => exact .bind (direct_owns _ _ _) fun _ => ih (va + 1)

theorem pushStrings_owns (args : List (List UInt8)) (esp : BitVec 32) :
    Triple (Owns base) (pushStrings args esp) (fun _ => Owns base) Panics := by
  induction args with
  | nil => exact .pure fun _ => id
  | cons token rest ih =>
    exact .bind ih fun _ => .bind (storeBytes_owns _ _) fun _ => .pure fun _ => id

theorem pushWord_owns (esp w : BitVec 32) :
    Triple (Owns base) (pushWord esp w) (fun _ => Owns base) Panics :=
  .bind (storeBytes_owns _ _) fun _ => .pure fun _ => id

theorem pushWords_owns (ws : List (BitVec 32)) (esp : BitVec 32) :
    Triple (Owns base) (pushWords ws esp) (fun _ => Owns base) Panics := by
  induction ws with
  | nil => exact .pure fun _ => id
  | cons w rest ih => exact .bind ih fun _ => pushWord_owns _ w

theorem pushArguments_owns (args : List (List UInt8)) (esp : BitVec 32) :
    Triple (Owns base) (pushArguments args esp) (fun _ => Owns base) Panics :=
  .bind (pushStrings_owns args esp) fun _ => .bind (storeBytes_owns _ _) fun _ =>
    .bind (pushWord_owns _ _) fun _ => .bind (pushWords_owns _ _) fun _ =>
      .bind (pushWord_owns _ _) fun _ => .bind (pushWord_owns _ _) fun _ => pushWord_owns _ _

theorem Owns.take (h : Owns base s) (taken : Taken s.toMem m user page 1)
    (used : usedPages m' = usedPages m) :
    Owns (insert (user, page) base) { s with toMem := m' } ∧ (user, page) ∉ base := by
  obtain ⟨pd, dir, balanced⟩ := h
  exact ⟨⟨pd, dir, (balanced.take taken).congr used⟩, balanced.fresh taken⟩

theorem free_owns (fresh : (user, page) ∉ base) : Triple (Owns (insert (user, page) base))
    (paging (alloc (pallocFreePage (some page)))) (fun _ => Owns base) Panics := by
  intro s owns
  obtain ⟨pd, dir, balanced⟩ := owns
  obtain ⟨m, freed, run⟩ := pallocFreePage_spec (balanced.mem_used (.inl (Set.mem_insert _ _)))
  rw [run_paging (run_alloc run)]
  exact ⟨pd, dir, (balanced.give fresh freed).congr (usedPages_store _ _)⟩

def TooMany (cmdLine : List UInt8) : Prop :=
  parseArguments maxArguments (cmdLine.take (pgsize - 1)) = none

/-- The copy of the command line is given back, unless there are too many arguments. -/
theorem setupStackArguments_owns (esp : BitVec 32) (cmdLine : List UInt8) :
    Triple (Owns base) (setupStackArguments esp cmdLine)
      (fun _ t => Owns base t ∨ TooMany cmdLine ∧
        ∃ page, (false, page) ∉ base ∧ Owns (insert (false, page) base) t) Panics := by
  intro s owns
  rw [setupStackArguments]
  rcases pallocGetPage_cases {} s.toMem with ⟨page, m, taken, run⟩ | ⟨-, run⟩
  · obtain ⟨owns', fresh⟩ := owns.take taken
      (usedPages_store page (cmdLine.take (pgsize - 1) ++ [0]))
    rw [run_bind_ok (run_paging (run_alloc run))]
    simp only
    rw [run_bind_ok (run_paging (run_alloc (rfl : (strlcpy page cmdLine).run m = _)))]
    cases parse : parseArguments maxArguments (cmdLine.take (pgsize - 1)) with
    | none => exact .inr ⟨parse, page, fresh, owns'⟩
    | some args =>
      exact Triple.bind (pushArguments_owns args esp)
        (fun _ => .bind (free_owns fresh) fun _ => .pure fun _ => .inl) _ owns'
  · rw [run_bind_ok (run_paging (run_alloc run))]
    exact .inl owns

theorem free_known (known : (user, page) ∈ base) :
    Triple (Owns base) (paging (alloc (pallocFreePage (some page))))
      (fun _ => Owns (base \ {(user, page)})) Panics := by
  have again : insert (user, page) (base \ {(user, page)}) = base := by
    rw [Set.insert_sdiff_singleton, Set.insert_eq_of_mem known]
  have fresh : (user, page) ∉ base \ {(user, page)} := fun mem => mem.2 rfl
  have free := free_owns fresh
  rw [again] at free
  exact free

/-- A program is loaded into a page directory that owns its pages, or what there is of the
directory can be given back. -/
theorem loading_owns (file : Option OpenFile) (s : Machine) :
    ∃ r t, (loading (load file)).run s = (.ok r, t) ∧
      (Owns (usedPages s.toMem) t ∨
        r = none ∧ t.pagedir = none ∧ usedPages t.toMem = usedPages s.toMem) := by
  obtain ⟨r, l, run, pages, -, loaded⟩ := load_spec ⟨s.toSpace, ⟨[], 0, [], by decide⟩, []⟩ file
  refine ⟨r, { s with toSpace := l.toSpace }, Exec.run_zoom run, ?_⟩
  rcases pages with good | ⟨dir, used⟩
  · exact .inl good
  refine .inr ⟨?_, dir, used⟩
  cases r with
  | none => rfl
  | some entry =>
    obtain ⟨f, u, -, -, -, -, -, t, -, -, seen⟩ := loaded entry.1 entry.2 rfl
    have stack := seen stackPage
    rw [if_pos rfl, view, dir] at stack
    cases stack

theorem threadExit_none (dir : s.pagedir = none) : (threadExit : Cpu α).run s = (.error .exit, s) := by
  have exit : processExit.run s = (.ok (), s) := by
    rw [processExit, run_bind_ok (Exec.run_state s), dir]
    rfl
  exact run_bind_ok exit _

/-- What is in use but not held by the process when it is loaded: the command line has been
given back, its copy in `setup_stack_arguments` not always. -/
def Settled (child : Child) (before base : Set Page) : Prop :=
  base = before \ {(true, child.fileName)} ∨ TooMany child.cmdLine ∧ ∃ cmdCopy,
    (false, cmdCopy) ∉ before ∧ base = insert (false, cmdCopy) before \ {(true, child.fileName)}

theorem loadProcess_pages (file : Option OpenFile) (known : (true, child.fileName) ∈ before) :
    Triple (fun s => usedPages s.toMem = before) (loadProcess file child)
      (fun _ t => ∃ base, Settled child before base ∧ Owns base t) (Gone before) := by
  rintro s rfl
  obtain ⟨r, t, run, pages⟩ := loading_owns file s
  rw [loadProcess, run_bind_ok run]
  rcases pages with owns | ⟨rfl, dir, used⟩
  · cases r with
    | none =>
      obtain ⟨u, used, exit⟩ := threadExit_owns owns
      rw [exit]
      exact .inr ⟨rfl, used⟩
    | some entry =>
      have rest : Triple (fun t => Owns (usedPages s.toMem) t ∨ TooMany child.cmdLine ∧
          ∃ page, (false, page) ∉ usedPages s.toMem ∧
            Owns (insert (false, page) (usedPages s.toMem)) t)
          (paging (alloc (pallocFreePage (some child.fileName))))
          (fun _ t => ∃ base, Settled child (usedPages s.toMem) base ∧ Owns base t) Panics := by
        rintro u (owns | ⟨many, page, fresh, owns⟩)
        · exact ((free_known known).mono (fun _ => id)
            (fun _ _ owns => ⟨_, .inl rfl, owns⟩) fun _ _ => id) u owns
        · exact ((free_known (Set.mem_insert_of_mem _ known)).mono (fun _ => id)
            (fun _ _ owns => ⟨_, .inr ⟨many, page, fresh, rfl⟩, owns⟩) fun _ _ => id) u owns
      refine Triple.mono (Q := Panics) ?_ (fun _ => id) (fun _ _ => id)
        (fun _ _ => .inl) t owns
      exact .bind (setupStackArguments_owns entry.2 child.cmdLine) fun _ =>
        .bind rest fun _ => .pure fun _ => id
  · simp only
    rw [threadExit_none dir]
    exact .inr ⟨rfl, used⟩

/-- The process has a copy of the command line that it does not give back. -/
theorem startProcess_pages (files : List UInt8 → Option OpenFile)
    (known : (true, child.fileName) ∈ before) :
    Triple (fun s => usedPages s.toMem = before) (startProcess files child)
      (fun _ t => ∃ fnCopy base, (true, fnCopy) ∉ before ∧
        Settled child (insert (true, fnCopy) before) base ∧ Owns base t)
      fun e t => e = .panic ∨ e = .exit ∧ ∃ fnCopy, (true, fnCopy) ∉ before ∧
        usedPages t.toMem = insert (true, fnCopy) before := by
  rintro s rfl
  rw [startProcess]
  rcases pallocGetPage_cases { assert := true, zero := true, user := true } s.toMem with
    ⟨fnCopy, m, taken, run⟩ | ⟨-, run⟩
  · have fresh := notMem_taken taken
    rw [run_bind_ok (run_paging (run_alloc run))]
    simp only
    rw [run_bind_ok (run_paging (run_alloc (rfl : (strlcpy fnCopy child.cmdLine).run _ = _))),
      run_bind_ok (run_paging (run_alloc (rfl : (strtokFirst fnCopy _).run _ = _)))]
    have rest := loadProcess_pages (files (cutToken (child.cmdLine.take (pgsize - 1))))
      (Set.mem_insert_of_mem (true, fnCopy) known)
    refine rest.mono (fun _ => id) (fun _ t h => ?_) (fun e t gone => ?_) _ ?_
    · obtain ⟨base, settled, owns⟩ := h
      exact ⟨fnCopy, base, fresh, settled, owns⟩
    · exact gone.imp id fun ⟨exit, used⟩ => ⟨exit, fnCopy, fresh, used⟩
    · simp only [usedPages_store, if_true]
      exact usedPages_taken taken
  · rw [Exec.run_bind_error (run_paging (run_alloc run))]
    exact .inl rfl

theorem perform_owns (a : Access) :
    Triple (Owns base) a.perform (fun _ => Owns base) (Gone base) := by
  cases a with
  | user eip eax va w =>
    refine .bind ?_ fun _ => .pure fun _ => id
    exact (owns_of_spec fun s => ⟨_, _, userAccess_spec s eip eax va w⟩).mono (fun _ => id)
      (fun _ _ => id) fun _ _ stops => stops.1
  | getUser uaddr =>
    refine .bind ?_ fun _ => .pure fun _ => id
    exact (panics_of_spec fun s => ⟨_, _, getUser_spec s uaddr⟩).mono (fun _ => id)
      (fun _ _ => id) fun _ _ => .inl
  | putUser udst byte =>
    refine .bind (R := fun _ => Owns base) ?_ fun _ => .pure fun _ => id
    intro s owns
    obtain ⟨r, t, spec, run⟩ := putUser_spec s udst byte
    obtain ⟨returns, stops⟩ := Accessed.owns (s := s.log .putUser udst) spec owns
    rw [run]
    cases r with
    | ok b => exact returns b rfl
    | error e => exact (stops e rfl).1
  | direct kind va w =>
    refine .bind ?_ fun _ => .pure fun _ => id
    exact (direct_owns kind va w).mono (fun _ => id) (fun _ _ => id) fun _ _ => .inl

theorem performAll_owns (accesses : List Access) :
    Triple (Owns base) (performAll accesses) (fun _ => Owns base) (Gone base) := by
  induction accesses with
  | nil => exact .pure fun _ => id
  | cons a rest ih => exact .bind (perform_owns a) fun _ => ih

theorem ending_owns (killed : Option Frame) :
    Triple (Owns base) (match killed with | none => sysExit | some f => kill f : Cpu Unit)
      (fun _ _ => False) (Gone base) := by
  intro s owns
  cases killed with
  | none =>
    obtain ⟨t, used, exit⟩ := threadExit_owns owns
    rw [sysExit, exit]
    exact .inr ⟨rfl, used⟩
  | some f =>
    obtain ⟨e, t, gone, -, run⟩ := kill_owns (f := f) owns
    rw [run]
    exact gone

/-- The pages in use when a process has ended; it always ends, unless the kernel panics. -/
theorem process_pages (files : List UInt8 → Option OpenFile)
    (known : (true, child.fileName) ∈ before) (accesses : List Access) (killed : Option Frame) :
    Triple (fun s => usedPages s.toMem = before) (process files child accesses killed)
      (fun _ _ => False)
      fun e t => e = .panic ∨ e = .exit ∧ ∃ fnCopy, (true, fnCopy) ∉ before ∧
        (usedPages t.toMem = insert (true, fnCopy) before ∨
          Settled child (insert (true, fnCopy) before) (usedPages t.toMem)) := by
  refine .bind ((startProcess_pages files known).mono (fun _ => id) (fun _ _ => id)
    fun e t h => ?_) fun _ => ?_
  · exact h.imp id fun ⟨exit, fnCopy, fresh, used⟩ => ⟨exit, fnCopy, fresh, .inl used⟩
  · rintro t ⟨fnCopy, base, fresh, settled, owns⟩
    refine (Triple.bind (performAll_owns accesses) fun _ => ending_owns killed).mono
      (fun _ => id) (fun _ _ => id) (fun e u gone => ?_) t owns
    exact gone.imp id fun ⟨exit, used⟩ => ⟨exit, fnCopy, fresh, .inr (used ▸ settled)⟩

theorem processExecute_cases (cmdLine : List UInt8) (m : Mem) :
    (∃ m', (processExecute cmdLine).run m = (.error .panic, m')) ∨
    ((∀ page, (m.pool false).Has page → (m.pool false).Used page) ∧
      ∃ m', (processExecute cmdLine).run m = (.ok none, m') ∧ usedPages m' = usedPages m) ∨
    ∃ child m', (processExecute cmdLine).run m = (.ok (some child), m') ∧
      child.cmdLine = cmdLine.take (pgsize - 1) ∧ (m.pool false).Has child.thread ∧
      (false, child.thread) ∉ usedPages m ∧ (true, child.fileName) ∉ usedPages m ∧
      usedPages m' = insert (false, child.thread) (insert (true, child.fileName) (usedPages m)) := by
  rw [processExecute]
  rcases pallocGetPage_cases { user := true, zero := true, assert := true } m with
    ⟨fnCopy, m1, taken, run⟩ | ⟨-, run⟩
  · let m2 := (m1.store fnCopy (List.replicate pgsize 0)).store fnCopy
      (cmdLine.take (pgsize - 1) ++ [0])
    have used2 : usedPages m2 = insert (true, fnCopy) (usedPages m) := by
      rw [usedPages_store, usedPages_store, usedPages_taken taken]
    have other : ∀ page, (m2.pool false).Has page ↔ (m.pool false).Has page := fun page => by
      rw [store_pool, store_pool, taken.has_iff]
    have kernel : ∀ page, (m2.pool false).Used page ↔ (m.pool false).Used page := fun page => by
      change (false, page) ∈ usedPages m2 ↔ (false, page) ∈ usedPages m
      rw [used2]
      simp
    rw [run_bind_ok run]
    simp only [if_true]
    rw [run_bind_ok (rfl : (strlcpy fnCopy cmdLine).run _ = (_, m2))]
    rcases pallocGetPage_cases { zero := true } m2 with ⟨t, m3, taken', run'⟩ | ⟨full, run'⟩
    · have create : (threadCreate (cutToken cmdLine)).run m2 =
        (.ok (some (t, (cutToken cmdLine).take 15)), m3.store t (List.replicate pgsize 0)) :=
        run_bind_ok run' _
      refine .inr (.inr ⟨⟨t, (cutToken cmdLine).take 15, fnCopy, _⟩, _,
        run_bind_ok create _, rfl, ?_, ?_, notMem_taken taken, ?_⟩)
      · exact (other t).mp (taken'.has t (span_one.mpr rfl))
      · exact fun used => notMem_taken taken' ((kernel t).mpr used)
      · rw [usedPages_store, usedPages_taken taken', used2]
    · have create : (threadCreate (cutToken cmdLine)).run m2 = (.ok none, m2) :=
        run_bind_ok run' _
      have used : (true, fnCopy) ∈ usedPages m2 := used2 ▸ Set.mem_insert _ _
      obtain ⟨m3, freed, free⟩ := pallocFreePage_spec used
      refine .inr (.inl ⟨fun page has => (kernel page).mp (full page ((other page).mpr has)),
        _, (run_bind_ok create _).trans (run_bind_ok free _), ?_⟩)
      rw [usedPages_store, usedPages_freed freed, used2,
        Set.insert_sdiff_self_of_notMem (notMem_taken taken)]
  · exact .inl ⟨m, Exec.run_bind_error run _⟩

/-- What a process leaves behind: its own copy of the command line, and the one of its parent
if it could not be loaded or that of `setup_stack_arguments` if there were too many arguments. -/
theorem settled_lost {fnCopy : Nat} (thread : (false, child.thread) ∉ before)
    (fileName : (true, child.fileName) ∉ before)
    (fresh : (true, fnCopy) ∉ insert (false, child.thread) (insert (true, child.fileName) before))
    (ends : base = insert (true, fnCopy) (insert (false, child.thread)
      (insert (true, child.fileName) before)) ∨ Settled child
      (insert (true, fnCopy) (insert (false, child.thread) (insert (true, child.fileName) before)))
      base) :
    (false, child.thread) ∈ base ∧
    ∃ lost, base \ {(false, child.thread)} = before ∪ lost ∧ Disjoint before lost ∧
      (true, fnCopy) ∈ lost ∧ lost.encard ≤ 2 ∧
      ∀ page, (false, page) ∈ lost → TooMany child.cmdLine := by
  rcases ends with rfl | rfl | ⟨many, cmdCopy, fresh', rfl⟩
  · refine ⟨by simp, {(true, fnCopy), (true, child.fileName)}, ?_, ?_, by simp, (Set.encard_pair (by grind)).le,
      by simp⟩
    · ext c
      grind
    · rw [Set.disjoint_left]
      grind
  · refine ⟨by simp, {(true, fnCopy)}, ?_, ?_, rfl, by simp, by simp⟩
    · ext c
      grind
    · rw [Set.disjoint_left]
      grind
  · refine ⟨by simp, {(false, cmdCopy), (true, fnCopy)}, ?_, ?_, by simp, (Set.encard_pair (by grind)).le,
      fun _ _ => many⟩
    · ext c
      grind
    · rw [Set.disjoint_left]
      grind

theorem executed_or_panics (files : List UInt8 → Option OpenFile) (cmdLine : List UInt8)
    (accesses : List Access) (killed : Option Frame) (s : Machine) :
    (∃ m, Executed files cmdLine accesses killed s m) ∨
    (∃ m, (processExecute cmdLine).run s.toMem = (.error .panic, m)) ∨
    ∃ child m t, (processExecute cmdLine).run s.toMem = (.ok (some child), m) ∧
      (process files child accesses killed).run { s with toMem := m, pagedir := none } =
        (.error .panic, t) := by
  rcases processExecute_cases cmdLine s.toMem with panics | ⟨-, m, run, -⟩ |
    ⟨child, m, run, -, -, thread, fileName, used⟩
  · exact .inr (.inl panics)
  · exact .inl ⟨m, .refused run⟩
  have ends := process_pages files (Set.mem_insert_of_mem (false, child.thread)
    (Set.mem_insert (true, child.fileName) (usedPages s.toMem))) accesses killed
  rcases ran : (process files child accesses killed).run
    { s with toMem := m, pagedir := none } with ⟨e | a, t⟩
  · rcases ends.error used ran with rfl | ⟨rfl, fnCopy, fresh, ends⟩
    · exact .inr (.inr ⟨child, m, t, run, ran⟩)
    · obtain ⟨m', -, free⟩ := pallocFreePage_spec (settled_lost thread fileName fresh ends).1
      exact .inl ⟨_, .reaped run ran free⟩
  · exact (ends.ok used ran).elim

/-- A process gives back its pages just if it is never created. All that can be lost are
copies of the command line, one of them in the kernel pool if there are too many arguments. -/
theorem executed_pages {files : List UInt8 → Option OpenFile} {cmdLine : List UInt8}
    {accesses : List Access} {killed : Option Frame}
    (h : Executed files cmdLine accesses killed s m) :
    (usedPages m = usedPages s.toMem ↔
      ∀ page, (s.pool false).Has page → (s.pool false).Used page) ∧
    ∃ lost, usedPages m = usedPages s.toMem ∪ lost ∧ Disjoint (usedPages s.toMem) lost ∧
      lost.encard ≤ 2 ∧ ∀ page, (false, page) ∈ lost → TooMany cmdLine := by
  rcases processExecute_cases cmdLine s.toMem with ⟨m', run⟩ | ⟨full, m', run, used⟩ |
    ⟨child, m', run, cmd, has, thread, fileName, used⟩
  · cases h with
    | refused ran => rw [run] at ran; cases ran
    | reaped ran => rw [run] at ran; cases ran
  · cases h with
    | refused ran =>
      rw [run] at ran
      cases ran
      exact ⟨iff_of_true used full, ∅, by simp [used], by simp, by simp, by simp⟩
    | reaped ran => rw [run] at ran; cases ran
  · cases h with
    | refused ran => rw [run] at ran; cases ran
    | @reaped _ _ t _ ran ended tail =>
      rw [run] at ran
      cases ran
      obtain no | ⟨-, fnCopy, fresh, ends⟩ := (process_pages files
        (Set.mem_insert_of_mem _ (Set.mem_insert _ _)) accesses killed).error used ended
      · cases no
      obtain ⟨dying, lost, left, apart, copy, few, kernel⟩ :=
        settled_lost thread fileName fresh ends
      obtain ⟨m'', freed, free⟩ := pallocFreePage_spec dying
      rw [threadScheduleTail, free] at tail
      have last : m''.store child.thread (List.replicate pgsize 0xcc) = m := (Prod.ext_iff.mp tail).2
      have after : usedPages m = usedPages s.toMem ∪ lost := by
        rw [← last, usedPages_store, usedPages_freed freed, left]
      refine ⟨iff_of_false (fun same => ?_) (fun full => thread (full _ has)), lost, after, apart,
        few, fun page mem => ?_⟩
      · rw [after] at same
        exact Set.disjoint_left.mp apart (same ▸ .inr copy) copy
      · have many := kernel page mem
        rw [TooMany, cmd, List.take_take, Nat.min_self] at many
        exact many

end Pages

def parent (room : Bool) : Machine :=
  { bare with
    kernelPool := ⟨⟨3, [if room then 1 else 7], rfl, threePages_small⟩, 0xc0100000, 3, rfl,
      kernelStart_aligned, kernelStart_above⟩
    userPool := ⟨⟨2, [0], allFree_length, twoPages_small⟩, 0xc0103000, 2, by decide,
      thirdPage_aligned, thirdPage_above⟩
    initRamPages := 0x105
    apart := by decide +revert
    room := by decide
    fits := fivePages_fit }

theorem executed_pages_full : ∃ m, Executed (fun _ => none) [0x61] [] none (parent false) m ∧
    usedPages m = usedPages (parent false).toMem := by
  have none : ((processExecute [0x61]).run (parent false).toMem).1 = .ok none := by rfl
  have refused : Executed (fun _ => .none) [0x61] [] .none (parent false) _ :=
    .refused (Prod.ext none rfl)
  refine ⟨_, refused, (executed_pages refused).1.mpr ?_⟩
  rintro page ⟨i, lt, rfl⟩
  exact ⟨i, lt, rfl, by decide +revert⟩

def missing : Child := ⟨0xc0101000, [0x61], 0xc0103000, [0x61]⟩

def orphan : Machine :=
  { parent true with
    toMem := ((processExecute [0x61]).run (parent true).toMem).2
    pagedir := none }

set_option maxRecDepth 100000 in
/-- The executable is missing, and the command line is lost. -/
theorem command_line_lost : ∃ m, Executed (fun _ => none) [0x61] [] none (parent true) m ∧
    usedPages m ≠ usedPages (parent true).toMem := by
  have created : ((processExecute [0x61]).run (parent true).toMem).1 = .ok (some missing) := by rfl
  have exited : ((process (fun _ => none) missing [] none).run orphan).1 = .error .exit := by rfl
  have reaped : ((threadScheduleTail missing).run
    ((process (fun _ => none) missing [] none).run orphan).2.toMem).1 = .ok () := by rfl
  refine ⟨_, .reaped (Prod.ext created rfl) (Prod.ext exited rfl) (Prod.ext reaped rfl),
    fun same => ?_⟩
  have lost : (true, 0xc0103000) ∈ usedPages (parent true).toMem := by
    rw [← same]
    exact ⟨0, by decide, rfl, by rfl⟩
  obtain ⟨i, lt, -, used⟩ := lost
  revert used
  decide +revert

end Pintos.Process
