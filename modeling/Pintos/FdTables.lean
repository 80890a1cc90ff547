import Pintos.OpenCounts

/-! The descriptor tables of all processes, with the blocks that they are made of. The list of
a process and its entries are blocks from `malloc`, which hands out no block that is in use;
what a call does to the table of its process, and to no other, is followed over whole
histories. The variable `fd_entry` of `allocate_fd` is not set when the list cannot be made:
what is freed then may be any block. -/

namespace Pintos.FdTables
open Resumption Disk Directory Filesys Descriptors Transition Volume CallOpen CallClose Function
open OpenCounts (blank_created)
open ConcurrentCreate (nameA)
open Option (bind_eq_bind bind_eq_some_iff bind_some map_eq_some_iff some.injEq some_ne_none)

inductive Cell where
  | list (elems : List Nat)
  | entry (e : FileDescriptor)

/-- The members of `struct thread` for open files, with the address of the list. -/
structure Process where
  fdList : Option Nat
  nextFd : BitVec 32

def Process.new : Process := ⟨none, 2⟩

structure Kernel where
  fs : FS
  cells : Nat → Option Cell
  procs : Nat → Process

/-- What `malloc` returns for the list and for the entry, where null is `none`, and what the
variable `fd_entry` holds before it is set. -/
structure Answers where
  header : Option Nat
  entry : Option Nat
  unset : Option Nat

namespace Kernel

def listAt (k : Kernel) (b : Nat) : Option (List Nat) :=
  match k.cells b with
  | some (.list elems) => some elems
  | _ => none

def entryAt (k : Kernel) (b : Nat) : Option FileDescriptor :=
  match k.cells b with
  | some (.entry e) => some e
  | _ => none

def setCell (k : Kernel) (b : Nat) (c : Option Cell) : Kernel :=
  { k with cells := update k.cells b c }

def setProc (k : Kernel) (pid : Nat) (p : Process) : Kernel :=
  { k with procs := update k.procs pid p }

def store (k : Kernel) (b : Nat) (c : Cell) : Option Kernel :=
  if (k.cells b).isNone then some (k.setCell b (some c)) else none

def free (k : Kernel) : Option Nat → Kernel
  | none => k
  | some b => k.setCell b none

end Kernel

def pushEntry (k : Kernel) (pid list file : Nat) : Option Nat → Option (BitVec 32 × Kernel)
  | none => some (-1, k)
  | some b => do
    let fd := (k.procs pid).nextFd
    let k ← k.store b (.entry ⟨fd, file⟩)
    let elems ← k.listAt list
    some (fd, (k.setCell list (some (.list (elems ++ [b])))).setProc pid
      { k.procs pid with nextFd := fd + 1 })

def allocateFd (k : Kernel) (pid file : Nat) (a : Answers) : Option (BitVec 32 × Kernel) :=
  match (k.procs pid).fdList with
  | some list => pushEntry k pid list file a.entry
  | none =>
    match a.header with
    | none => some (-1, k.free a.unset)
    | some list => do
      let k ← k.store list (.list [])
      pushEntry (k.setProc pid { k.procs pid with fdList := some list }) pid list file a.entry

def findLoop (k : Kernel) (fd : BitVec 32) : List Nat → Option (Option FileDescriptor)
  | [] => some none
  | b :: rest => do
    let e ← k.entryAt b
    if e.fd = fd then some (some e) else findLoop k fd rest

/-- The entry, if there is one; no result at all is a walk over a block that is no entry. -/
def findFd (k : Kernel) (pid : Nat) (fd : BitVec 32) : Option (Option FileDescriptor) :=
  match (k.procs pid).fdList with
  | none => some none
  | some list => do
    let elems ← k.listAt list
    findLoop k fd elems

def closeLoop (k : Kernel) (list : Nat) (fd : BitVec 32) : List Nat → Option Kernel
  | [] => some k
  | b :: rest => do
    let e ← k.entryAt b
    if e.fd = fd then do
      let r ← Prog.run (fileClose (some e.file)) k.fs
      let elems ← k.listAt list
      some ((({ k with fs := r.2 } : Kernel).setCell list (some (.list (elems.erase b)))).free b)
    else closeLoop k list fd rest

def closeFd (k : Kernel) (pid : Nat) (fd : BitVec 32) : Option Kernel :=
  match (k.procs pid).fdList with
  | none => some k
  | some list => do
    let elems ← k.listAt list
    closeLoop k list fd elems

def sysOpen (k : Kernel) (pid : Nat) (name : CString) (a : Answers) :
    Option (BitVec 32 × Kernel) := do
  let r ← Prog.run (filesysOpen name) k.fs
  match r.1 with
  | none => some (-1, { k with fs := r.2 })
  | some filePtr => do
    let r ← allocateFd { k with fs := r.2 } pid filePtr a
    if r.1 = -1 then do
      let t ← Prog.run (fileClose (some filePtr)) r.2.fs
      some (-1, { r.2 with fs := t.2 })
    else some r

def sysClose (k : Kernel) (pid : Nat) (fd : BitVec 32) : Option Kernel := closeFd k pid fd

def onFile (k : Kernel) (pid : Nat) (fd : BitVec 32) (code : Nat → Code Unit) : Option Kernel := do
  match ← findFd k pid fd with
  | none => some k
  | some e => do
    let r ← Prog.run (code e.file) k.fs
    some { k with fs := r.2 }

/-- The keyboard has no entry. The buffer in the kernel may be refused. -/
def sysRead (k : Kernel) (pid : Nat) (fd size : BitVec 32) : Option Kernel :=
  if fd = 0 then some k
  else onFile k pid fd fun file => do
    let ok ← malloc
    if ok then do
      let _ ← fileRead file size.toInt
      pure ()
    else pure ()

def sysWrite (k : Kernel) (pid : Nat) (fd : BitVec 32) (buffer : List UInt8) : Option Kernel :=
  if fd = 1 then some k
  else onFile k pid fd fun file => do
    let ok ← malloc
    if ok then do
      let _ ← fileWrite file buffer (BitVec.ofNat 32 buffer.length).toInt
      pure ()
    else pure ()

def sysSeek (k : Kernel) (pid : Nat) (fd position : BitVec 32) : Option Kernel :=
  onFile k pid fd fun file => fileSeek file position.toInt

def Kernel.elems (k : Kernel) (pid : Nat) : List Nat :=
  ((k.procs pid).fdList.bind k.listAt).getD []

def Kernel.thread (k : Kernel) (pid : Nat) : Thread :=
  ⟨(k.procs pid).fdList.map fun _ => (k.elems pid).filterMap k.entryAt, (k.procs pid).nextFd⟩

structure Formed (k : Kernel) : Prop where
  made : ∀ {pid list}, (k.procs pid).fdList = some list → k.listAt list = some (k.elems pid)
  lists : ∀ {pid q list}, (k.procs pid).fdList = some list → (k.procs q).fdList = some list → pid = q
  entries : ∀ {pid b}, b ∈ k.elems pid → ∃ e, k.entryAt b = some e
  nodup : ∀ pid, (k.elems pid).Nodup
  apart : ∀ {pid q b}, b ∈ k.elems pid → b ∈ k.elems q → pid = q

section Blocks

variable {k k' : Kernel} {pid q list b : Nat} {fd : BitVec 32}

theorem cells_of_list {es : List Nat} (h : k.listAt b = some es) : k.cells b = some (.list es) := by
  unfold Kernel.listAt at h
  split at h
  · cases h
    assumption
  · cases h

theorem cells_of_entry {e : FileDescriptor} (h : k.entryAt b = some e) :
    k.cells b = some (.entry e) := by
  unfold Kernel.entryAt at h
  split at h
  · cases h
    assumption
  · cases h

theorem listAt_congr (h : k'.cells b = k.cells b) : k'.listAt b = k.listAt b := by
  rw [Kernel.listAt, Kernel.listAt, h]

theorem entryAt_congr (h : k'.cells b = k.cells b) : k'.entryAt b = k.entryAt b := by
  rw [Kernel.entryAt, Kernel.entryAt, h]

theorem thread_congr (procs : k'.procs q = k.procs q)
    (made : ∀ list, (k.procs q).fdList = some list → k'.cells list = k.cells list)
    (kept : ∀ b ∈ k.elems q, k'.cells b = k.cells b) :
    k'.elems q = k.elems q ∧ k'.thread q = k.thread q := by
  have elems : k'.elems q = k.elems q := by
    rw [Kernel.elems, Kernel.elems, procs]
    cases own : (k.procs q).fdList with
    | none => rfl
    | some list => rw [bind_some, bind_some, listAt_congr (made list own)]
  refine ⟨elems, ?_⟩
  rw [Kernel.thread, Kernel.thread, procs, elems,
    List.filterMap_congr fun b mem => entryAt_congr (kept b mem)]

@[simp] theorem setCell_cells (c : Option Cell) (b' : Nat) :
    (k.setCell b c).cells b' = if b' = b then c else k.cells b' :=
  update_apply _ _ _ _

@[simp] theorem setCell_procs (c : Option Cell) : (k.setCell b c).procs = k.procs := rfl

@[simp] theorem setProc_cells (p : Process) : (k.setProc pid p).cells = k.cells := rfl

@[simp] theorem setProc_procs (p : Process) (q : Nat) :
    (k.setProc pid p).procs q = if q = pid then p else k.procs q :=
  update_apply _ _ _ _

theorem store_cases {c : Cell} (h : k.store b c = some k') :
    k.cells b = none ∧ k' = k.setCell b (some c) := by
  unfold Kernel.store at h
  split_ifs at h with unused
  cases h
  exact ⟨Option.isNone_iff_eq_none.mp unused, rfl⟩

theorem Formed.list_ne (h : Formed k) (own : (k.procs pid).fdList = some list)
    (mem : b ∈ k.elems q) : b ≠ list := by
  rintro rfl
  obtain ⟨e, entry⟩ := h.entries mem
  have both := (cells_of_entry entry).symm.trans (cells_of_list (h.made own))
  cases both

theorem Formed.unused (h : Formed k) (free : k.cells b = none) :
    (∀ q, (k.procs q).fdList ≠ some b) ∧ ∀ q, b ∉ k.elems q := by
  constructor
  · intro q own
    cases free.symm.trans (cells_of_list (h.made own))
  · intro q mem
    obtain ⟨e, entry⟩ := h.entries mem
    cases free.symm.trans (cells_of_entry entry)

/-- A change of one process: its table is `t` now, and the others are as before. -/
structure Touches (k k' : Kernel) (pid : Nat) (t : Thread) : Prop where
  formed : Formed k'
  own : k'.thread pid = t
  others : ∀ q, q ≠ pid → k'.thread q = k.thread q

theorem Touches.trans {k'' : Kernel} {t t' : Thread} (h : Touches k k' pid t)
    (h' : Touches k' k'' pid t') : Touches k k'' pid t' :=
  ⟨h'.formed, h'.own, fun q ne => (h'.others q ne).trans (h.others q ne)⟩

theorem Formed.touches (h : Formed k) (pid : Nat) (fs : FS) :
    Touches k { k with fs := fs } pid (k.thread pid) :=
  ⟨{ h with }, rfl, fun _ _ => rfl⟩

theorem elems_none (absent : (k.procs pid).fdList = none) : k.elems pid = [] := by
  rw [Kernel.elems, absent]
  rfl

theorem thread_entries (k : Kernel) (pid : Nat) :
    (k.thread pid).entries = (k.elems pid).filterMap k.entryAt := by
  rw [Kernel.thread, Thread.entries]
  cases own : (k.procs pid).fdList with
  | none =>
    rw [elems_none own]
    rfl
  | some list => rfl

/-- The list of process `pid` is at `list` now and has the entries `es`. Nothing else changes
in the blocks that belong to the other processes. -/
theorem Formed.change (h : Formed k) (k' : Kernel) (pid : Nat) {es : List Nat}
    (own : (k'.procs pid).fdList = some list) (here : k'.listAt list = some es)
    (entries : ∀ b ∈ es, ∃ e, k'.entryAt b = some e) (nodup : es.Nodup)
    (procs : ∀ q, q ≠ pid → k'.procs q = k.procs q)
    (lists : ∀ q l, q ≠ pid → (k.procs q).fdList = some l → l ≠ list ∧ k'.cells l = k.cells l)
    (others : ∀ q b, q ≠ pid → b ∈ k.elems q → b ∉ es ∧ k'.cells b = k.cells b) :
    Touches k k' pid ⟨some (es.filterMap k'.entryAt), (k'.procs pid).nextFd⟩ := by
  have mine : k'.elems pid = es := by
    rw [Kernel.elems, own, bind_some, here]
    rfl
  have rest : ∀ q, q ≠ pid → k'.elems q = k.elems q ∧ k'.thread q = k.thread q := fun q ne =>
    thread_congr (procs q ne) (fun l own' => (lists q l ne own').2)
      fun b mem => (others q b ne mem).2
  refine ⟨⟨fun {q l} own' => ?_, fun {q r l} own1 own2 => ?_, fun {q b} mem => ?_, fun q => ?_,
    fun {q r b} mem mem' => ?_⟩, ?_, fun q ne => (rest q ne).2⟩
  · by_cases ours : q = pid
    · subst ours
      rw [own, some.injEq] at own'
      rw [mine, ← own', here]
    · rw [procs q ours] at own'
      rw [(rest q ours).1, listAt_congr (lists q l ours own').2]
      exact h.made own'
  · have differ : ∀ q, q ≠ pid → (k'.procs q).fdList ≠ some list := fun q ne own' =>
      (lists q list ne (procs q ne ▸ own')).1 rfl
    by_cases first : q = pid <;> by_cases second : r = pid
    · rw [first, second]
    · rw [first, own] at own1
      exact absurd (own1 ▸ own2) (differ r second)
    · rw [second, own] at own2
      exact absurd (own2 ▸ own1) (differ q first)
    · exact h.lists (procs q first ▸ own1) (procs r second ▸ own2)
  · by_cases ours : q = pid
    · rw [ours, mine] at mem
      exact entries b mem
    · rw [(rest q ours).1] at mem
      rw [entryAt_congr (others q b ours mem).2]
      exact h.entries mem
  · by_cases ours : q = pid
    · rw [ours, mine]
      exact nodup
    · rw [(rest q ours).1]
      exact h.nodup q
  · by_cases first : q = pid <;> by_cases second : r = pid
    · rw [first, second]
    · rw [first, mine] at mem
      rw [(rest r second).1] at mem'
      exact absurd mem (others r b second mem').1
    · rw [second, mine] at mem'
      rw [(rest q first).1] at mem
      exact absurd mem' (others q b first mem).1
    · exact h.apart ((rest q first).1 ▸ mem) ((rest r second).1 ▸ mem')
  · rw [Kernel.thread, mine, own]
    rfl

theorem Formed.newList (h : Formed k) (pid : Nat) (free : k.cells list = none) :
    Touches k ((k.setCell list (some (.list []))).setProc pid
      { k.procs pid with fdList := some list }) pid ⟨some [], (k.procs pid).nextFd⟩ := by
  obtain ⟨noList, noEntry⟩ := h.unused free
  have touched := h.change ((k.setCell list (some (.list []))).setProc pid
    { k.procs pid with fdList := some list }) pid (by simp; rfl)
    (show _ = some [] by simp [Kernel.listAt]) (by simp) List.nodup_nil (fun q ne => by simp [ne])
    (fun q l ne own => ?_) fun q b ne mem => ⟨by simp, ?_⟩
  · simpa using touched
  · have differ : l ≠ list := fun e => noList q (e ▸ own)
    exact ⟨differ, by simp [differ]⟩
  · have differ : b ≠ list := fun e => noEntry q (e ▸ mem)
    simp [differ]

end Blocks

section Calls

variable {k k' : Kernel} {pid list file b : Nat} {fd : BitVec 32} {es : List Nat} {a : Answers}
  {name : CString}

theorem findLoop_eq (entries : ∀ b ∈ es, ∃ e, k.entryAt b = some e) :
    findLoop k fd es = some ((es.filterMap k.entryAt).find? fun e => e.fd = fd) := by
  induction es with
  | nil => rfl
  | cons b es ih =>
    obtain ⟨⟨e, entry⟩, rest⟩ := List.forall_mem_cons.mp entries
    rw [findLoop, entry, bind_eq_bind, bind_some, List.filterMap_cons_some entry, List.find?_cons]
    by_cases hit : e.fd = fd
    · simp only [hit, if_true, decide_true]
    · simp only [hit, if_false, decide_false]
      exact ih rest

theorem findFd_eq (h : Formed k) (pid : Nat) (fd : BitVec 32) :
    findFd k pid fd = some (Descriptors.findFd (k.thread pid) fd) := by
  rw [findFd, Descriptors.findFd, thread_entries]
  cases own : (k.procs pid).fdList with
  | none =>
    rw [elems_none own]
    rfl
  | some list =>
    simp only
    rw [h.made own, bind_eq_bind, bind_some]
    exact findLoop_eq fun b mem => h.entries mem

theorem pushEntry_cases (h : Formed k) (own : (k.procs pid).fdList = some list)
    {answer : Option Nat} (run : pushEntry k pid list file answer = some (fd, k')) :
    (fd = -1 ∧ k' = k) ∨ (fd = (k.procs pid).nextFd ∧
      Touches k k' pid ⟨some ((k.thread pid).entries ++ [⟨fd, file⟩]), fd + 1⟩) := by
  cases answer with
  | none =>
    cases run
    exact .inl ⟨rfl, rfl⟩
  | some b =>
    obtain ⟨k1, stored, rest⟩ := bind_eq_some_iff.mp run
    obtain ⟨elems, here, last⟩ := bind_eq_some_iff.mp rest
    obtain ⟨free, rfl⟩ := store_cases stored
    obtain ⟨noList, noEntry⟩ := h.unused free
    have off : b ≠ list := fun e => noList pid (e ▸ own)
    have old : k.listAt list = some elems := by
      rw [← here]
      exact (listAt_congr (by rw [setCell_cells, if_neg (Ne.symm off)])).symm
    obtain rfl : k.elems pid = elems := Option.some.inj ((h.made own).symm.trans old)
    rw [some.injEq, Prod.mk.injEq] at last
    obtain ⟨rfl, last⟩ := last
    have cells : ∀ c, k'.cells c = if c = list then some (.list (k.elems pid ++ [b])) else
        if c = b then some (.entry ⟨(k.procs pid).nextFd, file⟩) else k.cells c := by
      intro c
      rw [← last]
      simp
    have procs : ∀ q, k'.procs q = if q = pid then ⟨some list, (k.procs pid).nextFd + 1⟩ else
        k.procs q := by
      intro q
      rw [← last]
      simp [own]
    have apart : ∀ q b', b' ∈ k.elems q → b' ≠ list ∧ b' ≠ b := fun q b' mem =>
      ⟨h.list_ne own mem, fun e => noEntry q (e ▸ mem)⟩
    have kept : ∀ b' ∈ k.elems pid, k'.entryAt b' = k.entryAt b' := fun b' mem =>
      entryAt_congr (by simp [cells, apart pid b' mem])
    have entry : k'.entryAt b = some ⟨(k.procs pid).nextFd, file⟩ := by
      simp [Kernel.entryAt, cells, off]
    have touched := h.change k' pid (by simp [procs])
      (show k'.listAt list = some (k.elems pid ++ [b]) by simp [Kernel.listAt, cells])
      (fun b' mem => ?_) ?_ (fun q ne => by simp [procs, ne]) (fun q l ne own' => ?_)
      fun q b' ne mem => ?_
    · refine .inr ⟨rfl, ?_⟩
      rwa [List.filterMap_append, List.filterMap_congr kept, List.filterMap_cons_some entry,
        List.filterMap_nil, ← thread_entries, procs, if_pos rfl] at touched
    · rcases List.mem_append.mp mem with old | new
      · rw [kept b' old]
        exact h.entries old
      · rw [List.mem_singleton.mp new]
        exact ⟨_, entry⟩
    · refine List.nodup_append.mpr ⟨h.nodup pid, List.nodup_singleton b, ?_⟩
      rintro x old y new rfl
      exact noEntry pid (List.mem_singleton.mp new ▸ old)
    · have differ : l ≠ list := fun e => ne (h.lists own' (e ▸ own))
      have used : l ≠ b := fun e => noList q (e ▸ own')
      exact ⟨differ, by simp [cells, differ, used]⟩
    · refine ⟨fun there => ?_, by simp [cells, apart q b' mem]⟩
      rcases List.mem_append.mp there with old | new
      · exact ne (h.apart mem old)
      · exact (apart q b' mem).2 (List.mem_singleton.mp new)

theorem allocateFd_cases (h : Formed k) (made : (k.procs pid).fdList = none → a.header ≠ none)
    (run : allocateFd k pid file a = some (fd, k')) :
    (fd = -1 ∧ ∃ t, Touches k k' pid t ∧ t.entries = (k.thread pid).entries ∧
      t.nextFd = (k.thread pid).nextFd) ∨
    (fd = (k.thread pid).nextFd ∧
      Touches k k' pid ⟨some ((k.thread pid).entries ++ [⟨fd, file⟩]), fd + 1⟩) := by
  unfold allocateFd at run
  cases own : (k.procs pid).fdList with
  | some list =>
    simp only [own] at run
    rcases pushEntry_cases h own run with ⟨failed, rfl⟩ | ⟨number, touched⟩
    · exact .inl ⟨failed, _, ⟨h, rfl, fun _ _ => rfl⟩, rfl, rfl⟩
    · exact .inr ⟨number, touched⟩
  | none =>
    simp only [own] at run
    cases header : a.header with
    | none => exact absurd header (made own)
    | some list =>
      simp only [header] at run
      obtain ⟨k1, stored, rest⟩ := bind_eq_some_iff.mp run
      obtain ⟨free, rfl⟩ := store_cases stored
      have touched := h.newList pid free
      have empty : (k.thread pid).entries = [] := by rw [thread_entries, elems_none own]; rfl
      rcases pushEntry_cases touched.formed (by simp) rest with ⟨failed, rfl⟩ | ⟨number, pushed⟩
      · exact .inl ⟨failed, _, touched, empty.symm, rfl⟩
      · have next : fd = (k.procs pid).nextFd := by simpa using number
        refine .inr ⟨next, ?_⟩
        rw [touched.own] at pushed
        rw [empty]
        exact touched.trans pushed

def filePtr (fs : FS) (name : CString) : Option Nat :=
  (Prog.run (filesysOpen name) fs).bind Prod.fst

/-- If a file is there and the process has no list, one can be made for it. -/
def HeaderMade (k : Kernel) (pid : Nat) (name : CString) (a : Answers) : Prop :=
  filePtr k.fs name ≠ none → (k.procs pid).fdList = none → a.header ≠ none

theorem sysOpen_cases (h : Formed k) (made : HeaderMade k pid name a)
    (numbers : (k.thread pid).nextFd ≠ -1) (run : sysOpen k pid name a = some (fd, k')) :
    (fd = -1 ∧ ∃ t, Touches k k' pid t ∧ t.entries = (k.thread pid).entries ∧
      t.nextFd = (k.thread pid).nextFd) ∨
    (fd ≠ -1 ∧ fd = (k.thread pid).nextFd ∧ ∃ file, filePtr k.fs name = some file ∧
      Touches k k' pid ⟨some ((k.thread pid).entries ++ [⟨fd, file⟩]), fd + 1⟩) := by
  obtain ⟨⟨ptr, fs⟩, opened, rest⟩ := bind_eq_some_iff.mp run
  have found : filePtr k.fs name = ptr := by rw [filePtr, opened]; rfl
  have touched := h.touches pid fs
  cases ptr with
  | none =>
    cases rest
    exact .inl ⟨rfl, _, touched, rfl, rfl⟩
  | some file =>
    simp only at rest
    obtain ⟨⟨fd', k1⟩, alloc, last⟩ := bind_eq_some_iff.mp rest
    simp only at last
    have header : (k.procs pid).fdList = none → a.header ≠ none :=
      made (by rw [found]; exact some_ne_none file)
    rcases allocateFd_cases touched.formed header alloc with
      ⟨rfl, t, changed, entries, next⟩ | ⟨number, changed⟩
    · simp only [if_true] at last
      obtain ⟨r, closed, done⟩ := bind_eq_some_iff.mp last
      cases done
      refine .inl ⟨rfl, t, ?_, entries, next⟩
      have kept := changed.formed.touches pid r.2
      rw [changed.own] at kept
      exact (touched.trans changed).trans kept
    · have ne : fd' ≠ -1 := number ▸ numbers
      rw [if_neg ne] at last
      cases last
      exact .inr ⟨ne, number, file, found, touched.trans changed⟩

theorem closeLoop_cases (list : Nat) (fd : BitVec 32)
    (entries : ∀ b ∈ es, ∃ e, k.entryAt b = some e) :
    ((es.filterMap k.entryAt).find? (fun e => e.fd = fd) = none ∧ closeLoop k list fd es = some k) ∨
    ∃ b ∈ es, ∃ e, k.entryAt b = some e ∧
      (es.filterMap k.entryAt).find? (fun e => e.fd = fd) = some e ∧
      (es.erase b).filterMap k.entryAt = (es.filterMap k.entryAt).eraseP (fun e => e.fd = fd) ∧
      closeLoop k list fd es = (Prog.run (fileClose (some e.file)) k.fs).bind fun r =>
        (k.listAt list).bind fun elems => some
          ((({ k with fs := r.2 } : Kernel).setCell list (some (.list (elems.erase b)))).free b) := by
  induction es with
  | nil => exact .inl ⟨rfl, rfl⟩
  | cons b es ih =>
    obtain ⟨⟨e, entry⟩, rest⟩ := List.forall_mem_cons.mp entries
    rw [closeLoop, entry, bind_eq_bind, bind_some, List.filterMap_cons_some entry, List.find?_cons]
    by_cases hit : e.fd = fd
    · refine .inr ⟨b, List.mem_cons_self, e, entry, by simp [hit], ?_, by rw [if_pos hit]; rfl⟩
      rw [List.erase_cons_head, List.eraseP_cons_of_pos (by simp [hit])]
    simp only [hit, if_false, decide_false]
    rw [List.eraseP_cons_of_neg (by simp [hit])]
    refine (ih rest).imp_right ?_
    rintro ⟨b', mem, e', entry', found, erased, closed⟩
    refine ⟨b', List.mem_cons_of_mem b mem, e', entry', found, ?_, closed⟩
    have ne : b ≠ b' := by
      rintro rfl
      obtain rfl : e = e' := Option.some.inj (entry.symm.trans entry')
      exact hit (by simpa using List.find?_some found)
    rw [List.erase_cons_tail (by simpa using ne), List.filterMap_cons_some entry, erased]

theorem sysClose_eq (h : Formed k) (own : (k.procs pid).fdList = some list) :
    sysClose k pid fd = closeLoop k list fd (k.elems pid) := by
  rw [sysClose, closeFd, own]
  simp only
  rw [h.made own]
  rfl

theorem sysClose_unknown (h : Formed k) (unknown : Descriptors.findFd (k.thread pid) fd = none) :
    sysClose k pid fd = some k := by
  rw [Descriptors.findFd, thread_entries] at unknown
  cases own : (k.procs pid).fdList with
  | none => rw [sysClose, closeFd, own]
  | some list =>
    rw [sysClose_eq h own]
    rcases closeLoop_cases list fd fun b (mem : b ∈ k.elems pid) => h.entries mem with
      ⟨-, same⟩ | ⟨b, -, e, -, found, -⟩
    · exact same
    · cases unknown.symm.trans found

theorem sysClose_cases (h : Formed k) {e : FileDescriptor}
    (found : Descriptors.findFd (k.thread pid) fd = some e) (run : sysClose k pid fd = some k') :
    Touches k k' pid
      { k.thread pid with fdList := some ((k.thread pid).entries.eraseP fun e => e.fd = fd) } := by
  rw [Descriptors.findFd, thread_entries] at found
  cases own : (k.procs pid).fdList with
  | none =>
    rw [elems_none own] at found
    cases found
  | some list =>
    rw [sysClose_eq h own] at run
    rcases closeLoop_cases list fd fun b (mem : b ∈ k.elems pid) => h.entries mem with
      ⟨none, -⟩ | ⟨b, mem, e', entry, -, erased, closed⟩
    · cases none.symm.trans found
    rw [closed] at run
    obtain ⟨r, -, rest⟩ := bind_eq_some_iff.mp run
    rw [h.made own, bind_some, some.injEq] at rest
    have cells : ∀ c, k'.cells c = if c = b then none else
        if c = list then some (.list ((k.elems pid).erase b)) else k.cells c := by
      intro c
      rw [← rest]
      simp [Kernel.free]
    have procs : k'.procs = k.procs := by
      rw [← rest]
      rfl
    have off : list ≠ b := Ne.symm (h.list_ne own mem)
    have apart : ∀ b' ∈ (k.elems pid).erase b, b' ≠ b ∧ b' ≠ list := fun b' mem' =>
      ⟨fun e => (h.nodup pid).not_mem_erase (e ▸ mem'), h.list_ne own (List.mem_of_mem_erase mem')⟩
    have kept : ∀ b' ∈ (k.elems pid).erase b, k'.entryAt b' = k.entryAt b' := fun b' mem' =>
      entryAt_congr (by simp [cells, apart b' mem'])
    have touched := h.change k' pid (by rw [procs, own])
      (show k'.listAt list = some ((k.elems pid).erase b) by simp [Kernel.listAt, cells, off])
      (fun b' mem' => by rw [kept b' mem']; exact h.entries (List.mem_of_mem_erase mem'))
      ((h.nodup pid).erase b) (fun q _ => by rw [procs]) (fun q l ne own' => ?_)
      fun q b' ne there => ?_
    · rw [List.filterMap_congr kept, erased, ← thread_entries, procs] at touched
      exact touched
    · have differ : l ≠ list := fun e => ne (h.lists own' (e ▸ own))
      exact ⟨differ, by simp [cells, differ, Ne.symm (h.list_ne own' mem)]⟩
    · have differ : b' ≠ b := fun e => ne (h.apart there (e ▸ mem))
      exact ⟨fun mem' => ne (h.apart there (List.mem_of_mem_erase mem')),
        by simp [cells, differ, h.list_ne own there]⟩

theorem onFile_touches (h : Formed k) {code : Nat → Code Unit}
    (run : onFile k pid fd code = some k') : Touches k k' pid (k.thread pid) := by
  unfold onFile at run
  rw [findFd_eq h, bind_eq_bind, bind_some] at run
  cases found : Descriptors.findFd (k.thread pid) fd with
  | none =>
    simp only [found] at run
    cases run
    exact h.touches pid k.fs
  | some e =>
    simp only [found] at run
    obtain ⟨r, -, done⟩ := bind_eq_some_iff.mp run
    cases done
    exact h.touches pid r.2

end Calls

inductive Event where
  | opened (pid : Nat) (fd : BitVec 32) (file : Nat)
  | refused (pid : Nat)
  | closed (pid : Nat) (fd : BitVec 32)
  | moved

structure Logged where
  kernel : Kernel
  history : List Event

def Logged.start (fs : FS) : Logged := ⟨⟨fs, fun _ => none, fun _ => .new⟩, []⟩

inductive Call where
  | openFile (name : CString) (a : Answers)
  | close (fd : BitVec 32)
  | read (fd size : BitVec 32)
  | write (fd : BitVec 32) (buffer : List UInt8)
  | seek (fd position : BitVec 32)

def openEvent (pid : Nat) (fd : BitVec 32) : Option Nat → Event
  | some file => if fd = -1 then .refused pid else .opened pid fd file
  | none => .refused pid

def step (l : Logged) (c : Nat × Call) : Option Logged :=
  match c.2 with
  | .openFile name a => do
    let r ← sysOpen l.kernel c.1 name a
    some ⟨r.2, openEvent c.1 r.1 (filePtr l.kernel.fs name) :: l.history⟩
  | .close fd => (sysClose l.kernel c.1 fd).map fun k => ⟨k, .closed c.1 fd :: l.history⟩
  | .read fd size => (sysRead l.kernel c.1 fd size).map fun k => ⟨k, .moved :: l.history⟩
  | .write fd buffer => (sysWrite l.kernel c.1 fd buffer).map fun k => ⟨k, .moved :: l.history⟩
  | .seek fd position => (sysSeek l.kernel c.1 fd position).map fun k => ⟨k, .moved :: l.history⟩

def opens (history : List Event) (pid : Nat) : Nat :=
  history.countP fun
    | .opened p _ _ => p = pid
    | .refused p => p = pid
    | _ => false

/-- The numbers that `sys_open` has returned to a process. -/
def returned (history : List Event) (pid : Nat) : List (BitVec 32) :=
  history.filterMap fun
    | .opened p fd _ => if p = pid then some fd else none
    | _ => none

/-- The file that was opened under a number and not closed since. -/
def current : List Event → Nat → BitVec 32 → Option Nat
  | [], _, _ => none
  | .opened p d file :: rest, pid, fd =>
    if p = pid ∧ d = fd then some file else current rest pid fd
  | .closed p d :: rest, pid, fd => if p = pid ∧ d = fd then none else current rest pid fd
  | .refused _ :: rest, pid, fd => current rest pid fd
  | .moved :: rest, pid, fd => current rest pid fd

def Orderly (l : Logged) (c : Nat × Call) : Prop :=
  match c.2 with
  | .openFile name a =>
    opens l.history c.1 + 1 < 2 ^ 31 - 2 ∧ HeaderMade l.kernel c.1 name a
  | _ => True

/-- How the table of a process follows from the history. -/
structure Tally (history : List Event) (pid : Nat) (t : Thread) : Prop where
  next : t.nextFd.toNat = 2 + (returned history pid).length
  few : (returned history pid).length ≤ opens history pid
  calls : opens history pid < 2 ^ 31 - 2
  below : ∀ fd ∈ returned history pid, 2 ≤ fd.toNat ∧ fd.toNat < t.nextFd.toNat
  once : (returned history pid).Nodup
  listed : ∀ e ∈ t.entries, e.fd ∈ returned history pid
  distinct : (t.entries.map FileDescriptor.fd).Nodup
  there : ∀ fd, Descriptors.findFd t fd = (current history pid fd).map fun file => ⟨fd, file⟩

section Tally

variable {history : List Event} {pid q file : Nat} {t t' : Thread} {fd : BitVec 32}

theorem Tally.start (pid : Nat) : Tally [] pid .new where
  next := rfl
  few := Nat.le_refl 0
  calls := Nat.lt_of_le_of_lt (Nat.le_refl 0) (by decide)
  below fd mem := by cases mem
  once := List.nodup_nil
  listed e mem := by cases mem
  distinct := List.nodup_nil
  there fd := rfl

@[simp] theorem returned_opened (p : Nat) (d : BitVec 32) :
    returned (.opened p d file :: history) pid =
      if p = pid then d :: returned history pid else returned history pid := by
  by_cases here : p = pid <;> simp [returned, here]

@[simp] theorem opens_opened (p : Nat) (d : BitVec 32) :
    opens (.opened p d file :: history) pid = opens history pid + if p = pid then 1 else 0 := by
  simp [opens, List.countP_cons]

@[simp] theorem opens_refused (p : Nat) :
    opens (.refused p :: history) pid = opens history pid + if p = pid then 1 else 0 := by
  simp [opens, List.countP_cons]

section

variable (h : Tally history pid t)
include h

/-- An event that opens nothing, after which some of the entries are left. -/
theorem Tally.keep {event : Event} (entries : t'.entries.Sublist t.entries)
    (next : t'.nextFd = t.nextFd) (numbers : returned (event :: history) pid = returned history pid)
    (more : opens history pid ≤ opens (event :: history) pid)
    (calls : opens (event :: history) pid < 2 ^ 31 - 2)
    (there : ∀ fd, Descriptors.findFd t' fd =
      (current (event :: history) pid fd).map fun file => ⟨fd, file⟩) :
    Tally (event :: history) pid t' where
  next := by rw [next, numbers, h.next]
  few := by rw [numbers]; exact h.few.trans more
  calls := calls
  below := by rw [numbers, next]; exact h.below
  once := by rw [numbers]; exact h.once
  listed e mem := by rw [numbers]; exact h.listed e (entries.subset mem)
  distinct := h.distinct.sublist (entries.map _)
  there := there

theorem Tally.skip {event : Event} (entries : t'.entries = t.entries) (next : t'.nextFd = t.nextFd)
    (numbers : returned (event :: history) pid = returned history pid)
    (files : ∀ fd, current (event :: history) pid fd = current history pid fd)
    (more : opens history pid ≤ opens (event :: history) pid)
    (calls : opens (event :: history) pid < 2 ^ 31 - 2) : Tally (event :: history) pid t' := by
  refine h.keep (entries ▸ .refl _) next numbers more calls fun fd => ?_
  rw [files, ← h.there, Descriptors.findFd, Descriptors.findFd, entries]

theorem Tally.other (ne : q ≠ pid) (file : Nat) (fd : BitVec 32) :
    Tally (.opened q fd file :: history) pid t ∧ Tally (.refused q :: history) pid t ∧
      Tally (.closed q fd :: history) pid t :=
  ⟨h.skip rfl rfl (by simp [ne]) (fun _ => by simp [current, ne]) (by simp [ne])
      (by simpa [ne] using h.calls),
    h.skip rfl rfl rfl (fun _ => rfl) (by simp [ne]) (by simpa [ne] using h.calls),
    h.skip rfl rfl rfl (fun _ => by simp [current, ne]) le_rfl h.calls⟩

theorem Tally.moved : Tally (.moved :: history) pid t :=
  h.skip rfl rfl rfl (fun _ => rfl) le_rfl h.calls

theorem Tally.refused (entries : t'.entries = t.entries) (next : t'.nextFd = t.nextFd)
    (calls : opens history pid + 1 < 2 ^ 31 - 2) : Tally (.refused pid :: history) pid t' :=
  h.skip entries next rfl (fun _ => rfl) (by simp) (by simpa using calls)

theorem Tally.next_lt : t.nextFd.toNat < 2 ^ 31 := by
  have := h.few
  have := h.calls
  rw [h.next]
  omega

theorem Tally.opened (file : Nat) (calls : opens history pid + 1 < 2 ^ 31 - 2) :
    Tally (.opened pid t.nextFd file :: history) pid
      ⟨some (t.entries ++ [⟨t.nextFd, file⟩]), t.nextFd + 1⟩ := by
  have bound := h.next_lt
  have succ : (t.nextFd + 1).toNat = t.nextFd.toNat + 1 := by
    rw [BitVec.toNat_add]
    exact Nat.mod_eq_of_lt (by change t.nextFd.toNat + 1 < _; omega)
  have fresh : t.nextFd ∉ returned history pid := fun mem =>
    Nat.lt_irrefl _ (h.below _ mem).2
  have unlisted : ∀ e ∈ t.entries, e.fd ≠ t.nextFd := fun e mem same =>
    fresh (same ▸ h.listed e mem)
  refine ⟨?_, ?_, by simpa using calls, fun fd mem => ?_, ?_, fun e mem => ?_, ?_, fun fd => ?_⟩
  · simp only [returned_opened, if_true, List.length_cons, succ, h.next]
    omega
  · have := h.few
    simp only [returned_opened, if_true, List.length_cons, opens_opened]
    omega
  · rw [succ]
    rw [returned_opened, if_pos rfl, List.mem_cons] at mem
    rcases mem with rfl | old
    · have := h.next
      omega
    · have := h.below fd old
      omega
  · rw [returned_opened, if_pos rfl]
    exact List.nodup_cons.mpr ⟨fresh, h.once⟩
  · rw [returned_opened, if_pos rfl, List.mem_cons]
    rcases List.mem_append.mp mem with old | new
    · exact .inr (h.listed e old)
    · rw [List.mem_singleton.mp new]
      exact .inl rfl
  · change ((t.entries ++ [(⟨t.nextFd, file⟩ : FileDescriptor)]).map FileDescriptor.fd).Nodup
    rw [List.map_append]
    refine List.nodup_append.mpr ⟨h.distinct, List.nodup_singleton _, ?_⟩
    rintro x old y new rfl
    obtain ⟨e, mem, same⟩ := List.mem_map.mp old
    exact unlisted e mem (same.trans (List.mem_singleton.mp new))
  · have old := h.there fd
    rw [Descriptors.findFd] at old
    change (t.entries ++ [(⟨t.nextFd, file⟩ : FileDescriptor)]).find? _ = _
    rw [List.find?_append, current]
    by_cases here : t.nextFd = fd
    · have none : t.entries.find? (fun e => e.fd = fd) = none :=
        List.find?_eq_none.mpr fun e mem => by simpa [← here] using unlisted e mem
      rw [none, if_pos ⟨rfl, here⟩]
      simp [here]
    · rw [old, if_neg fun both => here both.2]
      simp [here]

end

theorem find_eraseP {l : List FileDescriptor} (distinct : (l.map FileDescriptor.fd).Nodup)
    (fd fd' : BitVec 32) : (l.eraseP fun e => e.fd = fd).find? (fun e => e.fd = fd') =
      if fd' = fd then none else l.find? fun e => e.fd = fd' := by
  induction l with
  | nil => simp
  | cons e l ih =>
    obtain ⟨head, tail⟩ := List.nodup_cons.mp distinct
    by_cases hit : e.fd = fd
    · rw [List.eraseP_cons_of_pos (by simpa using hit)]
      split_ifs with same
      · refine List.find?_eq_none.mpr fun x mem => ?_
        have : x.fd ≠ e.fd := fun eq => head (eq ▸ List.mem_map_of_mem mem)
        simpa [same, ← hit] using this
      · rw [List.find?_cons_of_neg (by simpa [hit] using Ne.symm same)]
    · rw [List.eraseP_cons_of_neg (by simpa using hit), List.find?_cons, List.find?_cons, ih tail]
      by_cases here : e.fd = fd'
      · simp [here, here ▸ hit]
      · simp [here]

theorem Tally.closed (h : Tally history pid t) {fd : BitVec 32}
    (entries : t'.entries = t.entries.eraseP fun e => e.fd = fd) (next : t'.nextFd = t.nextFd) :
    Tally (.closed pid fd :: history) pid t' := by
  refine h.keep (entries ▸ List.eraseP_sublist) next rfl le_rfl h.calls fun fd' => ?_
  have old := h.there fd'
  rw [Descriptors.findFd] at old ⊢
  rw [entries, find_eraseP h.distinct, old, current]
  by_cases here : fd = fd'
  · simp [here]
  · simp [here, Ne.symm here]

end Tally

structure Tallied (l : Logged) : Prop where
  formed : Formed l.kernel
  tally : ∀ pid, Tally l.history pid (l.kernel.thread pid)

theorem Tallied.start (fs : FS) : Tallied (.start fs) where
  formed := by
    refine ⟨?_, ?_, ?_, fun _ => List.nodup_nil, ?_⟩
    · intro pid list own
      cases own
    · intro pid q list own
      cases own
    · intro pid b mem
      cases mem
    · intro pid q b mem
      cases mem
  tally := Tally.start

variable {l l' : Logged} {pid : Nat}

theorem Tallied.next {k : Kernel} {t : Thread} {event : Event} (h : Tallied l)
    (touched : Touches l.kernel k pid t) (own : Tally (event :: l.history) pid t)
    (other : ∀ q, q ≠ pid → ∀ t, Tally l.history q t → Tally (event :: l.history) q t) :
    Tallied ⟨k, event :: l.history⟩ where
  formed := touched.formed
  tally q := by
    by_cases ours : q = pid
    · rw [ours, touched.own]
      exact own
    · rw [touched.others q ours]
      exact other q ours _ (h.tally q)

theorem step_open (h : Tallied l) {name : CString} {a : Answers}
    (orderly : Orderly l (pid, .openFile name a)) (taken : step l (pid, .openFile name a) = some l') :
    Tallied l' ∧ ∃ t, Touches l.kernel l'.kernel pid t := by
  obtain ⟨⟨fd, k⟩, run, rest⟩ := bind_eq_some_iff.mp taken
  cases rest
  obtain ⟨calls, made⟩ := orderly
  have numbers : (l.kernel.thread pid).nextFd ≠ -1 := fun e => by
    have bound := (h.tally pid).next_lt
    rw [e] at bound
    exact absurd bound (by decide)
  have others : ∀ event, (event = .refused pid ∨ ∃ file, event = .opened pid fd file) →
      ∀ q, q ≠ pid → ∀ t, Tally l.history q t → Tally (event :: l.history) q t := by
    rintro event (rfl | ⟨file, rfl⟩) q ne t tally
    · exact (tally.other (Ne.symm ne) 0 fd).2.1
    · exact (tally.other (Ne.symm ne) file fd).1
  rcases sysOpen_cases h.formed made numbers run with
    ⟨rfl, t, touched, entries, next⟩ | ⟨ne, rfl, file, found, touched⟩
  · have event : openEvent pid (-1) (filePtr l.kernel.fs name) = .refused pid := by
      cases filePtr l.kernel.fs name with
      | none => rfl
      | some file => rfl
    simp only [event]
    exact ⟨h.next touched ((h.tally pid).refused entries next calls) (others _ (.inl rfl)),
      t, touched⟩
  · simp only [found, openEvent, if_neg ne]
    exact ⟨h.next touched ((h.tally pid).opened file calls) (others _ (.inr ⟨file, rfl⟩)),
      _, touched⟩

theorem step_close (h : Tallied l) {fd : BitVec 32} (taken : step l (pid, .close fd) = some l') :
    Tallied l' ∧ ∃ t, Touches l.kernel l'.kernel pid t := by
  obtain ⟨k, run, rest⟩ := map_eq_some_iff.mp taken
  cases rest
  have others : ∀ q, q ≠ pid → ∀ t, Tally l.history q t → Tally (.closed pid fd :: l.history) q t :=
    fun q ne t tally => (tally.other (Ne.symm ne) 0 fd).2.2
  cases found : Descriptors.findFd (l.kernel.thread pid) fd with
  | none =>
    rw [sysClose_unknown h.formed found] at run
    cases run
    have none : (l.kernel.thread pid).entries.eraseP (fun e => e.fd = fd) =
        (l.kernel.thread pid).entries :=
      List.eraseP_of_forall_not (List.find?_eq_none.mp found)
    have touched := h.formed.touches pid l.kernel.fs
    exact ⟨h.next touched ((h.tally pid).closed none.symm rfl) others, _, touched⟩
  | some e =>
    have touched := sysClose_cases h.formed found run
    exact ⟨h.next touched ((h.tally pid).closed rfl rfl) others, _, touched⟩

theorem step_moved (h : Tallied l) {k : Kernel}
    (touched : Touches l.kernel k pid (l.kernel.thread pid)) :
    Tallied ⟨k, .moved :: l.history⟩ ∧ ∃ t, Touches l.kernel k pid t :=
  ⟨h.next touched (h.tally pid).moved fun _ _ _ tally => tally.moved, _, touched⟩

theorem step_tallied {c : Nat × Call} (h : Tallied l) (orderly : Orderly l c)
    (taken : step l c = some l') : Tallied l' ∧ ∃ t, Touches l.kernel l'.kernel c.1 t := by
  obtain ⟨pid, call⟩ := c
  have none : Touches l.kernel l.kernel pid (l.kernel.thread pid) := h.formed.touches pid l.kernel.fs
  cases call with
  | openFile name a => exact step_open h orderly taken
  | close fd => exact step_close h taken
  | read | write =>
    obtain ⟨k, run, rest⟩ := map_eq_some_iff.mp taken
    cases rest
    simp only [sysRead, sysWrite] at run
    split_ifs at run
    · cases run
      exact step_moved h none
    · exact step_moved h (onFile_touches h.formed run)
  | seek fd position =>
    obtain ⟨k, run, rest⟩ := map_eq_some_iff.mp taken
    cases rest
    exact step_moved h (onFile_touches h.formed run)

/-- The tables of all processes over any history of calls in which a list can be made when it
is needed. -/
theorem fd_tables {fs : FS} (reach : Reachable (Logged.start fs) step Orderly l) :
    (∀ pid, ((l.kernel.thread pid).entries.map FileDescriptor.fd).Nodup ∧
      ∀ e ∈ (l.kernel.thread pid).entries, 2 ≤ e.fd.toInt) ∧
    (∀ pid, (returned l.history pid).Nodup) ∧
    (∀ pid fd, findFd l.kernel pid fd =
      some ((current l.history pid fd).map fun file => ⟨fd, file⟩)) ∧
    (∀ pid fd, findFd l.kernel pid fd = some none → sysClose l.kernel pid fd = some l.kernel) ∧
    ∀ c l', Orderly l c → step l c = some l' → ∀ q, q ≠ c.1 →
      l'.kernel.thread q = l.kernel.thread q := by
  have tallied : Tallied l := Reachable.invariant (P := Tallied) (Tallied.start fs)
    (fun l c l' h orderly taken => (step_tallied h orderly taken).1) reach
  refine ⟨fun pid => ⟨(tallied.tally pid).distinct, fun e mem => ?_⟩, fun pid =>
    (tallied.tally pid).once, fun pid fd => ?_, fun pid fd unknown => ?_,
    fun c l' orderly taken q ne => ?_⟩
  · have range := (tallied.tally pid).below _ ((tallied.tally pid).listed e mem)
    have bound := (tallied.tally pid).next_lt
    rw [toInt_small (by omega)]
    omega
  · rw [findFd_eq tallied.formed, (tallied.tally pid).there]
  · rw [findFd_eq tallied.formed, some.injEq] at unknown
    exact sysClose_unknown tallied.formed unknown
  · obtain ⟨-, t, touched⟩ := step_tallied tallied orderly taken
    exact touched.others q ne

/-- Process 0 has one file open, with its list in block 100 and the entry in block 101. -/
def holder (fs : FS) (file : Nat) : Kernel :=
  (((((Logged.start fs).kernel.setCell 100 (some (.list []))).setProc 0 ⟨some 100, 2⟩).setCell 101
    (some (.entry ⟨2, file⟩))).setCell 100 (some (.list [101]))).setProc 0 ⟨some 100, 3⟩

theorem step_openFile {k : Kernel} {name : CString} {a : Answers} {fd : BitVec 32} {file : Nat}
    (run : sysOpen l.kernel pid name a = some (fd, k)) (found : filePtr l.kernel.fs name = some file) :
    step l (pid, .openFile name a) = some ⟨k, openEvent pid fd (some file) :: l.history⟩ := by
  rw [← found]
  change (sysOpen l.kernel pid name a).bind _ = _
  rw [run]
  rfl

theorem blank_holder : ∃ fs fs' file, ∃ hs : List (Option Nat), Calls.Inv fs' hs 3 2 ∧
    (∃ i, find (rootDir fs'.device) nameA = some i) ∧
    Reachable (Logged.start fs) step Orderly ⟨holder fs' file, [.opened 0 2 file]⟩ := by
  obtain ⟨-, fs, i, -, -, inv, there⟩ := blank_created
  rcases open_spec inv nameA with ⟨absent, -⟩ | ⟨_, file, fs', -, run, inv', device, -⟩
  · rw [there] at absent
    cases absent
  have found : filePtr fs nameA = some file := by rw [filePtr, run]; rfl
  have opened : sysOpen (Logged.start fs).kernel 0 nameA ⟨some 100, some 101, none⟩ =
      some (2, holder fs' file) := by
    change (Prog.run (filesysOpen nameA) fs).bind _ = _
    rw [run]
    rfl
  have few : opens [] 0 + 1 < 2 ^ 31 - 2 := by decide
  refine ⟨fs, fs', file, _, inv', ⟨i, by rw [device, there]⟩,
    .next (a := (0, .openFile nameA ⟨some 100, some 101, none⟩)) .start ⟨few, ?_⟩ ?_⟩
  · exact fun _ _ => some_ne_none 100
  · exact step_openFile (l := .start fs) opened found

theorem fd_tables_holder : ∃ fs fs' file,
    Reachable (Logged.start fs) step Orderly ⟨holder fs' file, [.opened 0 2 file]⟩ ∧
      findFd (holder fs' file) 0 2 = some (some ⟨2, file⟩) ∧
      findFd (holder fs' file) 0 (-5) = some none ∧
      sysClose (holder fs' file) 0 (-5) = some (holder fs' file) := by
  obtain ⟨fs, fs', file, -, -, -, reach⟩ := blank_holder
  obtain ⟨-, -, finds, closes, -⟩ := fd_tables reach
  exact ⟨fs, fs', file, reach, finds 0 2, finds 0 (-5), closes 0 (-5) (finds 0 (-5))⟩

/-- There is no memory for the list of process 1, and what `fd_entry` happens to hold is the
address of the entry of process 0: that entry is freed, and the walk of `find_fd` in process 0
comes to a block that is no entry. -/
theorem unset_entry_freed : ∃ fs fs' file l,
    Reachable (Logged.start fs) step Orderly ⟨holder fs' file, [.opened 0 2 file]⟩ ∧
      findFd (holder fs' file) 0 2 = some (some ⟨2, file⟩) ∧
      step ⟨holder fs' file, [.opened 0 2 file]⟩ (1, .openFile nameA ⟨none, none, some 101⟩) =
        some l ∧
      current l.history 0 2 = some file ∧ findFd l.kernel 0 2 = none := by
  obtain ⟨fs, fs', file, hs, inv, ⟨i, there⟩, reach⟩ := blank_holder
  rcases open_spec inv nameA with ⟨absent, -⟩ | ⟨_, file', fs1, -, run, inv', -⟩
  · rw [there] at absent
    cases absent
  obtain ⟨fs2, close, -⟩ := close_spec inv' (k := hs.length) (f := file') (by simp)
  have found : filePtr fs' nameA = some file' := by rw [filePtr, run]; rfl
  have failed : sysOpen (holder fs' file) 1 nameA ⟨none, none, some 101⟩ =
      some (-1, { (holder fs1 file).free (some 101) with fs := fs2 }) := by
    change (Prog.run (filesysOpen nameA) fs').bind _ = _
    rw [run, bind_some]
    change (Prog.run (fileClose (some file')) fs1).bind _ = _
    rw [close]
    rfl
  exact ⟨fs, fs', file, _, reach, rfl, step_openFile (l := ⟨holder fs' file, _⟩) failed found,
    rfl, rfl⟩

end Pintos.FdTables
