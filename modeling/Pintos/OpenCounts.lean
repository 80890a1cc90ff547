import Pintos.Descriptors
import Pintos.CreateRuns

/-! Processes and the files that they have open. System calls are carried out one at a time.
The count of an open inode follows the descriptors of the processes that have not exited, and a
file without name and descriptors is gone with its sectors, as long as no process exits with
descriptors on its list: `process_exit` does not close them. -/

namespace Pintos.OpenCounts
open Resumption Disk Inode Directory Filesys Volume Transition
open Calls CallCreate CallFiles CallOpen CallClose CallRemove Format Refinement Descriptors
open ConcurrentCreate (nameA blank_room)
open List (append_assoc flatMap_cons)
open Prog (run_bind_of)

/-- The processes started so far; one that has exited is `none`. -/
structure World where
  fs : FS
  procs : List (Option Thread)

def descriptors : Option Thread → List FileDescriptor
  | some t => t.entries
  | none => []

def World.entries (w : World) : List FileDescriptor := w.procs.flatMap descriptors

def World.refs (w : World) (p : Nat) : Nat := w.entries.countP fun e => refers w.fs p (some e.file)

/-- What can happen: a process starts, makes a system call, or ends by itself or by a fault. -/
inductive Action where
  | start
  | create (name : CString) (initialSize : Size)
  | remove (name : CString)
  | openFile (pid : Nat) (name : CString)
  | close (pid : Nat) (fd : BitVec 32)
  | read (pid : Nat) (fd : BitVec 32) (size : Size)
  | write (pid : Nat) (fd : BitVec 32) (buffer : { bs : List UInt8 // bs.length < 2 ^ 31 })
  | seek (pid : Nat) (fd : BitVec 32) (position : Size)
  | exit (pid : Nat)

def World.thread (w : World) (pid : Nat) : Option Thread := (w.procs[pid]?).join

def World.onFile {α : Type} (w : World) (pid : Nat) (fd : BitVec 32) (code : Nat → Code α) :
    Option World := do
  let t ← w.thread pid
  match findFd t fd with
  | none => some w
  | some e => (Prog.run (code e.file) w.fs).map fun r => { w with fs := r.2 }

def step (w : World) : Action → Option World
  | .start => some { w with procs := w.procs ++ [some .new] }
  | .create name size => (Prog.run (filesysCreate name (size : Nat)) w.fs).map fun r =>
      { w with fs := r.2 }
  | .remove name => (Prog.run (sysRemove name) w.fs).map fun r => { w with fs := r.2 }
  | .openFile pid name => do
    let t ← w.thread pid
    let r ← Prog.run (sysOpen t name) w.fs
    some ⟨r.2, w.procs.set pid (some r.1.2)⟩
  | .close pid fd => do
    let t ← w.thread pid
    let r ← Prog.run (sysClose t fd) w.fs
    some ⟨r.2, w.procs.set pid (some r.1)⟩
  | .read pid fd size => w.onFile pid fd fun f => fileRead f (size : Nat)
  | .write pid fd buffer => w.onFile pid fd fun f => fileWrite f buffer.val buffer.val.length
  | .seek pid fd position => w.onFile pid fd fun f => fileSeek f (position : Nat)
  | .exit pid => do
    let _ ← w.thread pid
    some { w with procs := w.procs.set pid none }

/-- A process exits with no descriptor left, and it has not used up all numbers for them. -/
def Orderly (w : World) : Action → Prop
  | .openFile pid _ => ∀ t, w.thread pid = some t → t.nextFd ≠ -1
  | .exit pid => ∀ t, w.thread pid = some t → t.entries = []
  | _ => True

/-- The descriptors are the handles that the file system knows of. -/
def Counted (w : World) : Prop :=
  ∃ hs f₀ p₀, Inv w.fs hs f₀ p₀ ∧
    (hs.flatMap Option.toList).Perm (w.entries.map FileDescriptor.file)

section Lists

variable {α β : Type} {l : List α} {k : Nat} {x : α}

theorem flatMap_set (f : α → List β) (h : l[k]? = some x) (y : α) :
    ∃ before after, l.flatMap f = before ++ f x ++ after ∧
      (l.set k y).flatMap f = before ++ f y ++ after := by
  induction l generalizing k with
  | nil => simp at h
  | cons z l ih =>
    cases k with
    | zero =>
      cases h
      exact ⟨[], l.flatMap f, rfl, rfl⟩
    | succ k =>
      obtain ⟨before, after, old, new⟩ := ih h
      refine ⟨f z ++ before, after, ?_, ?_⟩
      · rw [flatMap_cons, old, append_assoc, append_assoc, append_assoc]
      · rw [List.set_cons_succ, flatMap_cons, new, append_assoc, append_assoc, append_assoc]

theorem flatMap_grow {f : α → List β} (h : l[k]? = some x) {y : α} {b : β} (more : f y = f x ++ [b]) :
    ((l.set k y).flatMap f).Perm (l.flatMap f ++ [b]) := by
  obtain ⟨before, after, old, new⟩ := flatMap_set f h y
  rw [old, new, more, append_assoc, append_assoc, append_assoc, append_assoc]
  exact (List.perm_append_comm.append_left _).append_left _

theorem flatMap_shrink {f : α → List β} (h : l[k]? = some x) {y : α} {b : β}
    (less : (f x).Perm (b :: f y)) : (l.flatMap f).Perm (b :: (l.set k y).flatMap f) := by
  obtain ⟨before, after, old, new⟩ := flatMap_set f h y
  rw [old, new]
  refine ((less.append_left before).append_right after).trans ?_
  rw [append_assoc, append_assoc, List.cons_append]
  exact List.perm_middle

theorem flatMap_same {f : α → List β} (h : l[k]? = some x) {y : α} (same : f y = f x) :
    (l.set k y).flatMap f = l.flatMap f := by
  obtain ⟨before, after, old, new⟩ := flatMap_set f h y
  rw [old, new, same]

theorem perm_eraseP {p : α → Bool} (found : l.find? p = some x) : l.Perm (x :: l.eraseP p) := by
  induction l with
  | nil => simp at found
  | cons z l ih =>
    cases hit : p z with
    | true =>
      rw [List.find?_cons_of_pos hit] at found
      cases found
      rw [List.eraseP_cons_of_pos hit]
    | false =>
      rw [List.find?_cons_of_neg (by simp [hit])] at found
      rw [List.eraseP_cons_of_neg (by simp [hit])]
      exact ((ih found).cons z).trans (List.Perm.swap x z _)

end Lists

variable {w w' : World} {hs : List (Option Nat)} {f0 p0 pid : Nat} {t : Thread} {s s' : FS}
  {fd : BitVec 32} {e : FileDescriptor}

theorem thread_at (h : w.thread pid = some t) : w.procs[pid]? = some (some t) :=
  Option.join_eq_some_iff.mp h

theorem handle_mem (same : (hs.flatMap Option.toList).Perm (w.entries.map FileDescriptor.file))
    (mem : e ∈ w.entries) : some e.file ∈ hs := by
  have there := same.mem_iff.mpr (List.mem_map_of_mem mem)
  obtain ⟨h, here, file⟩ := List.mem_flatMap.mp there
  rw [Option.mem_toList] at file
  exact file ▸ here

theorem mem_entries (at' : w.thread pid = some t) (found : findFd t fd = some e) : e ∈ w.entries :=
  List.mem_flatMap.mpr ⟨some t, List.mem_of_getElem? (thread_at at'), List.mem_of_find?_eq_some found⟩

theorem refs_flatMap (s : FS) (p : Nat) (hs : List (Option Nat)) :
    Calls.refs s hs p = (hs.flatMap Option.toList).countP fun f => refers s p (some f) := by
  induction hs with
  | nil => rfl
  | cons h hs ih =>
    rw [Calls.refs] at ih ⊢
    rw [List.countP_cons, flatMap_cons, List.countP_append, ih, Nat.add_comm]
    cases h with
    | none => rfl
    | some f => rw [Option.toList, List.countP_singleton]

theorem run_allocateFd (mallocs : s.mallocs = []) (t : Thread) (f : Nat) :
    Prog.run (allocateFd t f) s =
      some ((t.nextFd, ⟨some (t.entries ++ [⟨t.nextFd, f⟩]), t.nextFd + 1⟩), s) := by
  obtain ⟨list, next⟩ := t
  cases list with
  | none =>
    have made : Prog.run (makeList ⟨none, next⟩) s = some (⟨some [], next⟩, s) := by
      rw [makeList]
      simp only
      rw [run_bind_of (run_malloc mallocs)]
      rfl
    rw [allocateFd, run_bind_of made, run_bind_of (run_malloc mallocs)]
    rfl
  | some list =>
    rw [allocateFd, run_bind_of (rfl : Prog.run (makeList ⟨some list, next⟩) s = _),
      run_bind_of (run_malloc mallocs)]
    rfl

theorem open_step (inv : Inv s hs f0 p0) (name : CString) (numbers : t.nextFd ≠ -1) :
    (∃ f s', Prog.run (sysOpen t name) s =
        some ((t.nextFd, ⟨some (t.entries ++ [⟨t.nextFd, f⟩]), t.nextFd + 1⟩), s') ∧
      Inv s' (hs ++ [some f]) f0 p0 ∧ Live s' = Live s) ∨
    Prog.run (sysOpen t name) s = some ((-1, t), FS.bump s) := by
  rcases open_spec inv name with ⟨-, run⟩ | ⟨i, f, s', -, run, inv', -, live, -⟩
  · right
    rw [sysOpen, run_bind_of run]
    rfl
  refine .inl ⟨f, s', ?_, inv', live⟩
  rw [sysOpen, run_bind_of run]
  simp only
  rw [run_bind_of (run_allocateFd inv'.mallocs t f)]
  simp only [if_neg numbers]
  rfl

theorem moved_inv (inv : Inv s hs f0 p0) {f : Nat} (mem : some f ∈ hs) :
    (∀ size : Nat, ∃ bs s', Prog.run (fileRead f size) s = some (bs, s') ∧ Inv s' hs f0 p0 ∧
      Live s ⊆ Live s') ∧
    (∀ bs : List UInt8, ∃ n s', Prog.run (fileWrite f bs bs.length) s = some (n, s') ∧
      Inv s' hs f0 p0 ∧ Live s ⊆ Live s') ∧
    ∀ pos : Nat, ∃ s', Prog.run (fileSeek f pos) s = some ((), s') ∧ Inv s' hs f0 p0 ∧
      Live s ⊆ Live s' := by
  obtain ⟨file, a, h⟩ := Inv.opened inv mem
  refine ⟨fun size => ?_, fun bs => ?_, fun pos => ?_⟩
  · exact ⟨_, _, read_spec h size, Inv.setPos inv mem h (by have := h.pos; omega), fun _ => id⟩
  · have system := Inv.isFile inv h.user h.inode
    have dir := inv.volume.rootDir_eq (writeFile_onlyData inv h.live file.pos.toNat bs) system.2
    have inv' := Inv.writeData inv system h.live file.pos.toNat bs
    obtain ⟨file', a', h'⟩ := Inv.opened inv' mem
    obtain rfl : file = file' := Option.some.inj (h.entry.symm.trans h'.entry)
    have nonneg : 0 ≤ file.pos + (writeCount s.device a.sector file.pos.toNat bs : Nat) :=
      Int.add_nonneg h.pos (Int.natCast_nonneg _)
    have live : Live (FS.setFile { s with device := writeFile s.device a.sector file.pos.toNat bs } f
        (some { file with pos := file.pos + (writeCount s.device a.sector file.pos.toNat bs : Nat) })) =
        Live s := live_congr dir rfl
    exact ⟨_, _, write_spec h bs, Inv.setPos inv' mem h' nonneg, fun i mem => live ▸ mem⟩
  · exact ⟨_, seek_spec h pos, Inv.setPos inv mem h (Int.natCast_nonneg pos), fun _ => id⟩

theorem create_live (inv : Inv s hs f0 p0) (name : CString) {size : Nat} (lt : size < 2 ^ 31) :
    ∃ ok s', Prog.run (filesysCreate name size) s = some (ok, s') ∧ Inv s' hs f0 p0 ∧
      Live s ⊆ Live s' := by
  obtain ⟨ok, s', run, inv', kept, made, refused, named⟩ := create_spec inv name lt
  refine ⟨ok, s', run, inv', fun i live => ?_⟩
  cases ok with
  | false => rwa [live_congr (refused rfl) kept.inodes]
  | true =>
    obtain ⟨-, absent, -⟩ := made.mp rfl
    obtain ⟨j, -, -, find⟩ := named rfl
    rcases mem_live.mp live with e | e | there | ⟨p, a, ha, e⟩
    · exact .inl e
    · exact .inr (.inl e)
    · obtain ⟨other, found⟩ := inv.names.named_iff.mp there
      refine named_live (inv'.names.named_iff.mpr ⟨other, ?_⟩)
      rw [find, if_neg, found]
      intro same
      rw [show other = name from Subtype.ext same, absent] at found
      cases found
    · exact e ▸ open_live (kept.inodes ▸ ha)

theorem onFile_counted {α : Type} {code : Nat → Code α} (h : Counted w)
    (spec : ∀ hs f0 p0 f, Inv w.fs hs f0 p0 → some f ∈ hs → ∃ r s',
      Prog.run (code f) w.fs = some (r, s') ∧ Inv s' hs f0 p0 ∧ Live w.fs ⊆ Live s')
    (taken : w.onFile pid fd code = some w') : Counted w' ∧ Frees w.fs w'.fs := by
  obtain ⟨hs, f0, p0, inv, same⟩ := h
  obtain ⟨t, at', rest⟩ := Option.bind_eq_some_iff.mp taken
  cases found : findFd t fd with
  | none =>
    simp only [found] at rest
    cases rest
    exact ⟨⟨hs, f0, p0, inv, same⟩, .of_live fun _ => id⟩
  | some e =>
    obtain ⟨r, s', run, inv', live⟩ :=
      spec hs f0 p0 e.file inv (handle_mem same (mem_entries at' found))
    simp only [found, run, Option.map_some] at rest
    cases rest
    exact ⟨⟨hs, f0, p0, inv', same⟩, .of_live live⟩

theorem close_counted (h : Counted w) (taken : step w (.close pid fd) = some w') :
    Counted w' ∧ Frees w.fs w'.fs := by
  obtain ⟨hs, f0, p0, inv, same⟩ := h
  obtain ⟨t, at', rest⟩ := Option.bind_eq_some_iff.mp taken
  have place := thread_at at'
  cases found : findFd t fd with
  | none =>
    have run : Prog.run (sysClose t fd) w.fs = some (t, w.fs) := by
      rw [sysClose, closeFd, found]
      rfl
    rw [run] at rest
    cases rest
    refine ⟨⟨hs, f0, p0, inv, ?_⟩, .of_live fun _ => id⟩
    rw [World.entries, flatMap_same place rfl]
    exact same
  | some e =>
    obtain ⟨k, hk⟩ := List.getElem?_of_mem (handle_mem same (mem_entries at' found))
    obtain ⟨s', close, inv', -⟩ := close_spec inv hk
    have run : Prog.run (sysClose t fd) w.fs =
        some ({ t with fdList := some (t.entries.eraseP fun e => e.fd = fd) }, s') := by
      rw [sysClose, closeFd, found]
      simp only
      rw [run_bind_of close]
      rfl
    rw [run] at rest
    cases rest
    refine ⟨⟨hs.set k none, f0, p0, inv', ?_⟩, close_frees inv hk close⟩
    have fewer : w.entries.Perm (e :: World.entries ⟨s', w.procs.set pid
        (some { t with fdList := some (t.entries.eraseP fun e => e.fd = fd) })⟩) :=
      flatMap_shrink place (perm_eraseP found)
    have all := ((flatMap_shrink (y := none) hk (.refl _)).symm.trans same).trans (fewer.map FileDescriptor.file)
    exact all.cons_inv

theorem open_counted {name : CString} (h : Counted w)
    (numbers : ∀ t, w.thread pid = some t → t.nextFd ≠ -1)
    (taken : step w (.openFile pid name) = some w') : Counted w' ∧ Frees w.fs w'.fs := by
  obtain ⟨hs, f0, p0, inv, same⟩ := h
  obtain ⟨t, at', rest⟩ := Option.bind_eq_some_iff.mp taken
  have place := thread_at at'
  rcases open_step inv name (numbers t at') with ⟨f, s', run, inv', live⟩ | run
  · rw [run] at rest
    cases rest
    refine ⟨⟨hs ++ [some f], f0, p0, inv', ?_⟩, .of_live fun i mem => live ▸ mem⟩
    have more : (World.entries ⟨s', w.procs.set pid (some
        ⟨some (t.entries ++ [⟨t.nextFd, f⟩]), t.nextFd + 1⟩)⟩).Perm (w.entries ++ [⟨t.nextFd, f⟩]) :=
      flatMap_grow place rfl
    have all := more.map FileDescriptor.file
    rw [List.map_append] at all
    rw [List.flatMap_append]
    exact (same.append_right [f]).trans all.symm
  · rw [run] at rest
    cases rest
    refine ⟨⟨hs, f0, p0, inv.bump, ?_⟩, .of_live fun _ => id⟩
    rw [World.entries, flatMap_same place rfl]
    exact same

theorem step_counted {action : Action} (h : Counted w) (orderly : Orderly w action)
    (taken : step w action = some w') : Counted w' ∧ Frees w.fs w'.fs := by
  cases action with
  | start =>
    cases taken
    obtain ⟨hs, f0, p0, inv, same⟩ := h
    refine ⟨⟨hs, f0, p0, inv, ?_⟩, .of_live fun _ => id⟩
    have none : World.entries { w with procs := w.procs ++ [some .new] } = w.entries := by
      rw [World.entries, List.flatMap_append]
      exact List.append_nil _
    rwa [none]
  | create name size =>
    obtain ⟨hs, f0, p0, inv, same⟩ := h
    obtain ⟨ok, s', run, inv', live⟩ := create_live inv name size.isLt
    rw [step, run] at taken
    cases taken
    exact ⟨⟨hs, f0, p0, inv', same⟩, .of_live live⟩
  | remove name =>
    obtain ⟨hs, f0, p0, inv, same⟩ := h
    rcases remove_spec inv name with ⟨-, run⟩ | ⟨-, s', run, inv', -⟩
    · rw [step, sysRemove, run] at taken
      cases taken
      exact ⟨⟨hs, f0, p0, inv.bump, same⟩, .of_live fun _ => id⟩
    · rw [step, sysRemove, run] at taken
      cases taken
      exact ⟨⟨hs, f0, p0, inv', same⟩, remove_frees inv run⟩
  | openFile pid name => exact open_counted h orderly taken
  | close pid fd => exact close_counted h taken
  | read pid fd size =>
    exact onFile_counted h (fun hs f0 p0 f inv mem => (moved_inv inv mem).1 size) taken
  | write pid fd buffer =>
    exact onFile_counted h (fun hs f0 p0 f inv mem => (moved_inv inv mem).2.1 buffer.val) taken
  | seek pid fd position =>
    have sought : ∀ hs f0 p0 f, Inv w.fs hs f0 p0 → some f ∈ hs → ∃ r s',
        Prog.run (fileSeek f (position : Nat)) w.fs = some (r, s') ∧ Inv s' hs f0 p0 ∧
          Live w.fs ⊆ Live s' := fun hs f0 p0 f inv mem =>
      ⟨(), (moved_inv inv mem).2.2 position⟩
    exact onFile_counted h sought taken
  | exit pid =>
    obtain ⟨hs, f0, p0, inv, same⟩ := h
    obtain ⟨t, at', rest⟩ := Option.bind_eq_some_iff.mp taken
    cases rest
    refine ⟨⟨hs, f0, p0, inv, ?_⟩, .of_live fun _ => id⟩
    rw [World.entries, flatMap_same (thread_at at') (orderly t at').symm]
    exact same

/-- The inode that the kernel itself keeps open, of the file with the free map. -/
def KernelInode (s : FS) (p : Nat) : Prop :=
  ∃ f file, s.freeMapFile = some f ∧ s.files f = some file ∧ file.inode = p

/-- Some descriptor is for the file whose inode is at sector `i`. -/
def World.Refers (w : World) (i : Nat) : Prop :=
  ∃ e ∈ w.entries, ∃ p a, refers w.fs p (some e.file) = true ∧ w.fs.inodes p = some a ∧ a.sector = i

theorem Counted.count (h : Counted w) {p : Nat} {a : Inode} (ha : w.fs.inodes p = some a)
    (user : ¬KernelInode w.fs p) : a.openCnt = w.refs p ∧ 0 < w.refs p := by
  obtain ⟨hs, f0, p0, inv, same⟩ := h
  have ne : p ≠ p0 := fun e => user ⟨f0, _, inv.mapFile, inv.mapHandle, e.symm⟩
  obtain ⟨count, -, pos⟩ := inv.table.counted p a ne ha
  have refs : Calls.refs w.fs hs p = w.refs p := by
    rw [refs_flatMap, same.countP_eq, List.countP_map]
    rfl
  exact refs ▸ ⟨count, pos⟩

theorem Counted.not_live (h : Counted w) {i : Nat} (file : IsFile i)
    (unnamed : ¬Named (rootDir w.fs.device) i) (unused : ¬w.Refers i) : i ∉ Live w.fs := by
  intro live
  rcases mem_live.mp live with e | e | named | ⟨p, a, ha, e⟩
  · exact file.1 e
  · exact file.2 e
  · exact unnamed named
  have user : ¬KernelInode w.fs p := by
    obtain ⟨hs, f0, p0, inv, -⟩ := h
    rintro ⟨f, x, map, entry, rfl⟩
    rw [inv.mapFile, Option.some.injEq] at map
    subst map
    rw [inv.mapHandle, Option.some.injEq] at entry
    subst entry
    rw [inv.mapOpen, Option.some.injEq] at ha
    subst ha
    exact file.1 e.symm
  obtain ⟨x, mem, refers⟩ := List.countP_pos_iff.mp (h.count ha user).2
  exact unused ⟨x, mem, p, a, refers, ha, e⟩

theorem blank_created : ∃ s s1 i,
    Prog.run (filesysInit true) (boot blankDevice fun _ => 0) = some ((), s) ∧
      Prog.run (filesysCreate nameA ((512 : Nat) : Int)) s = some (true, s1) ∧ Inv s1 [] 3 2 ∧
      find (rootDir s1.device) nameA = some i := by
  obtain ⟨s, format⟩ := blankDevice_formats
  obtain ⟨inv, names, -⟩ := filesysInit_inv format
  obtain ⟨ok, s1, create, inv1, -, made, -, named⟩ :=
    create_spec inv nameA (show 512 < 2 ^ 31 by decide)
  have created : ok = true := made.mpr ⟨by decide, names nameA, blank_room format⟩
  subst created
  obtain ⟨i, -, -, found⟩ := named rfl
  exact ⟨s, s1, i, format, create, inv1, by rw [found, if_pos rfl]⟩

theorem blank_opened : ∃ s s1 s2 f p a,
    Prog.run (filesysInit true) (boot blankDevice fun _ => 0) = some ((), s) ∧
      step ⟨s, [some .new]⟩ (.create nameA 512) = some ⟨s1, [some .new]⟩ ∧
      step ⟨s1, [some .new]⟩ (.openFile 0 nameA) = some ⟨s2, [some ⟨some [⟨2, f⟩], 3⟩]⟩ ∧
      s2.inodes p = some a ∧ ¬KernelInode s2 p ∧ a.openCnt = 1 := by
  obtain ⟨s, s1, i, format, create, inv1, there⟩ := blank_created
  rcases open_spec inv1 nameA with ⟨absent, -⟩ | ⟨_, f, s2, -, opened, inv2, -⟩
  · rw [there] at absent
    cases absent
  obtain ⟨file, a, h⟩ := Inv.opened inv2 (f := f) (by simp)
  have user : ¬KernelInode s2 file.inode := by
    rintro ⟨g, x, map, entry, same⟩
    rw [inv2.mapFile, Option.some.injEq] at map
    subst map
    rw [inv2.mapHandle, Option.some.injEq] at entry
    exact h.user (by rw [← same, ← entry])
  have one : Calls.refs s2 ([] ++ [some f]) file.inode = 1 := by
    simp [Calls.refs, refers, h.entry]
  refine ⟨s, s1, s2, f, file.inode, a, format, ?_, ?_, h.inode, user, ?_⟩
  · have run : Prog.run (filesysCreate nameA ((512 : Size) : Nat)) s = some (true, s1) := create
    rw [step, run]
    rfl
  · have run : Prog.run (sysOpen .new nameA) s1 = some ((2, ⟨some [⟨2, f⟩], 3⟩), s2) := by
      rw [sysOpen, run_bind_of opened]
      simp only
      rw [run_bind_of (run_allocateFd inv2.mallocs .new f)]
      rfl
    change (Prog.run (sysOpen .new nameA) s1).bind _ = _
    rw [run]
    rfl
  · rw [(inv2.table.counted _ a h.user h.inode).1, one]
    rfl

end Pintos.OpenCounts
