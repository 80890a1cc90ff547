import Pintos.CallFiles
import Pintos.Format

/-! Denied writes, from `filesys/file.c` and `filesys/inode.c`. A handle denies writes to its
inode at most once, and the inode counts the handles that do. The counts follow the handles over
every sequence of calls, with any allocation failing, so that a write is refused exactly while
some handle denies it. -/

namespace Pintos.DenyWrite
open Resumption ByteStore Disk InodeIO Inode Filesys Transition Calls CallFiles Function
open Format (blankDevice)
open Prog (run_assert run_bind run_bind_iff run_bind_of)

structure World where
  fs : FS
  handles : List Nat

inductive Action where
  | openFile (sector : Nat)
  | reopen (file : Nat)
  | denyWrite (file : Nat)
  | allowWrite (file : Nat)
  | write (file : Nat) (buffer : List UInt8) (size : Int)
  | close (file : Nat)

/-- A call on an open handle, which may open another one. -/
def World.on (w : World) (file : Nat) (code : Code (Option Nat)) : Option World :=
  if file ∈ w.handles then
    (Prog.run code w.fs).map fun r => ⟨r.2, w.handles ++ r.1.toList⟩
  else none

def openAt (sector : Nat) : Code (Option Nat) := do
  let inode ← inodeOpen sector
  fileOpen inode

def step (w : World) : Action → Option World
  | .openFile sector =>
    (Prog.run (openAt sector) w.fs).map fun r => ⟨r.2, w.handles ++ r.1.toList⟩
  | .reopen file => w.on file (fileReopen file)
  | .denyWrite file => w.on file do
    fileDenyWrite file
    pure none
  | .allowWrite file => w.on file do
    fileAllowWrite file
    pure none
  | .write file buffer size => w.on file do
    let _ ← fileWrite file buffer size
    pure none
  | .close file =>
    if file ∈ w.handles then
      (Prog.run (fileClose (some file)) w.fs).map fun r => ⟨r.2, w.handles.erase file⟩
    else none

/-- No inode is open yet; `malloc` may fail at any time. -/
def World.start (d : Device) (junk : Nat → BitVec 32) (mallocs : List Bool) : World :=
  ⟨{ boot d junk with mallocs := mallocs }, []⟩

def opens (s : FS) (p f : Nat) : Bool :=
  match s.files f with
  | some file => file.inode = p
  | none => false

def denies (s : FS) (p f : Nat) : Bool :=
  match s.files f with
  | some file => file.inode = p && file.denyWrite
  | none => false

/-- Inodes count the handles on them and those that deny writes; `held` is an inode that the
running call has opened for itself. -/
structure Accounted (s : FS) (hs : List Nat) (held : Option Nat) : Prop where
  nodup : hs.Nodup
  opened : ∀ f ∈ hs, ∃ file a, s.files f = some file ∧ s.inodes file.inode = some a
  holds : ∀ p, held = some p → ∃ a, s.inodes p = some a
  count : ∀ p a, s.inodes p = some a →
    a.openCnt = (hs.countP (opens s p) : Int) + if held = some p then 1 else 0
  pos : ∀ p a, s.inodes p = some a → 0 < a.openCnt
  denied : ∀ p a, s.inodes p = some a → a.denyWriteCnt = hs.countP (denies s p)
  kept : ∀ p a, s.inodes p = some a → a.removed = false
  fresh : ∀ p, s.next ≤ p → s.inodes p = none ∧ s.files p = none

section Counts

variable {s s' : FS} {hs : List Nat} {held : Option Nat} {p f : Nat} {file : File} {a : Inode}

theorem countP_change {l : List Nat} (nodup : l.Nodup) (mem : f ∈ l) {P Q : Nat → Bool}
    (same : ∀ g, g ≠ f → Q g = P g) : l.countP Q + (P f).toNat = l.countP P + (Q f).toNat := by
  have split := List.perm_cons_erase mem
  have rest : (l.erase f).countP Q = (l.erase f).countP P :=
    List.countP_congr fun g here => by rw [same g fun e => nodup.not_mem_erase (e ▸ here)]
  rw [split.countP_eq, split.countP_eq, List.countP_cons, List.countP_cons, rest]
  cases P f <;> cases Q f <;> simp

theorem opens_of (entry : s.files f = some file) : opens s p f = decide (file.inode = p) := by
  rw [opens, entry]

theorem denies_of (entry : s.files f = some file) :
    denies s p f = (decide (file.inode = p) && file.denyWrite) := by
  rw [denies, entry]

theorem opens_iff : opens s p f = true ↔ (s.files f).map File.inode = some p := by
  unfold opens
  cases s.files f <;> simp

theorem denies_congr (same : s'.files f = s.files f) : denies s' p f = denies s p f := by
  rw [denies, denies, same]

theorem opens_of_denies (h : denies s p f = true) : opens s p f = true := by
  unfold denies at h
  unfold opens
  cases entry : s.files f with
  | none =>
    rw [entry] at h
    cases h
  | some file =>
    simp only [entry, Bool.and_eq_true] at h
    exact h.1

theorem Accounted.denied_le (h : Accounted s hs held) (ha : s.inodes p = some a) :
    a.denyWriteCnt ≤ a.openCnt := by
  have le : hs.countP (denies s p) ≤ hs.countP (opens s p) :=
    List.countP_mono_left fun f _ => opens_of_denies
  rw [h.denied p a ha, h.count p a ha]
  split_ifs <;> omega

/-- What the entry of inode `p` has to be for the counts in `s`. -/
def Cell (s : FS) (hs : List Nat) (held : Option Nat) (p : Nat) : Option Inode → Prop
  | some a => a.openCnt = (hs.countP (opens s p) : Int) + (if held = some p then 1 else 0) ∧
      0 < a.openCnt ∧ a.denyWriteCnt = hs.countP (denies s p) ∧ a.removed = false
  | none => hs.countP (opens s p) = 0 ∧ held ≠ some p

theorem Accounted.cell (h : Accounted s hs held) (p : Nat) : Cell s hs held p (s.inodes p) := by
  cases ha : s.inodes p with
  | some a => exact ⟨h.count p a ha, h.pos p a ha, h.denied p a ha, h.kept p a ha⟩
  | none =>
    refine ⟨List.countP_eq_zero.mpr fun g hg here => ?_, fun e => ?_⟩
    · obtain ⟨x, b, entry, hb⟩ := h.opened g hg
      rw [opens_of entry, decide_eq_true_iff] at here
      cases ha.symm.trans (here ▸ hb)
    · obtain ⟨b, hb⟩ := h.holds p e
      cases ha.symm.trans hb

theorem Accounted.of_cells (nodup : hs.Nodup) (opened : ∀ f ∈ hs, (s.files f).isSome)
    (cell : ∀ p, Cell s hs held p (s.inodes p))
    (fresh : ∀ p, s.next ≤ p → s.inodes p = none ∧ s.files p = none) : Accounted s hs held := by
  have full : ∀ p a, s.inodes p = some a → Cell s hs held p (some a) := fun p a ha => ha ▸ cell p
  refine ⟨nodup, fun f mem => ?_, fun p e => ?_, fun p a ha => (full p a ha).1,
    fun p a ha => (full p a ha).2.1, fun p a ha => (full p a ha).2.2.1,
    fun p a ha => (full p a ha).2.2.2, fresh⟩
  · obtain ⟨file, entry⟩ := Option.isSome_iff_exists.mp (opened f mem)
    have here := cell file.inode
    cases ha : s.inodes file.inode with
    | some a => exact ⟨file, a, entry, ha⟩
    | none =>
      rw [ha] at here
      exact absurd (decide_eq_true rfl) (opens_of entry ▸ List.countP_eq_zero.mp here.1 f mem)
  · have here := cell p
    cases ha : s.inodes p with
    | some a => exact ⟨a, rfl⟩
    | none =>
      rw [ha] at here
      exact absurd e here.2

theorem Cell.congr {held' : Option Nat} {x : Option Inode} (h : Cell s hs held p x)
    (files : ∀ g ∈ hs, s'.files g = s.files g) (same : held' = some p ↔ held = some p) :
    Cell s' hs held' p x := by
  have opened : hs.countP (opens s' p) = hs.countP (opens s p) :=
    List.countP_congr fun g hg => by rw [opens_iff, opens_iff, files g hg]
  have denied : hs.countP (denies s' p) = hs.countP (denies s p) :=
    List.countP_congr fun g hg => by rw [denies_congr (files g hg)]
  cases x <;> simpa only [Cell, opened, denied, same, ne_eq] using h

section

variable (h : Accounted s hs held)
include h

theorem Accounted.recount {held' : Option Nat} {x : Option Inode}
    (files : ∀ g ∈ hs, s'.files g = s.files g) (inodes : ∀ q, q ≠ p → s'.inodes q = s.inodes q)
    (others : ∀ q, q ≠ p → (held' = some q ↔ held = some q)) (now : s'.inodes p = x)
    (here : Cell s hs held' p x) (fresh : ∀ q, s'.next ≤ q → s'.inodes q = none ∧ s'.files q = none) :
    Accounted s' hs held' := by
  refine .of_cells h.nodup (fun f mem => ?_) (fun q => ?_) fresh
  · obtain ⟨file, -, entry, -⟩ := h.opened f mem
    rw [files f mem, entry]
    rfl
  · by_cases ours : q = p
    · rw [ours, now]
      exact here.congr files Iff.rfl
    · rw [inodes q ours]
      exact (h.cell q).congr files (others q ours)

theorem Accounted.congr (files : ∀ g ∈ hs, s'.files g = s.files g) (inodes : s'.inodes = s.inodes)
    (fresh : ∀ q, s'.next ≤ q → s.next ≤ q ∧ s'.files q = none) : Accounted s' hs held := by
  refine h.recount files (fun q _ => congrFun inodes q) (fun _ _ => Iff.rfl) (congrFun inodes 0)
    (h.cell 0) fun q le => ?_
  rw [inodes]
  exact ⟨(h.fresh q (fresh q le).1).1, (fresh q le).2⟩

theorem Accounted.transfer (d : Device) (ms : List Bool) :
    Accounted { s with device := d, mallocs := ms } hs held :=
  h.congr (fun _ _ => rfl) rfl fun q le => ⟨le, (h.fresh q le).2⟩

/-- Handles and inodes stay; one handle may set or clear its flag, and its inode follows. -/
theorem Accounted.change (mem : f ∈ hs) (entry : s.files f = some file)
    (ha : s.inodes file.inode = some a) {file' : File} {a' : Inode}
    (files : s'.files = update s.files f (some file'))
    (inodes : s'.inodes = update s.inodes file.inode (some a')) (next : s'.next = s.next)
    (inode : file'.inode = file.inode) (openCnt : a'.openCnt = a.openCnt)
    (removed : a'.removed = a.removed)
    (count : a'.denyWriteCnt + file.denyWrite.toNat = a.denyWriteCnt + file'.denyWrite.toNat) :
    Accounted s' hs held := by
  have here : s'.files f = some file' := by rw [files, update_self]
  have other : ∀ g, g ≠ f → s'.files g = s.files g := fun g ne => by
    rw [files, update_of_ne ne]
  have opened : ∀ q, opens s' q = opens s q := fun q => funext fun g => by
    by_cases ours : g = f
    · rw [ours, opens_of here, opens_of entry, inode]
    · rw [opens, opens, other g ours]
  have denied (q : Nat) := countP_change (P := denies s q) (Q := denies s' q) h.nodup mem
    fun g ne => denies_congr (other g ne)
  simp only [denies_of entry, denies_of here, inode] at denied
  refine .of_cells h.nodup (fun g hg => ?_) (fun q => ?_) fun q le => ?_
  · by_cases ours : g = f
    · rw [ours, here]
      rfl
    · obtain ⟨x, -, entry', -⟩ := h.opened g hg
      rw [other g ours, entry']
      rfl
  · have cell := h.cell q
    have sum := denied q
    rw [inodes]
    by_cases ours : file.inode = q
    · subst ours
      simp only [decide_true, Bool.true_and] at sum
      rw [ha] at cell
      rw [update_self, Cell, opened, openCnt, removed]
      exact ⟨cell.1, cell.2.1, by have := cell.2.2.1; omega, cell.2.2.2⟩
    · simp only [ours, decide_false, Bool.false_and, Bool.toNat_false, Nat.add_zero] at sum
      rw [update_of_ne (Ne.symm ours)]
      cases hb : s.inodes q <;> rw [hb] at cell <;> simpa only [Cell, opened, sum] using cell
  · obtain ⟨noInode, noFile⟩ := h.fresh q (next ▸ le)
    have ne : q ≠ file.inode := fun e => by cases noInode.symm.trans (e ▸ ha)
    have ne' : q ≠ f := fun e => by cases noFile.symm.trans (e ▸ entry)
    rw [inodes, files, update_of_ne ne, update_of_ne ne']
    exact ⟨noInode, noFile⟩

theorem Accounted.hold (ha : s.inodes p = some a) {held' : Option Nat} {cnt : Int}
    (count : cnt = (hs.countP (opens s p) : Int) + if held' = some p then 1 else 0) (pos : 0 < cnt)
    (others : ∀ q, q ≠ p → (held' = some q ↔ held = some q)) :
    Accounted (FS.setInode s p (some { a with openCnt := cnt })) hs held' := by
  refine h.recount (fun _ _ => rfl) (fun q ne => update_of_ne ne ..) others
    (update_self ..) ⟨count, pos, h.denied p a ha, h.kept p a ha⟩ fun q le => ?_
  obtain ⟨noInode, noFile⟩ := h.fresh q le
  have ne : q ≠ p := fun e => by cases noInode.symm.trans (e ▸ ha)
  exact ⟨(update_of_ne ne ..).trans noInode, noFile⟩

end

theorem Accounted.push (h : Accounted s hs none) (ino : Inode) (one : ino.openCnt = 1)
    (allowed : ino.denyWriteCnt = 0) (kept : ino.removed = false) :
    Accounted (FS.pushInode s ino) hs (some s.next) := by
  have unused : hs.countP (opens s s.next) = 0 := by
    have cell := h.cell s.next
    rw [(h.fresh s.next (Nat.le_refl _)).1] at cell
    exact cell.1
  have allows : hs.countP (denies s s.next) = 0 :=
    Nat.le_zero.mp (unused ▸ List.countP_mono_left fun f _ => opens_of_denies)
  refine h.recount (fun _ _ => rfl) (fun q ne => update_of_ne ne ..)
    (fun q ne => by simp [Ne.symm ne]) (update_self ..) ?_ fun q le => ?_
  · refine ⟨?_, ?_, ?_, kept⟩
    · rw [unused, one, if_pos rfl]
      rfl
    · rw [one]
      decide
    · rw [allows, allowed]
      rfl
  · obtain ⟨noInode, noFile⟩ := h.fresh q (Nat.le_of_succ_le le)
    exact ⟨(update_of_ne (Nat.ne_of_gt le) ..).trans noInode, noFile⟩

theorem Accounted.adopt (h : Accounted s hs (some p)) : Accounted { s with
      files := update s.files s.next (some ⟨p, 0, false⟩)
      next := s.next + 1 } (hs ++ [s.next]) none := by
  have noFile := (h.fresh s.next (Nat.le_refl _)).2
  have new : ∀ g ∈ hs, g ≠ s.next := by
    rintro g hg rfl
    obtain ⟨x, b, entry, -⟩ := h.opened _ hg
    cases noFile.symm.trans entry
  have kept : Accounted { s with
      files := update s.files s.next (some ⟨p, 0, false⟩)
      next := s.next + 1 } hs (some p) := by
    refine h.congr (fun g hg => update_of_ne (new g hg) ..) rfl fun q le =>
      ⟨Nat.le_of_succ_le le, ?_⟩
    exact (update_of_ne (Nat.ne_of_gt le) ..).trans (h.fresh q (Nat.le_of_succ_le le)).2
  have here : update s.files s.next (some ⟨p, 0, false⟩) s.next = some ⟨p, 0, false⟩ :=
    update_self ..
  refine .of_cells ?_ (fun g hg => ?_) (fun q => ?_) kept.fresh
  · refine List.nodup_append.mpr ⟨h.nodup, List.nodup_singleton _, ?_⟩
    rintro g hg _ last rfl
    exact new g hg (List.mem_singleton.mp last)
  · rcases List.mem_append.mp hg with old | last
    · obtain ⟨x, b, entry, -⟩ := kept.opened g old
      rw [entry]
      rfl
    · rw [List.mem_singleton.mp last]
      exact Option.isSome_of_eq_some here
  · have cell := kept.cell q
    cases hb : s.inodes q with
    | none =>
      rw [hb] at cell
      refine ⟨?_, by simp⟩
      rw [List.countP_append, cell.1, List.countP_singleton, opens_of here]
      simpa using cell.2
    | some b =>
      rw [hb] at cell
      obtain ⟨count, pos, denied, stays⟩ := cell
      refine ⟨?_, pos, ?_, stays⟩
      · rw [count, List.countP_append, List.countP_singleton, opens_of here]
        by_cases ours : p = q <;> simp [ours]
      · rw [denied, List.countP_append, List.countP_singleton, denies_of here]
        simp

theorem Accounted.forget (h : Accounted s hs held) (off : f ∉ hs) :
    Accounted { s with files := update s.files f none } hs held := by
  have apart : ∀ g ∈ hs, g ≠ f := fun g hg e => off (e ▸ hg)
  refine h.congr (fun g hg => update_of_ne (apart g hg) ..) rfl fun q le => ⟨le, ?_⟩
  simp only [update_apply, (h.fresh q le).2, ite_self]

theorem Accounted.drop (h : Accounted s hs none) (mem : f ∈ hs) (entry : s.files f = some file)
    (allows : file.denyWrite = false) : Accounted s (hs.erase f) (some file.inode) := by
  have split := List.perm_cons_erase mem
  refine ⟨h.nodup.erase f, fun g hg => h.opened g (List.mem_of_mem_erase hg), fun q hq => ?_,
    fun q b hb => ?_, h.pos, fun q b hb => ?_, h.kept, h.fresh⟩
  · obtain ⟨x, b, entry', hb⟩ := h.opened f mem
    rw [entry, Option.some.injEq] at entry'
    rw [Option.some.injEq] at hq
    exact ⟨b, by rw [← hq, entry', hb]⟩
  · rw [h.count q b hb, split.countP_eq, List.countP_cons, opens_of entry]
    by_cases ours : file.inode = q <;> simp [ours]
  · rw [h.denied q b hb, split.countP_eq, List.countP_cons, denies_of entry, allows]
    simp

end Counts

section Specs

variable {s s' : FS} {hs : List Nat} {held : Option Nat} {p f : Nat}

theorem denyWrite_spec (h : Accounted s hs held) (mem : f ∈ hs) :
    ∃ s', Prog.run (fileDenyWrite f) s = some ((), s') ∧ Accounted s' hs held := by
  obtain ⟨file, a, entry, ha⟩ := h.opened f mem
  rw [fileDenyWrite, run_bind_of (run_getFile entry)]
  cases flag : file.denyWrite with
  | true => exact ⟨s, rfl, h⟩
  | false =>
    have room : a.denyWriteCnt + 1 ≤ a.openCnt := by
      -- counting `f` among the handles that deny still counts handles on the inode only
      have more := countP_change (P := denies s file.inode)
        (Q := fun g => denies s file.inode g || g == f) h.nodup mem fun g ne => by simp [ne]
      have le : hs.countP (fun g => denies s file.inode g || g == f) ≤
          hs.countP (opens s file.inode) := by
        refine List.countP_mono_left fun g _ either => ?_
        rcases Bool.or_eq_true_iff.mp either with denied | same
        · exact opens_of_denies denied
        · rw [beq_iff_eq.mp same, opens_of entry, decide_eq_true rfl]
      rw [denies_of entry, flag] at more
      simp at more
      rw [h.denied _ a ha, h.count _ a ha]
      split_ifs <;> omega
    refine ⟨{ s with
      files := update s.files f (some { file with denyWrite := true })
      inodes := update s.inodes file.inode
        (some { a with denyWriteCnt := a.denyWriteCnt + 1 }) }, ?_, ?_⟩
    · simp only [Bool.false_eq_true, if_false]
      rw [run_bind_of (run_setFile s f _), inodeDenyWrite,
        run_bind_of (run_setInode _ _ _), run_bind_of (run_getInode (by
          simp only [ha, Option.map_some, update_self]
          rfl)), run_assert room]
      simp only [entry, ha, Option.map_some]
    · refine h.change mem entry ha rfl rfl rfl rfl rfl rfl ?_
      simp [flag]

theorem allowWrite_spec (h : Accounted s hs held) (mem : f ∈ hs) :
    ∃ s' file, Prog.run (fileAllowWrite f) s = some ((), s') ∧ Accounted s' hs held ∧
      s'.files f = some file ∧ file.denyWrite = false := by
  obtain ⟨file, a, entry, ha⟩ := h.opened f mem
  rw [fileAllowWrite, run_bind_of (run_getFile entry)]
  cases flag : file.denyWrite with
  | false => exact ⟨s, file, rfl, h, entry, flag⟩
  | true =>
    have pos : 0 < a.denyWriteCnt := by
      have some : 0 < hs.countP (denies s file.inode) :=
        List.countP_pos_iff.mpr ⟨f, mem, by rw [denies_of entry, flag]; simp⟩
      rw [h.denied _ a ha]
      omega
    refine ⟨{ s with
      files := update s.files f (some { file with denyWrite := false })
      inodes := update s.inodes file.inode
        (some { a with denyWriteCnt := a.denyWriteCnt - 1 }) }, { file with denyWrite := false },
      ?_, ?_, update_self .., rfl⟩
    · simp only [if_true]
      rw [run_bind_of (run_setFile s f _), inodeAllowWrite,
        run_bind_of (run_getInode (by exact ha)),
        run_bind_of (run_assert pos _),
        run_bind_of (run_assert (h.denied_le ha) _), run_setInode]
      simp only [entry, ha, Option.map_some]
    · refine h.change mem entry ha rfl rfl rfl rfl rfl rfl ?_
      simp [flag]

theorem inodeClose_spec (h : Accounted s hs (some p)) :
    ∃ s', Prog.run (inodeClose (some p)) s = some ((), s') ∧ Accounted s' hs none := by
  obtain ⟨a, ha⟩ := h.holds p rfl
  have count := h.count p a ha
  rw [if_pos rfl] at count
  by_cases last : a.openCnt - 1 = 0
  · have gone := h.kept p a ha
    have released : Prog.run (releaseRemoved { a with openCnt := a.openCnt - 1 })
        (FS.unlist (FS.setInode s p (some { a with openCnt := a.openCnt - 1 })) p) =
          some ((), FS.unlist (FS.setInode s p (some { a with openCnt := a.openCnt - 1 })) p) := by
      rw [releaseRemoved, gone]
      rfl
    refine ⟨_, run_inodeClose_last ha last released, ?_⟩
    refine h.recount (fun _ _ => rfl) (fun q ne => ?_) (fun q ne => by simp [Ne.symm ne])
      (update_self ..) ⟨by omega, by simp⟩ fun q le => ?_
    · simp only [FS.setInode, FS.unlist, update_of_ne ne]
    · obtain ⟨noInode, noFile⟩ := h.fresh q le
      refine ⟨?_, noFile⟩
      simp only [FS.setInode, FS.unlist, update_apply, noInode]
      split_ifs <;> rfl
  · refine ⟨_, run_inodeClose_keep ha last, h.hold ha ?_ ?_ fun q ne => ?_⟩
    · rw [if_neg (by simp), count]
      omega
    · have := h.pos p a ha
      omega
    · simp [Ne.symm ne]

theorem fileOpen_spec (h : Accounted s hs (some p)) :
    ∃ r s', Prog.run (fileOpen (some p)) s = some (r, s') ∧ Accounted s' (hs ++ r.toList) none := by
  obtain ⟨ok, ms, run⟩ := run_malloc_cases s
  have kept := h.transfer s.device ms
  rw [fileOpen, run_bind_of run]
  cases ok with
  | true => exact ⟨some s.next, _, rfl, kept.adopt⟩
  | false =>
    obtain ⟨s', close, accounted⟩ := inodeClose_spec kept
    refine ⟨none, s', ?_, by simpa using accounted⟩
    simp only
    rw [run_bind_of close]
    rfl

section

variable (h : Accounted s hs none)
include h

theorem fileOpen_none :
    ∃ s', Prog.run (fileOpen none) s = some (none, s') ∧ Accounted s' hs none := by
  obtain ⟨ok, ms, run⟩ := run_malloc_cases s
  refine ⟨{ s with mallocs := ms }, ?_, h.transfer s.device ms⟩
  rw [fileOpen, run_bind_of run]
  rfl

theorem fileClose_spec (mem : f ∈ hs) :
    ∃ s', Prog.run (fileClose (some f)) s = some ((), s') ∧ Accounted s' (hs.erase f) none := by
  obtain ⟨t, file, allow, accounted, entry, allows⟩ := allowWrite_spec h mem
  obtain ⟨t', close, left⟩ := inodeClose_spec (accounted.drop mem entry allows)
  refine ⟨{ t' with files := update t'.files f none }, ?_, ?_⟩
  · rw [fileClose, run_bind_of allow, run_bind_of (run_getFile entry), run_bind_of close]
    rfl
  · exact left.forget h.nodup.not_mem_erase

theorem inodeReopen_spec {a : Inode} (ha : s.inodes p = some a) :
    ∃ s', Prog.run (inodeReopen p) s = some (p, s') ∧ Accounted s' hs (some p) := by
  have count := h.count p a ha
  rw [if_neg (by simp)] at count
  have pos := h.pos p a ha
  refine ⟨FS.setInode s p (some { a with openCnt := a.openCnt + 1 }), ?_, h.hold ha ?_ ?_ ?_⟩
  · rw [inodeReopen, run_bind_of (run_setInode_of ha _)]
    rfl
  · rw [if_pos rfl, count]
    omega
  · omega
  · intro q ne
    simp [Ne.symm ne]

theorem fileReopen_spec (mem : f ∈ hs) :
    ∃ r s', Prog.run (fileReopen f) s = some (r, s') ∧ Accounted s' (hs ++ r.toList) none := by
  obtain ⟨file, a, entry, ha⟩ := h.opened f mem
  obtain ⟨t, reopen, held⟩ := inodeReopen_spec h ha
  obtain ⟨r, s', opened, accounted⟩ := fileOpen_spec held
  refine ⟨r, s', ?_, accounted⟩
  rw [fileReopen, run_bind_of (run_getFile entry), run_bind_of reopen, opened]

theorem inodeOpen_cases {sector : Nat} {r : Option Nat}
    (run : Prog.run (inodeOpen sector) s = some (r, s')) : Accounted s' hs r := by
  obtain ⟨_, _, read, rest⟩ := run_bind_iff.mp run
  cases read
  cases search : s.openInodes.find? (isAt s sector) with
  | some p =>
    simp only [search] at rest
    have here := List.find?_some search
    unfold isAt at here
    cases ha : s.inodes p with
    | none =>
      rw [ha] at here
      cases here
    | some a =>
      obtain ⟨t, reopen, held⟩ := inodeReopen_spec h ha
      rw [run_bind_of reopen] at rest
      cases rest
      exact held
  | none =>
    simp only [search] at rest
    obtain ⟨ok, ms, answer⟩ := run_malloc_cases s
    rw [run_bind_of answer] at rest
    have kept := h.transfer s.device ms
    cases ok with
    | false =>
      cases rest
      exact kept
    | true =>
      simp only [if_true] at rest
      obtain ⟨_, _, read, rest⟩ := run_bind_iff.mp rest
      cases read
      obtain ⟨_, t, stored, rest⟩ := run_bind_iff.mp rest
      cases stored
      obtain ⟨bs, t', block, rest⟩ := run_bind_iff.mp rest
      obtain ⟨d, ms', rfl⟩ := blockRead_transferred sector _ _ _ block
      rw [run_bind_of (run_setInode _ _ _)] at rest
      cases rest
      have pushed := kept.push ⟨sector, 1, false, 0, decodeInode bs⟩ rfl rfl rfl
      refine pushed.congr (fun _ _ => rfl) ?_ fun q le => ⟨le, (pushed.fresh q le).2⟩
      simp [FS.pushInode]

end

/-- A write that nobody denies: the loop of `inode_write_at`, and the position moves on. -/
def ordinaryWrite (file : Nat) (buffer : List UInt8) (size : Int) : Code Int := do
  let f ← getFile file
  let n ← writeLoop f.inode (fun _ => buffer) size.toNat size f.pos 0 false
  setFile file fun f => { f with pos := f.pos + n }
  pure n

theorem fileWrite_cases (h : Accounted s hs none) (mem : f ∈ hs) {buffer : List UInt8}
    {size n : Int} (run : Prog.run (fileWrite f buffer size) s = some (n, s')) :
    Accounted s' hs none := by
  obtain ⟨file, a, entry, ha⟩ := h.opened f mem
  rw [fileWrite, run_bind_of (run_getFile entry)] at run
  obtain ⟨m, t, write, rest⟩ := run_bind_iff.mp run
  obtain ⟨d, ms, rfl⟩ := inodeWriteAt_transferred _ _ _ _ _ _ _ write
  rw [run_bind_of (run_setFile _ _ _)] at rest
  cases rest
  have kept := h.transfer d ms
  have files : update s.files f ((s.files f).map fun f => { f with pos := f.pos + n }) =
      update s.files f (some { file with pos := file.pos + n }) := by
    rw [entry, Option.map_some]
  have inodes : s.inodes = update s.inodes file.inode (some a) :=
    (update_eq_self_iff.mpr ha.symm).symm
  exact kept.change mem entry ha files inodes rfl rfl rfl rfl rfl

end Specs

variable {w w' : World}

theorem on_accounted {file : Nat} {code : Code (Option Nat)} (taken : w.on file code = some w')
    (spec : file ∈ w.handles → ∀ r s', Prog.run code w.fs = some (r, s') →
      Accounted s' (w.handles ++ r.toList) none) : Accounted w'.fs w'.handles none := by
  unfold World.on at taken
  split_ifs at taken with mem
  obtain ⟨⟨r, s'⟩, run, rest⟩ := Option.map_eq_some_iff.mp taken
  cases rest
  exact spec mem r s' run

theorem step_accounted {action : Action} (h : Accounted w.fs w.handles none)
    (taken : step w action = some w') : Accounted w'.fs w'.handles none := by
  cases action with
  | openFile sector =>
    obtain ⟨⟨r, s'⟩, run, rest⟩ := Option.map_eq_some_iff.mp taken
    cases rest
    obtain ⟨inode, t, first, second⟩ := run_bind_iff.mp run
    have held := inodeOpen_cases h first
    cases inode with
    | none =>
      obtain ⟨s'', opened, accounted⟩ := fileOpen_none held
      cases second.symm.trans opened
      simpa using accounted
    | some p =>
      obtain ⟨r', s'', opened, accounted⟩ := fileOpen_spec held
      cases second.symm.trans opened
      exact accounted
  | reopen file =>
    refine on_accounted taken fun mem r s' run => ?_
    obtain ⟨r', s'', reopened, accounted⟩ := fileReopen_spec h mem
    cases run.symm.trans reopened
    exact accounted
  | denyWrite file =>
    refine on_accounted taken fun mem r s' run => ?_
    obtain ⟨t, deny, accounted⟩ := denyWrite_spec h mem
    rw [run_bind_of deny] at run
    cases run
    simpa using accounted
  | allowWrite file =>
    refine on_accounted taken fun mem r s' run => ?_
    obtain ⟨t, -, allow, accounted, -⟩ := allowWrite_spec h mem
    rw [run_bind_of allow] at run
    cases run
    simpa using accounted
  | write file buffer size =>
    refine on_accounted taken fun mem r s' run => ?_
    obtain ⟨n, t, write, rest⟩ := run_bind_iff.mp run
    cases rest
    simpa using fileWrite_cases h mem write
  | close file =>
    simp only [step] at taken
    split_ifs at taken with mem
    obtain ⟨t, close, accounted⟩ := fileClose_spec h mem
    rw [close] at taken
    cases taken
    exact accounted

theorem accounted_start (d : Device) (junk : Nat → BitVec 32) (mallocs : List Bool) :
    Accounted (World.start d junk mallocs).fs [] none := by
  refine ⟨List.nodup_nil, fun f mem => ?_, fun p e => ?_, fun p a ha => ?_, fun p a ha => ?_,
    fun p a ha => ?_, fun p a ha => ?_, fun p le => ⟨rfl, rfl⟩⟩
  · cases mem
  · cases e
  all_goals cases ha

theorem write_denial {d : Device} {junk : Nat → BitVec 32} {mallocs : List Bool}
    (reach : Reachable (World.start d junk mallocs) step (fun _ _ => True) w) :
    (∀ p a, w.fs.inodes p = some a →
      a.denyWriteCnt = w.handles.countP (denies w.fs p) ∧ a.denyWriteCnt ≤ a.openCnt) ∧
    (∀ f ∈ w.handles, (∃ s', Prog.run (fileDenyWrite f) w.fs = some ((), s')) ∧
      (∃ s', Prog.run (fileAllowWrite f) w.fs = some ((), s')) ∧
      ∃ s', Prog.run (fileClose (some f)) w.fs = some ((), s')) ∧
    ∀ f ∈ w.handles, ∃ file, w.fs.files f = some file ∧ ∀ buffer size,
      (0 < w.handles.countP (denies w.fs file.inode) →
        Prog.run (fileWrite f buffer size) w.fs = some (0, w.fs)) ∧
      (w.handles.countP (denies w.fs file.inode) = 0 →
        Prog.run (fileWrite f buffer size) w.fs =
          Prog.run (ordinaryWrite f buffer size) w.fs ∧
        ∀ a L, Loaded w.fs file.inode a L → 0 ≤ file.pos → size.toNat ≤ buffer.length →
          Prog.run (fileWrite f buffer size) w.fs = some ((ioCount L size file.pos.toNat : Int),
            FS.setFile
              { w.fs with
                device := w.fs.device.write (512 * a.data.start + file.pos.toNat)
                  (buffer.take (ioCount L size file.pos.toNat)) }
              f (some { file with pos := file.pos + (ioCount L size file.pos.toNat : Nat) }))) := by
  have accounted : Accounted w.fs w.handles none := Reachable.invariant
    (P := fun w => Accounted w.fs w.handles none) (accounted_start d junk mallocs)
    (fun w a w' h _ taken => step_accounted h taken) reach
  refine ⟨fun p a ha => ⟨accounted.denied p a ha, accounted.denied_le ha⟩, fun f mem => ?_,
    fun f mem => ?_⟩
  · obtain ⟨s1, deny, -⟩ := denyWrite_spec accounted mem
    obtain ⟨s2, -, allow, -⟩ := allowWrite_spec accounted mem
    obtain ⟨s3, close, -⟩ := fileClose_spec accounted mem
    exact ⟨⟨s1, deny⟩, ⟨s2, allow⟩, ⟨s3, close⟩⟩
  · obtain ⟨file, a, entry, ha⟩ := accounted.opened f mem
    refine ⟨file, entry, fun buffer size => ⟨fun denied => ?_, fun allowed => ?_⟩⟩
    · have count : a.denyWriteCnt ≠ 0 := by
        rw [accounted.denied _ a ha]
        omega
      have refused : Prog.run (inodeWriteAt file.inode (fun _ => buffer) size file.pos) w.fs =
          some (0, w.fs) := by
        rw [inodeWriteAt, run_bind_of (run_getInode ha), if_pos count]
        rfl
      rw [fileWrite, run_bind_of (run_getFile entry), run_bind_of refused,
        run_bind_of (run_setFile _ _ _)]
      simp only [entry, Option.map_some, Int.add_zero, Prog.run_pure]
      rw [update_eq_self_iff.mpr entry.symm]
    have count : ∀ a, w.fs.inodes file.inode = some a → a.denyWriteCnt = 0 := by
      intro a ha
      rw [accounted.denied _ a ha, allowed]
      rfl
    -- a write that is not denied is an ordinary one
    refine ⟨?_, fun a L loaded pos long => run_fileWrite entry pos loaded (count a loaded.inode) long⟩
    have plain : Prog.run (inodeWriteAt file.inode (fun _ => buffer) size file.pos) w.fs = Prog.run
        (writeLoop file.inode (fun _ => buffer) size.toNat size file.pos 0 false) w.fs := by
      rw [inodeWriteAt, run_bind_of (run_getInode ha), if_neg (not_not_intro (count a ha))]
    rw [fileWrite, ordinaryWrite, run_bind_of (run_getFile entry), run_bind_of (run_getFile entry),
      run_bind, run_bind, plain]

theorem write_denial_blank : ∃ w,
    Reachable (World.start blankDevice (fun _ => 0) []) step (fun _ _ => True) w ∧
      w.handles = [1] ∧ w.handles.countP (denies w.fs 0) = 1 ∧
      Prog.run (fileWrite 1 [7] 1) w.fs = some (0, w.fs) ∧
      ∃ s', Prog.run (fileAllowWrite 1) w.fs = some ((), s') := by
  have opened : ∃ w1, step (World.start blankDevice (fun _ => 0) []) (.openFile 5) = some w1 ∧
      ∃ w2, step w1 (.denyWrite 1) = some w2 ∧ w2.handles = [1] ∧
        ∃ file, w2.fs.files 1 = some file ∧ file.inode = 0 ∧
          w2.handles.countP (denies w2.fs 0) = 1 := ⟨_, rfl, _, rfl, rfl, _, rfl, rfl, rfl⟩
  obtain ⟨w1, first, w2, second, handles, file, entry, inode, count⟩ := opened
  have reach : Reachable (World.start blankDevice (fun _ => 0) []) step (fun _ _ => True) w2 :=
    .next (.next .start trivial first) trivial second
  obtain ⟨-, total, writes⟩ := write_denial reach
  have mem : 1 ∈ w2.handles := by rw [handles]; exact List.mem_singleton_self 1
  obtain ⟨file', entry', write⟩ := writes 1 mem
  obtain rfl : file = file' := Option.some.inj (entry.symm.trans entry')
  refine ⟨w2, reach, handles, count, (write [7] 1).1 ?_, (total 1 mem).2.1⟩
  rw [inode, count]
  decide

end Pintos.DenyWrite
