import Pintos.Filesys
import Pintos.Transition
import Mathlib.Data.Finset.Card

/-! Threads that open one inode and close it again. A thread sleeps in the `block_read`
of `inode_open`, when the new inode is on the list of open inodes already; a thread that
opens the same sector meanwhile gets the inode as it is. -/

namespace Pintos.ConcurrentOpen
open Resumption ByteStore Disk InodeIO Inode Transition Function

inductive Phase where
  | idle
  | opening (rest : Code (Option Nat))
  | holding (r : Option Nat)
  | closing (rest : Code Unit)

structure State (τ : Type) where
  fs : FS
  phase : τ → Phase

inductive Act (τ : Type) where
  | inodeOpen (t : τ)
  | inodeClose (t : τ)
  | resume (t : τ)

def settleOpen : Code (Option Nat) → Phase
  | .ret r => .holding r
  | p => .opening p

def settleClose : Code Unit → Phase
  | .ret _ => .idle
  | p => .closing p

variable {τ : Type}

def start (fs : FS) : State τ := ⟨fs, fun _ => .idle⟩

variable [DecidableEq τ]

def State.runOpen (s : State τ) (t : τ) (p : Code (Option Nat)) : State τ :=
  ⟨(p.advance s.fs).2, update s.phase t (settleOpen (p.advance s.fs).1)⟩

def State.runClose (s : State τ) (t : τ) (p : Code Unit) : State τ :=
  ⟨(p.advance s.fs).2, update s.phase t (settleClose (p.advance s.fs).1)⟩

def step (sector : Nat) (s : State τ) : Act τ → Option (State τ)
  | .inodeOpen t =>
    match s.phase t with
    | .idle => some (s.runOpen t (inodeOpen sector))
    | _ => none
  | .inodeClose t =>
    match s.phase t with
    | .holding r => some (s.runClose t (inodeClose r))
    | _ => none
  | .resume t =>
    match s.phase t with
    | .opening (.pause _ p) => some (s.runOpen t p)
    | .closing (.pause _ p) => some (s.runClose t p)
    | _ => none
variable {s : FS} {sector p : Nat} {ino : Inode}

section Advance
attribute [local irreducible] slice

/-- What is read after the sleep of `inode_open`. -/
def loadData (sector p : Nat) : Code (Option Nat) := do
  let s ← Prog.state
  setInode p fun ino =>
    { ino with data := decodeInode (slice s.device.data (sectorSize * sector) sectorSize) }
  pure (some p)

theorem advance_inodeOpen_found (search : s.openInodes.find? (isAt s sector) = some p)
    (h : s.inodes p = some ino) :
    (inodeOpen sector).advance s =
      (.ret (some p), FS.setInode s p (some { ino with openCnt := ino.openCnt + 1 })) := by
  rw [inodeOpen, Prog.advance_state_bind, search]
  change (_, FS.setInode s p ((s.inodes p).map _)) = _
  rw [h]
  rfl

theorem advance_malloc (s : FS) :
    ∃ ok mallocs, malloc.advance s = (.ret ok, { s with mallocs := mallocs }) := by
  rw [malloc, Prog.advance_state_bind]
  cases list : s.mallocs with
  | nil => exact ⟨true, s.mallocs, rfl⟩
  | cons ok rest => exact ⟨ok, rest, rfl⟩

theorem advance_blockRead (room : sector < s.device.size) :
    (blockRead sector).advance s = (.pause (.read sector) (do
      let s ← Prog.state
      pure (slice s.device.data (sectorSize * sector) sectorSize)), s) := by
  rw [blockRead, Prog.advance_state_bind, Prog.advance_assert_bind room]
  rfl

theorem advance_inodeOpen_new (room : sector < s.device.size)
    (search : s.openInodes.find? (isAt s sector) = none) :
    ∃ mallocs, (inodeOpen sector).advance s = (.ret none, { s with mallocs := mallocs }) ∨
      ∃ data, (inodeOpen sector).advance s = (.pause (.read sector) (loadData sector s.next),
        FS.pushInode { s with mallocs := mallocs } ⟨sector, 1, false, 0, data⟩) := by
  obtain ⟨ok, mallocs, alloc⟩ := advance_malloc s
  refine ⟨mallocs, ?_⟩
  rw [inodeOpen, Prog.advance_state_bind, search]
  simp only
  rw [Prog.advance_bind_ret alloc]
  cases ok with
  | false => exact .inl rfl
  | true =>
    let junk : InodeDisk := ⟨(s.junk (3 * s.next)).toNat, (s.junk (3 * s.next + 1)).toInt,
      (s.junk (3 * s.next + 2)).toNat⟩
    let listed := FS.pushInode { s with mallocs := mallocs } ⟨sector, 1, false, 0, junk⟩
    refine .inr ⟨junk, ?_⟩
    rw [if_pos rfl, Prog.advance_state_bind, Prog.advance_modify_bind]
    change Prog.advance _ listed = _
    rw [Prog.advance_bind_pause (advance_blockRead (show sector < listed.device.size from room))]
    rfl

theorem advance_loadData (h : s.inodes p = some ino) :
    (loadData sector p).advance s =
      (.ret (some p), FS.setInode s p (some { ino with data := diskInode s.device sector })) := by
  rw [loadData, Prog.advance_state_bind]
  change (_, FS.setInode s p ((s.inodes p).map _)) = _
  rw [h]
  rfl

/-- `inode_close` after it has counted the caller out. -/
theorem advance_inodeClose (h : s.inodes p = some ino) :
    (inodeClose (some p)).advance s = Prog.advance (if ino.openCnt - 1 = 0 then do
        Prog.modify fun s => { s with openInodes := s.openInodes.erase p }
        releaseRemoved { ino with openCnt := ino.openCnt - 1 }
        Prog.modify fun s => { s with inodes := update s.inodes p none }
      else pure ()) (FS.setInode s p (some { ino with openCnt := ino.openCnt - 1 })) := by
  have counted : FS.setInode s p ((s.inodes p).map fun ino =>
      { ino with openCnt := ino.openCnt - 1 }) =
      FS.setInode s p (some { ino with openCnt := ino.openCnt - 1 }) := by
    rw [h]
    rfl
  have got : (getInode p).advance (FS.setInode s p (some { ino with openCnt := ino.openCnt - 1 })) =
      (.ret { ino with openCnt := ino.openCnt - 1 },
        FS.setInode s p (some { ino with openCnt := ino.openCnt - 1 })) := by
    rw [getInode, Prog.advance_state_bind]
    change (Prog.demand (update s.inodes p _ p)).advance _ = _
    rw [update_self]
    rfl
  rw [inodeClose, setInode, Prog.advance_modify_bind]
  change Prog.advance _ (FS.setInode s p ((s.inodes p).map _)) = _
  rw [counted, Prog.advance_bind_ret got]

theorem advance_inodeClose_keep (h : s.inodes p = some ino) (more : ino.openCnt - 1 ≠ 0) :
    (inodeClose (some p)).advance s =
      (.ret (), FS.setInode s p (some { ino with openCnt := ino.openCnt - 1 })) := by
  rw [advance_inodeClose h, if_neg more]
  rfl

theorem advance_inodeClose_last (h : s.inodes p = some ino) (last : ino.openCnt - 1 = 0)
    (stays : ino.removed = false) :
    (inodeClose (some p)).advance s = (.ret (), FS.setInode (FS.unlist s p) p none) := by
  rw [advance_inodeClose h, if_pos last, Prog.advance_modify_bind, releaseRemoved,
    if_neg (by simp [stays])]
  change (_, _) = _
  simp [FS.setInode, FS.unlist]

end Advance

/-- The calls of `inode_open` that have returned an inode and those that have not begun
or are over. -/
def Outside (s : State τ) (t : τ) : Prop := s.phase t = .idle ∨ s.phase t = .holding none

/-- The inode is closed, being read by thread `u`, or held by the threads `H`. -/
inductive View (sector : Nat) (base : List Nat) (s : State τ) : Prop where
  | closed (cached : Cached sector base s.fs none) (all : ∀ t, Outside s t)
  | loading (u : τ) (p : Nat) (data : InodeDisk)
      (cached : Cached sector base s.fs (some (p, ⟨sector, 1, false, 0, data⟩)))
      (here : s.phase u = .opening (.pause (.read sector) (loadData sector p)))
      (others : ∀ t, t ≠ u → Outside s t)
  | loaded (p : Nat) (H : Finset τ)
      (cached : Cached sector base s.fs
        (some (p, ⟨sector, H.card, false, 0, diskInode s.fs.device sector⟩)))
      (holders : ∀ t ∈ H, s.phase t = .holding p)
      (others : ∀ t, t ∉ H → Outside s t)

structure Inv (sector : Nat) (base : List Nat) (s : State τ) : Prop where
  room : sector < s.fs.device.size
  view : View sector base s

/-- No thread is asleep in `inode_open` of the sector when another one calls it. -/
def Alone (s : State τ) : Act τ → Prop
  | .inodeOpen _ => ∀ u rest, s.phase u ≠ .opening rest
  | _ => True

/-- Every inode returned and not closed holds the data of its sector and counts the
references returned and not closed, and they are all the same inode. -/
def Initialised (sector : Nat) (s : State τ) : Prop :=
  ∀ t p, s.phase t = .holding (some p) → ∃ ino, s.fs.inodes p = some ino ∧
    ino.data = diskInode s.fs.device sector ∧
    (∃ H : Finset τ, (∀ u, u ∈ H ↔ ∃ q, s.phase u = .holding (some q)) ∧ ino.openCnt = H.card) ∧
    ∀ u q, s.phase u = .holding (some q) → q = p

variable {sector : Nat} {base : List Nat} {s s' : State τ} {t : τ}

omit [DecidableEq τ] in
theorem Outside.not_holding (h : Outside s t) (p : Nat) : s.phase t ≠ .holding (some p) := by
  rcases h with h | h <;> simp [h]

omit [DecidableEq τ] in
theorem Inv.initialised (inv : Inv sector base s) : Initialised sector s := by
  intro t p holds
  cases inv.view with
  | closed cached all => exact absurd holds ((all t).not_holding p)
  | loading u q data cached here others =>
    by_cases same : t = u
    · simp [same, here] at holds
    · exact absurd holds ((others t same).not_holding p)
  | loaded q H cached holders others =>
    have held : ∀ u r, s.phase u = .holding (some r) → u ∈ H ∧ r = q := by
      intro u r h
      by_cases mem : u ∈ H
      · have := holders u mem
        rw [h] at this
        simp only [Phase.holding.injEq] at this
        exact ⟨mem, Option.some_inj.mp this⟩
      · exact absurd h ((others u mem).not_holding r)
    obtain ⟨_, rfl⟩ := held t p holds
    refine ⟨_, (cached.inode p _ rfl).1, rfl, ⟨H, fun u => ⟨fun mem => ⟨p, holders u mem⟩, ?_⟩, rfl⟩,
      fun u r h => (held u r h).2⟩
    exact fun ⟨r, h⟩ => (held u r h).1

theorem outside_update {fs : FS} {u : τ} {p : Phase} (h : Outside s u)
    (new : u = t → p = .idle ∨ p = .holding none) : Outside ⟨fs, update s.phase t p⟩ u := by
  by_cases same : u = t
  · subst same
    simpa [Outside] using new rfl
  · simpa [Outside, same] using h

section

variable (inv : Inv sector base s)
include inv

theorem Inv.openNew (cached : Cached sector base s.fs none) (all : ∀ t, Outside s t) :
    Inv sector base (s.runOpen t (inodeOpen sector)) := by
  obtain ⟨mallocs, none | ⟨data, sleeps⟩⟩ := advance_inodeOpen_new inv.room cached.search
  · rw [State.runOpen, none]
    exact ⟨inv.room, .closed (cached.congr rfl rfl rfl)
      fun u => outside_update (all u) fun _ => .inr rfl⟩
  · have same : Cached sector base { s.fs with mallocs := mallocs } none :=
      cached.congr rfl rfl rfl
    rw [State.runOpen, sleeps]
    exact ⟨inv.room, .loading t s.fs.next data (same.push rfl) (by simp [settleOpen])
      fun u ne => outside_update (all u) fun same => absurd same ne⟩

theorem Inv.openLoaded {H : Finset τ} (idle : s.phase t = .idle)
    (cached : Cached sector base s.fs (some (p, ⟨sector, H.card, false, 0,
      diskInode s.fs.device sector⟩)))
    (holders : ∀ t ∈ H, s.phase t = .holding p) (others : ∀ t, t ∉ H → Outside s t) :
    Inv sector base (s.runOpen t (inodeOpen sector)) := by
  have absent : t ∉ H := fun mem => by
    have := holders t mem
    simp [idle] at this
  rw [State.runOpen, advance_inodeOpen_found cached.search (cached.inode p _ rfl).1]
  refine ⟨inv.room, .loaded p (insert t H) ?_ (fun u mem => ?_) fun u not => ?_⟩
  · rw [Finset.card_insert_of_notMem absent]
    exact cached.set rfl
  · by_cases same : u = t
    · simp [same, settleOpen]
    · simpa [same] using holders u (Finset.mem_of_mem_insert_of_ne mem same)
  · rw [Finset.mem_insert, not_or] at not
    exact outside_update (others u not.2) fun same => absurd same not.1

theorem Inv.load {data : InodeDisk}
    (cached : Cached sector base s.fs (some (p, ⟨sector, 1, false, 0, data⟩)))
    (others : ∀ u, u ≠ t → Outside s u) : Inv sector base (s.runOpen t (loadData sector p)) := by
  rw [State.runOpen, advance_loadData (cached.inode p _ rfl).1]
  refine ⟨inv.room, .loaded p {t} (cached.set rfl) (fun u mem => ?_) fun u not => ?_⟩
  · simp [Finset.mem_singleton.mp mem, settleOpen]
  · rw [Finset.mem_singleton] at not
    exact outside_update (others u not) fun same => absurd same not

theorem Inv.close {H : Finset τ} (mem : t ∈ H)
    (cached : Cached sector base s.fs (some (p, ⟨sector, H.card, false, 0,
      diskInode s.fs.device sector⟩)))
    (holders : ∀ t ∈ H, s.phase t = .holding p) (others : ∀ t, t ∉ H → Outside s t) :
    Inv sector base (s.runClose t (inodeClose (some p))) := by
  have card := Finset.card_erase_add_one mem
  have inode := (cached.inode p _ rfl).1
  by_cases last : (H.erase t).card = 0
  · have only : ∀ u, u ≠ t → u ∉ H := fun u ne there => by
      have : u ∈ H.erase t := Finset.mem_erase.mpr ⟨ne, there⟩
      rw [Finset.card_eq_zero.mp last] at this
      simp at this
    rw [State.runClose, advance_inodeClose_last inode (by simp; omega) rfl]
    refine ⟨inv.room, .closed cached.close fun u => ?_⟩
    by_cases same : u = t
    · subst same
      simp [Outside, settleClose]
    · exact outside_update (others u (only u same)) fun h => absurd h same
  · have less : ((H.card : Nat) : Int) - 1 = (H.erase t).card := by omega
    rw [State.runClose, advance_inodeClose_keep inode (by simp; omega)]
    refine ⟨inv.room, .loaded p (H.erase t) ?_ (fun u there => ?_) fun u not => ?_⟩
    · rw [← less]
      exact cached.set rfl
    · obtain ⟨ne, there⟩ := Finset.mem_erase.mp there
      simpa [ne] using holders u there
    · by_cases same : u = t
      · subst same
        simp [Outside, settleClose]
      · exact outside_update (others u fun there => not (Finset.mem_erase.mpr ⟨same, there⟩))
          fun h => absurd h same

theorem Inv.closeNone (holds : s.phase t = .holding none) :
    Inv sector base (s.runClose t (inodeClose none)) := by
  have moved : ∀ u, Outside s u → Outside (s.runClose t (inodeClose none)) u := fun u h =>
    outside_update h fun _ => .inl rfl
  have kept : ∀ u, u ≠ t → (s.runClose t (inodeClose none)).phase u = s.phase u := fun u ne => by
    simp [State.runClose, ne]
  refine ⟨inv.room, ?_⟩
  cases inv.view with
  | closed cached all => exact .closed (cached.congr rfl rfl rfl) fun u => moved u (all u)
  | loading u p data cached here others =>
    have ne : u ≠ t := fun same => by simp [same, holds] at here
    exact .loading u p data (cached.congr rfl rfl rfl) (by rw [kept u ne, here]) fun v not => moved v (others v not)
  | loaded p H cached holders others =>
    refine .loaded p H (cached.congr rfl rfl rfl) (fun u mem => ?_) fun v not => moved v (others v not)
    have ne : u ≠ t := fun same => by
      have := holders u mem
      simp [same, holds] at this
    rw [kept u ne, holders u mem]

theorem Inv.inodeClose {r : Option Nat} (holds : s.phase t = .holding r) :
    Inv sector base (s.runClose t (inodeClose r)) := by
  cases r with
  | none => exact inv.closeNone holds
  | some p =>
    cases inv.view with
    | closed cached all => exact absurd holds ((all t).not_holding p)
    | loading u q data cached here others =>
      by_cases same : t = u
      · simp [same, here] at holds
      · exact absurd holds ((others t same).not_holding p)
    | loaded q H cached holders others =>
      by_cases mem : t ∈ H
      · have same := holders t mem
        rw [holds] at same
        cases same
        exact inv.close mem cached holders others
      · exact absurd holds ((others t mem).not_holding p)

theorem Inv.resume (h : step sector s (.resume t) = some s') : Inv sector base s' := by
  have quiet : ¬Outside s t := fun out => by
    rcases out with out | out <;> simp [step, out] at h
  cases inv.view with
  | closed cached all => exact absurd (all t) quiet
  | loading u p data cached here others =>
    by_cases same : t = u
    · subst same
      simp only [step, here, Option.some.injEq] at h
      exact h ▸ inv.load cached others
    · exact absurd (others t same) quiet
  | loaded p H cached holders others =>
    by_cases mem : t ∈ H
    · simp [step, holders t mem] at h
    · exact absurd (others t mem) quiet

theorem Inv.step {a : Act τ} (alone : Alone s a) (h : step sector s a = some s') :
    Inv sector base s' := by
  cases a with
  | inodeOpen t =>
    simp only [ConcurrentOpen.step] at h
    split at h <;> cases h
    rename_i idle
    cases inv.view with
    | closed cached all => exact inv.openNew cached all
    | loading u p data cached here others => exact absurd here (alone u _)
    | loaded p H cached holders others =>
      exact inv.openLoaded idle cached holders others
  | inodeClose t =>
    simp only [ConcurrentOpen.step] at h
    split at h <;> cases h
    rename_i r holds
    exact inv.inodeClose holds
  | resume t => exact inv.resume h

theorem Inv.overlap {a : Act τ} (not : ¬Alone s a) (h : ConcurrentOpen.step sector s a = some s') :
    ¬Initialised sector s' := by
  cases a with
  | inodeClose t => exact absurd True.intro not
  | resume t => exact absurd True.intro not
  | inodeOpen t =>
    simp only [Alone, not_forall, not_not] at not
    obtain ⟨v, rest, asleep⟩ := not
    have busy : ¬Outside s v := fun out => by
      rcases out with out | out <;> simp [out] at asleep
    simp only [ConcurrentOpen.step] at h
    split at h <;> cases h
    rename_i idle
    cases inv.view with
    | closed cached all => exact absurd (all v) busy
    | loaded p H cached holders others =>
      by_cases mem : v ∈ H
      · simp [holders v mem] at asleep
      · exact absurd (others v mem) busy
    | loading u p data cached here others =>
      intro good
      have ne : u ≠ t := fun same => by simp [same, idle] at here
      rw [State.runOpen, advance_inodeOpen_found cached.search (cached.inode p _ rfl).1] at good
      obtain ⟨ino, got, _, ⟨H, mem, count⟩, _⟩ := good t p (by simp [settleOpen])
      have single : H = {t} := by
        ext w
        rw [mem, Finset.mem_singleton]
        refine ⟨fun ⟨q, holds⟩ => by_contra fun other => ?_, fun same => ⟨p, by
          simp [same, settleOpen]⟩⟩
        simp only [ne_eq, other, not_false_eq_true, update_of_ne] at holds
        by_cases first : w = u
        · simp [first, here] at holds
        · exact (others w first).not_holding q holds
      simp only [FS.setInode, update_self, Option.some.injEq] at got
      rw [← got, single] at count
      simp at count

end

/-- In every run in which `inode_open` is called only while no other call of it sleeps,
the inodes returned are initialised and counted; a step that breaks the rule breaks this. -/
theorem open_initialised {fs : FS} (room : sector < fs.device.size)
    (closed : ∀ q ∈ fs.openInodes, isAt fs sector q = false)
    (older : ∀ q ∈ fs.openInodes, q < fs.next)
    (h : Reachable (start fs) (step sector) Alone s) :
    Initialised sector s ∧
      ∀ a s', step sector s a = some s' → (Initialised sector s' ↔ Alone s a) := by
  have inv : Inv sector fs.openInodes s := by
    refine h.invariant (P := Inv sector fs.openInodes)
      ⟨room, .closed ⟨rfl, by simp, closed, older⟩ fun _ => .inl rfl⟩ ?_
    exact fun _ _ _ inv alone taken => inv.step alone taken
  refine ⟨inv.initialised, fun a s' taken => ⟨fun good => ?_, fun alone => ?_⟩⟩
  · by_contra not
    exact inv.overlap not taken good
  · exact (inv.step alone taken).initialised

/-- Memory from `malloc` holds other bytes than the disk. -/
def dirtyMemory : FS := Filesys.boot ⟨2, fun _ => 0, by decide⟩ fun _ => 7

theorem dirtyMemory_start : (diskInode dirtyMemory.device 1).start = 0 := by
  simp (disch := omega) only [diskInode, decodeInode, readLe32, slice_getD]
  rfl

theorem open_initialised_shared : ∃ s : State Bool,
    Reachable (start dirtyMemory) (step 1) Alone s ∧
      s.phase true = .holding (some 0) ∧ s.phase false = .holding (some 0) ∧ Initialised 1 s ∧
      ∀ a s', step 1 s a = some s' → (Initialised 1 s' ↔ Alone s a) := by
  have init : Reachable (start dirtyMemory : State Bool) (step 1) Alone _ := .start
  have sleeps := init.next (a := Act.inodeOpen true) (fun _ _ h => by cases h) rfl
  have loaded := sleeps.next (a := Act.resume true) True.intro rfl
  have shared := loaded.next (a := Act.inodeOpen false) (fun u _ h => by
    cases u <;> cases h) rfl
  exact ⟨_, shared, rfl, rfl, open_initialised (by decide) (by simp [dirtyMemory, Filesys.boot])
    (by simp [dirtyMemory, Filesys.boot]) shared⟩

/-- The second thread opens the inode while the first sleeps: it gets what `malloc`
returned, with a count of two. -/
theorem open_uninitialised : ∃ s : State Bool,
    Reachable (start dirtyMemory) (step 1) (fun _ _ => True) s ∧
      s.phase false = .holding (some 0) ∧
      (∃ rest, s.phase true = .opening rest) ∧
      ∃ ino, s.fs.inodes 0 = some ino ∧ ino.openCnt = 2 ∧
        ino.data ≠ diskInode s.fs.device 1 := by
  have init : Reachable (start dirtyMemory : State Bool) (step 1) (fun _ _ => True) _ := .start
  have reached := init.run [.inodeOpen true, .inodeOpen false] (fun _ _ _ => True.intro) rfl
  refine ⟨_, reached, rfl, ⟨_, rfl⟩, _, rfl, rfl, fun same => ?_⟩
  have seven : (7 : Nat) = (diskInode dirtyMemory.device 1).start := congrArg InodeDisk.start same
  rw [dirtyMemory_start] at seven
  omega

end Pintos.ConcurrentOpen
