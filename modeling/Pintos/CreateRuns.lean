import Pintos.CreateRules
import Pintos.Sectors

/-! Runs of several creations of one name. As long as their accesses to the directory do
not overlap, one of them at most succeeds and the directory has one entry of the name. -/

namespace Pintos.ConcurrentCreate

open Function
open Resumption ByteStore Bitmap Disk InodeIO Inode Directory Filesys Ownership Volume Calls
  CallCreate Format Refinement Sectors Transition
open Prog (run_bind run_bind_of run_pure)
open Protocol (wp_bind wp_pure)

attribute [local irreducible] slice splice

variable {τ : Type} [DecidableEq τ] {s0 : FS} {f0 p0 : Nat} {name : CString} {sizes : τ → BitVec 32}

/-- What the result of a call says about what it has done. -/
def Outcome (_ : τ) (a : Bool × List Nat) (c : Ghost) : Prop :=
  c.owned = a.2 ∧ c.added = a.1 ∧
    (a.1 = true → ∃ x n, c.made = some (x, n) ∧ a.2 = x :: dataSectors n)

section Call

variable {g : τ → Ghost} {s : FS} {i : τ} {c : Ghost} (awake : c.Awake)

include awake

theorem wp_finish {q : Nat} (held : c.root = some q) {a : Bool × List Nat} (outcome : Outcome i a { c with root := none })
    (h : Runs s0 f0 p0 name i c g s) :
    (protocol s0 f0 p0 name sizes).wp i (fun a g s => ∃ c,
      (protocol s0 f0 p0 name sizes).lab c = none ∧
        (protocol s0 f0 p0 name sizes).inv (update g i c) s ∧ Outcome i a c)
      (dirClose (some ⟨q, 0⟩) >>= fun _ => pure a) g s := by
  rw [wp_bind]
  exact wp_dirClose awake held 0 (fun g s h => ⟨{ c with root := none }, awake.label, h, outcome⟩) h

theorem wp_undo (base : Base s0) {Q : Unit → (τ → Ghost) → FS → Prop} {x : Nat} {rest : List Nat}
    (own : c.owned = x :: rest) (unadded : c.added = false)
    (post : ∀ g s, Runs s0 f0 p0 name i { c with owned := rest, made := none } g s → Q () g s)
    (h : Runs s0 f0 p0 name i c g s) :
    (protocol s0 f0 p0 name sizes).wp i Q (createUndo false x) g s := by
  have ne : x ≠ 0 := h.owned_ne (j := i) (by simp [own]) base.map_bit
  rw [createUndo, if_pos ⟨rfl, ne⟩]
  exact wp_freeMapRelease (c := { c with made := none }) base ⟨awake.label, awake.seen⟩ own rfl
    post (Inv.forget h unadded)

end Call
variable {s : FS} {hs : List (Option Nat)} {r k : Nat} {ino : Inode} {b : Bits}

theorem wp_sysCreateAt (base : Base s0) {g : τ → Ghost} {i : τ} (own : g i = Ghost.start)
    (inv : Inv s0 f0 p0 name g s) (apart : Apart (rootStart s0) (fun j => (g j).label) i) :
    (protocol s0 f0 p0 name sizes).wp i (fun a g s => ∃ c,
      (protocol s0 f0 p0 name sizes).lab c = none ∧
        (protocol s0 f0 p0 name sizes).inv (update g i c) s ∧ Outcome i a c)
      (sysCreateAt name (sizes i)) g s := by
  have here : Runs s0 f0 p0 name i Ghost.start g s := by
    rw [Runs, ← own, update_eq_self]
    exact inv
  have begun : Runs s0 f0 p0 name i { Ghost.start with label := none } g s :=
    Inv.relabel here rfl (by simp [Ghost.start]) (by simp)
  have quiet : ∀ j, (update g i { Ghost.start with label := none } j).label ≠
      some (.read rootDirSector) := fun j => by
    by_cases same : j = i
    · subst same
      simp
    · simpa [same] using apart.1 (by simp [own, Ghost.start]) j
  rw [sysCreateAt, filesysCreateAt, wp_bind]
  refine wp_dirOpenRoot base ⟨rfl, rfl⟩ rfl quiet (fun q g s h => ?_) begun
  rw [wp_bind, createChainAt, wp_bind]
  refine wp_freeMapAllocate base ⟨rfl, rfl⟩ 1 (fun g s h => ?_) (fun x g s _ h => ?_) h
  · exact wp_finish ⟨rfl, rfl⟩ rfl ⟨rfl, rfl, by simp⟩ h
  simp only [Ghost.start, List.nil_append, List.range'_one] at h ⊢
  rw [wp_bind]
  refine wp_inodeCreateAt base ⟨rfl, rfl⟩ rfl rfl rfl (fun g s h => ?_) (fun start g s h => ?_) h
  · simp only [wp_pure]
    rw [wp_bind]
    refine wp_undo ⟨rfl, rfl⟩ base rfl rfl (fun g s h => ?_) h
    exact wp_finish ⟨rfl, rfl⟩ rfl ⟨rfl, rfl, by simp⟩ h
  simp only
  rw [wp_bind]
  refine wp_dirAdd base ⟨rfl, rfl⟩ rfl rfl 0 (fun g s h => ?_) (fun g s h => ?_) h
  · simp only [wp_pure]
    rw [wp_bind]
    refine wp_undo ⟨rfl, rfl⟩ base rfl rfl (fun g s h => ?_) h
    exact wp_finish ⟨rfl, rfl⟩ rfl ⟨rfl, rfl, by simp⟩ h
  · exact wp_finish ⟨rfl, rfl⟩ rfl ⟨rfl, rfl, fun _ => ⟨_, _, rfl, rfl⟩⟩ h

def start (s : FS) (name : CString) (sizes : τ → BitVec 32) :
    Pool τ Sleep FS (Bool × List Nat) where
  threads i := do
    Prog.sleep .call
    sysCreateAt name (sizes i)
  state := s

omit [DecidableEq τ] in
theorem inv_start (inv : Calls.Inv s0 hs f0 p0) :
    Inv s0 f0 p0 name (fun _ : τ => Ghost.start) s0 where
  mapFile := inv.mapFile_spec
  bitCnt := rfl
  size := rfl
  fresh p past := (inv.table.fresh p past).1
  marked _ used := used
  owned := ⟨by simp [Ghost.start], by simp [Ghost.start], by simp [Ghost.start]⟩
  rootInode := Agree.refl _ _
  made := by simp [Ghost.start]
  added := by simp [Ghost.start]
  seen := by simp [Ghost.start]
  root := .closed ⟨rfl, by simp, inv.table.toOpens.absent inv.root_closed, fun p mem => by
      obtain ⟨a, ha⟩ := Option.isSome_iff_exists.mp ((inv.table.mem p).mp mem)
      exact inv.table.toOpens.lt ha⟩
    (fun _ => rfl) fun _ => by simp [Ghost.start]

section Result

variable {g : τ → Ghost} {s : FS}

omit [DecidableEq τ] in
theorem Inv.rootDir_eq (h : Inv s0 f0 p0 name g s) (k : Fin rootEntries) :
    rootDir s.device k = slotEntry s.device.data (rootStart s0) k := by
  rw [rootDir, diskInode_congr h.rootInode]
  rfl

omit [DecidableEq τ] in
theorem Inv.entry (h : Inv s0 f0 p0 name g s) {i : τ} {xs : List Nat}
    (outcome : Outcome i (true, xs) (g i)) :
    ∃ k, (∀ k', (rootDir s.device k').isFor name = true ↔ k' = k) ∧
      extent s.device (rootDir s.device k).inodeSector = xs := by
  obtain ⟨-, added, made⟩ := outcome
  obtain ⟨x, n, mine, sectors⟩ := made rfl
  obtain ⟨-, k, lt, slots, m, entry⟩ := h.added i added
  rw [mine, Option.some.injEq, Prod.mk.injEq] at entry
  refine ⟨⟨k, lt⟩, fun k' => ?_, ?_⟩
  · rw [h.rootDir_eq, slots k' k'.isLt, Fin.ext_iff]
  · rw [h.rootDir_eq, ← entry.1, extent, (h.made i x n mine).2]
    exact sectors.symm

end Result

/-- Creations of one name whose accesses to the directory do not overlap: one of them at
most succeeds, the name has one entry then, which leads to the inode it made, and what the
calls keep is disjoint. -/
theorem create_once {d : Device} {junk : Nat → BitVec 32} {s : FS}
    (format : Prog.run (filesysInit true) (boot d junk) = some ((), s)) {ops : List Call}
    {rs : List Result} {c : Client} (reached : Client.calls ⟨s, []⟩ ops = some (rs, c))
    {name : CString} {sizes : τ → BitVec 32} {p : Pool τ Sleep FS (Bool × List Nat)}
    (run : Reachable (start c.fs name sizes) Pool.step
      (fun p => Apart (rootStart c.fs) fun j => (p.threads j).label) p) :
    (∀ i j xs ys, p.threads i = .ret (true, xs) → p.threads j = .ret (true, ys) → i = j) ∧
      (∀ i xs, p.threads i = .ret (true, xs) →
        ∃ k, (∀ k', (rootDir p.state.device k').isFor name = true ↔ k' = k) ∧
          extent p.state.device (rootDir p.state.device k).inodeSector = xs) ∧
      (∀ i j a b, i ≠ j → p.threads i = .ret a → p.threads j = .ret b → ∀ x ∈ a.2, x ∉ b.2) ∧
      ∀ i, p.threads i = .fail → (sizes i).toInt < 0 := by
  obtain ⟨c', obj, ran, sim⟩ := calls_matched ops (formatted_sim format)
  rw [reached, Option.some.injEq, Prod.mk.injEq] at ran
  obtain ⟨-, rfl⟩ := ran
  have holds : (protocol c.fs _ _ name sizes).Holds Outcome (start c.fs name sizes) :=
    ⟨fun _ => Ghost.start, inv_start sim.inv, fun _ => ⟨rfl, fun _ _ own now apart =>
      wp_sysCreateAt (base_of_inv sim.inv) own now apart⟩⟩
  obtain ⟨g, inv, parked⟩ := run.invariant holds fun _ _ _ holds ok taken => holds.step ok taken
  have ended : ∀ i a, p.threads i = .ret a → Outcome i a (g i) := fun i a here => by
    have known := parked i
    rw [here] at known
    exact known.2
  refine ⟨fun i j xs ys hi hj => ?_, fun i xs here => inv.entry (ended i _ here),
    fun i j a b ne hi hj x mem mem' => ?_, fun i here => ?_⟩
  · exact (inv.added j (ended j _ hj).2.1).1 i (ended i _ hi).2.1
  · refine inv.owned.apart i (Set.mem_univ i) j (Set.mem_univ j) ne x ?_ ?_
    · rwa [(ended i a hi).1]
    · rwa [(ended j b hj).1]
  · have known := parked i
    rw [here] at known
    exact known.2

theorem run_sysCreateAt {size : BitVec 32} {s' : FS} {ok : Bool}
    (h : Prog.run (sysCreate name size) s = some (ok, s')) :
    ∃ xs, Prog.run (sysCreateAt name size) s = some ((ok, xs), s') := by
  rw [← sysCreateAt_fst, run_bind, Option.bind_eq_some_iff] at h
  obtain ⟨⟨⟨ok', xs⟩, t⟩, ran, e⟩ := h
  cases e
  exact ⟨xs, ran⟩

def nameA : CString := ⟨[97], by decide⟩

theorem blank_room
    (format : Prog.run (filesysInit true) (boot blankDevice fun _ => 0) = some ((), s)) :
    Room s 512 := by
  obtain ⟨inv, names, -⟩ := filesysInit_inv format
  let first : Fin rootEntries := ⟨0, by decide⟩
  refine ⟨⟨first, Bool.eq_false_iff.mpr fun used => ?_⟩,
    (space_iff inv (by decide)).mpr (blank_space format)⟩
  have free := find_eq_none.mp
    (names ⟨stored (rootDir s.device first).name, zero_notMem_stored _⟩) first
  simp [DirEntry.isFor, used] at free

theorem apart_of_idle {p : Pool τ Sleep FS (Bool × List Nat)} {i : τ}
    (idle : ∀ j, j ≠ i → (p.threads j).label = some .call ∨ (p.threads j).label = none)
    (q : Code (Bool × List Nat)) : Apart r (fun j => (update p.threads i q j).label) i := by
  have others : ∀ j, j ≠ i → (update p.threads i q j).label = some .call ∨
      (update p.threads i q j).label = none := fun j ne => by
    rw [update_of_ne ne]
    exact idle j ne
  refine ⟨fun here j => ?_, fun _ j ne => ?_⟩
  · by_cases same : j = i
    · simp only [same, here]
      simp
    · rcases others j same with e | e <;> simp [e]
  · rcases others j ne with e | e <;> simp [Inside, e]

theorem create_once_in_turn : ∃ s p,
    Prog.run (filesysInit true) (boot blankDevice fun _ => 0) = some ((), s) ∧
      Client.calls ⟨s, []⟩ [] = some ([], ⟨s, []⟩) ∧
      Reachable (start s nameA fun _ : Bool => 512#32) Pool.step
        (fun p => Apart (rootStart s) fun j => (p.threads j).label) p ∧
      (∃ xs, p.threads true = .ret (true, xs)) ∧ (∃ ys, p.threads false = .ret (false, ys)) ∧
      (∀ i j xs ys, p.threads i = .ret (true, xs) → p.threads j = .ret (true, ys) → i = j) ∧
      (∀ i xs, p.threads i = .ret (true, xs) →
        ∃ k, (∀ k', (rootDir p.state.device k').isFor nameA = true ↔ k' = k) ∧
          extent p.state.device (rootDir p.state.device k).inodeSector = xs) ∧
      (∀ i j a b, i ≠ j → p.threads i = .ret a → p.threads j = .ret b → ∀ x ∈ a.2, x ∉ b.2) ∧
      ∀ i, p.threads i = .fail → ((fun _ : Bool => 512#32) i).toInt < 0 := by
  obtain ⟨s, format⟩ := blankDevice_formats
  obtain ⟨inv, names, -⟩ := filesysInit_inv format
  obtain ⟨ok, s1, run1, inv1, -, iff1, -, made⟩ := create_spec inv nameA (show 512 < 2 ^ 31 by decide)
  obtain rfl : ok = true := iff1.mpr ⟨by decide, names _, blank_room format⟩
  obtain ⟨ok, s2, run2, -, -, iff2, -⟩ := create_spec inv1 nameA (show 512 < 2 ^ 31 by decide)
  obtain ⟨i, -, -, found⟩ := made rfl
  obtain rfl : ok = false := Bool.eq_false_iff.mpr fun e => by
    have absent := (iff2.mp e).2.1
    simp [found] at absent
  have call1 : Prog.run (sysCreate nameA 512#32) s = some (true, s1) := run1
  have call2 : Prog.run (sysCreate nameA 512#32) s1 = some (false, s2) := run2
  obtain ⟨xs, call1⟩ := run_sysCreateAt call1
  obtain ⟨ys, call2⟩ := run_sysCreateAt call2
  let init : Pool Bool Sleep FS (Bool × List Nat) := start s nameA fun _ => 512#32
  let half : Pool Bool Sleep FS (Bool × List Nat) := init.settle true (.ret (true, xs)) s1
  have first : Reachable init Pool.step
      (fun p => Apart (rootStart s) fun j => (p.threads j).label) half :=
    Pool.reachable_wake (fun q _ => apart_of_idle (fun _ _ => .inl rfl) q) .start rfl
      (.of_run call1)
  have second : Reachable init Pool.step
      (fun p => Apart (rootStart s) fun j => (p.threads j).label)
      (half.settle false (.ret (false, ys)) s2) := by
    refine Pool.reachable_wake (fun q _ => apart_of_idle (fun j ne => .inr ?_) q) first rfl
      (.of_run call2)
    rw [Bool.eq_true_of_not_eq_false ne]
    rfl
  have reached : Client.calls ⟨s, []⟩ [] = some ([], ⟨s, []⟩) := rfl
  exact ⟨s, _, format, reached, second, ⟨xs, rfl⟩, ⟨ys, rfl⟩, create_once format reached second⟩

theorem inodeWriteAt_asleep {p L o c : Nat} (h : Loaded s p ino L)
    (allowed : ino.denyWriteCnt = 0) (bs : List UInt8) (pos : 0 < c) (fits : o + c ≤ L)
    (within : o % 512 + c < 512) :
    ∃ rest : Code Int,
      Prog.Leads (inodeWriteAt p (fun _ => bs) c o) s
        (.pause (.write (ino.data.start + o / 512)) rest) s ∧
      ∀ s', ∃ d, Prog.run rest s' = some ((c : Int), { s' with device := d }) := by
  obtain ⟨m, rfl⟩ := Nat.exists_eq_succ_of_ne_zero (Nat.ne_of_gt pos)
  obtain ⟨sector, room⟩ := h.byteToSector (show o < L by omega)
  have mod : (o : Int).tmod sectorSize = ((o % 512 : Nat) : Int) := rfl
  have chunk : chunkSize ino ((m + 1 : Nat) : Int) o = ((m + 1 : Nat) : Int) := by
    simp only [chunkSize, h.length, mod]
    simp only [sectorSize]
    split_ifs <;> omega
  have part : decide (0 < ((o % 512 : Nat) : Int) ∨
      ((m + 1 : Nat) : Int) < sectorSize - ((o % 512 : Nat) : Int)) = true := by
    apply decide_eq_true
    simp only [sectorSize]
    omega
  let new : List UInt8 := overlay
    (slice s.device.data (sectorSize * (ino.data.start + o / 512)) sectorSize) (o % 512)
    (bs.take (m + 1))
  refine ⟨do
    Prog.modify fun s => { s with
      device := s.device.write (sectorSize * (ino.data.start + o / 512)) (new.take sectorSize) }
    Prog.sleep (.written (ino.data.start + o / 512))
    writeLoop p (fun _ => bs) m (((m + 1 : Nat) : Int) - ((m + 1 : Nat) : Int))
      (o + ((m + 1 : Nat) : Int)) (0 + ((m + 1 : Nat) : Int)) true, ?_, fun s' => ?_⟩
  · refine (Prog.Leads.run_bind (run_getInode h.inode) _).trans ?_
    simp only [allowed, ne_eq, not_true_eq_false, if_false, Int.toNat_natCast]
    rw [writeLoop, if_neg (by omega)]
    refine (Prog.Leads.run_bind (run_getInode h.inode) _).trans ?_
    simp only [chunk, sector, mod]
    rw [if_neg (by omega), if_neg (by simp only [sectorSize]; omega)]
    refine (Prog.Leads.run_bind (run_malloc h.mallocs) _).trans ?_
    rw [if_pos rfl, part]
    refine (Prog.Leads.run_bind (run_blockRead room) _).trans ?_
    refine .get ?_
    simp only [Int.toNat_natCast, Int.toNat_zero, List.drop_zero]
    change Prog.Leads (Prog.get _) s _ s
    refine .get ?_
    change Prog.Leads ((Prog.assert (ino.data.start + o / 512 < s.device.size) >>= _) >>= _) s _ s
    rw [Prog.assert, if_pos room]
    exact .refl _ _
  · refine ⟨s'.device.write (sectorSize * (ino.data.start + o / 512)) (new.take sectorSize), ?_⟩
    rw [run_bind_of (Prog.run_modify _ _), run_bind_of (Prog.run_sleep _ _)]
    cases m with
    | zero => rfl
    | succ m =>
      rw [writeLoop, if_pos (by omega), Int.zero_add]
      rfl

/-- A call that has found a slot sleeps before it writes its entry, and will not look
again. -/
theorem dirAdd_asleep (dir : Dir) (name : CString) (x : Nat)
    (loaded : Loaded s dir.inode ino (entrySize * rootEntries)) (allowed : ino.denyWriteCnt = 0)
    (slot : addSlot s.device.data ino.data.start rootEntries name = some k) :
    ∃ l, ∃ rest : Code Bool, Prog.Leads (dirAdd dir name x) s (.pause l rest) s ∧
      ∀ s', ∃ d, Prog.run rest s' = some (true, { s' with device := d }) := by
  unfold addSlot at slot
  split_ifs at slot with bad there
  have small : rootEntries < entryFuel := by decide
  have lt : entrySize * k + entrySize ≤ 320 := by
    have bound := (freeSlot_eq_some slot).1
    simp only [entrySize, rootEntries] at bound ⊢
    omega
  obtain ⟨e', full, search⟩ := run_slotLoop dir loaded small (List.replicate entrySize 0) (by simp)
  rw [slot] at search
  obtain ⟨rest, sleeps, wakes⟩ := inodeWriteAt_asleep (c := entrySize) (o := entrySize * k) loaded
    allowed (encodeEntry (addedEntry (slotEntry s.device.data ino.data.start k) name x)) (by decide)
    lt (by rw [Nat.mod_eq_of_lt] <;> omega)
  refine ⟨.write (ino.data.start + entrySize * k / 512),
    rest >>= fun n => pure (decide (n = entrySize)), ?_, fun s' => ?_⟩
  · rw [dirAdd, if_neg bad]
    refine (Prog.Leads.run_bind (run_lookup dir loaded small name) _).trans ?_
    rw [Option.not_isSome_iff_eq_none.mp there]
    simp only [Option.map_none]
    refine (Prog.Leads.run_bind search _).trans ?_
    exact sleeps.bind _
  · obtain ⟨d, ran⟩ := wakes s'
    exact ⟨d, by rw [run_bind_of ran]; rfl⟩

theorem run_dirClose {q : Nat} (h : s.inodes q = some ino) (stays : ino.removed = false)
    (ofs : Int) : ∃ s', Prog.run (dirClose (some ⟨q, ofs⟩)) s = some ((), s') := by
  by_cases last : ino.openCnt - 1 = 0
  · exact ⟨_, run_inodeClose_drop h last stays⟩
  · exact ⟨_, run_inodeClose_keep h last⟩

theorem run_inodeCreateAt {x : Nat} {size : Int} {s' : FS}
    (h : Prog.run (inodeCreate x size) s = some (true, s')) :
    ∃ start, Prog.run (inodeCreateAt x size) s = some (some start, s') := by
  rw [← inodeCreateAt_isSome, run_bind, Option.bind_eq_some_iff] at h
  obtain ⟨⟨r, t⟩, ran, e⟩ := h
  cases r with
  | none => cases e
  | some start =>
    cases e
    exact ⟨start, ran⟩

/-- A call begun in a quiet file system, up to its sleep in `dir_add`. -/
theorem sysCreateAt_asleep {t : FS} {i : Nat} (inv : Calls.Inv s hs f0 p0)
    (h : Allocated s 0 i r b)
    (alloc : Prog.run (freeMapAllocate 1) (FS.pushInode s (rootInode s.device)) = some (some i, t))
    (make : Prog.run (inodeCreate i (0 : Nat)) t = some
      (true, FS.pushInode (created s 0 i r b) (rootInode s.device)))
    (slot : nameSlot s name = some k) :
    ∃ l, ∃ rest : Code (Bool × List Nat),
      Prog.Leads (sysCreateAt name 0#32) s (.pause l rest)
        (FS.pushInode (created s 0 i r b) (rootInode s.device)) ∧
      ∀ s' ino, s'.inodes s.next = some ino → ino.removed = false →
        ∃ xs t, Prog.run rest s' = some ((true, xs), t) := by
  obtain ⟨start, make⟩ := run_inodeCreateAt make
  have loaded : Loaded (FS.pushInode (created s 0 i r b) (rootInode s.device)) s.next
      (rootInode s.device) (entrySize * rootEntries) := Allocated.loaded inv b
  obtain ⟨l, rest, sleeps, wakes⟩ := dirAdd_asleep ⟨s.next, 0⟩ name (k := k) i loaded rfl (by
    change addSlot (created s 0 i r b).device.data (diskInode s.device rootDirSector).start
      rootEntries name = some k
    rw [h.addSlot_eq inv, slot])
  refine ⟨l, do
    let c ← rest >>= fun added => pure (added, i, List.range' start (bytesToSectors (0#32).toInt))
    createUndo c.1 c.2.1
    dirClose (some ⟨s.next, 0⟩)
    pure (c.1, if c.1 then c.2.1 :: c.2.2 else c.2.2), ?_, fun s' ino inode stays => ?_⟩
  · rw [sysCreateAt, filesysCreateAt]
    refine (Prog.Leads.run_bind inv.run_dirOpenRoot _).trans ?_
    rw [createChainAt]
    refine ((Prog.Leads.run_bind alloc _).bind _).trans ?_
    simp only
    refine ((Prog.Leads.run_bind make _).bind _).trans ?_
    simp only
    exact (sleeps.bind _).bind _
  · obtain ⟨d, ran⟩ := wakes s'
    obtain ⟨t, closed⟩ := run_dirClose (s := { s' with device := d }) inode stays 0
    refine ⟨i :: List.range' start (bytesToSectors (0#32).toInt), t, ?_⟩
    rw [run_bind_of (by rw [run_bind_of ran, run_pure]), createUndo, if_neg (by simp),
      run_bind_of (run_pure _ _), run_bind_of closed]
    rfl

theorem created_inv {size i : Nat} (inv : Calls.Inv s hs f0 p0) (h : Allocated s size i r b) :
    Calls.Inv (created s size i r b) hs f0 p0 := by
  have sound := h.sound inv
  refine inv.withMap (Nat.le_refl _) (h.onlyData inv) (sound.rebuild rfl rfl inv.volume.map_live
    inv.volume.root_live (fun j hj => .inr hj) (fun j _ => Agree.refl _ j) ?_ sound.synced)
  exact sound.owned.remove (i := i) (.inl rfl)
    (fun j hj => ⟨.inr hj, fun e => h.new inv (e ▸ hj)⟩) fun x _ used => used

/-- A whole call while another one, which has just made its inode, holds the directory open. -/
theorem run_sysCreate_between {i : Nat} (inv : Calls.Inv s hs f0 p0) (h : Allocated s 0 i r b)
    (slot : nameSlot s name = some k) (free : ∃ x, b.Run x 1 false) :
    ∃ s' ino, Prog.run (sysCreate name 0#32)
        (FS.pushInode (created s 0 i r b) (rootInode s.device)) = some (true, s') ∧
      s'.inodes s.next = some ino ∧ ino.removed = false := by
  let S := FS.pushInode (created s 0 i r b) (rootInode s.device)
  let S1 := FS.setInode S s.next (some { rootInode s.device with openCnt := 2 })
  have inv' := created_inv inv h
  have root : diskInode (created s 0 i r b).device rootDirSector = diskInode s.device rootDirSector :=
    (h.onlyData inv).diskInode inv.volume.root_live
  have start : mapStart (created s 0 i r b) = mapStart s := by
    rw [mapStart, (h.onlyData inv).diskInode inv.volume.map_live, mapStart]
  have ne : s.next ≠ p0 := by
    rintro rfl
    simpa [inv.mapOpen] using inv.fresh
  have inode : S.inodes s.next = some (rootInode s.device) := (Allocated.loaded inv b).inode
  have map1 : MapFile S1 f0 p0 (mapStart s) := MapFile.set (h.mapFile inv) ne _
  have opened : Prog.run (inodeOpen rootDirSector) S = some (some s.next, S1) := by
    refine run_inodeOpen_open ?_ inode
    simp [S, FS.pushInode, isAt, rootInode, created]
  rcases run_freeMapAllocate map1 1 with ⟨x, b1, run1, first, fill1, alloc1⟩ | ⟨full, -⟩
  swap
  · exact absurd free.choose_spec (full _)
  have map2 := map1.storeMap fill1.bitCnt
  rcases run_freeMapAllocate map2 (bytesToSectors (0 : Nat)) with
    ⟨r', b2, run2, -, fill2, alloc2⟩ | ⟨full, -⟩
  swap
  · exact absurd ⟨Nat.zero_le _, fun j _ hi => absurd hi (Nat.not_lt_zero _)⟩ (full 0)
  have h' : Allocated (created s 0 i r b) 0 x r' b2 :=
    allocated_of_runs inv' (by decide) run1 first fill1 run2 fill2
  rw [storeMap_storeMap _ _ (show b2.bitCnt = b1.bitCnt from fill2.bitCnt)] at alloc2
  have make : Prog.run (inodeCreate x (0 : Nat)) (FS.storeMap S1 (mapStart s) b1) = _ :=
    run_inodeCreate_of_some (Int.natCast_nonneg 0) map2.mallocs alloc2 h'.unused.sector
      h'.unused.room
  let S2 := { FS.storeMap S1 (mapStart s) b2 with
    device := Device.create (FS.storeMap S1 (mapStart s) b2).device x r' (0 : Nat) }
  have loaded : Loaded S2 s.next { rootInode s.device with openCnt := 2 }
      (entrySize * rootEntries) :=
    ⟨update_self .., inv.root_loaded.length, inv.root_loaded.inside, inv.mallocs⟩
  obtain ⟨d, add⟩ : ∃ d, Prog.run (dirAdd ⟨s.next, 0⟩ name x) S2 =
      some (true, { S2 with device := d }) := by
    refine ⟨_, run_dirAdd_some ⟨s.next, 0⟩ loaded (by decide) rfl name (k := k) x ?_⟩
    have same := h'.addSlot_eq inv' name
    rw [root, created, start] at same
    refine same.trans ?_
    rw [nameSlot, root, h.addSlot_eq inv, slot]
  have dir : Prog.run dirOpenRoot S = some (some ⟨s.next, 0⟩, S1) := by
    rw [dirOpenRoot, run_bind_of opened, dirOpen, run_bind_of (run_malloc map1.mallocs)]
    rfl
  have chain : Prog.run (createChain (some ⟨s.next, 0⟩) name (0#32).toInt) S1 =
      some ((true, x), { S2 with device := d }) := by
    rw [show (0#32).toInt = (0 : Nat) from rfl, createChain, run_bind_of alloc1]
    simp only
    rw [run_bind_of make, if_pos rfl, run_bind_of add]
    rfl
  have closed := run_inodeClose_keep (s := { S2 with device := d }) loaded.inode (by simp)
  refine ⟨FS.setInode { S2 with device := d } s.next (some { rootInode s.device with openCnt := 1 }),
    _, ?_, update_self .., rfl⟩
  rw [sysCreate, filesysCreate, run_bind_of dir, run_bind_of chain]
  exact run_bind_of closed _

/-- Two calls of one name both succeed: the second one runs while the first one is about
to write its entry. -/
theorem both_create : ∃ s p,
    Prog.run (filesysInit true) (boot blankDevice fun _ => 0) = some ((), s) ∧
      Reachable (start s nameA fun _ : Bool => 0#32) Pool.step (fun _ _ => True) p ∧
      ∀ i, ∃ xs, p.threads i = .ret (true, xs) := by
  obtain ⟨s, format⟩ := blankDevice_formats
  obtain ⟨inv, names, -⟩ := filesysInit_inv format
  have more := blank_space format
  rcases create_cases inv (show 0 < 2 ^ 31 by decide) with full | ⟨i, r, b, t, h, alloc, make⟩
  · rcases full with full | ⟨_, _, -, -, -, full⟩
    · exact absurd (.inl full) more
    · exact absurd ⟨Nat.zero_le _, fun j _ hi => absurd hi (Nat.not_lt_zero _)⟩ (full 0)
  have free : ∃ x, b.Run x 1 false := by
    by_contra full
    refine more (.inr ⟨i, b, h.sector, h.first, ⟨h.bitCnt, fun j => ?_⟩, not_exists.mp full⟩)
    have bits := h.bit j
    have none : bytesToSectors (0 : Nat) = 0 := by decide
    rw [none] at bits
    split_ifs with here
    · exact bits.mpr (.inl (by omega))
    · rw [Bool.eq_iff_iff, bits, or_iff_right (by omega), or_iff_right (by omega)]
  obtain ⟨k, slot, -⟩ | ⟨-, refused⟩ := nameSlot_cases s nameA
  swap
  · exact absurd ⟨by decide, names _, (blank_room format).1⟩ refused
  obtain ⟨l, rest, sleeps, wakes⟩ := sysCreateAt_asleep inv h alloc make slot
  obtain ⟨s1, ino, call, inode, stays⟩ := run_sysCreate_between inv h slot free
  obtain ⟨xs, call⟩ := run_sysCreateAt call
  obtain ⟨ys, s2, woken⟩ := wakes s1 ino inode stays
  have init : Reachable (start s nameA fun _ : Bool => 0#32) Pool.step (fun _ _ => True) _ := .start
  have first := Pool.reachable_wake (i := true) (fun _ _ => trivial) init rfl sleeps
  have second := Pool.reachable_wake (i := false) (fun _ _ => trivial) first rfl (.of_run call)
  have third := Pool.reachable_wake (i := true) (fun _ _ => trivial) second rfl (.of_run woken)
  refine ⟨s, _, format, third, fun i => ?_⟩
  cases i
  · exact ⟨xs, rfl⟩
  · exact ⟨ys, rfl⟩

end Pintos.ConcurrentCreate
