import Pintos.Transfers

/-! What `sys_read` and `sys_write` move between a file and user memory. The buffer from
`malloc` and the frames of the process lie apart, since the kernel has its own pool of pages;
so neither the heap nor the buffer disturbs what the user sees. -/

namespace Pintos.ReadWrite
open Resumption ByteStore Stoppable Transition Vaddr Palloc Pagedir PageFault Demand UserMemory
open Accounts Disk InodeIO Inode Filesys Calls Descriptors Transfers Bitmap
open CallFiles (run_fileRead run_fileWrite)
open Heap (Desc Arenas Malloc)
open HeapLayout HeapCalls HeapBook HeapRuns HeapSizes
open Exec (run_bind_ok run_state run_zoom)

/-- Each page of a process has a frame of its own in the user pool. -/
structure Frames (m : Mem) (pd : Directory) : Prop where
  has : ∀ va x, pd.pte va = some x → (m.pool true).Has x.kpage
  once : ∀ va va' x x', pd.pte va = some x → pd.pte va' = some x' → x.kpage = x'.kpage →
    va.toNat / 4096 = va'.toNat / 4096

variable {m m' : Mem} {pd : Directory} {base : Set Page} {va va' : BitVec 32} {x x' : Pte}

theorem frames_of_balanced (h : Balanced m pd base) : Frames m pd where
  has va x pte := Pool.Used.has (h.frame_used pte)
  once va va' x x' pte pte' same := by
    have owner := h.once _ _ _ (holds_frame pte) (same ▸ holds_frame pte')
    obtain ⟨table, entry⟩ := Owner.frame.inj owner
    rw [pdNo_toNat, pdNo_toNat] at table
    rw [ptNo_toNat, ptNo_toNat] at entry
    omega

theorem Frames.congr (h : Frames m pd) (same : m'.pool true = m.pool true) : Frames m' pd where
  has va x pte := by
    rw [same]
    exact h.has va x pte
  once := h.once

theorem Frames.low (h : Frames m pd) (pte : pd.pte va = some x) :
    (m.pool true).base ≤ frameAddr x va := by
  obtain ⟨i, -, page⟩ := h.has va x pte
  rw [frameAddr, page]
  omega

theorem Frames.apart (h : Frames m pd) (pte : pd.pte va = some x) (pte' : pd.pte va' = some x')
    (ne : va ≠ va') : frameAddr x va ≠ frameAddr x' va' := by
  intro same
  have aligned := (h.has va x pte).aligned
  have aligned' := (h.has va' x' pte').aligned
  simp only [frameAddr, pgOfs_toNat, pgsize, pgbits] at same aligned aligned'
  have page := h.once va va' x x' pte pte' (by omega)
  exact ne (BitVec.eq_of_toNat_eq (by omega))

section Memory

variable {t t' : Machine} (dir : t.pagedir = some pd) (same : t'.pagedir = t.pagedir)
include dir same

theorem userByte_congr (ram : ∀ x, pd.pte va = some x → t'.ram (frameAddr x va) =
    t.ram (frameAddr x va)) : t'.userByte va = t.userByte va := by
  cases pte : pd.pte va with
  | none => rw [userByte_absent dir pte, userByte_absent (same.trans dir) pte]
  | some x => rw [userByte_mapped dir pte, userByte_mapped (same.trans dir) pte, ram x pte]

theorem userByte_below (frames : Frames t.toMem pd)
    (ram : ∀ a, (t.pool true).base ≤ a → t'.ram a = t.ram a) (va : BitVec 32) :
    t'.userByte va = t.userByte va :=
  userByte_congr dir same fun _ pte => ram _ (frames.low pte)

end Memory

/-- The byte of memory at `a` is not one of the `n` bytes of a user buffer from index `i` on. -/
def Off (pd : Directory) (buffer : BitVec 32) (i n a : Nat) : Prop :=
  ∀ j, i ≤ j → j < i + n → ∀ x, pd.pte (buffer + BitVec.ofNat 32 j) = some x →
    a ≠ frameAddr x (buffer + BitVec.ofNat 32 j)

theorem Frames.off_kernel (h : Frames m pd) {a : Nat} (lt : a < (m.pool true).base)
    (buffer : BitVec 32) (i n : Nat) : Off pd buffer i n a := by
  intro j _ _ x pte
  have low := h.low pte
  omega

variable {α : Type} {buffer : BitVec 32} {i n : Nat} {t : Machine}

theorem Frames.off_other (h : Frames m pd) (pte : pd.pte va = some x)
    (ne : ∀ j, i ≤ j → j < i + n → va ≠ buffer + BitVec.ofNat 32 j) :
    Off pd buffer i n (frameAddr x va) := fun j low high _ pte' =>
  h.apart pte pte' (ne j low high)

theorem byte_ne_error (c : UInt8) : c.toBitVec.setWidth 32 ≠ (-1 : BitVec 32) := by
  intro error
  have value := congrArg BitVec.toNat error
  have small := c.toBitVec.isLt
  rw [BitVec.toNat_setWidth, show (-1 : BitVec 32).toNat = 2 ^ 32 - 1 from rfl] at value
  omega

/-- The bytes from index `i` on, `n` of them, of a user buffer are on pages that can be written
to. -/
def Mapped (pd : Directory) (buffer : BitVec 32) (i n : Nat) : Prop :=
  ∀ j, i ≤ j → j < i + n → isUserVaddr (buffer + BitVec.ofNat 32 j) = true ∧
    ∃ x, pd.pte (buffer + BitVec.ofNat 32 j) = some x ∧ x.writable = true

theorem Mapped.rest (h : Mapped pd buffer i (n + 1)) :
    Mapped pd buffer (i + 1) n := fun j low high => h j (by omega) (by omega)

theorem Mapped.mono {n' : Nat} (h : Mapped pd buffer i n) (le : n' ≤ n) :
    Mapped pd buffer i n' := fun j low high => h j low (by omega)

def OnlyRam (t t' : Machine) : Prop := t'.toSpace = { t.toSpace with ram := t'.ram }

section Copies

variable {t t' : Machine} {buffer : BitVec 32} {kernBuf i n : Nat}

theorem OnlyRam.pagedir (h : OnlyRam t t') : t'.pagedir = t.pagedir :=
  (congrArg Space.pagedir h).trans rfl

theorem OnlyRam.pool (h : OnlyRam t t') : t'.toMem.pool true = t.toMem.pool true :=
  (congrArg (fun s : Space => s.toMem.pool true) h).trans rfl

theorem OnlyRam.arenas (h : OnlyRam t t') (descs : List Desc) :
    (⟨t'.toMem, descs⟩ : Arenas) = Arenas.withRam ⟨t.toMem, descs⟩ t'.ram :=
  congrArg (fun s : Space => (⟨s.toMem, descs⟩ : Arenas)) h

/-- The bytes from index `i` on, `n` of them, went from the kernel's buffer to the user's, and
nothing else happened. -/
structure Delivered (pd : Directory) (t t' : Machine) (buffer : BitVec 32) (kernBuf i n : Nat) :
    Prop where
  space : OnlyRam t t'
  there : ∀ j, i ≤ j → j < i + n → t'.userByte (buffer + BitVec.ofNat 32 j) = t.ram (kernBuf + j)
  other : ∀ a, Off pd buffer i n a → t'.ram a = t.ram a

theorem copyOut_spec (dir : t.pagedir = some pd) (frames : Frames t.toMem pd)
    (mapped : Mapped pd buffer i n) (room : kernBuf + (i + n) ≤ (t.pool true).base)
    (short : i + n ≤ 2 ^ 32) : ∃ t', (copyOut buffer kernBuf n i).run t = (.ok true, t') ∧
    Delivered pd t t' buffer kernBuf i n := by
  induction n generalizing i t with
  | zero => exact ⟨t, rfl, rfl, fun j low high => absurd high (by omega), fun _ _ => rfl⟩
  | succ n ih =>
    obtain ⟨user, x, pte, writable⟩ := mapped i (Nat.le_refl i) (by omega)
    let va := buffer + BitVec.ofNat 32 i
    let byte := t.ram (kernBuf + i)
    let t1 : Machine := { t.log .putUser va with toMem := t.toMem.store (frameAddr x va) [byte] }
    have put : (putUser va byte).run t = (.ok true, t1) := by
      have hit : (t.log .putUser va).translate va (some byte).isSome false =
          .ok (frameAddr x va) := translate_mapped user dir pte fun _ => writable
      rw [run_putUser, run_bind_ok (attempt_tries_hit hit _ _), Exec.run_pure,
        decide_eq_true t.putUserSite.next_ne]
      rfl
    have here : t1.ram (frameAddr x va) = byte :=
      (splice_of_mem _ _ (Nat.le_refl _) (by simp)).trans (by rw [Nat.sub_self]; rfl)
    have elsewhere : ∀ a, a ≠ frameAddr x va → t1.ram a = t.ram a := fun a ne =>
      splice_off _ _ (Nat.lt_or_gt_of_ne ne)
    obtain ⟨t', run, space, there, other⟩ := ih (t := t1) (i := i + 1) dir
      (frames.congr rfl) mapped.rest (by
        change kernBuf + (i + 1 + n) ≤ (t.pool true).base
        omega) (by omega)
    have pagedir : t'.pagedir = some pd := space.pagedir.trans dir
    refine ⟨t', ?_, ?_, ?_, ?_⟩
    · rw [copyOut, run_bind_ok (run_state t), run_bind_ok put]
      exact run
    · exact space.trans rfl
    · intro j first last
      by_cases same : j = i
      · -- the later rounds write to other bytes
        subst same
        rw [userByte_mapped pagedir pte, other _ (frames.off_other pte fun j' first' last' e => ?_)]
        · exact here
        have value := congrArg BitVec.toNat ((BitVec.add_right_inj buffer).mp e)
        rw [BitVec.toNat_ofNat, BitVec.toNat_ofNat] at value
        omega
      · rw [there j (by omega) (by omega)]
        exact elsewhere _ (frames.off_kernel (by omega) buffer i (n + 1) i (Nat.le_refl i)
          (by omega) x pte)
    · intro a off
      rw [other a fun j first last => off j (by omega) (by omega)]
      exact elsewhere a (off i (Nat.le_refl i) (by omega) x pte)

/-- The bytes from index `i` on, `n` of them, went from the user's buffer to the kernel's, and
nothing else happened. -/
structure Fetched (t t' : Machine) (buffer : BitVec 32) (kernBuf i n : Nat) : Prop where
  space : OnlyRam t t'
  there : ∀ j, i ≤ j → j < i + n → t'.ram (kernBuf + j) = t.userByte (buffer + BitVec.ofNat 32 j)
  other : ∀ a, a < kernBuf + i ∨ kernBuf + (i + n) ≤ a → t'.ram a = t.ram a

theorem copyIn_spec (dir : t.pagedir = some pd) (frames : Frames t.toMem pd)
    (mapped : Mapped pd buffer i n) (room : kernBuf + (i + n) ≤ (t.pool true).base) :
    ∃ t', (copyIn buffer kernBuf n i).run t = (.ok true, t') ∧ Fetched t t' buffer kernBuf i n := by
  induction n generalizing i t with
  | zero => exact ⟨t, rfl, rfl, fun j low high => absurd high (by omega), fun _ _ => rfl⟩
  | succ n ih =>
    obtain ⟨user, x, pte, -⟩ := mapped i (Nat.le_refl i) (by omega)
    let va := buffer + BitVec.ofNat 32 i
    let byte := t.userByte va
    let t1 : Machine :=
      { t.log .getUser va with toMem := t.toMem.store (kernBuf + i) [byte] }
    have get : (getUser va).run t = (.ok (byte.toBitVec.setWidth 32), t.log .getUser va) := by
      have hit : (t.log .getUser va).translate va (none : Option UInt8).isSome false =
          .ok (frameAddr x va) := translate_mapped user dir pte (by simp)
      have value : byte = t.ram (frameAddr x va) := userByte_mapped dir pte
      rw [run_getUser, attempt_tries_hit hit, value]
      rfl
    have stored : (storeBytes (kernBuf + i) [byteOf (byte.toBitVec.setWidth 32)]).run
        (t.log .getUser va) = (.ok (), t1) := by
      rw [byteOf, BitVec.setWidth_setWidth_of_le _ (by decide), BitVec.setWidth_eq]
      rfl
    have high : ∀ a, (t.pool true).base ≤ a → t1.ram a = t.ram a := fun a le =>
      splice_off _ _ (by simp only [List.length_singleton]; omega)
    have seen : ∀ va', t1.userByte va' = t.userByte va' := userByte_below dir rfl frames high
    obtain ⟨t', run, space, there, other⟩ := ih (t := t1) (i := i + 1) dir
      (frames.congr rfl) mapped.rest (by
        change kernBuf + (i + 1 + n) ≤ (t.pool true).base
        omega)
    refine ⟨t', ?_, ?_, ?_, ?_⟩
    · rw [copyIn, run_bind_ok get, if_neg (byte_ne_error byte), run_bind_ok stored]
      exact run
    · exact space.trans rfl
    · intro j first last
      by_cases here : j = i
      · subst here
        rw [other _ (.inl (by omega))]
        exact (splice_of_mem _ _ (Nat.le_refl _) (by simp)).trans (by rw [Nat.sub_self]; rfl)
      · rw [there j (by omega) (by omega), seen]
    · intro a off
      rw [other a (by omega)]
      exact splice_off _ _ (by simp only [List.length_singleton]; omega)

end Copies

section Pages

variable {r c n : Nat} (spare : (m.pool false).usedMap.Run r c false)
include spare

theorem spare_free (low : r ≤ i) (high : i < r + c) :
    (m.pool false).Has ((m.pool false).base + pgsize * i) ∧
      ¬(m.pool false).Used ((m.pool false).base + pgsize * i) := by
  have room := spare.1
  rw [(m.pool false).size] at room
  refine ⟨⟨i, by omega, rfl⟩, fun used => ?_⟩
  have bit := (used_index.mp used).2
  rw [spare.2 i low high] at bit
  cases bit

theorem not_full (le : n ≤ c) : ¬Full m n := by
  intro full
  have free : ∀ q, Span ((m.pool false).base + pgsize * r) n q →
      (m.pool false).Has q ∧ ¬(m.pool false).Used q := by
    rintro q ⟨i, lt, rfl⟩
    rw [Nat.add_assoc, ← Nat.mul_add]
    exact spare_free spare (Nat.le_add_right r i) (by omega)
  obtain ⟨q, span, used⟩ := full _ fun q span => (free q span).1
  exact (free q span).2 used

theorem page_left (beyond : Beyond m m') {a : Nat}
    (within : usedPages m' ⊆ usedPages m ∪ arenaPages a n) (less : n < c) : ¬Full m' 1 := by
  intro full
  have taken : ∀ i, r ≤ i → i < r + c → Span a n ((m.pool false).base + pgsize * i) := by
    intro i low high
    obtain ⟨has, free⟩ := spare_free spare low high
    have has' : (m'.pool false).Has ((m.pool false).base + pgsize * i) := by
      obtain ⟨j, lt, place⟩ := has
      exact ⟨j, by rw [beyond.pages]; exact lt, by rw [beyond.base]; exact place⟩
    obtain ⟨q, span, used⟩ := full _ fun q span => span_one.mp span ▸ has'
    rw [span_one.mp span] at used
    rcases within (show (false, _) ∈ usedPages m' from used) with old | new
    · exact absurd old free
    · exact new.2
  obtain ⟨i, lti, first⟩ := taken r (Nat.le_refl r) (by omega)
  obtain ⟨j, ltj, last⟩ := taken (r + c - 1) (by omega) (by omega)
  simp only [pgsize, pgbits] at first last
  omega

theorem spare_small (enough : n + 2 * pgsize ≤ pgsize * c) :
    n < 2 ^ 31 ∧ (n + 4107) / 4096 < c := by
  have most := pool_pages m
  have room := spare.1
  rw [(m.pool false).size] at room
  simp only [pgsize, pgbits] at enough
  omega

end Pages

section Heap

variable {descs b n : Nat} {s : Arenas} {ram : Nat → UInt8}

/-- The heap has handed out `n` bytes at `b`, and there is a page left. -/
structure Lent (descs : Nat) (s : Arenas) (b n : Nat) : Prop where
  book : ∃ live kind cnt free g, Book descs s live kind cnt free ∧ live b = some g ∧ g.size = n
  left : ¬Full s.toMem 1

theorem Lent.object (h : Lent descs s b n) : ∃ live kind cnt free g, ∃ o : Obj,
    Book descs s live kind cnt free ∧ live b = some g ∧ g.size = n ∧ o.In descs kind ∧
      o.low = b ∧ b + n ≤ o.high := by
  obtain ⟨live, kind, cnt, free, g, book, given, rfl⟩ := h.book
  obtain ⟨o, inside, rfl, hosts⟩ := book.owner b g given
  have size := size_le hosts
  have extent := Shape.nonempty book.held.shape inside
  exact ⟨live, kind, cnt, free, g, o, book, given, rfl, inside, rfl, by omega⟩

theorem Lent.fits (h : Lent descs s b n) : b + n ≤ (s.pool true).base := by
  obtain ⟨_, _, _, _, _, o, ledger, -, -, inside, -, room⟩ := h.object
  exact room.trans (Shape.high_le ledger.held.shape inside)

theorem Lent.write (h : Lent descs s b n) (same : ∀ x, x < b ∨ b + n ≤ x → ram x = s.ram x) :
    Lent descs (s.withRam ram) b n := by
  obtain ⟨live, kind, cnt, free, g, o, book, given, size, inside, rfl, room⟩ := h.object
  have used : live o.low ≠ none := by simp [given]
  obtain ⟨book', -⟩ := write_spec book inside used fun x off => same x (by omega)
  exact ⟨⟨live, kind, cnt, free, g, book', given, size⟩, fun full => h.left full⟩

theorem Lent.user (h : Lent descs s b n) (same : ∀ x, x < (s.pool true).base → ram x = s.ram x) :
    Lent descs (s.withRam ram) b n := by
  obtain ⟨live, kind, cnt, free, g, book, given, size⟩ := h.book
  have touch : Touches descs kind (fun _ => False) s.ram ram := fun o inside _ x _ high =>
    same x (Nat.lt_of_lt_of_le high (Shape.high_le book.held.shape inside))
  have rep := book.held.rep.frame touch (fun _ => id) (fun _ => id) fun _ _ _ => False.elim
  have book' : Book descs (s.withRam ram) live kind cnt free :=
    ⟨{ book.toEntries with held := book.held.withRam rep }, book.busy⟩
  exact ⟨⟨live, kind, cnt, free, g, book', given, size⟩, fun full => h.left full⟩

theorem Lent.give (h : Lent descs s b n) :
    ∃ s', (Heap.free (some b)).run s = (.ok (), s') ∧ Beyond s.toMem s'.toMem := by
  obtain ⟨live, kind, cnt, free, g, book, given, -⟩ := h.book
  obtain ⟨s', _, _, _, run, -, -, beyond, -⟩ := book.give given
  exact ⟨s', run, beyond⟩

theorem Lent.bounce {k : Kernel} (h : Lent descs k.arenas b n) : k.bounce = [] := by
  obtain ⟨live, kind, cnt, free, g, book, -⟩ := h.book
  rcases book.malloc (show (512 : BitVec 32).toNat < 2 ^ 31 by decide) with
    ⟨p, s', _, _, _, run, -⟩ | ⟨refused, -⟩
  · rw [Kernel.bounce, run]
  · exact absurd (refused (by decide)) h.left

end Heap

section Calls

variable {k : Kernel} {buffer size : BitVec 32} {descs b f L : Nat} {file : File} {ino : Inode}

/-- `count` bytes of the device went to the buffer, and the position of the file is behind
them. No other byte of the user pool changes, whichever process it belongs to. -/
structure Received (pd : Directory) (k k' : Kernel) (f : Nat) (file : File) (start count : Nat)
    (buffer : BitVec 32) : Prop where
  fs : k'.fs = FS.setFile k.fs f (some { file with pos := file.pos + count })
  thread : k'.pagedir = k.pagedir ∧ k'.current = k.current
  terminal : k'.input = k.input ∧ k'.console = k.console
  there : ∀ j < count, k'.userByte (buffer + BitVec.ofNat 32 j) = k.fs.device.data (start + j)
  other : ∀ va, (∀ j < count, va ≠ buffer + BitVec.ofNat 32 j) → k'.userByte va = k.userByte va
  pool : ∀ a, (k.pool true).base ≤ a → Off pd buffer 0 count a → k'.ram a = k.ram a

/-- `count` bytes of the buffer went to the device, and the position of the file is behind
them. User memory is as it was. -/
structure Sent (k k' : Kernel) (f : Nat) (file : File) (start count : Nat)
    (buffer : BitVec 32) : Prop where
  fs : k'.fs = FS.setFile { k.fs with
      device := k.fs.device.write start
        ((List.range count).map fun j => k.userByte (buffer + BitVec.ofNat 32 j)) }
    f (some { file with pos := file.pos + count })
  thread : k'.pagedir = k.pagedir ∧ k'.current = k.current
  terminal : k'.input = k.input ∧ k'.console = k.console
  other : ∀ va, k'.userByte va = k.userByte va
  pool : ∀ a, (k.pool true).base ≤ a → k'.ram a = k.ram a

theorem run_cpu {x : Cpu α} {r : Except Stop α} (h : x.run k.toMachine = (r, t)) :
    (cpu x).run k = (r, { k with toMachine := t }) :=
  run_zoom h

theorem run_heap {x : Malloc α} {r : Except Stop α} {s : Arenas} (h : x.run k.arenas = (r, s)) :
    (heap x).run k = (r, k.withArenas s) := run_zoom h

theorem run_transfer_lent {x : Code α} {r : α} {fs : FS} (lent : Lent descs k.arenas b n)
    (h : Prog.run x k.fs = some (r, fs)) (before : k.fs.mallocs = []) (after : fs.mallocs = []) :
    (transfer x).run k = (.ok r, { k with fs := fs }) := by
  have same : { k.fs with mallocs := k.bounce } = k.fs := by
    rw [lent.bounce, ← before]
  have same' : { fs with mallocs := [] } = fs := by
    rw [← after]
  rw [run_transfer (by rw [same]; exact h), same']

theorem run_free (lent : Lent descs k.arenas b n) (dir : k.pagedir = some pd)
    (frames : Frames k.toMem pd) :
    ∃ s, (heap (Heap.free (some b))).run k = (.ok (), k.withArenas s) ∧
      (∀ a, (k.pool true).base ≤ a → s.ram a = k.ram a) ∧
      ∀ va, (k.withArenas s).userByte va = k.userByte va := by
  obtain ⟨s, freed, beyond⟩ := lent.give
  exact ⟨s, run_heap freed, beyond.ram, userByte_below dir rfl frames beyond.ram⟩

theorem ioCount_small (small : size.toNat < 2 ^ 31) (pos : Nat) :
    ioCount L size.toInt pos = min size.toNat (L - pos) := by
  rw [ioCount, BitVec.toInt_eq_toNat_of_lt (by omega), Int.toNat_natCast]

variable (small : size.toNat < 2 ^ 31) (dir : k.pagedir = some pd) (frames : Frames k.toMem pd)
  (mapped : Mapped pd buffer 0 size.toNat) (opened : k.fs.files f = some file)
  (nonneg : 0 ≤ file.pos) (loaded : Loaded k.fs file.inode ino L)
include small dir frames mapped opened nonneg loaded

theorem readFile_spec (lent : Lent descs k.arenas b size.toNat) :
    ∃ k', (readFile f buffer size b).run k =
        (.ok (BitVec.ofNat 32 (min size.toNat (L - file.pos.toNat))), k') ∧
      Received pd k k' f file (512 * ino.data.start + file.pos.toNat)
        (min size.toNat (L - file.pos.toNat)) buffer := by
  have read := run_fileRead opened nonneg loaded size.toInt
  rw [ioCount_small small] at read
  generalize few : min size.toNat (L - file.pos.toNat) = count at read ⊢
  have le : count ≤ size.toNat := few ▸ Nat.min_le_left _ _
  generalize 512 * ino.data.start + file.pos.toNat = start at read ⊢
  let bytes := slice k.fs.device.data start count
  let k1 : Kernel := { k with fs := FS.setFile k.fs f (some { file with pos := file.pos + count }) }
  let k2 : Kernel := { k1 with toMem := k.toMem.store b bytes }
  have fits : b + size.toNat ≤ (k.pool true).base := lent.fits
  have length : bytes.length = count := slice_length ..
  have got : (transfer (fileRead f size.toInt)).run k = (.ok bytes, k1) :=
    run_transfer_lent lent read loaded.mallocs loaded.mallocs
  have stored : (cpu (storeBytes b bytes)).run k1 = (.ok (), k2) := rfl
  have outside : ∀ a, a < b ∨ b + size.toNat ≤ a → k2.ram a = k.ram a := fun a off =>
    splice_off _ _ (by omega)
  have high : ∀ a, (k.pool true).base ≤ a → k2.ram a = k.ram a := fun a ge =>
    outside a (.inr (Nat.le_trans fits ge))
  have room : b + (0 + count) ≤ (k.pool true).base := by omega
  obtain ⟨t, copied, space, there, other⟩ := copyOut_spec (t := k2.toMachine) dir
    (frames.congr rfl) (mapped.mono le) room (by omega)
  let k3 : Kernel := { k2 with toMachine := t }
  have lent3 : Lent descs k3.arenas b size.toNat := by
    rw [Kernel.arenas, space.arenas]
    exact (lent.write outside).user fun a lt => other a (frames.off_kernel lt buffer 0 count)
  have pagedir : t.pagedir = k.pagedir := space.pagedir
  have pool : t.toMem.pool true = k.toMem.pool true := space.pool
  obtain ⟨s, freed, after, unseen⟩ := run_free lent3 (pagedir.trans dir) (frames.congr pool)
  refine ⟨k3.withArenas s, ?_, rfl, ⟨pagedir, rfl⟩, ⟨rfl, rfl⟩, ?_, ?_, ?_⟩
  · rw [readFile, run_bind_ok got, run_bind_ok stored, length, run_bind_ok (run_cpu copied)]
    exact run_bind_ok freed _
  · intro j lt
    rw [unseen, there j (Nat.zero_le j) (by omega)]
    exact (splice_of_mem _ _ (Nat.le_add_right b j) (by omega)).trans
      (by rw [Nat.add_sub_cancel_left, slice_getD _ _ _ _ lt])
  · intro va off
    rw [unseen]
    refine userByte_congr dir pagedir fun x pte => ?_
    rw [other _ (frames.off_other pte fun j _ lt => off j (by omega))]
    exact high _ (frames.low pte)
  · intro a ge off
    exact (after a (pool ▸ ge)).trans ((other a off).trans (high a ge))

theorem writeFile_spec (lent : Lent descs k.arenas b size.toNat) (allowed : ino.denyWriteCnt = 0) :
    ∃ k', (writeFile f buffer size b).run k =
        (.ok (BitVec.ofNat 32 (min size.toNat (L - file.pos.toNat))), k') ∧
      Sent k k' f file (512 * ino.data.start + file.pos.toNat)
        (min size.toNat (L - file.pos.toNat)) buffer := by
  have fits : b + (0 + size.toNat) ≤ (k.pool true).base := by
    rw [Nat.zero_add]
    exact lent.fits
  obtain ⟨t, copied, space, there, other⟩ := copyIn_spec dir frames mapped fits
  let k1 : Kernel := { k with toMachine := t }
  have lent1 : Lent descs k1.arenas b size.toNat := by
    rw [Kernel.arenas, space.arenas]
    exact lent.write fun a off => other a (by omega)
  have high : ∀ a, (k.pool true).base ≤ a → t.ram a = k.ram a := fun a ge =>
    other a (.inr (Nat.le_trans fits ge))
  have buffered : ∀ n ≤ size.toNat, slice t.ram b n =
      (List.range n).map fun j => k.userByte (buffer + BitVec.ofNat 32 j) := fun n le =>
    List.map_congr_left fun j mem => there j (Nat.zero_le j) (by
      rw [List.mem_range] at mem
      omega)
  have long : size.toInt.toNat ≤ (slice t.ram b size.toNat).length := by
    rw [slice_length, BitVec.toInt_eq_toNat_of_lt (by omega), Int.toNat_natCast]
  have write := run_fileWrite opened nonneg loaded allowed long
  rw [ioCount_small small, slice_take _ _ _ _ (Nat.min_le_left _ _),
    buffered _ (Nat.min_le_left _ _)] at write
  generalize min size.toNat (L - file.pos.toNat) = count at write ⊢
  have sent := run_transfer_lent (k := k1) lent1 write loaded.mallocs loaded.mallocs
  let k2 : Kernel :=
    { k1 with
      fs := FS.setFile { k.fs with
          device := k.fs.device.write (512 * ino.data.start + file.pos.toNat)
            ((List.range count).map fun j => k.userByte (buffer + BitVec.ofNat 32 j)) }
        f (some { file with pos := file.pos + count }) }
  have pool : t.toMem.pool true = k.toMem.pool true := space.pool
  obtain ⟨s, freed, after, unseen⟩ := run_free (k := k2) lent1 (space.pagedir.trans dir)
    (frames.congr pool)
  refine ⟨k2.withArenas s, ?_, rfl, ⟨space.pagedir, rfl⟩, ⟨rfl, rfl⟩, fun va => ?_, fun a ge => ?_⟩
  · rw [writeFile, run_bind_ok (run_cpu copied)]
    refine (run_bind_ok (run_state k1) _).trans ?_
    refine (run_bind_ok sent _).trans ?_
    refine (run_bind_ok freed _).trans ?_
    rw [BitVec.ofInt_natCast]
    rfl
  · exact (unseen va).trans (userByte_below dir space.pagedir frames high va)
  · exact (after a (pool ▸ ge)).trans (high a ge)

omit small mapped opened nonneg loaded in
theorem run_malloc {live : Ledger} {kind : Nat → Option HeapLayout.Kind} {cnt : Nat → Nat}
    {free : Desc → List Nat} {r c : Nat} (book : Book descs k.arenas live kind cnt free)
    (spare : (k.pool false).usedMap.Run r c false) (enough : size.toNat + 2 * pgsize ≤ pgsize * c)
    (nonzero : size ≠ 0) : ∃ b s, (heap (Heap.malloc size)).run k = (.ok (some b), k.withArenas s) ∧
    Lent descs s b size.toNat ∧ Beyond k.toMem s.toMem ∧
    ∀ va, (k.withArenas s).userByte va = k.userByte va := by
  obtain ⟨small, less⟩ := spare_small spare enough
  rcases book.malloc small with
    ⟨b, s, kind', cnt', free', run, -, -, book', -, beyond, a, within⟩ | ⟨refused, -⟩
  · exact ⟨b, s, run_heap run, ⟨⟨_, kind', cnt', free', _, book', Function.update_self .., rfl⟩,
      page_left spare beyond within less⟩, beyond, userByte_below dir rfl frames beyond.ram⟩
  · exact absurd (refused nonzero) (not_full spare (Nat.le_of_lt less))

end Calls

section Before

variable {k k' : Kernel} {s : Arenas} {f start count : Nat} {file : File} {buffer : BitVec 32}
  (beyond : Beyond k.toMem s.toMem) (unseen : ∀ va, (k.withArenas s).userByte va = k.userByte va)
include beyond unseen

omit unseen in
theorem base_le {a : Nat} (ge : (k.pool true).base ≤ a) :
    ((k.withArenas s).pool true).base ≤ a := by
  change (s.toMem.pool true).base ≤ a
  rw [beyond.pool]
  exact ge

theorem Received.before (h : Received pd (k.withArenas s) k' f file start count buffer) :
    Received pd k k' f file start count buffer where
  fs := h.fs
  thread := h.thread
  terminal := h.terminal
  there := h.there
  other va off := (h.other va off).trans (unseen va)
  pool a ge off := (h.pool a (base_le beyond ge) off).trans (beyond.ram a ge)

theorem Sent.before (h : Sent (k.withArenas s) k' f file start count buffer) :
    Sent k k' f file start count buffer where
  fs := by
    rw [h.fs]
    simp only [unseen]
    rfl
  thread := h.thread
  terminal := h.terminal
  other va := (h.other va).trans (unseen va)
  pool a ge := (h.pool a (base_le beyond ge)).trans (beyond.ram a ge)

end Before

def oneProcess : Mem :=
  { ample with
    kernelPool :=
      { ample.kernelPool with usedMap := { ample.kernelPool.usedMap with bits := [3, 0] } }
    userPool :=
      { ample.userPool with usedMap := ⟨1, [1], firstUsed_length, onePage_small⟩ } }

def onePageDir : Directory :=
  ⟨0xc0100000, fun i => if i = 32 then some ⟨0xc0101000, fun j =>
    if j = 72 then some ⟨0xc0128000, true, false⟩ else none⟩ else none⟩

def oneFile : FS :=
  { boot ⟨16, fun a => UInt8.ofNat a, Format.blankDevice.size_lt⟩ (fun _ => 0) with
    inodes := fun p => if p = 0 then some ⟨4, 1, false, 0, ⟨5, 10, inodeMagic⟩⟩ else none
    openInodes := [0]
    files := fun f => if f = 1 then some ⟨0, 7, false⟩ else none
    next := 2 }

def reader : Kernel where
  toMachine :=
    { bare with
      toMem := (start 0xc0002000 oneProcess).arenas.toMem
      pagedir := some onePageDir }
  descs := (start 0xc0002000 oneProcess).arenas.descs
  fs := oneFile
  current := ⟨some [⟨2, 1⟩], 3⟩
  input := []
  console := []

theorem holds_onePageDir {o : Owner} {c : Page} (h : holds onePageDir o = some c) :
    (o = .dir ∧ c = (false, 0xc0100000)) ∨ (o = .table 32 ∧ c = (false, 0xc0101000)) ∨
      (o = .frame 32 72 ∧ c = (true, 0xc0128000)) := by
  cases o with
  | dir => exact .inl ⟨rfl, (Option.some.inj h).symm⟩
  | table i =>
    by_cases here : i = 32
    · subst here
      exact .inr (.inl ⟨rfl, (Option.some.inj h).symm⟩)
    · simp [holds, onePageDir, here] at h
  | frame i j =>
    by_cases here : i = 32
    · by_cases here' : j = 72
      · subst here here'
        exact .inr (.inr ⟨rfl, (Option.some.inj h).symm⟩)
      · simp [holds, onePageDir, here, here'] at h
    · simp [holds, onePageDir, here] at h

theorem reader_balanced :
    Balanced reader.toMem onePageDir (usedPages reader.toMem \ held onePageDir) where
  used := by
    refine (Set.sdiff_union_of_subset ?_).symm
    rintro c ⟨o, h⟩
    rcases holds_onePageDir h with ⟨-, rfl⟩ | ⟨-, rfl⟩ | ⟨-, rfl⟩
    · exact ⟨0, by decide, rfl, by decide⟩
    · exact ⟨1, by decide, rfl, by decide⟩
    · exact ⟨0, by decide, rfl, by decide⟩
  once o o' c h h' := by
    rcases holds_onePageDir h with ⟨rfl, rfl⟩ | ⟨rfl, rfl⟩ | ⟨rfl, rfl⟩ <;>
      rcases holds_onePageDir h' with ⟨rfl, e⟩ | ⟨rfl, e⟩ | ⟨rfl, e⟩ <;>
      first | rfl | (simp at e)
  apart c out := out.2
  tables i used := by
    by_contra big
    exact used (if_neg (by omega))
  entries i pt j table used := by
    by_contra big
    have here : i = 32 := by
      by_contra ne
      simp [onePageDir, ne] at table
    subst here
    cases table
    exact used (if_neg (by omega))

theorem reader_loaded : Loaded reader.fs 0 ⟨4, 1, false, 0, ⟨5, 10, inodeMagic⟩⟩ 10 :=
  ⟨rfl, rfl, fun k lt => by
    change 5 + k < 16
    omega, rfl⟩

theorem reader_spare : (reader.pool false).usedMap.Run 2 38 false := by
  refine ⟨by decide, fun j low high => ?_⟩
  have bits : ∀ j < 40, 2 ≤ j → (⟨40, [3, 0], rfl, by decide⟩ : Bits).bit j = false := by decide
  exact bits j (by omega) low

theorem reader_mapped : ∀ j < (8 : BitVec 32).toNat,
    Present reader.toMachine (0x08048000 + BitVec.ofNat 32 j) true := by
  intro j lt
  have place : ∀ j < 8, (pdNo (0x08048000 + BitVec.ofNat 32 j)).toNat = 32 ∧
      (ptNo (0x08048000 + BitVec.ofNat 32 j)).toNat = 72 := by decide
  refine ⟨onePageDir, ⟨0xc0128000, true, false⟩, rfl, ?_, fun _ => rfl⟩
  rw [Directory.pte, (place j lt).1, (place j lt).2]
  rfl

end Pintos.ReadWrite
