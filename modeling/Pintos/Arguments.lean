import Pintos.Tokens

/-! The stack of a new process. `setup_stack_arguments` writes the arguments, the pointers to
them and three more words downward from `PHYS_BASE`; together they are one run of bytes at the
end of the stack page, and what the process finds on its stack is read off from it. -/

namespace Pintos.Arguments
open ByteStore Stoppable Vaddr Palloc Pagedir PageFault Demand LoaderRuns Process Tokens
open Exec (run_bind_ok run_pure)
open List (append_assoc length_append length_cons length_replicate length_singleton replicate suffix_append)

variable {s s' : Machine} {x : Pte}

/-- The address `d` bytes below `PHYS_BASE`. -/
def down (d : Nat) : BitVec 32 := physBase - BitVec.ofNat 32 d
variable {d : Nat} {bs ys : List UInt8} {args : List (List UInt8)}

theorem down_toNat (le : d ≤ 3221225472) : (down d).toNat = 3221225472 - d := by
  have base : physBase.toNat = 3221225472 := rfl
  rw [down, BitVec.toNat_sub, BitVec.toNat_ofNat, base, Nat.mod_eq_of_lt (show d < 2 ^ 32 by omega)]
  omega

theorem down_sub (d e : Nat) : down d - BitVec.ofNat 32 e = down (e + d) := by
  rw [down, down, BitVec.ofNat_add]
  bv_omega

theorem down_add {e : Nat} (le : e ≤ d) : down d + BitVec.ofNat 32 e = down (d - e) := by
  obtain ⟨k, rfl⟩ := Nat.exists_eq_add_of_le le
  rw [Nat.add_sub_cancel_left, ← down_sub, BitVec.sub_add_cancel]

/-- The frame of the page below `PHYS_BASE`, which the kernel may write to. -/
structure Stack (s : Machine) (x : Pte) : Prop where
  pte : pteOf s stackPage = some x
  writable : x.writable = true

theorem Stack.pteOf (stack : Stack s x) (pos : 0 < d) (le : d ≤ pgsize) :
    Demand.pteOf s (down d) = some x := by
  have size : pgsize = 4096 := rfl
  have base : stackPage.toNat = 3221221376 := rfl
  have page : (down d).toNat / 4096 = stackPage.toNat / 4096 := by
    rw [down_toNat (by omega), base]
    omega
  rw [pteOf_congr page, stack.pte]

theorem frameAddr_down (x : Pte) (pos : 0 < d) (le : d ≤ pgsize) :
    frameAddr x (down d) = x.kpage + (pgsize - d) := by
  have size : pgsize = 4096 := rfl
  rw [frameAddr, pgOfs_toNat, down_toNat (by omega)]
  omega

section

variable (stack : Stack s x) (pos : 0 < d) (le : d ≤ pgsize)
include stack pos le

theorem Stack.translate (write : Bool) :
    s.translate (down d) write false = .ok (x.kpage + (pgsize - d)) := by
  have size : pgsize = 4096 := rfl
  have user : isUserVaddr (down d) = true := by
    rw [isUserVaddr_iff, down_toNat (by omega)]
    omega
  obtain ⟨pd, dir, pte⟩ := Option.bind_eq_some_iff.mp (stack.pteOf pos le)
  rw [translate_mapped user dir pte fun _ => stack.writable, frameAddr_down x pos le]

theorem Stack.userByte : s.userByte (down d) = s.ram (x.kpage + (pgsize - d)) := by
  rw [userByte_pteOf (stack.pteOf pos le), frameAddr_down x pos le]

theorem Stack.write (b : UInt8) :
    (direct .stack (down d) (some b)).run s = (.ok s.directSite.next,
      { s.log .stack (down d) with toMem := s.toMem.store (x.kpage + (pgsize - d)) [b] }) :=
  direct_write (stack.translate pos le true) b

end

/-- The bytes `bs` have been written at the end of the stack page. -/
structure Pushed (x : Pte) (s : Machine) (bs : List UInt8) (s' : Machine) : Prop where
  fits : bs.length ≤ pgsize
  eq : ∃ new, s' = { s with
      toMem := s.toMem.store (x.kpage + (pgsize - bs.length)) bs
      touched := new ++ s.touched } ∧
    ∀ e ∈ new, stackPage.toNat ≤ e.2.toNat ∧ e.2.toNat < physBase.toNat

theorem Pushed.nil (x : Pte) (s : Machine) : Pushed x s [] s := by
  refine ⟨Nat.zero_le _, [], ?_, by simp⟩
  simp [Mem.store]

theorem Pushed.stack (pushed : Pushed x s bs s') (stack : Stack s x) : Stack s' x := by
  obtain ⟨new, rfl, -⟩ := pushed.eq
  exact ⟨stack.pte, stack.writable⟩

theorem storeBytes_run (stack : Stack s x) (fits : bs.length ≤ d) (le : d ≤ pgsize) :
    ∃ new, (storeBytes (down d) bs).run s = (.ok (), { s with
        toMem := s.toMem.store (x.kpage + (pgsize - d)) bs
        touched := new ++ s.touched }) ∧
      ∀ e ∈ new, stackPage.toNat ≤ e.2.toNat ∧ e.2.toNat < physBase.toNat := by
  induction bs generalizing s d with
  | nil =>
    refine ⟨[], ?_, by simp⟩
    simp [storeBytes, Mem.store]
  | cons b rest ih =>
    rw [length_cons] at fits
    have next : down d + 1 = down (d - 1) := down_add (e := 1) (by omega)
    have written := stack.write (by omega) le b
    obtain ⟨new, run, range⟩ := ih (s := { s.log .stack (down d) with
      toMem := s.toMem.store (x.kpage + (pgsize - d)) [b] }) ⟨stack.pte, stack.writable⟩
      (d := d - 1) (by omega) (by omega)
    refine ⟨new ++ [(.stack, down d)], ?_, fun e mem => ?_⟩
    · rw [storeBytes, run_bind_ok written, next, run]
      have after : x.kpage + (pgsize - (d - 1)) = x.kpage + (pgsize - d) + [b].length := by
        rw [length_singleton]
        omega
      simp only [Mem.store, Machine.log, after, splice_append, append_assoc, List.singleton_append]
    rcases List.mem_append.mp mem with mem | mem
    · exact range e mem
    · have size : pgsize = 4096 := rfl
      have base : stackPage.toNat = 3221221376 := rfl
      have top : physBase.toNat = 3221225472 := rfl
      rw [List.mem_singleton.mp mem, down_toNat (by omega), base, top]
      omega

theorem Pushed.push (pushed : Pushed x s ys s') (stack : Stack s x) (bs : List UInt8)
    (fits : bs.length + ys.length ≤ pgsize) :
    ∃ s'', (storeBytes (down (bs.length + ys.length)) bs).run s' = (.ok (), s'') ∧
      Pushed x s (bs ++ ys) s'' := by
  obtain ⟨new', run, range'⟩ := storeBytes_run (pushed.stack stack) (Nat.le_add_right _ _) fits
  obtain ⟨new, rfl, range⟩ := pushed.eq
  refine ⟨_, run, ?_, new' ++ new, ?_, fun e mem => ?_⟩
  · rw [length_append]
    exact fits
  · have before : x.kpage + (pgsize - ys.length) =
        x.kpage + (pgsize - (bs.length + ys.length)) + bs.length := by omega
    simp only [Mem.store, before, splice_prepend, append_assoc, length_append]
  · exact (List.mem_append.mp mem).elim (range' e) (range e)

theorem word_length (w : BitVec 32) (ys : List UInt8) :
    (le32 w.toNat ++ ys).length = 4 + ys.length := by
  rw [length_append, le32_length]

theorem Pushed.pushWord (pushed : Pushed x s ys s') (stack : Stack s x) (w : BitVec 32)
    (fits : 4 + ys.length ≤ pgsize) :
    ∃ s'', (Process.pushWord (down ys.length) w).run s' =
        (.ok (down (le32 w.toNat ++ ys).length), s'') ∧
      Pushed x s (le32 w.toNat ++ ys) s'' := by
  obtain ⟨s'', run, pushed⟩ := pushed.push stack (le32 w.toNat) fits
  rw [le32_length] at run
  have below : down ys.length - 4 = down (4 + ys.length) := down_sub ys.length 4
  refine ⟨s'', ?_, pushed⟩
  rw [Process.pushWord, below, run_bind_ok run, run_pure, word_length]

theorem Pushed.pushWords (pushed : Pushed x s ys s') (stack : Stack s x) (ws : List (BitVec 32))
    (fits : 4 * ws.length + ys.length ≤ pgsize) :
    ∃ s'', (Process.pushWords ws (down ys.length)).run s' =
        (.ok (down (wordBytes ws ++ ys).length), s'') ∧ Pushed x s (wordBytes ws ++ ys) s'' := by
  induction ws with
  | nil => exact ⟨s', rfl, pushed⟩
  | cons w rest ih =>
    rw [length_cons] at fits
    obtain ⟨s1, run, pushed1⟩ := ih (by omega)
    have room : 4 + (wordBytes rest ++ ys).length ≤ pgsize := by
      rw [length_append, wordBytes_length]
      omega
    obtain ⟨s2, last, pushed2⟩ := pushed1.pushWord stack w room
    have bytes : wordBytes (w :: rest) ++ ys = le32 w.toNat ++ (wordBytes rest ++ ys) := by
      simp [wordBytes]
    refine ⟨s2, ?_, bytes ▸ pushed2⟩
    rw [Process.pushWords, run_bind_ok run, last, bytes]

/-- The arguments as they lie on the stack. -/
def strings (args : List (List UInt8)) : List UInt8 := args.flatMap fun t => t ++ [0]

def addresses : List (List UInt8) → List (BitVec 32)
  | [] => []
  | t :: rest => down (strings (t :: rest)).length :: addresses rest

theorem addresses_length (args : List (List UInt8)) : (addresses args).length = args.length := by
  induction args with
  | nil => rfl
  | cons t rest ih => rw [addresses, length_cons, ih, length_cons]

theorem pushStrings_run (stack : Stack s x) (args : List (List UInt8))
    (fits : (strings args).length ≤ pgsize) :
    ∃ s', (pushStrings args physBase).run s =
        (.ok (down (strings args).length, addresses args), s') ∧ Pushed x s (strings args) s' := by
  induction args with
  | nil =>
    have top : down 0 = physBase := BitVec.sub_zero _
    refine ⟨s, ?_, .nil x s⟩
    rw [pushStrings, strings, List.flatMap_nil, List.length_nil, top, run_pure, addresses]
  | cons t rest ih =>
    have bytes : strings (t :: rest) = (t ++ [0]) ++ strings rest := rfl
    rw [bytes, length_append] at fits
    obtain ⟨s1, run, pushed1⟩ := ih (by omega)
    obtain ⟨s2, last, pushed2⟩ := pushed1.push stack (t ++ [0]) fits
    have below : down (strings rest).length - BitVec.ofNat 32 (t.length + 1) =
        down ((t ++ [0]).length + (strings rest).length) := by
      rw [down_sub, length_append, length_singleton]
    have length : (strings (t :: rest)).length = (t ++ [0]).length + (strings rest).length := by
      rw [bytes, length_append]
    refine ⟨s2, ?_, bytes ▸ pushed2⟩
    rw [pushStrings, run_bind_ok run]
    simp only
    rw [below, run_bind_ok last, run_pure, addresses, length]

def padding (args : List (List UInt8)) : Nat := (strings args).length % 4

/-- The bytes from the pointers to the arguments up to `PHYS_BASE`. -/
def vector (args : List (List UInt8)) : List UInt8 :=
  wordBytes (addresses args) ++
    (le32 (0 : BitVec 32).toNat ++ (replicate (padding args) 0 ++ strings args))

def image (args : List (List UInt8)) : List UInt8 :=
  le32 (0 : BitVec 32).toNat ++ (le32 (BitVec.ofNat 32 args.length).toNat ++
    (le32 (down (vector args).length).toNat ++ vector args))

theorem vector_length (args : List (List UInt8)) : (vector args).length =
    4 * args.length + (4 + (padding args + (strings args).length)) := by
  rw [vector, length_append, wordBytes_length, addresses_length, word_length,
    length_append, length_replicate]

theorem image_length (args : List (List UInt8)) :
    (image args).length = 12 + (vector args).length := by
  rw [image, word_length, word_length, word_length]
  omega

theorem align_eq {n : Nat} (le : n ≤ pgsize) : (4 - (down n).toNat % 4) % 4 = n % 4 := by
  have size : pgsize = 4096 := rfl
  rw [down_toNat (by omega)]
  omega

theorem pushArguments_run (stack : Stack s x) (args : List (List UInt8))
    (fits : (image args).length ≤ pgsize) :
    ∃ s', (pushArguments args physBase).run s = (.ok (down (image args).length), s') ∧
      Pushed x s (image args) s' := by
  rw [image_length, vector_length] at fits
  obtain ⟨s1, run1, pushed1⟩ := pushStrings_run stack args (by omega)
  have align := align_eq pushed1.fits
  have padded : (replicate (padding args) (0 : UInt8) ++ strings args).length =
      padding args + (strings args).length := by rw [length_append, length_replicate]
  obtain ⟨s2, run2, pushed2⟩ := pushed1.push stack (replicate (padding args) 0)
    (by rw [length_replicate]; omega)
  rw [length_replicate, ← padded] at run2
  obtain ⟨s3, run3, pushed3⟩ := pushed2.pushWord stack 0 (by rw [padded]; omega)
  obtain ⟨s4, run4, pushed4⟩ := pushed3.pushWords stack (addresses args)
    (by rw [addresses_length, word_length, padded]; omega)
  rw [← vector] at run4 pushed4
  obtain ⟨s5, run5, pushed5⟩ := pushed4.pushWord stack (down (vector args).length)
    (by rw [vector_length]; omega)
  obtain ⟨s6, run6, pushed6⟩ := pushed5.pushWord stack (BitVec.ofNat 32 args.length)
    (by rw [word_length, vector_length]; omega)
  obtain ⟨s7, run7, pushed7⟩ := pushed6.pushWord stack 0
    (by rw [word_length, word_length, vector_length]; omega)
  refine ⟨s7, ?_, pushed7⟩
  have below : down (strings args).length - BitVec.ofNat 32 (padding args) =
      down (replicate (padding args) (0 : UInt8) ++ strings args).length := by
    rw [down_sub, padded]
  rw [pushArguments, run_bind_ok run1]
  simp only
  rw [align, ← padding, below, run_bind_ok run2, run_bind_ok run3,
    run_bind_ok run4, run_bind_ok run5, run_bind_ok run6, run7, image]

structure Shows (s : Machine) (x : Pte) (bs : List UInt8) : Prop where
  stack : Stack s x
  fits : bs.length ≤ pgsize
  bytes : slice s.ram (x.kpage + (pgsize - bs.length)) bs.length = bs

/-- The kernel has no page for a copy of the command line, or the arguments are on the stack.
Nothing but the stack page is written to. -/
theorem setupStackArguments_run (stack : Stack s x) (used : (s.pool true).Used x.kpage)
    {cmdLine : List UInt8}
    (parsed : parseArguments maxArguments (cmdLine.take (pgsize - 1)) = some args)
    (fits : (image args).length ≤ pgsize) :
    ((∀ q, (s.pool false).Has q → (s.pool false).Used q) ∧
      (setupStackArguments physBase cmdLine).run s = (.ok (false, physBase), s)) ∨
    (∃ q, (s.pool false).Has q ∧ ¬ (s.pool false).Used q) ∧ ∃ s' new,
      (setupStackArguments physBase cmdLine).run s =
        (.ok (true, down (image args).length), s') ∧ Shows s' x (image args) ∧
      s'.touched = new ++ s.touched ∧
      ∀ e ∈ new, stackPage.toNat ≤ e.2.toNat ∧ e.2.toNat < physBase.toNat := by
  rw [setupStackArguments]
  rcases pallocGetPage_cases {} s.toMem with ⟨page, m, taken, run⟩ | ⟨full, run⟩
  · have here := taken.has page (span_one.mpr rfl)
    have fresh := taken.fresh page (span_one.mpr rfl)
    refine .inr ⟨⟨page, here, fresh⟩, ?_⟩
    have copied : (strlcpy page cmdLine).run m = (.ok (cmdLine.take (pgsize - 1)),
      m.store page (cmdLine.take (pgsize - 1) ++ [0])) := rfl
    rw [run_bind_ok (run_paging (run_alloc run))]
    simp only
    rw [run_bind_ok (run_paging (run_alloc copied)), parsed]
    simp only
    obtain ⟨s2, pushing, pushed⟩ := pushArguments_run (s := { s with
      toMem := m.store page (cmdLine.take (pgsize - 1) ++ [0]) }) ⟨stack.pte, stack.writable⟩
      args fits
    obtain ⟨new, rfl, range⟩ := pushed.eq
    have held : ((((m.store page (cmdLine.take (pgsize - 1) ++ [0])).store
        (x.kpage + (pgsize - (image args).length)) (image args))).pool false).Used page := by
      rw [store_pool, store_pool, taken.used_iff]
      exact .inl ⟨rfl, span_one.mpr rfl⟩
    obtain ⟨m', freed, free⟩ := pallocFreePage_spec held
    rw [run_bind_ok pushing, run_bind_ok (run_paging (run_alloc free)), run_pure]
    refine ⟨_, new, rfl, ⟨⟨stack.pte, stack.writable⟩, fits, ?_⟩, rfl, range⟩
    have frame : x.kpage ≠ page := by
      rintro rfl
      exact s.toMem.pool_unique here used.has
    obtain ⟨b, size, rfl⟩ := freed.eq
    have apart : page + pgsize ≤ x.kpage ∨ x.kpage + pgsize ≤ page := by
      have := used.has.aligned
      have := here.aligned
      simp only [pgsize, pgbits] at *
      omega
    change slice (splice (Mem.setMap _ _ _ _).ram page _) _ _ = _
    rw [setMap_ram, slice_splice_of_disjoint _ _ _ _ _ (by
      rw [length_replicate]
      omega)]
    exact slice_splice _ _ (image args)
  · rw [run_bind_ok (run_paging (run_alloc run))]
    exact .inl ⟨full, rfl⟩

/-! What the process reads. -/

def userBytes (s : Machine) (va : BitVec 32) (n : Nat) : List UInt8 :=
  (List.range n).map fun i => s.userByte (va + BitVec.ofNat 32 i)

def userWord (s : Machine) (va : BitVec 32) : BitVec 32 :=
  BitVec.ofNat 32 (readLe32 (userBytes s va 4))

theorem Shows.read (shows : Shows s x bs) (suffix : ys <:+ bs) {n : Nat} (le : n ≤ ys.length) :
    userBytes s (down ys.length) n = ys.take n := by
  obtain ⟨pre, rfl⟩ := suffix
  have fits := shows.fits
  have bytes := shows.bytes
  rw [length_append] at fits bytes
  have seen : userBytes s (down ys.length) n =
      slice s.ram (x.kpage + (pgsize - (pre.length + ys.length)) + pre.length) n := by
    apply List.map_congr_left
    intro i mem
    have lt := List.mem_range.mp mem
    have place : x.kpage + (pgsize - (pre.length + ys.length)) + pre.length + i =
        x.kpage + (pgsize - (ys.length - i)) := by omega
    rw [down_add (by omega), shows.stack.userByte (by omega) (by omega), place]
  rw [seen, ← slice_drop_take _ _ (pre.length + ys.length) _ _ (by omega), bytes, List.drop_left]

theorem Shows.word {w : BitVec 32} (shows : Shows s x bs) (suffix : le32 w.toNat ++ ys <:+ bs)
    (place : d = 4 + ys.length) : userWord s (down d) = w := by
  have read := shows.read suffix (n := 4) (by rw [word_length]; omega)
  rw [word_length, ← place, List.take_left' (le32_length _)] at read
  rw [userWord, read, ← List.append_nil (le32 _), readLe32_le32 _ _ w.isLt, BitVec.ofNat_toNat,
    BitVec.setWidth_eq]

theorem addresses_getElem (args : List (List UInt8)) (i : Nat) :
    (addresses args)[i]? = args[i]?.map fun _ => down (strings (args.drop i)).length := by
  induction args generalizing i with
  | nil => simp [addresses]
  | cons t rest ih =>
    cases i with
    | zero => rfl
    | succ i => rw [addresses, List.getElem?_cons_succ, ih, List.getElem?_cons_succ,
        List.drop_succ_cons]

theorem wordBytes_suffix {ws : List (BitVec 32)} {i : Nat} {w : BitVec 32}
    (here : ws[i]? = some w) : ∃ rest, wordBytes (ws.drop i) = le32 w.toNat ++ wordBytes rest ∧
      wordBytes (ws.drop i) <:+ wordBytes ws := by
  obtain ⟨lt, rfl⟩ := List.getElem?_eq_some_iff.mp here
  refine ⟨ws.drop (i + 1), ?_, (List.drop_suffix i ws).flatMap _⟩
  rw [List.drop_eq_getElem_cons lt]
  rfl

/-- The stack of a process that is about to run `main (argc, argv)`. -/
structure Layout (s : Machine) (esp argv : BitVec 32) (args : List (List UInt8)) : Prop where
  inside : stackPage.toNat ≤ esp.toNat
  above : esp.toNat + 12 ≤ argv.toNat
  returnAddress : userWord s esp = 0
  count : userWord s (esp + 4) = BitVec.ofNat 32 args.length
  array : userWord s (esp + 8) = argv
  arg : ∀ i t, args[i]? = some t → ∃ p, userWord s (argv + BitVec.ofNat 32 (4 * i)) = p ∧
    userBytes s p (t.length + 1) = t ++ [0] ∧
    argv.toNat + 4 * (args.length + 1) ≤ p.toNat ∧ p.toNat + t.length < physBase.toNat
  null : userWord s (argv + BitVec.ofNat 32 (4 * args.length)) = 0

theorem strings_length (args : List (List UInt8)) :
    (strings args).length = (args.map fun t => t.length + 1).sum := by
  simp [strings, List.length_flatMap]

theorem strings_drop {i : Nat} {t : List UInt8} (here : args[i]? = some t) :
    ∃ rest, strings (args.drop i) = (t ++ [0]) ++ rest := by
  obtain ⟨lt, rfl⟩ := List.getElem?_eq_some_iff.mp here
  refine ⟨strings (args.drop (i + 1)), ?_⟩
  rw [List.drop_eq_getElem_cons lt]
  rfl

theorem vector_suffix (args : List (List UInt8)) : vector args <:+ image args :=
  ((suffix_append _ _).trans (suffix_append _ _)).trans (suffix_append _ _)

theorem Shows.layout (shows : Shows s x (image args)) :
    Layout s (down (image args).length) (down (vector args).length) args := by
  have size : pgsize = 4096 := rfl
  have base : stackPage.toNat = 3221221376 := rfl
  have top : physBase.toNat = 3221225472 := rfl
  have fits := shows.fits
  have total := image_length args
  have part := vector_length args
  have first : down (image args).length + 4 = down ((image args).length - 4) :=
    down_add (e := 4) (by omega)
  have second : down (image args).length + 8 = down ((image args).length - 8) :=
    down_add (e := 8) (by omega)
  refine ⟨?_, ?_, ?_, ?_, ?_, fun i t here => ?_, ?_⟩
  · rw [base, down_toNat (by omega)]
    omega
  · rw [down_toNat (by omega), down_toNat (by omega)]
    omega
  · refine shows.word (List.suffix_refl _) ?_
    rw [total, word_length, word_length]
    omega
  · rw [first]
    refine shows.word (suffix_append _ _) ?_
    rw [total, word_length]
    omega
  · rw [second]
    refine shows.word ((suffix_append _ _).trans (suffix_append _ _)) ?_
    omega
  · have lt := (List.getElem?_eq_some_iff.mp here).1
    have address : (addresses args)[i]? = some (down (strings (args.drop i)).length) := by
      rw [addresses_getElem, here]
      rfl
    obtain ⟨pointers, split, tail⟩ := wordBytes_suffix address
    obtain ⟨others, text⟩ := strings_drop here
    have within : strings (args.drop i) <:+ strings args := (List.drop_suffix i args).flatMap _
    have shorter := within.length_le
    have count := congrArg List.length split
    rw [wordBytes_length, List.length_drop, addresses_length, word_length] at count
    have longer := congrArg List.length text
    rw [length_append, length_append, length_singleton] at longer
    refine ⟨down (strings (args.drop i)).length, ?_, ?_, ?_, ?_⟩
    · rw [down_add (by omega)]
      have suffix : le32 (down (strings (args.drop i)).length).toNat ++ (wordBytes pointers ++
          (le32 (0 : BitVec 32).toNat ++ (replicate (padding args) 0 ++ strings args))) <:+
          image args := by
        rw [← append_assoc, ← split]
        refine List.IsSuffix.trans ?_ (vector_suffix args)
        obtain ⟨init, eq⟩ := tail
        refine ⟨init, ?_⟩
        rw [← append_assoc, eq, vector]
      refine shows.word suffix ?_
      rw [length_append, word_length, length_append, length_replicate]
      omega
    · have strings : strings args <:+ vector args :=
        ((suffix_append _ _).trans (suffix_append _ _)).trans (suffix_append _ _)
      rw [shows.read (within.trans (strings.trans (vector_suffix args))) (by omega), text,
        List.take_left' (by rw [length_append, length_singleton])]
    · rw [down_toNat (by omega), down_toNat (by omega)]
      omega
    · rw [down_toNat (by omega), top]
      omega
  · rw [down_add (by omega)]
    refine shows.word ((suffix_append _ _).trans (vector_suffix args)) ?_
    rw [length_append, length_replicate]
    omega

theorem image_fits {line : List UInt8} (short : line.length ≤ 127) :
    (tokens line).length < maxArguments ∧ (image (tokens line)).length ≤ pgsize := by
  have size : pgsize = 4096 := rfl
  have limit : maxArguments = 128 := rfl
  have bytes := tokens_length line
  have each : 2 * (tokens line).length ≤ ((tokens line).map fun t => t.length + 1).sum := by
    have two : ∀ t ∈ (tokens line).map (fun t => t.length + 1), 2 ≤ t := by
      intro n mem
      obtain ⟨t, here, rfl⟩ := List.mem_map.mp mem
      have pos := List.length_pos_iff.mpr (by simpa using (List.mem_filter.mp here).2)
      omega
    have sum := List.card_nsmul_le_sum _ 2 two
    rw [List.length_map, nsmul_eq_mul, Nat.cast_id] at sum
    omega
  have pad : padding (tokens line) < 4 := Nat.mod_lt _ (by decide)
  rw [image_length, vector_length, strings_length]
  omega

theorem parsed_short {line : List UInt8} (short : line.length ≤ 127) :
    parseArguments maxArguments (line.take (pgsize - 1)) = some (tokens line) := by
  have size : pgsize = 4096 := rfl
  rw [List.take_of_length_le (by omega), parseArguments_eq, if_pos (image_fits short).1]

def started (room : Bool) : Machine :=
  { bare with
    kernelPool := ⟨⟨3, [if room then 3 else 7], rfl, threePages_small⟩, 0xc0100000, 3, rfl,
      kernelStart_aligned, kernelStart_above⟩
    userPool := ⟨⟨2, [1], firstUsed_length, twoPages_small⟩, 0xc0103000, 2, rfl,
      thirdPage_aligned, thirdPage_above⟩
    initRamPages := 0x105
    apart := by decide +revert
    room := by decide
    fits := fivePages_fit
    pagedir := some ⟨0xc0100000, fun i => if i = 767 then some ⟨0xc0101000, fun j =>
      if j = 1023 then some ⟨0xc0103000, true, false⟩ else none⟩ else none⟩ }

theorem started_stack (room : Bool) : Stack (started room) ⟨0xc0103000, true, false⟩ :=
  ⟨rfl, rfl⟩

theorem started_used (room : Bool) : ((started room).pool true).Used 0xc0103000 := by
  refine ⟨0, ?_, rfl, ?_⟩ <;> cases room <;> decide

theorem started_room : ∃ q, ((started true).pool false).Has q ∧
    ¬ ((started true).pool false).Used q := by
  refine ⟨_, ⟨2, by decide, rfl⟩, ?_⟩
  rw [used_index]
  decide

/-- Everything on the stack but the strings is aligned. -/
structure Aligned (s : Machine) (esp argv : BitVec 32) (args : List (List UInt8)) : Prop where
  array : userWord s (esp + 8) = argv
  pointer : esp.toNat % 4 = 0
  slot : ∀ i ≤ args.length, (argv + BitVec.ofNat 32 (4 * i)).toNat % 4 = 0
  pad : ∃ pad ≤ 3, argv.toNat + 4 * (args.length + 1) + pad +
    (args.map fun t => t.length + 1).sum = physBase.toNat

theorem Shows.aligned (shows : Shows s x (image args))
    (even : (args.map fun t => t.length + 1).sum % 2 = 0) :
    Aligned s (down (image args).length) (down (vector args).length) args := by
  have size : pgsize = 4096 := rfl
  have top : physBase.toNat = 3221225472 := rfl
  have fits := shows.fits
  have total := image_length args
  have part := vector_length args
  rw [← strings_length] at even
  have padded : padding args = (strings args).length % 4 := rfl
  refine ⟨shows.layout.array, ?_, fun i le => ?_, padding args, by omega, ?_⟩
  · rw [down_toNat (by omega)]
    omega
  · rw [down_add (by omega), down_toNat (by omega)]
    omega
  · rw [down_toNat (by omega), top, ← strings_length]
    omega

end Pintos.Arguments
