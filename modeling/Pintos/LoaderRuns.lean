import Pintos.Loader

/-! What `load` leaves behind. As long as it goes well, every page that it maps has the bytes
of its segment, and what was mapped before is not touched, because new pages come from free
ones. -/

namespace Pintos.LoaderRuns
open ByteStore Stoppable Vaddr Palloc Pagedir Accounts Loader
open Exec (run_bind_ok)
open List (replicate)

variable {m m' : Mem} {s s' : Space} {pd : Directory} {pt : PageTable} {va va' : BitVec 32}
  {c d : Page} {base : Set Page} {kpage : Nat}

/-- Whether the page of `va` is writable, and the byte at `va`. -/
def view (s : Space) (va : BitVec 32) : Option (Bool × UInt8) :=
  (s.pagedir.bind fun pd => pd.pte va).map fun x =>
    (x.writable, s.ram (x.kpage + (pgOfs va).toNat))

theorem view_dir (dir : s.pagedir = some pd) (va : BitVec 32) :
    view s va = (pd.pte va).map fun x => (x.writable, s.ram (x.kpage + (pgOfs va).toNat)) := by
  rw [view, dir, Option.bind_some]

theorem page_ne (h : (m.pool c.1).Has c.2) (h' : (m.pool d.1).Has d.2) (ne : c ≠ d) :
    c.2 ≠ d.2 := by
  intro same
  by_cases pool : c.1 = d.1
  · exact ne (Prod.ext pool same)
  · have other : d.1 = !c.1 := Bool.eq_not_of_ne (Ne.symm pool)
    rw [← same, other] at h'
    exact m.pool_unique h h'

theorem store_other {p q o : Nat} (k : Nat) (bs : List UInt8) (hp : p % pgsize = 0) (hq : q % pgsize = 0)
    (ne : p ≠ q) (lt : o < pgsize) (fits : k + bs.length ≤ pgsize) :
    (m.store (q + k) bs).ram (p + o) = m.ram (p + o) := by
  simp only [pgsize, pgbits] at *
  exact splice_off _ _ (by omega)

theorem Taken.ram {user : Bool} {page cnt : Nat} (h : Taken m m' user page cnt) : m'.ram = m.ram := by
  obtain ⟨b, size, rfl⟩ := h.eq
  exact setMap_ram

theorem Table.ram (h : Table s pd va pt m) (used : c ∈ usedPages s.toMem) {o : Nat}
    (lt : o < pgsize) : m.ram (c.2 + o) = s.ram (c.2 + o) := by
  cases h with
  | old e => rfl
  | @new page m e taken =>
    have has := taken.has page (span_one.mpr rfl)
    have ne : c.2 ≠ page := page_ne (d := (false, page)) (Pool.Used.has used) has
      fun same => notMem_taken taken (same ▸ used)
    have kept := store_other (m := m) 0 (replicate pgsize 0)
      (Pool.Used.has used).aligned has.aligned ne lt (by simp)
    rw [Nat.add_zero] at kept
    rw [kept, Taken.ram taken]

theorem view_map (dir : s.pagedir = some pd) (bal : Balanced s.toMem pd base)
    (taken : Taken s.toMem m true kpage 1) {m1 : Mem} (pools : ∀ u, m1.pool u = m.pool u)
    (off : ∀ a, a < kpage ∨ kpage + pgsize ≤ a → m1.ram a = s.ram a)
    (table : Table ⟨m1, some pd⟩ pd va pt m') (w : Bool) (va' : BitVec 32) :
    view ⟨m', some (pd.map va pt ⟨kpage, w, false⟩)⟩ va' =
      if va'.toNat / 4096 = va.toNat / 4096 then some (w, m1.ram (kpage + (pgOfs va').toNat))
      else view s va' := by
  have used : usedPages m1 = insert (true, kpage) (usedPages s.toMem) := by
    rw [← usedPages_taken taken]
    ext c
    rw [mem_usedPages, mem_usedPages, pools]
  rw [view_dir rfl, pte_map table]
  by_cases here : va'.toNat / 4096 = va.toNat / 4096
  · rw [if_pos here, if_pos here, Option.map_some]
    have frame : (true, kpage) ∈ usedPages m1 := by
      rw [used]
      exact Set.mem_insert _ _
    exact congrArg (fun b => some (w, b)) (Table.ram table frame (pgOfs_lt va'))
  rw [if_neg here, if_neg here, view_dir dir]
  cases pte : pd.pte va' with
  | none => rfl
  | some x =>
    have hold := bal.frame_used pte
    have frame : (true, x.kpage) ∈ usedPages m1 := by
      rw [used]
      exact Set.mem_insert_of_mem _ hold
    have has := taken.has kpage (span_one.mpr rfl)
    have ne : x.kpage ≠ kpage := page_ne (c := (true, x.kpage)) (d := (true, kpage))
      (Pool.Used.has hold) has fun same => notMem_taken taken (same ▸ hold)
    have apart : x.kpage + (pgOfs va').toNat < kpage ∨
        kpage + pgsize ≤ x.kpage + (pgOfs va').toNat := by
      have aligned : x.kpage % pgsize = 0 := (Pool.Used.has hold).aligned
      have aligned' := has.aligned
      have lt := pgOfs_lt va'
      simp only [pgsize, pgbits] at *
      omega
    have kept := (Table.ram table frame (pgOfs_lt va')).trans (off _ apart)
    exact congrArg (fun b => some (x.writable, b)) kept

variable {n pages length k : Nat} {g : Segment} {phdrs : List Phdr} {phdr : Phdr}
  {content : List UInt8}

section Runs

variable {α : Type} {s s' t : Loading}

theorem run_space {x : Paging α} {r : Except Stop α} {t : Space} (h : x.run s.toSpace = (r, t)) :
    (space x).run s = (r, { s with toSpace := t }) :=
  Exec.run_zoom h

theorem run_memory {x : Alloc α} {r : Except Stop α} (h : x.run s.toMem = (r, m)) :
    (memory x).run s = (r, { s with toMem := m }) :=
  run_space (run_alloc h)

/-- The thread has a page directory, which holds all pages in use but those of `base`. -/
def Good (base : Set Page) (s : Loading) : Prop :=
  ∃ pd, s.pagedir = some pd ∧ Balanced s.toMem pd base

theorem balanced_taken (bal : Balanced s.toMem pd base) (taken : Taken s.toMem m true kpage 1)
    (pools : ∀ u, m'.pool u = m.pool u) : Balanced m' pd (insert (true, kpage) base) := by
  refine (bal.take taken).congr ?_
  ext c
  rw [mem_usedPages, mem_usedPages, pools]

/-- The page of `va` is mapped to the new frame, or something is in the way. -/
theorem installPage_spec (dir : s.pagedir = some pd) (bal : Balanced s.toMem pd base)
    (taken : Taken s.toMem m true kpage 1) (dir1 : t.pagedir = some pd)
    (pools : ∀ u, t.pool u = m.pool u)
    (off : ∀ a, a < kpage ∨ kpage + pgsize ≤ a → t.ram a = s.ram a)
    (aligned : pgOfs va = 0) (user : isUserVaddr va = true) (w : Bool) :
    (∃ s', (installPage va kpage w).run t = (.ok true, s') ∧ Good base s' ∧ s'.exe = t.exe ∧
      s'.installed = va :: t.installed ∧
      (∀ va', va'.toNat / 4096 = va.toNat / 4096 → view s.toSpace va' = none) ∧
      ∀ va', view s'.toSpace va' = if va'.toNat / 4096 = va.toNat / 4096 then
        some (w, t.ram (kpage + (pgOfs va').toNat)) else view s.toSpace va') ∨
    (installPage va kpage w).run t = (.ok false, { t with installed := va :: t.installed }) := by
  have log : (Exec.modify fun s => { s with installed := va :: s.installed } : Load Unit).run t =
    (.ok (), { t with installed := va :: t.installed }) := rfl
  have get := run_space (s := { t with installed := va :: t.installed })
    (run_pagedirGetPage user dir1)
  rw [installPage, run_bind_ok log, run_bind_ok get]
  cases pte : pd.pte va with
  | some x => exact .inr rfl
  | none =>
    have frame : (t.pool true).Has kpage := by
      rw [pools, taken.has_iff]
      exact taken.has kpage (span_one.mpr rfl)
    rcases run_pagedirSetPage (s := t.toSpace) w aligned user frame dir1 pte with
      ⟨pt, m', table, set⟩ | ⟨-, -, set⟩
    · refine .inl ⟨_, run_space set, ⟨_, rfl, ?_⟩, rfl, rfl, fun va' page => ?_, fun va' => ?_⟩
      · exact Balanced.map (x := ⟨kpage, w, false⟩) (balanced_taken bal taken pools)
          (bal.fresh taken) user pte table
      · obtain ⟨i, j⟩ := same_page.mpr page
        rw [view_dir dir, Directory.pte, i, j, ← Directory.pte, pte, Option.map_none]
      · have whole : t.toSpace = ⟨t.toMem, some pd⟩ := by rw [← dir1]
        rw [whole] at table
        exact view_map dir bal taken pools off table w va'
    · exact .inr (run_space set)

/-- `load` has gone from `s` to `s'`: the pages are accounted for, and only user pages other
than the first were passed to `install_page`. -/
structure Kept (base : Set Page) (s s' : Loading) : Prop where
  good : Good base s'
  content : s'.exe.content = s.exe.content
  installed : ∃ new, s'.installed = new ++ s.installed ∧
    ∀ u ∈ new, pgsize ≤ u.toNat ∧ u.toNat < physBase.toNat

theorem Kept.refl (good : Good base s) : Kept base s s := ⟨good, rfl, [], rfl, by simp⟩

theorem Kept.trans {s'' : Loading} (h : Kept base s s') (h' : Kept base s' s'') :
    Kept base s s'' := by
  obtain ⟨new, log, range⟩ := h.installed
  obtain ⟨new', log', range'⟩ := h'.installed
  refine ⟨h'.good, h'.content.trans h.content, new' ++ new, ?_, fun u mem => ?_⟩
  · rw [log', log, List.append_assoc]
  · exact (List.mem_append.mp mem).elim (range' u) (range u)

theorem free_kept (bal : Balanced s.toMem pd base)
    (taken : Taken s.toMem m true kpage 1) (dir1 : t.pagedir = some pd)
    (pools : ∀ u, t.pool u = m.pool u) (content : t.exe.content = s.exe.content)
    (installed : ∃ new, t.installed = new ++ s.installed ∧
      ∀ u ∈ new, pgsize ≤ u.toNat ∧ u.toNat < physBase.toNat) (a : α) :
    ∃ s', ((memory (pallocFreePage (some kpage)) : Load Unit) >>= fun _ => pure a).run t =
      (.ok a, s') ∧ Kept base s s' := by
  have used : (t.pool true).Used kpage := by
    rw [pools, taken.used_iff]
    exact .inl ⟨rfl, span_one.mpr rfl⟩
  obtain ⟨m', freed, run⟩ := pallocFreePage_spec used
  refine ⟨{ t with toMem := m'.store kpage (replicate pgsize 0xcc) }, ?_,
    ⟨pd, dir1, ((balanced_taken bal taken pools).give (bal.fresh taken) freed).congr
      (usedPages_store _ _)⟩, content, installed⟩
  rw [run_bind_ok (run_memory run)]
  rfl

/-- The addresses of the pages that a segment has to go. -/
def Within (g : Segment) (pages : Nat) (va : BitVec 32) : Prop :=
  g.upage.toNat ≤ va.toNat ∧ va.toNat < g.upage.toNat + 4096 * pages

/-- The byte for place `i` of a segment of which `read` bytes come from a file. -/
def segmentByte (content : List UInt8) (pos read i : Nat) : UInt8 :=
  if i < read then content.getD (pos + i) 0 else 0

/-- The rest of a segment has been loaded. -/
structure SegmentLoaded (g : Segment) (pages : Nat) (w : Bool) (s s' : Loading) : Prop where
  enough : g.readBytes.toNat = 0 ∨ s.exe.pos + g.readBytes.toNat ≤ s.exe.content.length
  fresh : ∀ va, Within g pages va → view s.toSpace va = none
  new : ∀ va, Within g pages va → view s'.toSpace va = some (w,
    segmentByte s.exe.content s.exe.pos g.readBytes.toNat (va.toNat - g.upage.toNat))
  old : ∀ va, ¬Within g pages va → view s'.toSpace va = view s.toSpace va

theorem run_fileRead (size : Nat) (s : Loading) : (fileRead size).run s =
    (.ok (s.exe.read size).1, { s with exe := (s.exe.read size).2 }) := rfl

theorem read_full {f : OpenFile} {size : Nat} (full : (f.read size).1.length = size) :
    (f.read size).1 = (f.content.drop f.pos).take size ∧
      (size = 0 ∨ f.pos + size ≤ f.content.length) := by
  simp only [OpenFile.read, List.length_take, List.length_drop] at full ⊢
  rw [Nat.min_eq_right (by omega)]
  exact ⟨rfl, by omega⟩

theorem fill_ram {bytes : List UInt8} {z : Nat} (len : bytes.length = n) (total : n + z = pgsize)
    (a : Nat) : ((m.store kpage bytes).store (kpage + n) (replicate z 0)).ram a =
      if kpage ≤ a ∧ a < kpage + pgsize then (bytes ++ replicate z 0).getD (a - kpage) 0
      else m.ram a := by
  subst len
  have whole : (bytes ++ replicate z 0).length = pgsize := by
    rw [List.length_append, List.length_replicate, total]
  simp only [Mem.store, splice_append]
  rw [splice, whole]

theorem fill_byte {f : OpenFile} {size i : Nat} (full : (f.read size).1.length = size) (z : Nat) :
    ((f.read size).1 ++ replicate z 0).getD i 0 = segmentByte f.content f.pos size i := by
  rw [segmentByte]
  split_ifs with lt
  · rw [List.getD_append _ _ _ _ (by omega), (read_full full).1, List.getD_eq_getElem?_getD,
      List.getElem?_take_of_lt lt, List.getElem?_drop, List.getD_eq_getElem?_getD]
  · rw [List.getD_append_right _ _ _ _ (by omega), List.getD_eq_getElem?_getD,
      List.getElem?_replicate]
    split_ifs <;> rfl

theorem within_succ (fits : g.Fits (pages + 1)) (va : BitVec 32) :
    Within g (pages + 1) va ↔ va.toNat / 4096 = g.upage.toNat / 4096 ∨ Within g.next pages va := by
  have next := fits.next_toNat.2.2
  have aligned := fits.aligned
  simp only [Within, next]
  omega

theorem SegmentLoaded.cons {w : Bool} {s2 : Loading} (fits : g.Fits (pages + 1))
    (full : (s.exe.read g.pageReadBytes.toNat).1.length = g.pageReadBytes.toNat)
    (exe : s2.exe = (s.exe.read g.pageReadBytes.toNat).2)
    (fresh : ∀ va, va.toNat / 4096 = g.upage.toNat / 4096 → view s.toSpace va = none)
    (first : ∀ va, view s2.toSpace va = if va.toNat / 4096 = g.upage.toNat / 4096 then
      some (w, segmentByte s.exe.content s.exe.pos g.pageReadBytes.toNat (va.toNat % 4096)) else
      view s.toSpace va)
    (rest : SegmentLoaded g.next pages w s2 s') : SegmentLoaded g (pages + 1) w s s' := by
  have read := g.pageReadBytes_toNat
  obtain ⟨read', -, upage⟩ := fits.next_toNat
  have aligned := fits.aligned
  have content : s2.exe.content = s.exe.content := by rw [exe]; rfl
  have moved : (s.exe.read g.pageReadBytes.toNat).2.pos =
    s.exe.pos + (s.exe.read g.pageReadBytes.toNat).1.length := rfl
  have pos : s2.exe.pos = s.exe.pos + g.pageReadBytes.toNat := by rw [exe, moved, full]
  have apart : ∀ va, Within g.next pages va → va.toNat / 4096 ≠ g.upage.toNat / 4096 := by
    rintro va ⟨lo, -⟩
    omega
  refine ⟨?_, fun va within => ?_, fun va within => ?_, fun va off => ?_⟩
  · have room := (read_full full).2
    have more := rest.enough
    rw [content, pos, read'] at more
    omega
  · rcases (within_succ fits va).mp within with here | later
    · exact fresh va here
    · rw [← rest.fresh va later, first, if_neg (apart va later)]
  · rcases (within_succ fits va).mp within with here | later
    · rw [rest.old va fun later => apart va later here, first, if_pos here]
      have index : va.toNat - g.upage.toNat = va.toNat % 4096 := by omega
      rw [index, segmentByte, segmentByte, read]
      refine congrArg (fun b => some (w, b)) (if_congr ?_ rfl rfl)
      omega
    rw [rest.new va later, content, pos, read', upage]
    obtain ⟨lo, -⟩ := later
    refine congrArg (fun b => some (w, b)) ?_
    rw [segmentByte, segmentByte]
    split_ifs with inside inside' inside'
    · have same : s.exe.pos + g.pageReadBytes.toNat + (va.toNat - (g.upage.toNat + 4096)) =
          s.exe.pos + (va.toNat - g.upage.toNat) := by omega
      rw [same]
    · omega
    · omega
    · rfl
  · rw [rest.old va fun later => off ((within_succ fits va).mpr (.inr later)), first,
      if_neg fun here => off ((within_succ fits va).mpr (.inl here))]

theorem segmentLoop_spec (w : Bool) (fits : g.Fits pages) (lt : pages < n) (good : Good base s) :
    ∃ ok s', (segmentLoop w n g).run s = (.ok ok, s') ∧ Kept base s s' ∧
      (ok = true → SegmentLoaded g pages w s s') := by
  induction n generalizing s g pages with
  | zero => exact absurd lt (Nat.not_lt_zero _)
  | succ n ih =>
    cases pages with
    | zero =>
      refine ⟨true, s, ?_, .refl good, fun _ => ?_⟩
      · rw [segmentLoop, if_pos (fits.done_iff.mpr rfl)]
        rfl
      have none : ∀ va, ¬Within g 0 va := fun va h => by
        have := h.1
        have := h.2
        omega
      have total := fits.total
      exact ⟨.inl (by omega), fun va h => absurd h (none va), fun va h => absurd h (none va),
        fun _ _ => rfl⟩
    | succ pages =>
      have good' := good
      obtain ⟨pd, dir, bal⟩ := good'
      rw [segmentLoop, if_neg (mt fits.done_iff.mp (Nat.succ_ne_zero pages))]
      rcases pallocGetPage_cases { user := true } s.toMem with ⟨kpage, m, taken, run⟩ | ⟨-, run⟩
      · rw [run_bind_ok (run_memory run)]
        simp only [Bool.false_eq_true, if_false]
        rw [run_bind_ok (run_fileRead _ _), run_bind_ok (run_memory (Exec.run_modify _ _))]
        by_cases full : (s.exe.read g.pageReadBytes.toNat).1.length = g.pageReadBytes.toNat
        · rw [if_neg (not_not_intro full), run_bind_ok (run_memory (Exec.run_modify _ _))]
          have total : g.pageReadBytes.toNat + g.pageZeroBytes.toNat = pgsize := by
            rw [g.pageReadBytes_toNat, g.pageZeroBytes_toNat, pgsize, pgbits]
            omega
          have aligned : pgOfs g.upage = 0 :=
            BitVec.eq_of_toNat_eq (by rw [pgOfs_toNat, fits.aligned]; rfl)
          have user : isUserVaddr g.upage = true := (isUserVaddr_iff _).mpr (by
            have := fits.high
            omega)
          have range : ∀ u ∈ [g.upage], pgsize ≤ u.toNat ∧ u.toNat < physBase.toNat :=
            List.forall_mem_singleton.mpr ⟨fits.low, (isUserVaddr_iff _).mp user⟩
          let t : Loading := { s with
            toMem := (m.store kpage (s.exe.read g.pageReadBytes.toNat).1).store
              (kpage + g.pageReadBytes.toNat) (replicate g.pageZeroBytes.toNat 0)
            exe := (s.exe.read g.pageReadBytes.toNat).2 }
          have pools : ∀ u, t.pool u = m.pool u := fun u => by rw [store_pool, store_pool]
          have filled : ∀ va, t.ram (kpage + (pgOfs va).toNat) = segmentByte s.exe.content
              s.exe.pos g.pageReadBytes.toNat (va.toNat % 4096) := by
            intro va
            rw [fill_ram full total, if_pos ⟨Nat.le_add_right _ _, Nat.add_lt_add_left (pgOfs_lt va) _⟩,
              Nat.add_sub_cancel_left, fill_byte full, pgOfs_toNat]
          rcases installPage_spec (t := t) dir bal taken dir pools
            (fun a off => by rw [fill_ram full total, if_neg (by omega), Taken.ram taken])
            aligned user w with ⟨s2, run2, good2, exe2, log2, fresh, first⟩ | run2
          · rw [run_bind_ok run2, if_pos rfl]
            obtain ⟨ok, s', run', kept, loaded⟩ := ih fits.next.1 (by omega) good2
            have kept2 : Kept base s s2 := ⟨good2, by rw [exe2]; rfl, [g.upage], log2, range⟩
            exact ⟨ok, s', run', kept2.trans kept, fun e =>
              .cons fits full exe2 fresh (fun va => by rw [first, filled]) (loaded e)⟩
          · rw [run_bind_ok run2, if_neg (by simp)]
            obtain ⟨s', run', kept⟩ := free_kept
              (t := { t with installed := g.upage :: s.installed }) bal taken dir pools rfl
              ⟨[g.upage], rfl, range⟩ false
            exact ⟨false, s', run', kept, by simp⟩
        · rw [if_pos full]
          obtain ⟨s', run', kept⟩ := free_kept (t := { s with
            toMem := m.store kpage (s.exe.read g.pageReadBytes.toNat).1
            exe := (s.exe.read g.pageReadBytes.toNat).2 }) bal taken dir
            (fun u => store_pool _ _) rfl ⟨[], rfl, by simp⟩ false
          exact ⟨false, s', run', kept, by simp⟩
      · rw [run_bind_ok (run_memory run)]
        exact ⟨false, s, rfl, .refl good, by simp⟩

/-- The addresses of the pages of a segment. -/
def Covers (phdr : Phdr) (va : BitVec 32) : Prop :=
  phdr.vaddr.toNat / 4096 * 4096 ≤ va.toNat ∧
    va.toNat < phdr.vaddr.toNat / 4096 * 4096 + 4096 * phdr.pages

def imageByte (content : List UInt8) (phdr : Phdr) (va : BitVec 32) : UInt8 :=
  segmentByte content (phdr.offset.toNat / 4096 * 4096) phdr.fileBytes
    (va.toNat - phdr.vaddr.toNat / 4096 * 4096)

structure Loaded (phdrs : List Phdr) (s s' : Loading) : Prop where
  valid : ∀ phdr ∈ phdrs, phdr.type = ptLoad → Valid phdr s.exe.content.length
  enough : ∀ phdr ∈ phdrs, phdr.type = ptLoad → phdr.fileBytes = 0 ∨
    phdr.offset.toNat / 4096 * 4096 + phdr.fileBytes ≤ s.exe.content.length
  fresh : ∀ phdr ∈ phdrs, phdr.type = ptLoad → ∀ va, Covers phdr va → view s.toSpace va = none
  new : ∀ phdr ∈ phdrs, phdr.type = ptLoad → ∀ va, Covers phdr va →
    view s'.toSpace va = some (phdr.writable, imageByte s.exe.content phdr va)
  old : ∀ va, (∀ phdr ∈ phdrs, phdr.type = ptLoad → ¬Covers phdr va) →
    view s'.toSpace va = view s.toSpace va

theorem Loaded.rebase (content : t.exe.content = s.exe.content) (space : t.toSpace = s.toSpace)
    (h : Loaded phdrs t s') : Loaded phdrs s s' := by
  obtain ⟨valid, enough, fresh, new, old⟩ := h
  rw [content] at valid enough new
  rw [space] at fresh old
  exact ⟨valid, enough, fresh, new, old⟩

theorem Loaded.nil (s : Loading) : Loaded [] s s :=
  ⟨by simp, by simp, by simp, by simp, fun _ _ => rfl⟩

theorem Loaded.skip (other : phdr.type ≠ ptLoad) (h : Loaded phdrs s s') :
    Loaded (phdr :: phdrs) s s' := by
  refine ⟨?_, ?_, ?_, ?_, fun va off => h.old va (List.forall_mem_cons.mp off).2⟩
  all_goals refine List.forall_mem_cons.mpr ⟨fun load => absurd load other, ?_⟩
  · exact h.valid
  · exact h.enough
  · exact h.fresh
  · exact h.new

theorem Loaded.append {s2 : Loading} (content : s2.exe.content = s.exe.content)
    (h : Loaded [phdr] s s2) (h' : Loaded phdrs s2 s') : Loaded (phdr :: phdrs) s s' := by
  have mapped : ∀ p ∈ phdrs, p.type = ptLoad → ∀ va, Covers p va →
      (phdr.type = ptLoad → ¬Covers phdr va) ∧ view s.toSpace va = none := by
    intro p mem load va covers
    have free := h'.fresh p mem load va covers
    have off : phdr.type = ptLoad → ¬Covers phdr va := fun load' covers' => by
      rw [h.new phdr (List.mem_singleton_self _) load' va covers'] at free
      cases free
    refine ⟨off, ?_⟩
    rw [← free, h.old va (List.forall_mem_singleton.mpr off)]
  refine ⟨?_, ?_, ?_, ?_, fun va off => ?old⟩
  case old =>
    obtain ⟨first, later⟩ := List.forall_mem_cons.mp off
    rw [h'.old va later, h.old va (List.forall_mem_singleton.mpr first)]
  all_goals refine List.forall_mem_cons.mpr ⟨?_, fun p mem load => ?_⟩
  · exact h.valid phdr (List.mem_singleton_self _)
  · exact content ▸ h'.valid p mem load
  · exact h.enough phdr (List.mem_singleton_self _)
  · exact content ▸ h'.enough p mem load
  · exact h.fresh phdr (List.mem_singleton_self _)
  · exact fun va covers => (mapped p mem load va covers).2
  · intro load va covers
    rw [← h.new phdr (List.mem_singleton_self _) load va covers]
    exact h'.old va fun q mem' load' covers' => (mapped q mem' load' va covers').1 load covers
  · exact content ▸ h'.new p mem load

theorem toInt_of_lt {x : BitVec 32} (h : x.toNat < 2 ^ 31) : x.toInt = x.toNat := by
  rw [BitVec.toInt_eq_toNat_cond, if_pos (by omega)]

theorem run_fileSeek (newPos : Int) (h : 0 ≤ newPos) (s : Loading) : (fileSeek newPos).run s =
    (.ok (), { s with exe := { s.exe with pos := newPos.toNat } }) := by
  rw [fileSeek, run_bind_ok (run_assert h s)]
  rfl

theorem loadSegment_spec (load : phdr.type = ptLoad) (valid : Valid phdr s.exe.content.length)
    (good : Good base s) :
    ∃ ok s', (loadSegment (phdr.offset &&& ~~~pgmask) phdr.segment (phdr.writable)).run s =
      (.ok ok, s') ∧ Kept base s s' ∧ (ok = true → Loaded [phdr] s s') := by
  obtain ⟨fits, read, upage⟩ := segment_spec valid
  have len := s.exe.length_lt
  have inside := valid.inside
  have ofs : (phdr.offset &&& ~~~pgmask).toNat = phdr.offset.toNat / 4096 * 4096 :=
    pgRoundDown_toNat _
  have int : (phdr.offset &&& ~~~pgmask).toInt = ((phdr.offset.toNat / 4096 * 4096 : Nat) : Int) := by
    rw [toInt_of_lt (by omega), ofs]
  have whole : (phdr.segment.readBytes + phdr.segment.zeroBytes).toNat % pgsize = 0 := by
    have total := fits.total
    have high := fits.high
    rw [BitVec.toNat_add, total, pgsize, pgbits]
    omega
  have aligned : pgOfs phdr.segment.upage = 0 :=
    BitVec.eq_of_toNat_eq (by rw [pgOfs_toNat, fits.aligned]; rfl)
  have multiple : (phdr.offset &&& ~~~pgmask).toInt.tmod pgsize = 0 := by
    have mod : ((phdr.offset.toNat / 4096 * 4096 : Nat) : Int).tmod pgsize =
      ((phdr.offset.toNat / 4096 * 4096 % 4096 : Nat) : Int) := rfl
    rw [int, mod, Nat.mul_mod_left]
    rfl
  have seek := run_fileSeek (phdr.offset &&& ~~~pgmask).toInt (by rw [int]; omega) s
  obtain ⟨ok, s', run, kept, loaded⟩ := segmentLoop_spec (n := 2 ^ 20) (phdr.writable) fits
    (by have := fits.high; omega)
    (s := { s with exe := { s.exe with pos := (phdr.offset &&& ~~~pgmask).toInt.toNat } }) good
  refine ⟨ok, s', ?_, ⟨kept.good, kept.content, kept.installed⟩, fun e => ?_⟩
  · rw [loadSegment, run_bind_ok (run_assert whole s), run_bind_ok (run_assert aligned s),
      run_bind_ok (run_assert multiple s), run_bind_ok seek, run]
  have pos : (phdr.offset &&& ~~~pgmask).toInt.toNat = phdr.offset.toNat / 4096 * 4096 := by
    rw [int, Int.toNat_natCast]
  obtain ⟨enough, fresh, new, old⟩ := loaded e
  rw [read, pos] at enough
  simp only [Within, read, pos, upage] at fresh new old
  refine ⟨?_, ?_, ?_, ?_, fun va off => old va (off phdr (List.mem_singleton_self _) load)⟩
  all_goals refine List.forall_mem_singleton.mpr fun _ => ?_
  · exact valid
  · exact enough
  · exact fresh
  · exact new

def phdrAt (content : List UInt8) (ofs : Nat) : Phdr :=
  Phdr.decode ((content.drop ofs).take sizeofPhdr)

/-- `n` program headers in a row. -/
def phdrsAt (content : List UInt8) : Nat → Nat → List Phdr
  | _, 0 => []
  | ofs, n + 1 => phdrAt content ofs :: phdrsAt content (ofs + sizeofPhdr) n

theorem headerLoop_spec (n : Nat) (fileOfs : BitVec 32) (good : Good base s) :
    ∃ ok s', (headerLoop n fileOfs).run s = (.ok ok, s') ∧ Kept base s s' ∧
      (ok = true → Loaded (phdrsAt s.exe.content fileOfs.toNat n) s s') := by
  induction n generalizing s fileOfs with
  | zero => exact ⟨true, s, rfl, .refl good, fun _ => .nil s⟩
  | succ n ih =>
    have length : fileLength.run s = (.ok (s.exe.content.length : Int), s) := rfl
    have len := s.exe.length_lt
    rw [headerLoop, run_bind_ok length]
    by_cases outside : fileOfs.toInt < 0 ∨ fileOfs.toInt > s.exe.content.length
    · rw [if_pos outside]
      exact ⟨false, s, rfl, .refl good, by simp⟩
    have small : fileOfs.toNat < 2 ^ 31 := by
      rw [BitVec.toInt_eq_toNat_cond] at outside
      split_ifs at outside <;> omega
    have pos : fileOfs.toInt.toNat = fileOfs.toNat := by
      rw [toInt_of_lt small, Int.toNat_natCast]
    have seek := run_fileSeek fileOfs.toInt (by omega) s
    rw [pos] at seek
    rw [if_neg outside, run_bind_ok seek, run_bind_ok (run_fileRead _ _)]
    let f : OpenFile := { s.exe with pos := fileOfs.toNat }
    let t : Loading := { s with exe := (f.read sizeofPhdr).2 }
    have kept1 : Kept base s t := ⟨good, rfl, [], rfl, by simp⟩
    by_cases full : (f.read sizeofPhdr).1.length = sizeofPhdr
    · have header : Phdr.decode (f.read sizeofPhdr).1 = phdrAt s.exe.content fileOfs.toNat := by
        rw [(read_full full).1]
        rfl
      have next : (fileOfs + BitVec.ofNat 32 sizeofPhdr).toNat = fileOfs.toNat + sizeofPhdr := by
        rw [BitVec.toNat_add, show (BitVec.ofNat 32 sizeofPhdr).toNat = 32 from rfl, sizeofPhdr]
        omega
      rw [if_neg (not_not_intro full), header]
      simp only
      rw [phdrsAt, ← next]
      generalize phdrAt s.exe.content fileOfs.toNat = phdr
      by_cases refused : phdr.type = ptDynamic ∨ phdr.type = ptInterp ∨ phdr.type = ptShlib
      · rw [if_pos refused]
        exact ⟨false, t, rfl, kept1, by simp⟩
      rw [if_neg refused]
      by_cases load : phdr.type = ptLoad
      · rw [if_pos load, run_bind_ok (rfl : fileLength.run t = (.ok _, t))]
        by_cases checked : validateSegment phdr (t.exe.content.length : Int) = true
        · have valid := validateSegment_valid len checked
          obtain ⟨ok, s2, run2, kept2, loaded2⟩ := loadSegment_spec (s := t) load valid kept1.good
          rw [if_pos checked, run_bind_ok run2]
          cases ok with
          | false => exact ⟨false, s2, rfl, kept1.trans kept2, by simp⟩
          | true =>
            obtain ⟨ok, s', run, kept, loaded⟩ := ih _ (s := s2) kept2.good
            refine ⟨ok, s', run, (kept1.trans kept2).trans kept, fun e => ?_⟩
            have rest := loaded e
            rw [kept2.content] at rest
            exact .rebase (t := t) rfl rfl ((loaded2 rfl).append kept2.content rest)
        · rw [if_neg checked]
          exact ⟨false, t, rfl, kept1, by simp⟩
      · rw [if_neg load]
        obtain ⟨ok, s', run, kept, loaded⟩ := ih _ (s := t) kept1.good
        exact ⟨ok, s', run, kept1.trans kept, fun e =>
          .rebase (t := t) rfl rfl ((loaded e).skip load)⟩
    · rw [if_pos full]
      exact ⟨false, t, rfl, kept1, by simp⟩

def stackPage : BitVec 32 := physBase - BitVec.ofNat 32 pgsize

theorem setupStack_spec (good : Good base s) :
    ∃ r s', setupStack.run s = (.ok r, s') ∧ Kept base s s' ∧ ∀ esp, r = some esp → esp = physBase ∧
      (∀ va, va.toNat / 4096 = stackPage.toNat / 4096 → view s.toSpace va = none) ∧
      ∀ va, view s'.toSpace va = if va.toNat / 4096 = stackPage.toNat / 4096 then some (true, 0)
        else view s.toSpace va := by
  have good' := good
  obtain ⟨pd, dir, bal⟩ := good'
  rw [setupStack]
  rcases pallocGetPage_cases { user := true, zero := true } s.toMem with
    ⟨kpage, m, taken, run⟩ | ⟨-, run⟩
  · let t : Loading := { s with toMem := m.store kpage (replicate pgsize 0) }
    have pools : ∀ u, t.pool u = m.pool u := fun u => store_pool _ _
    have zeros : ∀ a, t.ram a = if kpage ≤ a ∧ a < kpage + pgsize then 0 else s.ram a := by
      intro a
      rw [← Taken.ram taken]
      change splice m.ram kpage _ a = _
      by_cases inside : kpage ≤ a ∧ a < kpage + pgsize
      · rw [if_pos inside, splice_of_mem _ _ inside.1 (by simpa using inside.2)]
        simp
      · rw [if_neg inside, splice, if_neg (by simpa using inside)]
    have range : ∀ u ∈ [stackPage], pgsize ≤ u.toNat ∧ u.toNat < physBase.toNat :=
      List.forall_mem_singleton.mpr ⟨by decide, by decide⟩
    rw [run_bind_ok (run_memory run)]
    rcases installPage_spec (t := t) dir bal taken dir pools
      (fun a off => by rw [zeros, if_neg (by omega)]) (show pgOfs stackPage = 0 by decide)
      (by decide) true with ⟨s', run', good', exe', log', fresh, first⟩ | run'
    · refine ⟨some physBase, s', ?_, ⟨good', by rw [exe'], [stackPage], log', range⟩, ?_⟩
      · exact (run_bind_ok run' _).trans rfl
      · intro esp e
        refine ⟨(Option.some.inj e).symm, fresh, fun va => ?_⟩
        have zero : t.ram (kpage + (pgOfs va).toNat) = 0 := by
          rw [zeros, if_pos ⟨Nat.le_add_right _ _, Nat.add_lt_add_left (pgOfs_lt va) _⟩]
        rw [first, zero]
    · obtain ⟨s', free, kept⟩ := free_kept (t := { t with installed := stackPage :: s.installed })
        bal taken dir pools rfl ⟨[stackPage], rfl, range⟩ (none : Option (BitVec 32))
      refine ⟨none, s', ?_, kept, by simp⟩
      exact (run_bind_ok run' _).trans free
  · rw [run_bind_ok (run_memory run)]
    exact ⟨none, s, rfl, .refl good, by simp⟩

def ehdrOf (content : List UInt8) : Ehdr := Ehdr.decode (content.take sizeofEhdr)

def phdrOf (content : List UInt8) (i : Nat) : Phdr :=
  phdrAt content ((ehdrOf content).phoff.toNat + sizeofPhdr * i)

theorem mem_phdrsAt {ofs : Nat} :
    phdr ∈ phdrsAt content ofs n ↔ ∃ i < n, phdr = phdrAt content (ofs + sizeofPhdr * i) := by
  induction n generalizing ofs with
  | zero => simp [phdrsAt]
  | succ n ih =>
    rw [phdrsAt, List.mem_cons, ih]
    constructor
    · rintro (rfl | ⟨i, lt, rfl⟩)
      · exact ⟨0, Nat.succ_pos n, rfl⟩
      · exact ⟨i + 1, Nat.succ_lt_succ lt, by rw [Nat.mul_succ, Nat.add_right_comm, Nat.add_assoc ofs]⟩
    · rintro ⟨_ | i, lt, rfl⟩
      · exact .inl rfl
      · refine .inr ⟨i, Nat.lt_of_succ_lt_succ lt, ?_⟩
        rw [Nat.mul_succ, Nat.add_right_comm, Nat.add_assoc ofs]

/-- All headers have been dealt with, and the stack is there. -/
def Complete (content : List UInt8) (s s' : Loading) : Prop :=
  ∃ t, Loaded (phdrsAt content (ehdrOf content).phoff.toNat (ehdrOf content).phnum) s t ∧
    (∀ va, va.toNat / 4096 = stackPage.toNat / 4096 → view t.toSpace va = none) ∧
    ∀ va, view s'.toSpace va = if va.toNat / 4096 = stackPage.toNat / 4096 then some (true, 0)
      else view t.toSpace va

theorem loadFile_spec (good : Good base s) (start : s.exe.pos = 0) :
    ∃ r s', loadFile.run s = (.ok r, s') ∧ Kept base s s' ∧ ∀ eip esp, r = some (eip, esp) →
      eip = (ehdrOf s.exe.content).entry ∧ esp = physBase ∧ Complete s.exe.content s s' := by
  let t : Loading := { s with exe := (s.exe.read sizeofEhdr).2 }
  have kept1 : Kept base s t := ⟨good, rfl, [], rfl, by simp⟩
  rw [loadFile, run_bind_ok (run_fileRead _ _)]
  simp only
  by_cases bad : (s.exe.read sizeofEhdr).1.length ≠ sizeofEhdr ∨
    ¬validEhdr (Ehdr.decode (s.exe.read sizeofEhdr).1)
  · rw [if_pos bad]
    exact ⟨none, t, rfl, kept1, by simp⟩
  rw [if_neg bad]
  have full := not_not.mp (not_or.mp bad).1
  have header : Ehdr.decode (s.exe.read sizeofEhdr).1 = ehdrOf s.exe.content := by
    rw [(read_full full).1, start]
    rfl
  rw [header]
  obtain ⟨ok, s2, run2, kept2, loaded⟩ := headerLoop_spec (ehdrOf s.exe.content).phnum
    (ehdrOf s.exe.content).phoff kept1.good
  rw [run_bind_ok run2]
  cases ok with
  | false => exact ⟨none, s2, rfl, kept1.trans kept2, by simp⟩
  | true =>
    obtain ⟨r, s', run', kept', stack⟩ := setupStack_spec kept2.good
    rw [if_pos rfl, run_bind_ok run']
    cases r with
    | none => exact ⟨none, s', rfl, (kept1.trans kept2).trans kept', by simp⟩
    | some esp =>
      refine ⟨_, s', rfl, (kept1.trans kept2).trans kept', fun eip esp' e => ?_⟩
      obtain ⟨rfl, fresh, seen⟩ := stack esp rfl
      cases e
      exact ⟨rfl, rfl, s2, .rebase (t := t) rfl rfl (loaded rfl), fresh, seen⟩

/-- What `load` does: it always returns, all pages are accounted for, and a program that has
been loaded is complete. -/
theorem load_spec (s : Loading) (file : Option OpenFile) :
    ∃ r s', (load file).run s = (.ok r, s') ∧
      (Good (usedPages s.toMem) s' ∨ (s'.pagedir = none ∧ usedPages s'.toMem = usedPages s.toMem)) ∧
      (∃ new, s'.installed = new ++ s.installed ∧
        ∀ u ∈ new, pgsize ≤ u.toNat ∧ u.toNat < physBase.toNat) ∧
      ∀ eip esp, r = some (eip, esp) → ∃ f t, file = some f ∧ t.exe.content = f.content ∧
        (∀ va, view t.toSpace va = none) ∧ eip = (ehdrOf f.content).entry ∧ esp = physBase ∧
        Complete f.content t s' := by
  rw [load]
  rcases run_pagedirCreate s.toSpace with ⟨page, m, taken, run⟩ | run
  · let t : Loading := { s with toMem := m, pagedir := some ⟨page, fun _ => none⟩ }
    have set : (space (setPagedir (some ⟨page, fun _ => none⟩))).run { s with toMem := m } =
      (.ok (), t) := rfl
    have good : Good (usedPages s.toMem) t := ⟨_, rfl, .create taken⟩
    rw [run_bind_ok (run_space run), run_bind_ok set]
    cases file with
    | none => exact ⟨none, t, rfl, .inl good, ⟨[], rfl, by simp⟩, by simp⟩
    | some f =>
      let u : Loading := { t with exe := { f with pos := 0 } }
      obtain ⟨r, s', run', kept, loaded⟩ := loadFile_spec (s := u) good rfl
      refine ⟨r, s', run', .inl kept.good, kept.installed, fun eip esp e => ?_⟩
      obtain ⟨entry, stack, complete⟩ := loaded eip esp e
      exact ⟨f, u, rfl, rfl, fun va => rfl, entry, stack, complete⟩
  · have set : (space (setPagedir none)).run s = (.ok (), { s with pagedir := none }) := rfl
    rw [run_bind_ok (run_space run), run_bind_ok set]
    exact ⟨none, _, rfl, .inr ⟨rfl, rfl⟩, ⟨[], rfl, by simp⟩, by simp⟩

/-- The counters of `load_segment` never wrap around and the loop ends after some rounds. -/
def NoWrap (g : Segment) : Prop :=
  ∃ rounds, (Segment.next^[rounds] g).readBytes = 0 ∧ (Segment.next^[rounds] g).zeroBytes = 0 ∧
    ∀ n < rounds, (Segment.next^[n] g).pageReadBytes.toNat ≤ (Segment.next^[n] g).readBytes.toNat ∧
      (Segment.next^[n] g).pageZeroBytes.toNat ≤ (Segment.next^[n] g).zeroBytes.toNat ∧
      (Segment.next^[n] g).upage.toNat + pgsize < 2 ^ 32

theorem noWrap_of_fits (h : g.Fits pages) : NoWrap g := by
  induction pages generalizing g with
  | zero =>
    obtain ⟨read, zero⟩ := h.done_iff.mpr rfl
    exact ⟨0, read, zero, fun n lt => absurd lt (Nat.not_lt_zero n)⟩
  | succ pages ih =>
    obtain ⟨fits, readBound, zeroBound⟩ := h.next
    obtain ⟨rounds, read, zero, bounds⟩ := ih fits
    refine ⟨rounds + 1, read, zero, fun n lt => ?_⟩
    cases n with
    | zero =>
      have high := h.high
      refine ⟨readBound, zeroBound, ?_⟩
      rw [Function.iterate_zero, id, pgsize, pgbits]
      omega
    | succ n => exact bounds n (Nat.lt_of_succ_lt_succ lt)

/-- The sizes that `load` computes from a header that has been checked are the ones that it
means. -/
def SizesExact (phdr : Phdr) : Prop :=
  phdr.vaddr.toNat % pgsize + phdr.memsz.toNat + (pgsize - 1) < 2 ^ 32 ∧
    phdr.segment.readBytes.toNat =
      (if 0 < phdr.filesz.toNat then phdr.vaddr.toNat % pgsize + phdr.filesz.toNat else 0) ∧
    phdr.segment.readBytes.toNat + phdr.segment.zeroBytes.toNat =
      (phdr.vaddr.toNat % pgsize + phdr.memsz.toNat + (pgsize - 1)) / pgsize * pgsize

theorem sizesExact_of_valid (h : Valid phdr length) : SizesExact phdr := by
  obtain ⟨fits, read, -⟩ := segment_spec h
  have total := fits.total
  have high := h.high
  refine ⟨?_, read, ?_⟩
  · simp only [pgsize, pgbits]
    omega
  · rw [total, Nat.mul_comm]
    rfl

/-- No executable breaks the loader: `load` returns, whatever the file holds and whenever
memory runs out, maps user pages other than the first only, and computes sizes and loop
counters without wrapping around. -/
theorem load_safe (s : Loading) (file : Option OpenFile) :
    (∃ r s', (load file).run s = (.ok r, s') ∧ ∃ new, s'.installed = new ++ s.installed ∧
      ∀ u ∈ new, pgsize ≤ u.toNat ∧ u.toNat < physBase.toNat) ∧
    ∀ f phdr, file = some f → validateSegment phdr f.content.length = true →
      SizesExact phdr ∧ NoWrap phdr.segment := by
  refine ⟨?_, fun f phdr _ checked => ?_⟩
  · obtain ⟨r, s', run, -, installed, -⟩ := load_spec s file
    exact ⟨r, s', run, installed⟩
  · have valid := validateSegment_valid f.length_lt checked
    exact ⟨sizesExact_of_valid valid, noWrap_of_fits (segment_spec valid).1⟩

/-- The page of `va` has a part of the segment. -/
def OnPages (phdr : Phdr) (va : BitVec 32) : Prop :=
  phdr.vaddr.toNat / pgsize ≤ va.toNat / pgsize ∧
    va.toNat / pgsize ≤ (phdr.vaddr.toNat + phdr.memsz.toNat - 1) / pgsize

/-- User memory is what an executable asks for: the bytes of its segments with zeros after
them, in pages that can be written if the header says so, and a page of zeros for the
stack. -/
structure Image (content : List UInt8) (s : Space) : Prop where
  bytes : ∀ i < (ehdrOf content).phnum, (phdrOf content i).type = ptLoad →
    ∀ k < (phdrOf content i).filesz.toNat,
      ∃ b, content[(phdrOf content i).offset.toNat + k]? = some b ∧
        view s ((phdrOf content i).vaddr + BitVec.ofNat 32 k) =
          some ((phdrOf content i).writable, b)
  zeros : ∀ i < (ehdrOf content).phnum, (phdrOf content i).type = ptLoad →
    ∀ k, (phdrOf content i).filesz.toNat ≤ k → k < (phdrOf content i).memsz.toNat →
    view s ((phdrOf content i).vaddr + BitVec.ofNat 32 k) = some ((phdrOf content i).writable, 0)
  writable : ∀ i < (ehdrOf content).phnum, (phdrOf content i).type = ptLoad →
    ∀ va, OnPages (phdrOf content i) va → ∃ b, view s va = some ((phdrOf content i).writable, b)
  stack : ∀ va, va.toNat / pgsize = stackPage.toNat / pgsize → view s va = some (true, 0)
  only : ∀ va, view s va ≠ none → va.toNat / pgsize = stackPage.toNat / pgsize ∨
    ∃ i < (ehdrOf content).phnum, (phdrOf content i).type = ptLoad ∧ OnPages (phdrOf content i) va

theorem covers_iff (valid : Valid phdr length) (va : BitVec 32) :
    Covers phdr va ↔ OnPages phdr va := by
  have pos := valid.pos
  simp only [Covers, OnPages, Phdr.pages, pgsize, pgbits]
  omega

section

variable (valid : Valid phdr length) (lt : k < phdr.memsz.toNat)
include valid lt

theorem add_toNat : (phdr.vaddr + BitVec.ofNat 32 k).toNat = phdr.vaddr.toNat + k := by
  have high := valid.high
  rw [BitVec.toNat_add, BitVec.toNat_ofNat]
  omega

theorem covers_add : Covers phdr (phdr.vaddr + BitVec.ofNat 32 k) := by
  simp only [Covers, Phdr.pages, add_toNat valid lt]
  omega

theorem imageByte_add :
    imageByte content phdr (phdr.vaddr + BitVec.ofNat 32 k) =
      if k < phdr.filesz.toNat then content.getD (phdr.offset.toNat + k) 0 else 0 := by
  have same := valid.same
  rw [imageByte, segmentByte, add_toNat valid lt]
  by_cases file : k < phdr.filesz.toNat
  · have read : phdr.fileBytes = phdr.vaddr.toNat % 4096 + phdr.filesz.toNat :=
      if_pos (Nat.lt_of_le_of_lt (Nat.zero_le k) file)
    have index : phdr.offset.toNat / 4096 * 4096 +
        (phdr.vaddr.toNat + k - phdr.vaddr.toNat / 4096 * 4096) = phdr.offset.toNat + k := by omega
    rw [if_pos file, if_pos (by omega), index]
  have read : phdr.fileBytes ≤ phdr.vaddr.toNat % 4096 + phdr.filesz.toNat := by
    rw [Phdr.fileBytes]
    split_ifs
    · exact Nat.le_refl _
    · exact Nat.zero_le _
  rw [if_neg file, if_neg (by omega)]

end

theorem Complete.image (same : s.exe.content = content) (empty : ∀ va, view s.toSpace va = none)
    (h : Complete content s s') : Image content s'.toSpace := by
  obtain ⟨t, ⟨valid, enough, -, new, old⟩, fresh, seen⟩ := h
  rw [same] at valid enough new
  generalize listed : phdrsAt content _ _ = phdrs at *
  have mem : ∀ i < (ehdrOf content).phnum, phdrOf content i ∈ phdrs :=
    fun i lt => listed ▸ mem_phdrsAt.mpr ⟨i, lt, rfl⟩
  have shown : ∀ phdr ∈ phdrs, phdr.type = ptLoad → ∀ va, Covers phdr va →
      view s'.toSpace va = some (phdr.writable, imageByte content phdr va) := by
    intro phdr mem load va covers
    have new := new phdr mem load va covers
    rw [seen, if_neg, new]
    intro here
    rw [fresh va here] at new
    cases new
  refine ⟨fun i lt load k inside => ?_, fun i lt load k beyond inside => ?_,
    fun i lt load va on => ?_, fun va here => (seen va).trans (if_pos here), fun va there => ?_⟩
  · have valid := valid _ (mem i lt) load
    have inside' := Nat.lt_of_lt_of_le inside valid.sizes
    have room : (phdrOf content i).offset.toNat + k < content.length := by
      have enough := enough _ (mem i lt) load
      have same := valid.same
      rw [Phdr.fileBytes, if_pos (by omega)] at enough
      omega
    refine ⟨_, List.getElem?_eq_getElem room, ?_⟩
    rw [shown _ (mem i lt) load _ (covers_add valid inside'), imageByte_add valid inside',
      if_pos inside, List.getD_eq_getElem _ _ room]
  · have valid := valid _ (mem i lt) load
    rw [shown _ (mem i lt) load _ (covers_add valid inside), imageByte_add valid inside,
      if_neg (Nat.not_lt.mpr beyond)]
  · exact ⟨_, shown _ (mem i lt) load va ((covers_iff (valid _ (mem i lt) load) va).mpr on)⟩
  · by_contra off
    obtain ⟨notStack, notSegment⟩ := not_or.mp off
    have uncovered : ∀ phdr ∈ phdrs, phdr.type = ptLoad → ¬ Covers phdr va := by
      intro phdr member load covers
      have on := (covers_iff (valid _ member load) va).mp covers
      obtain ⟨i, lt, rfl⟩ := mem_phdrsAt.mp (listed ▸ member)
      exact notSegment ⟨i, lt, load, on⟩
    exact there ((seen va).trans ((if_neg notStack).trans ((old va uncovered).trans (empty va))))

theorem load_image {s s' : Loading} {file : OpenFile} {eip esp : BitVec 32}
    (run : (load (some file)).run s = (.ok (some (eip, esp)), s')) :
    eip = (ehdrOf file.content).entry ∧ esp = physBase ∧ Image file.content s'.toSpace := by
  obtain ⟨r, t, run', -, -, loaded⟩ := load_spec s (some file)
  rw [run] at run'
  cases run'
  obtain ⟨f, u, e, same, empty, entry, stack, complete⟩ := loaded eip esp rfl
  cases e
  exact ⟨entry, stack, complete.image same empty⟩

/-- An executable with one segment of four bytes, of which the file has the two of a jump to
itself. -/
def spin : OpenFile where
  content := [0x7f, 0x45, 0x4c, 0x46, 1, 1, 1, 0, 0, 0, 0, 0, 0, 0, 0, 0, 2, 0, 3, 0, 1, 0, 0, 0,
    0x54, 0x80, 4, 8, 52, 0, 0, 0, 0, 0, 0, 0, 0, 0, 0, 0, 52, 0, 32, 0, 1, 0, 0, 0, 0, 0, 0, 0,
    1, 0, 0, 0, 0x54, 0, 0, 0, 0x54, 0x80, 4, 8, 0x54, 0x80, 4, 8, 2, 0, 0, 0, 4, 0, 0, 0,
    5, 0, 0, 0, 0, 0x10, 0, 0, 0xeb, 0xfe]
  pos := 0
  limits := []
  length_lt := by decide

def idle : Loading where
  kernelPool := ⟨⟨3, [0], allFree_length, by decide⟩, 0xc0100000, 3, rfl, kernelStart_aligned,
    kernelStart_above⟩
  userPool := ⟨⟨2, [0], allFree_length, twoPages_small⟩, 0xc0103000, 2, rfl, by decide, by decide⟩
  initRamPages := 0x105
  ram _ := 0xcc
  apart := by decide
  room := by decide
  fits := by decide
  pagedir := none
  exe := ⟨[], 0, [], by decide⟩
  installed := []

theorem load_image_spin : ((load (some spin)).run idle).1 = .ok (some (0x08048054, physBase)) ∧
    Image spin.content ((load (some spin)).run idle).2.toSpace := by
  have returns : ((load (some spin)).run idle).1 = .ok (some (0x08048054, physBase)) := by rfl
  exact ⟨returns, (load_image (Prod.ext returns rfl)).2.2⟩

end Runs

end Pintos.LoaderRuns
