import Mathlib.Data.List.Nodup
import Pintos.PageWords
import Pintos.Transition

/-! A page directory is a finite map of user pages. The words of the directory and of
its tables show the map, and each function of `userprog/pagedir.c` does to it what its
name says. -/

namespace Pintos.PageMap
open Vaddr PageWords Transition Function
open List (append_assoc forall_mem_cons mem_range mem_singleton nodup_range)
open Option (bind_eq_bind bind_eq_some_iff bind_some map_eq_some_iff map_some some.inj some.injEq)

/-- What user pages are mapped to, by page number. -/
abbrev UserMap := Nat → Option Mapping

/-- A word of a page table, for a page that is mapped or not. -/
def Entry (w : BitVec 32) : Option Mapping → Prop
  | none => w.getLsbD 0 = false
  | some m => Encodes w m

theorem Mapping.setFlag_kpage (m : Mapping) (value : Bool) (f : Flag) :
    (m.setFlag value f).kpage = m.kpage := by
  cases f <;> rfl

theorem Entry.setFlag {w : BitVec 32} {x : Option Mapping} (h : Entry w x) (f : Flag)
    (value : Bool) :
    Entry (if value then w ||| f.mask else w &&& ~~~f.mask) (x.map (·.setFlag value f)) := by
  have range := f.bit_range
  cases x with
  | none => exact (flag_bits w f value (by decide)).trans (by rw [if_neg (by omega)]; exact h)
  | some m => exact Encodes.change h f fun i lt => flag_bits w f value lt

/-- The pages that the allocator gave since `before`. -/
def Own (before s : State) (p : BitVec 32) : Prop := p ∈ s.taken ∧ p ∉ before.taken

/-- The directory `pd` with its page tables shows `map`; `before` is the state in which it
was made. -/
structure Shows (k : Kernel) (before : State) (pd : BitVec 32)
    (tables : Nat → Option (BitVec 32)) (map : UserMap) (s : State) : Prop where
  page : IsPage pd
  notInit : pd ≠ k.initPageDir
  cr3 : s.cr3 < physBase
  isTable : ∀ i pt, tables i = some pt → i < 768 ∧ IsPage pt ∧ pt ≠ pd
  apart : ∀ i j pt, tables i = some pt → tables j = some pt → i = j
  kept : ∀ p ∈ before.taken, p ∈ s.taken
  own : ∀ p, Own before s p ↔ p = pd ∨ ∃ i, tables i = some p
  pde : ∀ i < 768, s.mem (word pd i) = ((tables i).map pdeOf).getD 0#32
  kernel : ∀ i, 768 ≤ i → i < 1024 → s.mem (word pd i) = before.mem (word k.initPageDir i)
  rest : ∀ x, ¬Own before s (pgRoundDown x) → s.mem x = before.mem x
  untabled : ∀ n, tables (n / 1024) = none → map n = none
  entry : ∀ n pt, tables (n / 1024) = some pt → Entry (s.mem (word pt (n % 1024))) (map n)
  frame : ∀ n m, map n = some m → IsPage m.kpage
  distinct : ∀ n n' m m', map n = some m → map n' = some m' → m.kpage = m'.kpage → n = n'
variable {i : Nat} {pt : BitVec 32}

section Steps

variable {k : Kernel} {before s : State} {pd va : BitVec 32} {tables : Nat → Option (BitVec 32)}
  {map : UserMap}

theorem pdNo_eq (va : BitVec 32) : (pdNo va).toNat = (pgNo va).toNat / 1024 := by
  rw [pdNo_toNat, pgNo_toNat]
  omega

theorem ptNo_eq (va : BitVec 32) : (ptNo va).toNat = (pgNo va).toNat % 1024 := by
  rw [ptNo_toNat, pgNo_toNat]

theorem pgNo_user (user : isUserVaddr va = true) : (pgNo va).toNat / 1024 < 768 := by
  rw [isUserVaddr_iff] at user
  rw [pgNo_toNat]
  omega

theorem Shows.lookup_false (h : Shows k before pd tables map s) (user : isUserVaddr va = true) :
    lookupPage pd va false none s =
      some ((tables ((pgNo va).toNat / 1024)).map (word · ((pgNo va).toNat % 1024)), s) := by
  have entry := h.pde _ (pgNo_user user)
  simp only [lookupPage, guard, if_pos h.page.ne_zero, pdNo_eq, ptNo_eq]
  cases known : tables ((pgNo va).toNat / 1024) with
  | none =>
    rw [known] at entry
    simp [entry]
  | some pt =>
    have page := (h.isTable _ _ known).2.1
    have nonzero : ¬pdeOf pt = 0#32 := page.pdeOf_ne_zero
    rw [known] at entry
    simp [entry, nonzero, page.pdeGetPt]

/-- A page that the allocator may return. -/
def Fresh (s : State) (grant : Option (BitVec 32)) : Prop :=
  ∀ page, grant = some page → IsPage page ∧ page ∉ s.taken

/-- The state once a page is taken for the table at index `i`. -/
def withTable (s : State) (pd page : BitVec 32) (i : Nat) : State :=
  ({ s with taken := s.taken ++ [page] }.fill page fun _ => 0#32).store (word pd i) (pdeOf page)

theorem withTable_mem (s : State) (pd page : BitVec 32) (i : Nat) (x : BitVec 32) :
    (withTable s pd page i).mem x =
      if x = word pd i then pdeOf page else if pgRoundDown x = page then 0#32 else s.mem x := by
  simp only [withTable, State.store, State.fill, update_apply]

theorem Shows.newTable (h : Shows k before pd tables map s) (lt : i < 768)
    (missing : tables i = none) {page : BitVec 32} (isPage : IsPage page) (fresh : page ∉ s.taken) :
    Shows k before pd (update tables i (some page)) map (withTable s pd page i) := by
  have ne : pd ≠ page := fun same => fresh ((h.own page).mpr (.inl same.symm)).1
  have unused (j : Nat) : tables j ≠ some page := fun used =>
    fresh ((h.own page).mpr (.inr ⟨j, used⟩)).1
  have grown (p : BitVec 32) : Own before (withTable s pd page i) p ↔ Own before s p ∨ p = page := by
    have taken : p ∈ (withTable s pd page i).taken ↔ p ∈ s.taken ∨ p = page := by
      simp [withTable, State.store, State.fill]
    rw [Own, Own, taken, or_and_right]
    refine or_congr_right (and_iff_left_of_imp fun same old => fresh ?_)
    exact same ▸ h.kept p old
  have inDirectory {j : Nat} (inside : j < 1024) :
      (withTable s pd page i).mem (word pd j) = if j = i then pdeOf page else s.mem (word pd j) := by
    rw [withTable_mem, pgRoundDown_word h.page inside, if_neg ne]
    simp only [word_inj h.page inside h.page (show i < 1024 by omega), true_and]
  have inTable {pt : BitVec 32} (table : IsPage pt) (other : pt ≠ pd) {j : Nat} (inside : j < 1024) :
      (withTable s pd page i).mem (word pt j) =
        if pt = page then 0#32 else s.mem (word pt j) := by
    rw [withTable_mem, pgRoundDown_word table inside, if_neg]
    rw [word_inj table inside h.page (by omega)]
    exact fun same => other same.1
  refine ⟨h.page, h.notInit, h.cr3, fun j pt known => ?_, fun j j' pt known known' => ?_,
    fun p old => List.mem_append_left _ (h.kept p old), fun p => ?_, fun j inside => ?_, fun j high inside => ?_, fun x outside => ?_,
    fun n unknown => ?_, fun n pt known => ?_, h.frame, h.distinct⟩
  · rw [update_apply] at known
    split at known
    · next same =>
      obtain rfl := some.inj known
      exact ⟨same ▸ lt, isPage, ne.symm⟩
    · exact h.isTable j pt known
  · rw [update_apply] at known known'
    split at known
    · next same =>
      obtain rfl := some.inj known
      split at known'
      · next same' => exact same.trans same'.symm
      · exact absurd known' (unused j')
    · split at known'
      · obtain rfl := some.inj known'
        exact absurd known (unused j)
      · exact h.apart j j' pt known known'
  · rw [grown, h.own]
    constructor
    · rintro ((same | ⟨j, known⟩) | same)
      · exact .inl same
      · have old : j ≠ i := fun same => by rw [same, missing] at known; cases known
        exact .inr ⟨j, by rw [update_of_ne old, known]⟩
      · exact .inr ⟨i, by rw [update_self, same]⟩
    rintro (same | ⟨j, known⟩)
    · exact .inl (.inl same)
    · rw [update_apply] at known
      split at known
      · exact .inr (some.inj known).symm
      · exact .inl (.inr ⟨j, known⟩)
  · rw [inDirectory (by omega), update_apply]
    split
    · rfl
    · exact h.pde j inside
  · rw [inDirectory inside, if_neg (by omega)]
    exact h.kernel j high inside
  · rw [grown, not_or] at outside
    have off : x ≠ word pd i := fun same => outside.1 <| by
      rw [same, pgRoundDown_word h.page (by omega)]
      exact (h.own pd).mpr (.inl rfl)
    rw [withTable_mem, if_neg off, if_neg outside.2]
    exact h.rest x outside.1
  · rw [update_apply] at unknown
    split at unknown
    · cases unknown
    · exact h.untabled n unknown
  · have inside : n % 1024 < 1024 := Nat.mod_lt _ (by decide)
    rw [update_apply] at known
    split at known
    · next same =>
      obtain rfl := some.inj known
      rw [inTable isPage ne.symm inside, if_pos rfl, h.untabled n (same ▸ missing)]
      rfl
    · obtain ⟨-, table, other⟩ := h.isTable _ _ known
      rw [inTable table other inside, if_neg fun same => unused _ (same ▸ known)]
      exact h.entry n pt known

theorem Shows.lookup_true (h : Shows k before pd tables map s) (user : isUserVaddr va = true)
    {grant : Option (BitVec 32)} (fresh : Fresh s grant) :
    (∃ tables' pt s', lookupPage pd va true grant s =
        some (some (word pt ((pgNo va).toNat % 1024)), s') ∧
      Shows k before pd tables' map s' ∧ tables' ((pgNo va).toNat / 1024) = some pt) ∨
    (grant = none ∧ lookupPage pd va true grant s = some (none, s)) := by
  have low := pgNo_user user
  have entry := h.pde _ low
  simp only [lookupPage, guard, if_pos h.page.ne_zero, user, pdNo_eq, ptNo_eq]
  cases known : tables ((pgNo va).toNat / 1024) with
  | some pt =>
    have page := (h.isTable _ _ known).2.1
    have nonzero : ¬pdeOf pt = 0#32 := page.pdeOf_ne_zero
    rw [known] at entry
    exact .inl ⟨tables, pt, s, by simp [entry, nonzero, page.pdeGetPt], h, known⟩
  | none =>
    rw [known] at entry
    cases grant with
    | none => exact .inr ⟨rfl, by simp [entry, pallocGetPage]⟩
    | some page =>
      obtain ⟨isPage, unused⟩ := fresh page rfl
      refine .inl ⟨_, page, withTable s pd page ((pgNo va).toNat / 1024), ?_,
        h.newTable low known isPage unused, update_self ..⟩
      have found : pdeGetPt ((withTable s pd page ((pgNo va).toNat / 1024)).mem
          (word pd ((pgNo va).toNat / 1024))) = some page := by
        rw [withTable_mem, if_pos rfl, isPage.pdeGetPt]
      rw [withTable] at found
      simp [entry, pallocGetPage, isPage.pdeCreate, found, withTable]

theorem Shows.store (h : Shows k before pd tables map s) {n : Nat}
    (known : tables (n / 1024) = some pt) {w : BitVec 32} {x : Option Mapping} (entry : Entry w x)
    (frame : ∀ m, x = some m → IsPage m.kpage)
    (single : ∀ m n' m', x = some m → map n' = some m' → m.kpage = m'.kpage → n' = n) :
    Shows k before pd tables (update map n x) (s.store (word pt (n % 1024)) w) := by
  obtain ⟨low, table, other⟩ := h.isTable _ _ known
  have inside (n : Nat) : n % 1024 < 1024 := Nat.mod_lt _ (by decide)
  have mem (y : BitVec 32) : (s.store (word pt (n % 1024)) w).mem y =
      if y = word pt (n % 1024) then w else s.mem y := update_apply ..
  have inDirectory {j : Nat} (lt : j < 1024) :
      (s.store (word pt (n % 1024)) w).mem (word pd j) = s.mem (word pd j) := by
    rw [mem, if_neg]
    rw [word_inj h.page lt table (inside n)]
    exact fun same => other same.1.symm
  refine ⟨h.page, h.notInit, h.cr3, h.isTable, h.apart, h.kept, h.own, fun j lt => ?_,
    fun j high lt => ?_, fun y outside => ?_, fun n' unknown => ?_, fun n' pt' known' => ?_,
    fun n' m bound => ?_, fun a b m m' bound bound' same => ?_⟩
  · rw [inDirectory (by omega)]
    exact h.pde j lt
  · rw [inDirectory lt]
    exact h.kernel j high lt
  · rw [mem, if_neg]
    · exact h.rest y outside
    · intro same
      apply outside
      rw [same, pgRoundDown_word table (inside n)]
      exact (h.own pt).mpr (.inr ⟨_, known⟩)
  · have ne : n' ≠ n := fun same => by rw [same, known] at unknown; cases unknown
    rw [update_of_ne ne]
    exact h.untabled n' unknown
  · obtain ⟨-, table', -⟩ := h.isTable _ _ known'
    simp only [mem, word_inj table' (inside n') table (inside n)]
    by_cases same : n' = n
    · subst same
      rw [known, some.injEq] at known'
      rw [if_pos ⟨known'.symm, rfl⟩, update_self]
      exact entry
    · rw [if_neg, update_of_ne same]
      · exact h.entry n' pt' known'
      · intro both
        have index := h.apart _ _ _ known' (both.1 ▸ known)
        omega
  · rw [update_apply] at bound
    split at bound
    · exact frame m bound
    · exact h.frame n' m bound
  · rw [update_apply] at bound bound'
    split at bound
    · next here =>
      split at bound'
      · next here' => exact here.trans here'.symm
      · exact here.trans (single m b m' bound bound' same).symm
    · split at bound'
      · next here' => exact (single m' a m bound' bound same.symm).trans here'.symm
      · exact h.distinct a b m m' bound bound' same

theorem invalidatePagedir_eq (page : IsPage pd) (low : s.cr3 < physBase) :
    invalidatePagedir k pd s = some s := by
  have active : activePd s = some (s.cr3 + physBase) := if_pos low
  rw [invalidatePagedir, active, bind_eq_bind, bind_some]
  by_cases same : s.cr3 + physBase = pd
  · have register : pd - physBase = s.cr3 := by
      rw [← same, BitVec.add_sub_cancel]
    rw [if_pos same, pagedirActivate]
    simp only [if_neg page.ne_zero]
    rw [page.vtop_eq, register]
    rfl
  · rw [if_neg same]
    rfl

section

variable (h : Shows k before pd tables map s) (user : isUserVaddr va = true)
include h user

theorem Shows.getPage :
    pagedirGetPage pd va s = some ((map (pgNo va).toNat).map fun m => m.kpage + pgOfs va) := by
  simp only [pagedirGetPage, guard, if_pos user, h.lookup_false user]
  cases known : tables ((pgNo va).toNat / 1024) with
  | none =>
    rw [h.untabled _ known]
    rfl
  | some pt =>
    have entry := h.entry _ _ known
    cases bound : map (pgNo va).toNat with
    | none =>
      rw [bound] at entry
      simp [and_pteP entry]
    | some m =>
      rw [bound] at entry
      simp [entry.present_ne, entry.pteGetPage (h.frame _ _ bound)]

theorem Shows.isFlag (f : Flag) :
    ∃ b, isFlag f pd va s = some b ∧ ∀ m, map (pgNo va).toNat = some m → b = m.flag f := by
  rw [PageWords.isFlag, h.lookup_false user]
  cases known : tables ((pgNo va).toNat / 1024) with
  | none =>
    refine ⟨false, rfl, fun m bound => ?_⟩
    rw [h.untabled _ known] at bound
    cases bound
  | some pt =>
    refine ⟨_, rfl, fun m bound => ?_⟩
    have entry := h.entry _ _ known
    rw [bound] at entry
    exact Bool.eq_iff_iff.mpr (decide_eq_true_iff.trans (entry.flag f))

theorem Shows.setFlag (f : Flag) (value : Bool) :
    ∃ s', setFlag f k pd va value s = some s' ∧ Shows k before pd tables
      (update map (pgNo va).toNat ((map (pgNo va).toNat).map (·.setFlag value f))) s' := by
  rw [PageWords.setFlag, h.lookup_false user]
  cases known : tables ((pgNo va).toNat / 1024) with
  | none =>
    refine ⟨s, rfl, ?_⟩
    have absent := h.untabled _ known
    rw [absent, Option.map_none, ← absent, update_eq_self]
    exact h
  | some pt =>
    have entry := h.entry _ _ known
    have stored := h.store (x := (map (pgNo va).toNat).map (·.setFlag value f)) known
      (entry.setFlag f value) (fun m changed => ?_) (fun m n' m' changed bound same => ?_)
    · cases value with
      | false => exact ⟨_, invalidatePagedir_eq h.page h.cr3, stored⟩
      | true => exact ⟨_, rfl, stored⟩
    · obtain ⟨old, bound, rfl⟩ := map_eq_some_iff.mp changed
      rw [Mapping.setFlag_kpage]
      exact h.frame _ _ bound
    · obtain ⟨old, bound', rfl⟩ := map_eq_some_iff.mp changed
      rw [Mapping.setFlag_kpage] at same
      exact h.distinct _ _ _ _ bound bound' same.symm

theorem Shows.clearPage (aligned : pgOfs va = 0#32) : ∃ s', pagedirClearPage k pd va s = some s' ∧
    Shows k before pd tables (update map (pgNo va).toNat none) s' := by
  simp only [pagedirClearPage, guard, if_pos aligned, if_pos user, h.lookup_false user]
  have unchanged (absent : map (pgNo va).toNat = none) :
      Shows k before pd tables (update map (pgNo va).toNat none) s := by
    rw [← absent, update_eq_self]
    exact h
  cases known : tables ((pgNo va).toNat / 1024) with
  | none => exact ⟨s, rfl, unchanged (h.untabled _ known)⟩
  | some pt =>
    have entry := h.entry _ _ known
    cases bound : map (pgNo va).toNat with
    | none =>
      rw [bound] at entry
      exact ⟨s, by simp [and_pteP entry], unchanged bound⟩
    | some m =>
      rw [bound] at entry
      have cleared : Entry (s.mem (word pt ((pgNo va).toNat % 1024)) &&& ~~~pteP) none := by
        rw [Entry, pteP_eq, getLsbD_and_not_twoPow (by decide), if_pos rfl]
      have stored := h.store known cleared (fun _ none => nomatch none)
        (fun _ _ _ none => nomatch none)
      refine ⟨s.store (word pt ((pgNo va).toNat % 1024))
        (s.mem (word pt ((pgNo va).toNat % 1024)) &&& ~~~pteP), ?_, stored⟩
      simp [entry.present_ne, invalidatePagedir_eq stored.page stored.cr3]

theorem Shows.setPage (aligned : pgOfs va = 0#32) (absent : map (pgNo va).toNat = none)
    {kpage : BitVec 32} (isPage : IsPage kpage) (inRam : (kpage - physBase) >>> 12 < k.initRamPages)
    (unmapped : ∀ n m, map n = some m → m.kpage ≠ kpage) (writable : Bool)
    {grant : Option (BitVec 32)} (fresh : Fresh s grant) :
    (∃ tables' s', pagedirSetPage k pd va kpage writable grant s = some (true, s') ∧
      Shows k before pd tables' (update map (pgNo va).toNat
        (some ⟨kpage, writable, false, false⟩)) s') ∨
    (grant = none ∧ pagedirSetPage k pd va kpage writable grant s = some (false, s)) := by
  simp only [pagedirSetPage, guard, if_pos aligned, if_pos isPage.pgOfs_eq, if_pos user,
    isPage.vtop_eq, if_pos h.notInit]
  obtain ⟨w, created, encodes⟩ := isPage.pteCreateUser writable
  rcases h.lookup_true user fresh with ⟨tables', pt, s', found, shows, known⟩ | ⟨none, found⟩
  · have entry := shows.entry _ _ known
    rw [absent] at entry
    refine .inl ⟨tables', s'.store (word pt ((pgNo va).toNat % 1024)) w, ?_,
      shows.store known encodes (fun m same => ?_) (fun m n' m' same bound equal => ?_)⟩
    · simp [inRam, found, and_pteP entry, created]
    · obtain rfl := some.inj same
      exact isPage
    · obtain rfl := some.inj same
      exact absurd equal.symm (unmapped n' m' bound)
  · exact .inr ⟨none, by simp [inRam, found]⟩

end

theorem copied (page : IsPage pd) (lt : i < 1024) :
    (pagedirCreate k (some pd) before).2.mem (word pd i) = before.mem (word k.initPageDir i) := by
  have offset : pgOfs (word pd i) = BitVec.ofNat 32 (4 * i) := by
    have aligned := page.1
    apply BitVec.eq_of_toNat_eq
    rw [pgOfs_toNat, word_toNat page lt, BitVec.toNat_ofNat]
    omega
  simp only [pagedirCreate, pallocGetPage, State.fill, pgRoundDown_word page lt, if_true, offset]
  rfl

/-- After `paging_init`: the kernel's directory maps no user page. -/
structure Booted (k : Kernel) (s : State) : Prop where
  held : k.initPageDir ∈ s.taken
  user : ∀ i < 768, s.mem (word k.initPageDir i) = 0#32
  cr3 : s.cr3 < physBase

theorem ptov_ram {n : Nat} (lt : n < 262144) :
    ∃ va, ptov (BitVec.ofNat 32 (n * pgsize)) = some va ∧ 768 ≤ (pdNo va).toNat := by
  have size : pgsize = 4096 := rfl
  have value : (BitVec.ofNat 32 (n * pgsize)).toNat = n * 4096 := by
    rw [BitVec.toNat_ofNat, size]
    omega
  have low : BitVec.ofNat 32 (n * pgsize) < physBase := by
    rw [BitVec.lt_def, value, physBase_toNat]
    omega
  refine ⟨BitVec.ofNat 32 (n * pgsize) + physBase, if_pos low, ?_⟩
  rw [pdNo_toNat, BitVec.toNat_add, value, physBase_toNat]
  omega

theorem word_ne (page : IsPage pd) (apart : pt = 0#32 ∨ IsPage pt ∧ pt ≠ pd) {j : Nat}
    (lt : i < 1024) (lt' : j < 1024) : word pd i ≠ word pt j := by
  rcases apart with rfl | ⟨table, other⟩
  · intro same
    have place := congrArg BitVec.toNat same
    have high := page.2
    rw [word_toNat page lt, word, BitVec.zero_add, BitVec.toNat_ofNat] at place
    rw [physBase_toNat] at high
    omega
  · rw [Ne, word_inj page lt table lt']
    exact fun same => other same.1.symm

theorem ptNo_lt (va : BitVec 32) : (ptNo va).toNat < 1024 := by
  rw [ptNo_eq]
  exact Nat.mod_lt _ (by decide)

theorem pdNo_lt (va : BitVec 32) : (pdNo va).toNat < 1024 := by
  have small := va.isLt
  rw [pdNo_toNat]
  omega

theorem pagingLoop_user {inKernelText : BitVec 32 → Bool} {pages : List Nat}
    {grants : List (BitVec 32)} {s' : State} (page : IsPage pd) (ram : ∀ n ∈ pages, n < 262144)
    (apart : pt = 0#32 ∨ IsPage pt ∧ pt ≠ pd) (each : ∀ g ∈ grants, IsPage g ∧ g ≠ pd)
    (clear : ∀ i < 768, s.mem (word pd i) = 0#32)
    (ran : pagingLoop pd inKernelText pages pt grants s = some s') :
    (∀ i < 768, s'.mem (word pd i) = 0#32) ∧ ∀ p ∈ s.taken, p ∈ s'.taken := by
  induction pages generalizing pt grants s with
  | nil =>
    obtain rfl := some.inj ran
    exact ⟨clear, fun _ here => here⟩
  | cons n rest ih =>
    rw [forall_mem_cons] at ram
    obtain ⟨va, found, high⟩ := ptov_ram ram.1
    rw [pagingLoop, found, bind_eq_bind, bind_some] at ran
    by_cases missing : s.mem (word pd (pdNo va).toNat) = 0#32
    · simp only [if_pos missing] at ran
      cases grants with
      | nil => cases ran
      | cons g grants =>
        obtain ⟨table, other⟩ := (forall_mem_cons.mp each).1
        obtain ⟨pde, -, ran⟩ := bind_eq_some_iff.mp ran
        obtain ⟨pte, -, ran⟩ := bind_eq_some_iff.mp ran
        refine (ih ram.2 (.inr ⟨table, other⟩) (forall_mem_cons.mp each).2
          (fun i lt => ?_) ran).imp_right fun grown p here =>
            grown p (List.mem_append_left _ here)
        have first : word pd i ≠ word g (ptNo va).toNat :=
          word_ne page (.inr ⟨table, other⟩) (by omega) (ptNo_lt va)
        have second : word pd i ≠ word pd (pdNo va).toNat := by
          rw [Ne, word_inj page (by omega) page (pdNo_lt va)]
          omega
        have third : pgRoundDown (word pd i) ≠ g := by
          rw [pgRoundDown_word page (by omega)]
          exact other.symm
        simp only [State.store, update_of_ne first, update_of_ne second,
          pallocGetPage, if_true, State.fill, if_neg third]
        exact clear i lt
    · simp only [if_neg missing] at ran
      obtain ⟨pte, -, ran⟩ := bind_eq_some_iff.mp ran
      refine (ih ram.2 apart each (fun i lt => ?_) ran).imp_right fun grown => grown
      have other := word_ne page apart (show i < 1024 by omega) (ptNo_lt va)
      simp only [State.store, update_of_ne other]
      exact clear i lt

theorem pagingInit_booted {initRamPages : BitVec 32} {inKernelText : BitVec 32 → Bool}
    {grants : List (BitVec 32)} (ram : initRamPages.toNat ≤ 262144) (pages : ∀ g ∈ grants, IsPage g)
    (nodup : grants.Nodup) (ran : pagingInit initRamPages inKernelText grants s = some (k, before)) :
    Booted k before := by
  cases grants with
  | nil => cases ran
  | cons pd grants =>
    rw [forall_mem_cons] at pages
    rw [List.nodup_cons] at nodup
    obtain ⟨t, looped, ran⟩ := bind_eq_some_iff.mp ran
    rw [pages.1.vtop_eq, bind_eq_bind, bind_some, Option.pure_def, some.injEq,
      Prod.mk.injEq] at ran
    obtain ⟨rfl, rfl⟩ := ran
    obtain ⟨clear, kept⟩ := pagingLoop_user pages.1
      (fun n here => Nat.lt_of_lt_of_le (mem_range.mp here) ram) (.inl rfl)
      (fun g here => ⟨pages.2 g here, fun same => nodup.1 (same ▸ here)⟩)
      (fun i lt => if_pos (pgRoundDown_word pages.1 (by omega))) looped
    refine ⟨kept pd (List.mem_append_right _ (List.mem_singleton_self pd)), clear, ?_⟩
    have small := pd.isLt
    change pd - physBase < physBase
    rw [BitVec.lt_def, pages.1.sub_toNat, physBase_toNat]
    omega

theorem Booted.create (h : Booted k before) (page : IsPage pd) (fresh : pd ∉ before.taken) :
    Shows k before pd (fun _ => none) (fun _ => none) (pagedirCreate k (some pd) before).2 := by
  have own (p : BitVec 32) : Own before (pagedirCreate k (some pd) before).2 p ↔ p = pd := by
    have taken : p ∈ (pagedirCreate k (some pd) before).2.taken ↔ p ∈ before.taken ∨ p = pd := by
      simp [pagedirCreate, pallocGetPage, State.fill]
    rw [Own, taken]
    constructor
    · exact fun ⟨either, other⟩ => either.resolve_left other
    · exact fun same => ⟨.inr same, same ▸ fresh⟩
  refine ⟨page, fun same => fresh (same ▸ h.held), h.cr3, (fun _ _ known => nomatch known),
    (fun _ _ _ known => nomatch known), fun p old => List.mem_append_left _ old, fun p => ?_,
    fun i lt => (copied page (by omega)).trans (h.user i lt), fun i _ lt => copied page lt,
    fun x outside => ?_, fun _ _ => rfl, (fun _ _ known => nomatch known),
    (fun _ _ bound => nomatch bound), (fun _ _ _ _ bound => nomatch bound)⟩
  · rw [own]
    simp
  · rw [own] at outside
    exact if_neg outside

end Steps

section Destroy

variable {k : Kernel} {before s : State} {pd pt : BitVec 32} {tables : Nat → Option (BitVec 32)}
  {map : UserMap}

theorem pallocFreePage_mem (page x : BitVec 32) (other : pgRoundDown x ≠ page) (s : State) :
    (pallocFreePage page s).mem x = s.mem x :=
  if_neg other

def framesOf (map : UserMap) (i : Nat) (js : List Nat) : List (BitVec 32) :=
  js.filterMap fun j => (map (1024 * i + j)).map (·.kpage)

theorem destroyEntries_spec (page : IsPage pt) (i : Nat) {js : List Nat} (lt : ∀ j ∈ js, j < 1024)
    (entries : ∀ j ∈ js, Entry (s.mem (word pt j)) (map (1024 * i + j)))
    (frames : ∀ n m, map n = some m → IsPage m.kpage ∧ m.kpage ≠ pt) :
    ∃ s', destroyEntries pt js s = some s' ∧ s'.freed = s.freed ++ framesOf map i js ∧
      ∀ x, pgRoundDown x ∉ framesOf map i js → s'.mem x = s.mem x := by
  induction js generalizing s with
  | nil => exact ⟨s, rfl, (List.append_nil _).symm, fun _ _ => rfl⟩
  | cons j rest ih =>
    rw [forall_mem_cons] at lt entries
    rw [destroyEntries]
    cases bound : map (1024 * i + j) with
    | none =>
      rw [bound] at entries
      have skipped : framesOf map i (j :: rest) = framesOf map i rest := by
        simp [framesOf, bound]
      rw [skipped, if_neg (not_not.mpr (and_pteP entries.1))]
      exact ih lt.2 entries.2
    | some m =>
      rw [bound] at entries
      obtain ⟨isPage, other⟩ := frames _ m bound
      have headed : framesOf map i (j :: rest) = m.kpage :: framesOf map i rest := by
        simp [framesOf, bound]
      have untouched {x : Nat} (inside : x < 1024) :
          (pallocFreePage m.kpage s).mem (word pt x) = s.mem (word pt x) := by
        apply pallocFreePage_mem
        rw [pgRoundDown_word page inside]
        exact other.symm
      obtain ⟨s', ran, freed, mem⟩ := ih (s := pallocFreePage m.kpage s) lt.2
        (fun x here => by rw [untouched (lt.2 x here)]; exact entries.2 x here)
      refine ⟨s', ?_, ?_, fun x outside => ?_⟩
      · rw [if_pos entries.1.present_ne, entries.1.pteGetPage isPage]
        exact ran
      · rw [freed, headed]
        exact append_assoc ..
      · rw [headed, List.mem_cons, not_or] at outside
        rw [mem x outside.2, pallocFreePage_mem _ _ outside.1]

def pagesOf (tables : Nat → Option (BitVec 32)) (map : UserMap) (i : Nat) : List (BitVec 32) :=
  match tables i with
  | none => []
  | some pt => framesOf map i (List.range 1024) ++ [pt]

theorem mem_framesOf {js : List Nat} {p : BitVec 32} :
    p ∈ framesOf map i js ↔ ∃ j ∈ js, ∃ m, map (1024 * i + j) = some m ∧ m.kpage = p := by
  simp [framesOf, List.mem_filterMap]

/-- The pages of the directory that the rest of the loop reads are as they were at first. -/
theorem destroyTables_spec (h : Shows k before pd tables map s)
    (apart : ∀ n m, map n = some m → ¬Own before s m.kpage) {indices : List Nat}
    (lt : ∀ i ∈ indices, i < 768) (nodup : indices.Nodup) {t : State}
    (same : ∀ x, pgRoundDown x = pd ∨ (∃ i ∈ indices, tables i = some (pgRoundDown x)) →
      t.mem x = s.mem x) :
    ∃ t', destroyTables pd indices t = some t' ∧
      t'.freed = t.freed ++ indices.flatMap (pagesOf tables map) := by
  induction indices generalizing t with
  | nil => exact ⟨t, rfl, (List.append_nil _).symm⟩
  | cons i rest ih =>
    rw [forall_mem_cons] at lt
    rw [List.nodup_cons] at nodup
    have pde : t.mem (word pd i) = ((tables i).map pdeOf).getD 0#32 := by
      rw [same _ (.inl (pgRoundDown_word h.page (by omega))), h.pde i lt.1]
    rw [destroyTables, pde, List.flatMap_cons]
    cases known : tables i with
    | none =>
      have nothing : pagesOf tables map i = [] := by rw [pagesOf, known]
      rw [nothing, List.nil_append]
      refine ih lt.2 nodup.2 fun x kept => same x (kept.imp_right ?_)
      rintro ⟨j, here, table⟩
      exact ⟨j, List.mem_cons_of_mem _ here, table⟩
    | some pt =>
      obtain ⟨-, page, other⟩ := h.isTable i pt known
      have taken : Own before s pt := (h.own pt).mpr (.inr ⟨i, known⟩)
      have entries : ∀ j ∈ List.range 1024, Entry (t.mem (word pt j)) (map (1024 * i + j)) := by
        intro j here
        have inside := mem_range.mp here
        have index : (1024 * i + j) / 1024 = i := by omega
        have entry := h.entry (1024 * i + j) pt (index.symm ▸ known)
        rw [show (1024 * i + j) % 1024 = j by omega] at entry
        rw [same _ (.inr ⟨i, List.mem_cons_self .., by rw [pgRoundDown_word page inside, known]⟩)]
        exact entry
      obtain ⟨t1, ran, freed, mem⟩ := destroyEntries_spec page i
        (fun j here => mem_range.mp here) entries fun n m bound =>
          ⟨h.frame n m bound, fun equal => apart n m bound (equal ▸ taken)⟩
      have kept (x : BitVec 32) (later : pgRoundDown x = pd ∨
          ∃ j ∈ rest, tables j = some (pgRoundDown x)) :
          (pallocFreePage pt t1).mem x = s.mem x := by
        have unequal : pgRoundDown x ≠ pt := by
          intro equal
          rcases later with directory | ⟨j, here, table⟩
          · exact other (equal.symm.trans directory)
          · exact nodup.1 (h.apart i j pt known (equal ▸ table) ▸ here)
        have unframed : pgRoundDown x ∉ framesOf map i (List.range 1024) := by
          rw [mem_framesOf]
          rintro ⟨j, -, m, bound, equal⟩
          refine apart _ m bound ((h.own _).mpr ?_)
          rw [equal]
          exact later.imp_right fun ⟨j, _, table⟩ => ⟨j, table⟩
        rw [pallocFreePage_mem _ _ unequal, mem x unframed]
        refine same x (later.imp_right ?_)
        rintro ⟨j, here, table⟩
        exact ⟨j, List.mem_cons_of_mem _ here, table⟩
      obtain ⟨t', ran', freed'⟩ := ih lt.2 nodup.2 kept
      have pages : pagesOf tables map i = framesOf map i (List.range 1024) ++ [pt] := by
        rw [pagesOf, known]
      refine ⟨t', ?_, ?_⟩
      · rw [map_some, Option.getD_some, if_pos page.pdeOf_bits.2, page.pdeGetPt]
        simp only [bind_eq_bind, bind_some]
        rw [show pgsize / 4 = 1024 from rfl, ran]
        exact ran'
      · rw [freed', pages]
        simp only [pallocFreePage, State.fill, freed, append_assoc]

theorem mem_pagesOf {p : BitVec 32} : p ∈ pagesOf tables map i ↔ ∃ pt, tables i = some pt ∧
    (p = pt ∨ ∃ n m, n / 1024 = i ∧ map n = some m ∧ m.kpage = p) := by
  rw [pagesOf]
  cases tables i with
  | none => simp
  | some pt =>
    have frames : p ∈ framesOf map i (List.range 1024) ↔
        ∃ n m, n / 1024 = i ∧ map n = some m ∧ m.kpage = p := by
      rw [mem_framesOf]
      constructor
      · rintro ⟨j, here, m, bound, equal⟩
        have inside := mem_range.mp here
        exact ⟨1024 * i + j, m, by omega, bound, equal⟩
      · rintro ⟨n, m, rfl, bound, equal⟩
        refine ⟨n % 1024, mem_range.mpr (Nat.mod_lt _ (by decide)), m, ?_, equal⟩
        rw [Nat.div_add_mod, bound]
    simp only [List.mem_append, mem_singleton, frames, some.injEq, exists_eq_left', or_comm]

section

variable (h : Shows k before pd tables map s)
  (apart : ∀ n m, map n = some m → ¬Own before s m.kpage)
include h apart

theorem Shows.nodup_pagesOf (i : Nat) : (pagesOf tables map i).Nodup := by
  rw [pagesOf]
  cases known : tables i with
  | none => exact List.nodup_nil
  | some pt =>
    refine List.nodup_append.mpr ⟨?_, List.nodup_singleton pt, ?_⟩
    · refine List.Nodup.filterMap (fun j j' p here here' => ?_) nodup_range
      obtain ⟨m, bound, rfl⟩ := map_eq_some_iff.mp here
      obtain ⟨m', bound', equal⟩ := map_eq_some_iff.mp here'
      have index := h.distinct _ _ _ _ bound bound' equal.symm
      omega
    · intro p here q single equal
      obtain ⟨j, -, m, bound, rfl⟩ := mem_framesOf.mp here
      refine apart _ m bound ((h.own _).mpr (.inr ⟨i, ?_⟩))
      rw [known, equal, mem_singleton.mp single]

theorem Shows.disjoint_pagesOf {j : Nat} (ne : i ≠ j) :
    List.Disjoint (pagesOf tables map i) (pagesOf tables map j) := by
  intro p here here'
  obtain ⟨pt, known, kind⟩ := mem_pagesOf.mp here
  obtain ⟨pt', known', kind'⟩ := mem_pagesOf.mp here'
  have table : Own before s pt := (h.own pt).mpr (.inr ⟨i, known⟩)
  have table' : Own before s pt' := (h.own pt').mpr (.inr ⟨j, known'⟩)
  rcases kind with rfl | ⟨n, m, rfl, bound, rfl⟩
  · rcases kind' with rfl | ⟨n', m', rfl, bound', equal⟩
    · exact ne (h.apart i j p known known')
    · exact apart n' m' bound' (equal ▸ table)
  · rcases kind' with equal | ⟨n', m', rfl, bound', equal⟩
    · exact apart n m bound (equal ▸ table')
    · exact ne (congrArg (· / 1024) (h.distinct _ _ _ _ bound bound' equal.symm))

theorem Shows.destroy : ∃ s' log, pagedirDestroy k pd s = some s' ∧ s'.freed = s.freed ++ log ∧
    log.Nodup ∧ ∀ p, p ∈ log ↔ Own before s p ∨ ∃ n m, map n = some m ∧ m.kpage = p := by
  obtain ⟨t, ran, freed⟩ := destroyTables_spec h apart
    (fun i (here : i ∈ List.range 768) => mem_range.mp here) nodup_range fun _ _ => rfl
  refine ⟨pallocFreePage pd t, (List.range 768).flatMap (pagesOf tables map) ++ [pd], ?_, ?_, ?_,
    fun p => ?_⟩
  · rw [pagedirDestroy, if_neg h.page.ne_zero]
    simp only [guard, if_pos h.notInit, show (pdNo physBase).toNat = 768 from rfl, ran]
    rfl
  · simp only [pallocFreePage, State.fill, freed, append_assoc]
  · refine List.nodup_append.mpr ⟨List.nodup_flatMap.mpr ⟨fun i _ => h.nodup_pagesOf apart i,
      nodup_range.imp fun ne => h.disjoint_pagesOf apart ne⟩, List.nodup_singleton pd, ?_⟩
    intro p here q single equal
    obtain rfl := mem_singleton.mp single
    obtain ⟨i, -, inside⟩ := List.mem_flatMap.mp here
    obtain ⟨pt, known, rfl | ⟨n, m, -, bound, rfl⟩⟩ := mem_pagesOf.mp inside
    · exact (h.isTable i p known).2.2 equal
    · exact apart n m bound ((h.own _).mpr (.inl equal))
  · rw [List.mem_append, mem_singleton, List.mem_flatMap]
    constructor
    · rintro (⟨i, -, inside⟩ | rfl)
      · obtain ⟨pt, known, rfl | ⟨n, m, -, bound, equal⟩⟩ := mem_pagesOf.mp inside
        · exact .inl ((h.own p).mpr (.inr ⟨i, known⟩))
        · exact .inr ⟨n, m, bound, equal⟩
      · exact .inl ((h.own p).mpr (.inl rfl))
    rintro (taken | ⟨n, m, bound, equal⟩)
    · rcases (h.own p).mp taken with rfl | ⟨i, known⟩
      · exact .inr rfl
      · exact .inl ⟨i, mem_range.mpr (h.isTable i p known).1, mem_pagesOf.mpr ⟨p, known, .inl rfl⟩⟩
    cases known : tables (n / 1024) with
    | none =>
      rw [h.untabled n known] at bound
      cases bound
    | some pt =>
      exact .inl ⟨n / 1024, mem_range.mpr (h.isTable _ pt known).1,
        mem_pagesOf.mpr ⟨pt, known, .inr ⟨n, m, rfl, bound, equal⟩⟩⟩

end

end Destroy

inductive Call where
  | setPage (upage kpage : BitVec 32) (writable : Bool) (grant : Option (BitVec 32))
  | clearPage (upage : BitVec 32)
  | setDirty (vpage : BitVec 32) (dirty : Bool)
  | setAccessed (vpage : BitVec 32) (accessed : Bool)
  | getPage (uaddr : BitVec 32)
  | isDirty (vpage : BitVec 32)
  | isAccessed (vpage : BitVec 32)

inductive Answer where
  | unit
  | bool (b : Bool)
  | page (kaddr : Option (BitVec 32))

def perform (k : Kernel) (pd : BitVec 32) (s : State) : Call → Option (Answer × State)
  | .setPage upage kpage writable grant =>
    (pagedirSetPage k pd upage kpage writable grant s).map fun r => (.bool r.1, r.2)
  | .clearPage upage => (pagedirClearPage k pd upage s).map fun s => (.unit, s)
  | .setDirty vpage dirty => (pagedirSetDirty k pd vpage dirty s).map fun s => (.unit, s)
  | .setAccessed vpage accessed =>
    (pagedirSetAccessed k pd vpage accessed s).map fun s => (.unit, s)
  | .getPage uaddr => (pagedirGetPage pd uaddr s).map fun r => (.page r, s)
  | .isDirty vpage => (pagedirIsDirty pd vpage s).map fun r => (.bool r, s)
  | .isAccessed vpage => (pagedirIsAccessed pd vpage s).map fun r => (.bool r, s)

def mapAfter (map : UserMap) : Call → Answer → UserMap
  | .setPage upage kpage writable _, .bool true =>
    update map (pgNo upage).toNat (some ⟨kpage, writable, false, false⟩)
  | .clearPage upage, _ => update map (pgNo upage).toNat none
  | .setDirty vpage dirty, _ => update map (pgNo vpage).toNat
      ((map (pgNo vpage).toNat).map fun m => { m with dirty })
  | .setAccessed vpage accessed, _ => update map (pgNo vpage).toNat
      ((map (pgNo vpage).toNat).map fun m => { m with accessed })
  | _, _ => map

/-- The answer that the map gives. Only an allocation that fails makes a call fail. -/
def Answers (map : UserMap) : Call → Answer → Prop
  | .setPage _ _ _ grant, answer => answer = .bool true ∨ grant = none ∧ answer = .bool false
  | .getPage uaddr, answer =>
    answer = .page ((map (pgNo uaddr).toNat).map fun m => m.kpage + pgOfs uaddr)
  | .isDirty vpage, answer => ∀ m, map (pgNo vpage).toNat = some m → answer = .bool m.dirty
  | .isAccessed vpage, answer => ∀ m, map (pgNo vpage).toNat = some m → answer = .bool m.accessed
  | _, answer => answer = .unit

/-- The state, and the map that the calls so far have made. -/
structure World where
  state : State
  map : UserMap

def step (k : Kernel) (pd : BitVec 32) (w : World) (call : Call) : Option World :=
  (perform k pd w.state call).map fun r => ⟨r.2, mapAfter w.map call r.1⟩

/-- Calls on user pages. A page that is mapped is not mapped yet, and its frame is a page of
memory that is mapped nowhere else; the allocator returns a page that is not in use. -/
def Proper (k : Kernel) (w : World) : Call → Prop
  | .setPage upage kpage _ grant =>
    isUserVaddr upage = true ∧ pgOfs upage = 0#32 ∧ w.map (pgNo upage).toNat = none ∧
      IsPage kpage ∧ (kpage - physBase) >>> 12 < k.initRamPages ∧
      (∀ n m, w.map n = some m → m.kpage ≠ kpage) ∧ Fresh w.state grant
  | .clearPage upage => isUserVaddr upage = true ∧ pgOfs upage = 0#32
  | .setDirty vpage _ | .setAccessed vpage _ | .isDirty vpage | .isAccessed vpage =>
    isUserVaddr vpage = true
  | .getPage uaddr => isUserVaddr uaddr = true

theorem Shows.perform {k : Kernel} {before : State} {pd : BitVec 32}
    {tables : Nat → Option (BitVec 32)} {w : World} (h : Shows k before pd tables w.map w.state)
    {call : Call} (proper : Proper k w call) :
    ∃ answer s' tables', perform k pd w.state call = some (answer, s') ∧ Answers w.map call answer ∧
    Shows k before pd tables' (mapAfter w.map call answer) s' := by
  cases call with
  | setPage upage kpage writable grant =>
    obtain ⟨user, aligned, absent, isPage, inRam, unmapped, fresh⟩ := proper
    rcases h.setPage user aligned absent isPage inRam unmapped writable fresh with
      ⟨tables', s', ran, shows⟩ | ⟨none, ran⟩
    · exact ⟨.bool true, s', tables', by rw [PageMap.perform, ran]; rfl, .inl rfl, shows⟩
    · exact ⟨.bool false, w.state, tables, by rw [PageMap.perform, ran]; rfl, .inr ⟨none, rfl⟩, h⟩
  | clearPage upage =>
    obtain ⟨s', ran, shows⟩ := h.clearPage proper.1 proper.2
    exact ⟨.unit, s', tables, by rw [PageMap.perform, ran]; rfl, rfl, shows⟩
  | setDirty vpage dirty =>
    obtain ⟨s', ran, shows⟩ := h.setFlag proper .dirty dirty
    exact ⟨.unit, s', tables, by rw [PageMap.perform, pagedirSetDirty, ran]; rfl, rfl, shows⟩
  | setAccessed vpage accessed =>
    obtain ⟨s', ran, shows⟩ := h.setFlag proper .accessed accessed
    exact ⟨.unit, s', tables, by rw [PageMap.perform, pagedirSetAccessed, ran]; rfl, rfl, shows⟩
  | getPage uaddr =>
    exact ⟨_, w.state, tables, by rw [PageMap.perform, h.getPage proper]; rfl, rfl, h⟩
  | isDirty vpage =>
    obtain ⟨b, ran, known⟩ := h.isFlag proper .dirty
    exact ⟨.bool b, w.state, tables, by rw [PageMap.perform, pagedirIsDirty, ran]; rfl,
      fun m bound => congrArg _ (known m bound), h⟩
  | isAccessed vpage =>
    obtain ⟨b, ran, known⟩ := h.isFlag proper .accessed
    exact ⟨.bool b, w.state, tables, by rw [PageMap.perform, pagedirIsAccessed, ran]; rfl,
      fun m bound => congrArg _ (known m bound), h⟩

/-- In every run of calls on a new directory, each call succeeds and answers as the map does,
the kernel half and all memory outside the pages taken for the directory stay as they were,
and destroying the directory frees each of its pages and each mapped frame once. -/
theorem pagedir_refines {k : Kernel} {before s : State} (booted : Booted k before)
    {pd : BitVec 32} (fresh : Fresh before (some pd))
    (created : pagedirCreate k (some pd) before = (some pd, s)) {w : World}
    (run : Reachable ⟨s, fun _ => none⟩ (step k pd) (Proper k) w) :
    (∀ call, Proper k w call → ∃ answer s', perform k pd w.state call = some (answer, s') ∧
      Answers w.map call answer ∧ step k pd w call = some ⟨s', mapAfter w.map call answer⟩) ∧
    (∀ i, 768 ≤ i → i < 1024 → w.state.mem (word pd i) = before.mem (word k.initPageDir i)) ∧
    (∀ x, ¬Own before w.state (pgRoundDown x) → w.state.mem x = before.mem x) ∧
    ((∀ n m, w.map n = some m → ¬Own before w.state m.kpage) →
      ∃ s' log, pagedirDestroy k pd w.state = some s' ∧ s'.freed = w.state.freed ++ log ∧
        log.Nodup ∧
        ∀ p, p ∈ log ↔ Own before w.state p ∨ ∃ n m, w.map n = some m ∧ m.kpage = p) := by
  have start := booted.create (fresh pd rfl).1 (fresh pd rfl).2
  rw [created] at start
  have shows : ∃ tables, Shows k before pd tables w.map w.state := by
    refine run.invariant (P := fun w => ∃ tables, Shows k before pd tables w.map w.state)
      ⟨_, start⟩ fun w call w' ⟨tables, shown⟩ proper taken => ?_
    obtain ⟨answer, s', tables', ran, -, after⟩ := shown.perform proper
    rw [step, ran, map_some, some.injEq] at taken
    exact ⟨tables', taken ▸ after⟩
  obtain ⟨tables, h⟩ := shows
  refine ⟨fun call proper => ?_, h.kernel, h.rest, h.destroy⟩
  obtain ⟨answer, s', tables', ran, answers, -⟩ := h.perform proper
  exact ⟨answer, s', ran, answers, by rw [step, ran]; rfl⟩

theorem onePage_boots : ∃ s, pagingInit 1#32 (fun _ => false) [0xc0100000#32, 0xc0101000#32]
    ⟨fun _ => 0#32, 0#32, [], []⟩ = some (⟨0xc0100000#32, 1#32⟩, s) ∧
      s.taken = [0xc0100000#32, 0xc0101000#32] :=
  ⟨_, rfl, rfl⟩

theorem pagedir_refines_onePage : ∃ before w,
    Booted ⟨0xc0100000#32, 1#32⟩ before ∧
      Reachable ⟨(pagedirCreate ⟨0xc0100000#32, 1#32⟩ (some 0xc0200000#32) before).2, fun _ => none⟩
        (step ⟨0xc0100000#32, 1#32⟩ 0xc0200000#32) (Proper ⟨0xc0100000#32, 1#32⟩) w ∧
      ∃ s', perform ⟨0xc0100000#32, 1#32⟩ 0xc0200000#32 w.state (.getPage 0x08048123#32) =
        some (.page (some 0xc0000123#32), s') := by
  obtain ⟨before, ran, taken⟩ := onePage_boots
  have booted := pagingInit_booted (by decide) (by simp [IsPage]; decide) (by decide) ran
  have fresh : Fresh before (some 0xc0200000#32) := by
    intro page same
    obtain rfl := some.inj same
    exact ⟨⟨by decide, by decide⟩, by rw [taken]; decide⟩
  have proper : Proper ⟨0xc0100000#32, 1#32⟩
      ⟨(pagedirCreate ⟨0xc0100000#32, 1#32⟩ (some 0xc0200000#32) before).2, fun _ => none⟩
      (.setPage 0x08048000#32 0xc0000000#32 true (some 0xc0300000#32)) := by
    refine ⟨by decide, by decide, rfl, ⟨by decide, by decide⟩, by decide,
      (fun _ _ bound => nomatch bound), fun page same => ?_⟩
    obtain rfl := some.inj same
    refine ⟨⟨by decide, by decide⟩, ?_⟩
    simp [pagedirCreate, pallocGetPage, State.fill, taken]
  obtain ⟨answer, s1, -, answers, stepped⟩ :=
    (pagedir_refines booted fresh rfl .start).1 _ proper
  obtain rfl : answer = .bool true := answers.resolve_right fun failed => nomatch failed.1
  have reached := Reachable.next .start proper stepped
  obtain ⟨_, s2, ran, rfl, -⟩ := (pagedir_refines booted fresh rfl reached).1
    (.getPage 0x08048123#32) (show isUserVaddr 0x08048123#32 = true by decide)
  exact ⟨before, _, booted, reached, s2, ran⟩

end Pintos.PageMap
